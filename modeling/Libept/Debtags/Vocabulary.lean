import Libept.Debtags.Maint.DebDBParser

/-!
# The vocabulary

Facets and tags with their data, and how a vocabulary is read from a file and written to a stream,
after `debtags/vocabulary.cc`. A reference to a facet or a tag is its value, put back under its key
after a change.
-/

namespace Libept

namespace Voc

/-- The facet of a tag: what comes before the first `::`. -/
def getfacet : Str → Str
  | tagname => (go tagname).getD (str "legacy")
where
  go : Str → Option Str
    | [] => none
    | c :: rest =>
      if c = colon ∧ rest.head? = some colon then some [] else (go rest).map (c :: ·)

/-- A map of fields, with a name and the cache of the short description. -/
structure Data where
  fields : StrMap Str
  m_desc : Str
  name : Str

namespace Data

/-- The value that a default constructor and an assignment of the name give. -/
def named (name : Str) : Data := ⟨∅, [], name⟩

def longDescription (d : Data) : Str := d.fields.getD (str "Description") []

/-- The short description, and the data with its cache filled. -/
def shortDescription (d : Data) : Str × Data :=
  if d.m_desc.isEmpty then
    let desc := d.longDescription.takeWhile (· != nl)
    (desc, { d with m_desc := desc })
  else (d.m_desc, d)

/-- Take over the fields of a record, but for one. -/
def merge (d : Data) (skip : Str) (record : Record) : Data :=
  { d with
    fields := record.foldl (fun fields k v => if k != skip then fields.insert k v else fields)
      d.fields }

end Data

abbrev TagData := Data

structure FacetData extends Data where
  m_tags : StrMap TagData

namespace FacetData

def named (name : Str) : FacetData := { Data.named name with m_tags := ∅ }

def hasTag (f : FacetData) (name : Str) : Bool := f.m_tags.contains name

def tagData (f : FacetData) (name : Str) : Option TagData := f.m_tags[name]?

def tags (f : FacetData) : StrSet := f.m_tags.foldl (fun res t _ => res.insert t) ∅

/-- The tag with the given name, created if it is missing. -/
def obtainTag (f : FacetData) (name : Str) : TagData × FacetData :=
  match f.m_tags[name]? with
  | some tag => (tag, f)
  | none => (Data.named name, { f with m_tags := f.m_tags.insert name (Data.named name) })

end FacetData

end Voc

open Voc

structure Vocabulary where
  m_facets : StrMap FacetData

namespace Vocabulary

def empty : Vocabulary := ⟨∅⟩

/-! ### Queries -/

def hasFacet (v : Vocabulary) (name : Str) : Bool := v.m_facets.contains name

def facetData (v : Vocabulary) (name : Str) : Option FacetData := v.m_facets[name]?

def hasTag (v : Vocabulary) (name : Str) : Bool :=
  match v.facetData (getfacet name) with
  | none => false
  | some f => f.hasTag name

def tagData (v : Vocabulary) (tagname : Str) : Option TagData :=
  match v.facetData (getfacet tagname) with
  | none => none
  | some f => f.tagData tagname

def facets (v : Vocabulary) : StrSet := v.m_facets.foldl (fun res f _ => res.insert f) ∅

def tags (v : Vocabulary) : StrSet :=
  v.m_facets.foldl (fun res _ f => f.m_tags.foldl (fun res t _ => res.insert t) res) ∅

/-- `tags(facet)` -/
def tagsOfFacet (v : Vocabulary) (facet : Str) : StrSet :=
  match v.facetData facet with
  | none => ∅
  | some f => f.tags

/-! ### Reading -/

/-- The facet with the given name, created if it is missing. -/
def obtainFacet (v : Vocabulary) (name : Str) : FacetData × Vocabulary :=
  match v.m_facets[name]? with
  | some facet => (facet, v)
  | none => (FacetData.named name, ⟨v.m_facets.insert name (FacetData.named name)⟩)

def setFacet (v : Vocabulary) (name : Str) (facet : FacetData) : Vocabulary :=
  ⟨v.m_facets.insert name facet⟩

/-- The body of the loop of `read`: merge one record. -/
def mergeRecord (v : Vocabulary) (record : Record) : Except Failure Unit × Vocabulary :=
  match record[str "Facet"]?, record[str "Tag"]? with
  | some fi, _ =>
    let (facet, v) := v.obtainFacet fi
    if facet.name != fi then (.error (.assertFailed (str "facet.name == fi->second")), v)
    else (.ok (), v.setFacet fi { facet with toData := facet.toData.merge (str "Facet") record })
  | none, some ti =>
    let (facet, v) := v.obtainFacet (getfacet ti)
    let (tag, facet) := facet.obtainTag ti
    (.ok (), v.setFacet (getfacet ti)
      { facet with m_tags := facet.m_tags.insert ti (tag.merge (str "Tag") record) })
  -- a record without Tag or Facet field is skipped
  | none, none => (.ok (), v)

def read (v : Vocabulary) (input : Str) : Comp (Except Failure Unit × Vocabulary) :=
  DebDBParser.forRecords mergeRecord v input

/-! ### Writing -/

/-- A value with its newlines escaped; `was_nl` tells that a newline has just been written. -/
def escape : Bool → Str → Str
  | _, [] => []
  | true, c :: val =>
    if c = nl then str " ." ++ c :: escape true val
    else if c != 32 && c != 9 then 32 :: c :: escape false val
    else c :: escape false val
  | false, c :: val => c :: escape (c = nl) val

def writeDebStyleField (name val : Str) : Str := name ++ str ": " ++ escape false val ++ [nl]

/-- A record that starts with the given field. -/
def writeRecord (key name : Str) (d : Data) : Str :=
  writeDebStyleField key name ++
    d.fields.toList.flatMap (fun (k, v) => writeDebStyleField k v) ++ [nl]

def write (v : Vocabulary) : Str :=
  v.m_facets.toList.flatMap fun (name, f) =>
    writeRecord (str "Facet") name f.toData ++
      f.m_tags.toList.flatMap fun (name, t) => writeRecord (str "Tag") name t

end Vocabulary

end Libept
