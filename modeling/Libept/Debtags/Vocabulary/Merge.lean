import Libept.Debtags.Vocabulary
import Libept.Lib.MultiMap

/-!
# Merging records into a vocabulary

One specification for each function that `read` goes through: where facets and tags are put, and
which value each field gets. In a well-formed vocabulary every facet and every tag is stored where
its name is looked up, and merging a record keeps that and never fails.
-/

namespace Libept

open Std Voc

namespace Voc

/-! ### Merging fields -/

section Fields

variable {skip k : Str} {m : StrMap Str}

/-- The loop over the fields of a record, in a list. -/
def mergeList (skip : Str) (l : List (Str × Str)) (m : StrMap Str) : StrMap Str :=
  l.foldl (fun m a => if a.1 != skip then m.insert a.1 a.2 else m) m

lemma mergeList_cons (a : Str × Str) (l : List (Str × Str)) :
    mergeList skip (a :: l) m = mergeList skip l (if a.1 != skip then m.insert a.1 a.2 else m) :=
  rfl

lemma mergeList_of_not_mem {l : List (Str × Str)} (h : k = skip ∨ ∀ v, (k, v) ∉ l) :
    (mergeList skip l m)[k]? = m[k]? := by
  induction l generalizing m with
  | nil => rfl
  | cons a l ih =>
    have hl : k = skip ∨ ∀ v, (k, v) ∉ l :=
      h.imp_right fun h v hv => h v (List.mem_cons_of_mem _ hv)
    rw [mergeList_cons, ih hl]
    split_ifs with ha
    · rw [ExtTreeMap.getElem?_insert, if_neg]
      intro hak
      obtain rfl := LawfulEqCmp.eq_of_compare hak
      rcases h with rfl | h
      · simp at ha
      · exact h a.2 List.mem_cons_self
    · rfl

lemma mergeList_of_mem {l : List (Str × Str)} (hl : l.Pairwise fun a b => ¬compare a.1 b.1 = .eq)
    {v : Str} (hv : (k, v) ∈ l) (hk : k ≠ skip) : (mergeList skip l m)[k]? = some v := by
  induction l generalizing m with
  | nil => cases hv
  | cons a l ih =>
    obtain ⟨ha, hl⟩ := List.pairwise_cons.mp hl
    rw [mergeList_cons]
    rcases List.mem_cons.mp hv with rfl | hv
    · have hnot : ∀ v', (k, v') ∉ l := fun v' hv' => ha _ hv' ReflCmp.compare_self
      rw [mergeList_of_not_mem (.inr hnot), if_pos (by simpa using hk)]
      simp
    · exact ih hl hv

/-- A record gives new values to all its fields but the skipped one. -/
lemma Data.getElem?_merge (d : Data) (skip : Str) (record : Record) (k : Str) :
    (d.merge skip record).fields[k]? =
      if k = skip then d.fields[k]? else (record[k]?).or d.fields[k]? := by
  have hmerge : (d.merge skip record).fields = mergeList skip record.toList d.fields :=
    ExtTreeMap.foldl_eq_foldl_toList
  rw [hmerge]
  split_ifs with hk
  · exact mergeList_of_not_mem (.inl hk)
  · cases hv : record[k]? with
    | none =>
      refine mergeList_of_not_mem (.inr fun v hmem => ?_)
      rw [ExtTreeMap.mem_toList_iff_getElem?_eq_some, hv] at hmem
      cases hmem
    | some v =>
      exact mergeList_of_mem ExtTreeMap.distinct_keys_toList
        (ExtTreeMap.mem_toList_iff_getElem?_eq_some.mpr hv) hk

end Fields

/-! ### Well-formed data -/

/-- What holds of the data stored for the tag `t`. -/
structure IsTag (t : Str) (d : TagData) : Prop where
  name : d.name = t
  no_tag : d.fields[str "Tag"]? = none
  no_facet : d.fields[str "Facet"]? = none

/-- What holds of the data stored for the facet `f`. -/
structure IsFacet (f : Str) (d : FacetData) : Prop where
  name : d.name = f
  no_facet : d.fields[str "Facet"]? = none
  facet_of_tag (t : Str) (td : TagData) (h : d.m_tags[t]? = some td) : getfacet t = f
  isTag (t : Str) (td : TagData) (h : d.m_tags[t]? = some td) : IsTag t td

variable {f t : Str} {d : FacetData} {td : TagData} {record : Record}

lemma isTag_named (t : Str) : IsTag t (Data.named t) :=
  ⟨rfl, by simp [Data.named], by simp [Data.named]⟩

lemma isFacet_named (f : Str) : IsFacet f (FacetData.named f) where
  name := rfl
  no_facet := by simp [FacetData.named, Data.named]
  facet_of_tag t td h := by simp [FacetData.named] at h
  isTag t td h := by simp [FacetData.named] at h

lemma IsTag.merge (h : IsTag t td) (hrecord : record[str "Facet"]? = none) :
    IsTag t (td.merge (str "Tag") record) where
  name := h.name
  no_tag := by rw [Data.getElem?_merge, if_pos rfl, h.no_tag]
  no_facet := by rw [Data.getElem?_merge, if_neg (by decide), hrecord, h.no_facet, Option.or_none]

lemma IsFacet.merge (h : IsFacet f d) (record : Record) :
    IsFacet f { d with toData := d.toData.merge (str "Facet") record } where
  name := h.name
  no_facet := by rw [Data.getElem?_merge, if_pos rfl, h.no_facet]
  facet_of_tag := h.facet_of_tag
  isTag := h.isTag

lemma IsFacet.insert (h : IsFacet (getfacet t) d) (htd : IsTag t td) :
    IsFacet (getfacet t) { d with m_tags := d.m_tags.insert t td } where
  name := h.name
  no_facet := h.no_facet
  facet_of_tag u ud hu := by
    rw [ExtTreeMap.getElem?_insert] at hu
    split_ifs at hu with htu
    · rw [LawfulEqCmp.eq_of_compare htu]
    · exact h.facet_of_tag u ud hu
  isTag u ud hu := by
    rw [ExtTreeMap.getElem?_insert] at hu
    split_ifs at hu with htu
    · obtain rfl := LawfulEqCmp.eq_of_compare htu
      rwa [← Option.some.inj hu]
    · exact h.isTag u ud hu

end Voc

namespace Vocabulary

variable {v : Vocabulary} {f t : Str} {d : FacetData} {record : Record}

/-- Every facet and every tag is stored under its name. -/
def Wf (v : Vocabulary) : Prop := ∀ (f : Str) (d : FacetData), v.m_facets[f]? = some d → IsFacet f d

lemma wf_empty : empty.Wf := by
  intro f d h
  simp [empty] at h

lemma Wf.setFacet (h : v.Wf) (hd : IsFacet f d) : (v.setFacet f d).Wf := by
  intro g e hg
  rw [Vocabulary.setFacet, ExtTreeMap.getElem?_insert] at hg
  split_ifs at hg with hfg
  · obtain rfl := LawfulEqCmp.eq_of_compare hfg
    rwa [← Option.some.inj hg]
  · exact h g e hg

/-! ### Merging a record -/

/-- The facet stored under a name, a new one if there is none. -/
def facetOrNew (v : Vocabulary) (f : Str) : FacetData := v.m_facets[f]?.getD (FacetData.named f)

/-- The tag stored in a facet, a new one if there is none. -/
def tagOrNew (d : FacetData) (t : Str) : TagData := d.m_tags[t]?.getD (Data.named t)

lemma Wf.isFacet (h : v.Wf) (f : Str) : IsFacet f (v.facetOrNew f) := by
  rw [facetOrNew]
  cases hd : v.m_facets[f]? with
  | none => exact isFacet_named f
  | some d => exact h f d hd

lemma isTag_tagOrNew (h : IsFacet f d) (t : Str) : IsTag t (tagOrNew d t) := by
  rw [tagOrNew]
  cases htd : d.m_tags[t]? with
  | none => exact isTag_named t
  | some td => exact h.isTag t td htd

lemma obtainFacet_fst (v : Vocabulary) (f : Str) : (v.obtainFacet f).1 = v.facetOrNew f := by
  unfold obtainFacet facetOrNew
  cases v.m_facets[f]? <;> rfl

/-- Storing a facet makes up for what `obtainFacet` may have created. -/
lemma setFacet_obtainFacet (v : Vocabulary) (f : Str) (d : FacetData) :
    (v.obtainFacet f).2.setFacet f d = v.setFacet f d := by
  unfold obtainFacet setFacet
  cases v.m_facets[f]? with
  | none => exact congrArg mk (MultiMap.insert_insert _ _ _ _)
  | some e => rfl

lemma obtainTag_fst (d : FacetData) (t : Str) : (d.obtainTag t).1 = tagOrNew d t := by
  unfold FacetData.obtainTag tagOrNew
  cases d.m_tags[t]? <;> rfl

lemma insert_obtainTag (d : FacetData) (t : Str) (td : TagData) :
    { (d.obtainTag t).2 with m_tags := (d.obtainTag t).2.m_tags.insert t td } =
      { d with m_tags := d.m_tags.insert t td } := by
  rw [FacetData.obtainTag]
  cases d.m_tags[t]? with
  | none => exact congrArg (FacetData.mk d.toData) (MultiMap.insert_insert _ _ _ _)
  | some e => rfl

/-- The facet `f` after a record that names it. -/
def mergedFacet (v : Vocabulary) (f : Str) (record : Record) : FacetData :=
  { v.facetOrNew f with toData := (v.facetOrNew f).toData.merge (str "Facet") record }

/-- The facet of the tag `t` after a record that names the tag. -/
def mergedTag (v : Vocabulary) (t : Str) (record : Record) : FacetData :=
  { v.facetOrNew (getfacet t) with
    m_tags := (v.facetOrNew (getfacet t)).m_tags.insert t
      ((tagOrNew (v.facetOrNew (getfacet t)) t).merge (str "Tag") record) }

lemma mergeRecord_facet (h : v.Wf) (hf : record[str "Facet"]? = some f) :
    v.mergeRecord record = (.ok (), v.setFacet f (v.mergedFacet f record)) := by
  have hname : (v.facetOrNew f).name = f := (h.isFacet f).name
  simp [mergeRecord, hf, obtainFacet_fst, setFacet_obtainFacet, hname, mergedFacet]

lemma mergeRecord_tag (v : Vocabulary) (hf : record[str "Facet"]? = none)
    (ht : record[str "Tag"]? = some t) :
    v.mergeRecord record = (.ok (), v.setFacet (getfacet t) (v.mergedTag t record)) := by
  simp only [mergeRecord, hf, ht, obtainFacet_fst, setFacet_obtainFacet, obtainTag_fst,
    insert_obtainTag, mergedTag]

lemma mergeRecord_skip (v : Vocabulary) (hf : record[str "Facet"]? = none)
    (ht : record[str "Tag"]? = none) : v.mergeRecord record = (.ok (), v) := by
  simp only [mergeRecord, hf, ht]

/-- A record with a `Facet` field, one with a `Tag` field only, or one with neither. -/
lemma record_cases (record : Record) :
    (∃ f, record[str "Facet"]? = some f) ∨
      (record[str "Facet"]? = none ∧ ∃ t, record[str "Tag"]? = some t) ∨
      (record[str "Facet"]? = none ∧ record[str "Tag"]? = none) := by
  cases record[str "Facet"]? <;> cases record[str "Tag"]? <;> simp

/-- Merging a record into a well-formed vocabulary never fails, and leaves it well-formed. -/
lemma Wf.mergeRecord (h : v.Wf) (record : Record) :
    (v.mergeRecord record).1 = .ok () ∧ (v.mergeRecord record).2.Wf := by
  rcases record_cases record with ⟨f, hf⟩ | ⟨hf, t, ht⟩ | ⟨hf, ht⟩
  · rw [mergeRecord_facet h hf]
    exact ⟨rfl, h.setFacet ((h.isFacet f).merge record)⟩
  · rw [mergeRecord_tag v hf ht]
    have htag := isTag_tagOrNew (h.isFacet (getfacet t)) t
    exact ⟨rfl, h.setFacet ((h.isFacet (getfacet t)).insert (htag.merge hf))⟩
  · rw [mergeRecord_skip v hf ht]
    exact ⟨rfl, h⟩

end Vocabulary

end Libept
