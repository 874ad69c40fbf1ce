import Libept.Debtags.Vocabulary.LastRecord
import Libept.Lib.Runs

/-!
# The cache of the short descriptions

The short description of a facet or a tag is cached when it is first asked for. Merging a record
replaces the description and leaves the cache as it is, so that what has been asked for before a
read is answered in the same way ever after.
-/

namespace Libept

namespace Voc

/-- The text up to its first newline. -/
def firstLine (s : Str) : Str := s.takeWhile (· != nl)

/-- A cache is empty, or holds the first line of the given text. -/
def Fresh (cache text : Str) : Prop := cache = [] ∨ cache = firstLine text

lemma Data.shortDescription_eq_iff (d : Data) :
    d.shortDescription.1 = firstLine d.longDescription ↔ Fresh d.m_desc d.longDescription := by
  unfold shortDescription Fresh firstLine
  cases d.m_desc <;> simp

lemma Data.fields_shortDescription (d : Data) : d.shortDescription.2.fields = d.fields := by
  rw [shortDescription]
  split_ifs <;> rfl

lemma Data.name_shortDescription (d : Data) : d.shortDescription.2.name = d.name := by
  rw [shortDescription]
  split_ifs <;> rfl

/-- Asking fills the cache with the first line. -/
lemma Data.coherent_shortDescription {d : Data}
    (h : d.shortDescription.1 = firstLine d.longDescription) :
    d.shortDescription.2.shortDescription.1 = firstLine d.shortDescription.2.longDescription := by
  have hlong : d.shortDescription.2.longDescription = d.longDescription := by
    rw [longDescription, d.fields_shortDescription, longDescription]
  rw [shortDescription_eq_iff, hlong]
  rw [shortDescription_eq_iff] at h
  rw [shortDescription]
  split_ifs
  · exact .inr rfl
  · exact h

end Voc

namespace Vocabulary

open Std Voc DebDBParser

variable {v v' : Vocabulary} {f t : Str} {d : FacetData} {record : Record} {records : List Record}

/-! ### Caches -/

/-- The cache of a facet, if there is one. -/
def facetCache (v : Vocabulary) (f : Str) : Str := (v.facetOrNew f).m_desc

/-- The cache of a tag, if there is one. -/
def tagCache (v : Vocabulary) (t : Str) : Str := (tagOrNew (v.facetOrNew (getfacet t)) t).m_desc

/-- The description of a facet. -/
def facetText (v : Vocabulary) (f : Str) : Str := (v.facetField f (str "Description")).getD []

/-- The description of a tag. -/
def tagText (v : Vocabulary) (t : Str) : Str := (v.tagField t (str "Description")).getD []

lemma facetOrNew_setFacet (v : Vocabulary) (f : Str) (d : FacetData) (g : Str) :
    (v.setFacet f d).facetOrNew g = if f = g then d else v.facetOrNew g := by
  rw [facetOrNew, getElem?_setFacet]
  split_ifs <;> rfl

/-- Every short description that can be asked for is the first line of the long one. -/
def CacheCoherent (v : Vocabulary) : Prop :=
  (∀ f d, v.facetData f = some d → d.shortDescription.1 = firstLine d.longDescription) ∧
    ∀ t td, v.tagData t = some td → td.shortDescription.1 = firstLine td.longDescription

lemma facet_of_facetData (h : v.facetData f = some d) :
    v.facetCache f = d.m_desc ∧ v.facetText f = d.longDescription := by
  rw [facetData] at h
  rw [facetCache, facetOrNew, facetText, facetField, h]
  exact ⟨rfl, ExtTreeMap.getD_eq_getD_getElem?.symm⟩

lemma tag_of_tagData {td : TagData} (h : v.tagData t = some td) :
    v.tagCache t = td.m_desc ∧ v.tagText t = td.longDescription := by
  rw [tagCache, tagOrNew, m_tags_facetOrNew, tagText, tagField, h]
  exact ⟨rfl, ExtTreeMap.getD_eq_getD_getElem?.symm⟩

lemma facetCache_of_none (h : v.facetData f = none) : v.facetCache f = [] := by
  rw [facetData] at h
  rw [facetCache, facetOrNew, h]
  rfl

lemma tagCache_of_none (h : v.tagData t = none) : v.tagCache t = [] := by
  rw [tagCache, tagOrNew, m_tags_facetOrNew, h]
  rfl

lemma cacheCoherent_iff : v.CacheCoherent ↔
    (∀ f, Fresh (v.facetCache f) (v.facetText f)) ∧ ∀ t, Fresh (v.tagCache t) (v.tagText t) := by
  refine and_congr ⟨fun h f => ?_, fun h f d hd => ?_⟩ ⟨fun h t => ?_, fun h t td htd => ?_⟩
  · cases hd : v.facetData f with
    | none => exact .inl (facetCache_of_none hd)
    | some d =>
      rw [(facet_of_facetData hd).1, (facet_of_facetData hd).2]
      exact d.shortDescription_eq_iff.mp (h f d hd)
  · rw [Data.shortDescription_eq_iff, ← (facet_of_facetData hd).1, ← (facet_of_facetData hd).2]
    exact h f
  · cases htd : v.tagData t with
    | none => exact .inl (tagCache_of_none htd)
    | some td =>
      rw [(tag_of_tagData htd).1, (tag_of_tagData htd).2]
      exact td.shortDescription_eq_iff.mp (h t td htd)
  · rw [Data.shortDescription_eq_iff, ← (tag_of_tagData htd).1, ← (tag_of_tagData htd).2]
    exact h t

/-! ### Reading -/

lemma caches_mergedFacet (v : Vocabulary) (g : Str) (record : Record) :
    (∀ f, (v.setFacet g (v.mergedFacet g record)).facetCache f = v.facetCache f) ∧
      ∀ t, (v.setFacet g (v.mergedFacet g record)).tagCache t = v.tagCache t := by
  constructor
  · intro f
    rw [facetCache, facetOrNew_setFacet]
    split_ifs with hgf
    · subst hgf
      rfl
    · rfl
  · intro t
    rw [tagCache, facetOrNew_setFacet]
    split_ifs with hgt
    · subst hgt
      rfl
    · rfl

lemma caches_mergedTag (v : Vocabulary) (u : Str) (record : Record) :
    (∀ f, (v.setFacet (getfacet u) (v.mergedTag u record)).facetCache f = v.facetCache f) ∧
      ∀ t, (v.setFacet (getfacet u) (v.mergedTag u record)).tagCache t = v.tagCache t := by
  constructor
  · intro f
    rw [facetCache, facetOrNew_setFacet]
    split_ifs with huf
    · subst huf
      rfl
    · rfl
  · intro t
    rw [tagCache, facetOrNew_setFacet]
    split_ifs with hfacet
    · rw [tagCache, ← hfacet]
      by_cases hut : u = t
      · subst hut
        simp [tagOrNew, mergedTag, Data.merge]
      · simp [tagOrNew, mergedTag, ExtTreeMap.getElem?_insert, hut]
    · rfl

/-- Merging records leaves the caches as they are. -/
lemma caches_mergeAll (h : v.Wf) (records : List Record) :
    (∀ f, (v.mergeAll records).facetCache f = v.facetCache f) ∧
      ∀ t, (v.mergeAll records).tagCache t = v.tagCache t := by
  induction records generalizing v with
  | nil => exact ⟨fun _ => rfl, fun _ => rfl⟩
  | cons record records ih =>
    obtain ⟨hfacets, htags⟩ := ih (h.mergeRecord record).2
    have hstep : (∀ f, (v.mergeRecord record).2.facetCache f = v.facetCache f) ∧
        ∀ t, (v.mergeRecord record).2.tagCache t = v.tagCache t := by
      rcases record_cases record with ⟨g, hg⟩ | ⟨hg, u, hu⟩ | ⟨hg, hu⟩
      · rw [mergeRecord_facet h hg]
        exact caches_mergedFacet v g record
      · rw [mergeRecord_tag v hg hu]
        exact caches_mergedTag v u record
      · rw [mergeRecord_skip v hg hu]
        exact ⟨fun _ => rfl, fun _ => rfl⟩
    exact ⟨fun f => (hfacets f).trans (hstep.1 f), fun t => (htags t).trans (hstep.2 t)⟩

/-- A read merges the records before the first error, also when it throws. -/
lemma feed_mergeAll (h : v.Wf) {e : End} {x : Except Failure Unit × Vocabulary}
    (hfeed : feed mergeRecord v records e = some x) : x.2 = v.mergeAll records := by
  induction records generalizing v with
  | nil =>
    cases e with
    | finished => exact (congrArg Prod.snd (Option.some.inj hfeed)).symm
    | failed e => exact (congrArg Prod.snd (Option.some.inj hfeed)).symm
    | hangs => cases hfeed
  | cons record records ih =>
    obtain ⟨hok, hwf⟩ := h.mergeRecord record
    have hpair : v.mergeRecord record = (.ok (), (v.mergeRecord record).2) := Prod.ext hok rfl
    rw [feed, hpair] at hfeed
    exact ih hwf hfeed

/-- If a name has a cache, a new description has the same first line. -/
def SameFirstLine (cache : Str) (new : Option Str) : Prop :=
  cache ≠ [] → ∀ text, new = some text → firstLine text = cache

/-- A cache stays fresh exactly if a new description has its first line. -/
lemma fresh_or_iff {cache : Str} {new old : Option Str} (h : Fresh cache (old.getD [])) :
    Fresh cache ((new.or old).getD []) ↔ SameFirstLine cache new := by
  rw [SameFirstLine]
  cases new with
  | none => simpa using h
  | some text =>
    simp only [Option.some_or, Option.getD_some, Fresh, Option.some.injEq, forall_eq']
    rw [← or_iff_not_imp_left, eq_comm (a := cache) (b := firstLine text)]

/-! ### Asking -/

/-- Ask a facet for its short description. -/
def askFacet (v : Vocabulary) (f : Str) : Option (Str × Vocabulary) :=
  (v.facetData f).map fun d =>
    (d.shortDescription.1, v.setFacet f { d with toData := d.shortDescription.2 })

/-- Ask a tag for its short description. -/
def askTag (v : Vocabulary) (t : Str) : Option (Str × Vocabulary) := do
  let d ← v.facetData (getfacet t)
  let td ← d.tagData t
  return (td.shortDescription.1,
    v.setFacet (getfacet t) { d with m_tags := d.m_tags.insert t td.shortDescription.2 })

lemma Wf.askFacet (h : v.Wf) (hd : v.facetData f = some d) :
    (v.setFacet f { d with toData := d.shortDescription.2 }).Wf := by
  have hfacet := h f d hd
  refine h.setFacet ⟨?_, ?_, hfacet.facet_of_tag, hfacet.isTag⟩
  · rw [d.name_shortDescription, hfacet.name]
  · rw [d.fields_shortDescription, hfacet.no_facet]

lemma Wf.askTag (h : v.Wf) {td : TagData} (hd : v.facetData (getfacet t) = some d)
    (htd : d.tagData t = some td) :
    (v.setFacet (getfacet t)
      { d with m_tags := d.m_tags.insert t td.shortDescription.2 }).Wf := by
  have htag := (h _ d hd).isTag t td htd
  refine h.setFacet ((h _ d hd).insert ⟨?_, ?_, ?_⟩)
  · rw [td.name_shortDescription, htag.name]
  · rw [td.fields_shortDescription, htag.no_tag]
  · rw [td.fields_shortDescription, htag.no_facet]

lemma CacheCoherent.askFacet (h : v.CacheCoherent) (hd : v.facetData f = some d) :
    (v.setFacet f { d with toData := d.shortDescription.2 }).CacheCoherent := by
  constructor
  · intro g e he
    rw [facetData, getElem?_setFacet] at he
    split_ifs at he
    · rw [← Option.some.inj he]
      exact Data.coherent_shortDescription (h.1 f d hd)
    · exact h.1 g e he
  · intro t td htd
    rw [tagData_setFacet] at htd
    split_ifs at htd with hft
    · subst hft
      exact h.2 t td (tagData_eq_some_iff.mpr ⟨d, hd, htd⟩)
    · exact h.2 t td htd

lemma CacheCoherent.askTag (h : v.CacheCoherent) {td : TagData}
    (hd : v.facetData (getfacet t) = some d) (htd : d.tagData t = some td) :
    (v.setFacet (getfacet t)
      { d with m_tags := d.m_tags.insert t td.shortDescription.2 }).CacheCoherent := by
  constructor
  · intro g e he
    rw [facetData, getElem?_setFacet] at he
    split_ifs at he
    · rw [← Option.some.inj he]
      exact h.1 _ d hd
    · exact h.1 g e he
  · intro u ud hud
    rw [tagData_setFacet] at hud
    split_ifs at hud with hfacet
    · rw [ExtTreeMap.getElem?_insert] at hud
      split_ifs at hud
      · rw [← Option.some.inj hud]
        exact Data.coherent_shortDescription (h.2 t td (tagData_eq_some_iff.mpr ⟨d, hd, htd⟩))
      · exact h.2 u ud (tagData_eq_some_iff.mpr ⟨d, hfacet ▸ hd, hud⟩)
    · exact h.2 u ud hud

/-! ### Runs -/

/-- Reading a file, and asking the facets and the tags that are there for their descriptions. -/
inductive DescCall where
  | read (input : Str)
  | facetShort (f : Str)
  | facetLong (f : Str)
  | tagShort (t : Str)
  | tagLong (t : Str)

/-- The vocabulary that a read leaves. After an overflow it is not defined. -/
def left : Except Failure Unit × Vocabulary → Option Vocabulary
  | (.error .overflow, _) => none
  | (_, v) => some v

/-- What is called on a vocabulary that is empty at first. A read may throw. -/
def descCalls : Transitions (Option Vocabulary) DescCall where
  init s := s = some empty
  step s call s' := ∃ v, s = some v ∧
    match call with
    | .read input => ∃ x, (v.read input).Returns x ∧ s' = left x
    | .facetShort f => ∃ desc v', v.askFacet f = some (desc, v') ∧ s' = some v'
    | .facetLong f => (∃ d, v.facetData f = some d) ∧ s' = some v
    | .tagShort t => ∃ desc v', v.askTag t = some (desc, v') ∧ s' = some v'
    | .tagLong t => (∃ td, v.tagData t = some td) ∧ s' = some v

/-- The vocabulary is defined, and its short descriptions are right. -/
def Coherent (s : Option Vocabulary) : Prop := ∃ v, s = some v ∧ v.CacheCoherent

/-- No count overflows in the file, and if it gives a facet or a tag with a filled cache a new
description, the last one begins with the line that is cached. The records of a file are those
before the first error. -/
def KeepsFirstLines (v : Vocabulary) : DescCall → Prop
  | .read input =>
    ¬Overflows input ∧
    (∀ f d, v.facetData f = some d → SameFirstLine d.m_desc
      ((reading input).1.reverse.findSome? fun record =>
        facetValue f (str "Description") (record[·]?))) ∧
    ∀ t td, v.tagData t = some td → SameFirstLine td.m_desc
      ((reading input).1.reverse.findSome? fun record =>
        tagValue t (str "Description") (record[·]?))
  | _ => True

/-- The same for every name, where the caches are those of the data stored under the names. -/
lemma forall_fresh_or_iff {α : Type} {data : Str → Option α} {m_desc : α → Str}
    {cache : Str → Str} {new old : Str → Option Str}
    (h : ∀ n, Fresh (cache n) ((old n).getD [])) (hnone : ∀ n, data n = none → cache n = [])
    (hsome : ∀ n a, data n = some a → cache n = m_desc a) :
    (∀ n, Fresh (cache n) (((new n).or (old n)).getD [])) ↔
      ∀ n a, data n = some a → SameFirstLine (m_desc a) (new n) := by
  constructor
  · intro hfresh n a ha
    rw [← hsome n a ha, ← fresh_or_iff (h n)]
    exact hfresh n
  · intro hsame n
    rw [fresh_or_iff (h n)]
    intro hcache
    cases ha : data n with
    | none => exact absurd (hnone n ha) hcache
    | some a =>
      rw [hsome n a ha] at hcache ⊢
      exact hsame n a ha hcache

/-- A read keeps the caches right exactly if it keeps the first lines that are cached. -/
lemma cacheCoherent_read_iff (hwf : v.Wf) (h : v.CacheCoherent) {input : Str}
    (hcount : ¬Overflows input) :
    (v.mergeAll (reading input).1).CacheCoherent ↔ v.KeepsFirstLines (.read input) := by
  rw [KeepsFirstLines, and_iff_right hcount]
  rw [cacheCoherent_iff] at h ⊢
  obtain ⟨hfacets, htags⟩ := caches_mergeAll hwf (reading input).1
  simp only [hfacets, htags, facetText, tagText, facetField_mergeAll hwf (k := str "Description")
    (by decide), tagField_mergeAll hwf (k := str "Description") (by decide)]
  apply and_congr
  · apply forall_fresh_or_iff h.1
    · intro f hnone
      exact facetCache_of_none hnone
    · intro f d hd
      exact (facet_of_facetData hd).1
  · apply forall_fresh_or_iff h.2
    · intro t hnone
      exact tagCache_of_none hnone
    · intro t td htd
      exact (tag_of_tagData htd).1

lemma left_of_ne_overflow {x : Except Failure Unit × Vocabulary} (h : x.1 ≠ .error .overflow) :
    left x = some x.2 := by
  obtain ⟨(_ | _ | _) | _, v⟩ := x
  · rfl
  · rfl
  · exact absurd rfl h
  · rfl

/-- A read step. -/
lemma coherent_left_iff (hwf : v.Wf) (h : v.CacheCoherent) {input : Str}
    {x : Except Failure Unit × Vocabulary} (hread : (v.read input).Returns x) :
    (∀ v', left x = some v' → v'.Wf) ∧
      (Coherent (left x) ↔ ∃ u, some v = some u ∧ u.KeepsFirstLines (.read input)) := by
  have hx := feed_mergeAll hwf ((read_denotes v input _).mp hread)
  have hoverflow := hwf.read_overflow_iff input
  by_cases hcount : Overflows input
  · obtain ⟨v', hv'⟩ := hoverflow.mpr hcount
    obtain rfl := hread.unique hv'
    refine ⟨?_, iff_of_false ?_ ?_⟩
    · intro u hu
      cases hu
    · rintro ⟨u, hu, -⟩
      cases hu
    · rintro ⟨u, hu, hkeeps⟩
      obtain rfl := Option.some.inj hu
      exact hkeeps.1 hcount
  · have hleft := left_of_ne_overflow (x := x) fun hfst => hcount (hoverflow.mp ⟨x.2, hfst ▸ hread⟩)
    have hiff := cacheCoherent_read_iff hwf h hcount
    rw [hleft, hx]
    refine ⟨?_, ?_⟩
    · rintro _ ⟨⟩
      exact hwf.mergeAll _
    · simpa [Coherent] using hiff

/-- In a run every short description that can be asked for is the first line of the long one at
that time, if and only if every file that is read keeps the first lines that are cached. -/
theorem cache_coherent_iff :
    ∀ steps s, descCalls.Run steps s →
      (Transitions.Always Coherent steps s ↔
        ∀ x ∈ steps, ∃ v, x.1 = some v ∧ v.KeepsFirstLines x.2) := by
  intro steps s hrun
  refine hrun.always_iff (J := fun s => ∀ v, s = some v → v.Wf) (I := Coherent)
    (P := fun s call => ∃ v, s = some v ∧ v.KeepsFirstLines call) ?_ ?_
  · rintro _ rfl
    refine ⟨?_, empty, rfl, cacheCoherent_iff.mpr ⟨fun f => .inl ?_, fun t => .inl ?_⟩⟩
    · rintro _ ⟨⟩
      exact wf_empty
    · simp [facetCache, facetOrNew, empty, FacetData.named, Data.named]
    · simp [tagCache, tagOrNew, facetOrNew, empty, FacetData.named, Data.named]
  · rintro _ call s' hwf ⟨v, rfl, h⟩ ⟨_, ⟨⟩, hstep⟩
    have hwf := hwf v rfl
    cases call with
    | read input =>
      obtain ⟨x, hread, rfl⟩ := hstep
      exact coherent_left_iff hwf h hread
    | facetShort f =>
      obtain ⟨desc, v', hask, rfl⟩ := hstep
      obtain ⟨d, hd, heq⟩ := Option.map_eq_some_iff.mp hask
      obtain ⟨-, rfl⟩ := Prod.mk.inj heq
      refine ⟨?_, iff_of_true ⟨_, rfl, h.askFacet hd⟩ ⟨v, rfl, trivial⟩⟩
      rintro _ ⟨⟩
      exact hwf.askFacet hd
    | facetLong f =>
      obtain ⟨-, rfl⟩ := hstep
      refine ⟨?_, iff_of_true ⟨v, rfl, h⟩ ⟨v, rfl, trivial⟩⟩
      rintro _ ⟨⟩
      exact hwf
    | tagShort t =>
      obtain ⟨desc, v', hask, rfl⟩ := hstep
      obtain ⟨d, hd, hask⟩ := Option.bind_eq_some_iff.mp hask
      obtain ⟨td, htd, heq⟩ := Option.bind_eq_some_iff.mp hask
      obtain ⟨-, rfl⟩ := Prod.mk.inj (Option.some.inj heq)
      refine ⟨?_, iff_of_true ⟨_, rfl, h.askTag hd htd⟩ ⟨v, rfl, trivial⟩⟩
      rintro _ ⟨⟩
      exact hwf.askTag hd htd
    | tagLong t =>
      obtain ⟨-, rfl⟩ := hstep
      refine ⟨?_, iff_of_true ⟨v, rfl, h⟩ ⟨v, rfl, trivial⟩⟩
      rintro _ ⟨⟩
      exact hwf

/-- The facet `a` with a description and a cache. -/
def described (desc cache : Str) : Vocabulary :=
  empty.setFacet (str "a")
    { FacetData.named (str "a") with
      fields := (∅ : StrMap Str).insert (str "Description") desc, m_desc := cache }

/-- A file is read, and its facet is asked for its description. -/
def describedSteps : List (Option Vocabulary × DescCall) :=
  [(some empty, DescCall.read (str "Facet: a\nDescription: x\n")),
    (some (described (str "x") []), DescCall.facetShort (str "a"))]

lemma run_described : descCalls.Run describedSteps (some (described (str "x") (str "x"))) := by
  have hread : (empty.read (str "Facet: a\nDescription: x\n")).Returns
      (.ok (), described (str "x") []) := by
    rw [read_denotes]
    rfl
  have hstep : descCalls.step (some empty) (.read (str "Facet: a\nDescription: x\n"))
      (some (described (str "x") [])) := ⟨empty, rfl, _, hread, rfl⟩
  exact .step (.step (.init rfl) hstep) ⟨_, rfl, str "x", _, rfl, rfl⟩

theorem cache_coherent_sample :
    Transitions.Always Coherent describedSteps (some (described (str "x") (str "x"))) := by
  apply (cache_coherent_iff _ _ run_described).mpr
  have hcount : ¬Overflows (str "Facet: a\nDescription: x\n") :=
    not_overflows_of_finished (by decide)
  simp [describedSteps, KeepsFirstLines, facetData, tagData, empty, hcount]

/-- A facet has been asked for its description, which the next file replaces. -/
theorem cache_stale :
    descCalls.Run (describedSteps ++
        [(some (described (str "x") (str "x")),
          DescCall.read (str "Facet: a\nDescription: y\n"))])
      (some (described (str "y") (str "x"))) ∧
    ¬(described (str "y") (str "x")).CacheCoherent ∧
    ∃ d, (described (str "y") (str "x")).facetData (str "a") = some d ∧
      d.longDescription = str "y" ∧ d.shortDescription.1 = str "x" := by
  have hread : ((described (str "x") (str "x")).read (str "Facet: a\nDescription: y\n")).Returns
      (.ok (), described (str "y") (str "x")) := by
    rw [read_denotes]
    rfl
  refine ⟨.step run_described ⟨_, rfl, _, hread, rfl⟩, fun h => ?_, _, rfl, rfl, rfl⟩
  exact absurd (h.1 (str "a") _ rfl) (by decide)

end Vocabulary

end Libept
