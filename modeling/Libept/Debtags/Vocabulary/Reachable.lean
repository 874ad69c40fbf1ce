import Libept.Debtags.Maint.DebDBParser.Termination
import Libept.Debtags.Vocabulary.Merge

/-!
# Reachable vocabularies

The vocabularies that a program gets by reading files, whatever is in them and also when a read
throws on its way. In all of them looking a name up and walking the maps agree.
-/

namespace Libept.Vocabulary

open Std Voc

variable {v v' : Vocabulary}

/-! ### Reading a file -/

/-- What every record keeps is kept by a whole file. -/
lemma feed_invariant {σ : Type} {emit : σ → Record → Except Failure Unit × σ} {I : σ → Prop}
    (hemit : ∀ s record, I s → I (emit s record).2) {s : σ} (hs : I s) {records : List Record}
    {e : DebDBParser.End} {x : Except Failure Unit × σ}
    (h : DebDBParser.feed emit s records e = some x) : I x.2 := by
  induction records generalizing s with
  | nil =>
    cases e with
    | finished => exact Option.some.inj h ▸ hs
    | failed e => exact Option.some.inj h ▸ hs
    | hangs => cases h
  | cons record records ih =>
    have hI := hemit s record hs
    rw [DebDBParser.feed] at h
    rcases hr : emit s record with ⟨_ | _, s'⟩
    · rw [hr] at h hI
      exact Option.some.inj h ▸ hI
    · rw [hr] at h hI
      exact ih hI h

lemma read_denotes (v : Vocabulary) (input : Str) :
    (v.read input).Denotes (DebDBParser.feed mergeRecord v (DebDBParser.reading input).1
      (DebDBParser.reading input).2) :=
  DebDBParser.forRecords_denotes mergeRecord v input

/-- What a read may come to. Once a count has overflowed this can be anything. -/
def MayReturn (v : Vocabulary) (input : Str) (x : Except Failure Unit × Vocabulary) : Prop :=
  (v.read input).Returns x ∨ ∃ v', (v.read input).Returns (.error .overflow, v')

/-- A read leaves a well-formed vocabulary well-formed, whether it returns or throws. -/
lemma Wf.read (h : v.Wf) {input : Str} {outcome : Except Failure Unit}
    (hread : (v.read input).Returns (outcome, v')) : v'.Wf :=
  feed_invariant (I := Wf) (fun _ record hwf => (hwf.mergeRecord record).2) h
    ((read_denotes v input _).mp hread)

/-- The vocabularies that reads of any files lead to. -/
inductive Reachable : Vocabulary → Prop
  | empty : Reachable empty
  | read {v v' : Vocabulary} (h : Reachable v) (input : Str) (outcome : Except Failure Unit)
      (hread : (v.read input).Returns (outcome, v')) : Reachable v'

lemma Reachable.wf (h : Reachable v) : v.Wf := by
  induction h with
  | empty => exact wf_empty
  | read _ _ _ hread ih => exact ih.read hread

/-! ### Walking the maps -/

lemma mem_foldl_keys {γ : Type} (m : StrMap γ) (s : StrSet) (k : Str) :
    k ∈ m.foldl (fun res a _ => res.insert a) s ↔ k ∈ s ∨ ∃ d, m[k]? = some d := by
  rw [ExtTreeMap.foldl_eq_foldl_toList, MultiMap.mem_foldl (P := fun a k => a.1 = k)]
  · simp [Prod.exists]
  · simp [or_comm]

lemma mem_facets {f : Str} : f ∈ v.facets ↔ ∃ d, v.m_facets[f]? = some d := by
  rw [facets, mem_foldl_keys]
  simp

lemma mem_facetTags {d : FacetData} {t : Str} : t ∈ d.tags ↔ ∃ td, d.m_tags[t]? = some td := by
  rw [FacetData.tags, mem_foldl_keys]
  simp

lemma mem_tagsOfFacet {f t : Str} :
    t ∈ v.tagsOfFacet f ↔ ∃ d, v.m_facets[f]? = some d ∧ t ∈ d.tags := by
  unfold tagsOfFacet facetData
  cases v.m_facets[f]? <;> simp

lemma mem_tags {t : Str} :
    t ∈ v.tags ↔ ∃ (f : Str) (d : FacetData), v.m_facets[f]? = some d ∧ t ∈ d.tags := by
  rw [tags, ExtTreeMap.foldl_eq_foldl_toList, MultiMap.mem_foldl (P := fun a t => t ∈ a.2.tags)]
  · simp [Prod.exists]
  · intro s a k
    rw [mem_foldl_keys, mem_facetTags]

/-! ### Looking names up -/

lemma tagData_eq_some_iff {t : Str} {td : TagData} :
    v.tagData t = some td ↔ ∃ d, v.m_facets[getfacet t]? = some d ∧ d.m_tags[t]? = some td := by
  unfold tagData facetData FacetData.tagData
  cases v.m_facets[getfacet t]? <;> simp

lemma hasTag_iff {t : Str} : v.hasTag t = true ↔ ∃ td, v.tagData t = some td := by
  simp only [tagData_eq_some_iff]
  unfold hasTag facetData FacetData.hasTag
  cases v.m_facets[getfacet t]? with
  | none => simp
  | some d =>
    simp only [ExtTreeMap.contains_eq_isSome_getElem?, Option.isSome_iff_exists]
    simp

/-- A tag is looked up where it is stored. -/
lemma Wf.tagData_iff_mem_tags (h : v.Wf) {t : Str} :
    (∃ td, v.tagData t = some td) ↔ t ∈ v.tags := by
  simp only [tagData_eq_some_iff, mem_tags, mem_facetTags]
  constructor
  · rintro ⟨td, d, hd, htd⟩
    exact ⟨_, d, hd, td, htd⟩
  · rintro ⟨f, d, hd, td, htd⟩
    obtain rfl := (h f d hd).facet_of_tag t td htd
    exact ⟨td, d, hd, htd⟩

/-- In every reachable vocabulary facets and tags are stored under their names, with no field that
repeats the name, so that the queries by name and the enumerations agree. -/
theorem Reachable.names (h : Reachable v) :
    (∀ f d, v.facetData f = some d → d.name = f ∧ d.fields[str "Facet"]? = none ∧
      ∀ (t : Str) (td : TagData), d.m_tags[t]? = some td →
        getfacet t = f ∧ td.name = t ∧ td.fields[str "Tag"]? = none ∧
          td.fields[str "Facet"]? = none) ∧
      (∀ t, t ∈ v.tags ↔ ∃ f ∈ v.facets, t ∈ v.tagsOfFacet f) ∧
      (∀ f g t, t ∈ v.tagsOfFacet f → t ∈ v.tagsOfFacet g → f = g) ∧
      (∀ t, v.hasTag t = true ↔ t ∈ v.tags) ∧
      (∀ t, (v.tagData t).isSome = true ↔ t ∈ v.tags) ∧
      (∀ t td, v.tagData t = some td → td.name = t) ∧
      ∀ t, v.hasTag t = true → v.hasFacet (getfacet t) = true := by
  have hwf := h.wf
  refine ⟨fun f d hd => ?_, fun t => ?_, fun f g t hf hg => ?_, fun t => ?_, fun t => ?_,
    fun t td htd => ?_, fun t ht => ?_⟩
  · have hfacet := hwf f d hd
    refine ⟨hfacet.name, hfacet.no_facet, fun t td htd => ?_⟩
    have htag := hfacet.isTag t td htd
    exact ⟨hfacet.facet_of_tag t td htd, htag.name, htag.no_tag, htag.no_facet⟩
  · simp only [mem_tags, mem_facets, mem_tagsOfFacet]
    constructor
    · rintro ⟨f, d, hd, ht⟩
      exact ⟨f, ⟨d, hd⟩, d, hd, ht⟩
    · rintro ⟨f, -, d, hd, ht⟩
      exact ⟨f, d, hd, ht⟩
  · simp only [mem_tagsOfFacet, mem_facetTags] at hf hg
    obtain ⟨d, hd, td, htd⟩ := hf
    obtain ⟨e, he, ud, hud⟩ := hg
    rw [← (hwf f d hd).facet_of_tag t td htd, ← (hwf g e he).facet_of_tag t ud hud]
  · rw [hasTag_iff, hwf.tagData_iff_mem_tags]
  · rw [Option.isSome_iff_exists, hwf.tagData_iff_mem_tags]
  · obtain ⟨d, hd, ht⟩ := tagData_eq_some_iff.mp htd
    exact ((hwf _ d hd).isTag t td ht).name
  · obtain ⟨td, htd⟩ := hasTag_iff.mp ht
    obtain ⟨d, hd, -⟩ := tagData_eq_some_iff.mp htd
    rw [hasFacet, ExtTreeMap.contains_eq_isSome_getElem?, hd]
    rfl

/-- A facet without a record, and a tag in it. -/
def sample : Vocabulary :=
  (empty.mergeRecord ((∅ : Record).insertIfNew (str "Tag") (str "a::b"))).2

lemma reachable_sample : Reachable sample := by
  refine .read .empty (str "Tag: a::b\n") (.ok ()) ?_
  rw [read_denotes]
  rfl

theorem Reachable.names_sample :
    str "a::b" ∈ sample.tags ∧ sample.hasTag (str "a::b") = true ∧
      sample.hasFacet (str "a") = true :=
  have h := Reachable.names reachable_sample
  have htag : sample.hasTag (str "a::b") = true := by decide
  ⟨(h.2.2.2.1 _).mp htag, htag, h.2.2.2.2.2.2 (str "a::b") htag⟩

end Libept.Vocabulary
