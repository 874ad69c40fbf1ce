import Libept.Debtags.Vocabulary.Reachable

/-!
# The facts in a vocabulary

A vocabulary seen from outside is a set of facts: which facets and tags there are, and the value of
each of their fields. A record states facts too, and merging it is an update: the facts that it
states become true, the values that they replace are gone, and everything else stays.
-/

namespace Libept.Vocabulary

open Std Voc

inductive Fact where
  | facet (f : Str)
  | facetField (f k x : Str)
  | tag (t : Str)
  | tagField (t k x : Str)

namespace Fact

/-- What a fact is about: all of it but the value of the field. -/
def subject : Fact → Fact
  | facet f => facet f
  | facetField f k _ => facetField f k []
  | tag t => tag t
  | tagField t k _ => tagField t k []

/-- The value that a fact gives, where the name of a tag counts as one. -/
def value : Fact → Option Str
  | facet _ => none
  | facetField _ _ x => some x
  | tag t => some t
  | tagField _ _ x => some x

end Fact

/-! ### Facts of a vocabulary -/

def facetField (v : Vocabulary) (f k : Str) : Option Str := v.m_facets[f]?.bind (·.fields[k]?)

def tagField (v : Vocabulary) (t k : Str) : Option Str := (v.tagData t).bind (·.fields[k]?)

def Has (v : Vocabulary) : Fact → Prop
  | .facet f => f ∈ v.m_facets
  | .facetField f k x => v.facetField f k = some x
  | .tag t => (v.tagData t).isSome
  | .tagField t k x => v.tagField t k = some x

variable {v v' : Vocabulary} {a b : Fact} {record : Record} {f t : Str}

/-- A field has one value. -/
lemma Has.unique (ha : v.Has a) (hb : v.Has b) (h : a.subject = b.subject) : a = b := by
  cases a <;> cases b <;> simp only [Fact.subject, Fact.facet.injEq, Fact.facetField.injEq,
    Fact.tag.injEq, Fact.tagField.injEq, reduceCtorEq, and_true] at h
  · rw [h]
  · obtain ⟨rfl, rfl⟩ := h
    rw [Option.some.inj (Eq.trans (Eq.symm ha) hb)]
  · rw [h]
  · obtain ⟨rfl, rfl⟩ := h
    rw [Option.some.inj (Eq.trans (Eq.symm ha) hb)]

/-! ### Facts of a record -/

/-- What the records for the facet `f` or the tag `t` say. -/
inductive States (record : Record) : Fact → Prop
  | facet {f : Str} (hf : record[str "Facet"]? = some f) : States record (.facet f)
  | facetField {f k x : Str} (hf : record[str "Facet"]? = some f) (hk : k ≠ str "Facet")
    (hx : record[k]? = some x) : States record (.facetField f k x)
  | facetOfTag {t : Str} (hf : record[str "Facet"]? = none) (ht : record[str "Tag"]? = some t) :
    States record (.facet (getfacet t))
  | tag {t : Str} (hf : record[str "Facet"]? = none) (ht : record[str "Tag"]? = some t) :
    States record (.tag t)
  | tagField {t k x : Str} (hf : record[str "Facet"]? = none) (ht : record[str "Tag"]? = some t)
    (hk : k ≠ str "Tag") (hx : record[k]? = some x) : States record (.tagField t k x)

lemma states_facet_iff (hf : record[str "Facet"]? = some f) :
    States record a ↔ a = .facet f ∨
      ∃ k x, k ≠ str "Facet" ∧ record[k]? = some x ∧ a = .facetField f k x := by
  constructor
  · intro h
    cases h with
    | facet hg =>
      obtain rfl := Option.some.inj (hf.symm.trans hg)
      exact .inl rfl
    | facetField hg hk hx =>
      obtain rfl := Option.some.inj (hf.symm.trans hg)
      exact .inr ⟨_, _, hk, hx, rfl⟩
    | facetOfTag hg _ => simp [hf] at hg
    | tag hg _ => simp [hf] at hg
    | tagField hg _ _ _ => simp [hf] at hg
  · rintro (rfl | ⟨k, x, hk, hx, rfl⟩)
    · exact .facet hf
    · exact .facetField hf hk hx

lemma states_tag_iff (hf : record[str "Facet"]? = none) (ht : record[str "Tag"]? = some t) :
    States record a ↔ a = .facet (getfacet t) ∨ a = .tag t ∨
      ∃ k x, k ≠ str "Tag" ∧ record[k]? = some x ∧ a = .tagField t k x := by
  constructor
  · intro h
    cases h with
    | facet hg => simp [hf] at hg
    | facetField hg _ _ => simp [hf] at hg
    | facetOfTag _ hu =>
      obtain rfl := Option.some.inj (ht.symm.trans hu)
      exact .inl rfl
    | tag _ hu =>
      obtain rfl := Option.some.inj (ht.symm.trans hu)
      exact .inr (.inl rfl)
    | tagField _ hu hk hx =>
      obtain rfl := Option.some.inj (ht.symm.trans hu)
      exact .inr (.inr ⟨_, _, hk, hx, rfl⟩)
  · rintro (rfl | rfl | ⟨k, x, hk, hx, rfl⟩)
    · exact .facetOfTag hf ht
    · exact .tag hf ht
    · exact .tagField hf ht hk hx

lemma forall_states_facet (hf : record[str "Facet"]? = some f) {P : Fact → Prop} :
    (∀ b, States record b → P b) ↔ P (.facet f) ∧
      ∀ k x : Str, k ≠ str "Facet" → record[k]? = some x → P (.facetField f k x) := by
  constructor
  · intro h
    exact ⟨h _ (.facet hf), fun k x hk hx => h _ (.facetField hf hk hx)⟩
  · rintro ⟨hfacet, hfields⟩ b hb
    rcases (states_facet_iff hf).mp hb with rfl | ⟨k, x, hk, hx, rfl⟩
    · exact hfacet
    · exact hfields k x hk hx

lemma forall_states_tag (hf : record[str "Facet"]? = none) (ht : record[str "Tag"]? = some t)
    {P : Fact → Prop} :
    (∀ b, States record b → P b) ↔ P (.facet (getfacet t)) ∧ P (.tag t) ∧
      ∀ k x : Str, k ≠ str "Tag" → record[k]? = some x → P (.tagField t k x) := by
  constructor
  · intro h
    exact ⟨h _ (.facetOfTag hf ht), h _ (.tag hf ht), fun k x hk hx => h _ (.tagField hf ht hk hx)⟩
  · rintro ⟨hfacet, htag, hfields⟩ b hb
    rcases (states_tag_iff hf ht).mp hb with rfl | rfl | ⟨k, x, hk, hx, rfl⟩
    · exact hfacet
    · exact htag
    · exact hfields k x hk hx

/-! ### Merging -/

section Lookups

variable (v) (d : FacetData)

lemma getElem?_setFacet (f g : Str) :
    (v.setFacet f d).m_facets[g]? = if f = g then some d else v.m_facets[g]? := by
  rw [setFacet, ExtTreeMap.getElem?_insert]
  simp only [LawfulEqCmp.compare_eq_iff_eq]

lemma mem_setFacet (f g : Str) : g ∈ (v.setFacet f d).m_facets ↔ f = g ∨ g ∈ v.m_facets := by
  rw [setFacet, ExtTreeMap.mem_insert, LawfulEqCmp.compare_eq_iff_eq]

lemma facetField_setFacet (f g k : Str) :
    (v.setFacet f d).facetField g k = if f = g then d.fields[k]? else v.facetField g k := by
  rw [facetField, getElem?_setFacet]
  split_ifs <;> rfl

lemma tagData_eq (t : Str) :
    v.tagData t = v.m_facets[getfacet t]?.bind (·.m_tags[t]?) := by
  unfold tagData facetData FacetData.tagData
  cases v.m_facets[getfacet t]? <;> rfl

lemma tagData_setFacet (f t : Str) :
    (v.setFacet f d).tagData t = if f = getfacet t then d.m_tags[t]? else v.tagData t := by
  rw [tagData_eq, getElem?_setFacet, tagData_eq]
  split_ifs <;> rfl

lemma fields_facetOrNew (f k : Str) : (v.facetOrNew f).fields[k]? = v.facetField f k := by
  unfold facetOrNew facetField
  cases v.m_facets[f]? with
  | none => simp [FacetData.named, Data.named]
  | some d => rfl

lemma m_tags_facetOrNew (t : Str) :
    (v.facetOrNew (getfacet t)).m_tags[t]? = v.tagData t := by
  rw [tagData_eq]
  rw [facetOrNew]
  cases v.m_facets[getfacet t]? with
  | none => simp [FacetData.named]
  | some d => rfl

lemma fields_tagOrNew (t k : Str) :
    (tagOrNew (v.facetOrNew (getfacet t)) t).fields[k]? = v.tagField t k := by
  rw [tagOrNew, m_tags_facetOrNew, tagField]
  cases v.tagData t with
  | none => simp [Data.named]
  | some td => rfl

end Lookups

/-- A record for a facet. -/
lemma lookups_mergedFacet (v : Vocabulary) (f : Str) (record : Record) :
    (∀ g, g ∈ (v.setFacet f (v.mergedFacet f record)).m_facets ↔ f = g ∨ g ∈ v.m_facets) ∧
      (∀ g k, (v.setFacet f (v.mergedFacet f record)).facetField g k =
        if f = g ∧ k ≠ str "Facet" then (record[k]?).or (v.facetField g k)
        else v.facetField g k) ∧
      ∀ t, (v.setFacet f (v.mergedFacet f record)).tagData t = v.tagData t := by
  refine ⟨fun g => mem_setFacet v _ f g, fun g k => ?_, fun t => ?_⟩
  · rw [facetField_setFacet]
    by_cases hfg : f = g
    · subst hfg
      rw [if_pos rfl, mergedFacet, Data.getElem?_merge, fields_facetOrNew]
      by_cases hk : k = str "Facet" <;> simp [hk]
    · rw [if_neg hfg, if_neg (fun h => hfg h.1)]
  · rw [tagData_setFacet]
    split_ifs with hft
    · subst hft
      exact m_tags_facetOrNew v t
    · rfl

/-- A record for a tag. -/
lemma lookups_mergedTag (v : Vocabulary) (t : Str) (record : Record) :
    (∀ g, g ∈ (v.setFacet (getfacet t) (v.mergedTag t record)).m_facets ↔
        getfacet t = g ∨ g ∈ v.m_facets) ∧
      (∀ g k, (v.setFacet (getfacet t) (v.mergedTag t record)).facetField g k =
        v.facetField g k) ∧
      (∀ u, ((v.setFacet (getfacet t) (v.mergedTag t record)).tagData u).isSome ↔
        t = u ∨ (v.tagData u).isSome) ∧
      ∀ u k, (v.setFacet (getfacet t) (v.mergedTag t record)).tagField u k =
        if t = u ∧ k ≠ str "Tag" then (record[k]?).or (v.tagField u k) else v.tagField u k := by
  have htagData : ∀ u, (v.setFacet (getfacet t) (v.mergedTag t record)).tagData u =
      if t = u then some ((tagOrNew (v.facetOrNew (getfacet t)) t).merge (str "Tag") record)
      else v.tagData u := by
    intro u
    rw [tagData_setFacet]
    split_ifs with hfacet htu htu
    · simp [mergedTag, htu]
    · rw [mergedTag, ExtTreeMap.getElem?_insert, if_neg (by simpa using htu), hfacet,
        m_tags_facetOrNew]
    · exact absurd (congrArg getfacet htu) hfacet
    · rfl
  refine ⟨fun g => mem_setFacet v _ _ g, fun g k => ?_, fun u => ?_, fun u k => ?_⟩
  · rw [facetField_setFacet]
    split_ifs with hg
    · rw [mergedTag, fields_facetOrNew, hg]
    · rfl
  · rw [htagData]
    split_ifs with htu <;> simp [htu]
  · rw [tagField, htagData]
    by_cases htu : t = u
    · subst htu
      rw [if_pos rfl, Option.bind_some, Data.getElem?_merge, fields_tagOrNew]
      by_cases hk : k = str "Tag" <;> simp [hk]
    · rw [if_neg htu, if_neg (fun h => htu h.1)]
      rfl

/-- The field `k` of `g` after a record for `f` that has no use for the field `skip`. -/
lemma update_eq_some_iff {f g k skip x : Str} {old : Option Str} :
    (if f = g ∧ ¬k = skip then (record[k]?).or old else old) = some x ↔
      ¬k = skip ∧ record[k]? = some x ∧ g = f ∨
        old = some x ∧ ∀ k' y : Str, ¬k' = skip → record[k']? = some y → f = g → ¬k' = k := by
  by_cases hfg : f = g ∧ ¬k = skip
  · obtain ⟨rfl, hk⟩ := hfg
    rw [if_pos ⟨rfl, hk⟩]
    cases hrecord : record[k]? with
    | none =>
      have hne : ∀ k' y : Str, ¬k' = skip → record[k']? = some y → f = f → ¬k' = k := by
        rintro k' y - hy - rfl
        simp [hrecord] at hy
      rw [Option.none_or, and_iff_left hne]
      simp
    | some y =>
      have hreplaced : ¬∀ k' y : Str, ¬k' = skip → record[k']? = some y → f = f → ¬k' = k :=
        fun h => h k y hk hrecord rfl rfl
      rw [Option.some_or, or_iff_left fun h => hreplaced h.2]
      simp [hk]
  · rw [if_neg hfg]
    have hne : ∀ k' y : Str, ¬k' = skip → record[k']? = some y → f = g → ¬k' = k := by
      rintro k' y hk' - rfl rfl
      exact hfg ⟨rfl, hk'⟩
    have hnot : ¬(¬k = skip ∧ record[k]? = some x ∧ g = f) :=
      fun h => hfg ⟨h.2.2.symm, h.1⟩
    simp only [hnot, false_or, and_iff_left hne]

/-- Merging is an update of the facts. -/
lemma has_mergeRecord (h : v.Wf) (a : Fact) :
    (v.mergeRecord record).2.Has a ↔
      States record a ∨ (v.Has a ∧ ∀ b, States record b → b.subject ≠ a.subject) := by
  rcases record_cases record with ⟨f, hf⟩ | ⟨hf, t, ht⟩ | ⟨hf, ht⟩
  · obtain ⟨hfacets, hfields, htags⟩ := lookups_mergedFacet v f record
    rw [mergeRecord_facet h hf, states_facet_iff hf, forall_states_facet hf]
    cases a with
    | facet g =>
      simp [Has, hfacets, Fact.subject, eq_comm]
      tauto
    | facetField g k x =>
      simpa [Has, hfields, Fact.subject] using update_eq_some_iff
    | tag u => simp [Has, htags, Fact.subject]
    | tagField u k x => simp [Has, tagField, htags, Fact.subject]
  · obtain ⟨hfacets, hfields, htags, htagFields⟩ := lookups_mergedTag v t record
    rw [mergeRecord_tag v hf ht, states_tag_iff hf ht, forall_states_tag hf ht]
    cases a with
    | facet g =>
      simp [Has, hfacets, Fact.subject, eq_comm]
      tauto
    | facetField g k x => simp [Has, hfields, Fact.subject]
    | tag u =>
      simp [Has, htags, Fact.subject]
      tauto
    | tagField u k x =>
      simpa [Has, htagFields, Fact.subject] using update_eq_some_iff
  · rw [mergeRecord_skip v hf ht]
    have hstates : ∀ b, ¬States record b := by
      intro b hb
      cases hb <;> simp_all
    simp [hstates]

/-! ### Merging a file -/

/-- The vocabulary after all the given records. -/
def mergeAll (v : Vocabulary) (records : List Record) : Vocabulary :=
  records.foldl (fun v record => (v.mergeRecord record).2) v

variable {records : List Record}

lemma Wf.mergeAll (h : v.Wf) (records : List Record) : (v.mergeAll records).Wf := by
  induction records generalizing v with
  | nil => exact h
  | cons record records ih => exact ih (h.mergeRecord record).2

lemma feed_mergeRecord (h : v.Wf) (records : List Record) :
    DebDBParser.feed mergeRecord v records .finished = some (.ok (), v.mergeAll records) := by
  induction records generalizing v with
  | nil => rfl
  | cons record records ih =>
    obtain ⟨hok, hwf⟩ := h.mergeRecord record
    have hpair : v.mergeRecord record = (.ok (), (v.mergeRecord record).2) := Prod.ext hok rfl
    rw [DebDBParser.feed, hpair]
    exact ih hwf

/-- What a file leaves has been there, or is stated by a record. -/
lemma has_of_has_mergeAll (h : v.Wf) (ha : (v.mergeAll records).Has a) :
    v.Has a ∨ ∃ record ∈ records, States record a := by
  induction records generalizing v with
  | nil => exact .inl ha
  | cons record records ih =>
    rcases ih (h.mergeRecord record).2 ha with ha | ⟨r, hr, ha⟩
    · rcases (has_mergeRecord h a).mp ha with ha | ⟨ha, -⟩
      · exact .inr ⟨record, List.mem_cons_self, ha⟩
      · exact .inl ha
    · exact .inr ⟨r, List.mem_cons_of_mem _ hr, ha⟩

/-- Nothing is forgotten but values that are replaced. -/
lemma exists_has_mergeAll (h : v.Wf) (ha : v.Has a ∨ ∃ record ∈ records, States record a) :
    ∃ b, b.subject = a.subject ∧ (v.mergeAll records).Has b := by
  induction records generalizing v a with
  | nil =>
    rcases ha with ha | ⟨r, hr, -⟩
    · exact ⟨a, rfl, ha⟩
    · cases hr
  | cons record records ih =>
    have hstep := fun c => @has_mergeRecord v record h c
    rcases ha with ha | ⟨r, hr, ha⟩
    · by_cases hreplaced : ∃ b, States record b ∧ b.subject = a.subject
      · obtain ⟨b, hb, hba⟩ := hreplaced
        obtain ⟨c, hcb, hc⟩ := ih (h.mergeRecord record).2 (.inl ((hstep b).mpr (.inl hb)))
        exact ⟨c, hcb.trans hba, hc⟩
      · push Not at hreplaced
        exact ih (h.mergeRecord record).2 (.inl ((hstep a).mpr (.inr ⟨ha, hreplaced⟩)))
    · rcases List.mem_cons.mp hr with rfl | hr
      · exact ih (h.mergeRecord r).2 (.inl ((hstep a).mpr (.inl ha)))
      · exact ih (h.mergeRecord record).2 (.inr ⟨r, hr, ha⟩)

lemma not_has_empty (a : Fact) : ¬empty.Has a := by
  intro ha
  cases a <;> simp [Has, facetField, tagField, tagData_eq, empty] at ha

/-- Records that do not contradict a vocabulary, and state all that is in it, give its facts. -/
lemma has_mergeAll_iff (hrecords : ∀ a, v.Has a ↔ ∃ record ∈ records, States record a) (a : Fact) :
    (empty.mergeAll records).Has a ↔ v.Has a := by
  have hsound : ∀ b, (empty.mergeAll records).Has b → v.Has b := fun b hb =>
    (hrecords b).mpr ((has_of_has_mergeAll wf_empty hb).resolve_left (not_has_empty b))
  constructor
  · exact hsound a
  · intro ha
    obtain ⟨b, hba, hb⟩ := exists_has_mergeAll wf_empty (.inr ((hrecords a).mp ha))
    rwa [← (hsound b hb).unique ha hba]

/-! ### The same content -/

/-- The same name and the same fields. -/
def SameData (d d' : Data) : Prop := d.name = d'.name ∧ d.fields = d'.fields

/-- The same facets and in each of them the same tags, with the same data. The caches are not
compared. -/
def Same (v v' : Vocabulary) : Prop :=
  ∀ f : Str, Option.Rel (fun d d' : FacetData => SameData d.toData d'.toData ∧
    ∀ t : Str, Option.Rel SameData d.m_tags[t]? d'.m_tags[t]?) v.m_facets[f]? v'.m_facets[f]?

lemma Same.tagData (h : v.Same v') (t : Str) :
    Option.Rel SameData (v.tagData t) (v'.tagData t) := by
  have hf := h (getfacet t)
  rw [tagData_eq, tagData_eq]
  generalize v.m_facets[getfacet t]? = d, v'.m_facets[getfacet t]? = d' at hf
  cases hf with
  | none => exact .none
  | some hdata => exact hdata.2 t

/-- The content is the set of the facts. -/
lemma Same.has_iff (h : v.Same v') (a : Fact) : v.Has a ↔ v'.Has a := by
  cases a with
  | facet f =>
    have hf := h f
    simp only [Has, ExtTreeMap.mem_iff_isSome_getElem?]
    generalize v.m_facets[f]? = d, v'.m_facets[f]? = d' at hf
    cases hf <;> rfl
  | facetField f k x =>
    have hf := h f
    simp only [Has, facetField]
    generalize v.m_facets[f]? = d, v'.m_facets[f]? = d' at hf
    cases hf with
    | none => rfl
    | some hdata => simp only [Option.bind_some, hdata.1.2]
  | tag t =>
    have ht := h.tagData t
    simp only [Has]
    generalize v.tagData t = td, v'.tagData t = td' at ht
    cases ht <;> rfl
  | tagField t k x =>
    have ht := h.tagData t
    simp only [Has, tagField]
    generalize v.tagData t = td, v'.tagData t = td' at ht
    cases ht with
    | none => rfl
    | some hdata => simp only [Option.bind_some, hdata.2]

lemma rel_of_isSome_iff {α β : Type} {R : α → β → Prop} {x : Option α} {y : Option β}
    (h : x.isSome ↔ y.isSome) (hR : ∀ a b, x = some a → y = some b → R a b) : Option.Rel R x y := by
  cases x with
  | none =>
    cases y with
    | none => exact .none
    | some b => simp at h
  | some a =>
    cases y with
    | none => simp at h
    | some b => exact .some (hR a b rfl rfl)

lemma same_of_has_iff (hwf : v.Wf) (hwf' : v'.Wf) (h : ∀ a, v.Has a ↔ v'.Has a) : v.Same v' := by
  intro f
  have hf := h (.facet f)
  simp only [Has, ExtTreeMap.mem_iff_isSome_getElem?] at hf
  apply rel_of_isSome_iff hf
  intro d d' hd hd'
  have hfacet := hwf f d hd
  have hfacet' := hwf' f d' hd'
  refine ⟨⟨hfacet.name.trans hfacet'.name.symm, ?_⟩, fun t => ?_⟩
  · refine ExtTreeMap.ext_getElem? fun k => Option.ext fun x => ?_
    simpa only [Has, facetField, hd, hd', Option.bind_some] using h (.facetField f k x)
  · by_cases ht : getfacet t = f
    · subst ht
      have htagData : v.tagData t = d.m_tags[t]? := by rw [tagData_eq, hd, Option.bind_some]
      have htagData' : v'.tagData t = d'.m_tags[t]? := by rw [tagData_eq, hd', Option.bind_some]
      have htag := h (.tag t)
      simp only [Has, htagData, htagData'] at htag
      apply rel_of_isSome_iff htag
      intro td td' htd htd'
      refine ⟨(hfacet.isTag t td htd).name.trans (hfacet'.isTag t td' htd').name.symm, ?_⟩
      refine ExtTreeMap.ext_getElem? fun k => Option.ext fun x => ?_
      simpa only [Has, tagField, htagData, htagData', htd, htd', Option.bind_some] using
        h (.tagField t k x)
    · -- neither vocabulary keeps a tag outside its facet
      have hnone : d.m_tags[t]? = none := Option.eq_none_iff_forall_not_mem.mpr fun td htd =>
        ht (hfacet.facet_of_tag t td htd)
      have hnone' : d'.m_tags[t]? = none := Option.eq_none_iff_forall_not_mem.mpr fun td htd =>
        ht (hfacet'.facet_of_tag t td htd)
      rw [hnone, hnone']
      exact .none

end Libept.Vocabulary
