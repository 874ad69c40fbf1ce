import Libept.Debtags.Coll.Fast.InUse

/-!
# Removing tags

What removing tags leaves of a collection, in both maps, and that removing a new tag undoes
inserting it. Where a tag is looked up without a check, the call is carried out for exactly the
tags that are found.
-/

namespace Libept.Fast

open Std MultiMap Operators

variable {c c' c'' : Fast} {R R' : Str → Str → Prop} {tag : Str} {P : Str → Prop}

/-! ### Tags with few items -/

/-- Call `removeTag` for one tag after another. -/
def removeTags (c : Fast) (l : List Str) : Option Fast := l.foldlM (fun c tag => c.removeTag tag) c

/-- Removing stored tags one by one, in any order. -/
lemma drops_removeTags (h : c.Represents R) (l : List Str) (hl : l.Nodup)
    (hmem : ∀ t ∈ l, t ∈ c.tags) : ∃ c', c.removeTags l = some c' ∧ Drops c c' (· ∈ l) := by
  have hcall : ∀ {c : Fast} {R : Str → Str → Prop} {tag : Str}, c.Represents R → tag ∈ c.tags →
      ∃ c', c.removeTag tag = some c' ∧ Drops c c' fun t => t = tag ∧ True := by
    intro c R tag h ht
    simpa using drops_removeTag h (hasTag_iff.mpr ht)
  simpa [removeTags] using drops_foldlM (p := fun _ => True) hcall h l hl hmem

/-- What a call leaves, when tags have been dropped before that it would drop too. -/
lemma drops_removeTagsWithCardinalityLessThan_max (m n : ℕ)
    (hm : Drops c c' fun t => t ∈ c.tags ∧ (c.getItemsHavingTag t).size < m)
    (hn : Drops c' c'' fun t => t ∈ c'.tags ∧ (c'.getItemsHavingTag t).size < n) :
    Drops c c'' fun t => t ∈ c.tags ∧ (c.getItemsHavingTag t).size < max m n := by
  apply (hm.trans hn).congr
  intro t
  rw [hm.mem_tags]
  by_cases ht : t ∈ c.tags ∧ (c.getItemsHavingTag t).size < m
  · simp [ht]
  · rw [hm.getItemsHavingTag_eq ht]
    simp only [ht, false_or, not_false_eq_true, and_true, lt_max_iff]
    tauto

/-- The tags of at least `n` items survive with their items, and the items with one of them. This
is what removing the other tags leaves, in any order, and what more calls leave is decided by the
largest bound. -/
theorem removeTagsWithCardinalityLessThan_spec (h : Reachable c) (n : ℕ) :
    ∃ c', c.removeTagsWithCardinalityLessThan n = some c' ∧
      (∀ (t : Str) (s : StrSet), c'.tags[t]? = some s ↔ c.tags[t]? = some s ∧ n ≤ s.size) ∧
      (∀ i t, t ∈ c'.getTagsOfItem i ↔
        t ∈ c.getTagsOfItem i ∧ n ≤ (c.getItemsHavingTag t).size) ∧
      (∀ i, c'.hasItem i = true ↔ ∃ t, t ∈ c'.getTagsOfItem i) ∧
      (∀ l : List Str, l.Nodup →
        (∀ t, t ∈ l ↔ c.hasTag t = true ∧ (c.getItemsHavingTag t).size < n) →
          c.removeTags l = some c') ∧
      c'.removeTagsWithCardinalityLessThan n = some c' ∧
      ∀ m c'', c.removeTagsWithCardinalityLessThan m = some c'' →
        c''.removeTagsWithCardinalityLessThan n =
          c.removeTagsWithCardinalityLessThan (max m n) := by
  obtain ⟨R, hR⟩ := h.represents
  obtain ⟨c', hc', hdrops⟩ := drops_removeTagsWithCardinalityLessThan hR n
  have htwice : ∀ m c'', c.removeTagsWithCardinalityLessThan m = some c'' →
      c''.removeTagsWithCardinalityLessThan n =
        c.removeTagsWithCardinalityLessThan (max m n) := by
    intro m c'' hm
    obtain ⟨c₁, hc₁, hdrops₁⟩ := drops_removeTagsWithCardinalityLessThan hR m
    obtain rfl := Option.some.inj (hm.symm.trans hc₁)
    obtain ⟨c₂, hc₂, hdrops₂⟩ :=
      drops_removeTagsWithCardinalityLessThan (hdrops₁.represents hR) n
    obtain ⟨c₃, hc₃, hdrops₃⟩ := drops_removeTagsWithCardinalityLessThan hR (max m n)
    rw [hc₂, hc₃, (drops_removeTagsWithCardinalityLessThan_max m n hdrops₁ hdrops₂).unique
      hdrops₃]
  refine ⟨c', hc', fun t s => ?_, fun i t => ?_, fun i => ?_, fun l hl hmem => ?_, ?_, htwice⟩
  · rw [hdrops.tags]
    apply and_congr_right
    intro hs
    rw [getItemsHavingTag_eq, image_of_getElem? hs, not_and, Nat.not_lt]
    exact ⟨fun hle => hle (mem_of_getElem? hs), fun hle _ => hle⟩
  · rw [hdrops.mem_getTagsOfItem]
    apply and_congr_right
    intro hit
    rw [hR.mem_getTagsOfItem] at hit
    rw [not_and, Nat.not_lt]
    exact ⟨fun hle => hle (hR.mem_tags hit), fun hle _ => hle⟩
  · simp only [hasItem_iff, hdrops.items.mem_iff, hdrops.mem_getTagsOfItem]
  · obtain ⟨c₁, hc₁, hdrops₁⟩ := drops_removeTags hR l hl fun t ht =>
      hasTag_iff.mp ((hmem t).mp ht).1
    rw [hc₁, (hdrops₁.congr hmem).unique hdrops]
  · rw [htwice n c' hc', Nat.max_self, hc']

/-- One tag of two items and one of a single item. -/
theorem removeTagsWithCardinalityLessThan_sample :
    ∃ c', sample.removeTagsWithCardinalityLessThan 2 = some c' ∧
      str "t" ∈ c'.getTagsOfItem (str "a") ∧ str "u" ∉ c'.getTagsOfItem (str "a") := by
  obtain ⟨c', hc', -, hmem, -⟩ := removeTagsWithCardinalityLessThan_spec reachable_sample 2
  exact ⟨c', hc', (hmem _ _).mpr (by decide), fun h => absurd ((hmem _ _).mp h) (by decide)⟩

/-! ### Removing undoes inserting -/

/-- Dropping the tags that have been added leads back. -/
lemma Adds.eq_of_drops (hR : c.Represents R) (h : Adds c c' R') (hnew : ∀ i t, R' i t → P t)
    (hold : ∀ t ∈ c.tags, ¬P t) (hdrops : Drops c' c'' P) : c'' = c := by
  have hrep := hdrops.represents (hR.adds h)
  have hiff : ∀ i t, (R i t ∨ R' i t) ∧ ¬P t ↔ R i t := by
    intro i t
    constructor
    · rintro ⟨hit | hit, ht⟩
      · exact hit
      · exact absurd (hnew i t hit) ht
    · intro hit
      exact ⟨.inl hit, hold t (hR.mem_tags hit)⟩
  have hitems : c''.items = c.items := (hrep.congr hiff).items.unique hR.items
  have htags : c''.tags = c.tags := by
    refine ext_image (fun t => ?_) fun t i => ?_
    · rw [hdrops.mem_tags, h.mem_tags]
      constructor
      · rintro ⟨ht | ⟨i, hi⟩, hP⟩
        · exact ht
        · exact absurd (hnew i t hi) hP
      · intro ht
        exact ⟨.inl ht, hold t ht⟩
    · rw [hrep.tags, hiff, hR.tags]
  cases c
  cases c''
  rw [mk.injEq]
  exact ⟨hitems, htags⟩

/-- A tag that was not stored is inserted for some items, and removed again. -/
theorem removeTag_insert (h : Reachable c) (htag : c.hasTag tag = false) {items : StrSet}
    (hitems : items.isEmpty = false) :
    (c.insertTag items tag).removeTag tag = some c ∧
      (c.insert items (ExtTreeSet.ofList [tag])).removeTag tag = some c := by
  obtain ⟨R, hR⟩ := h.represents
  rw [← (insertTag_eq_insert_iff c items tag).mpr (.inl hitems), and_self]
  have hadds : Adds c (c.insertTag items tag) fun i t => i ∈ items ∧ t = tag :=
    adds_insertTag (.inl hitems)
  have hstored : (c.insertTag items tag).hasTag tag = true := by
    obtain ⟨i, hi⟩ := isEmpty_eq_false_iff.mp hitems
    exact hasTag_iff.mpr ((hadds.mem_tags tag).mpr (.inr ⟨i, hi, rfl⟩))
  obtain ⟨c', hc', hdrops⟩ := drops_removeTag (hR.adds hadds) hstored
  have hnew : ∀ t ∈ c.tags, ¬t = tag := by
    rintro t ht rfl
    rw [hasTag_iff.mpr ht] at htag
    cases htag
  rw [hc', hadds.eq_of_drops hR (fun i t hit => hit.2) hnew hdrops]

theorem removeTag_insert_sample :
    (sample.insertTag (ExtTreeSet.ofList [str "a", str "c"]) (str "v")).removeTag (str "v") =
      some sample :=
  (removeTag_insert reachable_sample (by decide) (by decide)).1

/-! ### Child collections -/

lemma Represents.holds (h : c.Represents R) (hidle : c.NoIdleTag) : c.Holds R := by
  refine ⟨h.items, fun t => ⟨fun ht => ?_, ?_⟩, h.tags⟩
  · obtain ⟨i, hi⟩ := hidle t ht
    exact ⟨i, h.mem_getItemsHavingTag.mp hi⟩
  · rintro ⟨i, hi⟩
    exact h.mem_tags hi

lemma holds_getChildCollection (h : c.Represents R) (ht : ∃ i, R i tag) :
    ∃ c', c.getChildCollection tag = some c' ∧
      c'.Holds fun i t => R i tag ∧ R i t ∧ t ≠ tag := by
  obtain ⟨c', hc', hrep⟩ := represents_getChildCollection h ht
  exact ⟨c', hc', hrep.holds (noIdleTag_getChildCollection hc')⟩

/-- The child collection of a tag in use has the other tags of its items. -/
theorem getChildCollection_spec (h : Reachable c) (htag : ∃ i, tag ∈ c.getTagsOfItem i) :
    ∃ c', c.getChildCollection tag = some c' ∧
      (∀ i u, u ∈ c'.getTagsOfItem i ↔
        tag ∈ c.getTagsOfItem i ∧ u ≠ tag ∧ u ∈ c.getTagsOfItem i) ∧
      (∀ i, (∀ u ∈ c.getTagsOfItem i, u = tag) → c'.hasItem i = false) ∧
      c'.hasTag tag = false ∧
      (∀ i u, i ∈ c'.getItemsHavingTag u ↔ u ∈ c'.getTagsOfItem i) ∧
      (∀ (i : Str) (s : StrSet), c'.items[i]? = some s → s.isEmpty = false) ∧
      (∀ (u : Str) (s : StrSet), c'.tags[u]? = some s → s.isEmpty = false) ∧
      ∀ i u, c'.hasTag u = true → (i ∈ c'.getItemsHavingTag u ↔
        i ∈ c.getItemsHavingTag u ∧ i ∈ c.getItemsHavingTag tag) := by
  obtain ⟨R, hR⟩ := h.represents
  simp only [hR.mem_getTagsOfItem] at htag ⊢
  obtain ⟨c', hc', hholds⟩ := holds_getChildCollection hR htag
  have hof (i u : Str) : u ∈ c'.getTagsOfItem i ↔ R i tag ∧ R i u ∧ u ≠ tag :=
    hholds.represents.mem_getTagsOfItem
  have hhaving (i u : Str) : i ∈ c'.getItemsHavingTag u ↔ R i tag ∧ R i u ∧ u ≠ tag :=
    hholds.represents.mem_getItemsHavingTag
  refine ⟨c', hc', fun i u => ?_, fun i hi => ?_, ?_, fun i u => ?_, fun i s hs => ?_,
    fun u s hs => ?_, fun i u hu => ?_⟩
  · rw [hof, and_comm (a := R i u)]
  · rw [← Bool.not_eq_true, hasItem_iff, hholds.items.mem_iff]
    rintro ⟨u, -, hu, hne⟩
    exact hne (hi u hu)
  · rw [← Bool.not_eq_true, hasTag_iff, hholds.tags.mem_iff]
    rintro ⟨i, -, -, hne⟩
    exact hne rfl
  · rw [hof, hhaving]
  · exact isEmpty_eq_false_iff.mpr (hholds.items.nonempty hs)
  · exact isEmpty_eq_false_iff.mpr (hholds.tags.nonempty hs)
  · obtain ⟨j, -, -, hne⟩ := (hholds.tags.mem_iff u).mp (hasTag_iff.mp hu)
    rw [hhaving, hR.mem_getItemsHavingTag, hR.mem_getItemsHavingTag]
    tauto

theorem getChildCollection_sample :
    ∃ c', sample.getChildCollection (str "t") = some c' ∧
      str "u" ∈ c'.getTagsOfItem (str "a") ∧ c'.hasItem (str "b") = false := by
  have htag : ∃ i, str "t" ∈ sample.getTagsOfItem i := ⟨str "a", by decide⟩
  have honly : sample.getTagsOfItem (str "b") = ExtTreeSet.ofList [str "t"] := by decide
  obtain ⟨c', hc', hof, hitem, -⟩ := getChildCollection_spec reachable_sample htag
  refine ⟨c', hc', (hof _ _).mpr (by decide), hitem (str "b") fun u hu => ?_⟩
  rw [honly] at hu
  exact mem_singleton.mp hu

/-! ### Unchecked lookups -/

/-- `removeTag` is carried out, and without items that have the tag it leaves the sets of the
items and of the other tags as they are. -/
def RemovesSafely (c : Fast) (tag : Str) : Prop :=
  ∃ c', c.removeTag tag = some c' ∧ ((∀ i, tag ∉ c.getTagsOfItem i) →
    (∀ i, c'.getTagsOfItem i = c.getTagsOfItem i) ∧
      ∀ t, t ≠ tag → c'.getItemsHavingTag t = c.getItemsHavingTag t)

/-- `getChildCollection` is carried out, and is empty without items that have the tag. -/
def ChildIsSafe (c : Fast) (tag : Str) : Prop :=
  ∃ c', c.getChildCollection tag = some c' ∧ ((∀ i, tag ∉ c.getTagsOfItem i) → c' = empty)

lemma removesSafely_iff (h : c.Represents R) : c.RemovesSafely tag ↔ c.hasTag tag = true := by
  constructor
  · rintro ⟨c', hc', -⟩
    simp only [removeTag, Option.bind_eq_bind, Option.bind_eq_some_iff] at hc'
    obtain ⟨s, hs, -⟩ := hc'
    exact hasTag_iff.mpr (mem_of_getElem? hs)
  · intro htag
    obtain ⟨c', hc', hdrops⟩ := drops_removeTag h htag
    refine ⟨c', hc', fun hnone => ⟨fun i => ?_, fun t ht => hdrops.getItemsHavingTag_eq ht⟩⟩
    apply ExtTreeSet.ext_mem
    intro t
    rw [hdrops.mem_getTagsOfItem, and_iff_left_iff_imp]
    rintro ht rfl
    exact hnone i ht

/-- The child of a tag without items is empty, so that the tag is not found in it. -/
lemma getChildCollection_eq_none (h : c.Represents R) (hnone : ∀ i, ¬R i tag) :
    c.getChildCollection tag = none := by
  rw [getChildCollection]
  cases hs : c.tags[tag]? with
  | none => rfl
  | some s =>
    obtain rfl : s = ∅ := by
      rw [set_eq_empty_iff]
      intro i hi
      rw [← image_of_getElem? hs, h.tags] at hi
      exact hnone i hi
    rfl

lemma childIsSafe_iff (h : c.Represents R) :
    c.ChildIsSafe tag ↔ ∃ i, tag ∈ c.getTagsOfItem i := by
  rw [ChildIsSafe]
  simp only [h.mem_getTagsOfItem]
  constructor
  · rintro ⟨c', hc', -⟩
    by_contra hnone
    rw [getChildCollection_eq_none h (not_exists.mp hnone)] at hc'
    cases hc'
  · rintro ⟨i, hi⟩
    obtain ⟨c', hc', -⟩ := represents_getChildCollection h ⟨i, hi⟩
    exact ⟨c', hc', fun hnone => absurd hi (hnone i)⟩

/-- A tag is removed safely if it is stored, and its child collection is built safely if some item
has it, and not otherwise. -/
theorem lookups_safe_iff (h : Reachable c) (tag : Str) :
    (c.RemovesSafely tag ↔ c.hasTag tag = true) ∧
      (c.ChildIsSafe tag ↔ ∃ i, tag ∈ c.getTagsOfItem i) := by
  obtain ⟨R, hR⟩ := h.represents
  exact ⟨removesSafely_iff hR, childIsSafe_iff hR⟩

theorem lookups_safe_sample :
    sample.RemovesSafely (str "t") ∧ sample.ChildIsSafe (str "t") :=
  have h := lookups_safe_iff reachable_sample (str "t")
  ⟨h.1.mpr (by decide), h.2.mpr ⟨str "a", by decide⟩⟩

/-- A tag that is not stored, and one that is stored without items. -/
theorem lookups_fail :
    Reachable empty ∧ empty.removeTag (str "t") = none ∧
      empty.getChildCollection (str "t") = none ∧
      Reachable (empty.insertTag ∅ (str "t")) ∧
      (empty.insertTag ∅ (str "t")).hasTag (str "t") = true ∧
      (empty.insertTag ∅ (str "t")).getChildCollection (str "t") = none := by
  have hidle : Reachable (empty.insertTag ∅ (str "t")) :=
    .call (.insertTag ∅ (str "t")) .empty trivial rfl
  exact ⟨.empty, rfl, rfl, hidle, by decide, by decide⟩

end Libept.Fast
