import Libept.Debtags.Coll.Fast.InUse

/-!
# Queries

The queries that combine several entries of the tag map, said in terms of the tags of the items.
-/

namespace Libept.Fast

open Std MultiMap Operators

variable {c : Fast} {R : Str → Str → Prop} {tags : StrSet} {i t u v tag : Str}

/-! ### Items with given tags -/

lemma mem_foldl_andAssign (c : Fast) (l : List Str) (res : StrSet) :
    i ∈ l.foldl (fun res tag => andAssign res (c.getItemsHavingTag tag)) res ↔
      i ∈ res ∧ ∀ t ∈ l, i ∈ c.getItemsHavingTag t := by
  induction l generalizing res with
  | nil => simp
  | cons tag l ih => rw [List.foldl_cons, ih, mem_andAssign, List.forall_mem_cons, and_assoc]

lemma mem_getItemsHavingTags (c : Fast) (tags : StrSet) :
    i ∈ c.getItemsHavingTags tags ↔
      tags.isEmpty = false ∧ ∀ t ∈ tags, i ∈ c.getItemsHavingTag t := by
  have hmem (t : Str) : t ∈ tags ↔ t ∈ tags.toList := ExtTreeSet.mem_toList.symm
  rw [isEmpty_eq_false_iff, getItemsHavingTags]
  simp only [hmem]
  cases tags.toList with
  | nil => simp
  | cons tag l =>
    simp only [mem_foldl_andAssign, List.forall_mem_cons]
    exact (and_iff_right ⟨tag, List.mem_cons_self⟩).symm

/-- The items with other tags are taken out. -/
lemma mem_foldl_eraseUnlessExact (c : Fast) (tags : StrSet) (l : List Str) (res : StrSet) :
    i ∈ l.foldl (c.eraseUnlessExact tags) res ↔
      i ∈ res ∧ (i ∈ l → ∀ s, c.items[i]? = some s → s = tags) := by
  induction l generalizing res with
  | nil => simp
  | cons item l ih =>
    have hstep : i ∈ c.eraseUnlessExact tags res item ↔
        i ∈ res ∧ (i = item → ∀ s, c.items[i]? = some s → s = tags) := by
      rw [eraseUnlessExact]
      by_cases hi : i = item
      · subst hi
        cases c.items[i]? with
        | none => simp
        | some s =>
          by_cases hs : s = tags <;> simp [hs]
      · cases c.items[item]? with
        | none => simp [hi]
        | some s =>
          by_cases hs : s = tags <;> simp [hs, hi, Ne.symm hi]
    rw [List.foldl_cons, ih, hstep, and_assoc, List.mem_cons, or_imp]

lemma mem_getItemsExactMatch (c : Fast) (tags : StrSet) :
    i ∈ c.getItemsExactMatch tags ↔
      i ∈ c.getItemsHavingTags tags ∧ ∀ s, c.items[i]? = some s → s = tags := by
  rw [getItemsExactMatch, mem_foldl_eraseUnlessExact, ExtTreeSet.mem_toList]
  exact and_congr_right fun hi => ⟨fun h => h hi, fun h _ => h⟩

/-- The items that have some tags, and those that have no others, as the tags of the items say. -/
theorem getItemsHavingTags_spec (h : Reachable c) :
    (∀ (tags : StrSet), tags.isEmpty = false → ∀ i,
      i ∈ c.getItemsHavingTags tags ↔ ∀ t ∈ tags, t ∈ c.getTagsOfItem i) ∧
      (∀ i ∈ c.getTaggedItems, i ∈ c.getItemsHavingTags (c.getTagsOfItem i)) ∧
      ∀ (tags : StrSet) i,
        i ∈ c.getItemsExactMatch tags ↔ i ∈ c.getTaggedItems ∧ c.getTagsOfItem i = tags := by
  obtain ⟨R, hR⟩ := h.represents
  have hall : ∀ tags : StrSet, tags.isEmpty = false → ∀ i,
      i ∈ c.getItemsHavingTags tags ↔ ∀ t ∈ tags, t ∈ c.getTagsOfItem i := by
    intro tags hne i
    rw [mem_getItemsHavingTags, and_iff_right hne]
    simp only [hR.mem_getItemsHavingTag, hR.mem_getTagsOfItem]
  have htagged : ∀ i ∈ c.getTaggedItems, (c.getTagsOfItem i).isEmpty = false := by
    intro i hi
    rw [mem_getTaggedItems, hR.items.mem_iff] at hi
    obtain ⟨t, ht⟩ := hi
    exact isEmpty_eq_false_iff.mpr ⟨t, hR.mem_getTagsOfItem.mpr ht⟩
  refine ⟨hall, fun i hi => ?_, fun tags i => ?_⟩
  · exact (hall _ (htagged i hi) i).mpr fun t ht => ht
  · rw [mem_getItemsExactMatch]
    constructor
    · rintro ⟨hi, hexact⟩
      have hne := ((mem_getItemsHavingTags c tags).mp hi).1
      obtain ⟨t, ht⟩ := isEmpty_eq_false_iff.mp hne
      have hit := hR.mem_getTagsOfItem.mp ((hall tags hne i).mp hi t ht)
      obtain ⟨s, hs⟩ := getElem?_of_mem ((hR.items.mem_iff i).mpr ⟨t, hit⟩)
      rw [mem_getTaggedItems, getTagsOfItem_eq, image_of_getElem? hs]
      exact ⟨mem_of_getElem? hs, hexact s hs⟩
    · rintro ⟨hi, rfl⟩
      refine ⟨(hall _ (htagged i hi) i).mpr fun t ht => ht, fun s hs => ?_⟩
      rw [getTagsOfItem_eq, image_of_getElem? hs]

theorem getItemsHavingTags_sample :
    str "a" ∈ sample.getItemsHavingTags (ExtTreeSet.ofList [str "t"]) ∧
      str "b" ∈ sample.getItemsExactMatch (ExtTreeSet.ofList [str "t"]) ∧
      str "a" ∉ sample.getItemsExactMatch (ExtTreeSet.ofList [str "t"]) := by
  obtain ⟨hall, -, hexact⟩ := getItemsHavingTags_spec reachable_sample
  refine ⟨(hall _ (by decide) _).mpr fun t ht => ?_, (hexact _ _).mpr (by decide), fun hi => ?_⟩
  · obtain rfl := mem_singleton.mp ht
    decide
  · exact absurd ((hexact _ _).mp hi).2 (by decide)

/-! ### Implied tags -/

lemma mem_getTagsImplying (c : Fast) (tag : Str) :
    u ∈ c.getTagsImplying tag ↔ c.hasTag u = true ∧ u ≠ tag ∧
      ∀ i ∈ c.getItemsHavingTag u, i ∈ c.getItemsHavingTag tag := by
  rw [getTagsImplying, ExtTreeMap.foldl_eq_foldl_keys, mem_subItem,
    mem_foldl (P := fun t u => t = u ∧ ∀ i ∈ c.getItemsHavingTag t, i ∈ c.getItemsHavingTag tag)]
  · simp only [ExtTreeSet.not_mem_empty, false_or, ExtTreeMap.mem_keys, hasTag_iff]
    constructor
    · rintro ⟨⟨t, ht, rfl, himp⟩, hne⟩
      exact ⟨ht, Ne.symm hne, himp⟩
    · rintro ⟨hu, hne, himp⟩
      exact ⟨⟨u, hu, rfl, himp⟩, Ne.symm hne⟩
  · intro s t v
    split_ifs with himp
    · rw [setContains_iff] at himp
      rw [mem_orAssignItem, and_iff_left himp]
    · rw [setContains_iff] at himp
      simp [himp]

/-- The tags that imply a tag are the other stored tags whose items all have it, and what implies
one of them implies the tag too. -/
theorem getTagsImplying_spec (h : Reachable c) :
    (∀ tag u, u ∈ c.getTagsImplying tag ↔ c.hasTag u = true ∧ u ≠ tag ∧
      ∀ i, u ∈ c.getTagsOfItem i → tag ∈ c.getTagsOfItem i) ∧
      ∀ tag u v, v ∈ c.getTagsImplying u → u ∈ c.getTagsImplying tag → v ≠ tag →
        v ∈ c.getTagsImplying tag := by
  obtain ⟨R, hR⟩ := h.represents
  constructor
  · intro tag u
    rw [mem_getTagsImplying]
    simp only [hR.mem_getItemsHavingTag, hR.mem_getTagsOfItem]
  · intro tag u v hv hu hne
    rw [mem_getTagsImplying] at hv hu ⊢
    exact ⟨hv.1, hne, fun i hi => hu.2.2 i (hv.2.2 i hi)⟩

theorem getTagsImplying_sample : str "u" ∈ sample.getTagsImplying (str "t") := by
  apply ((getTagsImplying_spec reachable_sample).1 (str "t") (str "u")).mpr
  refine ⟨by decide, by decide, fun i hi => ?_⟩
  obtain ⟨R, hR⟩ := reachable_sample.represents
  have hitems : sample.getItemsHavingTag (str "u") = ExtTreeSet.ofList [str "a"] := by decide
  rw [hR.mem_getTagsOfItem, ← hR.mem_getItemsHavingTag, hitems] at hi
  obtain rfl := mem_singleton.mp hi
  decide

end Libept.Fast
