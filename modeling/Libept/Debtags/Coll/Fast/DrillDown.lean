import Libept.Debtags.Coll.Fast.Queries
import Libept.Debtags.Coll.Fast.Removing

/-!
# Drilling down

The child collection of a tag has child collections in turn. Which one is reached depends on the
tags that have been chosen, and not on their order. The tag with the largest number of items, by
which the collection may be drilled down first, is looked for in the order of the tags.
-/

namespace Libept.Fast

open Std MultiMap

variable {c c' : Fast} {R : Str → Str → Prop} {path path' : List Str} {tag : Str}

/-- The child collections of the tags, one after the other. -/
def drillDown (c : Fast) (path : List Str) : Option Fast :=
  path.foldlM (fun c tag => c.getChildCollection tag) c

/-- By induction on the tags. The relation of the first child takes the place of `R`. -/
lemma represents_drillDown (h : c.Represents R) (hnodup : path.Nodup)
    (hitem : ∃ i, ∀ t ∈ path, R i t) :
    ∃ c', c.drillDown path = some c' ∧
      c'.Represents fun i u => (∀ t ∈ path, R i t) ∧ R i u ∧ u ∉ path := by
  induction path generalizing c R with
  | nil => exact ⟨c, rfl, h.congr fun i u => by simp⟩
  | cons tag path ih =>
    obtain ⟨i, hi⟩ := hitem
    rw [List.forall_mem_cons] at hi
    obtain ⟨htag, hnodup⟩ := List.nodup_cons.mp hnodup
    obtain ⟨c₁, hc₁, h₁⟩ := represents_getChildCollection h ⟨i, hi.1⟩
    obtain ⟨c', hc', hrep⟩ := ih h₁ hnodup
      ⟨i, fun t ht => ⟨hi.1, hi.2 t ht, fun heq => htag (heq ▸ ht)⟩⟩
    refine ⟨c', ?_, hrep.congr fun j u => ?_⟩
    · rw [drillDown, List.foldlM_cons, hc₁]
      exact hc'
    · rw [List.forall_mem_cons, List.mem_cons, not_or]
      constructor
      · rintro ⟨hall, ⟨hj, hu, hne⟩, hnot⟩
        exact ⟨⟨hj, fun t ht => (hall t ht).2.1⟩, hu, hne, hnot⟩
      · rintro ⟨⟨hj, hall⟩, hu, hne, hnot⟩
        exact ⟨fun t ht => ⟨hj, hall t ht, fun heq => htag (heq ▸ ht)⟩, ⟨hj, hu, hne⟩, hnot⟩

/-- What is reached has been reached by different tags, which some item has. -/
lemma exists_of_drillDown (h : c.Represents R) (hc' : c.drillDown path = some c') :
    path.Nodup ∧ ∃ i, ∀ t ∈ path, R i t := by
  induction path generalizing c R with
  | nil => exact ⟨List.nodup_nil, [], by simp⟩
  | cons tag path ih =>
    rw [drillDown, List.foldlM_cons, Option.bind_eq_bind, Option.bind_eq_some_iff] at hc'
    obtain ⟨c₁, hc₁, hc'⟩ := hc'
    obtain ⟨j, hj⟩ : ∃ i, R i tag := by
      by_contra hnone
      rw [getChildCollection_eq_none h (not_exists.mp hnone)] at hc₁
      cases hc₁
    obtain ⟨c₂, hc₂, h₂⟩ := represents_getChildCollection h ⟨j, hj⟩
    obtain rfl := Option.some.inj (hc₁.symm.trans hc₂)
    obtain ⟨hnodup, i, hi⟩ := ih h₂ hc'
    refine ⟨List.nodup_cons.mpr ⟨fun htag => (hi tag htag).2.2 rfl, hnodup⟩, ?_⟩
    cases path with
    | nil => exact ⟨j, by simpa using hj⟩
    | cons t path =>
      have htag := (hi t List.mem_cons_self).1
      exact ⟨i, List.forall_mem_cons.mpr ⟨htag, fun u hu => (hi u hu).2.1⟩⟩

lemma noIdleTag_drillDown (hpath : path ≠ []) (hc' : c.drillDown path = some c') :
    c'.NoIdleTag := by
  cases path with
  | nil => exact absurd rfl hpath
  | cons tag path =>
    rw [drillDown, List.foldlM_cons, Option.bind_eq_bind, Option.bind_eq_some_iff] at hc'
    obtain ⟨c₁, hc₁, hc'⟩ := hc'
    exact noIdleTag_foldlM (fun _ _ _ h _ => noIdleTag_getChildCollection h) path hc'
      (noIdleTag_getChildCollection hc₁)

/-- The same tags lead to the same collection, in any order. -/
lemma Represents.drillDown_perm (h : c.Represents R) (hperm : path.Perm path') :
    c.drillDown path = c.drillDown path' := by
  by_cases hpath : path = []
  · rw [hpath, List.Perm.nil_eq (hpath ▸ hperm)]
  have hpath' : path' ≠ [] := fun hnil => hpath (List.Perm.eq_nil (hnil ▸ hperm))
  by_cases hpossible : path.Nodup ∧ ∃ i, ∀ t ∈ path, R i t
  · obtain ⟨hnodup, i, hi⟩ := hpossible
    obtain ⟨c₁, hc₁, h₁⟩ := represents_drillDown h hnodup ⟨i, hi⟩
    obtain ⟨c₂, hc₂, h₂⟩ := represents_drillDown h (hperm.nodup_iff.mp hnodup)
      ⟨i, fun t ht => hi t (hperm.mem_iff.mpr ht)⟩
    have hholds₂ := h₂.holds (noIdleTag_drillDown hpath' hc₂)
    rw [hc₁, hc₂, (h₁.holds (noIdleTag_drillDown hpath hc₁)).unique (hholds₂.congr fun i u => ?_)]
    simp only [hperm.mem_iff]
  · have hnone {p : List Str} (hp : path.Perm p) : c.drillDown p = none := by
      rw [Option.eq_none_iff_forall_ne_some]
      intro c' hc'
      obtain ⟨hnodup, i, hi⟩ := exists_of_drillDown h hc'
      exact hpossible ⟨hp.nodup_iff.mpr hnodup, i, fun t ht => hi t (hp.mem_iff.mp ht)⟩
    rw [hnone (List.Perm.refl _), hnone hperm]

lemma mem_ofList {t : Str} : t ∈ ExtTreeSet.ofList path ↔ t ∈ path := by
  rw [ExtTreeSet.mem_ofList]
  simp

/-- An item has other tags than those of the path if it does not have exactly them. -/
lemma Represents.mem_items_drillDown (h : c.Represents R) (hpath : path ≠ []) {i : Str} :
    (∃ u, (∀ t ∈ path, R i t) ∧ R i u ∧ u ∉ path) ↔
      i ∈ c.getItemsHavingTags (ExtTreeSet.ofList path) ∧
        i ∉ c.getItemsExactMatch (ExtTreeSet.ofList path) := by
  have hhaving : i ∈ c.getItemsHavingTags (ExtTreeSet.ofList path) ↔ ∀ t ∈ path, R i t := by
    obtain ⟨t, ht⟩ := List.exists_mem_of_ne_nil path hpath
    rw [mem_getItemsHavingTags, isEmpty_eq_false_iff]
    simp only [mem_ofList, h.mem_getItemsHavingTag]
    exact and_iff_right ⟨t, ht⟩
  rw [mem_getItemsExactMatch, hhaving, not_and]
  constructor
  · rintro ⟨u, hall, hu, hnot⟩
    refine ⟨hall, fun _ hexact => hnot ?_⟩
    obtain ⟨s, hs, hmem⟩ := h.items.exists_getElem? hu
    rw [← mem_ofList, ← hexact s hs, hmem]
    exact hu
  · rintro ⟨hall, hother⟩
    by_contra hnone
    refine hother hall fun s hs => ExtTreeSet.ext_mem fun u => ?_
    rw [mem_ofList, ← image_of_getElem? hs, h.items.mem_image_iff]
    exact ⟨fun hu => by_contra fun hnot => hnone ⟨u, hall, hu, hnot⟩, fun hu => hall u hu⟩

/-- The collection can be drilled down by different tags that some item has together, and by no
others. The order of the tags does not matter. What is reached has the items with all the tags, but
for those that have no other tags, and their other tags. -/
theorem drillDown_spec (h : Reachable c) (path : List Str) :
    ((∃ c', c.drillDown path = some c') ↔
      path.Nodup ∧ ∃ i, ∀ t ∈ path, t ∈ c.getTagsOfItem i) ∧
    (∀ path', path.Perm path' → c.drillDown path' = c.drillDown path) ∧
    ∀ c', c.drillDown path = some c' →
      (∀ i u, u ∈ c'.getTagsOfItem i ↔
        (∀ t ∈ path, t ∈ c.getTagsOfItem i) ∧ u ∈ c.getTagsOfItem i ∧ u ∉ path) ∧
      (path ≠ [] → ∀ i, c'.hasItem i = true ↔
        i ∈ c.getItemsHavingTags (ExtTreeSet.ofList path) ∧
          i ∉ c.getItemsExactMatch (ExtTreeSet.ofList path)) := by
  obtain ⟨R, hR⟩ := h.represents
  simp only [hR.mem_getTagsOfItem]
  refine ⟨⟨?_, ?_⟩, fun path' hperm => (hR.drillDown_perm hperm).symm, fun c' hc' => ?_⟩
  · rintro ⟨c', hc'⟩
    exact exists_of_drillDown hR hc'
  · rintro ⟨hnodup, hitem⟩
    obtain ⟨c', hc', -⟩ := represents_drillDown hR hnodup hitem
    exact ⟨c', hc'⟩
  · obtain ⟨hnodup, hitem⟩ := exists_of_drillDown hR hc'
    obtain ⟨c'', hc'', hrep⟩ := represents_drillDown hR hnodup hitem
    obtain rfl := Option.some.inj (hc'.symm.trans hc'')
    refine ⟨fun i u => hrep.mem_getTagsOfItem, fun hpath i => ?_⟩
    rw [hasItem_iff, hrep.items.mem_iff, hR.mem_items_drillDown hpath]

theorem drillDown_sample :
    ∃ c', sample.drillDown [str "t"] = some c' ∧ c'.hasItem (str "a") = true ∧
      c'.hasItem (str "b") = false := by
  have h := drillDown_spec reachable_sample [str "t"]
  obtain ⟨c', hc'⟩ := h.1.mpr ⟨List.nodup_singleton _, str "a", by decide⟩
  have hitem := (h.2.2 c' hc').2 (List.cons_ne_nil _ _)
  refine ⟨c', hc', (hitem _).mpr (by decide), ?_⟩
  rw [← Bool.not_eq_true, hitem]
  decide

/-! ### The tag with the most items -/

/-- One tag met by the loop of `findTagWithMaxCardinality`, with the result and its cardinality so
far. -/
def takeIfMore (best : Str × ℕ) (tag : Str) (items : StrSet) : Str × ℕ :=
  if items.size > best.2 then (tag, items.size) else best

/-- The tag, and what `card` is set to. -/
def findTagWithMaxCardinality (c : Fast) : Str × ℕ := c.tags.foldl takeIfMore ([], 0)

/-- Either no tag has more items than what was there before, or the result is the first of those
with the most items. -/
lemma foldl_takeIfMore (l : List (Str × StrSet)) (best : Str × ℕ) :
    (l.foldl (fun best x => takeIfMore best x.1 x.2) best = best ∧ ∀ x ∈ l, x.2.size ≤ best.2) ∨
      ∃ l₁ tag items l₂, l = l₁ ++ (tag, items) :: l₂ ∧
        l.foldl (fun best x => takeIfMore best x.1 x.2) best = (tag, items.size) ∧
        best.2 < items.size ∧ (∀ x ∈ l₁, x.2.size < items.size) ∧
        ∀ x ∈ l₂, x.2.size ≤ items.size := by
  induction l generalizing best with
  | nil => exact .inl ⟨rfl, by simp⟩
  | cons x l ih =>
    obtain ⟨t, s⟩ := x
    rw [List.foldl_cons]
    by_cases hmore : s.size > best.2
    · rw [takeIfMore, if_pos hmore]
      obtain ⟨hsame, hall⟩ | ⟨l₁, tag, items, l₂, rfl, hres, hlt, hbefore, hafter⟩ := ih (t, s.size)
      · exact .inr ⟨[], t, s, l, rfl, hsame, hmore, by simp, hall⟩
      · refine .inr ⟨(t, s) :: l₁, tag, items, l₂, rfl, hres, hmore.trans hlt, ?_, hafter⟩
        exact List.forall_mem_cons.mpr ⟨hlt, hbefore⟩
    · rw [takeIfMore, if_neg hmore]
      obtain ⟨hsame, hall⟩ | ⟨l₁, tag, items, l₂, rfl, hres, hlt, hbefore, hafter⟩ := ih best
      · exact .inl ⟨hsame, List.forall_mem_cons.mpr ⟨Nat.le_of_not_lt hmore, hall⟩⟩
      · refine .inr ⟨(t, s) :: l₁, tag, items, l₂, rfl, hres, hlt, ?_, hafter⟩
        exact List.forall_mem_cons.mpr ⟨(Nat.le_of_not_lt hmore).trans_lt hlt, hbefore⟩

/-- The first of the tags with the most items, and their number, or nothing if no tag has items. -/
structure MostItems (c : Fast) (best : Str × ℕ) : Prop where
  found : best = ([], 0) ∨ 0 < best.2 ∧ ∃ s, c.tags[best.1]? = some s ∧ s.size = best.2
  most : ∀ (u : Str) (s : StrSet), c.tags[u]? = some s → s.size ≤ best.2
  first : ∀ (u : Str) (s : StrSet), c.tags[u]? = some s → compare u best.1 = .lt →
    s.size < best.2

lemma mostItems_find (c : Fast) : c.MostItems c.findTagWithMaxCardinality := by
  rw [findTagWithMaxCardinality, ExtTreeMap.foldl_eq_foldl_toList]
  have hmem (u : Str) (s : StrSet) : c.tags[u]? = some s ↔ (u, s) ∈ c.tags.toList :=
    ExtTreeMap.mem_toList_iff_getElem?_eq_some.symm
  have hordered : c.tags.toList.Pairwise fun a b => compare a.1 b.1 = .lt :=
    ExtTreeMap.ordered_keys_toList
  obtain ⟨hsame, hall⟩ | ⟨l₁, tag, items, l₂, hl, hres, hpos, hbefore, hafter⟩ :=
    foldl_takeIfMore c.tags.toList ([], 0)
  · rw [hsame]
    refine ⟨.inl rfl, fun u s hs => hall _ ((hmem u s).mp hs), fun u s _ hlt => ?_⟩
    cases u <;> cases hlt
  · rw [hres]
    have hcases (u : Str) (s : StrSet) (hs : c.tags[u]? = some s) :
        (u, s) ∈ l₁ ∨ (u, s) = (tag, items) ∨ (u, s) ∈ l₂ := by
      rw [hmem, hl] at hs
      exact (List.mem_append.mp hs).imp_right List.mem_cons.mp
    refine ⟨.inr ⟨hpos, items, (hmem _ _).mpr (hl ▸ by simp), rfl⟩, fun u s hs => ?_,
      fun u s hs hlt => ?_⟩
    · rcases hcases u s hs with hs | heq | hs
      · exact (hbefore _ hs).le
      · rw [(Prod.mk.inj heq).2]
      · exact hafter _ hs
    · rcases hcases u s hs with hs | heq | hs
      · exact hbefore _ hs
      · rw [(Prod.mk.inj heq).1] at hlt
        exact absurd hlt (by simp)
      · rw [hl] at hordered
        have hgt := (List.pairwise_cons.mp (List.pairwise_append.mp hordered).2.1).1 _ hs
        exact absurd hlt (by simp [OrientedCmp.gt_of_lt hgt])

lemma MostItems.unique {best best' : Str × ℕ} (h : c.MostItems best) (h' : c.MostItems best') :
    best = best' := by
  have hle {b b' : Str × ℕ} (h : c.MostItems b) (h' : c.MostItems b') : b.2 ≤ b'.2 := by
    rcases h.found with rfl | ⟨-, s, hs, hsize⟩
    · exact Nat.zero_le _
    · exact hsize ▸ h'.most _ s hs
  have hsize : best.2 = best'.2 := (hle h h').antisymm (hle h' h)
  refine Prod.ext ?_ hsize
  rcases h.found with rfl | ⟨hpos, s, hs, hs'⟩
  · rcases h'.found with rfl | ⟨hpos', -⟩
    · rfl
    · rw [← hsize] at hpos'
      cases hpos'
  · rcases h'.found with rfl | ⟨-, t, ht, ht'⟩
    · rw [hsize] at hpos
      cases hpos
    -- neither of the tags comes before the other one
    · cases hcompare : compare best.1 best'.1 with
      | lt =>
        have hlt := h'.first _ s hs hcompare
        omega
      | eq => exact LawfulEqCmp.eq_of_compare hcompare
      | gt =>
        have hlt := h.first _ t ht (OrientedCmp.lt_of_gt hcompare)
        omega

/-- Tags may be dropped, if it is not the one with the most items. -/
lemma MostItems.drops {best : Str × ℕ} {P : Str → Prop} (h : c.MostItems best)
    (hdrops : Drops c c' P) (hbest : best = ([], 0) ∨ ¬ P best.1) : c'.MostItems best where
  found := by
    refine h.found.imp_right fun ⟨hpos, s, hs, hsize⟩ => ⟨hpos, s, ?_, hsize⟩
    rcases hbest with rfl | hnot
    · cases hpos
    · exact (hdrops.tags _ _).mpr ⟨hs, hnot⟩
  most u s hs := h.most u s ((hdrops.tags u s).mp hs).1
  first u s hs := h.first u s ((hdrops.tags u s).mp hs).1

lemma getItemsHavingTag_cases (c : Fast) (u : Str) :
    c.tags[u]? = none ∧ c.getItemsHavingTag u = ∅ ∨
      c.tags[u]? = some (c.getItemsHavingTag u) := by
  rw [getItemsHavingTag]
  cases c.tags[u]? <;> simp

/-- What is found is the first tag with the most items, by which the collection can be drilled down.
It is found in what is left of the collection, too, when the tags with fewer items than a number are
removed, unless it is one of them. -/
theorem findTagWithMaxCardinality_spec (h : Reachable c) (tag : Str) (card : ℕ)
    (hfind : c.findTagWithMaxCardinality = (tag, card)) :
    (∀ u, (c.getItemsHavingTag u).size ≤ card ∧
      (compare u tag = .lt → 0 < card → (c.getItemsHavingTag u).size < card)) ∧
    (card = 0 → tag = [] ∧ ∀ i, (c.getTagsOfItem i).isEmpty = true) ∧
    (0 < card → (c.getItemsHavingTag tag).size = card ∧ ∃ c', c.drillDown [tag] = some c') ∧
    ∀ n, ∃ c', c.removeTagsWithCardinalityLessThan n = some c' ∧
      c'.findTagWithMaxCardinality = if n ≤ card then (tag, card) else ([], 0) := by
  obtain ⟨R, hR⟩ := h.represents
  have hmost := mostItems_find c
  rw [hfind] at hmost
  have hempty : (∅ : StrSet).size = 0 := ExtTreeSet.size_empty
  have hle (u : Str) : (c.getItemsHavingTag u).size ≤ card := by
    rcases c.getItemsHavingTag_cases u with ⟨-, hu⟩ | hu
    · rw [hu, hempty]
      exact Nat.zero_le _
    · exact hmost.most u _ hu
  refine ⟨fun u => ⟨hle u, fun hlt hpos => ?_⟩, fun hzero => ?_, fun hpos => ?_, fun n => ?_⟩
  · rcases c.getItemsHavingTag_cases u with ⟨-, hu⟩ | hu
    · rwa [hu, hempty]
    · exact hmost.first u _ hu hlt
  · subst hzero
    refine ⟨?_, fun i => ?_⟩
    · rcases hmost.found with hnone | ⟨hpos, -⟩
      · exact (Prod.mk.inj hnone).1
      · cases hpos
    · by_contra hne
      obtain ⟨t, ht⟩ := isEmpty_eq_false_iff.mp (Bool.eq_false_of_not_eq_true hne)
      have hi := hR.mem_getItemsHavingTag.mpr (hR.mem_getTagsOfItem.mp ht)
      rw [ExtTreeSet.eq_empty_iff_size_eq_zero.mpr (Nat.le_zero.mp (hle t))] at hi
      exact ExtTreeSet.not_mem_empty hi
  · obtain ⟨-, s, hs, hsize⟩ := hmost.found.resolve_left fun hnone => by
      rw [(Prod.mk.inj hnone).2] at hpos
      cases hpos
    have hitems : c.getItemsHavingTag tag = s := by rw [getItemsHavingTag, hs]
    obtain ⟨i, hi⟩ : ∃ i, i ∈ s := by
      by_contra hnone
      rw [set_eq_empty_iff.mpr (not_exists.mp hnone), hempty] at hsize
      exact hpos.ne hsize
    rw [← hitems, hR.mem_getItemsHavingTag] at hi
    obtain ⟨c', hc', -⟩ := represents_drillDown hR (List.nodup_singleton tag)
      ⟨i, by simpa using hi⟩
    exact ⟨hitems ▸ hsize, c', hc'⟩
  · obtain ⟨c', hc', hdrops⟩ := drops_removeTagsWithCardinalityLessThan hR n
    refine ⟨c', hc', (mostItems_find c').unique ?_⟩
    split_ifs with hn
    · refine hmost.drops hdrops (hmost.found.imp_right ?_)
      rintro ⟨-, s, hs, hsize⟩ ⟨-, hlt⟩
      rw [getItemsHavingTag, hs] at hlt
      exact absurd (hsize ▸ hn) (Nat.not_le.mpr hlt)
    · have hnone (u : Str) (s : StrSet) (hs : c'.tags[u]? = some s) : False := by
        obtain ⟨hu, hnot⟩ := (hdrops.tags u s).mp hs
        exact hnot ⟨mem_of_getElem? hu, (hle u).trans_lt (Nat.lt_of_not_le hn)⟩
      exact ⟨.inl rfl, fun u s hs => (hnone u s hs).elim, fun u s hs => (hnone u s hs).elim⟩

theorem findTagWithMaxCardinality_sample :
    sample.findTagWithMaxCardinality = (str "t", 2) ∧
      ∃ c', sample.removeTagsWithCardinalityLessThan 2 = some c' ∧
        c'.findTagWithMaxCardinality = (str "t", 2) := by
  have hfind : sample.findTagWithMaxCardinality = (str "t", 2) := by decide
  obtain ⟨-, -, -, hremoved⟩ := findTagWithMaxCardinality_spec reachable_sample _ _ hfind
  exact ⟨hfind, hremoved 2⟩

end Libept.Fast
