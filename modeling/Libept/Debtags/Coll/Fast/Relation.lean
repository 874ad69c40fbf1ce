import Libept.Debtags.Coll.Fast

/-!
# The relation of a collection

What a collection is for is a relation: which item has which tag. `Represents c R` says that both
maps of `c` hold the relation `R`. The item map holds nothing else; the tag map may also have tags
that no item has, which `insert(items, tag)` stores when it is given no items. Every function that
changes a collection is described by what it does to the relation.
-/

namespace Libept.Fast

open Std MultiMap Operators

/-- Both maps of `c` hold `R`, and every stored item has a tag. -/
structure Represents (c : Fast) (R : Str → Str → Prop) : Prop where
  items : IsImage c.items R
  tags : ∀ t i, i ∈ image c.tags t ↔ R i t

variable {c : Fast} {R : Str → Str → Prop}

lemma getTagsOfItem_eq (c : Fast) (i : Str) : c.getTagsOfItem i = image c.items i := by
  unfold getTagsOfItem image
  cases c.items[i]? <;> rfl

lemma getItemsHavingTag_eq (c : Fast) (t : Str) : c.getItemsHavingTag t = image c.tags t := by
  unfold getItemsHavingTag image
  cases c.tags[t]? <;> rfl

@[simp] lemma hasItem_iff {c : Fast} {i : Str} : c.hasItem i = true ↔ i ∈ c.items := Iff.rfl

@[simp] lemma hasTag_iff {c : Fast} {t : Str} : c.hasTag t = true ↔ t ∈ c.tags := Iff.rfl

lemma Represents.congr {R' : Str → Str → Prop} (h : c.Represents R)
    (hR : ∀ i t, R i t ↔ R' i t) : c.Represents R' :=
  ⟨h.items.congr hR, fun t i => by rw [h.tags, hR]⟩

/-- A stored tag is found, with the items that have it. -/
lemma Represents.exists_tags_getElem? (h : c.Represents R) {t : Str} (ht : t ∈ c.tags) :
    ∃ s, c.tags[t]? = some s ∧ ∀ i, i ∈ s ↔ R i t := by
  obtain ⟨s, hs⟩ := getElem?_of_mem ht
  exact ⟨s, hs, fun i => by rw [← image_of_getElem? hs, h.tags]⟩

lemma Represents.mem_tags (h : c.Represents R) {i t : Str} (hR : R i t) : t ∈ c.tags :=
  mem_of_mem_image ((h.tags t i).mpr hR)

lemma Represents.mem_getTagsOfItem (h : c.Represents R) {i t : Str} :
    t ∈ c.getTagsOfItem i ↔ R i t := by
  rw [getTagsOfItem_eq, h.items.mem_image_iff]

lemma Represents.mem_getItemsHavingTag (h : c.Represents R) {i t : Str} :
    i ∈ c.getItemsHavingTag t ↔ R i t := by
  rw [getItemsHavingTag_eq, h.tags]

lemma represents_empty : empty.Represents fun _ _ => False :=
  ⟨IsImage.empty, fun t i => by simp [empty, image]⟩

/-! ### Adding pairs -/

/-- `c'` is `c` and exactly the pairs of `R`. -/
structure Adds (c c' : Fast) (R : Str → Str → Prop) : Prop where
  items : ∀ i t, t ∈ image c'.items i ↔ t ∈ image c.items i ∨ R i t
  tags : ∀ i t, i ∈ image c'.tags t ↔ i ∈ image c.tags t ∨ R i t
  mem_items : ∀ i, i ∈ c'.items ↔ i ∈ c.items ∨ ∃ t, R i t
  mem_tags : ∀ t, t ∈ c'.tags ↔ t ∈ c.tags ∨ ∃ i, R i t

namespace Adds

variable {c' c'' : Fast} {R' : Str → Str → Prop}

lemma congr (h : Adds c c' R) (hR : ∀ i t, R i t ↔ R' i t) : Adds c c' R' := by
  obtain rfl : R = R' := funext fun i => funext fun t => propext (hR i t)
  exact h

lemma refl (c : Fast) : Adds c c fun _ _ => False :=
  ⟨by simp, by simp, by simp, by simp⟩

lemma trans (h : Adds c c' R) (h' : Adds c' c'' R') : Adds c c'' fun i t => R i t ∨ R' i t where
  items i t := by rw [h'.items, h.items, or_assoc]
  tags i t := by rw [h'.tags, h.tags, or_assoc]
  mem_items i := by rw [h'.mem_items, h.mem_items, or_assoc, exists_or]
  mem_tags t := by rw [h'.mem_tags, h.mem_tags, or_assoc, exists_or]

end Adds

lemma Represents.adds {c' : Fast} {R' : Str → Str → Prop} (h : c.Represents R)
    (h' : Adds c c' R') : c'.Represents fun i t => R i t ∨ R' i t where
  items := ⟨fun i => by rw [h'.mem_items, h.items.mem_iff, exists_or],
    fun i t => by rw [h'.items, h.items.mem_image_iff]⟩
  tags t i := by rw [h'.tags, h.tags]

lemma adds_insertItem (c : Fast) (item : Str) (tags : StrSet) :
    Adds c (c.insertItem item tags) fun i t => i = item ∧ t ∈ tags := by
  rw [insertItem]
  split_ifs with he
  · rw [ExtTreeSet.isEmpty_iff] at he
    exact (Adds.refl c).congr fun i t => by simp [he]
  · have hne := isEmpty_eq_false_iff.mp (Bool.not_eq_true _ ▸ he)
    refine ⟨fun i t => ?_, fun i t => ?_, fun i => ?_, fun t => ?_⟩
    · rw [mem_image_upsert (fun _ _ => mem_orAssign), eq_comm]
    · refine (mem_image_foldl_upsert (fun s v => ?_) tags.toList c.tags).trans ?_
      · simp
      · simp [and_comm, eq_comm]
    · rw [mem_upsert, or_comm, exists_and_left, and_iff_left hne, eq_comm]
    · apply (mem_foldl_upsert tags.toList c.tags).trans
      simp [or_comm]

/-- `insert(items, tags)` adds the product of its arguments, by induction on the items. -/
lemma adds_insert (c : Fast) (items tags : StrSet) :
    Adds c (c.insert items tags) fun i t => i ∈ items ∧ t ∈ tags := by
  rw [insert]
  split_ifs with he
  · rw [ExtTreeSet.isEmpty_iff] at he
    exact (Adds.refl c).congr fun i t => by simp [he]
  · have key : ∀ (l : List Str) (c : Fast),
        Adds c (l.foldl (fun c i => c.insertItem i tags) c) fun i t => i ∈ l ∧ t ∈ tags := by
      intro l
      induction l with
      | nil => exact fun c => (Adds.refl c).congr fun i t => by simp
      | cons a l ih =>
        intro c
        apply ((adds_insertItem c a tags).trans (ih _)).congr
        intro i t
        rw [List.mem_cons, or_and_right]
    exact (key items.toList c).congr fun i t => by simp

/-! ### Inserting -/

lemma represents_insertItem (h : c.Represents R) (item : Str) (tags : StrSet) :
    (c.insertItem item tags).Represents fun i t => R i t ∨ i = item ∧ t ∈ tags :=
  h.adds (adds_insertItem c item tags)

lemma represents_insert (h : c.Represents R) (items tags : StrSet) :
    (c.insert items tags).Represents fun i t => R i t ∨ i ∈ items ∧ t ∈ tags :=
  h.adds (adds_insert c items tags)

lemma represents_insertTag (h : c.Represents R) (items : StrSet) (tag : Str) :
    (c.insertTag items tag).Represents fun i t => R i t ∨ i ∈ items ∧ t = tag := by
  constructor
  · refine (h.items.foldl_upsert items.toList (fun s v => ?_) ⟨tag, ?_⟩).congr fun i t => ?_
    all_goals simp [eq_comm]
  · intro t i
    simp only [insertTag]
    rw [mem_image_upsert (fun s v => mem_orAssign), h.tags]
    simp [and_comm, eq_comm]

/-! ### Removing -/

/-- Dropping a tag of a stored item drops one pair. The `find` succeeds. -/
lemma isImage_dropTagOfItem {items : StrMap StrSet} (h : IsImage items R) (tag : Str) {item u : Str}
    (hu : R item u) :
    ∃ items', dropTagOfItem tag items item = some items' ∧
      IsImage items' fun i t => R i t ∧ ¬ (i = item ∧ t = tag) := by
  obtain ⟨s, hs, hmem⟩ := h.exists_getElem? hu
  simp only [dropTagOfItem, hs, Option.bind_eq_bind, Option.bind_some]
  split_ifs with he
  · rw [ExtTreeSet.isEmpty_iff, set_eq_empty_iff] at he
    refine ⟨_, rfl, (h.erase item).congr fun i t => ?_⟩
    have hit := he t
    rw [mem_subAssignItem, hmem] at hit
    constructor
    · rintro ⟨hi, hR⟩
      exact ⟨hR, fun hc => hi hc.1.symm⟩
    · rintro ⟨hR, hc⟩
      refine ⟨?_, hR⟩
      rintro rfl
      exact hit ⟨hR, fun ht => hc ⟨rfl, ht.symm⟩⟩
  · have hne := isEmpty_eq_false_iff.mp (Bool.not_eq_true _ ▸ he)
    refine ⟨_, rfl, (h.insert item hne).congr fun i t => ?_⟩
    rw [mem_subAssignItem, hmem]
    by_cases hi : item = i
    · subst hi
      simp [eq_comm]
    · simp [hi, Ne.symm hi]

lemma isImage_foldlM_dropTagOfItem (tag : Str) (l : List Str) (hl : l.Nodup)
    {items : StrMap StrSet} (h : IsImage items R) (hR : ∀ i ∈ l, R i tag) :
    ∃ items', l.foldlM (dropTagOfItem tag) items = some items' ∧
      IsImage items' fun i t => R i t ∧ ¬ (i ∈ l ∧ t = tag) := by
  induction l generalizing items R with
  | nil => exact ⟨items, rfl, h.congr fun i t => by simp⟩
  | cons item l ih =>
    obtain ⟨hitem, hl⟩ := List.nodup_cons.mp hl
    obtain ⟨items₁, h₁, himg₁⟩ := isImage_dropTagOfItem h tag (hR item (by simp))
    obtain ⟨items₂, h₂, himg₂⟩ := ih hl himg₁ fun i hi =>
      ⟨hR i (by simp [hi]), fun hc => hitem (hc.1 ▸ hi)⟩
    refine ⟨items₂, ?_, himg₂.congr fun i t => ?_⟩
    · simp [List.foldlM_cons, h₁, h₂]
    · rw [List.mem_cons]
      tauto

/-- Removing a stored tag finds every item it looks up, and drops the pairs of that tag. -/
lemma represents_removeTag (h : c.Represents R) {tag : Str} (ht : c.hasTag tag = true) :
    ∃ c', c.removeTag tag = some c' ∧ c'.tags = c.tags.erase tag ∧
      c'.Represents fun i t => R i t ∧ t ≠ tag := by
  obtain ⟨s, hs, hmem⟩ := h.exists_tags_getElem? ht
  obtain ⟨items', hfold, himg⟩ := isImage_foldlM_dropTagOfItem tag s.toList (nodup_toList s) h.items
    fun i hi => (hmem i).mp (ExtTreeSet.mem_toList.mp hi)
  refine ⟨⟨items', c.tags.erase tag⟩, ?_, rfl, ?_, fun t i => ?_⟩
  · simp [removeTag, hs, hfold]
  · apply himg.congr
    intro i t
    rw [ExtTreeSet.mem_toList, hmem]
    constructor
    · rintro ⟨hR, hc⟩
      exact ⟨hR, fun ht => hc ⟨ht ▸ hR, ht⟩⟩
    · rintro ⟨hR, hc⟩
      exact ⟨hR, fun ht => hc ht.2⟩
  · rw [mem_image_erase, h.tags]
    simp [and_comm, eq_comm]

/-- Copying stored items finds each of them and copies all their tags. -/
lemma represents_foldlM_copyItem (h : c.Represents R) (l : List Str)
    (hl : ∀ i ∈ l, ∃ t, R i t) {res : Fast} {R' : Str → Str → Prop} (hres : res.Represents R') :
    ∃ res', l.foldlM (copyItem c) res = some res' ∧
      res'.Represents fun i t => R' i t ∨ i ∈ l ∧ R i t := by
  induction l generalizing res R' with
  | nil => exact ⟨res, rfl, hres.congr fun i t => by simp⟩
  | cons item l ih =>
    obtain ⟨t, ht⟩ := hl item (by simp)
    obtain ⟨s, hs, hmem⟩ := h.items.exists_getElem? ht
    obtain ⟨res', hfold, hrep⟩ := ih (fun i hi => hl i (by simp [hi]))
      (represents_insertItem hres item s)
    refine ⟨res', ?_, hrep.congr fun i t => ?_⟩
    · simp [List.foldlM_cons, copyItem, hs, hfold]
    · rw [hmem, List.mem_cons]
      constructor
      · rintro ((h' | ⟨rfl, h'⟩) | ⟨hi, h'⟩)
        · exact .inl h'
        · exact .inr ⟨.inl rfl, h'⟩
        · exact .inr ⟨.inr hi, h'⟩
      · rintro (h' | ⟨rfl | hi, h'⟩)
        · exact .inl (.inl h')
        · exact .inl (.inr ⟨rfl, h'⟩)
        · exact .inr ⟨hi, h'⟩

/-- The child collection of a tag in use has the items of that tag, without it. -/
lemma represents_getChildCollection (h : c.Represents R) {tag : Str} (ht : ∃ i, R i tag) :
    ∃ c', c.getChildCollection tag = some c' ∧
      c'.Represents fun i t => R i tag ∧ R i t ∧ t ≠ tag := by
  obtain ⟨i₀, hi₀⟩ := ht
  obtain ⟨s, hs, hmem⟩ := h.exists_tags_getElem? (h.mem_tags hi₀)
  obtain ⟨res, hfold, hres⟩ := represents_foldlM_copyItem h s.toList
    (fun i hi => ⟨tag, (hmem i).mp (ExtTreeSet.mem_toList.mp hi)⟩) represents_empty
  have hres' : res.Represents fun i t => R i tag ∧ R i t :=
    hres.congr fun i t => by simp [hmem]
  obtain ⟨c', hc', -, hrep⟩ := represents_removeTag hres' (hres'.mem_tags ⟨hi₀, hi₀⟩)
  refine ⟨c', ?_, hrep.congr fun i t => and_assoc⟩
  simp [getChildCollection, hs, hfold, hc']

/-! ### Dropping tags -/

/-- `c'` is `c` without the tags with `P`, and without the items that have no other tags. -/
structure Drops (c c' : Fast) (P : Str → Prop) : Prop where
  tags : ∀ (t : Str) (s : StrSet), c'.tags[t]? = some s ↔ c.tags[t]? = some s ∧ ¬P t
  items : IsImage c'.items fun i t => t ∈ c.getTagsOfItem i ∧ ¬P t

namespace Drops

variable {c' c'' : Fast} {P Q : Str → Prop}

lemma congr (h : Drops c c' P) (hPQ : ∀ t, P t ↔ Q t) : Drops c c' Q := by
  obtain rfl : P = Q := funext fun t => propext (hPQ t)
  exact h

lemma mem_tags (h : Drops c c' P) {t : Str} : t ∈ c'.tags ↔ t ∈ c.tags ∧ ¬P t := by
  simp only [ExtTreeMap.mem_iff_isSome_getElem?, Option.isSome_iff_exists, h.tags]
  exact exists_and_right

lemma mem_getTagsOfItem (h : Drops c c' P) {i t : Str} :
    t ∈ c'.getTagsOfItem i ↔ t ∈ c.getTagsOfItem i ∧ ¬P t := by
  rw [getTagsOfItem_eq c', h.items.mem_image_iff]

/-- The other tags keep their items. -/
lemma getItemsHavingTag_eq (h : Drops c c' P) {t : Str} (ht : ¬P t) :
    c'.getItemsHavingTag t = c.getItemsHavingTag t := by
  have hget : c'.tags[t]? = c.tags[t]? := Option.ext fun s => by simp [h.tags, ht]
  rw [getItemsHavingTag, getItemsHavingTag, hget]

lemma represents (h : Drops c c' P) (hc : c.Represents R) :
    c'.Represents fun i t => R i t ∧ ¬P t := by
  constructor
  · apply h.items.congr
    intro i t
    rw [hc.mem_getTagsOfItem]
  · intro t i
    by_cases ht : P t
    · have hmem : t ∉ c'.tags := fun hmem => (h.mem_tags.mp hmem).2 ht
      simp [image, ExtTreeMap.getElem?_eq_none hmem, ht]
    · rw [← Fast.getItemsHavingTag_eq, h.getItemsHavingTag_eq ht, Fast.getItemsHavingTag_eq,
        hc.tags]
      simp [ht]

lemma refl (h : c.Represents R) : Drops c c fun _ => False := by
  constructor
  · simp
  · apply h.items.congr
    intro i t
    rw [h.mem_getTagsOfItem]
    simp

lemma trans (h : Drops c c' P) (h' : Drops c' c'' Q) : Drops c c'' fun t => P t ∨ Q t := by
  constructor
  · intro t s
    rw [h'.tags, h.tags, and_assoc, not_or]
  · apply h'.items.congr
    intro i t
    rw [h.mem_getTagsOfItem, and_assoc, not_or]

/-- What is left is determined. -/
lemma unique (h : Drops c c' P) (h' : Drops c c'' P) : c' = c'' := by
  cases c'
  cases c''
  rw [mk.injEq]
  constructor
  · exact h.items.unique h'.items
  · apply ExtTreeMap.ext_getElem?
    intro t
    exact Option.ext fun s => by rw [h.tags, h'.tags]

end Drops

lemma drops_removeTag (h : c.Represents R) {tag : Str} (ht : c.hasTag tag = true) :
    ∃ c', c.removeTag tag = some c' ∧ Drops c c' (· = tag) := by
  obtain ⟨c', hc', htags, hrep⟩ := represents_removeTag h ht
  refine ⟨c', hc', fun t s => ?_, hrep.items.congr fun i t => ?_⟩
  · rw [htags, ExtTreeMap.getElem?_erase]
    by_cases htt : t = tag
    · simp [htt]
    · simp [htt, Ne.symm htt]
  · rw [h.mem_getTagsOfItem]

/-- One tag met by the walk. -/
lemma drops_removeIfLessThan (h : c.Represents R) (card : ℕ) {tag : Str} (ht : tag ∈ c.tags) :
    ∃ c', removeIfLessThan card c tag = some c' ∧
      Drops c c' fun t => t = tag ∧ (c.getItemsHavingTag t).size < card := by
  obtain ⟨s, hs⟩ := getElem?_of_mem ht
  have hsize : (c.getItemsHavingTag tag).size = s.size := by
    rw [getItemsHavingTag_eq, image_of_getElem? hs]
  by_cases hcard : s.size < card
  · obtain ⟨c', hc', hdrops⟩ := drops_removeTag h (hasTag_iff.mpr ht)
    refine ⟨c', by simp [removeIfLessThan, hs, hcard, hc'], hdrops.congr fun t => ?_⟩
    rw [iff_self_and]
    rintro rfl
    rwa [hsize]
  · refine ⟨c, by simp [removeIfLessThan, hs, hcard], (Drops.refl h).congr fun t => ?_⟩
    rw [false_iff]
    rintro ⟨rfl, hlt⟩
    exact hcard (hsize ▸ hlt)

/-- Calls for stored tags one by one, each of which drops its tag if the items of the tag pass a
test. By induction on the tags. -/
lemma drops_foldlM {call : Fast → Str → Option Fast} {p : StrSet → Prop}
    (hcall : ∀ {c : Fast} {R : Str → Str → Prop} {tag : Str}, c.Represents R → tag ∈ c.tags →
      ∃ c', call c tag = some c' ∧ Drops c c' fun t => t = tag ∧ p (c.getItemsHavingTag t))
    (h : c.Represents R) (l : List Str) (hl : l.Nodup) (hmem : ∀ t ∈ l, t ∈ c.tags) :
    ∃ c', l.foldlM call c = some c' ∧
      Drops c c' fun t => t ∈ l ∧ p (c.getItemsHavingTag t) := by
  induction l generalizing c R with
  | nil => exact ⟨c, rfl, (Drops.refl h).congr fun t => by simp⟩
  | cons tag l ih =>
    obtain ⟨htag, hl⟩ := List.nodup_cons.mp hl
    obtain ⟨c₁, hc₁, hdrops₁⟩ := hcall h (hmem tag (by simp))
    have hne : ∀ t ∈ l, t ≠ tag := fun t ht heq => htag (heq ▸ ht)
    obtain ⟨c', hc', hdrops⟩ := ih (hdrops₁.represents h) hl fun t ht =>
      hdrops₁.mem_tags.mpr ⟨hmem t (by simp [ht]), fun hP => hne t ht hP.1⟩
    refine ⟨c', by simp [List.foldlM_cons, hc₁, hc'], (hdrops₁.trans hdrops).congr fun t => ?_⟩
    have hframe : t ∈ l → c₁.getItemsHavingTag t = c.getItemsHavingTag t := fun ht =>
      hdrops₁.getItemsHavingTag_eq fun hP => hne t ht hP.1
    rw [List.mem_cons, or_and_right]
    apply or_congr_right
    apply and_congr_right
    intro ht
    rw [hframe ht]

/-- The tags of at least `card` items survive. -/
lemma drops_removeTagsWithCardinalityLessThan (h : c.Represents R) (card : ℕ) :
    ∃ c', c.removeTagsWithCardinalityLessThan card = some c' ∧
      Drops c c' fun t => t ∈ c.tags ∧ (c.getItemsHavingTag t).size < card := by
  obtain ⟨c', hc', hdrops⟩ := drops_foldlM (p := fun s => s.size < card)
    (fun h => drops_removeIfLessThan h card) h c.tags.keys ExtTreeMap.nodup_keys
    fun t ht => ExtTreeMap.mem_keys.mp ht
  exact ⟨c', hc', hdrops.congr fun t => by rw [ExtTreeMap.mem_keys]⟩

lemma represents_removeTagsWithCardinalityLessThan (h : c.Represents R) (card : ℕ) :
    ∃ c', c.removeTagsWithCardinalityLessThan card = some c' ∧
      c'.Represents fun i t => R i t ∧ ¬ (c.getItemsHavingTag t).size < card := by
  obtain ⟨c', hc', hdrops⟩ := drops_removeTagsWithCardinalityLessThan h card
  refine ⟨c', hc', (hdrops.represents h).congr fun i t => ?_⟩
  exact and_congr_right fun hR => not_congr (and_iff_right (h.mem_tags hR))

/-! ### Collections without idle tags -/

/-- Both maps of `c` hold `R` and nothing else. -/
structure Holds (c : Fast) (R : Str → Str → Prop) : Prop where
  items : IsImage c.items R
  tags : IsImage c.tags fun t i => R i t

lemma Holds.represents (h : c.Holds R) : c.Represents R :=
  ⟨h.items, h.tags.mem_image_iff⟩

lemma Holds.congr {R' : Str → Str → Prop} (h : c.Holds R) (hR : ∀ i t, R i t ↔ R' i t) :
    c.Holds R' :=
  ⟨h.items.congr hR, h.tags.congr fun t i => hR i t⟩

/-- A collection is determined by the relation both its maps hold. -/
lemma Holds.unique {c' : Fast} (h : c.Holds R) (h' : c'.Holds R) : c = c' := by
  cases c
  cases c'
  rw [mk.injEq]
  exact ⟨h.items.unique h'.items, h.tags.unique h'.tags⟩

lemma holds_empty : empty.Holds fun _ _ => False := ⟨IsImage.empty, IsImage.empty⟩

lemma Holds.adds {c' : Fast} {R' : Str → Str → Prop} (h : c.Holds R) (h' : Adds c c' R') :
    c'.Holds fun i t => R i t ∨ R' i t where
  items := (h.represents.adds h').items
  tags := ⟨fun t => by rw [h'.mem_tags, h.tags.mem_iff, exists_or],
    fun t i => by rw [h'.tags, h.tags.mem_image_iff]⟩

lemma holds_insertItem (h : c.Holds R) (item : Str) (tags : StrSet) :
    (c.insertItem item tags).Holds fun i t => R i t ∨ i = item ∧ t ∈ tags :=
  h.adds (adds_insertItem c item tags)

lemma holds_insert (h : c.Holds R) (items tags : StrSet) :
    (c.insert items tags).Holds fun i t => R i t ∨ i ∈ items ∧ t ∈ tags :=
  h.adds (adds_insert c items tags)

end Libept.Fast
