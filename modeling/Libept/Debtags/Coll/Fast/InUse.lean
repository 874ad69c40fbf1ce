import Libept.Debtags.Coll.Fast.Reachable
import Libept.Lib.Runs

/-!
# Tags in use

The tag side of a collection should list the tags that some item has, and no others. A call of
`insert(items, tag)` with no items stores a tag that no item has. Every other call keeps the tag
side free of such idle tags.
-/

namespace Libept.Fast

open Std MultiMap Operators

variable {c c' : Fast} {R R' : Str → Str → Prop}

/-! ### Enumerations -/

lemma mem_getTaggedItems {i : Str} : i ∈ c.getTaggedItems ↔ i ∈ c.items := by
  rw [getTaggedItems, ExtTreeMap.foldl_eq_foldl_keys, mem_foldl (P := fun a i => a = i)]
  · simp
  · simp

lemma mem_getAllTags {t : Str} : t ∈ c.getAllTags ↔ t ∈ c.tags := by
  rw [getAllTags, ExtTreeMap.foldl_eq_foldl_keys, mem_foldl (P := fun a t => a = t)]
  · simp
  · simp

lemma getAllTagsAsVector_eq (c : Fast) : c.getAllTagsAsVector = c.tags.keys := by
  have happend : ∀ l res : List Str, l.foldl (fun res i => res ++ [i]) res = res ++ l := by
    intro l
    induction l with
    | nil => simp
    | cons i l ih => simp [ih]
  rw [getAllTagsAsVector, ExtTreeMap.foldl_eq_foldl_keys, happend, List.nil_append]

/-- The tags of the tagged items. -/
def tagsInUse (c : Fast) : Set Str := {t | ∃ i ∈ c.getTaggedItems, t ∈ c.getTagsOfItem i}

/-- The tag side lists the tags in use: in the lookups, the enumerations and the count. -/
structure ListsTagsInUse (c : Fast) : Prop where
  hasTag_iff : ∀ t, c.hasTag t = true ↔ ∃ i, i ∈ c.getItemsHavingTag t
  mem_getAllTags : ∀ t, t ∈ c.getAllTags ↔ t ∈ c.tagsInUse
  nodup_vector : c.getAllTagsAsVector.Nodup
  mem_vector : ∀ t, t ∈ c.getAllTagsAsVector ↔ t ∈ c.tagsInUse
  tagCount_eq : c.tagCount = c.tagsInUse.ncard

/-- Every stored tag has an item. -/
def NoIdleTag (c : Fast) : Prop := ∀ t ∈ c.tags, ∃ i, i ∈ c.getItemsHavingTag t

lemma Represents.mem_tagsInUse (h : c.Represents R) {t : Str} :
    t ∈ c.tagsInUse ↔ ∃ i, R i t := by
  simp only [tagsInUse, Set.mem_ofPred_eq, mem_getTaggedItems, h.mem_getTagsOfItem,
    h.items.mem_iff]
  constructor
  · rintro ⟨i, -, hi⟩
    exact ⟨i, hi⟩
  · rintro ⟨i, hi⟩
    exact ⟨i, ⟨t, hi⟩, hi⟩

lemma Represents.mem_tags_iff_inUse (h : c.Represents R) (hidle : c.NoIdleTag) {t : Str} :
    t ∈ c.tags ↔ t ∈ c.tagsInUse := by
  rw [h.mem_tagsInUse]
  constructor
  · intro ht
    obtain ⟨i, hi⟩ := hidle t ht
    exact ⟨i, h.mem_getItemsHavingTag.mp hi⟩
  · rintro ⟨i, hi⟩
    exact h.mem_tags hi

lemma Represents.ncard_tagsInUse (h : c.Represents R) (hidle : c.NoIdleTag) :
    c.tagsInUse.ncard = c.tags.size := by
  rw [← ncard_keys]
  congr 1
  ext t
  exact (h.mem_tags_iff_inUse hidle).symm

/-- The tag side is right when no tag is idle and the `unsigned int` holds the count. -/
lemma Represents.listsTagsInUse_iff (h : c.Represents R) :
    c.ListsTagsInUse ↔ c.NoIdleTag ∧ c.tags.size < 2 ^ 32 := by
  constructor
  · intro hlists
    have hidle : c.NoIdleTag := fun t ht => (hlists.hasTag_iff t).mp (hasTag_iff.mpr ht)
    have hmod : c.tags.size % 2 ^ 32 = c.tags.size :=
      hlists.tagCount_eq.trans (h.ncard_tagsInUse hidle)
    refine ⟨hidle, ?_⟩
    rw [← hmod]
    exact Nat.mod_lt _ (by decide)
  · rintro ⟨hidle, hsize⟩
    refine ⟨fun t => ?_, fun t => ?_, ?_, fun t => ?_, ?_⟩
    · rw [hasTag_iff, h.mem_tags_iff_inUse hidle, h.mem_tagsInUse]
      simp only [h.mem_getItemsHavingTag]
    · rw [Fast.mem_getAllTags, h.mem_tags_iff_inUse hidle]
    · rw [getAllTagsAsVector_eq]
      exact ExtTreeMap.nodup_keys
    · rw [getAllTagsAsVector_eq, ExtTreeMap.mem_keys, h.mem_tags_iff_inUse hidle]
    · rw [h.ncard_tagsInUse hidle, tagCount, Nat.mod_eq_of_lt hsize]

/-! ### Inserting -/

/-- With an item or a stored tag, `insert(items, tag)` adds the product of its arguments. -/
lemma adds_insertTag {items : StrSet} {tag : Str}
    (h : items.isEmpty = false ∨ c.hasTag tag = true) :
    Adds c (c.insertTag items tag) fun i t => i ∈ items ∧ t = tag where
  items i t := by
    refine (mem_image_foldl_upsert (fun s v => ?_) items.toList c.items).trans ?_
    · simp
    · simp [eq_comm]
  tags i t := by
    rw [insertTag, mem_image_upsert fun _ _ => mem_orAssign, eq_comm (a := t), and_comm]
  mem_items i := by
    apply (mem_foldl_upsert items.toList c.items).trans
    simp [or_comm]
  mem_tags t := by
    rw [insertTag, mem_upsert, or_comm, exists_and_right]
    by_cases ht : t = tag
    · subst ht
      rcases h with h | h
      · simp [isEmpty_eq_false_iff.mp h]
      · simp [hasTag_iff.mp h]
    · simp [ht, Ne.symm ht]

/-- Adding the same pairs gives the same collection. -/
lemma Adds.unique {c'' : Fast} (h : Adds c c' R) (h' : Adds c c'' R) : c' = c'' := by
  cases c'
  cases c''
  rw [mk.injEq]
  exact ⟨ext_image (fun i => by rw [h.mem_items, h'.mem_items])
      fun i t => by rw [h.items, h'.items],
    ext_image (fun t => by rw [h.mem_tags, h'.mem_tags]) fun t i => by rw [h.tags, h'.tags]⟩

lemma mem_singleton {tag t : Str} : t ∈ ExtTreeSet.ofList [tag] ↔ t = tag := by
  rw [ExtTreeSet.mem_ofList]
  simp

/-- The two ways to add one tag agree, but for no items and a new tag. -/
lemma insertTag_eq_insert_iff (c : Fast) (items : StrSet) (tag : Str) :
    c.insertTag items tag = c.insert items (ExtTreeSet.ofList [tag]) ↔
      items.isEmpty = false ∨ c.hasTag tag = true := by
  have hinsert : Adds c (c.insert items (ExtTreeSet.ofList [tag]))
      fun i t => i ∈ items ∧ t = tag :=
    (adds_insert c items (ExtTreeSet.ofList [tag])).congr fun i t => by rw [mem_singleton]
  constructor
  · intro heq
    have hmem : tag ∈ (c.insertTag items tag).tags := mem_upsert.mpr (.inl rfl)
    rw [heq, hinsert.mem_tags] at hmem
    rcases hmem with hmem | ⟨i, hi, -⟩
    · exact .inr (hasTag_iff.mpr hmem)
    · exact .inl (isEmpty_eq_false_iff.mpr ⟨i, hi⟩)
  · intro h
    exact (adds_insertTag h).unique hinsert

/-! ### Idle tags -/

lemma Adds.noIdleTag (h : Adds c c' R) (hidle : c.NoIdleTag) : c'.NoIdleTag := by
  intro t ht
  simp only [getItemsHavingTag_eq, h.tags]
  rcases (h.mem_tags t).mp ht with ht | ⟨i, hi⟩
  · obtain ⟨i, hi⟩ := hidle t ht
    exact ⟨i, .inl (getItemsHavingTag_eq c t ▸ hi)⟩
  · exact ⟨i, .inr hi⟩

lemma noIdleTag_insertTag_iff (hidle : c.NoIdleTag) (items : StrSet) (tag : Str) :
    (c.insertTag items tag).NoIdleTag ↔ items.isEmpty = false ∨ c.hasTag tag = true := by
  constructor
  · intro h
    obtain ⟨i, hi⟩ := h tag (mem_upsert.mpr (.inl rfl))
    rw [getItemsHavingTag_eq, insertTag, mem_image_upsert fun _ _ => mem_orAssign] at hi
    rcases hi with hi | ⟨-, hi⟩
    · exact .inr (hasTag_iff.mpr (mem_of_mem_image hi))
    · exact .inl (isEmpty_eq_false_iff.mpr ⟨i, hi⟩)
  · intro h
    exact (adds_insertTag h).noIdleTag hidle

lemma noIdleTag_empty : empty.NoIdleTag := by
  intro t ht
  simp [empty] at ht

lemma noIdleTag_removeTag {tag : Str} (h : c.removeTag tag = some c') (hidle : c.NoIdleTag) :
    c'.NoIdleTag := by
  simp only [removeTag, Option.bind_eq_bind, Option.bind_eq_some_iff, Option.some.injEq] at h
  obtain ⟨s, -, items, -, rfl⟩ := h
  intro t ht
  obtain ⟨hne, ht⟩ := ExtTreeMap.mem_erase.mp ht
  obtain ⟨i, hi⟩ := hidle t ht
  rw [getItemsHavingTag_eq] at hi
  exact ⟨i, by rw [getItemsHavingTag_eq, mem_image_erase]; exact ⟨by simpa using hne, hi⟩⟩

lemma noIdleTag_foldlM {α : Type} {f : Fast → α → Option Fast}
    (hf : ∀ c a c', f c a = some c' → c.NoIdleTag → c'.NoIdleTag) (l : List α) {c : Fast}
    (h : l.foldlM f c = some c') (hidle : c.NoIdleTag) : c'.NoIdleTag := by
  induction l generalizing c with
  | nil =>
    obtain rfl : c = c' := Option.some.inj h
    exact hidle
  | cons a l ih =>
    rw [List.foldlM_cons, Option.bind_eq_bind, Option.bind_eq_some_iff] at h
    obtain ⟨c₁, hc₁, h⟩ := h
    exact ih h (hf c a c₁ hc₁ hidle)

lemma noIdleTag_removeTagsWithCardinalityLessThan {card : ℕ}
    (h : c.removeTagsWithCardinalityLessThan card = some c') (hidle : c.NoIdleTag) :
    c'.NoIdleTag := by
  refine noIdleTag_foldlM (fun c t c' h hidle => ?_) _ h hidle
  simp only [removeIfLessThan, Option.bind_eq_bind, Option.bind_eq_some_iff] at h
  obtain ⟨s, -, h⟩ := h
  split_ifs at h
  · exact noIdleTag_removeTag h hidle
  · exact Option.some.inj h ▸ hidle

lemma noIdleTag_getChildCollection {tag : Str} (h : c.getChildCollection tag = some c') :
    c'.NoIdleTag := by
  simp only [getChildCollection, Option.bind_eq_bind, Option.bind_eq_some_iff] at h
  obtain ⟨s, -, res, hres, h⟩ := h
  refine noIdleTag_removeTag h (noIdleTag_foldlM (fun c i c' h hidle => ?_) _ hres noIdleTag_empty)
  simp only [copyItem, Option.bind_eq_bind, Option.bind_eq_some_iff, Option.some.injEq] at h
  obtain ⟨tags, -, rfl⟩ := h
  exact (adds_insertItem c i tags).noIdleTag hidle

/-! ### Calls -/

namespace Call

/-- `insert(items, tag)` is given an item, or a stored tag. -/
def UsesTag (c : Fast) : Call → Prop
  | .insertTag items tag => items.isEmpty = false ∨ c.hasTag tag = true
  | _ => True

/-- The tags that a call gives to an item. -/
def givenTags : Call → StrSet
  | .insertItem _ tags => tags
  | .insertTag _ tag => ExtTreeSet.ofList [tag]
  | .insert items tags => if items.isEmpty then ∅ else tags
  | _ => ∅

/-- No tag is left without an item, and with the tags that are given there are not too many for an
`unsigned int`. -/
def KeepsTagsInUse (c : Fast) (call : Call) : Prop :=
  call.UsesTag c ∧ (c.getAllTags ∪ call.givenTags).size < 2 ^ 32

end Call

variable {call : Call}

lemma noIdleTag_run_iff (hidle : c.NoIdleTag) (hrun : call.run c = some c') :
    c'.NoIdleTag ↔ call.UsesTag c := by
  cases call with
  | insertItem item tags =>
    obtain rfl := Option.some.inj hrun
    exact iff_true_intro ((adds_insertItem c item tags).noIdleTag hidle)
  | insertTag items tag =>
    obtain rfl := Option.some.inj hrun
    exact noIdleTag_insertTag_iff hidle items tag
  | insert items tags =>
    obtain rfl := Option.some.inj hrun
    exact iff_true_intro ((adds_insert c items tags).noIdleTag hidle)
  | clear =>
    obtain rfl := Option.some.inj hrun
    exact iff_true_intro noIdleTag_empty
  | removeTag tag => exact iff_true_intro (noIdleTag_removeTag hrun hidle)
  | removeTagsWithCardinalityLessThan card =>
    exact iff_true_intro (noIdleTag_removeTagsWithCardinalityLessThan hrun hidle)
  | getChildCollection tag => exact iff_true_intro (noIdleTag_getChildCollection hrun)

/-- Tags of a part of the relation are stored before. -/
lemma tags_subset (h : c.Represents R) (h' : c'.Represents R') (hR : ∀ i t, R' i t → R i t)
    (hidle : c'.NoIdleTag) {t : Str} (ht : t ∈ c'.tags) : t ∈ c.tags := by
  obtain ⟨i, hi⟩ := hidle t ht
  exact h.mem_tags (hR i t (h'.mem_getItemsHavingTag.mp hi))

/-- The stored tags after a call: the given ones are new, or some are gone. -/
lemma mem_tags_run (h : c.Represents R) (hidle : c'.NoIdleTag) (hallowed : call.Allowed c)
    (hrun : call.run c = some c') :
    (∀ t, t ∈ c'.tags ↔ t ∈ c.tags ∨ t ∈ call.givenTags) ∨
      (∀ t ∈ c'.tags, t ∈ c.tags) ∧ call.givenTags = ∅ := by
  cases call with
  | insertItem item tags =>
    obtain rfl := Option.some.inj hrun
    refine .inl fun t => ((adds_insertItem c item tags).mem_tags t).trans ?_
    simp [Call.givenTags]
  | insertTag items tag =>
    obtain rfl := Option.some.inj hrun
    refine .inl fun t => mem_upsert.trans ?_
    rw [Call.givenTags, mem_singleton, eq_comm, or_comm]
  | insert items tags =>
    obtain rfl := Option.some.inj hrun
    refine .inl fun t => ((adds_insert c items tags).mem_tags t).trans ?_
    cases hitems : items.isEmpty with
    | true => simp [Call.givenTags, ExtTreeSet.isEmpty_iff.mp hitems]
    | false => simp [Call.givenTags, hitems, isEmpty_eq_false_iff.mp hitems]
  | clear =>
    obtain rfl := Option.some.inj hrun
    exact .inr ⟨by simp [Fast.clear, empty], rfl⟩
  | removeTag tag =>
    obtain ⟨c'', hc'', -, hrep⟩ := represents_removeTag h hallowed
    obtain rfl := Option.some.inj (hrun.symm.trans hc'')
    exact .inr ⟨fun t => tags_subset h hrep (fun _ _ hR => hR.1) hidle, rfl⟩
  | removeTagsWithCardinalityLessThan card =>
    obtain ⟨c'', hc'', hrep⟩ := represents_removeTagsWithCardinalityLessThan h card
    obtain rfl := Option.some.inj (hrun.symm.trans hc'')
    exact .inr ⟨fun t => tags_subset h hrep (fun _ _ hR => hR.1) hidle, rfl⟩
  | getChildCollection tag =>
    obtain ⟨i, hi⟩ := hallowed
    rw [h.mem_getTagsOfItem] at hi
    obtain ⟨c'', hc'', hrep⟩ := represents_getChildCollection h ⟨i, hi⟩
    obtain rfl := Option.some.inj (hrun.symm.trans hc'')
    exact .inr ⟨fun t => tags_subset h hrep (fun _ _ hR => hR.2.1) hidle, rfl⟩

lemma size_run_iff (h : c.Represents R) (hsize : c.tags.size < 2 ^ 32) (hidle : c'.NoIdleTag)
    (hallowed : call.Allowed c) (hrun : call.run c = some c') :
    c'.tags.size < 2 ^ 32 ↔ (c.getAllTags ∪ call.givenTags).size < 2 ^ 32 := by
  have hunion : ∀ t, t ∈ c.getAllTags ∪ call.givenTags ↔ t ∈ c.tags ∨ t ∈ call.givenTags :=
    fun t => by rw [ExtTreeSet.mem_union_iff, mem_getAllTags]
  rcases mem_tags_run h hidle hallowed hrun with hmem | ⟨hsub, hnone⟩
  · rw [← ncard_keys, ← ncard_members]
    simp only [hmem, hunion]
  · have hbefore : (c.getAllTags ∪ call.givenTags).size = c.tags.size := by
      rw [← ncard_keys, ← ncard_members]
      simp only [hunion]
      simp only [hnone, ExtTreeSet.not_mem_empty, or_false]
    have hafter : c'.tags.size ≤ c.tags.size := by
      rw [← ncard_keys, ← ncard_keys]
      exact Set.ncard_le_ncard hsub (finite_keys c.tags)
    rw [hbefore]
    exact iff_of_true (hafter.trans_lt hsize) hsize

/-! ### Runs -/

/-- The calls that a program makes on an empty collection. -/
def calls : Transitions Fast Call where
  init c := c = empty
  step c call c' := call.Allowed c ∧ call.run c = some c'

/-- In a run, the tag side lists the tags in use all the time exactly when each call of
`insert(items, tag)` is given an item or a stored tag, and there are never too many tags. These
are also the calls that do the same as `insert(items, {tag})`. -/
theorem lists_tags_in_use_iff :
    ∀ steps c, calls.Run steps c →
      (Transitions.Always ListsTagsInUse steps c ↔ ∀ x ∈ steps, x.2.KeepsTagsInUse x.1) ∧
        ∀ (items : StrSet) (tag : Str),
          c.insertTag items tag = c.insert items (ExtTreeSet.ofList [tag]) ↔
            items.isEmpty = false ∨ c.hasTag tag = true := by
  intro steps c hrun
  refine ⟨?_, insertTag_eq_insert_iff c⟩
  refine hrun.always_iff (J := fun c => ∃ R, c.Represents R) ?_ ?_
  · rintro c rfl
    refine ⟨⟨_, represents_empty⟩, ?_⟩
    exact represents_empty.listsTagsInUse_iff.mpr ⟨noIdleTag_empty, by simp [empty]⟩
  · rintro c call c' ⟨R, hR⟩ hlists ⟨hallowed, hcall⟩
    obtain ⟨c'', R', hc'', hR'⟩ := represents_run hR call hallowed
    obtain rfl := Option.some.inj (hcall.symm.trans hc'')
    refine ⟨⟨R', hR'⟩, ?_⟩
    obtain ⟨hidle, hsize⟩ := hR.listsTagsInUse_iff.mp hlists
    rw [hR'.listsTagsInUse_iff, noIdleTag_run_iff hidle hcall, Call.KeepsTagsInUse]
    apply and_congr_right
    intro huses
    exact size_run_iff hR hsize ((noIdleTag_run_iff hidle hcall).mpr huses) hallowed hcall

theorem lists_tags_in_use_sample :
    (empty.insertTag (ExtTreeSet.ofList [str "a"]) (str "t")).ListsTagsInUse := by
  have hrun : calls.Run [(empty, .insertTag (ExtTreeSet.ofList [str "a"]) (str "t"))]
      (empty.insertTag (ExtTreeSet.ofList [str "a"]) (str "t")) :=
    .step (.init rfl) ⟨trivial, rfl⟩
  refine ((lists_tags_in_use_iff _ _ hrun).1.mpr ?_).2
  rw [List.forall_mem_singleton]
  exact ⟨.inl (by decide), by decide⟩

/-- A new tag for no items. -/
theorem idle_tag_stored :
    calls.Run [(empty, .insertTag ∅ (str "t"))] (empty.insertTag ∅ (str "t")) ∧
      (empty.insertTag ∅ (str "t")).hasTag (str "t") = true ∧
      (empty.insertTag ∅ (str "t")).getItemsHavingTag (str "t") = ∅ ∧
      str "t" ∈ (empty.insertTag ∅ (str "t")).getAllTags ∧
      ¬(empty.insertTag ∅ (str "t")).ListsTagsInUse ∧
      empty.insertTag ∅ (str "t") ≠ empty.insert ∅ (ExtTreeSet.ofList [str "t"]) := by
  have hnone : (empty.insertTag ∅ (str "t")).getItemsHavingTag (str "t") = ∅ := by decide
  have htag : (empty.insertTag ∅ (str "t")).hasTag (str "t") = true := by decide
  refine ⟨.step (.init rfl) ⟨trivial, rfl⟩, htag, hnone, by decide, fun hlists => ?_, by decide⟩
  obtain ⟨i, hi⟩ := (hlists.hasTag_iff (str "t")).mp htag
  rw [hnone] at hi
  exact ExtTreeSet.not_mem_empty hi

end Libept.Fast
