import Mathlib

/-!
# Maps of sets

A finite map from keys to finite sets stands for the relation between a key and the members of
its set. `IsImage m R` says that `m` is the map of all images of the relation `R`: its keys are
the domain of `R`, so no key has an empty set. Such a map is determined by the relation.
-/

namespace MultiMap

open Std

variable {κ β γ : Type*} [Ord κ] [Ord β]

/-! ### Sets -/

section Sets

variable [TransOrd β]

/-- A fold whose steps each add the elements with `P`. -/
lemma mem_foldl {α : Type*} {step : ExtTreeSet β → α → ExtTreeSet β} {P : α → β → Prop}
    (hstep : ∀ s a v, v ∈ step s a ↔ v ∈ s ∨ P a v) (l : List α) (s : ExtTreeSet β) (v : β) :
    v ∈ l.foldl step s ↔ v ∈ s ∨ ∃ a ∈ l, P a v := by
  induction l generalizing s with
  | nil => simp
  | cons a l ih =>
    rw [List.foldl_cons, ih, hstep]
    simp [or_assoc]

variable [LawfulEqOrd β]

lemma set_eq_empty_iff {s : ExtTreeSet β} : s = ∅ ↔ ∀ v, v ∉ s := by
  constructor
  · rintro rfl v
    exact ExtTreeSet.not_mem_empty
  · intro h
    exact ExtTreeSet.ext_mem fun v => by simp [h v]

lemma isEmpty_eq_false_iff {s : ExtTreeSet β} : s.isEmpty = false ↔ ∃ v, v ∈ s := by
  rw [ExtTreeSet.isEmpty_eq_false_iff, set_eq_empty_iff]
  exact not_forall_not

lemma nodup_toList (s : ExtTreeSet β) : s.toList.Nodup :=
  ExtTreeSet.distinct_toList.imp ReflCmp.ne_of_cmp_ne_eq

/-- The size of a set is the number of its members. -/
lemma ncard_members (s : ExtTreeSet β) : {v | v ∈ s}.ncard = s.size := by
  classical
  have hmembers : {v | v ∈ s} = (s.toList.toFinset : Set β) := by
    ext v
    simp
  rw [hmembers, Set.ncard_coe_finset, List.toFinset_card_of_nodup (nodup_toList s),
    ExtTreeSet.length_toList]

end Sets

/-! ### Keys -/

section Keys

variable [TransOrd κ]

/-- The set of a key, empty when the key is missing. -/
def image (m : ExtTreeMap κ (ExtTreeSet β)) (k : κ) : ExtTreeSet β := m[k]?.getD ∅

lemma image_of_getElem? {m : ExtTreeMap κ (ExtTreeSet β)} {k : κ} {s : ExtTreeSet β}
    (h : m[k]? = some s) : image m k = s := by
  simp [image, h]

lemma mem_of_mem_image [TransOrd β] {m : ExtTreeMap κ (ExtTreeSet β)} {k : κ} {v : β}
    (h : v ∈ image m k) : k ∈ m := by
  rw [ExtTreeMap.mem_iff_isSome_getElem?]
  cases hk : m[k]? with
  | none => simp [image, hk] at h
  | some s => rfl

lemma getElem?_of_mem {m : ExtTreeMap κ γ} {k : κ} (h : k ∈ m) : ∃ s, m[k]? = some s :=
  Option.isSome_iff_exists.mp (ExtTreeMap.mem_iff_isSome_getElem?.mp h)

lemma mem_of_getElem? {m : ExtTreeMap κ γ} {k : κ} {s : γ} (h : m[k]? = some s) : k ∈ m := by
  rw [ExtTreeMap.mem_iff_isSome_getElem?, h]
  rfl

variable [LawfulEqOrd κ]

lemma finite_keys (m : ExtTreeMap κ γ) : {k | k ∈ m}.Finite :=
  (List.finite_toSet m.keys).subset fun _ hk => ExtTreeMap.mem_keys.mpr hk

/-- The size of a map is the number of its keys. -/
lemma ncard_keys (m : ExtTreeMap κ γ) : {k | k ∈ m}.ncard = m.size := by
  classical
  have hkeys : {k | k ∈ m} = (m.keys.toFinset : Set κ) := by
    ext k
    simp
  rw [hkeys, Set.ncard_coe_finset, List.toFinset_card_of_nodup (ExtTreeMap.nodup_keys (t := m)),
    ExtTreeMap.length_keys]

lemma insert_insert (m : ExtTreeMap κ γ) (k : κ) (s s' : γ) :
    (m.insert k s).insert k s' = m.insert k s' := by
  apply ExtTreeMap.ext_getElem?
  intro a
  simp only [ExtTreeMap.getElem?_insert]
  split_ifs <;> rfl

/-- A map of sets is determined by its keys and their sets. -/
lemma ext_image [TransOrd β] [LawfulEqOrd β] {m m' : ExtTreeMap κ (ExtTreeSet β)}
    (hmem : ∀ k, k ∈ m ↔ k ∈ m') (himage : ∀ k v, v ∈ image m k ↔ v ∈ image m' k) : m = m' := by
  apply ExtTreeMap.ext_getElem?
  intro k
  by_cases hk : k ∈ m
  · obtain ⟨s, hs⟩ := getElem?_of_mem hk
    obtain ⟨s', hs'⟩ := getElem?_of_mem ((hmem k).mp hk)
    rw [hs, hs', Option.some.injEq]
    apply ExtTreeSet.ext_mem
    intro v
    rw [← image_of_getElem? hs, ← image_of_getElem? hs', himage]
  · rw [ExtTreeMap.getElem?_eq_none hk,
      ExtTreeMap.getElem?_eq_none fun hk' => hk ((hmem k).mpr hk')]

end Keys

/-! ### Create or update -/

section Upsert

variable [TransOrd κ]

/-- Look a key up; enter `new` when it is missing, otherwise update its value in place. -/
def upsert (m : ExtTreeMap κ γ) (k : κ) (new : γ) (upd : γ → γ) : ExtTreeMap κ γ :=
  match m[k]? with
  | none => m.insertIfNew k new
  | some s => m.insert k (upd s)

lemma getElem?_upsert (m : ExtTreeMap κ γ) (k a : κ) (new : γ) (upd : γ → γ) :
    (upsert m k new upd)[a]? = if compare k a = .eq then some (m[k]?.elim new upd) else m[a]? := by
  rw [upsert]
  cases hk : m[k]? with
  | none =>
    have hkm : ¬ k ∈ m := fun h => by
      rw [ExtTreeMap.mem_iff_isSome_getElem?, hk] at h
      cases h
    rw [ExtTreeMap.getElem?_insertIfNew]
    simp only [hkm, not_false_eq_true, and_true, Option.elim_none]
  | some s => simp [ExtTreeMap.getElem?_insert]

variable [LawfulEqOrd κ] {new : ExtTreeSet β} {upd : ExtTreeSet β → ExtTreeSet β}

lemma mem_upsert {m : ExtTreeMap κ γ} {k a : κ} {new : γ} {upd : γ → γ} :
    a ∈ upsert m k new upd ↔ k = a ∨ a ∈ m := by
  rw [ExtTreeMap.mem_iff_isSome_getElem?, getElem?_upsert, ExtTreeMap.mem_iff_isSome_getElem?]
  split_ifs with h
  · simp [LawfulEqCmp.eq_of_compare h]
  · simp [show k ≠ a from fun hka => h (hka ▸ ReflCmp.compare_self)]

lemma mem_foldl_upsert (l : List κ) (m : ExtTreeMap κ (ExtTreeSet β)) {a : κ} :
    a ∈ l.foldl (fun m k => upsert m k new upd) m ↔ a ∈ l ∨ a ∈ m := by
  induction l generalizing m with
  | nil => simp
  | cons k l ih =>
    rw [List.foldl_cons, ih, mem_upsert, List.mem_cons]
    tauto

variable [TransOrd β]

/-- `upsert` with set union adds the pairs of one key. -/
lemma mem_image_upsert {m : ExtTreeMap κ (ExtTreeSet β)} {k a : κ} {new : ExtTreeSet β}
    {upd : ExtTreeSet β → ExtTreeSet β} (hupd : ∀ s v, v ∈ upd s ↔ v ∈ s ∨ v ∈ new) {v : β} :
    v ∈ image (upsert m k new upd) a ↔ v ∈ image m a ∨ k = a ∧ v ∈ new := by
  unfold image
  rw [getElem?_upsert]
  split_ifs with h
  · obtain rfl := LawfulEqCmp.eq_of_compare h
    cases m[k]? with
    | none => simp
    | some s => simp [hupd]
  · simp [show k ≠ a from fun hka => h (hka ▸ ReflCmp.compare_self)]

lemma mem_image_foldl_upsert (hupd : ∀ s v, v ∈ upd s ↔ v ∈ s ∨ v ∈ new) (l : List κ)
    (m : ExtTreeMap κ (ExtTreeSet β)) {a : κ} {v : β} :
    v ∈ image (l.foldl (fun m k => upsert m k new upd) m) a ↔
      v ∈ image m a ∨ a ∈ l ∧ v ∈ new := by
  induction l generalizing m with
  | nil => simp
  | cons k l ih =>
    rw [List.foldl_cons, ih, mem_image_upsert hupd, List.mem_cons]
    tauto

lemma mem_image_erase {m : ExtTreeMap κ (ExtTreeSet β)} {k a : κ} {v : β} :
    v ∈ image (m.erase k) a ↔ k ≠ a ∧ v ∈ image m a := by
  rw [image, ExtTreeMap.getElem?_erase]
  by_cases hka : k = a <;> simp [hka, image]

end Upsert

/-! ### The map of a relation -/

/-- `m` holds the image of every element of the domain of `R`, and no other key. -/
structure IsImage [TransOrd κ] [TransOrd β] (m : ExtTreeMap κ (ExtTreeSet β))
    (R : κ → β → Prop) : Prop where
  mem_iff : ∀ k, k ∈ m ↔ ∃ v, R k v
  mem_image_iff : ∀ k v, v ∈ image m k ↔ R k v

namespace IsImage

variable [TransOrd κ] [TransOrd β] {m m' : ExtTreeMap κ (ExtTreeSet β)} {R R' : κ → β → Prop}

lemma empty : IsImage (∅ : ExtTreeMap κ (ExtTreeSet β)) fun _ _ => False :=
  ⟨fun k => by simp, fun k v => by simp [image]⟩

lemma congr (h : IsImage m R) (hR : ∀ k v, R k v ↔ R' k v) : IsImage m R' :=
  ⟨fun k => by simp [h.mem_iff, hR], fun k v => by rw [h.mem_image_iff, hR]⟩

lemma nonempty (h : IsImage m R) {k : κ} {s : ExtTreeSet β} (hs : m[k]? = some s) :
    ∃ v, v ∈ s := by
  obtain ⟨v, hv⟩ := (h.mem_iff k).mp (mem_of_getElem? hs)
  exact ⟨v, by rw [← image_of_getElem? hs]; exact (h.mem_image_iff k v).mpr hv⟩

/-- A related key is found, and its set holds what is related to it. -/
lemma exists_getElem? (h : IsImage m R) {k : κ} {v : β} (hkv : R k v) :
    ∃ s, m[k]? = some s ∧ ∀ u, u ∈ s ↔ R k u := by
  obtain ⟨s, hs⟩ := getElem?_of_mem ((h.mem_iff k).mpr ⟨v, hkv⟩)
  exact ⟨s, hs, fun u => by rw [← image_of_getElem? hs, h.mem_image_iff]⟩

variable [LawfulEqOrd κ]

/-- Give the key `k` the set `s`, which is not empty. -/
lemma insert (h : IsImage m R) (k : κ) {s : ExtTreeSet β} (hs : ∃ v, v ∈ s) :
    IsImage (m.insert k s) fun a v => k = a ∧ v ∈ s ∨ k ≠ a ∧ R a v := by
  constructor
  · intro a
    rw [ExtTreeMap.mem_insert, LawfulEqCmp.compare_eq_iff_eq, h.mem_iff]
    by_cases hka : k = a <;> simp [hka, hs]
  · intro a v
    rw [← h.mem_image_iff, image, ExtTreeMap.getElem?_insert]
    by_cases hka : k = a <;> simp [hka, image]

/-- Take the key `k` out. -/
lemma erase (h : IsImage m R) (k : κ) : IsImage (m.erase k) fun a v => k ≠ a ∧ R a v := by
  constructor
  · intro a
    rw [ExtTreeMap.mem_erase, h.mem_iff]
    simp
  · intro a v
    rw [mem_image_erase, h.mem_image_iff]

lemma foldl_upsert {new : ExtTreeSet β} {upd : ExtTreeSet β → ExtTreeSet β} (h : IsImage m R)
    (l : List κ) (hupd : ∀ s v, v ∈ upd s ↔ v ∈ s ∨ v ∈ new) (hnew : ∃ v, v ∈ new) :
    IsImage (l.foldl (fun m k => MultiMap.upsert m k new upd) m)
      fun a v => R a v ∨ a ∈ l ∧ v ∈ new := by
  refine ⟨fun a => ?_, fun a v => by rw [mem_image_foldl_upsert hupd, h.mem_image_iff]⟩
  rw [mem_foldl_upsert, h.mem_iff, exists_or, exists_and_left, or_comm]
  simp [hnew]

variable [LawfulEqOrd β]

/-- A map of images is determined by its relation. -/
lemma unique (h : IsImage m R) (h' : IsImage m' R) : m = m' :=
  ext_image (fun k => by rw [h.mem_iff, h'.mem_iff])
    fun k v => by rw [h.mem_image_iff, h'.mem_image_iff]

end IsImage

end MultiMap
