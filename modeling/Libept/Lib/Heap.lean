import Libept.Lib.Exec

/-!
# Objects on a heap

The address of an object is the number of objects that were made before it. A place whose object
has been deleted stays empty, so that no address is ever used twice.
-/

structure Heap (α : Type) where
  objects : List (Option α)

namespace Heap

variable {α : Type} {h : Heap α} {j k : ℕ} {a b : α}

def empty : Heap α := ⟨[]⟩

/-- The object at an address, if it is there. -/
def at? (h : Heap α) (k : ℕ) : Option α := h.objects[k]?.join

/-- The next free address. -/
def next (h : Heap α) : ℕ := h.objects.length

def push (h : Heap α) (a : α) : Heap α := ⟨h.objects ++ [some a]⟩

def put (h : Heap α) (k : ℕ) (a : α) : Heap α := ⟨h.objects.set k (some a)⟩

def erase (h : Heap α) (k : ℕ) : Heap α := ⟨h.objects.set k none⟩

/-- The number of objects with a property. -/
def count (h : Heap α) (p : α → Bool) : ℕ := h.objects.countP fun o => o.any p

lemma lt_next (hk : h.at? k = some a) : k < h.next := by
  by_contra hlt
  rw [at?, List.getElem?_eq_none (Nat.not_lt.mp hlt)] at hk
  cases hk

lemma getElem?_of_at? (hk : h.at? k = some a) : h.objects[k]? = some (some a) :=
  Option.join_eq_some_iff.mp hk

@[simp] lemma next_push : (h.push a).next = h.next + 1 := by
  simp [push, next]

@[simp] lemma next_put : (h.put k a).next = h.next := by
  simp [put, next]

@[simp] lemma next_erase : (h.erase k).next = h.next := by
  simp [erase, next]

lemma at?_empty : (empty : Heap α).at? k = none := rfl

lemma at?_push : (h.push a).at? k = if k = h.next then some a else h.at? k := by
  unfold at? push next
  split_ifs with hk
  · simp [hk]
  · rcases Nat.lt_or_gt_of_ne hk with hlt | hgt
    · rw [List.getElem?_append_left hlt]
    · rw [List.getElem?_eq_none (by simp; omega), List.getElem?_eq_none (by omega)]

lemma at?_put (hk : k < h.next) : (h.put k a).at? j = if j = k then some a else h.at? j := by
  unfold at? put
  rw [List.getElem?_set]
  by_cases hjk : j = k
  · subst hjk
    rw [if_pos rfl, if_pos rfl, if_pos (show j < h.objects.length from hk)]
    rfl
  · rw [if_neg (Ne.symm hjk), if_neg hjk]

@[simp] lemma at?_push_self : (h.push a).at? h.next = some a := by
  rw [at?_push, if_pos rfl]

lemma at?_put_self (hk : h.at? k = some b) : (h.put k a).at? k = some a := by
  rw [at?_put (lt_next hk), if_pos rfl]

/-- Behind a push there is the new object, and what there was. -/
lemma at?_push_cases (hk : (h.push a).at? k = some b) :
    (k = h.next ∧ b = a) ∨ h.at? k = some b := by
  rw [at?_push] at hk
  split_ifs at hk with hnext
  · exact .inl ⟨hnext, (Option.some.inj hk).symm⟩
  · exact .inr hk

lemma at?_put_cases {c : α} (hk : h.at? k = some b) (hj : (h.put k a).at? j = some c) :
    (j = k ∧ c = a) ∨ h.at? j = some c := by
  rw [at?_put (lt_next hk)] at hj
  split_ifs at hj with hjk
  · exact .inl ⟨hjk, (Option.some.inj hj).symm⟩
  · exact .inr hj

lemma at?_erase : (h.erase k).at? j = if j = k then none else h.at? j := by
  unfold at? erase
  rw [List.getElem?_set]
  by_cases hjk : j = k
  · subst hjk
    rw [if_pos rfl, if_pos rfl]
    split_ifs <;> rfl
  · rw [if_neg (Ne.symm hjk), if_neg hjk]

@[simp] lemma erase_put : (h.put k a).erase k = h.erase k := by
  simp [put, erase]

lemma put_self (hk : h.at? k = some a) : h.put k a = h := by
  obtain ⟨hlt, hget⟩ := List.getElem?_eq_some_iff.mp (getElem?_of_at? hk)
  rw [put, ← hget, List.set_getElem_self]

@[simp] lemma put_push : (h.push a).put h.next b = h.push b := by
  simp [put, push, next]

lemma at?_of_erase (hj : (h.erase k).at? j = some a) : h.at? j = some a := by
  rw [at?_erase] at hj
  split_ifs at hj
  exact hj

/-! ### Counting -/

variable {p : α → Bool}

@[simp] lemma count_empty : (empty : Heap α).count p = 0 := rfl

lemma count_push : (h.push a).count p = h.count p + (p a).toNat := by
  rw [count, push, List.countP_append, List.countP_singleton, Option.any_some, count]
  cases p a <;> rfl

lemma count_pos (hk : h.at? k = some a) (ha : p a = true) : 0 < h.count p := by
  refine List.countP_pos_iff.mpr ⟨some a, ?_, ha⟩
  exact List.mem_of_getElem? (getElem?_of_at? hk)

/-- A place is counted once. -/
lemma countP_set {o : Option α} (hk : h.at? k = some b) :
    (h.objects.set k o).countP (fun o => o.any p) + (p b).toNat =
      h.count p + (o.any p).toNat := by
  obtain ⟨hlt, hget⟩ := List.getElem?_eq_some_iff.mp (getElem?_of_at? hk)
  rw [List.countP_set hlt, hget]
  have hpos : p b = true → 0 < h.objects.countP (fun o => o.any p) := count_pos hk
  simp only [count, Option.any_some]
  by_cases hb : p b = true
  · have hpos := hpos hb
    have hone : ∀ c : Bool, (if c = true then 1 else 0) = c.toNat := by decide
    rw [hone, hone, hb, Bool.toNat_true]
    omega
  · by_cases ho : o.any p = true <;> simp [hb, ho]

lemma count_put (hk : h.at? k = some b) :
    (h.put k a).count p + (p b).toNat = h.count p + (p a).toNat :=
  countP_set hk

lemma count_erase (hk : h.at? k = some b) : (h.erase k).count p + (p b).toNat = h.count p :=
  countP_set hk

/-! ### Programs -/

variable {ε β : Type} {x : Exec ε α β} {Q : β → Heap α → Prop} {E : ε → Heap α → Prop}

/-- Make an object, at a new address. -/
def new (a : α) : Exec ε (Heap α) ℕ := ⟨fun h => .ok h.next (h.push a)⟩

/-- Delete an object, which must be there. -/
def delete (k : ℕ) : Exec ε (Heap α) Unit :=
  ⟨fun h => if (h.at? k).isSome then .ok () (h.erase k) else .undefined⟩

/-- Call a function on an object, which must be there. -/
def call (k : ℕ) (x : Exec ε α β) : Exec ε (Heap α) β :=
  ⟨fun h =>
    match h.at? k with
    | none => .undefined
    | some a =>
      match x.run a with
      | .ok b a' => .ok b (h.put k a')
      | .threw e a' => .threw e (h.put k a')
      | .undefined => .undefined⟩

lemma run_call_ok {a' : α} {b : β} (hk : h.at? k = some a) (hx : x.run a = .ok b a') :
    (call k x).run h = .ok b (h.put k a') := by
  simp only [call, hk, hx]

lemma run_call_threw {a' : α} {e : ε} (hk : h.at? k = some a) (hx : x.run a = .threw e a') :
    (call k x).run h = .threw e (h.put k a') := by
  simp only [call, hk, hx]

lemma run_call_undefined (hk : h.at? k = some a) (hx : x.run a = .undefined) :
    (call k x).run h = .undefined := by
  simp only [call, hk, hx]

@[simp] lemma ensures_new {Q : ℕ → Heap α → Prop} :
    (new a : Exec ε (Heap α) ℕ).Ensures h Q E ↔ Q h.next (h.push a) := Iff.rfl

lemma ensures_delete {Q : Unit → Heap α → Prop} (hk : h.at? k = some a) :
    (delete k : Exec ε (Heap α) Unit).Ensures h Q E ↔ Q () (h.erase k) := by
  simp [Exec.Ensures, delete, hk]

lemma ensures_call (hk : h.at? k = some a) :
    (call k x).Ensures h Q E ↔
      x.Ensures a (fun b a' => Q b (h.put k a')) fun e a' => E e (h.put k a') := by
  unfold Exec.Ensures call
  simp only [hk]
  cases x.run a <;> rfl

end Heap
