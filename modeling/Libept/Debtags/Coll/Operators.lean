import Libept.Lib.Increasing

/-!
# Set operators

The operators of `coll/operators.h` on ordered sets, and `set_contains` of `coll/set.h`. A loop
that walks through a set stands before the elements that are left of it; when it takes an element
out of the set, it has moved on before.
-/

namespace Libept.Operators

open Std

variable {α : Type*} [Ord α] [TransOrd α]

/-- `a | item` -/
def orItem (a : ExtTreeSet α) (item : α) : ExtTreeSet α := a.insert item

/-- `a |= item` -/
def orAssignItem (a : ExtTreeSet α) (item : α) : ExtTreeSet α := a.insert item

/-- `a |= b`, with the shortcut for an empty `a`. -/
def orAssign (a b : ExtTreeSet α) : ExtTreeSet α :=
  if a.isEmpty then b else b.toList.foldl (fun a i => a.insert i) a

/-- `a -= item` -/
def subAssignItem (a : ExtTreeSet α) (item : α) : ExtTreeSet α := a.erase item

/-- `a - item` -/
def subItem (a : ExtTreeSet α) (item : α) : ExtTreeSet α := a.erase item

/-- The loop of `a &= b`, which stands before the elements that are left of both sets. -/
def andAssignLoop : List α → List α → ExtTreeSet α → ExtTreeSet α
  | [], _, a => a
  | x :: xs, [], a => andAssignLoop xs [] (a.erase x)
  | x :: xs, y :: ys, a =>
    if compare y x == .lt then andAssignLoop (x :: xs) ys a
    else if compare x y != .eq then andAssignLoop xs (y :: ys) (a.erase x)
    else andAssignLoop xs ys a
termination_by xs ys => xs.length + ys.length

/-- `a &= b` -/
def andAssign (a b : ExtTreeSet α) : ExtTreeSet α :=
  if b.isEmpty then ∅ else andAssignLoop a.toList b.toList a

/-- The loop of `a -= b`. -/
def subAssignLoop : List α → List α → ExtTreeSet α → ExtTreeSet α
  | x :: xs, y :: ys, a =>
    if compare x y == .eq then subAssignLoop xs ys (a.erase x)
    else if compare x y == .lt then subAssignLoop xs (y :: ys) a
    else subAssignLoop (x :: xs) ys a
  | _, _, a => a
termination_by xs ys => xs.length + ys.length

/-- `a -= b` -/
def subAssign (a b : ExtTreeSet α) : ExtTreeSet α := subAssignLoop a.toList b.toList a

/-- `a & b`, which is filled by `std::set_intersection`. -/
protected def and (a b : ExtTreeSet α) : ExtTreeSet α := a ∩ b

/-- `a - b`, which is filled by `std::set_difference`. -/
protected def sub (a b : ExtTreeSet α) : ExtTreeSet α := a \ b

/-- `item <= b` -/
def leItem (item : α) (b : ExtTreeSet α) : Bool := b.contains item

/-- The loop of `a <= b`, and what is returned behind it. -/
def leLoop : List α → List α → Bool
  | xs, [] => xs.isEmpty
  | [], _ :: _ => true
  | x :: xs, y :: ys =>
    if compare x y == .eq then leLoop xs ys
    else if compare x y == .lt then false
    else leLoop (x :: xs) ys

/-- `a <= b` -/
protected def le (a b : ExtTreeSet α) : Bool := leLoop a.toList b.toList

/-- The loop of `set_contains`. -/
def setContainsLoop : List α → List α → Bool
  | [], ys => ys.isEmpty
  | _ :: _, [] => true
  | x :: xs, y :: ys =>
    if compare x y == .eq then setContainsLoop xs ys
    else if compare y x == .lt then false
    else setContainsLoop xs (y :: ys)

/-- `set_contains(set1, set2)` -/
def setContains (set1 set2 : ExtTreeSet α) : Bool := setContainsLoop set1.toList set2.toList

section Members

variable [LawfulEqOrd α]

@[simp] lemma mem_orItem {a : ExtTreeSet α} {item v : α} :
    v ∈ orItem a item ↔ v ∈ a ∨ item = v := by
  simp [orItem, or_comm]

@[simp] lemma mem_orAssignItem {a : ExtTreeSet α} {item v : α} :
    v ∈ orAssignItem a item ↔ v ∈ a ∨ item = v := by
  simp [orAssignItem, or_comm]

lemma mem_foldl_insert (l : List α) (a : ExtTreeSet α) {v : α} :
    v ∈ l.foldl (fun a i => a.insert i) a ↔ v ∈ a ∨ v ∈ l := by
  induction l generalizing a with
  | nil => simp
  | cons i l ih =>
    rw [List.foldl_cons, ih, ExtTreeSet.mem_insert, LawfulEqCmp.compare_eq_iff_eq, List.mem_cons,
      eq_comm]
    tauto

@[simp] lemma mem_orAssign {a b : ExtTreeSet α} {v : α} : v ∈ orAssign a b ↔ v ∈ a ∨ v ∈ b := by
  rw [orAssign]
  split_ifs with h
  · rw [ExtTreeSet.isEmpty_iff] at h
    simp [h]
  · rw [mem_foldl_insert, ExtTreeSet.mem_toList]

@[simp] lemma mem_subAssignItem {a : ExtTreeSet α} {item v : α} :
    v ∈ subAssignItem a item ↔ v ∈ a ∧ item ≠ v := by
  simp [subAssignItem, and_comm]

@[simp] lemma mem_subItem {a : ExtTreeSet α} {item v : α} :
    v ∈ subItem a item ↔ v ∈ a ∧ item ≠ v := by
  simp [subItem, and_comm]

lemma mem_erase_iff {a : ExtTreeSet α} {x v : α} : v ∈ a.erase x ↔ v ≠ x ∧ v ∈ a := by
  rw [ExtTreeSet.mem_erase, ne_eq, LawfulEqCmp.compare_eq_iff_eq, eq_comm]

/-- The elements that are left are taken out, but for those that are left of the other set. By
induction on the walk. -/
lemma mem_andAssignLoop {xs ys : List α} (hx : Increasing xs) (hy : Increasing ys)
    (a : ExtTreeSet α) (v : α) : v ∈ andAssignLoop xs ys a ↔ v ∈ a ∧ (v ∈ xs → v ∈ ys) := by
  revert a
  refine Increasing.merge_induction (motive := fun xs ys => ∀ a : ExtTreeSet α,
    v ∈ andAssignLoop xs ys a ↔ v ∈ a ∧ (v ∈ xs → v ∈ ys)) ?nil ?left ?right ?both hx hy
  case nil =>
    intro a
    simp [andAssignLoop]
  case left =>
    intro x xs ys hxs hys hhead ih a
    have hstep : andAssignLoop (x :: xs) ys a = andAssignLoop xs ys (a.erase x) := by
      rcases ys with _ | ⟨y, ys⟩
      · rw [andAssignLoop]
      · have hlt : compare x y = .lt := hhead y rfl
        have hgt : compare y x = .gt := OrientedCmp.gt_iff_lt.mpr hlt
        simp [andAssignLoop, hlt, hgt]
    rw [hstep, ih, mem_erase_iff, List.mem_cons]
    by_cases hv : v = x
    · subst hv
      simp [hys]
    · simp [hv]
  case right =>
    intro y xs ys hxs hys hhead ih a
    have hstep : andAssignLoop xs (y :: ys) a = andAssignLoop xs ys a := by
      rcases xs with _ | ⟨x, xs⟩
      · simp [andAssignLoop]
      · have hlt : compare y x = .lt := hhead x rfl
        simp [andAssignLoop, hlt]
    rw [hstep, ih]
    apply and_congr_right
    intro _
    apply imp_congr_right
    intro hv
    rw [List.mem_cons, or_iff_right (ne_of_mem_of_not_mem hv hxs)]
  case both =>
    intro x xs ys hxs hys ih a
    have hstep : andAssignLoop (x :: xs) (x :: ys) a = andAssignLoop xs ys a := by
      simp [andAssignLoop]
    rw [hstep, ih, List.mem_cons, List.mem_cons]
    by_cases hv : v = x
    · subst hv
      simp [hxs]
    · simp [hv]

@[simp] lemma mem_andAssign {a b : ExtTreeSet α} {v : α} : v ∈ andAssign a b ↔ v ∈ a ∧ v ∈ b := by
  rw [andAssign]
  split_ifs with h
  · rw [ExtTreeSet.isEmpty_iff] at h
    simp [h]
  · rw [mem_andAssignLoop (.toList a) (.toList b), ExtTreeSet.mem_toList, ExtTreeSet.mem_toList]
    tauto

/-- What is left of the second set is contained in what is left of the first one. By induction on
the walk. -/
lemma setContainsLoop_iff {xs ys : List α} (hx : Increasing xs) (hy : Increasing ys) :
    setContainsLoop xs ys = true ↔ ∀ v ∈ ys, v ∈ xs := by
  refine Increasing.merge_induction (motive := fun xs ys =>
    setContainsLoop xs ys = true ↔ ∀ v ∈ ys, v ∈ xs) ?nil ?left ?right ?both hx hy
  case nil => simp [setContainsLoop]
  case left =>
    intro x xs ys hxs hys hhead ih
    have hstep : setContainsLoop (x :: xs) ys = setContainsLoop xs ys := by
      rcases ys with _ | ⟨y, ys⟩
      · cases xs <;> rfl
      · have hlt : compare x y = .lt := hhead y rfl
        have hgt : compare y x = .gt := OrientedCmp.gt_iff_lt.mpr hlt
        simp [setContainsLoop, hlt, hgt]
    rw [hstep, ih]
    apply forall₂_congr
    intro v hv
    rw [List.mem_cons, or_iff_right (ne_of_mem_of_not_mem hv hys)]
  case right =>
    intro y xs ys hxs hys hhead _
    have hstop : setContainsLoop xs (y :: ys) = false := by
      rcases xs with _ | ⟨x, xs⟩
      · rfl
      · have hlt : compare y x = .lt := hhead x rfl
        have hgt : compare x y = .gt := OrientedCmp.gt_iff_lt.mpr hlt
        simp [setContainsLoop, hlt, hgt]
    rw [hstop]
    exact iff_of_false Bool.false_ne_true fun h => hxs (h y List.mem_cons_self)
  case both =>
    intro x xs ys hxs hys ih
    have hstep : setContainsLoop (x :: xs) (x :: ys) = setContainsLoop xs ys := by
      simp [setContainsLoop]
    rw [hstep, ih, List.forall_mem_cons, and_iff_right List.mem_cons_self]
    apply forall₂_congr
    intro v hv
    rw [List.mem_cons, or_iff_right (ne_of_mem_of_not_mem hv hys)]

lemma setContains_iff {set1 set2 : ExtTreeSet α} :
    setContains set1 set2 = true ↔ ∀ v ∈ set2, v ∈ set1 := by
  rw [setContains, setContainsLoop_iff (.toList set1) (.toList set2)]
  simp only [ExtTreeSet.mem_toList]

/-- The elements that are left are taken out if they are left of the other set. By induction on the
walk. -/
lemma mem_subAssignLoop {xs ys : List α} (hx : Increasing xs) (hy : Increasing ys)
    (a : ExtTreeSet α) (v : α) :
    v ∈ subAssignLoop xs ys a ↔ v ∈ a ∧ ¬ (v ∈ xs ∧ v ∈ ys) := by
  revert a
  refine Increasing.merge_induction (motive := fun xs ys => ∀ a : ExtTreeSet α,
    v ∈ subAssignLoop xs ys a ↔ v ∈ a ∧ ¬ (v ∈ xs ∧ v ∈ ys)) ?nil ?left ?right ?both hx hy
  case nil =>
    intro a
    simp [subAssignLoop]
  case left =>
    intro x xs ys hxs hys hhead ih a
    have hstep : subAssignLoop (x :: xs) ys a = subAssignLoop xs ys a := by
      rcases ys with _ | ⟨y, ys⟩
      · simp [subAssignLoop]
      · have hlt : compare x y = .lt := hhead y rfl
        simp [subAssignLoop, hlt]
    rw [hstep, ih, List.mem_cons]
    apply and_congr_right
    intro _
    apply not_congr
    apply and_congr_left
    intro hv
    rw [or_iff_right (ne_of_mem_of_not_mem hv hys)]
  case right =>
    intro y xs ys hxs hys hhead ih a
    have hstep : subAssignLoop xs (y :: ys) a = subAssignLoop xs ys a := by
      rcases xs with _ | ⟨x, xs⟩
      · simp [subAssignLoop]
      · have hgt : compare x y = .gt := OrientedCmp.gt_iff_lt.mpr (hhead x rfl)
        simp [subAssignLoop, hgt]
    rw [hstep, ih, List.mem_cons]
    apply and_congr_right
    intro _
    apply not_congr
    apply and_congr_right
    intro hv
    rw [or_iff_right (ne_of_mem_of_not_mem hv hxs)]
  case both =>
    intro x xs ys hxs hys ih a
    have hstep : subAssignLoop (x :: xs) (x :: ys) a = subAssignLoop xs ys (a.erase x) := by
      simp [subAssignLoop]
    rw [hstep, ih, mem_erase_iff, List.mem_cons, List.mem_cons]
    by_cases hv : v = x
    · simp [hv]
    · simp [hv]

lemma mem_subAssign {a b : ExtTreeSet α} {v : α} : v ∈ subAssign a b ↔ v ∈ a ∧ v ∉ b := by
  rw [subAssign, mem_subAssignLoop (.toList a) (.toList b), ExtTreeSet.mem_toList,
    ExtTreeSet.mem_toList]
  tauto

omit [LawfulEqOrd α] in
/-- The loops of `<=` and `set_contains` are the same, but for the order of their arguments. -/
lemma leLoop_eq (xs ys : List α) : leLoop xs ys = setContainsLoop ys xs := by
  induction ys generalizing xs with
  | nil => cases xs <;> rfl
  | cons y ys ih =>
    rcases xs with _ | ⟨x, xs⟩
    · rfl
    · have heq : (compare x y == .eq) = (compare y x == .eq) := by
        rw [Bool.eq_iff_iff, beq_iff_eq, beq_iff_eq, OrientedCmp.eq_comm]
      rw [leLoop, setContainsLoop, ih, ih, heq]

lemma le_iff {a b : ExtTreeSet α} : Operators.le a b = true ↔ ∀ v ∈ a, v ∈ b := by
  rw [Operators.le, leLoop_eq]
  exact setContains_iff

end Members

end Libept.Operators
