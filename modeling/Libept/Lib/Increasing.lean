import Mathlib

/-!
# Increasing lists

The lists that a walk through an ordered set gives: each element is less than all behind it. A
pass over two of them at once, which always moves on past the smaller of the two first elements,
never misses an element they have in common.
-/

open Std

variable {α : Type*} [Ord α] [TransOrd α] [LawfulEqOrd α]

/-- Each element is less than those behind it. -/
def Increasing (l : List α) : Prop := l.Pairwise fun a b => compare a b = .lt

namespace Increasing

variable {x y : α} {xs : List α}

omit [LawfulEqOrd α] in
lemma toList (s : ExtTreeSet α) : Increasing s.toList := ExtTreeSet.ordered_toList

omit [TransOrd α] [LawfulEqOrd α] in
lemma tail (h : Increasing (x :: xs)) : Increasing xs := List.Pairwise.tail h

/-- An element before the first one is not in the list. -/
lemma not_mem_of_lt (h : Increasing (x :: xs)) (hlt : compare y x = .lt) : y ∉ x :: xs := by
  intro hy
  rcases List.mem_cons.mp hy with rfl | hy
  · simp at hlt
  · have hyy := TransCmp.lt_trans hlt (List.rel_of_pairwise_cons h hy)
    simp at hyy

omit [TransOrd α] in
/-- The first element is not repeated. -/
lemma not_mem_tail (h : Increasing (x :: xs)) : x ∉ xs := by
  intro hx
  simpa using List.rel_of_pairwise_cons h hx

/-- Induction on a walk through two increasing lists at once, which passes the smaller of the two
first elements, or both when they are equal. An element that is passed is in none of the rests, and
it is in the other list only if it is passed there too. -/
theorem merge_induction {motive : List α → List α → Prop} (nil : motive [] [])
    (left : ∀ x xs ys, x ∉ xs → x ∉ ys → (∀ y ∈ ys.head?, compare x y = .lt) →
      motive xs ys → motive (x :: xs) ys)
    (right : ∀ y xs ys, y ∉ xs → y ∉ ys → (∀ x ∈ xs.head?, compare y x = .lt) →
      motive xs ys → motive xs (y :: ys))
    (both : ∀ x xs ys, x ∉ xs → x ∉ ys → motive xs ys → motive (x :: xs) (x :: ys))
    {xs ys : List α} (hx : Increasing xs) (hy : Increasing ys) : motive xs ys := by
  induction hn : xs.length + ys.length using Nat.strong_induction_on generalizing xs ys with
  | _ n ih =>
    subst hn
    match xs, ys with
    | [], [] => exact nil
    | x :: xs, [] =>
      have hrest := ih _ (by simp) hx.tail hy rfl
      exact left x xs [] hx.not_mem_tail List.not_mem_nil (by simp) hrest
    | [], y :: ys =>
      have hrest := ih _ (by simp) hx hy.tail rfl
      exact right y [] ys List.not_mem_nil hy.not_mem_tail (by simp) hrest
    | x :: xs, y :: ys =>
      cases hxy : compare x y with
      | lt =>
        have hrest := ih _ (by simp) hx.tail hy rfl
        exact left x xs (y :: ys) hx.not_mem_tail (hy.not_mem_of_lt hxy) (by simpa using hxy) hrest
      | gt =>
        have hyx := OrientedCmp.gt_iff_lt.mp hxy
        have hrest := ih _ (by simp) hx hy.tail rfl
        exact right y (x :: xs) ys (hx.not_mem_of_lt hyx) hy.not_mem_tail (by simpa using hyx) hrest
      | eq =>
        obtain rfl := LawfulEqCmp.compare_eq_iff_eq.mp hxy
        have hrest := ih _ (by simp; omega) hx.tail hy.tail rfl
        exact both x xs ys hx.not_mem_tail hy.not_mem_tail hrest

/-! ### What two lists have in common -/

section Common

variable {α : Type*} {s t : Set α} {x : α} {xs ys : List α}

lemma symmDiff_insert_left (hs : x ∉ s) (ht : x ∉ t) :
    symmDiff (insert x s) t = insert x (symmDiff s t) := by
  ext v
  by_cases hv : v = x
  · subst hv
    simp [Set.mem_symmDiff, ht]
  · simp [Set.mem_symmDiff, hv]

lemma symmDiff_insert_both (hs : x ∉ s) (ht : x ∉ t) :
    symmDiff (insert x s) (insert x t) = symmDiff s t := by
  ext v
  by_cases hv : v = x
  · subst hv
    simp [Set.mem_symmDiff, hs, ht]
  · simp [Set.mem_symmDiff, hv]

/-- The elements of a list, as a set of mathematics. -/
def elems (xs : List α) : Set α := {v | v ∈ xs}

@[simp] lemma mem_elems : x ∈ elems xs ↔ x ∈ xs := Iff.rfl

@[simp] lemma elems_nil : elems ([] : List α) = ∅ := Set.eq_empty_of_forall_notMem fun _ => by simp

lemma elems_cons (x : α) (xs : List α) : elems (x :: xs) = insert x (elems xs) := by
  ext v
  exact List.mem_cons

lemma finite_elems (xs : List α) : (elems xs).Finite := xs.finite_toSet

/-- The number of elements that two lists have in common. -/
noncomputable def common (xs ys : List α) : ℕ := (elems xs ∩ elems ys).ncard

/-- The number of elements that are in one of two lists only. -/
noncomputable def apart (xs ys : List α) : ℕ := (symmDiff (elems xs) (elems ys)).ncard

lemma common_comm (xs ys : List α) : common xs ys = common ys xs := by
  rw [common, Set.inter_comm, common]

lemma apart_comm (xs ys : List α) : apart xs ys = apart ys xs := by
  rw [apart, symmDiff_comm, apart]

lemma common_left (hys : x ∉ ys) : common (x :: xs) ys = common xs ys := by
  have hnot : x ∉ elems ys := hys
  rw [common, elems_cons, Set.insert_inter_of_notMem hnot, common]

lemma apart_left (hxs : x ∉ xs) (hys : x ∉ ys) : apart (x :: xs) ys = apart xs ys + 1 := by
  have hsets : symmDiff (insert x (elems xs)) (elems ys) =
      insert x (symmDiff (elems xs) (elems ys)) := symmDiff_insert_left hxs hys
  have hnot : x ∉ symmDiff (elems xs) (elems ys) := by simp [Set.mem_symmDiff, hxs, hys]
  have hfinite := (finite_elems xs).symmDiff (finite_elems ys)
  rw [apart, elems_cons, hsets, Set.ncard_insert_of_notMem hnot hfinite, apart]

lemma common_both (hxs : x ∉ xs) : common (x :: xs) (x :: ys) = common xs ys + 1 := by
  have hnot : x ∉ elems xs ∩ elems ys := fun h => hxs h.1
  have hfinite := (finite_elems xs).inter_of_left (elems ys)
  rw [common, elems_cons, elems_cons, ← Set.insert_inter_distrib,
    Set.ncard_insert_of_notMem hnot hfinite, common]

lemma apart_both (hxs : x ∉ xs) (hys : x ∉ ys) : apart (x :: xs) (x :: ys) = apart xs ys := by
  have hsets : symmDiff (insert x (elems xs)) (insert x (elems ys)) =
      symmDiff (elems xs) (elems ys) := symmDiff_insert_both hxs hys
  rw [apart, elems_cons, elems_cons, hsets, apart]

end Common

end Increasing
