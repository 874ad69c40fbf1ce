import Libept.Debtags.Coll.Operators
import Libept.Lib.CInt

/-!
# Walks through two sets

`set_distance` of `coll/set.h` counts what two sets have in common and what only one of them has.
Its counters have the type `int`. The walks of this file and of `coll/operators.h` give what the
operations on sets of mathematics give, as long as the counters do.
-/

namespace Libept.Operators

open Std Increasing

variable {α : Type*} [Ord α] [TransOrd α]

/-- The loop of `set_distance`, and what is returned behind it. A counter that overflows has no
value. -/
def setDistanceLoop : List α → List α → ℤ → ℤ → Option ℤ
  | [], [], res, intCount => some (if intCount ≠ 0 then res else -1)
  | _ :: xs, [], res, intCount => do
    let res ← CInt.add res 1
    setDistanceLoop xs [] res intCount
  | [], _ :: ys, res, intCount => do
    let res ← CInt.add res 1
    setDistanceLoop [] ys res intCount
  | x :: xs, y :: ys, res, intCount =>
    if compare x y == .lt then do
      let res ← CInt.add res 1
      setDistanceLoop xs (y :: ys) res intCount
    else if compare y x == .lt then do
      let res ← CInt.add res 1
      setDistanceLoop (x :: xs) ys res intCount
    else do
      let intCount ← CInt.add intCount 1
      setDistanceLoop xs ys res intCount
termination_by xs ys => xs.length + ys.length

/-- `set_distance(set1, set2)` -/
def setDistance (set1 set2 : ExtTreeSet α) : Option ℤ :=
  setDistanceLoop set1.toList set2.toList 0 0

/-! ### The loop of `set_distance` -/

/-- What is returned for so many elements in one set only and in both. -/
def distanceOf (apart common : ℕ) : Option ℤ :=
  if common < 2 ^ 31 ∧ apart < 2 ^ 31 then some (if common = 0 then -1 else apart) else none

/-- A counter is incremented. -/
lemma add_one_bind (k : ℕ) (f : ℤ → Option ℤ) :
    (CInt.add k 1).bind f = if k + 1 < 2 ^ 31 then f ((k + 1 : ℕ) : ℤ) else none := by
  rw [CInt.add_one_natCast]
  split_ifs <;> rfl

/-- When one more is counted, the rest of the walk goes on from there. -/
lemma count_next {k m : ℕ} {f : ℤ → Option ℤ} {d : ℕ → Option ℤ}
    (hlarge : ∀ j, 2 ^ 31 ≤ j → d j = none)
    (hrest : k + 1 < 2 ^ 31 → f ((k + 1 : ℕ) : ℤ) = d (k + 1 + m)) :
    (CInt.add k 1).bind f = d (k + (m + 1)) := by
  rw [add_one_bind]
  split
  case isTrue h => rw [hrest h, Nat.add_assoc, Nat.add_comm 1]
  case isFalse h => exact (hlarge _ (by omega)).symm

lemma distanceOf_apart_large (common apart : ℕ) (h : 2 ^ 31 ≤ apart) :
    distanceOf apart common = none := if_neg fun hsmall => Nat.not_lt.mpr h hsmall.2

lemma distanceOf_common_large (apart common : ℕ) (h : 2 ^ 31 ≤ common) :
    distanceOf apart common = none := if_neg fun hsmall => Nat.not_lt.mpr h hsmall.1

/-- The counters go on from what they are. By induction on the walk. -/
lemma setDistanceLoop_eq [LawfulEqOrd α] {xs ys : List α} (hx : Increasing xs)
    (hy : Increasing ys) (res n : ℕ) (hres : res < 2 ^ 31) (hn : n < 2 ^ 31) :
    setDistanceLoop xs ys res n = distanceOf (res + apart xs ys) (n + common xs ys) := by
  revert res n
  refine Increasing.merge_induction (motive := fun xs ys => ∀ res n : ℕ, res < 2 ^ 31 →
    n < 2 ^ 31 → setDistanceLoop xs ys res n =
      distanceOf (res + apart xs ys) (n + common xs ys)) ?nil ?left ?right ?both hx hy
  case nil =>
    intro res n hres hn
    have hapart : apart ([] : List α) [] = 0 := by simp [apart]
    have hcommon : common ([] : List α) [] = 0 := by simp [common]
    rw [hapart, hcommon, distanceOf, if_pos ⟨hn, hres⟩, setDistanceLoop]
    simp [ite_not]
  case left =>
    intro x xs ys hxs hys hhead ih res n hres hn
    have hstep : setDistanceLoop (x :: xs) ys res n =
        (CInt.add res 1).bind fun res => setDistanceLoop xs ys res n := by
      rcases ys with _ | ⟨y, ys⟩
      · rw [setDistanceLoop]
        rfl
      · have hlt : compare x y = .lt := hhead y rfl
        rw [setDistanceLoop, if_pos (beq_iff_eq.mpr hlt)]
        rfl
    rw [hstep, apart_left hxs hys, common_left hys]
    exact count_next (d := (distanceOf · (n + common xs ys))) (distanceOf_apart_large _)
      fun h => ih _ _ h hn
  case right =>
    intro y xs ys hxs hys hhead ih res n hres hn
    have hstep : setDistanceLoop xs (y :: ys) res n =
        (CInt.add res 1).bind fun res => setDistanceLoop xs ys res n := by
      rcases xs with _ | ⟨x, xs⟩
      · rw [setDistanceLoop]
        rfl
      · have hlt : compare y x = .lt := hhead x rfl
        have hgt : ¬ (compare x y == .lt) = true := by simp [OrientedCmp.gt_iff_lt.mpr hlt]
        rw [setDistanceLoop, if_neg hgt, if_pos (beq_iff_eq.mpr hlt)]
        rfl
    rw [hstep, apart_comm, apart_left hys hxs, common_comm, common_left hxs, apart_comm,
      common_comm]
    exact count_next (d := (distanceOf · (n + common xs ys))) (distanceOf_apart_large _)
      fun h => ih _ _ h hn
  case both =>
    intro x xs ys hxs hys ih res n hres hn
    have hstep : setDistanceLoop (x :: xs) (x :: ys) res n =
        (CInt.add n 1).bind fun n => setDistanceLoop xs ys res n := by
      rw [setDistanceLoop, if_neg (by simp), if_neg (by simp)]
      rfl
    rw [hstep, apart_both hxs hys, common_both hxs]
    exact count_next (d := distanceOf (res + apart xs ys)) (distanceOf_common_large _)
      fun h => ih _ _ hres h

/-! ### Sets of mathematics -/

/-- The set of mathematics that a set of the source stands for. -/
def members (a : ExtTreeSet α) : Set α := {v | v ∈ a}

variable [LawfulEqOrd α] {a b : ExtTreeSet α} {v : α}

omit [LawfulEqOrd α] in
@[simp] lemma mem_members : v ∈ members a ↔ v ∈ a := Iff.rfl

lemma elems_toList (a : ExtTreeSet α) : elems a.toList = members a :=
  Set.ext fun _ => ExtTreeSet.mem_toList

lemma finite_members (a : ExtTreeSet α) : (members a).Finite :=
  elems_toList a ▸ finite_elems a.toList

lemma setDistance_eq (a b : ExtTreeSet α) :
    setDistance a b =
      distanceOf (symmDiff (members a) (members b)).ncard (members a ∩ members b).ncard := by
  have hloop := setDistanceLoop_eq (.toList a) (.toList b) 0 0 (by decide) (by decide)
  rw [apart, common, elems_toList, elems_toList, Nat.zero_add, Nat.zero_add] at hloop
  exact hloop

lemma setDistance_comm (a b : ExtTreeSet α) : setDistance a b = setDistance b a := by
  rw [setDistance_eq, setDistance_eq, symmDiff_comm, Set.inter_comm]

/-- What the walks through two sets should give, and how the plain operators and a test of each
element agree with them. -/
structure Merges (a b : ExtTreeSet α) : Prop where
  and_assign : members (andAssign a b) = members a ∩ members b
  and_assign_eq : andAssign a b = Operators.and a b
  sub_assign : members (subAssign a b) = members a \ members b
  sub_assign_eq : subAssign a b = Operators.sub a b
  le : Operators.le a b = true ↔ members a ⊆ members b
  le_item : Operators.le a b = true ↔ ∀ v, leItem v a = true → leItem v b = true
  set_contains : setContains b a = true ↔ members a ⊆ members b
  set_distance : ∃ d, setDistance a b = some d ∧ setDistance b a = some d ∧
    ((members a ∩ members b).Nonempty → d = (symmDiff (members a) (members b)).ncard) ∧
    (¬ (members a ∩ members b).Nonempty → d = -1)

omit [LawfulEqOrd α] in
lemma leItem_iff : leItem v a = true ↔ v ∈ a := ExtTreeSet.contains_iff_mem

lemma members_andAssign (a b : ExtTreeSet α) :
    members (andAssign a b) = members a ∩ members b := Set.ext fun _ => mem_andAssign

lemma andAssign_eq (a b : ExtTreeSet α) : andAssign a b = Operators.and a b := by
  apply ExtTreeSet.ext_mem
  intro v
  rw [mem_andAssign, Operators.and, ExtTreeSet.mem_inter_iff]

lemma members_subAssign (a b : ExtTreeSet α) :
    members (subAssign a b) = members a \ members b := Set.ext fun _ => mem_subAssign

lemma subAssign_eq (a b : ExtTreeSet α) : subAssign a b = Operators.sub a b := by
  apply ExtTreeSet.ext_mem
  intro v
  rw [mem_subAssign, Operators.sub, ExtTreeSet.mem_diff_iff]

/-- The walks give what they should when the counters of `set_distance` do not overflow. -/
theorem merges_iff (a b : ExtTreeSet α) :
    Merges a b ↔ (members a ∩ members b).ncard < 2 ^ 31 ∧
      (symmDiff (members a) (members b)).ncard < 2 ^ 31 := by
  constructor
  · intro h
    obtain ⟨d, hd, -⟩ := h.set_distance
    by_contra hlarge
    rw [setDistance_eq, distanceOf, if_neg hlarge] at hd
    cases hd
  · intro h
    have hfinite := (finite_members a).inter_of_left (members b)
    have hdistance := setDistance_eq a b
    rw [distanceOf, if_pos h] at hdistance
    exact
      { and_assign := members_andAssign a b
        and_assign_eq := andAssign_eq a b
        sub_assign := members_subAssign a b
        sub_assign_eq := subAssign_eq a b
        le := le_iff
        le_item := by simp only [le_iff, leItem_iff]
        set_contains := setContains_iff
        set_distance := by
          refine ⟨_, hdistance, setDistance_comm b a ▸ hdistance, ?_, ?_⟩
          · rintro ⟨v, hv⟩
            exact if_neg (Set.ncard_ne_zero_of_mem hv hfinite)
          · intro hnone
            rw [Set.not_nonempty_iff_eq_empty] at hnone
            rw [hnone, Set.ncard_empty, if_pos rfl] }

/-! ### Sets of numbers -/

/-- The numbers below `n`. -/
def numbers (n : ℕ) : ExtTreeSet ℕ := ExtTreeSet.ofList (List.range n)

lemma members_numbers (n : ℕ) : members (numbers n) = Set.Iio n := by
  ext v
  rw [mem_members, numbers, ExtTreeSet.mem_ofList, List.contains_iff_mem, List.mem_range,
    Set.mem_Iio]

/-- What two of these sets have in common, and what only the larger one has. -/
lemma ncard_numbers {m n : ℕ} (h : m ≤ n) :
    (members (numbers n) ∩ members (numbers m)).ncard = m ∧
      (symmDiff (members (numbers n)) (members (numbers m))).ncard = n - m := by
  have hsub : Set.Iio m ⊆ Set.Iio n := Set.Iio_subset_Iio h
  rw [members_numbers, members_numbers, Set.inter_eq_right.mpr hsub, symmDiff_of_ge hsub]
  constructor
  · simp [Set.ncard_eq_toFinset_card']
  · have hdiff : Set.Iio n \ Set.Iio m = Set.Ico m n := by
      ext v
      simp
    rw [hdiff]
    simp [Set.ncard_eq_toFinset_card']

theorem merges_numbers : Merges (numbers 5) (numbers 3) := by
  obtain ⟨hcommon, hapart⟩ := ncard_numbers (show 3 ≤ 5 by decide)
  refine (merges_iff (numbers 5) (numbers 3)).mpr ?_
  rw [hcommon, hapart]
  exact ⟨by decide, by decide⟩

/-- One number is in both sets, and `2 ^ 31` are in one of them only. -/
theorem set_distance_overflows : ¬ Merges (numbers (2 ^ 31 + 1)) (numbers 1) := by
  intro h
  obtain ⟨d, hd, -⟩ := h.set_distance
  obtain ⟨hcommon, hapart⟩ := @ncard_numbers 1 (2 ^ 31 + 1) (Nat.le_add_left _ _)
  rw [setDistance_eq, hcommon, hapart, Nat.add_sub_cancel, distanceOf, if_neg (by decide)] at hd
  cases hd

end Libept.Operators
