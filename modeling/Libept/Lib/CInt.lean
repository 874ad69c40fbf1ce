import Mathlib

/-!
# The type `int`

Values of a 32-bit `int` are integers in its range. An addition or a subtraction whose result is
out of the range has no defined value, and neither has an array access out of bounds.
-/

namespace CInt

/-- Conversion of an unsigned size. -/
def ofSize (n : ℕ) : ℤ := (n : ℤ).bmod (2 ^ 32)

def InRange (z : ℤ) : Prop := -2 ^ 31 ≤ z ∧ z < 2 ^ 31

instance (z : ℤ) : Decidable (InRange z) := inferInstanceAs (Decidable (_ ∧ _))

def add (a b : ℤ) : Option ℤ := if InRange (a + b) then some (a + b) else none

def sub (a b : ℤ) : Option ℤ := if InRange (a - b) then some (a - b) else none

/-- Element `z` of an array. -/
def get {α : Type*} (l : List α) (z : ℤ) : Option α := if z < 0 then none else l[z.toNat]?

lemma add_eq_some {a b c : ℤ} (h : add a b = some c) : c = a + b := by
  rw [add] at h
  split_ifs at h
  exact (Option.some.inj h).symm

lemma inRange_of_add {a b c : ℤ} (h : add a b = some c) : InRange (a + b) := by
  rw [add] at h
  split_ifs at h with hrange
  exact hrange

/-- Counting on from a natural number. -/
lemma add_one_natCast (n : ℕ) :
    add n 1 = if n + 1 < 2 ^ 31 then some ((n + 1 : ℕ) : ℤ) else none := by
  rw [add]
  split_ifs with hrange h h
  · rw [Nat.cast_succ]
  · exact absurd (by exact_mod_cast hrange.2) h
  · exact absurd ⟨by omega, by exact_mod_cast h⟩ hrange
  · rfl

lemma sub_eq_some {a b c : ℤ} (h : sub a b = some c) : c = a - b := by
  rw [sub] at h
  split_ifs at h
  exact (Option.some.inj h).symm

lemma ofSize_of_lt {n : ℕ} (h : n < 2 ^ 31) : ofSize n = n := by
  unfold ofSize
  rw [Int.bmod_eq_of_le_mul_two] <;> omega

lemma ofSize_lt (n : ℕ) : ofSize n < 2 ^ 31 := by
  have h := Int.bmod_lt (x := (n : ℤ)) (m := 2 ^ 32) (by decide)
  unfold ofSize
  omega

lemma get_natCast {α : Type*} (l : List α) (n : ℕ) : get l n = l[n]? := by
  rw [get]
  rw [if_neg (by omega), Int.toNat_natCast]

/-- Half the sum of two bounds lies between them. -/
lemma tdiv_two_between {a b : ℤ} (h : a + 1 < b) : a < (b + a).tdiv 2 ∧ (b + a).tdiv 2 < b := by
  have h₁ := Int.tmod_add_tdiv_mul (b + a) 2
  have h₂ := Int.tmod_lt_of_pos (b + a) (show (0 : ℤ) < 2 by decide)
  have h₃ := Int.lt_tmod_of_pos (b + a) (show (0 : ℤ) < 2 by decide)
  omega

end CInt
