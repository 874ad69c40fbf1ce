import Mathlib.Data.List.TakeWhile
import Mathlib.Tactic.Common

/-!
# Lines

A list over any alphabet is read as a sequence of lines divided by a separator `x`:
`List.splitOn x` gives all the lines, the last one being the unterminated rest. An induction on a
list goes line by line, and the scans by `takeWhile` and `dropWhile` never cross a separator that
they do not accept.
-/

namespace Lines

variable {α : Type*} {x : α}

/-- Induction line by line: the unterminated last line, then a line in front. -/
lemma induction (x : α) {P : List α → Prop} (last : ∀ l, x ∉ l → P l)
    (line : ∀ l r, x ∉ l → P r → P (l ++ x :: r)) (s : List α) : P s := by
  classical
  induction h : s.length using Nat.strong_induction_on generalizing s with
  | _ n ih =>
    by_cases hx : x ∈ s
    · obtain ⟨l, r, rfl, hl⟩ := List.eq_append_cons_of_mem hx
      refine line l r hl (ih r.length ?_ r rfl)
      simp only [List.length_append, List.length_cons] at h
      omega
    · exact last s hx

/-- A list is split in one way at the first element without a property. -/
lemma append_cons_inj {P : α → Prop} {l l' r r' : List α} {y y' : α} (hl : ∀ z ∈ l, P z)
    (hl' : ∀ z ∈ l', P z) (hy : ¬P y) (hy' : ¬P y') (h : l ++ y :: r = l' ++ y' :: r') :
    l = l' ∧ y = y' ∧ r = r' := by
  induction l generalizing l' with
  | nil =>
    rcases l' with _ | ⟨z, l'⟩
    · exact ⟨rfl, List.cons.inj h⟩
    · obtain ⟨rfl, -⟩ := List.cons.inj h
      exact absurd (hl' y (by simp)) hy
  | cons z l ih =>
    rcases l' with _ | ⟨z', l'⟩
    · obtain ⟨rfl, -⟩ := List.cons.inj h
      exact absurd (hl z (by simp)) hy'
    · obtain ⟨rfl, htail⟩ := List.cons.inj h
      obtain ⟨rfl, hrest⟩ := ih (fun w hw => hl w (by simp [hw]))
        (fun w hw => hl' w (by simp [hw])) htail
      exact ⟨rfl, hrest⟩

/-! ### Scans up to the separator -/

section Scan

variable [DecidableEq α]

lemma bne_of_not_mem {l : List α} (hl : x ∉ l) : ∀ y ∈ l, (y != x) = true := by
  intro y hy
  rw [bne_iff_ne]
  rintro rfl
  exact hl hy

lemma takeWhile_line {l : List α} (hl : x ∉ l) (r : List α) :
    (l ++ x :: r).takeWhile (· != x) = l := by
  rw [List.takeWhile_append_of_pos (bne_of_not_mem hl)]
  simp

lemma dropWhile_line {l : List α} (hl : x ∉ l) (r : List α) :
    (l ++ x :: r).dropWhile (· != x) = x :: r := by
  rw [List.dropWhile_append_of_pos (bne_of_not_mem hl)]
  simp

lemma takeWhile_last {l : List α} (hl : x ∉ l) : l.takeWhile (· != x) = l :=
  List.takeWhile_eq_self_iff.mpr (bne_of_not_mem hl)

lemma dropWhile_last {l : List α} (hl : x ∉ l) : l.dropWhile (· != x) = [] :=
  List.dropWhile_eq_nil_iff.mpr (bne_of_not_mem hl)

end Scan

/-! ### Scans that stop at the separator -/

variable {p : α → Bool}

lemma dropWhile_append_stop (hx : p x = false) (l r : List α) :
    (l ++ x :: r).dropWhile p = l.dropWhile p ++ x :: r := by
  induction l with
  | nil => simp [hx]
  | cons y l ih =>
    simp only [List.cons_append, List.dropWhile_cons]
    split_ifs
    · exact ih
    · rfl

lemma takeWhile_append_stop (hx : p x = false) (l r : List α) :
    (l ++ x :: r).takeWhile p = l.takeWhile p := by
  induction l with
  | nil => simp [hx]
  | cons y l ih =>
    simp only [List.cons_append, List.takeWhile_cons]
    split_ifs
    · rw [ih]
    · rfl

lemma not_mem_dropWhile {l : List α} (hl : x ∉ l) : x ∉ l.dropWhile p :=
  fun h => hl ((List.dropWhile_suffix p).subset h)

end Lines
