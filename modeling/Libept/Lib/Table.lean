import Mathlib.Logic.Function.Basic
import Mathlib.Tactic.Common

/-!
# Tables of handles

A system keeps a table of the handles that are in use. A part of a program takes handles and gives
them back, perhaps all but one. When something fails, a system may keep what should have been given
back. What was in use before is not touched.
-/

namespace Table

variable {ι α : Type*}

/-- The table is as before, but perhaps for a new entry. What was not in use may be in use in a
system that `keeps` it. -/
structure Same (keeps : Prop) (new? : Option ι) (f f' : ι → Option α) : Prop where
  eq_of : ∀ i, new? ≠ some i → f i ≠ none ∨ ¬ keeps → f' i = f i
  new : ∀ i, new? = some i → f i = none

namespace Same

variable {keeps : Prop} {new? : Option ι} {f f' g : ι → Option α} {i : ι} {a b : α}

lemma of_eq (h : f' = f) : Same keeps none f f' :=
  ⟨fun _ _ _ => h ▸ rfl, fun _ h => absurd h.symm (Option.some_ne_none _)⟩

lemma refl (f : ι → Option α) : Same keeps none f f := .of_eq rfl

lemma trans (h : Same keeps none f g) (h' : Same keeps new? g f') : Same keeps new? f f' where
  eq_of i hi huse := by
    have hsame := h.eq_of i (by simp) huse
    exact (h'.eq_of i hi (by rwa [hsame])).trans hsame
  new i hi := by
    by_contra huse
    exact huse ((h.eq_of i (by simp) (.inl huse)).symm.trans (h'.new i hi))

lemma eq (h : Same keeps none f f') (hnot : ¬ keeps) : f' = f :=
  funext fun i => h.eq_of i (by simp) (.inr hnot)

/-- What was in use stays so. -/
lemma old (h : Same keeps new? f f') (hi : f i = some a) : f' i = some a := by
  have hnew : new? ≠ some i := by
    intro hnew
    rw [h.new i hnew] at hi
    cases hi
  rw [h.eq_of i hnew (.inl (by simp [hi])), hi]

variable [DecidableEq ι]

lemma update (h : Same keeps none f f') (i : ι) (a : Option α) :
    Same keeps none (Function.update f i a) (Function.update f' i a) where
  eq_of j _ huse := by
    by_cases hj : j = i
    · subst hj
      simp
    · rw [Function.update_of_ne hj] at huse
      rw [Function.update_of_ne hj, Function.update_of_ne hj, h.eq_of j (by simp) huse]
  new _ hnew := by cases hnew

/-- An entry is made. -/
lemma take (h : Same keeps none (Function.update f i (some a)) f') (hi : f i = none) :
    Same keeps (some i) f f' where
  eq_of j hj huse := by
    have hne : j ≠ i := fun heq => hj (congrArg some heq.symm)
    rw [h.eq_of j (by simp) (by rwa [Function.update_of_ne hne]), Function.update_of_ne hne]
  new _ hnew := Option.some.inj hnew ▸ hi

/-- What is made while an entry is in use is another one. -/
lemma new_of_update (h : Same keeps new? (Function.update f i (some a)) f') {j : ι}
    (hj : new? = some j) : f j = none := by
  have hnone := h.new j hj
  have hne : j ≠ i := by
    rintro rfl
    rw [Function.update_self] at hnone
    cases hnone
  rwa [Function.update_of_ne hne] at hnone

/-- An entry that was made before is given back. -/
lemma giveBack (h : Same keeps new? (Function.update f i (some a)) f') (hi : f i = none) :
    Same keeps new? f (Function.update f' i none) where
  eq_of j hj huse := by
    by_cases hne : j = i
    · subst hne
      rw [Function.update_self, hi]
    · rw [Function.update_of_ne hne, h.eq_of j hj (by rwa [Function.update_of_ne hne]),
        Function.update_of_ne hne]
  new _ := h.new_of_update

/-- An entry that was made before is not given back. -/
lemma keep (h : Same keeps new? (Function.update f i (some a)) f') (hi : f i = none)
    (hkeeps : keeps) : Same keeps new? f f' where
  eq_of j hj huse := by
    have hne : j ≠ i := by
      rintro rfl
      exact huse.elim (fun hsome => hsome hi) fun hnot => hnot hkeeps
    rw [h.eq_of j hj (by rwa [Function.update_of_ne hne]), Function.update_of_ne hne]
  new _ := h.new_of_update

end Same

end Table
