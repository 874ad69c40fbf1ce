import Mathlib.Data.List.Sort
import Mathlib.Order.Defs.Unbundled

/-!
# Sorting functions

A sorting function in the sense of `std::sort`: for a comparison that is a strict weak order it
permutes its argument, and no element of the result comes after one it is less than. How it
arranges equivalent elements is left open.
-/

/-- A function that sorts lists by any strict weak order. -/
structure Sorter (α : Type*) where
  sort : (α → α → Bool) → List α → List α
  perm : ∀ (lt : α → α → Bool) (l : List α), IsStrictWeakOrder α (fun a b => lt a b = true) →
    (sort lt l).Perm l
  sorted : ∀ (lt : α → α → Bool) (l : List α), IsStrictWeakOrder α (fun a b => lt a b = true) →
    (sort lt l).Pairwise fun a b => lt b a = false

namespace Sorter

variable {α : Type*}

/-- Merge sort, which also keeps equivalent elements in their order. -/
def merge : Sorter α where
  sort lt l := l.mergeSort fun a b => !lt b a
  perm lt l _ := List.mergeSort_perm l _
  sorted lt l h := by
    have hsorted := @List.pairwise_mergeSort _ (fun a b => !lt b a) ?_ ?_ l
    · exact hsorted.imp fun hab => by simpa using hab
    · intro a b c hab hbc
      simp only [Bool.not_eq_true', Bool.eq_false_iff] at hab hbc ⊢
      intro hca
      by_cases h₁ : lt a b = true
      · exact hbc (h.trans _ _ _ hca h₁)
      · by_cases h₂ : lt b c = true
        · exact hab (h.trans _ _ _ h₂ hca)
        · exact (h.incomp_trans _ _ _ ⟨h₁, hab⟩ ⟨h₂, hbc⟩).2 hca
    · intro a b
      cases hab : lt a b with
      | false => rw [Bool.not_false, Bool.or_true]
      | true =>
        have hba : lt b a = false := Bool.eq_false_iff.mpr fun hba =>
          h.irrefl _ (h.trans _ _ _ hab hba)
        rw [hba, Bool.not_false, Bool.true_or]

end Sorter
