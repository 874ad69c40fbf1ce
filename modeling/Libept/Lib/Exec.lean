import Mathlib.Logic.Basic
import Mathlib.Tactic.Common

/-!
# Computations on a state that may throw

An `Exec ε σ α` runs on a state of `σ`. It returns a value of `α` or throws an error of `ε`, and
leaves a state behind in both cases; or it has no defined result, as when a program follows a
pointer to an object that is gone.

`Ensures` is the weakest precondition of a pair of postconditions, one for each way to end. Its
rules compute it for a program from those of its parts.
-/

inductive Outcome (ε σ α : Type) where
  | ok (a : α) (s : σ)
  | threw (e : ε) (s : σ)
  | undefined

/-- What is returned or thrown. -/
def Outcome.result {ε σ α : Type} : Outcome ε σ α → Option (Except ε α)
  | ok a _ => some (.ok a)
  | threw e _ => some (.error e)
  | undefined => none

structure Exec (ε σ α : Type) where
  run : σ → Outcome ε σ α

namespace Exec

variable {ε σ α β : Type}

@[ext] lemma ext {x y : Exec ε σ α} (h : ∀ s, x.run s = y.run s) : x = y := by
  cases x
  cases y
  congr
  exact funext h

instance : Monad (Exec ε σ) where
  pure a := ⟨fun s => .ok a s⟩
  bind x f := ⟨fun s =>
    match x.run s with
    | .ok a s' => (f a).run s'
    | .threw e s' => .threw e s'
    | .undefined => .undefined⟩

def get : Exec ε σ σ := ⟨fun s => .ok s s⟩

def modify (f : σ → σ) : Exec ε σ Unit := ⟨fun s => .ok () (f s)⟩

def throw (e : ε) : Exec ε σ α := ⟨fun s => .threw e s⟩

/-- The value, which must be there. -/
def ofOption : Option α → Exec ε σ α
  | some a => pure a
  | none => ⟨fun _ => .undefined⟩

variable {x : Exec ε σ α} {f : α → Exec ε σ β} {s s' : σ} {a : α} {e : ε}

@[simp] lemma run_pure (a : α) (s : σ) : (pure a : Exec ε σ α).run s = .ok a s := rfl

lemma run_bind (x : Exec ε σ α) (f : α → Exec ε σ β) (s : σ) :
    (x >>= f).run s =
      match x.run s with
      | .ok a s' => (f a).run s'
      | .threw e s' => .threw e s'
      | .undefined => .undefined := rfl

@[simp] lemma run_throw (e : ε) (s : σ) : (throw e : Exec ε σ α).run s = .threw e s := rfl

lemma run_bind_ok (h : x.run s = .ok a s') : (x >>= f).run s = (f a).run s' := by
  rw [run_bind, h]

lemma run_bind_threw (h : x.run s = .threw e s') : (x >>= f).run s = .threw e s' := by
  rw [run_bind, h]

lemma run_bind_undefined (h : x.run s = .undefined) : (x >>= f).run s = .undefined := by
  rw [run_bind, h]

instance : LawfulMonad (Exec ε σ) := LawfulMonad.mk' _
  (fun x => ext fun s => by
    change (x >>= pure).run s = x.run s
    rw [run_bind]
    cases x.run s <;> rfl)
  (fun _ _ => rfl)
  (fun x f g => ext fun s => by
    simp only [run_bind]
    cases x.run s <;> rfl)

/-! ### Postconditions -/

/-- From `s` the computation has a defined result: it returns with `Q` or throws with `E`. -/
def Ensures (x : Exec ε σ α) (s : σ) (Q : α → σ → Prop) (E : ε → σ → Prop) : Prop :=
  match x.run s with
  | .ok a s' => Q a s'
  | .threw e s' => E e s'
  | .undefined => False

variable {Q Q' : α → σ → Prop} {E E' : ε → σ → Prop}

lemma Ensures.mono (h : x.Ensures s Q E) (hQ : ∀ a s', Q a s' → Q' a s')
    (hE : ∀ e s', E e s' → E' e s') : x.Ensures s Q' E' := by
  unfold Ensures at h ⊢
  cases hrun : x.run s with
  | ok a s' =>
    rw [hrun] at h
    exact hQ a s' h
  | threw e s' =>
    rw [hrun] at h
    exact hE e s' h
  | undefined =>
    rw [hrun] at h
    exact h.elim

lemma Ensures.of_ok (h : x.Ensures s Q E) (hrun : x.run s = .ok a s') : Q a s' := by
  rwa [Ensures, hrun] at h

lemma Ensures.of_threw (h : x.Ensures s Q E) (hrun : x.run s = .threw e s') : E e s' := by
  rwa [Ensures, hrun] at h

lemma Ensures.defined (h : x.Ensures s Q E) : x.run s ≠ .undefined := by
  intro hrun
  rwa [Ensures, hrun] at h

/-- A computation that cannot throw returns. -/
lemma Ensures.returns (h : x.Ensures s Q fun _ _ => False) :
    ∃ a s', x.run s = .ok a s' ∧ Q a s' := by
  cases hrun : x.run s with
  | ok a s' => exact ⟨a, s', rfl, h.of_ok hrun⟩
  | threw e s' => exact (h.of_threw hrun).elim
  | undefined => exact (h.defined hrun).elim

@[simp] lemma ensures_pure : (pure a : Exec ε σ α).Ensures s Q E ↔ Q a s := Iff.rfl

@[simp] lemma ensures_bind {Q : β → σ → Prop} :
    (x >>= f).Ensures s Q E ↔ x.Ensures s (fun a s' => (f a).Ensures s' Q E) E := by
  unfold Ensures
  rw [run_bind]
  cases x.run s <;> rfl

@[simp] lemma ensures_get {Q : σ → σ → Prop} :
    (get : Exec ε σ σ).Ensures s Q E ↔ Q s s := Iff.rfl

@[simp] lemma ensures_modify {g : σ → σ} {Q : Unit → σ → Prop} :
    (modify g : Exec ε σ Unit).Ensures s Q E ↔ Q () (g s) := Iff.rfl

@[simp] lemma ensures_throw : (throw e : Exec ε σ α).Ensures s Q E ↔ E e s := Iff.rfl

@[simp] lemma ensures_ofOption_some : (ofOption (some a) : Exec ε σ α).Ensures s Q E ↔ Q a s :=
  Iff.rfl

@[simp] lemma ensures_ite {c : Prop} [Decidable c] {y : Exec ε σ α} :
    (if c then x else y).Ensures s Q E ↔
      (c → x.Ensures s Q E) ∧ (¬c → y.Ensures s Q E) := by
  split_ifs with h <;> simp [h]

/-! ### Lists of computations -/

/-- Computations that return one after the other, and keep an invariant. -/
lemma run_mapM {I : σ → Prop} {f : α → Exec ε σ β} {g : α → β} {l : List α}
    (h : ∀ a ∈ l, ∀ s, I s → (f a).Ensures s (fun b s' => b = g a ∧ I s') fun _ _ => False)
    (hs : I s) : ∃ s', (l.mapM f).run s = .ok (l.map g) s' ∧ I s' := by
  induction l generalizing s with
  | nil => exact ⟨s, rfl, hs⟩
  | cons a l ih =>
    obtain ⟨b, s₁, hrun, rfl, hs₁⟩ := (h a List.mem_cons_self s hs).returns
    obtain ⟨s₂, hrest, hs₂⟩ := ih (fun a' ha' => h a' (List.mem_cons_of_mem _ ha')) hs₁
    refine ⟨s₂, ?_, hs₂⟩
    rw [List.mapM_cons, run_bind_ok hrun, run_bind_ok hrest]
    rfl

end Exec
