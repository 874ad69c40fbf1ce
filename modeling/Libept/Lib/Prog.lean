import Mathlib.Logic.Basic
import Mathlib.Tactic.Common

/-!
# Programs that make calls

A `Prog C R ε α` makes calls of `C`, one after the other, and goes on with what each of them
answers; in the end it returns a value of `α` or throws an error of `ε`. It is a tree with a branch
for each answer, and what a call does to the world is said by a relation `step`, which is not part
of the program.

`Reaches` follows a program through any number of calls, so that every place where it may be
interrupted is one that it reaches. `Ensures` computes what holds at all of these places from the
parts of the program, and `FailStop` tells that a program throws exactly when a call has failed.
With the world `record` it is the calls themselves that are reasoned about.
-/

/-- A call `c` is answered by a value of `R c`. -/
inductive Prog (C : Type) (R : C → Type) (ε α : Type) where
  | ret (a : α)
  | throw (e : ε)
  | call (c : C) (next : R c → Prog C R ε α)

namespace Prog

variable {C : Type} {R : C → Type} {ε α β σ : Type}

def bind : Prog C R ε α → (α → Prog C R ε β) → Prog C R ε β
  | ret a, f => f a
  | throw e, _ => throw e
  | call c next, f => call c fun r => (next r).bind f

instance : Monad (Prog C R ε) where
  pure := ret
  bind := bind

/-- One call, and its answer. -/
def ask (c : C) : Prog C R ε (R c) := call c ret

/-- Run the handler if the program throws. -/
def handle : Prog C R ε α → (ε → Prog C R ε α) → Prog C R ε α
  | ret a, _ => ret a
  | throw e, h => h e
  | call c next, h => call c fun r => (next r).handle h

/-- Clean up if the program throws, and throw the same error again. -/
def onThrow (x : Prog C R ε α) (cleanup : Prog C R ε Unit) : Prog C R ε α :=
  x.handle fun e => cleanup >>= fun _ => throw e

/-- Clean up in any case. -/
def andFinally (x : Prog C R ε α) (cleanup : Prog C R ε Unit) : Prog C R ε α := do
  let a ← x.onThrow cleanup
  cleanup
  pure a

lemma call_bind (c : C) (next : R c → Prog C R ε α) (f : α → Prog C R ε β) :
    call c next >>= f = call c fun r => next r >>= f := rfl

/-! ### Runs -/

/-- With these calls and answers the program gets from the world `s` as far as the second program,
in the world `s'`. -/
inductive Reaches (step : σ → (c : C) → R c → σ → Prop) :
    Prog C R ε α → σ → List ((c : C) × R c) → Prog C R ε α → σ → Prop
  | refl (x : Prog C R ε α) (s : σ) : Reaches step x s [] x s
  | call {c : C} {next : R c → Prog C R ε α} {r : R c} {s s₁ s' : σ} {y : Prog C R ε α}
    {t : List ((c : C) × R c)} (hstep : step s c r s₁) (h : Reaches step (next r) s₁ t y s') :
    Reaches step (call c next) s (⟨c, r⟩ :: t) y s'

/-- The program has returned or thrown. -/
def Ended : Prog C R ε α → Prop
  | ret _ => True
  | throw _ => True
  | call _ _ => False

variable {step : σ → (c : C) → R c → σ → Prop} {x y : Prog C R ε α} {f : α → Prog C R ε β}
  {s s' : σ} {a : α} {e : ε} {t : List ((c : C) × R c)}

/-- What some answer shows, and no call takes away, holds at the end. -/
lemma Reaches.holds_of_mem {K : σ → Prop} {shows : (c : C) × R c → Prop}
    (hshows : ∀ s c r s', step s c r s' → shows ⟨c, r⟩ → K s')
    (hkeep : ∀ s c r s', step s c r s' → K s → K s') (h : x.Reaches step s t y s')
    (ht : K s ∨ ∃ i ∈ t, shows i) : K s' := by
  induction h with
  | refl x s => simpa using ht
  | call hstep _ ih =>
    refine ih ?_
    rcases ht with hK | ⟨i, hi, hshow⟩
    · exact .inl (hkeep _ _ _ _ hstep hK)
    · rcases List.mem_cons.mp hi with rfl | hi
      · exact .inl (hshows _ _ _ _ hstep hshow)
      · exact .inr ⟨i, hi, hshow⟩

/-- The calls may be answered so in another world too, if all that is asked for there is true of
the answers. -/
lemma Reaches.answered {P : (c : C) × R c → Prop} (h : x.Reaches step s t y s')
    (ht : ∀ i ∈ t, P i) : x.Reaches (fun (_ : Unit) c r _ => P ⟨c, r⟩) () t y () := by
  induction h with
  | refl x s => exact .refl _ _
  | call _ _ ih =>
    rw [List.forall_mem_cons] at ht
    exact .call ht.1 (ih ht.2)

/-! ### Postconditions -/

/-- However the calls are answered: `I` holds of every world on the way, `Q` when the program
returns, and `E` when it throws. -/
def Ensures (step : σ → (c : C) → R c → σ → Prop) (I : σ → Prop) :
    Prog C R ε α → σ → (α → σ → Prop) → (ε → σ → Prop) → Prop
  | ret a, s, Q, _ => I s ∧ Q a s
  | throw e, s, _, E => I s ∧ E e s
  | call c next, s, Q, E => I s ∧ ∀ r s', step s c r s' → (next r).Ensures step I s' Q E

variable {I : σ → Prop} {Q Q' : α → σ → Prop} {E E' : ε → σ → Prop}

@[simp] lemma ensures_pure : (pure a : Prog C R ε α).Ensures step I s Q E ↔ I s ∧ Q a s := Iff.rfl

@[simp] lemma ensures_throw : (throw e : Prog C R ε α).Ensures step I s Q E ↔ I s ∧ E e s := Iff.rfl

lemma ensures_call {c : C} {next : R c → Prog C R ε α} :
    (call c next).Ensures step I s Q E ↔
      I s ∧ ∀ r s', step s c r s' → (next r).Ensures step I s' Q E := Iff.rfl

lemma Ensures.here (h : x.Ensures step I s Q E) : I s := by
  cases x with
  | ret a => exact h.1
  | throw e => exact h.1
  | call c next => exact h.1

lemma Ensures.mono (h : x.Ensures step I s Q E) (hQ : ∀ a s', Q a s' → Q' a s')
    (hE : ∀ e s', E e s' → E' e s') : x.Ensures step I s Q' E' := by
  induction x generalizing s with
  | ret a => exact ⟨h.1, hQ a s h.2⟩
  | throw e => exact ⟨h.1, hE e s h.2⟩
  | call c next ih => exact ⟨h.1, fun r s' hstep => ih r (h.2 r s' hstep)⟩

/-- What holds of every world on the way holds of the last one. -/
lemma Ensures.strengthen (h : x.Ensures step I s Q E) :
    x.Ensures step I s (fun a s' => I s' ∧ Q a s') fun e s' => I s' ∧ E e s' := by
  induction x generalizing s with
  | ret a => exact ⟨h.1, h⟩
  | throw e => exact ⟨h.1, h⟩
  | call c next ih => exact ⟨h.1, fun r s' hstep => ih r (h.2 r s' hstep)⟩

lemma Ensures.weaken {I' : σ → Prop} (h : x.Ensures step I s Q E) (hI : ∀ s, I s → I' s) :
    x.Ensures step I' s Q E := by
  induction x generalizing s with
  | ret a => exact ⟨hI s h.1, h.2⟩
  | throw e => exact ⟨hI s h.1, h.2⟩
  | call c next ih => exact ⟨hI s h.1, fun r s' hstep => ih r (h.2 r s' hstep)⟩

lemma ensures_bind {Q : β → σ → Prop} :
    (x >>= f).Ensures step I s Q E ↔
      x.Ensures step I s (fun a s' => (f a).Ensures step I s' Q E) E := by
  induction x generalizing s with
  | ret a => exact ⟨fun h => ⟨h.here, h⟩, fun h => h.2⟩
  | throw e => exact Iff.rfl
  | call c next ih =>
    rw [call_bind, ensures_call, ensures_call]
    exact and_congr_right fun _ => forall₃_congr fun r _ _ => ih r

lemma ensures_handle {h : ε → Prog C R ε α} :
    (x.handle h).Ensures step I s Q E ↔
      x.Ensures step I s Q fun e s' => (h e).Ensures step I s' Q E := by
  induction x generalizing s with
  | ret a => exact Iff.rfl
  | throw e => exact ⟨fun h => ⟨h.here, h⟩, fun h => h.2⟩
  | call c next ih =>
    rw [handle, ensures_call, ensures_call]
    exact and_congr_right fun _ => forall₃_congr fun r _ _ => ih r

lemma ensures_onThrow {cleanup : Prog C R ε Unit} :
    (x.onThrow cleanup).Ensures step I s Q E ↔
      x.Ensures step I s Q fun e s' =>
        cleanup.Ensures step I s' (fun _ s' => I s' ∧ E e s') E := by
  simp only [onThrow, ensures_handle, ensures_bind, ensures_throw]

lemma ensures_andFinally {cleanup : Prog C R ε Unit} :
    (x.andFinally cleanup).Ensures step I s Q E ↔
      x.Ensures step I s
        (fun a s' => cleanup.Ensures step I s' (fun _ s' => I s' ∧ Q a s') E)
        fun e s' => cleanup.Ensures step I s' (fun _ s' => I s' ∧ E e s') E := by
  simp only [andFinally, ensures_bind, ensures_onThrow, ensures_pure]

/-- What a program ensures holds wherever it gets to, and is ensured by what is left of it. By
induction on the calls. -/
theorem Ensures.reaches (h : x.Ensures step I s Q E) (hrun : x.Reaches step s t y s') :
    y.Ensures step I s' Q E := by
  induction hrun with
  | refl x s => exact h
  | call hstep _ ih => exact ih (h.2 _ _ hstep)

/-! ### The calls of a run -/

section Record

/-- A world that does nothing but write down the calls. They may be answered in any way. -/
def record (t : List ((c : C) × R c)) (c : C) (r : R c) (t' : List ((c : C) × R c)) : Prop :=
  t' = t ++ [⟨c, r⟩]

lemma Reaches.recorded (h : x.Reaches step s t y s') (t₀ : List ((c : C) × R c)) :
    x.Reaches record t₀ t y (t₀ ++ t) := by
  induction h generalizing t₀ with
  | refl x s =>
    rw [List.append_nil]
    exact .refl _ _
  | @call c next r s s₁ s' y t hstep _ ih =>
    have hrest := ih (t₀ ++ [⟨c, r⟩])
    rw [List.append_assoc, List.singleton_append] at hrest
    exact .call rfl hrest

lemma Reaches.record_eq {t₀ t' : List ((c : C) × R c)} (h : x.Reaches record t₀ t y t') :
    t' = t₀ ++ t := by
  induction h with
  | refl x t₀ => rw [List.append_nil]
  | call hstep _ ih =>
    obtain rfl := hstep
    rw [ih, List.append_assoc, List.singleton_append]

variable {I I' : List ((c : C) × R c) → Prop} {Q Q' : α → List ((c : C) × R c) → Prop}
  {E E' : ε → List ((c : C) × R c) → Prop} {t₀ t' : List ((c : C) × R c)}

/-- What a program ensures of the calls that are written down is true of those of any run. -/
theorem Ensures.calls (h : x.Ensures record I [] Q E) (hrun : x.Reaches step s t y s') :
    y.Ensures record I t Q E := h.reaches (hrun.recorded [])

/-- Calls that were answered before stand in front of those of the program. -/
lemma Ensures.after (h : x.Ensures record I t Q E) (ht : t' = t₀ ++ t)
    (hI : ∀ t, I t → I' (t₀ ++ t)) (hQ : ∀ a t, Q a t → Q' a (t₀ ++ t))
    (hE : ∀ e t, E e t → E' e (t₀ ++ t)) : x.Ensures record I' t' Q' E' := by
  subst ht
  induction x generalizing t with
  | ret a => exact ⟨hI t h.1, hQ a t h.2⟩
  | throw e => exact ⟨hI t h.1, hE e t h.2⟩
  | call c next ih =>
    refine ⟨hI t h.1, ?_⟩
    rintro r _ rfl
    rw [List.append_assoc]
    exact ih r (h.2 r _ rfl)

end Record

/-! ### Answers that let a program return -/

/-- With some answers the program returns, and `Q` holds then. -/
def MayReturn (step : σ → (c : C) → R c → σ → Prop) (x : Prog C R ε α) (s : σ)
    (Q : α → σ → Prop) : Prop :=
  ∃ t a s', x.Reaches step s t (ret a) s' ∧ Q a s'

lemma mayReturn_pure (h : Q a s) : (pure a : Prog C R ε α).MayReturn step s Q :=
  ⟨[], a, s, .refl _ _, h⟩

lemma mayReturn_call {c : C} {r : R c} {s₁ : σ} {next : R c → Prog C R ε α}
    (hstep : step s c r s₁) (h : (next r).MayReturn step s₁ Q) :
    (call c next).MayReturn step s Q := by
  obtain ⟨t, a, s', hrun, hQ⟩ := h
  exact ⟨_, a, s', .call hstep hrun, hQ⟩

lemma MayReturn.mono (h : x.MayReturn step s Q) (hQ : ∀ a s', Q a s' → Q' a s') :
    x.MayReturn step s Q' := by
  obtain ⟨t, a, s', hrun, ha⟩ := h
  exact ⟨t, a, s', hrun, hQ a s' ha⟩

lemma MayReturn.bind {Q : β → σ → Prop}
    (h : x.MayReturn step s fun a s' => (f a).MayReturn step s' Q) :
    (x >>= f).MayReturn step s Q := by
  obtain ⟨t, a, s', hrun, hf⟩ := h
  generalize hy : (ret a : Prog C R ε α) = y at hrun
  induction hrun with
  | refl x s =>
    subst hy
    exact hf
  | call hstep _ ih => exact mayReturn_call hstep (ih hf hy)

lemma MayReturn.onThrow (h : x.MayReturn step s Q) (cleanup : Prog C R ε Unit) :
    (x.onThrow cleanup).MayReturn step s Q := by
  obtain ⟨t, a, s', hrun, hQ⟩ := h
  generalize hy : (ret a : Prog C R ε α) = y at hrun
  induction hrun with
  | refl x s =>
    subst hy
    exact mayReturn_pure hQ
  | call hstep _ ih => exact mayReturn_call hstep (ih hQ hy)

/-! ### Failing calls -/

/-- The program can only throw from here on. -/
def NeverReturns : Prog C R ε α → Prop
  | ret _ => False
  | throw _ => True
  | call _ next => ∀ r, (next r).NeverReturns

/-- The program throws when one of its calls fails, and only then. -/
def FailStop (failed : (c : C) × R c → Prop) : Prog C R ε α → Prop
  | ret _ => True
  | throw _ => False
  | call c next => ∀ r,
    (failed ⟨c, r⟩ → (next r).NeverReturns) ∧ (¬failed ⟨c, r⟩ → (next r).FailStop failed)

variable {failed : (c : C) × R c → Prop}

lemma NeverReturns.bind (h : x.NeverReturns) (f : α → Prog C R ε β) :
    (x >>= f).NeverReturns := by
  induction x with
  | ret a => exact h.elim
  | throw e => trivial
  | call c next ih => exact fun r => ih r (h r)

lemma NeverReturns.bind_right (x : Prog C R ε α) (h : ∀ a, (f a).NeverReturns) :
    (x >>= f).NeverReturns := by
  induction x with
  | ret a => exact h a
  | throw e => trivial
  | call c next ih => exact ih

lemma NeverReturns.onThrow (h : x.NeverReturns) (cleanup : Prog C R ε Unit) :
    (x.onThrow cleanup).NeverReturns := by
  induction x with
  | ret a => exact h.elim
  | throw e => exact NeverReturns.bind_right cleanup fun _ => trivial
  | call c next ih => exact fun r => ih r (h r)

lemma FailStop.bind (h : x.FailStop failed) (hf : ∀ a, (f a).FailStop failed) :
    (x >>= f).FailStop failed := by
  induction x with
  | ret a => exact hf a
  | throw e => exact h.elim
  | call c next ih => exact fun r => ⟨fun hr => ((h r).1 hr).bind f, fun hr => ih r ((h r).2 hr)⟩

lemma FailStop.onThrow (h : x.FailStop failed) (cleanup : Prog C R ε Unit) :
    (x.onThrow cleanup).FailStop failed := by
  induction x with
  | ret a => trivial
  | throw e => exact h.elim
  | call c next ih =>
    exact fun r => ⟨fun hr => ((h r).1 hr).onThrow cleanup, fun hr => ih r ((h r).2 hr)⟩

lemma NeverReturns.reaches (h : x.NeverReturns) (hrun : x.Reaches step s t y s') :
    y.NeverReturns := by
  induction hrun with
  | refl x s => exact h
  | call _ _ ih => exact ih (h _)

lemma FailStop.of_returned (h : x.FailStop failed) (hrun : x.Reaches step s t (ret a) s') :
    ∀ i ∈ t, ¬failed i := by
  generalize hy : (ret a : Prog C R ε α) = y at hrun
  induction hrun with
  | refl x s => simp
  | @call c next r s s₁ s' y t hstep hrest ih =>
    subst hy
    by_cases hr : failed ⟨c, r⟩
    · exact (((h r).1 hr).reaches hrest).elim
    · simpa [hr] using ih ((h r).2 hr) rfl

lemma FailStop.of_threw (h : x.FailStop failed) (hrun : x.Reaches step s t (throw e) s') :
    ∃ i ∈ t, failed i := by
  generalize hy : (throw e : Prog C R ε α) = y at hrun
  induction hrun with
  | refl x s =>
    subst hy
    exact h.elim
  | @call c next r s s₁ s' y t hstep hrest ih =>
    by_cases hr : failed ⟨c, r⟩
    · exact ⟨_, List.mem_cons_self, hr⟩
    · obtain ⟨i, hi, hfailed⟩ := ih ((h r).2 hr) hy
      exact ⟨i, List.mem_cons_of_mem _ hi, hfailed⟩

end Prog
