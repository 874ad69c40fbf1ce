import Libept.Lib.Prog
import Mathlib.Logic.Function.Basic

/-!
# Programs on one world

Two programs, or any number of them, make their calls on one world, in any order. Each of them is
proved on its own: `Safe` says what a program does while the world changes between its calls as far
as `rely` allows it, if each of its own steps is one that `guar` allows. When each program
guarantees what the others rely on, all are safe in every order of their calls.
-/

namespace Prog

variable {C C' : Type} {R : C → Type} {R' : C' → Type} {ε ε' α α' β σ τ : Type}

/-- The calls of two programs in turn, in any order. -/
inductive Interleaves (step : σ → (c : C) → R c → σ → Prop)
    (step' : σ → (c : C') → R' c → σ → Prop) : Prog C R ε α → Prog C' R' ε' α' → σ →
      Prog C R ε α → Prog C' R' ε' α' → σ → Prop
  | refl (x : Prog C R ε α) (y : Prog C' R' ε' α') (s : σ) : Interleaves step step' x y s x y s
  | left {c : C} {next : R c → Prog C R ε α} (r : R c) {s : σ} (s₁ : σ) {s' : σ}
    {x' : Prog C R ε α} {y y' : Prog C' R' ε' α'} (hstep : step s c r s₁)
    (h : Interleaves step step' (next r) y s₁ x' y' s') :
    Interleaves step step' (call c next) y s x' y' s'
  | right {c : C'} {next : R' c → Prog C' R' ε' α'} (r : R' c) {s : σ} (s₁ : σ) {s' : σ}
    {x x' : Prog C R ε α} {y' : Prog C' R' ε' α'} (hstep : step' s c r s₁)
    (h : Interleaves step step' x (next r) s₁ x' y' s') :
    Interleaves step step' x (call c next) s x' y' s'

/-- The calls of any number of programs, in any order. Each program may see the world in its own
way. -/
inductive Steps {ι : Type} [DecidableEq ι] (step : ι → σ → (c : C) → R c → σ → Prop) :
    (ι → Prog C R ε α) → σ → (ι → Prog C R ε α) → σ → Prop
  | refl (xs : ι → Prog C R ε α) (s : σ) : Steps step xs s xs s
  | call (i : ι) {xs ys : ι → Prog C R ε α} {c : C} {next : R c → Prog C R ε α} (r : R c) {s : σ}
    (s₁ : σ) {s' : σ} (hi : xs i = call c next) (hstep : step i s c r s₁)
    (h : Steps step (Function.update xs i (next r)) s₁ ys s') : Steps step xs s ys s'

/-- What follows the second program waits for it. -/
lemma Interleaves.bind_right {step : σ → (c : C) → R c → σ → Prop}
    {step' : σ → (c : C') → R' c → σ → Prop} {x x' : Prog C R ε α} {y y' : Prog C' R' ε' α'}
    {s s' : σ} (h : Interleaves step step' x y s x' y' s') (f : α' → Prog C' R' ε' β) :
    Interleaves step step' x (y >>= f) s x' (y' >>= f) s' := by
  induction h with
  | refl => exact .refl _ _ _
  | left r s₁ hstep _ ih => exact .left r s₁ hstep ih
  | right r s₁ hstep _ ih => exact .right r s₁ hstep ih

/-- While others change the world as `rely` says, each step of the program is one of `guar`, `Q`
holds when it returns and `E` when it throws, and they go on holding. -/
def Safe (rely : σ → σ → Prop) (step : σ → (c : C) → R c → σ → Prop) (guar : σ → σ → Prop) :
    Prog C R ε α → σ → (α → σ → Prop) → (ε → σ → Prop) → Prop
  | ret a, s, Q, _ => ∀ s₁, rely s s₁ → Q a s₁
  | throw e, s, _, E => ∀ s₁, rely s s₁ → E e s₁
  | call c next, s, Q, E => ∀ s₁, rely s s₁ → ∀ r s', step s₁ c r s' →
    guar s₁ s' ∧ (next r).Safe rely step guar s' Q E

/-- What may be done in one step may be done in many. -/
class IsRely (rely : σ → σ → Prop) : Prop where
  refl : ∀ s, rely s s
  trans : ∀ s s₁ s₂, rely s s₁ → rely s₁ s₂ → rely s s₂

variable {rely rely' guar guar' : σ → σ → Prop} {step : σ → (c : C) → R c → σ → Prop}
  {step' : σ → (c : C') → R' c → σ → Prop} {x : Prog C R ε α} {f : α → Prog C R ε β} {s s₁ s' : σ}
  {Q Q' : α → σ → Prop} {E E' : ε → σ → Prop}

lemma Safe.stable [hrely : IsRely rely] (h : x.Safe rely step guar s Q E) (h₁ : rely s s₁) :
    x.Safe rely step guar s₁ Q E := by
  cases x with
  | ret a => exact fun s₂ h₂ => h s₂ (hrely.trans _ _ _ h₁ h₂)
  | throw e => exact fun s₂ h₂ => h s₂ (hrely.trans _ _ _ h₁ h₂)
  | call c next => exact fun s₂ h₂ => h s₂ (hrely.trans _ _ _ h₁ h₂)

lemma Safe.mono (h : x.Safe rely step guar s Q E) (hQ : ∀ a s', Q a s' → Q' a s')
    (hE : ∀ e s', E e s' → E' e s') : x.Safe rely step guar s Q' E' := by
  induction x generalizing s with
  | ret a => exact fun s₁ h₁ => hQ _ _ (h s₁ h₁)
  | throw e => exact fun s₁ h₁ => hE _ _ (h s₁ h₁)
  | call c next ih =>
    intro s₁ h₁ r s' hstep
    obtain ⟨hguar, hnext⟩ := h s₁ h₁ r s' hstep
    exact ⟨hguar, ih r hnext⟩

/-- What is true of each step of any program needs no proof for the program. -/
lemma safe_of_step (hstep : ∀ s c r s', step s c r s' → guar s s') (x : Prog C R ε α) (s : σ) :
    x.Safe (fun _ _ => True) step guar s (fun _ _ => True) fun _ _ => True := by
  induction x generalizing s with
  | ret => exact fun _ _ => trivial
  | throw => exact fun _ _ => trivial
  | call c next ih => exact fun s₁ _ r s' h => ⟨hstep _ _ _ _ h, ih r s'⟩

instance : IsRely (fun _ _ : σ => True) where
  refl _ := trivial
  trans _ _ _ _ _ := trivial

/-- When its own steps are of the kind that it relies on, only such have been made at the end. -/
lemma Safe.relied [hrely : IsRely rely] (hguar : ∀ s s', guar s s' → rely s s')
    (h : x.Safe rely step guar s Q E) :
    x.Safe rely step guar s (fun a s' => rely s s' ∧ Q a s') fun e s' => rely s s' ∧ E e s' := by
  induction x generalizing s with
  | ret a => exact fun s₁ h₁ => ⟨h₁, h s₁ h₁⟩
  | throw e => exact fun s₁ h₁ => ⟨h₁, h s₁ h₁⟩
  | call c next ih =>
    intro s₁ h₁ r s' hstep
    obtain ⟨hg, hnext⟩ := h s₁ h₁ r s' hstep
    have hall := hrely.trans _ _ _ h₁ (hguar _ _ hg)
    exact ⟨hg, (ih r hnext).mono (fun _ _ => And.imp_left (hrely.trans _ _ _ hall))
      fun _ _ => And.imp_left (hrely.trans _ _ _ hall)⟩

lemma Safe.bind [hrely : IsRely rely] {Q : β → σ → Prop}
    (h : x.Safe rely step guar s (fun a s' => (f a).Safe rely step guar s' Q E) E) :
    (x >>= f).Safe rely step guar s Q E := by
  induction x generalizing s with
  | ret a => exact h s (hrely.refl s)
  | throw e => exact h
  | call c next ih =>
    intro s₁ h₁ r s' hstep
    obtain ⟨hguar, hnext⟩ := h s₁ h₁ r s' hstep
    exact ⟨hguar, ih r hnext⟩

lemma Safe.handle [hrely : IsRely rely] {handler : ε → Prog C R ε α}
    (h : x.Safe rely step guar s Q fun e s' => (handler e).Safe rely step guar s' Q E) :
    (x.handle handler).Safe rely step guar s Q E := by
  induction x generalizing s with
  | ret a => exact h
  | throw e => exact h s (hrely.refl s)
  | call c next ih =>
    intro s₁ h₁ r s' hstep
    obtain ⟨hguar, hnext⟩ := h s₁ h₁ r s' hstep
    exact ⟨hguar, ih r hnext⟩

lemma Safe.onThrow [hrely : IsRely rely] {cleanup : Prog C R ε Unit}
    (h : x.Safe rely step guar s Q fun e s' =>
      cleanup.Safe rely step guar s' (fun _ s' => ∀ s₁, rely s' s₁ → E e s₁) E) :
    (x.onThrow cleanup).Safe rely step guar s Q E :=
  Safe.handle (h.mono (fun _ _ h => h) fun _ _ h =>
    Safe.bind (h.mono (fun _ _ h => h) fun _ _ h => h))

lemma Safe.andFinally [hrely : IsRely rely] {cleanup : Prog C R ε Unit}
    (h : x.Safe rely step guar s
      (fun a s' => cleanup.Safe rely step guar s' (fun _ s' => ∀ s₁, rely s' s₁ → Q a s₁) E)
      fun e s' => cleanup.Safe rely step guar s' (fun _ s' => ∀ s₁, rely s' s₁ → E e s₁) E) :
    (x.andFinally cleanup).Safe rely step guar s Q E :=
  Safe.bind ((Safe.onThrow h).mono (fun _ _ h => Safe.bind (h.mono (fun _ _ h => h) fun _ _ h => h))
    fun _ _ h => h)

/-- A program that is safe as long as it runs alone, on the part of the world that it sees, is safe
if the others leave this part alone. By induction on the calls. -/
lemma Ensures.safe {view : τ → σ} {rely guar : τ → τ → Prop} {I : σ → Prop} {J : τ → Prop}
    {stepAll : τ → (c : C) → R c → τ → Prop} {t : τ} (h : x.Ensures step I (view t) Q E) (hJ : J t)
    (hrely : ∀ t t₁, J t → rely t t₁ → view t₁ = view t ∧ J t₁)
    (hstep : ∀ t c r t', J t → I (view t) → stepAll t c r t' →
      step (view t) c r (view t') ∧ (I (view t') → guar t t' ∧ J t')) :
    x.Safe rely stepAll guar t (fun a t' => Q a (view t') ∧ J t')
      fun e t' => E e (view t') ∧ J t' := by
  induction x generalizing t with
  | ret a =>
    intro t₁ h₁
    obtain ⟨hview, hJ₁⟩ := hrely t t₁ hJ h₁
    exact ⟨hview ▸ h.2, hJ₁⟩
  | throw e =>
    intro t₁ h₁
    obtain ⟨hview, hJ₁⟩ := hrely t t₁ hJ h₁
    exact ⟨hview ▸ h.2, hJ₁⟩
  | call c next ih =>
    intro t₁ h₁ r t' hcall
    obtain ⟨hview, hJ₁⟩ := hrely t t₁ hJ h₁
    rw [← hview] at h
    obtain ⟨hcall', hnext⟩ := hstep t₁ c r t' hJ₁ h.1 hcall
    have hrest := h.2 r _ hcall'
    obtain ⟨hguar, hJ'⟩ := hnext hrest.here
    exact ⟨hguar, ih r hrest hJ'⟩

/-- Two programs that guarantee what the other relies on. By induction on the calls of both. -/
theorem Interleaves.safe [hrely : IsRely rely] [hrely' : IsRely rely'] {x' : Prog C R ε α}
    {y y' : Prog C' R' ε' α'} {Q' : α' → σ → Prop} {E' : ε' → σ → Prop}
    (hguar : ∀ s s', guar s s' → rely' s s') (hguar' : ∀ s s', guar' s s' → rely s s')
    (h : Interleaves step step' x y s x' y' s') (hx : x.Safe rely step guar s Q E)
    (hy : y.Safe rely' step' guar' s Q' E') :
    x'.Safe rely step guar s' Q E ∧ y'.Safe rely' step' guar' s' Q' E' := by
  induction h with
  | refl => exact ⟨hx, hy⟩
  | left r s₁ hstep _ ih =>
    obtain ⟨hg, hnext⟩ := hx _ (hrely.refl _) _ _ hstep
    exact ih hnext (hy.stable (hguar _ _ hg))
  | right r s₁ hstep _ ih =>
    obtain ⟨hg, hnext⟩ := hy _ (hrely'.refl _) _ _ hstep
    exact ih (hx.stable (hguar' _ _ hg)) hnext

/-- Programs each of which guarantees what the others rely on. By induction on all the calls. -/
theorem Steps.safe {ι : Type} [DecidableEq ι] {step : ι → σ → (c : C) → R c → σ → Prop}
    {xs ys : ι → Prog C R ε α} {Q : ι → α → σ → Prop} {E : ι → ε → σ → Prop}
    [hrely : IsRely rely] (hguar : ∀ s s', guar s s' → rely s s') (h : Steps step xs s ys s')
    (hxs : ∀ i, (xs i).Safe rely (step i) guar s (Q i) (E i)) (i : ι) :
    (ys i).Safe rely (step i) guar s' (Q i) (E i) := by
  induction h with
  | refl => exact hxs i
  | call j r s₁ hj hstep _ ih =>
    have hcall := hxs j
    rw [hj] at hcall
    obtain ⟨hg, hnext⟩ := hcall _ (hrely.refl _) _ _ hstep
    refine ih fun k => ?_
    by_cases hk : k = j
    · subst hk
      rwa [Function.update_self]
    · rw [Function.update_of_ne hk]
      exact (hxs k).stable (hguar _ _ hg)

end Prog
