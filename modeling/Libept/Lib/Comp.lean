import Mathlib.Order.Basic
import Mathlib.Tactic.Common

/-!
# Computations with loops

A `Comp α` is a computation that ends with a value of `α` or loops for ever. It is run with a
bound on the number of turns each of its loops may take; a run whose bound is too small gives
nothing, and raising the bound never changes a result that was already there.

`Returns` forgets the bound. The rules for `pure`, `>>=` and `loop` are stated with it, so that a
program is evaluated without ever naming a bound.
-/

universe u

/-- A computation, run with a bound on the turns of each loop. -/
structure Comp (α : Type u) where
  /-- The result, or `none` when some loop needs more turns. -/
  run : ℕ → Option α
  mono : ∀ {m n : ℕ} {a : α}, m ≤ n → run m = some a → run n = some a

namespace Comp

variable {α β σ : Type u}

instance : Monad Comp where
  pure a := ⟨fun _ => some a, fun _ h => h⟩
  bind x f := ⟨fun n => (x.run n).bind fun a => (f a).run n, by
    intro m n b hmn h
    obtain ⟨a, ha, hb⟩ := Option.bind_eq_some_iff.mp h
    exact Option.bind_eq_some_iff.mpr ⟨a, x.mono hmn ha, (f a).mono hmn hb⟩⟩

@[simp] lemma run_pure (a : α) (n : ℕ) : (pure a : Comp α).run n = some a := rfl

@[simp] lemma run_bind (x : Comp α) (f : α → Comp β) (n : ℕ) :
    (x >>= f).run n = (x.run n).bind fun a => (f a).run n := rfl

@[ext] lemma ext {x y : Comp α} (h : ∀ n, x.run n = y.run n) : x = y := by
  cases x
  cases y
  congr
  exact funext h

instance : LawfulMonad Comp := LawfulMonad.mk' _
  (fun x => ext fun n => Option.bind_fun_some (x.run n))
  (fun _ _ => rfl)
  (fun x _ _ => ext fun n => Option.bind_assoc (x.run n) _ _)

/-- At most `n` turns of a loop, each turn run with the given bound. A turn either goes on with
the next state or leaves the loop with a result. -/
def turns (body : σ → Comp (σ ⊕ α)) (bound : ℕ) : ℕ → σ → Option α
  | 0, _ => none
  | n + 1, s =>
    match (body s).run bound with
    | none => none
    | some (.inl s') => turns body bound n s'
    | some (.inr a) => some a

lemma turns_mono (body : σ → Comp (σ ⊕ α)) {b b' n n' : ℕ} {s : σ} {a : α} (hb : b ≤ b')
    (hn : n ≤ n') (h : turns body b n s = some a) : turns body b' n' s = some a := by
  induction n generalizing n' s with
  | zero => simp [turns] at h
  | succ n ih =>
    obtain ⟨k, rfl⟩ : ∃ k, n' = k + 1 := ⟨n' - 1, by omega⟩
    simp only [turns] at h ⊢
    cases hs : (body s).run b with
    | none => simp [hs] at h
    | some r =>
      rw [(body s).mono hb hs]
      cases r with
      | inl s' => exact ih (by omega) (by simpa [hs] using h)
      | inr a' => simpa [hs] using h

/-- Repeat `body` until it leaves the loop. -/
def loop (body : σ → Comp (σ ⊕ α)) (s : σ) : Comp α :=
  ⟨fun n => turns body n n s, fun hmn h => turns_mono body hmn hmn h⟩

/-! ### Results -/

/-- The computation ends with `a`. -/
def Returns (x : Comp α) (a : α) : Prop := ∃ n, x.run n = some a

/-- The computation ends. -/
def Halts (x : Comp α) : Prop := ∃ a, x.Returns a

lemma Returns.unique {x : Comp α} {a b : α} (ha : x.Returns a) (hb : x.Returns b) : a = b := by
  obtain ⟨m, hm⟩ := ha
  obtain ⟨n, hn⟩ := hb
  have h₁ := x.mono (Nat.le_max_left m n) hm
  have h₂ := x.mono (Nat.le_max_right m n) hn
  exact Option.some.inj (h₁.symm.trans h₂)

@[simp] lemma returns_pure {a b : α} : (pure a : Comp α).Returns b ↔ a = b := by
  simp [Returns]

lemma returns_of_eq_pure {x : Comp α} {a : α} (h : x = pure a) : x.Returns a := by
  rw [h, returns_pure]

lemma returns_bind {x : Comp α} {f : α → Comp β} {b : β} :
    (x >>= f).Returns b ↔ ∃ a, x.Returns a ∧ (f a).Returns b := by
  constructor
  · rintro ⟨n, h⟩
    obtain ⟨a, ha, hb⟩ := Option.bind_eq_some_iff.mp h
    exact ⟨a, ⟨n, ha⟩, ⟨n, hb⟩⟩
  · rintro ⟨a, ⟨m, hm⟩, ⟨n, hn⟩⟩
    refine ⟨max m n, Option.bind_eq_some_iff.mpr ⟨a, ?_, ?_⟩⟩
    · exact x.mono (Nat.le_max_left m n) hm
    · exact (f a).mono (Nat.le_max_right m n) hn

/-- One turn of a loop: it is left, or the loop is run again from the next state. -/
lemma returns_loop {body : σ → Comp (σ ⊕ α)} {s : σ} {a : α} :
    (loop body s).Returns a ↔
      (body s).Returns (.inr a) ∨ ∃ s', (body s).Returns (.inl s') ∧ (loop body s').Returns a := by
  constructor
  · rintro ⟨n, h⟩
    cases n with
    | zero => simp [loop, turns] at h
    | succ n =>
      simp only [loop, turns] at h
      cases hs : (body s).run (n + 1) with
      | none => simp [hs] at h
      | some r =>
        cases r with
        | inl s' =>
          refine .inr ⟨s', ⟨_, hs⟩, n + 1, ?_⟩
          exact turns_mono body (Nat.le_refl _) n.le_succ (by simpa [hs] using h)
        | inr a' =>
          obtain rfl : a' = a := by simpa [hs] using h
          exact .inl ⟨_, hs⟩
  · rintro (⟨n, h⟩ | ⟨s', ⟨m, hm⟩, n, hn⟩)
    · refine ⟨n + 1, ?_⟩
      simp [loop, turns, (body s).mono n.le_succ h]
    · refine ⟨max m n + 1, ?_⟩
      simp only [loop, turns, (body s).mono (by omega : m ≤ max m n + 1) hm]
      exact turns_mono body (by omega) (by omega) hn

/-- Induction on the turns a loop took before it was left. -/
lemma loop_induction {body : σ → Comp (σ ⊕ α)} {P : σ → α → Prop}
    (stop : ∀ s a, (body s).Returns (.inr a) → P s a)
    (next : ∀ s s' a, (body s).Returns (.inl s') → P s' a → P s a)
    {s : σ} {a : α} (h : (loop body s).Returns a) : P s a := by
  obtain ⟨n, h⟩ := h
  have key : ∀ k s, turns body n k s = some a → P s a := by
    intro k
    induction k with
    | zero => simp [turns]
    | succ k ih =>
      intro s hs
      simp only [turns] at hs
      cases hr : (body s).run n with
      | none => simp [hr] at hs
      | some r =>
        cases r with
        | inl s' => exact next s s' a ⟨n, hr⟩ (ih s' (by simpa [hr] using hs))
        | inr a' =>
          obtain rfl : a' = a := by simpa [hr] using hs
          exact stop s a' ⟨n, hr⟩
  exact key n s h

/-! ### Outcomes -/

/-- The computation ends with the given value, or never if there is none. -/
def Denotes (x : Comp α) (o : Option α) : Prop := ∀ a, x.Returns a ↔ o = some a

lemma Returns.denotes {x : Comp α} {a : α} (h : x.Returns a) : x.Denotes (some a) := by
  intro b
  constructor
  · intro hb
    rw [h.unique hb]
  · intro hb
    rwa [← Option.some.inj hb]

lemma Denotes.halts_iff {x : Comp α} {o : Option α} (h : x.Denotes o) : x.Halts ↔ o ≠ none := by
  simp only [Halts, h _]
  exact Option.isSome_iff_exists.symm.trans Option.isSome_iff_ne_none

/-! ### Computations with the same outcome -/

/-- Both computations end with the same value, or neither ends. -/
def Same (x y : Comp α) : Prop := ∀ a, x.Returns a ↔ y.Returns a

lemma Same.refl (x : Comp α) : x.Same x := fun _ => Iff.rfl

lemma Same.trans {x y z : Comp α} (hxy : x.Same y) (hyz : y.Same z) : x.Same z :=
  fun a => (hxy a).trans (hyz a)

lemma Same.denotes {x y : Comp α} {o : Option α} (h : x.Same y) (hy : y.Denotes o) : x.Denotes o :=
  fun a => (h a).trans (hy a)

lemma Same.bind {x y : Comp α} (h : x.Same y) (f : α → Comp β) : (x >>= f).Same (y >>= f) := by
  intro b
  simp only [returns_bind, h _]

lemma Same.bind_right (x : Comp α) {f g : α → Comp β} (h : ∀ a, (f a).Same (g a)) :
    (x >>= f).Same (x >>= g) := by
  intro b
  simp only [returns_bind, h _ b]

lemma Returns.bind {x : Comp α} {a : α} (h : x.Returns a) (f : α → Comp β) :
    (x >>= f).Same (f a) := by
  intro b
  rw [returns_bind]
  constructor
  · rintro ⟨a', ha', hb⟩
    rwa [h.unique ha']
  · intro hb
    exact ⟨a, h, hb⟩

lemma Denotes.bind_none {x : Comp α} {f : α → Comp β} (hx : x.Denotes none) :
    (x >>= f).Denotes none := by
  intro b
  simp [returns_bind, hx _]

/-! ### Turns of a loop -/

/-- A loop is its first turn, and the loop again if this turn goes on. -/
lemma loop_same (body : σ → Comp (σ ⊕ α)) (s : σ) :
    (loop body s).Same (body s >>= Sum.elim (loop body) pure) := by
  intro a
  rw [returns_loop, returns_bind]
  constructor
  · rintro (h | ⟨s', hs', h⟩)
    · exact ⟨_, h, returns_pure.mpr rfl⟩
    · exact ⟨_, hs', h⟩
  · rintro ⟨s' | b, hr, h⟩
    · exact .inr ⟨s', hr, h⟩
    · exact .inl (returns_pure.mp h ▸ hr)

lemma loop_next {body : σ → Comp (σ ⊕ α)} {s s' : σ} (h : (body s).Returns (.inl s')) :
    (loop body s).Same (loop body s') :=
  (loop_same body s).trans (h.bind _)

lemma loop_stop {body : σ → Comp (σ ⊕ α)} {s : σ} {a : α} (hs : (body s).Returns (.inr a)) :
    (loop body s).Returns a :=
  returns_loop.mpr (.inl hs)

/-- A loop whose turns keep an invariant under which they never leave it runs for ever. -/
lemma denotes_loop_forever {body : σ → Comp (σ ⊕ α)} (I : σ → Prop)
    (step : ∀ s, I s → ∃ s', (body s).Returns (.inl s') ∧ I s') {s : σ} (hs : I s) :
    (loop body s).Denotes none := by
  intro a
  simp only [reduceCtorEq, iff_false]
  intro h
  refine loop_induction (P := fun s _ => ¬ I s) ?_ ?_ h hs
  · intro s a hr hI
    obtain ⟨s', hs', -⟩ := step s hI
    cases hs'.unique hr
  · intro s s₁ a hr ih hI
    obtain ⟨s', hs', hI'⟩ := step s hI
    cases hs'.unique hr
    exact ih hI'

end Comp
