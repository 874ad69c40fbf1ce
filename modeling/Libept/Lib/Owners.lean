import Mathlib.Logic.Function.Basic
import Mathlib.Tactic.Common

/-!
# Owners of handles

A system gives out handles, each with a name, and objects hold them. The objects own the handles
when each one that is in use is held by exactly one object, under its name, and no other is held:
then a handle is given back once, and all are given back when no object is left. Handles may be
passed on and given back; this goes wrong when an object lets go of a handle that is still in use,
or keeps one that is not.
-/

structure Owners (ι H N : Type*) where
  held : ι → Option (H × N)
  table : H → Option N

namespace Owners

variable {ι H N O : Type*}

structure Owned (s : Owners ι H N) : Prop where
  table_iff : ∀ h n, s.table h = some n ↔ ∃ i, s.held i = some (h, n)
  unique : ∀ i j h m n, s.held i = some (h, m) → s.held j = some (h, n) → i = j

/-- The owners among objects of a type, which tell what they hold. -/
def of (hold : O → Option (H × N)) (objs : ι → Option O) (table : H → Option N) : Owners ι H N :=
  ⟨fun i => (objs i).bind hold, table⟩

variable {s : Owners ι H N} {i j : ι} {h : H} {n : N}

lemma held_of {hold : O → Option (H × N)} {objs : ι → Option O} {table : H → Option N} {o : O}
    (hi : objs i = some o) : (of hold objs table).held i = hold o :=
  (congrArg (·.bind hold) hi).trans rfl

lemma held_of_none {hold : O → Option (H × N)} {objs : ι → Option O} {table : H → Option N}
    (hi : objs i = none) : (of hold objs table).held i = none :=
  (congrArg (·.bind hold) hi).trans rfl

lemma owned_empty : (⟨fun _ => none, fun _ => none⟩ : Owners ι H N).Owned where
  table_iff := by simp
  unique := by simp

/-- The handle of the object is given back, but the object keeps it. -/
def revoke [DecidableEq H] (s : Owners ι H N) (i : ι) : Owners ι H N :=
  ⟨s.held, match s.held i with
    | none => s.table
    | some (h, _) => Function.update s.table h none⟩

lemma of_revoke [DecidableEq H] (hold : O → Option (H × N)) (objs : ι → Option O)
    (table : H → Option N) {o : O} (hi : objs i = some o) (ho : hold o = some (h, n)) :
    of hold objs (Function.update table h none) = (of hold objs table).revoke i := by
  rw [revoke, held_of hi, ho]
  rfl

lemma revoke_of_none [DecidableEq H] (hi : s.held i = none) : s.revoke i = s := by
  rw [revoke, hi]

/-- Nothing may be kept that has been given back. -/
lemma Owned.revoke_iff [DecidableEq H] (hs : s.Owned) : (s.revoke i).Owned ↔ s.held i = none := by
  refine ⟨fun hrevoked => ?_, fun hi => by rwa [revoke_of_none hi]⟩
  by_contra hne
  obtain ⟨⟨h, n⟩, hi⟩ := Option.ne_none_iff_exists'.mp hne
  have htable := (hrevoked.table_iff h n).mpr ⟨i, hi⟩
  simp [revoke, hi] at htable

variable [DecidableEq ι]

/-- What the first object holds is passed on to the second one. -/
def move (s : Owners ι H N) (i j : ι) : Owners ι H N :=
  ⟨Function.update (Function.update s.held j (s.held i)) i none, s.table⟩

/-- The object does not know of its handle any more. -/
def forget (s : Owners ι H N) (i : ι) : Owners ι H N := ⟨Function.update s.held i none, s.table⟩

lemma of_update (hold : O → Option (H × N)) (objs : ι → Option O) (table : H → Option N) (i : ι)
    (o : Option O) :
    of hold (Function.update objs i o) table =
      ⟨Function.update (fun i => (objs i).bind hold) i (o.bind hold), table⟩ := by
  rw [of, Owners.mk.injEq]
  refine ⟨funext fun k => ?_, rfl⟩
  rw [Function.update_apply, Function.update_apply]
  split_ifs <;> rfl

lemma of_forget (hold : O → Option (H × N)) (objs : ι → Option O) (table : H → Option N)
    {o : Option O} (ho : o.bind hold = none) :
    of hold (Function.update objs i o) table = (of hold objs table).forget i := by
  rw [of_update, ho]
  rfl

lemma of_move (hold : O → Option (H × N)) (objs : ι → Option O) (table : H → Option N) {o p r : O}
    (hi : objs i = some o) (hp : hold p = hold o) (hr : hold r = none) :
    of hold (Function.update (Function.update objs j (some p)) i (some r)) table =
      (of hold objs table).move i j := by
  have hbelow := congrArg held (of_update hold objs table j (some p))
  rw [of_update, move, held_of hi, ← hp, Owners.mk.injEq]
  refine ⟨?_, rfl⟩
  rw [Option.bind_some, hr]
  exact congrArg (Function.update · i none) hbelow

lemma forget_of_none (hi : s.held i = none) : s.forget i = s := by
  rw [forget, ← hi, Function.update_eq_self]

/-- Nothing may be let go of. -/
lemma Owned.forget_iff (hs : s.Owned) : (s.forget i).Owned ↔ s.held i = none := by
  refine ⟨fun hforgot => ?_, fun hi => by rwa [forget_of_none hi]⟩
  by_contra hne
  obtain ⟨⟨h, n⟩, hi⟩ := Option.ne_none_iff_exists'.mp hne
  obtain ⟨k, hk⟩ := (hforgot.table_iff h n).mp ((hs.table_iff h n).mpr ⟨i, hi⟩)
  simp only [forget, Function.update_apply] at hk
  split_ifs at hk with hki
  exact hki (hs.unique k i h n n hk hi)

/-- A handle may be passed on to an object that holds none. -/
lemma Owned.move_iff (hs : s.Owned) (hij : i ≠ j) : (s.move i j).Owned ↔ s.held j = none := by
  constructor
  · intro hmoved
    by_contra hne
    obtain ⟨⟨h, n⟩, hj⟩ := Option.ne_none_iff_exists'.mp hne
    obtain ⟨k, hk⟩ := (hmoved.table_iff h n).mp ((hs.table_iff h n).mpr ⟨j, hj⟩)
    simp only [move, Function.update_apply] at hk
    split_ifs at hk with hki hkj
    · exact hij (hs.unique i j h n n hk hj)
    · exact hkj (hs.unique k j h n n hk hj)
  · intro hj
    constructor
    · intro h n
      simp only [move, Function.update_apply, hs.table_iff]
      constructor
      · rintro ⟨k, hk⟩
        by_cases hki : k = i
        · exact ⟨j, by grind⟩
        · exact ⟨k, by grind⟩
      · rintro ⟨k, hk⟩
        by_cases hkj : k = j
        · exact ⟨i, by grind⟩
        · exact ⟨k, by grind⟩
    · intro k l h m n hk hl
      simp only [move, Function.update_apply] at hk hl
      grind [hs.unique k l h m n, hs.unique i l h m n, hs.unique k i h m n]

variable [DecidableEq H]

/-- An object gets a new handle. -/
def acquire (s : Owners ι H N) (i : ι) (h : H) (n : N) : Owners ι H N :=
  ⟨Function.update s.held i (some (h, n)), Function.update s.table h (some n)⟩

/-- The object gives its handle back. -/
def release (s : Owners ι H N) (i : ι) : Owners ι H N := (s.revoke i).forget i

lemma of_release (hold : O → Option (H × N)) (objs : ι → Option O) (table : H → Option N) {o : O}
    {r : Option O} (hi : objs i = some o) (ho : hold o = some (h, n)) (hr : r.bind hold = none) :
    of hold (Function.update objs i r) (Function.update table h none) =
      (of hold objs table).release i := by
  rw [of_forget hold objs _ hr, of_revoke hold objs table hi ho, release]

lemma Owned.acquire (hs : s.Owned) (hi : s.held i = none) (hh : s.table h = none) :
    (s.acquire i h n).Owned := by
  have hfree (k : ι) (m : N) : s.held k ≠ some (h, m) := by
    intro hk
    have htable := (hs.table_iff h m).mpr ⟨k, hk⟩
    rw [hh] at htable
    cases htable
  constructor
  · intro h' m
    have htable := hs.table_iff h' m
    simp only [Owners.acquire, Function.update_apply]
    grind
  · intro k l h' m m' hk hl
    simp only [Owners.acquire, Function.update_apply] at hk hl
    grind [hs.unique k l h' m m']

lemma Owned.release (hs : s.Owned) : (s.release i).Owned := by
  by_cases hne : s.held i = none
  · rwa [Owners.release, revoke_of_none hne, forget_of_none hne]
  obtain ⟨⟨h, n⟩, hi⟩ := Option.ne_none_iff_exists'.mp hne
  constructor
  · intro h' m
    have htable := hs.table_iff h' m
    simp only [Owners.release, forget, revoke, hi, Function.update_apply]
    grind [hs.unique]
  · intro k l h' m m' hk hl
    simp only [Owners.release, forget, revoke, Function.update_apply] at hk hl
    grind [hs.unique k l h' m m']

end Owners
