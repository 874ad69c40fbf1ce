import Libept.Lib.Owners
import Libept.Lib.Runs
import Libept.Utils.Sys.Reading

/-!
# Objects that own mappings

An `MMap` unmaps what it maps when it is destroyed. It can be moved, and what has been moved from
holds nothing. Before it is assigned to, it is unmapped, which fails if it holds nothing.
-/

namespace Libept.Sys.Mappings

open Function

/-- A memory-mapped file; the address is `none` for `MAP_FAILED`. -/
structure MMap where
  addr : Option Addr
  length : ℕ
  deriving DecidableEq, Repr

namespace MMap

def moveNew (o : MMap) : MMap × MMap :=
  (⟨o.addr, o.length⟩, { o with addr := none, length := 0 })

/-- `munmap`, and what it throws. -/
def munmap (m : MMap) (res : Except Errno Unit) : MMap × Option SystemError :=
  match res with
  | .error errno => (m, some ⟨errno, str "cannot unmap memory"⟩)
  | .ok _ => ({ m with addr := none }, none)

/-- `operator=`, for two different objects, and what it throws. -/
def assign (this o : MMap) (res : Except Errno Unit) : (MMap × MMap) × Option SystemError :=
  match this.munmap res with
  | (this, some e) => ((this, o), some e)
  | (this, none) => (({ this with addr := o.addr, length := o.length },
      { o with addr := none, length := 0 }), none)

def held (m : MMap) : Option (Addr × ℕ) := m.addr.map (·, m.length)

end MMap

/-- What is done with objects of the class `MMap`, with what `mmap` or `munmap` answers. -/
inductive MapUse (ι : Type) where
  | new (i : ι) (length : ℕ) (res : Except Errno Addr)
  | moveNew (i j : ι)
  /-- `j = std::move(i)` -/
  | assign (i j : ι) (res : Except Errno Unit)
  | munmap (i : ι) (res : Except Errno Unit)
  | destroy (i : ι) (res : Except Errno Unit)

/-- The objects, and what is mapped, with the lengths. -/
structure MapObjects (ι : Type) where
  objs : ι → Option MMap
  table : Addr → Option ℕ

namespace MapObjects

variable {ι : Type} [DecidableEq ι]

/-- The kernel removes a mapping, unless it fails. -/
def unmap (table : Addr → Option ℕ) (addr : Option Addr) (res : Except Errno Unit) :
    Addr → Option ℕ :=
  match addr, res with
  | none, _ => table
  | some _, .error _ => table
  | some addr, .ok _ => update table addr none

def owners (s : MapObjects ι) : Owners ι Addr ℕ := .of MMap.held s.objs s.table

/-- The object `j` gets something of the object `i`. -/
def moved (objs : ι → Option MMap) (i j : ι) (os : MMap × MMap) : ι → Option MMap :=
  update (update objs j (some os.1)) i (some os.2)

/-- Nothing can be unmapped at `MAP_FAILED`, which is not the address of a page. -/
inductive Step (s : MapObjects ι) : MapUse ι → MapObjects ι → Prop
  | new {i : ι} {length : ℕ} {addr : Addr} (hi : s.objs i = none) (haddr : s.table addr = none) :
    Step s (.new i length (.ok addr))
      ⟨update s.objs i (some ⟨some addr, length⟩), update s.table addr (some length)⟩
  | newFailed {i : ι} {length : ℕ} {errno : Errno} (hi : s.objs i = none) :
    Step s (.new i length (.error errno)) s
  | moveNew {i j : ι} {o : MMap} (hi : s.objs i = some o) (hj : s.objs j = none) :
    Step s (.moveNew i j) ⟨moved s.objs i j o.moveNew, s.table⟩
  | assign {i j : ι} {res : Except Errno Unit} {o this : MMap} (hij : i ≠ j)
    (hi : s.objs i = some o) (hj : s.objs j = some this)
    (hres : this.addr = none → res ≠ .ok ()) :
    Step s (.assign i j res)
      ⟨moved s.objs i j (this.assign o res).1, unmap s.table this.addr res⟩
  | assignSelf {i : ι} {res : Except Errno Unit} {o : MMap} (hi : s.objs i = some o) :
    Step s (.assign i i res) s
  | munmap {i : ι} {res : Except Errno Unit} {o : MMap} (hi : s.objs i = some o)
    (hres : o.addr = none → res ≠ .ok ()) :
    Step s (.munmap i res) ⟨update s.objs i (some (o.munmap res).1), unmap s.table o.addr res⟩
  | destroy {i : ι} {res : Except Errno Unit} {o : MMap} (hi : s.objs i = some o) :
    Step s (.destroy i res) ⟨update s.objs i none, unmap s.table o.addr res⟩

/-- The destructor does unmap what is mapped. -/
def Careful (s : MapObjects ι) : MapUse ι → Prop
  | .destroy i res => res ≠ .ok () → s.owners.held i = none
  | _ => True

def uses (ι : Type) [DecidableEq ι] : Transitions (MapObjects ι) (MapUse ι) where
  init s := s = ⟨fun _ => none, fun _ => none⟩
  step := Step

variable {s s' : MapObjects ι} {i j : ι} {o : MMap}

/-- Exactly the careful steps keep the mappings owned. -/
lemma owned_step_iff {use : MapUse ι} (hs : s.owners.Owned) (hstep : s.Step use s') :
    s'.owners.Owned ↔ s.Careful use := by
  cases hstep with
  | @new i length addr hi haddr =>
    have howners : (⟨update s.objs i (some ⟨some addr, length⟩),
        update s.table addr (some length)⟩ : MapObjects ι).owners =
          s.owners.acquire i addr length := Owners.of_update _ _ _ _ _
    rw [howners]
    exact iff_of_true (hs.acquire (Owners.held_of_none hi) haddr) trivial
  | newFailed => exact iff_of_true hs trivial
  | @moveNew i j o hi hj =>
    have hij : i ≠ j := by
      rintro rfl
      rw [hi] at hj
      cases hj
    have hmove : owners ⟨moved s.objs i j o.moveNew, s.table⟩ = s.owners.move i j :=
      Owners.of_move _ _ _ hi rfl rfl
    rw [hmove]
    exact iff_of_true ((hs.move_iff hij).mpr (Owners.held_of_none hj)) trivial
  | @assign i j res o this hij hi hj hres =>
    refine iff_of_true ?_ trivial
    cases res with
    | error errno =>
      -- both are left as they were
      have hobjs : moved s.objs i j (this, o) = s.objs := by
        rw [moved, ← hj, update_eq_self, ← hi, update_eq_self]
      have htable : unmap s.table this.addr (.error errno) = s.table := by
        cases this.addr <;> rfl
      have hassign : (this.assign o (.error errno)).1 = (this, o) := rfl
      rw [htable, hassign, hobjs]
      exact hs
    | ok =>
      obtain ⟨addr, length⟩ := this
      obtain ⟨addr, rfl⟩ := Option.ne_none_iff_exists'.mp fun hnone => hres hnone rfl
      -- first the target gives back what it maps, and then it gets the mapping
      have hrelease : Owners.of MMap.held (update s.objs j (some ⟨none, length⟩))
          (update s.table addr none) = s.owners.release j := Owners.of_release _ _ _ hj rfl rfl
      have hmove : Owners.of MMap.held (moved (update s.objs j (some ⟨none, length⟩)) i j
          o.moveNew) (update s.table addr none) = (s.owners.release j).move i j := by
        rw [← hrelease]
        exact Owners.of_move _ _ _ ((update_of_ne hij _ _).trans hi) rfl rfl
      rw [moved, update_idem] at hmove
      have hheld : (s.owners.release j).held j = none := update_self _ _ _
      have howned := (hs.release.move_iff hij).mpr hheld
      rw [← hmove] at howned
      exact howned
  | assignSelf => exact iff_of_true hs trivial
  | @munmap i res o hi hres =>
    refine iff_of_true ?_ trivial
    cases res with
    | error errno =>
      have hobjs : update s.objs i (some o) = s.objs := by rw [← hi, update_eq_self]
      have htable : unmap s.table o.addr (.error errno) = s.table := by
        cases o.addr <;> rfl
      have hmunmap : (o.munmap (.error errno)).1 = o := rfl
      rw [htable, hmunmap, hobjs]
      exact hs
    | ok =>
      obtain ⟨addr, length⟩ := o
      obtain ⟨addr, rfl⟩ := Option.ne_none_iff_exists'.mp fun hnone => hres hnone rfl
      have hrelease : owners ⟨update s.objs i (some ⟨none, length⟩), update s.table addr none⟩ =
          s.owners.release i := Owners.of_release _ _ _ hi rfl rfl
      exact hrelease.symm ▸ hs.release
  | @destroy i res o hi =>
    obtain ⟨addr, length⟩ := o
    have hforget : owners ⟨update s.objs i none, s.table⟩ = s.owners.forget i :=
      Owners.of_forget _ _ _ rfl
    cases addr with
    | none =>
      have hheld : s.owners.held i = none := Owners.held_of hi
      rw [Owners.forget_of_none hheld] at hforget
      exact iff_of_true (hforget.symm ▸ hs) fun _ => hheld
    | some addr =>
      have hheld : s.owners.held i = some (addr, length) := Owners.held_of hi
      rw [Careful, hheld]
      cases res with
      | ok =>
        have hrelease : owners ⟨update s.objs i none, update s.table addr none⟩ =
            s.owners.release i := Owners.of_release _ _ _ hi rfl rfl
        exact iff_of_true (hrelease.symm ▸ hs.release) (by simp)
      | error errno =>
        have htable : unmap s.table (some addr) (.error errno) = s.table := rfl
        rw [htable, hforget, hs.forget_iff, hheld]
        simp

/-- In every state of a run each mapping is held by one object, and no other is held, exactly when
no destructor has failed to unmap one. -/
theorem mapped_iff_careful (steps : List (MapObjects ι × MapUse ι)) (s : MapObjects ι)
    (hrun : (uses ι).Run steps s) :
    Transitions.Always (fun s => s.owners.Owned) steps s ↔ ∀ x ∈ steps, x.1.Careful x.2 := by
  refine hrun.always_iff (J := fun _ => True) ?_ ?_
  · rintro s rfl
    exact ⟨trivial, Owners.owned_empty⟩
  · intro s use s' _ hs hstep
    exact ⟨trivial, owned_step_iff hs hstep⟩

/-- A mapping is passed on to an object that held another one, which is unmapped. -/
theorem mapped_iff_careful_assign :
    ∃ steps s, (uses Bool).Run steps s ∧ Transitions.Always (fun s => s.owners.Owned) steps s ∧
      s.table 0 = none ∧ s.owners.held true = some (1, 20) := by
  let s₀ : MapObjects Bool := ⟨fun _ => none, fun _ => none⟩
  let s₁ : MapObjects Bool :=
    ⟨update s₀.objs true (some ⟨some 0, 10⟩), update s₀.table 0 (some 10)⟩
  let s₂ : MapObjects Bool :=
    ⟨update s₁.objs false (some ⟨some 1, 20⟩), update s₁.table 1 (some 20)⟩
  have hnew : (uses Bool).Run ([] ++ [(s₀, .new true 10 (.ok 0))]) s₁ :=
    .step (.init rfl) (Step.new rfl rfl)
  have hnew' := hnew.step (Step.new rfl rfl : s₁.Step (.new false 20 (.ok 1)) s₂)
  have hassign : s₂.Step (.assign false true (.ok ())) _ :=
    Step.assign (by decide) rfl (rfl : s₂.objs true = some ⟨some 0, 10⟩) (by simp)
  have hrun := hnew'.step hassign
  refine ⟨_, _, hrun, (mapped_iff_careful _ _ hrun).mpr ?_, rfl, rfl⟩
  simp [Careful]

end MapObjects

end Libept.Sys.Mappings
