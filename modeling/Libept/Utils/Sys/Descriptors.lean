import Libept.Lib.Owners
import Libept.Lib.Runs
import Libept.Utils.Sys

/-!
# Objects that own descriptors

A `File` or a `Path` closes its descriptor when it is destroyed. It can be moved, and what has been
moved from holds nothing; but an assignment overwrites the descriptor that the object holds.
-/

namespace Libept.Sys

open Function

/-- A descriptor with a name, which is `none` for -1. Its subclasses close it. -/
structure NamedFileDescriptor where
  fd : Option Fd
  pathname : Str
  deriving DecidableEq, Repr

namespace NamedFileDescriptor

/-- The move constructor gives a new object and leaves something of the old one. What is left of a
string that has been moved from is not specified. -/
def moveNew (o : NamedFileDescriptor) (rest : Str) : NamedFileDescriptor × NamedFileDescriptor :=
  (⟨o.fd, o.pathname⟩, { o with fd := none, pathname := rest })

/-- `operator=`, for two different objects. -/
def assign (this o : NamedFileDescriptor) (rest : Str) :
    NamedFileDescriptor × NamedFileDescriptor :=
  ({ this with fd := o.fd, pathname := o.pathname }, { o with fd := none, pathname := rest })

/-- `close`, and what it throws. -/
def close (o : NamedFileDescriptor) (res : Except Errno Unit) :
    NamedFileDescriptor × Option SystemError :=
  match o.fd with
  | none => (o, none)
  | some _ =>
    match res with
    | .error errno => (o, some ⟨errno, o.pathname ++ str ": " ++ str "cannot close"⟩)
    | .ok _ => ({ o with fd := none }, none)

def held (o : NamedFileDescriptor) : Option (Fd × Str) := o.fd.map (·, o.pathname)

end NamedFileDescriptor

/-- What is done with objects of the classes `File` and `Path`. A descriptor may be gone or not when
`close` has failed. -/
inductive FdUse (ι : Type) where
  | new (i : ι) (pathname : Str) (res : Except Errno Fd)
  | moveNew (i j : ι) (rest : Str)
  /-- `j = std::move(i)` -/
  | assign (i j : ι) (rest : Str)
  | close (i : ι) (res : Except Errno Unit) (gone : Bool)
  | destroy (i : ι) (gone : Bool)

/-- The objects, and the descriptors that are open, with the names they have been opened under. -/
structure FdObjects (ι : Type) where
  objs : ι → Option NamedFileDescriptor
  table : Fd → Option Str

namespace FdObjects

variable {ι : Type} [DecidableEq ι]

/-- The kernel closes a descriptor. -/
def closeFd (table : Fd → Option Str) (fd : Option Fd) (gone : Bool) : Fd → Option Str :=
  match fd with
  | none => table
  | some fd => if gone then update table fd none else table

/-- The objects are the owners of the descriptors. -/
def owners (s : FdObjects ι) : Owners ι Fd Str := .of NamedFileDescriptor.held s.objs s.table

/-- The object `j` gets something of the object `i`. -/
def moved (s : FdObjects ι) (i j : ι) (os : NamedFileDescriptor × NamedFileDescriptor) :
    FdObjects ι :=
  { s with objs := update (update s.objs j (some os.1)) i (some os.2) }

inductive Step (s : FdObjects ι) : FdUse ι → FdObjects ι → Prop
  | new {i : ι} {pathname : Str} {fd : Fd} (hi : s.objs i = none) (hfd : s.table fd = none) :
    Step s (.new i pathname (.ok fd))
      ⟨update s.objs i (some ⟨some fd, pathname⟩), update s.table fd (some pathname)⟩
  | newFailed {i : ι} {pathname : Str} {errno : Errno} (hi : s.objs i = none) :
    Step s (.new i pathname (.error errno)) s
  | moveNew {i j : ι} {rest : Str} {o : NamedFileDescriptor} (hi : s.objs i = some o)
    (hj : s.objs j = none) :
    Step s (.moveNew i j rest) (s.moved i j (o.moveNew rest))
  | assign {i j : ι} {rest : Str} {o this : NamedFileDescriptor} (hij : i ≠ j)
    (hi : s.objs i = some o) (hj : s.objs j = some this) :
    Step s (.assign i j rest) (s.moved i j (this.assign o rest))
  | assignSelf {i : ι} {rest : Str} {o : NamedFileDescriptor} (hi : s.objs i = some o) :
    Step s (.assign i i rest) s
  | close {i : ι} {res : Except Errno Unit} {gone : Bool} {o : NamedFileDescriptor}
    (hi : s.objs i = some o) (hgone : res = .ok () → gone = true) :
    Step s (.close i res gone)
      ⟨update s.objs i (some (o.close res).1), closeFd s.table o.fd gone⟩
  | destroy {i : ι} {gone : Bool} {o : NamedFileDescriptor} (hi : s.objs i = some o) :
    Step s (.destroy i gone) ⟨update s.objs i none, closeFd s.table o.fd gone⟩

/-- A descriptor is neither overwritten nor left in an object that has failed to close it, and the
destructor does close it. -/
def Careful (s : FdObjects ι) : FdUse ι → Prop
  | .assign i j _ => i = j ∨ s.owners.held j = none
  | .close i res gone => (∃ errno, res = .error errno) ∧ gone = true → s.owners.held i = none
  | .destroy i gone => gone = false → s.owners.held i = none
  | _ => True

def uses (ι : Type) [DecidableEq ι] : Transitions (FdObjects ι) (FdUse ι) where
  init s := s = ⟨fun _ => none, fun _ => none⟩
  step := Step

variable {s s' : FdObjects ι} {i j : ι} {o : NamedFileDescriptor}

/-- Exactly the careful steps keep the descriptors owned. -/
lemma owned_step_iff {use : FdUse ι} (hs : s.owners.Owned) (hstep : s.Step use s') :
    s'.owners.Owned ↔ s.Careful use := by
  cases hstep with
  | @new i pathname fd hi hfd =>
    have howners : (⟨update s.objs i (some ⟨some fd, pathname⟩),
        update s.table fd (some pathname)⟩ : FdObjects ι).owners =
          s.owners.acquire i fd pathname := Owners.of_update _ _ _ _ _
    rw [howners]
    exact iff_of_true (hs.acquire (Owners.held_of_none hi) hfd) trivial
  | newFailed => exact iff_of_true hs trivial
  | @moveNew i j rest o hi hj =>
    have hij : i ≠ j := by
      rintro rfl
      rw [hi] at hj
      cases hj
    have hmove : (s.moved i j (o.moveNew rest)).owners = s.owners.move i j :=
      Owners.of_move _ _ _ hi rfl rfl
    rw [hmove]
    exact iff_of_true ((hs.move_iff hij).mpr (Owners.held_of_none hj)) trivial
  | @assign i j rest o this hij hi hj =>
    have hmove : (s.moved i j (this.assign o rest)).owners = s.owners.move i j :=
      Owners.of_move _ _ _ hi rfl rfl
    rw [hmove, Careful, or_iff_right hij]
    exact hs.move_iff hij
  | assignSelf => exact iff_of_true hs (.inl rfl)
  | @close i res gone o hi hgone =>
    obtain ⟨fd, pathname⟩ := o
    cases fd with
    | none =>
      have hheld : s.owners.held i = none := Owners.held_of hi
      have hsame : (⟨update s.objs i (some ⟨none, pathname⟩), s.table⟩ : FdObjects ι) = s := by
        rw [← hi, update_eq_self]
      exact iff_of_true (hsame.symm ▸ hs) fun _ => hheld
    | some fd =>
      have hheld : s.owners.held i = some (fd, pathname) := Owners.held_of hi
      rw [Careful, hheld]
      cases res with
      | ok =>
        have hrelease : owners ⟨update s.objs i (some ⟨none, pathname⟩),
            update s.table fd none⟩ = s.owners.release i := Owners.of_release _ _ _ hi rfl rfl
        rw [hgone rfl]
        exact iff_of_true (hrelease.symm ▸ hs.release) (by simp)
      | error errno =>
        have hobjs : update s.objs i (some ⟨some fd, pathname⟩) = s.objs := by
          rw [← hi, update_eq_self]
        have hclose : (NamedFileDescriptor.close ⟨some fd, pathname⟩ (.error errno)).1 =
          ⟨some fd, pathname⟩ := rfl
        rw [hclose, hobjs]
        cases gone with
        | true =>
          have hrevoke : owners ⟨s.objs, closeFd s.table (some fd) true⟩ = s.owners.revoke i :=
            Owners.of_revoke _ _ _ hi rfl
          rw [hrevoke, hs.revoke_iff, hheld]
          simp
        | false => exact iff_of_true hs (by simp)
  | @destroy i gone o hi =>
    obtain ⟨fd, pathname⟩ := o
    have hforget : owners ⟨update s.objs i none, s.table⟩ = s.owners.forget i :=
      Owners.of_forget _ _ _ rfl
    cases fd with
    | none =>
      have hheld : s.owners.held i = none := Owners.held_of hi
      rw [Owners.forget_of_none hheld] at hforget
      exact iff_of_true (hforget.symm ▸ hs) fun _ => hheld
    | some fd =>
      have hheld : s.owners.held i = some (fd, pathname) := Owners.held_of hi
      rw [Careful, hheld]
      cases gone with
      | true =>
        have hrelease : owners ⟨update s.objs i none, closeFd s.table (some fd) true⟩ =
            s.owners.release i := Owners.of_release _ _ _ hi rfl rfl
        exact iff_of_true (hrelease.symm ▸ hs.release) (by simp)
      | false =>
        have hclosed : closeFd s.table (some fd) false = s.table := rfl
        rw [hclosed, hforget, hs.forget_iff, hheld]
        simp

/-- In every state of a run each descriptor that is open is held by one object, under the name that
it was opened under, and no other is held, exactly when no assignment has overwritten a descriptor,
no `close` has failed and closed its descriptor nevertheless, and no destructor has failed to close
one. -/
theorem owned_iff_careful (steps : List (FdObjects ι × FdUse ι)) (s : FdObjects ι)
    (hrun : (uses ι).Run steps s) :
    Transitions.Always (fun s => s.owners.Owned) steps s ↔ ∀ x ∈ steps, x.1.Careful x.2 := by
  refine hrun.always_iff (J := fun _ => True) ?_ ?_
  · rintro s rfl
    exact ⟨trivial, Owners.owned_empty⟩
  · intro s use s' _ hs hstep
    exact ⟨trivial, owned_step_iff hs hstep⟩

/-- One file is assigned to another one. -/
theorem owned_iff_careful_assign :
    ∃ steps s, (uses Bool).Run steps s ∧
      ¬ Transitions.Always (fun s => s.owners.Owned) steps s ∧ s.table 0 = some (str "a") ∧
      ∀ i, s.owners.held i ≠ some (0, str "a") := by
  let s₁ : FdObjects Bool := ⟨update (fun _ => none) true (some ⟨some 0, str "a"⟩),
    update (fun _ => none) 0 (some (str "a"))⟩
  let s₂ : FdObjects Bool := ⟨update s₁.objs false (some ⟨some 1, str "b"⟩),
    update s₁.table 1 (some (str "b"))⟩
  have hnew : (uses Bool).Run [(⟨fun _ => none, fun _ => none⟩, .new true (str "a") (.ok 0))] s₁ :=
    .step (.init rfl) (Step.new rfl rfl)
  have hnew' : (uses Bool).Run ([(⟨fun _ => none, fun _ => none⟩, .new true (str "a") (.ok 0))] ++
      [(s₁, .new false (str "b") (.ok 1))]) s₂ := .step hnew (Step.new rfl rfl)
  have hassign : s₂.Step (.assign false true [])
      (s₂.moved false true (⟨some 1, str "b"⟩, ⟨none, []⟩)) :=
    Step.assign (by decide) rfl (rfl : s₂.objs true = some ⟨some 0, str "a"⟩)
  have hrun := hnew'.step hassign
  refine ⟨_, _, hrun, ?_, rfl, ?_⟩
  · rw [owned_iff_careful _ _ hrun]
    intro hcareful
    rcases hcareful _ (List.mem_append_right _ (List.mem_singleton_self _)) with heq | hnone
    · cases heq
    · cases hnone
  · intro i
    cases i <;> decide

end FdObjects

end Libept.Sys
