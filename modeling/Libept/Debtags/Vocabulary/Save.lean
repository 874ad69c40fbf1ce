import Libept.Debtags.Vocabulary
import Libept.Utils.Sys.WriteFileAtomically

/-!
# Saving the vocabulary

`write` sets the umask, replaces the file of the vocabulary, and sets the umask back. An exception
that leaves the call in between takes the last step with it.
-/

namespace Libept

open Prog Sys

namespace Vocabulary

/-- The default pathname, in an environment. -/
def pathname (getenv : Str → Option Str) : Str :=
  match getenv (str "DEBTAGS_VOCABULARY") with
  | none => str "/var/lib/debtags/vocabulary"
  | some res => res

/-- `write(fname)` -/
def writeTo (v : Vocabulary) (fname : Str) : SysProg Unit :=
  write_file_atomically fname v.write 0o666

/-- `write()`, which updates the system vocabulary. -/
def writeSystem (v : Vocabulary) (getenv : Str → Option Str) : SysProg Unit := do
  let vocfname := pathname getenv
  let prev_umask ← umask 0o022
  v.writeTo vocfname
  let _ ← umask prev_umask

end Vocabulary

namespace Sys

/-! ### Failing calls throw -/

variable {out : File} {file data buf : Str} {mode mask : Mode} {w : ℕ}

lemma failStop_umask : (umask mask).FailStop (Call.failed · = true) :=
  fun _ => ⟨fun h => by simp [Call.failed] at h, fun _ => trivial⟩

/-- What is thrown is a failure. -/
lemma failStop_check {α : Type} (what : Str) (res : Except Errno α) :
    ((!res.isOk) = true → (check what res).NeverReturns) ∧
      (¬(!res.isOk) = true → (check what res).FailStop (Call.failed · = true)) := by
  cases res with
  | ok a => exact ⟨fun h => by simp [Except.isOk, Except.toBool] at h, fun _ => trivial⟩
  | error code => exact ⟨fun _ => trivial, fun h => absurd rfl h⟩

namespace File

lemma failStop_mkstemp : (mkstemp file).FailStop (Call.failed · = true) := by
  intro r
  have hcheck := failStop_check (str "cannot create temporary file " ++ r.2) r.1
  exact ⟨fun h => (hcheck.1 h).bind _, fun h => (hcheck.2 h).bind fun _ => trivial⟩

lemma failStop_fchmod : (out.fchmod mode).FailStop (Call.failed · = true) :=
  fun res => failStop_check _ res

lemma failStop_write : (out.write buf).FailStop (Call.failed · = true) :=
  fun res => failStop_check _ res

lemma failStop_close : out.close.FailStop (Call.failed · = true) :=
  fun res => failStop_check _ res

lemma failStop_writeLoop : (out.writeLoop buf w).FailStop (Call.failed · = true) := by
  fun_induction writeLoop out buf w with
  | case1 w hlt ih => exact failStop_write.bind ih
  | case2 w hge => trivial

end File

lemma failStop_write_file_atomically :
    (write_file_atomically file data mode).FailStop (Call.failed · = true) := by
  refine File.failStop_mkstemp.bind fun out => FailStop.bind (FailStop.onThrow ?_ _) fun _ => ?_
  · refine failStop_umask.bind fun mask => failStop_umask.bind fun _ => ?_
    exact File.failStop_fchmod.bind fun _ =>
      File.failStop_writeLoop.bind fun _ => File.failStop_close
  · exact fun res => failStop_check _ res

end Sys

namespace Vocabulary

variable {v : Vocabulary} {getenv : Str → Option Str} {k : Kernel}

lemma failStop_writeSystem : (v.writeSystem getenv).FailStop (Call.failed · = true) :=
  failStop_umask.bind fun _ => failStop_write_file_atomically.bind fun _ =>
    failStop_umask.bind fun _ => trivial

/-- The umask is the old one after a return and 022 after an exception. -/
lemma ensures_writeSystem :
    (v.writeSystem getenv).Ensures Kernel.step (fun _ => True) k
      (fun _ k' => k'.umask = k.umask) fun _ k' => k'.umask = .of 0o022 := by
  rw [writeSystem, ensures_bind, ensures_umask]
  refine ⟨trivial, trivial, ?_⟩
  rw [ensures_bind]
  refine (ensures_write_file_atomically.weaken fun _ _ => trivial).mono (fun _ k₁ _ => ?_) ?_
  · rw [ensures_bind, ensures_umask]
    exact ⟨trivial, trivial, trivial, k.umask.of_bits⟩
  · exact fun _ k₁ h₁ => h₁.2

/-- The umask is set back unless a call has failed; then it is left at 022. -/
theorem umask_restored_iff (v : Vocabulary) (getenv : Str → Option Str) (k k' : Kernel)
    (calls : List ((c : Call) × c.Reply)) (y : SysProg Unit)
    (hrun : (v.writeSystem getenv).Reaches Kernel.step k calls y k') (hended : y.Ended) :
    k'.umask = k.umask ↔ (∀ c ∈ calls, Call.failed c = false) ∨ k.umask = .of 0o022 := by
  have h := ensures_writeSystem.reaches hrun
  cases y with
  | ret a =>
    have hall := failStop_writeSystem.of_returned hrun
    simp only [Bool.not_eq_true] at hall
    exact iff_of_true h.2 (.inl hall)
  | throw e =>
    obtain ⟨c, hc, hfailed⟩ := failStop_writeSystem.of_threw hrun
    have hnot : ¬∀ c ∈ calls, Call.failed c = false := fun hall => by simp [hall c hc] at hfailed
    rw [h.2, or_iff_right hnot]
    exact eq_comm
  | call c next => exact hended.elim

/-- A run that ends because no temporary file can be made. -/
lemma reaches_mkstemp_fails (v : Vocabulary) (getenv : Str → Option Str) (k : Kernel)
    (code : Errno) (fbuf : Str) :
    (v.writeSystem getenv).Reaches Kernel.step k
      [⟨.umask 0o022, k.umask.bits⟩,
        ⟨.mkstemp (pathname getenv ++ str "XXXXXX"), (.error code, fbuf)⟩]
      (.throw ⟨code, str "cannot create temporary file " ++ fbuf⟩)
      { k with umask := .of 0o022 } :=
  .call ⟨rfl, rfl⟩ (.call rfl (.refl _ _))

/-- The umask stays if it is the one that `write` sets. -/
theorem umask_restored_022 :
    ∃ calls e k', (writeSystem ⟨∅⟩ fun _ => none).Reaches Kernel.step
        (.single (str "voc") (str "old") (.of 0o022)) calls (.throw e) k' ∧
      k'.umask = .of 0o022 := by
  have hrun := reaches_mkstemp_fails ⟨∅⟩ (fun _ => none)
    (.single (str "voc") (str "old") (.of 0o022)) 13 []
  exact ⟨_, _, _, hrun, (umask_restored_iff _ _ _ _ _ _ hrun trivial).mpr (.inr rfl)⟩

/-- Without a temporary file a strict umask is lost. -/
theorem umask_left_at_022 :
    ∃ calls e k', (writeSystem ⟨∅⟩ fun _ => none).Reaches Kernel.step
        (.single (str "voc") (str "old") (.of 0o077)) calls (.throw e) k' ∧
      k'.umask ≠ .of 0o077 := by
  refine ⟨_, _, _, reaches_mkstemp_fails _ _ _ 13 [], fun h => ?_⟩
  exact absurd (congrArg Umask.bits h) (by decide)

end Vocabulary

end Libept
