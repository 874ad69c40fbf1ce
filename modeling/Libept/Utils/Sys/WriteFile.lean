import Libept.Utils.Sys.Writing

/-!
# Writing over a file

`write_file` opens a file without truncating it. What is left of the old content behind the data
stays, so the file is exactly the data when it was not longer before.
-/

namespace Libept.Sys

open Prog

variable {k k' : Kernel} {ino : ℕ} {fd : Fd} {file s t : Str} {mode : Mode}

/-- What was in a file, or nothing. -/
def Kernel.oldContent (k : Kernel) (file : Str) : Str := (k.content file).getD []

lemma Kernel.length_oldContent_le_iff {n : ℕ} :
    (k.oldContent file).length ≤ n ↔ ∀ old ∈ k.content file, old.length ≤ n := by
  rw [oldContent]
  cases k.content file <;> simp

namespace File

/-- The file is open at its first byte, with its old content. -/
lemma ensures_openNew :
    (openNew file [.O_WRONLY, .O_CREAT] mode).Ensures Kernel.step (fun _ => True) k
      (fun out k' => ∃ ino, k'.names file = some ino ∧ Holds k' out ino 0 (k.oldContent file) k')
      fun _ _ => True := by
  rw [openNew, ensures_bind, ensures_ask]
  refine ⟨trivial, fun r k' hstep => ⟨trivial, ?_⟩⟩
  cases r with
  | error code => exact ⟨trivial, trivial⟩
  | ok fd =>
    obtain ⟨-, hstep⟩ := hstep
    refine ⟨trivial, ?_⟩
    cases hname : k.names file with
    | some ino =>
      rw [hname] at hstep
      subst hstep
      refine ⟨ino, hname, Kept.refl _ _, ?_, ?_⟩
      · rw [Kernel.fds_setFd, Function.update_self]
      · simp [Kernel.oldContent, Kernel.content, hname]
    | none =>
      rw [hname] at hstep
      obtain ⟨-, ino, -, rfl⟩ := hstep
      refine ⟨ino, ?_, Kept.refl _ _, ?_, ?_⟩
      · rw [Kernel.create, Kernel.names_setFd, Kernel.names_setName, Function.update_self]
      · rw [Kernel.create, Kernel.fds_setFd, Function.update_self]
      · simp [Kernel.create, Kernel.oldContent, Kernel.content, hname]

end File

lemma ensures_write_file :
    (write_file file s mode).Ensures Kernel.step (fun _ => True) k
      (fun _ k' => k'.content file = some (s ++ (k.oldContent file).drop s.length))
      fun _ _ => True := by
  rw [write_file, ensures_bind]
  refine File.ensures_openNew.mono (fun out k₀ hopen => ?_) fun _ _ _ => trivial
  obtain ⟨ino, hname, hholds⟩ := hopen
  have hdone := (File.ensures_write_close hholds s).weaken fun _ _ => trivial
  refine (File.ensures_scope (fun _ _ => trivial) hdone).mono (fun _ k' h => ?_)
    fun _ _ _ => trivial
  rw [Kernel.content, h.1.names, hname, Option.map_some, h.2]

/-- `write_file` can return if there are a free descriptor and a free inode. -/
lemma mayReturn_write_file (hfd : k.fds fd = none) (hino : k.Free ino) :
    (write_file file s mode).MayReturn Kernel.step k fun _ _ => True := by
  obtain ⟨k₁, hopen, hsome⟩ : ∃ k₁, k.step (.openFile file [.O_WRONLY, .O_CREAT] mode) (.ok fd) k₁ ∧
      (k₁.fds fd).isSome := by
    cases hname : k.names file with
    | some i =>
      refine ⟨(k.setInode i (k.inodes i)).setFd fd (some ⟨i, 0⟩), ⟨hfd, ?_⟩, by simp⟩
      rw [hname]
      rfl
    | none =>
      refine ⟨k.create file mode ino fd, ⟨hfd, ?_⟩, by simp [Kernel.create]⟩
      rw [hname]
      exact ⟨by simp, ino, hino, rfl⟩
  refine mayReturn_call hopen (MayReturn.onThrow ?_ _)
  exact (File.mayReturn_write_close hsome).mono fun _ _ _ => trivial

/-! ### Exactly the data -/

lemma append_drop_eq_iff {old : Str} : s ++ old.drop s.length = s ↔ old.length ≤ s.length := by
  simp

/-- The file is exactly what was written last when nothing longer was there before. -/
theorem write_file_exact_iff (file s t : Str) (mode mode' : Mode) (k : Kernel) :
    (∀ calls k', (write_file file s mode).Reaches Kernel.step k calls (.ret ()) k' →
      (k'.content file = some s ↔ ∀ old ∈ k.content file, old.length ≤ s.length)) ∧
    ∀ calls k', (write_file file t mode' >>= fun _ => write_file file s mode).Reaches Kernel.step
        k calls (.ret ()) k' →
      (k'.content file = some s ↔
        (∀ old ∈ k.content file, old.length ≤ s.length) ∧ t.length ≤ s.length) := by
  simp only [← Kernel.length_oldContent_le_iff]
  refine ⟨fun calls k' hrun => ?_, fun calls k' hrun => ?_⟩
  · have hcontent := (ensures_write_file.reaches hrun).2
    rw [hcontent, Option.some_inj, append_drop_eq_iff]
  · have htwice : (write_file file t mode' >>= fun _ => write_file file s mode).Ensures Kernel.step
        (fun _ => True) k (fun _ k' => k'.content file =
          some (s ++ (t ++ (k.oldContent file).drop t.length).drop s.length))
        fun _ _ => True := by
      rw [ensures_bind]
      refine ensures_write_file.mono (fun _ k₁ h₁ => ?_) fun _ _ h => h
      refine ensures_write_file.mono (fun _ k₂ h₂ => ?_) fun _ _ h => h
      rw [h₂, Kernel.oldContent, h₁]
      rfl
    have hcontent := (htwice.reaches hrun).2
    rw [hcontent, Option.some_inj, append_drop_eq_iff]
    simp
    omega

/-- A run of `write_file` on a single file. -/
lemma mayReturn_write_file_single {content : Str} {u : Umask} :
    (write_file file s mode).MayReturn Kernel.step (.single file content u) fun _ _ => True := by
  have hfd : (Kernel.single file content u).fds 3 = none := rfl
  exact mayReturn_write_file hfd (Kernel.free_single Nat.one_ne_zero)

theorem write_file_exact_longer :
    ∃ calls k', (write_file (str "voc") (str "new!") 0o777).Reaches Kernel.step
        (.single (str "voc") (str "old") (.of 0o022)) calls (.ret ()) k' ∧
      k'.content (str "voc") = some (str "new!") := by
  obtain ⟨calls, _, k', hrun, -⟩ := mayReturn_write_file_single
  refine ⟨calls, k', hrun, ((write_file_exact_iff _ _ [] _ 0 _).1 calls k' hrun).mpr ?_⟩
  rw [Kernel.content_single]
  decide

/-- What stood behind the new data is still there. -/
theorem write_file_leaves_rest :
    ∃ calls k', (write_file (str "voc") (str "n") 0o777).Reaches Kernel.step
        (.single (str "voc") (str "old") (.of 0o022)) calls (.ret ()) k' ∧
      k'.content (str "voc") = some (str "nld") ∧ str "nld" ≠ str "n" := by
  obtain ⟨calls, _, k', hrun, -⟩ := mayReturn_write_file_single
  have hcontent := (ensures_write_file.reaches hrun).2
  rw [Kernel.oldContent, Kernel.content_single] at hcontent
  exact ⟨calls, k', hrun, hcontent, by decide⟩

end Libept.Sys
