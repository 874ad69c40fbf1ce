import Libept.Utils.Sys.Writing

/-!
# Replacing a file

`write_file_atomically` fills a new file and gives it the name of the old one when it is complete.
Until then the old file is there as it was.
-/

namespace Libept.Sys

open Prog

variable {k k₀ k' : Kernel} {ino : ℕ} {out : File} {file data : Str} {mode : Mode}

namespace File

/-- A new file, under a name that is not the one it is made for. -/
lemma ensures_mkstemp :
    (mkstemp file).Ensures Kernel.step (fun k' => k'.content file = k.content file) k
      (fun out k' => k'.content file = k.content file ∧ k'.umask = k.umask ∧
        ∃ ino, Holds k' out ino 0 [] k' ∧ k'.names out.pathname = some ino ∧
          k'.names file ≠ some ino)
      fun _ k' => k' = k := by
  rw [mkstemp, ensures_bind, ensures_ask]
  refine ⟨rfl, fun r k' hstep => ?_⟩
  obtain ⟨code | fd, tmp⟩ := r
  · obtain rfl := hstep
    exact ⟨rfl, rfl, rfl⟩
  · obtain ⟨⟨stem, suffix, hstem, hlength, rfl⟩, -, -, ino, hfree, rfl⟩ := hstep
    obtain rfl : file = stem := List.append_cancel_right hstem
    have hne : file ≠ file ++ suffix := by
      intro h
      have := congrArg List.length h
      simp [hlength] at this
    have hcontent : (k.create (file ++ suffix) 0o600 ino fd).content file = k.content file :=
      Kernel.content_create hfree hne
    refine ⟨hcontent, hcontent, hcontent, rfl, ino, ⟨Kept.refl _ _, ?_, ?_⟩, ?_, ?_⟩
    · simp [Kernel.create]
    · simp [Kernel.create]
    · simp [Kernel.create]
    · simpa [Kernel.create, hne] using hfree.1 file

end File

/-- The umask is read and the file filled, while the old one stays as it is. -/
lemma ensures_fill (h : Holds k₀ out ino 0 [] k₀) (hne : k₀.names file ≠ some ino) :
    (out.scope do
      let mask ← umask 0o777
      let _ ← umask mask
      out.fchmod (mode &&& ~~~mask)
      out.write_all data
      out.close).Ensures Kernel.step (fun k' => k'.content file = k₀.content file) k₀
        (fun _ k' => Kept k₀ ino k' ∧ (k'.inodes ino).content = data) fun _ => Kept k₀ ino := by
  have hkept : ∀ k', Kept k₀ ino k' → k'.content file = k₀.content file :=
    fun k' hk' => hk'.content_eq hne
  refine File.ensures_scope hkept ?_
  rw [ensures_bind, ensures_umask]
  refine ⟨rfl, rfl, ?_⟩
  rw [ensures_bind, ensures_umask, Umask.of_bits]
  refine ⟨rfl, rfl, ?_⟩
  rw [ensures_bind]
  refine ((File.ensures_fchmod h).weaken hkept).mono (fun _ k₁ h₁ => ?_) fun _ _ hk' => hk'
  have hdone := (File.ensures_write_close h₁ data).weaken hkept
  rwa [List.drop_nil, List.append_nil] at hdone

/-- The new file takes the place of the old one, or all names stay as they are. -/
lemma step_rename {old : Str} {r : Except Errno Unit} (hold : k.names old = some ino)
    (hne : k.names file ≠ some ino) (hstep : k.step (.rename old file) r k') :
    k'.umask = k.umask ∧
      ((∃ code, r = .error code ∧ k' = k) ∨
        r = .ok () ∧ k'.content file = some (k.inodes ino).content) := by
  cases r with
  | error code =>
    obtain rfl := hstep
    exact ⟨rfl, .inl ⟨code, rfl, rfl⟩⟩
  | ok _ =>
    obtain ⟨i, hi, rfl⟩ := hstep
    obtain rfl : i = ino := Option.some.inj (hi.symm.trans hold)
    rw [if_neg hne]
    exact ⟨rfl, .inr ⟨rfl, by simp [Kernel.content]⟩⟩

/-- The target holds its old content or the data at every moment. It is the data when the call
returns and the old content when it throws, and the umask is what it was. -/
lemma ensures_write_file_atomically :
    (write_file_atomically file data mode).Ensures Kernel.step
      (fun k' => k'.content file = k.content file ∨ k'.content file = some data) k
      (fun _ k' => k'.content file = some data ∧ k'.umask = k.umask)
      fun _ k' => k'.content file = k.content file ∧ k'.umask = k.umask := by
  rw [write_file_atomically, ensures_bind]
  refine (File.ensures_mkstemp.weaken fun _ => .inl).mono (fun out k₀ hnew => ?_) ?_
  · obtain ⟨hcontent, humask, ino, hholds, htmp, hne⟩ := hnew
    rw [← hcontent, ← humask, ensures_bind]
    refine ((ensures_fill hholds hne).weaken fun _ => .inl).mono (fun _ k₁ h₁ => ?_) ?_
    · obtain ⟨hkept, hdata⟩ := h₁
      have hcontent₁ := hkept.content_eq hne
      rw [← hkept.names] at htmp hne
      rw [ensures_bind, ensures_ask]
      refine ⟨.inl hcontent₁, fun r k₂ hstep => ?_⟩
      obtain ⟨humask₂, ⟨code, rfl, rfl⟩ | ⟨rfl, hcontent₂⟩⟩ := step_rename htmp hne hstep
      · exact ⟨.inl hcontent₁, .inl hcontent₁, hcontent₁, hkept.umask⟩
      · rw [hdata] at hcontent₂
        exact ⟨.inr hcontent₂, .inr hcontent₂, hcontent₂, humask₂.trans hkept.umask⟩
    · exact fun _ k' hk' => ⟨hk'.content_eq hne, hk'.umask⟩
  · rintro _ k' rfl
    exact ⟨rfl, rfl⟩

/-- It can return if there are a free name, a free descriptor and a free inode. -/
lemma mayReturn_write_file_atomically {fd : Fd} {suffix : Str} (hlength : suffix.length = 6)
    (hfd : k.fds fd = none) (hname : k.names (file ++ suffix) = none) (hino : k.Free ino) :
    (write_file_atomically file data mode).MayReturn Kernel.step k fun _ _ => True := by
  let tmp := file ++ suffix
  let k₀ := k.create tmp 0o600 ino fd
  have hopen : k₀.fds fd = some ⟨ino, 0⟩ := by simp [k₀, Kernel.create]
  have hmkstemp : k.step (.mkstemp (file ++ str "XXXXXX")) (.ok fd, tmp) k₀ :=
    ⟨⟨file, suffix, rfl, hlength, rfl⟩, hfd, hname, ino, hino, rfl⟩
  refine MayReturn.bind (mayReturn_call hmkstemp (mayReturn_pure ?_))
  refine MayReturn.bind (MayReturn.onThrow ?_ _)
  refine MayReturn.bind (mayReturn_umask (MayReturn.bind (mayReturn_umask (MayReturn.bind ?_))))
  refine (File.mayReturn_fchmod (Option.isSome_of_eq_some hopen)).mono fun _ k₁ h₁ => ?_
  have hopen₁ : k₁.fds fd = some ⟨ino, 0⟩ := by rw [h₁.1, hopen]
  refine (File.mayReturn_write_close (Option.isSome_of_eq_some hopen₁)).mono fun _ k₂ h₂ => ?_
  have htmp : k₂.names tmp = some ino := by
    rw [h₂, h₁.2]
    simp [k₀, Kernel.create]
  have hrename : ∃ k', k₂.step (.rename tmp file) (.ok ()) k' := ⟨_, ino, htmp, rfl⟩
  obtain ⟨k', hstep⟩ := hrename
  exact mayReturn_call hstep (mayReturn_pure trivial)

/-! ### Every run -/

/-- However far the call gets, the target holds its old content or exactly the data. -/
theorem write_file_atomically_atomic (file data : Str) (mode : Mode) (k k' : Kernel)
    (calls : List ((c : Call) × c.Reply)) (y : SysProg Unit)
    (hrun : (write_file_atomically file data mode).Reaches Kernel.step k calls y k') :
    (k'.content file = k.content file ∨ k'.content file = some data) ∧
      (y = .ret () → k'.content file = some data) ∧
      ∀ e, y = .throw e → k'.content file = k.content file := by
  have h := ensures_write_file_atomically.reaches hrun
  refine ⟨h.here, ?_, ?_⟩
  · rintro rfl
    exact h.2.1
  · rintro e rfl
    exact h.2.1

theorem write_file_atomically_replaces :
    ∃ calls k', (write_file_atomically (str "voc") (str "n") 0o666).Reaches Kernel.step
        (.single (str "voc") (str "old") (.of 0o022)) calls (.ret ()) k' ∧
      k'.content (str "voc") = some (str "n") := by
  have hfd : (Kernel.single (str "voc") (str "old") (.of 0o022)).fds 3 = none := rfl
  have hname : (Kernel.single (str "voc") (str "old") (.of 0o022)).names
      (str "voc" ++ str "a1B2c3") = none := by decide
  obtain ⟨calls, _, k', hrun, -⟩ := mayReturn_write_file_atomically (by decide) hfd hname
    (Kernel.free_single Nat.one_ne_zero)
  exact ⟨calls, k', hrun,
    (write_file_atomically_atomic _ _ _ _ k' calls _ hrun).2.1 rfl⟩

end Libept.Sys
