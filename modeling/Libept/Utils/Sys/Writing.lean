import Libept.Utils.Sys.Kernel

/-!
# Writing to an open file

From the call that opens a file to the one that closes it, the names of the files and all the other
files stay as they are, and so does the umask. What has been written so far stands in front of what
is left of the old content, however many writes it took.
-/

namespace Libept.Sys

open Prog

variable {k k₀ k' : Kernel} {ino w : ℕ} {out : File} {buf c old file data : Str} {mode : Mode}

lemma overwrite_next {n : ℕ} (hw : w + n ≤ buf.length) :
    overwrite (buf.take w ++ old.drop w) w ((buf.drop w).take n) =
      buf.take (w + n) ++ old.drop (w + n) := by
  have htake : (buf.take w).length = w := by simp; omega
  have hn : ((buf.drop w).take n).length = n := by simp; omega
  have hpad : w - (buf.take w ++ old.drop w).length = 0 := by simp; omega
  rw [overwrite, hpad, hn, List.take_left' htake, List.drop_append, htake, List.drop_drop,
    List.take_add]
  simp

/-! ### What is kept -/

/-- The names, all the other inodes and the umask are those of the state `k₀`. -/
structure Kept (k₀ : Kernel) (ino : ℕ) (k : Kernel) : Prop where
  names : k.names = k₀.names
  inodes : ∀ j ≠ ino, k.inodes j = k₀.inodes j
  umask : k.umask = k₀.umask

/-- The inode is open at an offset, and has the given content. -/
structure Holds (k₀ : Kernel) (out : File) (ino offset : ℕ) (content : Str) (k : Kernel) : Prop
    extends Kept k₀ ino k where
  fd : k.fds out.fd = some ⟨ino, offset⟩
  content : (k.inodes ino).content = content

lemma Kept.refl (k : Kernel) (ino : ℕ) : Kept k ino k := ⟨rfl, fun _ _ => rfl, rfl⟩

lemma Kept.setFd (h : Kept k₀ ino k) (fd : Fd) (o : Option OpenFile) :
    Kept k₀ ino (k.setFd fd o) := ⟨h.names, h.inodes, h.umask⟩

lemma Kept.setInode (h : Kept k₀ ino k) (i : Inode) : Kept k₀ ino (k.setInode ino i) := by
  refine ⟨h.names, fun j hj => ?_, h.umask⟩
  rw [Kernel.inodes_setInode, Function.update_of_ne hj, h.inodes j hj]

/-- The other files have their old contents. -/
lemma Kept.content_eq (h : Kept k₀ ino k) (hne : k₀.names file ≠ some ino) :
    k.content file = k₀.content file := by
  refine Kernel.content_eq_of (by rw [h.names]) fun j hj => h.inodes j ?_
  rintro rfl
  exact hne hj

/-! ### The calls on an open file -/

/-- A call may be answered in any way that the kernel allows. -/
lemma ensures_ask {I : Kernel → Prop} {c : Call} {Q : c.Reply → Kernel → Prop}
    {E : SystemError → Kernel → Prop} :
    (ask c).Ensures Kernel.step I k Q E ↔ I k ∧ ∀ r k', k.step c r k' → I k' ∧ Q r k' := Iff.rfl

lemma ensures_umask {I : Kernel → Prop} {mask : Mode} {Q : Mode → Kernel → Prop}
    {E : SystemError → Kernel → Prop} :
    (umask mask).Ensures Kernel.step I k Q E ↔
      I k ∧ I { k with umask := .of mask } ∧ Q k.umask.bits { k with umask := .of mask } := by
  rw [umask, ensures_ask]
  constructor
  · exact fun h => ⟨h.1, h.2 _ _ ⟨rfl, rfl⟩⟩
  · rintro ⟨hI, h⟩
    refine ⟨hI, fun r k' hstep => ?_⟩
    obtain ⟨rfl, rfl⟩ := hstep
    exact h

lemma mayReturn_umask {mask : Mode} {Q : Mode → Kernel → Prop}
    (h : Q k.umask.bits { k with umask := .of mask }) : (umask mask).MayReturn Kernel.step k Q :=
  mayReturn_call ⟨rfl, rfl⟩ (mayReturn_pure h)

namespace File

lemma ensures_fchmod (h : Holds k₀ out ino w c k) :
    (out.fchmod mode).Ensures Kernel.step (Kept k₀ ino) k (fun _ => Holds k₀ out ino w c)
      fun _ => Kept k₀ ino := by
  rw [fchmod, ensures_bind, ensures_ask]
  refine ⟨h.toKept, fun r k' hstep => ?_⟩
  cases r with
  | ok _ =>
    obtain ⟨o, ho, rfl⟩ := hstep
    obtain rfl : o = ⟨ino, w⟩ := Option.some.inj (ho.symm.trans h.fd)
    have hkept := h.toKept.setInode { k.inodes ino with mode := mode &&& 0o7777 }
    refine ⟨hkept, hkept, hkept, h.fd, ?_⟩
    rw [Kernel.inodes_setInode, Function.update_self, h.content]
  | error code =>
    obtain rfl := hstep
    exact ⟨h.toKept, h.toKept, h.toKept⟩

lemma ensures_close (h : Holds k₀ out ino w c k) :
    out.close.Ensures Kernel.step (Kept k₀ ino) k
      (fun _ k' => Kept k₀ ino k' ∧ (k'.inodes ino).content = c) fun _ => Kept k₀ ino := by
  rw [close, ensures_bind, ensures_ask]
  refine ⟨h.toKept, fun r k' hstep => ?_⟩
  have hclosed := h.toKept.setFd out.fd none
  cases r with
  | ok _ =>
    obtain ⟨-, rfl⟩ := hstep
    exact ⟨hclosed, hclosed, hclosed, h.content⟩
  | error code =>
    obtain rfl | rfl := hstep
    · exact ⟨h.toKept, h.toKept, h.toKept⟩
    · exact ⟨hclosed, hclosed, hclosed⟩

lemma ensures_write (h : Holds k₀ out ino w (buf.take w ++ old.drop w) k) (hw : w ≤ buf.length) :
    (out.write (buf.drop w)).Ensures Kernel.step (Kept k₀ ino) k
      (fun n => Holds k₀ out ino (w + n.count)
        (buf.take (w + n.count) ++ old.drop (w + n.count)))
      fun _ => Kept k₀ ino := by
  rw [write, ensures_bind, ensures_ask]
  refine ⟨h.toKept, fun r k' hstep => ?_⟩
  cases r with
  | ok n =>
    obtain ⟨o, ho, rfl⟩ := hstep
    obtain rfl : o = ⟨ino, w⟩ := Option.some.inj (ho.symm.trans h.fd)
    have hcount : ((buf.drop w).take n.count).length = n.count := by
      rw [List.length_take, Nat.min_eq_left n.le_length]
    have hkept : Kept k₀ ino (k.store out.fd ⟨ino, w⟩ ((buf.drop w).take n.count)) :=
      (h.toKept.setInode _).setFd _ _
    refine ⟨hkept, hkept, hkept, ?_, ?_⟩
    · rw [Kernel.store, Kernel.fds_setFd, Function.update_self, hcount]
    · have hle := n.le_length
      rw [List.length_drop] at hle
      rw [Kernel.store, Kernel.inodes_setFd, Kernel.inodes_setInode, Function.update_self,
        h.content]
      have hsum : w + n.count ≤ buf.length := by omega
      exact overwrite_next hsum
  | error code =>
    obtain rfl := hstep
    exact ⟨h.toKept, h.toKept, h.toKept⟩

/-- The loop stores what is left of the data, however it is split. By induction on what is left. -/
lemma ensures_writeLoop (h : Holds k₀ out ino w (buf.take w ++ old.drop w) k)
    (hw : w ≤ buf.length) :
    (out.writeLoop buf w).Ensures Kernel.step (Kept k₀ ino) k
      (fun _ => Holds k₀ out ino buf.length (buf ++ old.drop buf.length))
      fun _ => Kept k₀ ino := by
  fun_induction writeLoop out buf w generalizing k with
  | case1 w hlt ih =>
    rw [ensures_bind]
    refine (ensures_write h hw).mono (fun n k' hn => ?_) fun _ _ hk' => hk'
    have hle := n.le_length
    rw [List.length_drop] at hle
    exact ih n hn (by omega)
  | case2 w hge =>
    obtain rfl : w = buf.length := by omega
    rw [List.take_length] at h
    exact ⟨h.toKept, h⟩

/-- The data is in front of what is left of the old content. -/
lemma ensures_write_all (h : Holds k₀ out ino 0 old k) :
    (out.write_all buf).Ensures Kernel.step (Kept k₀ ino) k
      (fun _ => Holds k₀ out ino buf.length (buf ++ old.drop buf.length))
      fun _ => Kept k₀ ino :=
  ensures_writeLoop (by simpa using h) (Nat.zero_le _)

/-- What is done with a file that has been opened. -/
lemma ensures_write_close (h : Holds k₀ out ino 0 old k) (buf : Str) :
    (out.write_all buf >>= fun _ => out.close).Ensures Kernel.step (Kept k₀ ino) k
      (fun _ k' => Kept k₀ ino k' ∧ (k'.inodes ino).content = buf ++ old.drop buf.length)
      fun _ => Kept k₀ ino := by
  rw [ensures_bind]
  exact (ensures_write_all h).mono (fun _ _ hk' => ensures_close hk') fun _ _ hk' => hk'

lemma ensures_scope {α : Type} {x : SysProg α} {I : Kernel → Prop} {Q : α → Kernel → Prop}
    (hI : ∀ k', Kept k₀ ino k' → I k')
    (h : x.Ensures Kernel.step I k Q fun _ => Kept k₀ ino) :
    (out.scope x).Ensures Kernel.step I k Q fun _ => Kept k₀ ino := by
  rw [scope, ensures_onThrow]
  refine h.mono (fun _ _ hQ => hQ) fun e k' hk' => ?_
  rw [ensures_bind, ensures_ask]
  refine ⟨hI k' hk', fun r k'' hstep => ?_⟩
  have hclosed := hk'.setFd out.fd none
  cases r with
  | ok _ =>
    obtain ⟨-, rfl⟩ := hstep
    exact ⟨hI _ hclosed, hI _ hclosed, hI _ hclosed, hclosed⟩
  | error code =>
    obtain rfl | rfl := hstep
    · exact ⟨hI _ hk', hI _ hk', hI _ hk', hk'⟩
    · exact ⟨hI _ hclosed, hI _ hclosed, hI _ hclosed, hclosed⟩

/-! ### Calls that succeed -/

lemma mayReturn_fchmod (h : (k.fds out.fd).isSome) :
    (out.fchmod mode).MayReturn Kernel.step k fun _ k' => k'.fds = k.fds ∧ k'.names = k.names := by
  obtain ⟨o, ho⟩ := Option.isSome_iff_exists.mp h
  have hstep : k.step (.fchmod out.fd mode) (.ok ())
      (k.setInode o.ino { k.inodes o.ino with mode := mode &&& 0o7777 }) := ⟨o, ho, rfl⟩
  exact mayReturn_call hstep (mayReturn_pure ⟨rfl, rfl⟩)

lemma mayReturn_close (h : (k.fds out.fd).isSome) :
    out.close.MayReturn Kernel.step k fun _ k' => k' = k.setFd out.fd none := by
  have hstep : k.step (.close out.fd) (.ok ()) (k.setFd out.fd none) := ⟨h, rfl⟩
  exact mayReturn_call hstep (mayReturn_pure rfl)

/-- A single write may store everything. -/
lemma mayReturn_write_all (h : (k.fds out.fd).isSome) :
    (out.write_all buf).MayReturn Kernel.step k fun _ k' =>
      (k'.fds out.fd).isSome ∧ k'.names = k.names := by
  obtain ⟨o, ho⟩ := Option.isSome_iff_exists.mp h
  rw [write_all, writeLoop]
  split_ifs with hlt
  · let n : Stored (buf.drop 0) := ⟨(buf.drop 0).length, Nat.le_refl _, List.length_pos_of_ne_nil⟩
    have hstep : k.step (.write out.fd (buf.drop 0)) (.ok n)
        (k.store out.fd o ((buf.drop 0).take n.count)) := ⟨o, ho, rfl⟩
    refine mayReturn_call hstep ?_
    have hrest : out.writeLoop buf (0 + n.count) = pure () := by
      rw [writeLoop, if_neg (by simp [n])]
    change (out.writeLoop buf (0 + n.count)).MayReturn _ _ _
    rw [hrest]
    exact mayReturn_pure ⟨by simp [Kernel.store], rfl⟩
  · exact mayReturn_pure ⟨h, rfl⟩

lemma mayReturn_write_close (h : (k.fds out.fd).isSome) :
    (out.write_all buf >>= fun _ => out.close).MayReturn Kernel.step k fun _ k' =>
      k'.names = k.names := by
  refine MayReturn.bind ((mayReturn_write_all h).mono fun _ k₁ h₁ => ?_)
  refine (mayReturn_close h₁.1).mono fun _ k₂ h₂ => ?_
  rw [h₂, Kernel.names_setFd, h₁.2]

end File

end Libept.Sys
