import Libept.Utils.Sys

/-!
# The files of a system

A name leads to an inode, and a file descriptor to an inode and the offset of the next byte. The
kernel answers a call with a success or a failure; a failure leaves everything as it is. What a
call has failed to give back, such as a descriptor, may be there still or be gone all the same.
That nothing is left open is said of kernels that do not keep such things.
-/

namespace Libept.Sys

structure Inode where
  content : Str
  mode : Mode

structure OpenFile where
  ino : ℕ
  offset : ℕ

/-- The umask of a process has permission bits only. -/
@[ext] structure Umask where
  bits : Mode
  perm : bits &&& 0o777 = bits

def Umask.of (mask : Mode) : Umask :=
  ⟨mask &&& 0o777, by rw [UInt32.and_assoc, UInt32.and_self]⟩

lemma Umask.of_bits (u : Umask) : Umask.of u.bits = u := Umask.ext u.perm

/-- What a call may leave that gives back something. If it fails, a kernel that `keeps` such things
may leave everything as it is. -/
def GivesBack {σ : Type} (keeps : Prop) (res : Except Errno Unit) (s given s' : σ) : Prop :=
  s' = given ∨ keeps ∧ res ≠ .ok () ∧ s' = s

/-- What does not depend on what is given back stays the same. -/
lemma GivesBack.same {σ τ : Type} {keeps : Prop} {res : Except Errno Unit} {s given s' : σ}
    (h : GivesBack keeps res s given s') (f : σ → τ) (hf : f given = f s) : f s' = f s := by
  rcases h with rfl | ⟨-, -, rfl⟩
  · exact hf
  · rfl

structure Kernel where
  inodes : ℕ → Inode
  names : Str → Option ℕ
  fds : Fd → Option OpenFile
  umask : Umask

/-- Bytes stored at an offset; a hole in front of them is filled with NULs. -/
def overwrite (content : Str) (offset : ℕ) (bytes : Str) : Str :=
  content.take offset ++ List.replicate (offset - content.length) 0 ++ bytes ++
    content.drop (offset + bytes.length)

namespace Kernel

/-- What the file with the given name contains, if there is one. -/
def content (k : Kernel) (file : Str) : Option Str :=
  (k.names file).map fun ino => (k.inodes ino).content

/-- A single file, and nothing open. -/
def single (file content : Str) (umask : Umask) : Kernel :=
  ⟨fun _ => ⟨content, 0o644⟩, fun name => if name = file then some 0 else none, fun _ => none,
    umask⟩

/-- Nothing refers to the inode. -/
def Free (k : Kernel) (ino : ℕ) : Prop :=
  (∀ file, k.names file ≠ some ino) ∧ ∀ fd o, k.fds fd = some o → o.ino ≠ ino

def setInode (k : Kernel) (ino : ℕ) (inode : Inode) : Kernel :=
  { k with inodes := Function.update k.inodes ino inode }

def setName (k : Kernel) (file : Str) (ino : Option ℕ) : Kernel :=
  { k with names := Function.update k.names file ino }

def setFd (k : Kernel) (fd : Fd) (o : Option OpenFile) : Kernel :=
  { k with fds := Function.update k.fds fd o }

variable {k : Kernel} {ino : ℕ} {inode : Inode} {file bytes : Str} {fd : Fd} {mode : Mode}

@[simp] lemma inodes_setInode :
    (k.setInode ino inode).inodes = Function.update k.inodes ino inode := rfl

@[simp] lemma names_setInode : (k.setInode ino inode).names = k.names := rfl

@[simp] lemma fds_setInode : (k.setInode ino inode).fds = k.fds := rfl

variable {i : Option ℕ} {o : Option OpenFile}

@[simp] lemma inodes_setName : (k.setName file i).inodes = k.inodes := rfl

@[simp] lemma names_setName : (k.setName file i).names = Function.update k.names file i := rfl

@[simp] lemma inodes_setFd : (k.setFd fd o).inodes = k.inodes := rfl

@[simp] lemma names_setFd : (k.setFd fd o).names = k.names := rfl

@[simp] lemma fds_setFd : (k.setFd fd o).fds = Function.update k.fds fd o := rfl

/-- A new file, which is empty and open. -/
def create (k : Kernel) (file : Str) (mode : Mode) (ino : ℕ) (fd : Fd) : Kernel :=
  ((k.setInode ino ⟨[], mode &&& ~~~k.umask.bits⟩).setName file (some ino)).setFd fd
    (some ⟨ino, 0⟩)

/-- `write` through a descriptor -/
def store (k : Kernel) (fd : Fd) (o : OpenFile) (bytes : Str) : Kernel :=
  (k.setInode o.ino
    { k.inodes o.ino with content := overwrite (k.inodes o.ino).content o.offset bytes }).setFd fd
      (some ⟨o.ino, o.offset + bytes.length⟩)

/-- The kernel may answer a call so, and go on in another state. Any call but `umask` may fail. -/
def step (k : Kernel) : (c : Call) → c.Reply → Kernel → Prop
  | .openFile file flags mode, .ok fd, k' =>
    k.fds fd = none ∧
      match k.names file with
      | some ino =>
        let inode := if .O_TRUNC ∈ flags then { k.inodes ino with content := [] } else k.inodes ino
        k' = (k.setInode ino inode).setFd fd (some ⟨ino, 0⟩)
      | none => .O_CREAT ∈ flags ∧ ∃ ino, k.Free ino ∧ k' = k.create file mode ino fd
  | .openFile _ _ _, .error _, k' => k' = k
  -- the last six characters of the template are replaced, so that the name is new
  | .mkstemp template, (.ok fd, file), k' =>
    (∃ stem suffix, template = stem ++ str "XXXXXX" ∧ suffix.length = 6 ∧ file = stem ++ suffix) ∧
      k.fds fd = none ∧ k.names file = none ∧ ∃ ino, k.Free ino ∧ k' = k.create file 0o600 ino fd
  | .mkstemp _, (.error _, _), k' => k' = k
  | .umask mask, prev, k' => prev = k.umask.bits ∧ k' = { k with umask := .of mask }
  | .fchmod fd mode, .ok _, k' =>
    ∃ o, k.fds fd = some o ∧
      k' = k.setInode o.ino { k.inodes o.ino with mode := mode &&& 0o7777 }
  | .fchmod _ _, .error _, k' => k' = k
  | .write fd buf, .ok n, k' => ∃ o, k.fds fd = some o ∧ k' = k.store fd o (buf.take n.count)
  | .write _ _, .error _, k' => k' = k
  | .close fd, .ok _, k' => (k.fds fd).isSome ∧ k' = k.setFd fd none
  -- the descriptor may be gone all the same
  | .close fd, .error _, k' => k' = k ∨ k' = k.setFd fd none
  | .rename oldpath newpath, .ok _, k' =>
    ∃ ino, k.names oldpath = some ino ∧
      -- two names of one file are left alone
      k' = if k.names newpath = some ino then k
        else (k.setName oldpath none).setName newpath (some ino)
  | .rename _ _, .error _, k' => k' = k

lemma content_eq_of {k' : Kernel} (hname : k'.names file = k.names file)
    (hinode : ∀ j, k.names file = some j → k'.inodes j = k.inodes j) :
    k'.content file = k.content file := by
  rw [content, content, hname]
  cases hf : k.names file with
  | none => rfl
  | some j => rw [Option.map_some, Option.map_some, hinode j hf]

/-- A new file does not touch the others. -/
lemma content_create {file' : Str} (hfree : k.Free ino) (hne : file' ≠ file) :
    (k.create file mode ino fd).content file' = k.content file' := by
  refine content_eq_of (by simp [create, hne]) fun j hj => ?_
  have hino : j ≠ ino := fun h => hfree.1 file' (h ▸ hj)
  simp [create, hino]

lemma content_single {content : Str} {umask : Umask} :
    (single file content umask).content file = some content := by
  simp [Kernel.content, single]

lemma free_single {content : Str} {umask : Umask} (hne : ino ≠ 0) :
    (single file content umask).Free ino := by
  refine ⟨fun name hname => ?_, fun fd o ho => by simp [single] at ho⟩
  simp only [single] at hname
  split_ifs at hname
  exact hne (Option.some.inj hname).symm

end Kernel

end Libept.Sys
