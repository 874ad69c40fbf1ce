import Libept.Lib.Concurrent
import Libept.Lib.Table
import Libept.Utils.Sys.Reading
import Libept.Utils.Sys.WriteFileAtomically

/-!
# Replacing a file while it is read

One process replaces a file, again and again, and another one reads it. They share the files, and
each has its own descriptors. What the reader has opened is a file that had the name at some time,
and no one writes to such a file any more.
-/

namespace Libept.Sys

open Prog

/-! ### Two processes -/

/-- A part of the memory that shows a file. -/
structure Mapping where
  ino : ℕ
  length : ℕ

/-- What the reading process has open. -/
@[ext] structure Reader where
  fds : Fd → Option OpenFile
  maps : Addr → Option Mapping

namespace Reader

def Holds (r : Reader) (ino : ℕ) : Prop :=
  (∃ fd o, r.fds fd = some o ∧ o.ino = ino) ∨ ∃ addr m, r.maps addr = some m ∧ m.ino = ino

def setFd (r : Reader) (fd : Fd) (o : Option OpenFile) : Reader :=
  { r with fds := Function.update r.fds fd o }

def setMap (r : Reader) (addr : Addr) (m : Option Mapping) : Reader :=
  { r with maps := Function.update r.maps addr m }

def idle : Reader := ⟨fun _ => none, fun _ => none⟩

end Reader

@[ext] structure World where
  kernel : Kernel
  reader : Reader

/-- The kernel answers the process that writes. An inode is not used again while the other process
has it open. -/
def writeStep (w : World) (c : Call) (r : c.Reply) (w' : World) : Prop :=
  w.kernel.step c r w'.kernel ∧ w'.reader = w.reader ∧
    ∀ ino, w.reader.Holds ino → w.kernel.Free ino → w'.kernel.Free ino

/-- The kernel answers the process that reads. Any call may fail, and the times may be any. -/
def Reader.step (keeps : Prop) (k : Kernel) (r : Reader) : (c : ReadCall) → c.Reply → Reader → Prop
  | .access file, found, r' => (found = true → ∃ ino, k.names file = some ino) ∧ r' = r
  | .openFile file, .ok fd, r' =>
    r.fds fd = none ∧ ∃ ino, k.names file = some ino ∧ r' = r.setFd fd (some ⟨ino, 0⟩)
  | .openFile _, .error _, r' => r' = r
  | .fopen file _, .ok fd, r' =>
    r.fds fd = none ∧ ∃ ino, k.names file = some ino ∧ r' = r.setFd fd (some ⟨ino, 0⟩)
  | .fopen _ _, .error _, r' => r' = r
  | .read stream, bytes, r' =>
    ∃ o n, r.fds stream = some o ∧ 0 < n ∧
      bytes = ((k.inodes o.ino).content.drop o.offset).take n ∧
      r' = r.setFd stream (some ⟨o.ino, o.offset + bytes.length⟩)
  | .fclose stream, res, r' => GivesBack keeps res r (r.setFd stream none) r'
  | .close fd, res, r' => GivesBack keeps res r (r.setFd fd none) r'
  | .fstat fd, .ok st, r' =>
    (∃ o, r.fds fd = some o ∧ st.st_size = (k.inodes o.ino).content.length) ∧ r' = r
  | .fstat _, .error _, r' => r' = r
  | .stat file, .ok st, r' =>
    (∃ ino, k.names file = some ino ∧ st.st_size = (k.inodes ino).content.length) ∧ r' = r
  | .stat _, .error _, r' => r' = r
  -- an area of no bytes cannot be mapped
  | .mmap fd length, .ok addr, r' =>
    length ≠ 0 ∧ r.maps addr = none ∧ ∃ o, r.fds fd = some o ∧
      r' = r.setMap addr (some ⟨o.ino, length⟩)
  | .mmap _ _, .error _, r' => r' = r
  -- behind the end of the file anything may happen
  | .load addr length, bytes, r' =>
    ∃ m, r.maps addr = some m ∧
      (length ≤ m.length → length ≤ (k.inodes m.ino).content.length →
        bytes = (k.inodes m.ino).content.take length ∧ r' = r)
  | .munmap addr _, .ok _, r' => r' = r.setMap addr none
  | .munmap addr _, .error _, r' => (r.maps addr = none ∨ keeps) ∧ r' = r

def readStep (keeps : Prop) (w : World) (c : ReadCall) (r : c.Reply) (w' : World) : Prop :=
  w.reader.step keeps w.kernel c r w'.reader ∧ w'.kernel = w.kernel

/-- What was open and mapped before is as it was, and all that has been opened and mapped in between
is given back, unless the kernel keeps what a call has failed to give back. -/
structure GivenBack (keeps : Prop) (r r' : Reader) : Prop where
  fds : Table.Same keeps none r.fds r'.fds
  maps : Table.Same keeps none r.maps r'.maps

/-! ### What they rely on -/

variable {file : Str} {A : Set Str} {w w' w₁ w₂ : World}

/-- What the writer relies on: the reader leaves the files alone, and opens this one only. -/
def ReaderMay (file : Str) (w w' : World) : Prop :=
  w'.kernel = w.kernel ∧
    ∀ ino, w'.reader.Holds ino → w.reader.Holds ino ∨ w.kernel.names file = some ino

/-- What the reader relies on: the contents of what it has open stay as they are, and what the file
gets for its content is one of the versions. -/
structure WriterMay (file : Str) (A : Set Str) (w w' : World) : Prop where
  reader : w'.reader = w.reader
  held : ∀ ino, w.reader.Holds ino → (w'.kernel.inodes ino).content = (w.kernel.inodes ino).content
  version : ∀ c, w'.kernel.content file = some c → w.kernel.content file = some c ∨ c ∈ A

instance : IsRely (ReaderMay file) where
  refl _ := ⟨rfl, fun _ => .inl⟩
  trans w w₁ w₂ h h' := by
    refine ⟨h'.1.trans h.1, fun ino hino => ?_⟩
    rcases h'.2 ino hino with hino | hname
    · exact h.2 ino hino
    · rw [h.1] at hname
      exact .inr hname

instance : IsRely (WriterMay file A) where
  refl _ := ⟨rfl, fun _ _ => rfl, fun _ => .inl⟩
  trans w w₁ w₂ h h' := by
    refine ⟨h'.reader.trans h.reader, fun ino hino => ?_, fun c hc => ?_⟩
    · have hino₁ : w₁.reader.Holds ino := by rwa [h.reader]
      rw [h'.held ino hino₁, h.held ino hino]
    · rcases h'.version c hc with hc | hc
      · exact h.version c hc
      · exact .inr hc

/-- The file is what it was, and so is all that the reader has open. -/
lemma WriterMay.of_same (hreader : w'.reader = w.reader)
    (hinodes : ∀ ino, w.reader.Holds ino → w'.kernel.inodes ino = w.kernel.inodes ino)
    (hcontent : w'.kernel.content file = w.kernel.content file) : WriterMay file A w w' :=
  ⟨hreader, fun ino hino => by rw [hinodes ino hino], fun c hc => .inl (hcontent ▸ hc)⟩

/-! ### The writer -/

/-- The process does to the file, and to what the reader has open, only what the reader relies on,
however it ends. -/
def Careful {α : Type} (file : Str) (A : Set Str) (x : SysProg α) : Prop :=
  ∀ w, x.Safe (ReaderMay file) writeStep (WriterMay file A) w (fun _ _ => True) fun _ _ => True

variable {α β : Type} {x : SysProg α} {f : α → SysProg β}

lemma careful_pure (a : α) : Careful file A (pure a : SysProg α) := fun _ _ _ => trivial

lemma Careful.bind (hx : Careful file A x) (hf : ∀ a, Careful file A (f a)) :
    Careful file A (x >>= f) :=
  fun w => ((hx w).mono (fun a w' _ => hf a w') fun _ _ h => h).bind

lemma Careful.handle {handler : SystemError → SysProg α} (hx : Careful file A x)
    (hhandler : ∀ e, Careful file A (handler e)) : Careful file A (x.handle handler) :=
  fun w => ((hx w).mono (fun _ _ h => h) fun e w' _ => hhandler e w').handle

lemma Careful.forM {l : List β} {f : β → SysProg Unit} (h : ∀ b ∈ l, Careful file A (f b)) :
    Careful file A (l.forM f) := by
  induction l with
  | nil => exact careful_pure ()
  | cons b l ih =>
    exact (h b List.mem_cons_self).bind fun _ => ih fun c hc => h c (List.mem_cons_of_mem _ hc)

lemma careful_umask (mask : Mode) : Careful file A (umask mask) := by
  intro w w₁ _ prev w' hstep
  obtain ⟨⟨-, hkernel⟩, hreader, -⟩ := hstep
  refine ⟨.of_same hreader (fun ino _ => by rw [hkernel]) ?_, fun _ _ => trivial⟩
  rw [hkernel]
  rfl

section WriteFile

variable {data : Str} {mode : Mode} {out : File} {ino : ℕ} {k₀ : Kernel}

/-- The names and all the other inodes are those of the state `k₀`. -/
def Others (k₀ : Kernel) (ino : ℕ) (k : Kernel) : Prop :=
  k.names = k₀.names ∧ ∀ j ≠ ino, k.inodes j = k₀.inodes j

lemma Kept.others {k : Kernel} (h : Kept k₀ ino k) : Others k₀ ino k := ⟨h.names, h.inodes⟩

/-- The new file is not one that the reader has open or can open. -/
structure Apart (file : Str) (k₀ : Kernel) (ino : ℕ) (w : World) : Prop where
  others : Others k₀ ino w.kernel
  unnamed : k₀.names file ≠ some ino
  unheld : ¬ w.reader.Holds ino

lemma Apart.content_eq (h : Apart file k₀ ino w) : w.kernel.content file = k₀.content file := by
  refine Kernel.content_eq_of (by rw [h.others.1]) fun j hj => h.others.2 j ?_
  rintro rfl
  exact h.unnamed hj

lemma Apart.stable (h : Apart file k₀ ino w) (hrely : ReaderMay file w w') :
    w'.kernel = w.kernel ∧ Apart file k₀ ino w' := by
  refine ⟨hrely.1, by rw [hrely.1]; exact h.others, h.unnamed, fun hino => ?_⟩
  rcases hrely.2 ino hino with hheld | hname
  · exact h.unheld hheld
  · rw [h.others.1] at hname
    exact h.unnamed hname

/-- While the new file is filled the others stay as they are. -/
lemma Apart.safe {Q : α → Kernel → Prop} {E : SystemError → Kernel → Prop}
    (h : Apart file k₀ ino w) (hx : x.Ensures Kernel.step (Others k₀ ino) w.kernel Q E) :
    x.Safe (ReaderMay file) writeStep (WriterMay file A) w
      (fun a w' => Q a w'.kernel ∧ Apart file k₀ ino w')
      fun e w' => E e w'.kernel ∧ Apart file k₀ ino w' := by
  refine hx.safe h (fun _ _ hJ hrely => hJ.stable hrely) ?_
  rintro w c r w' hJ - ⟨hstep, hreader, -⟩
  refine ⟨hstep, fun hothers => ?_⟩
  have hJ' : Apart file k₀ ino w' := ⟨hothers, hJ.unnamed, by rw [hreader]; exact hJ.unheld⟩
  refine ⟨.of_same hreader (fun j hj => ?_) (by rw [hJ'.content_eq, hJ.content_eq]), hJ'⟩
  have hne : j ≠ ino := fun heq => hJ.unheld (heq ▸ hj)
  rw [hothers.2 j hne, hJ.others.2 j hne]

lemma ensures_fill_others (h : Holds k₀ out ino 0 [] k₀) :
    (out.scope do
      let mask ← umask 0o777
      let _ ← umask mask
      out.fchmod (mode &&& ~~~mask)
      out.write_all data
      out.close).Ensures Kernel.step (Others k₀ ino) k₀
        (fun _ k' => Kept k₀ ino k' ∧ (k'.inodes ino).content = data) fun _ => Kept k₀ ino := by
  have hothers : ∀ k', Kept k₀ ino k' → Others k₀ ino k' := fun _ hk' => hk'.others
  refine File.ensures_scope hothers ?_
  rw [ensures_bind, ensures_umask]
  refine ⟨h.toKept.others, h.toKept.others, ?_⟩
  rw [ensures_bind, ensures_umask, Umask.of_bits]
  refine ⟨h.toKept.others, h.toKept.others, ?_⟩
  rw [ensures_bind]
  refine ((File.ensures_fchmod h).weaken hothers).mono (fun _ k₁ h₁ => ?_) fun _ _ hk' => hk'
  have hdone := (File.ensures_write_close h₁ data).weaken hothers
  rwa [List.drop_nil, List.append_nil] at hdone

/-- The new file is made, and is apart from the others. -/
lemma safe_mkstemp (w : World) :
    (File.mkstemp file).Safe (ReaderMay file) writeStep (WriterMay file A) w
      (fun out w' => ∃ k₀ ino, w'.kernel = k₀ ∧ Holds k₀ out ino 0 [] k₀ ∧ Apart file k₀ ino w' ∧
        k₀.names out.pathname = some ino)
      fun _ _ => True := by
  intro w₁ _ r w' hstep
  obtain ⟨hkernel, hreader, hfree⟩ := hstep
  obtain ⟨code | fd, tmp⟩ := r
  · have hkernel : w'.kernel = w₁.kernel := hkernel
    refine ⟨.of_same hreader (fun ino _ => by rw [hkernel]) (by rw [hkernel]), fun _ _ => trivial⟩
  · obtain ⟨⟨stem, suffix, hstem, hlength, rfl⟩, -, -, ino, hino, hkernel⟩ := hkernel
    obtain rfl : file = stem := List.append_cancel_right hstem
    have hne : file ≠ file ++ suffix := by
      intro h
      have := congrArg List.length h
      simp [hlength] at this
    have hname : w'.kernel.names (file ++ suffix) = some ino := by
      rw [hkernel]
      simp [Kernel.create]
    -- what the reader has open is not free, or is not used again
    have hunheld : ¬ w₁.reader.Holds ino := fun hheld => (hfree ino hheld hino).1 _ hname
    refine ⟨.of_same hreader (fun j hj => ?_) ?_, fun w₂ hrely => ?_⟩
    · have hj' : j ≠ ino := fun heq => hunheld (heq ▸ hj)
      rw [hkernel]
      simp [Kernel.create, hj']
    · rw [hkernel]
      exact Kernel.content_create hino hne
    · have hapart : Apart file w'.kernel ino w' := by
        refine ⟨⟨rfl, fun _ _ => rfl⟩, ?_, by rwa [hreader]⟩
        rw [hkernel]
        simpa [Kernel.create, hne] using hino.1 file
      obtain ⟨hsame, hapart₂⟩ := hapart.stable hrely
      refine ⟨w'.kernel, ino, hsame, ⟨Kept.refl _ _, ?_, ?_⟩, hapart₂, hname⟩
      · rw [hkernel]
        simp [Kernel.create]
      · rw [hkernel]
        simp [Kernel.create]

lemma careful_write_file_atomically (hdata : data ∈ A) :
    Careful file A (write_file_atomically file data mode) := by
  intro w
  rw [write_file_atomically]
  refine Safe.bind ((safe_mkstemp w).mono ?_ fun _ _ h => h)
  rintro out w₀ ⟨_, ino, rfl, hholds, hapart, htmp⟩
  refine Safe.bind ((hapart.safe (ensures_fill_others hholds)).mono ?_ fun _ _ _ => trivial)
  rintro _ w₁ ⟨⟨hkept, hcontent⟩, hapart₁⟩ w₂ hrely r w₃ ⟨hstep, hreader, -⟩
  obtain ⟨hsame, hapart₂⟩ := hapart₁.stable hrely
  rw [← hkept.names, ← hsame] at htmp
  have hne : w₂.kernel.names file ≠ some ino := by
    rw [hapart₂.others.1]
    exact hapart₂.unnamed
  have hdone (res : Except Errno Unit) :
      (check (str "cannot rename " ++ out.pathname ++ str " to " ++ file) res).Safe
        (ReaderMay file) writeStep (WriterMay file A) w₃ (fun _ _ => True) fun _ _ => True := by
    cases res with
    | ok _ => exact fun _ _ => trivial
    | error _ => exact fun _ _ => trivial
  refine ⟨?_, hdone r⟩
  -- no inode is changed by giving the new file its name
  have hinodes : w₃.kernel.inodes = w₂.kernel.inodes := by
    cases r with
    | error _ => rw [show w₃.kernel = w₂.kernel from hstep]
    | ok _ =>
      obtain ⟨i, -, hk⟩ := hstep
      rw [hk]
      split <;> rfl
  refine ⟨hreader, fun j _ => by rw [hinodes], fun c hc => ?_⟩
  obtain ⟨-, ⟨-, -, hk⟩ | ⟨-, hnew⟩⟩ := step_rename htmp hne hstep
  · rw [hk] at hc
    exact .inl hc
  · rw [hnew, hsame, hcontent] at hc
    exact .inr (Option.some.inj hc ▸ hdata)

end WriteFile

end Libept.Sys
