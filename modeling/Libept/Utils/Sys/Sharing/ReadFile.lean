import Libept.Utils.Sys.Sharing.Reader

/-!
# Mapping a file while it is replaced

`read_file` maps the file that it has opened, as far as its size goes. The file is not written to
any more, so that no byte is missing when the memory is copied.
-/

namespace Libept.Sys

open Prog

variable {file : Str} {A : Set Str} {w w' : World} {r₀ : Reader} {fd : Fd} {addr : Addr} {c : Str}
  {keeps : Prop} {E : Option ReadError → World → Prop}

/-- All of a file that has a certain content is mapped. -/
structure Mapped (r₀ : Reader) (addr : Addr) (c : Str) (w : World) : Prop where
  addr_new : r₀.maps addr = none
  reader : ∃ ino, w.reader = r₀.setMap addr (some ⟨ino, c.length⟩) ∧
    (w.kernel.inodes ino).content = c

lemma Mapped.stable (h : Mapped r₀ addr c w) (hrely : WriterMay file A w w') :
    Mapped r₀ addr c w' := by
  obtain ⟨hnew, ino, hreader, hcontent⟩ := h
  have hheld : w.reader.Holds ino := by
    rw [hreader]
    exact .inr ⟨addr, ⟨ino, c.length⟩, Function.update_self _ _ _, rfl⟩
  exact ⟨hnew, ino, hrely.reader.trans hreader, (hrely.held ino hheld).trans hcontent⟩

/-- What is got from the memory is the content. -/
lemma Mapped.safe_load (h : Mapped r₀ addr c w) :
    (askRead (.load addr c.length)).Safe (WriterMay file A) (readStep keeps) (ReaderMay file) w
      (fun bytes w' => (∃ m, w'.reader = r₀.setMap addr (some m)) ∧ bytes = c) E := by
  rintro w₁ h₁ bytes w₂ ⟨hstep, hkernel⟩
  have hmapped := h.stable h₁
  obtain ⟨-, ino, hreader, hcontent⟩ := hmapped
  have hmap : w₁.reader.maps addr = some ⟨ino, c.length⟩ := by
    rw [hreader]
    exact Function.update_self _ _ _
  obtain ⟨m, hm, hload⟩ := hstep
  obtain rfl : m = ⟨ino, c.length⟩ := Option.some.inj (hm.symm.trans hmap)
  obtain ⟨hbytes, hsame⟩ := hload le_rfl (by rw [hcontent])
  rw [hcontent, List.take_length] at hbytes
  obtain rfl : w₂ = w₁ := World.ext hkernel hsame
  exact ⟨readerMay_refl _, fun w₃ h₃ => ⟨⟨_, h₃.reader.trans hreader⟩, hbytes⟩⟩

lemma Mapped.safe_scope (h : Mapped r₀ addr c w) (length : ℕ) :
    (MMap.scope ⟨addr, length⟩ (askRead (.load addr c.length))).Safe (WriterMay file A)
      (readStep keeps) (ReaderMay file) w (fun bytes w' => GivenBack keeps r₀ w'.reader ∧ bytes = c)
      fun _ w' => GivenBack keeps r₀ w'.reader ∧ False := by
  refine safe_andFinally r₀ (B := fun r => ∃ m, r = r₀.setMap addr (some m))
    (fun k r res r' hr hstep => ?_) h.safe_load
  obtain ⟨m, hr⟩ := hr
  exact unmaps h.addr_new hr hstep

lemma Opened.safe_fstat (h : Opened r₀ fd 0 c w) (pathname : Str) :
    (File.fstat ⟨fd, pathname⟩).Safe (WriterMay file A) (readStep keeps) (ReaderMay file) w
      (fun st w' => Opened r₀ fd 0 c w' ∧ st.st_size = c.length)
      fun err w' => Opened r₀ fd 0 c w' ∧ SystemFailure err := by
  rintro w₁ h₁ res w₂ ⟨hstep, hkernel⟩
  have hopened := h.stable h₁
  have hreader : w₂.reader = w₁.reader := by
    cases res with
    | error _ => exact hstep
    | ok _ => exact hstep.2
  obtain rfl : w₂ = w₁ := World.ext hkernel hreader
  refine ⟨readerMay_refl _, safe_checkRead ?_ fun code _ w₃ h₃ => ⟨hopened.stable h₃, _, rfl⟩⟩
  rintro st rfl w₃ h₃
  refine ⟨hopened.stable h₃, ?_⟩
  obtain ⟨-, ino, hopen, hcontent⟩ := hopened
  obtain ⟨⟨o, ho, hsize⟩, -⟩ := hstep
  have hfd : w₂.reader.fds fd = some ⟨ino, 0⟩ := by
    rw [hopen]
    exact Function.update_self _ _ _
  obtain rfl : o = ⟨ino, 0⟩ := Option.some.inj (ho.symm.trans hfd)
  rw [hsize, hcontent]

lemma Opened.safe_mmap (h : Opened r₀ fd 0 c w) (pathname : Str) :
    (File.mmap ⟨fd, pathname⟩ c.length).Safe (WriterMay file A) (readStep keeps) (ReaderMay file) w
      (fun src w' => c ≠ [] ∧ ∃ o, Mapped (r₀.setFd fd (some o)) src.addr c w')
      fun err w' => Opened r₀ fd 0 c w' ∧ SystemFailure err := by
  rintro w₁ h₁ res w₂ ⟨hstep, hkernel⟩
  have hopened := h.stable h₁
  cases res with
  | error code =>
    obtain rfl : w₂ = w₁ := World.ext hkernel hstep
    exact ⟨readerMay_refl _, fun w₃ h₃ => ⟨hopened.stable h₃, _, rfl⟩⟩
  | ok addr =>
    obtain ⟨hlength, haddr, o, ho, hreader⟩ := hstep
    obtain ⟨-, ino, hopen, hcontent⟩ := hopened
    have hfd : w₁.reader.fds fd = some ⟨ino, 0⟩ := by
      rw [hopen]
      exact Function.update_self _ _ _
    obtain rfl : o = ⟨ino, 0⟩ := Option.some.inj (ho.symm.trans hfd)
    refine ⟨readerMay_of_holds hkernel fun j hj => ?_, fun w₃ h₃ => ?_⟩
    · rw [hreader] at hj
      rcases Reader.holds_setMap hj with hj | rfl
      · exact hj
      · exact .inl ⟨_, _, hfd, rfl⟩
    · have hmapped : Mapped (r₀.setFd fd (some ⟨ino, 0⟩)) addr c w₂ := by
        rw [hopen] at hreader haddr
        exact ⟨haddr, ino, hreader, by rw [hkernel, hcontent]⟩
      exact ⟨List.length_pos_iff.mp (Nat.pos_of_ne_zero hlength), _, hmapped.stable h₃⟩

/-- The file is read as a whole, in one of its versions, and nothing is left open or mapped. An
empty file cannot be read. -/
lemma safe_read_file (h : Versions file A w) :
    (read_file file).Safe (WriterMay file A) (readStep keeps) (ReaderMay file) w
      (fun bytes w' => GivenBack keeps w.reader w'.reader ∧ bytes ∈ A ∧ bytes ≠ [])
      fun err w' => GivenBack keeps w.reader w'.reader ∧ SystemFailure err := by
  rintro w₁ h₁ res w₂ ⟨hstep, hkernel⟩
  have hversions := h.stable h₁
  rw [← h₁.reader]
  cases res with
  | error code =>
    obtain rfl : w₂ = w₁ := World.ext hkernel hstep
    exact ⟨readerMay_refl _, fun w₃ h₃ => ⟨.of_eq h₃.reader, _, rfl⟩⟩
  | ok fd =>
    obtain ⟨hfd, ino, hname, hreader⟩ := hstep
    obtain ⟨hmay, c, hc, hopened⟩ := opened_of_names hversions hfd hname hkernel hreader
    refine ⟨hmay, safe_andFinally _ (B := Besides keeps w₁.reader fd)
      (fun k r res r' hr hstep => closes_fd hfd hr hstep) ?_⟩
    have hfailed {err : Option ReadError} {w' : World}
        (h : Opened w₁.reader fd 0 c w' ∧ SystemFailure err) :
        Besides keeps w₁.reader fd w'.reader ∧ SystemFailure err :=
      ⟨h.1.besides, h.2⟩
    refine Safe.bind ((hopened.safe_fstat file).mono ?_ fun _ _ => hfailed)
    rintro st w₃ ⟨hopened₃, hsize⟩
    rw [hsize]
    refine Safe.bind ((hopened₃.safe_mmap file).mono ?_ fun _ _ => hfailed)
    rintro src w₄ ⟨hne, o, hmapped⟩
    refine (hmapped.safe_scope src.length).mono ?_ fun _ _ h => h.2.elim
    rintro bytes w₅ ⟨hreader₅, hbytes⟩
    exact ⟨⟨o, hreader₅⟩, by rwa [show bytes = c from hbytes], hbytes.trans_ne hne⟩

/-- The file is replaced with each of these texts in turn. A failure of one does not stop the
others. -/
def writeEach (file : Str) (datas : List Str) (mode : Mode) : SysProg Unit :=
  datas.forM fun data => (write_file_atomically file data mode).handle fun _ => pure ()

lemma careful_writeEach {datas : List Str} {mode : Mode} (hdatas : ∀ data ∈ datas, data ∈ A) :
    Careful file A (writeEach file datas mode) :=
  Careful.forM fun data hdata =>
    (careful_write_file_atomically (hdatas data hdata)).handle fun _ => careful_pure ()

/-- The content that the file has, and what it is replaced with. -/
def contents (file : Str) (datas : List Str) (w : World) : Set Str :=
  {c | w.kernel.content file = some c ∨ c ∈ datas}

/-- While another process replaces the file, what is read is not empty and is what the file held at
the beginning or one of the texts, as a whole. However it ends, all that has been opened and mapped
is given back. -/
theorem read_file_while_replaced (keeps : Prop) (file : Str) (datas : List Str) (mode : Mode)
    (w w' : World) (x : SysProg Unit) (y : ReadProg Str)
    (hrun : Interleaves writeStep (readStep keeps) (writeEach file datas mode) (read_file file)
      w x y w') :
    (∀ bytes, y = .ret bytes → GivenBack keeps w.reader w'.reader ∧ bytes ≠ [] ∧
      (w.kernel.content file = some bytes ∨ bytes ∈ datas)) ∧
      ∀ err, y = .throw err → GivenBack keeps w.reader w'.reader ∧ SystemFailure err := by
  have hversions : Versions file (contents file datas w) w := fun c hc => .inl hc
  have hwriter : Careful file (contents file datas w) (writeEach file datas mode) :=
    careful_writeEach fun data hdata => .inr hdata
  obtain ⟨-, hsafe⟩ := hrun.safe (fun _ _ h => h) (fun _ _ h => h) (hwriter w)
    (safe_read_file hversions)
  refine ⟨?_, ?_⟩
  · rintro bytes rfl
    obtain ⟨hreader, hbytes, hne⟩ := hsafe w' (IsRely.refl _)
    exact ⟨hreader, hne, hbytes⟩
  · rintro err rfl
    exact hsafe w' (IsRely.refl _)

/-- A single byte is written at once. -/
lemma File.write_all_one (out : File) {data : Str} (hdata : data.length = 1) :
    out.write_all data = out.write data >>= fun _ => pure () := by
  rw [File.write_all, File.writeLoop, if_pos (by omega)]
  refine congrArg _ (funext fun n => ?_)
  have hcount := n.pos (List.ne_nil_of_length_pos (by rw [List.length_drop]; omega))
  rw [File.writeLoop, if_neg (by omega)]

/-- The file is replaced after it has been opened: the old text is read, from its inode. -/
lemma interleaves_read_old :
    ∃ w', Interleaves writeStep (readStep False) (writeEach (str "voc") [str "n"] 0o666)
        (read_file (str "voc")) ⟨.single (str "voc") (str "old") (.of 0o022), .idle⟩ (.ret ())
        (.ret (str "old")) w' ∧
      w'.kernel.content (str "voc") = some (str "n") := by
  have hheld {k k' : Kernel} (hname : k.names (str "voc") = some 0) (ino : ℕ)
      (hino : (Reader.idle.setFd 0 (some ⟨0, 0⟩)).Holds ino) (hfree : k.Free ino) :
      k'.Free ino := by
    rw [← Reader.holds_idle_setFd hino] at hfree
    exact absurd hname (hfree.1 _)
  have hall (out : File) := out.write_all_one (show (str "n").length = 1 by decide)
  have htmp : ∃ stem suffix, str "voc" ++ str "XXXXXX" = stem ++ str "XXXXXX" ∧
      suffix.length = 6 ∧ str "voca1B2c3" = stem ++ suffix :=
    ⟨str "voc", str "a1B2c3", rfl, by decide, rfl⟩
  constructor
  constructor
  · apply Interleaves.right (Except.ok 0 : Except Errno Fd) ⟨_, _⟩ ⟨⟨rfl, 0, rfl, rfl⟩, rfl⟩
    -- a new file is filled and gets the name
    apply Interleaves.left ((.ok 3, str "voca1B2c3") : Except Errno Fd × Str) ⟨_, _⟩
      ⟨⟨htmp, rfl, by decide, 1, Kernel.free_single Nat.one_ne_zero, rfl⟩, rfl, hheld rfl⟩
    apply Interleaves.left _ ⟨_, _⟩ ⟨⟨rfl, rfl⟩, rfl, hheld rfl⟩
    apply Interleaves.left _ ⟨_, _⟩ ⟨⟨rfl, rfl⟩, rfl, hheld rfl⟩
    apply Interleaves.left (Except.ok () : Except Errno Unit) ⟨_, _⟩
      ⟨⟨⟨1, 0⟩, rfl, rfl⟩, rfl, hheld rfl⟩
    rw [hall]
    apply Interleaves.left (Except.ok ⟨1, by decide, by decide⟩ : Except Errno (Stored (str "n")))
      ⟨_, _⟩ ⟨⟨⟨1, 0⟩, rfl, rfl⟩, rfl, hheld rfl⟩
    apply Interleaves.left (Except.ok () : Except Errno Unit) ⟨_, _⟩ ⟨⟨rfl, rfl⟩, rfl, hheld rfl⟩
    apply Interleaves.left (Except.ok () : Except Errno Unit) ⟨_, _⟩
      ⟨⟨1, rfl, rfl⟩, rfl, hheld rfl⟩
    -- what is read is still the old one
    apply Interleaves.right (Except.ok ⟨3, 0⟩ : Except Errno FileStat) ⟨_, _⟩
      ⟨⟨⟨⟨0, 0⟩, rfl, rfl⟩, rfl⟩, rfl⟩
    apply Interleaves.right (Except.ok 4096 : Except Errno Addr) ⟨_, _⟩
      ⟨⟨by decide, rfl, ⟨0, 0⟩, rfl, rfl⟩, rfl⟩
    apply Interleaves.right (str "old") ⟨_, _⟩ ⟨⟨_, rfl, fun _ _ => ⟨rfl, rfl⟩⟩, rfl⟩
    apply Interleaves.right (Except.ok () : Except Errno Unit) ⟨_, _⟩ ⟨rfl, rfl⟩
    apply Interleaves.right (Except.ok () : Except Errno Unit) ⟨_, _⟩ ⟨.inl rfl, rfl⟩
    exact .refl _ _ _
  · rfl

theorem read_file_while_replaced_once :
    ∃ w', Interleaves writeStep (readStep False) (writeEach (str "voc") [str "n"] 0o666)
        (read_file (str "voc")) ⟨.single (str "voc") (str "old") (.of 0o022), .idle⟩ (.ret ())
        (.ret (str "old")) w' ∧
      w'.kernel.content (str "voc") = some (str "n") ∧ w'.reader = .idle := by
  obtain ⟨w', hrun, hcontent⟩ := interleaves_read_old
  exact ⟨w', hrun, hcontent, ((read_file_while_replaced _ _ _ _ _ _ _ _ hrun).1 _ rfl).1.eq id⟩

end Libept.Sys
