import Libept.Utils.Sys.Sharing

/-!
# Reading a file while it is replaced

What is read of a file is one of its versions, from the first byte to the last, however many reads
it takes and however often the file is replaced in between.
-/

namespace Libept.Sys

open Prog

variable {file : Str} {A : Set Str} {w w' w₁ w₂ : World} {r r₀ : Reader} {fd : Fd} {addr : Addr}
  {ino : ℕ} {o : OpenFile} {c : Str} {α : Type} {keeps : Prop}

namespace Reader

lemma holds_setFd (h : (r.setFd fd (some o)).Holds ino) : r.Holds ino ∨ o.ino = ino := by
  rcases h with ⟨fd', o', ho', rfl⟩ | hmap
  · simp only [setFd, Function.update_apply] at ho'
    split_ifs at ho' with heq
    · exact .inr (congrArg OpenFile.ino (Option.some.inj ho'))
    · exact .inl (.inl ⟨fd', o', ho', rfl⟩)
  · exact .inl (.inr hmap)

lemma holds_setFd_none (h : (r.setFd fd none).Holds ino) : r.Holds ino := by
  rcases h with ⟨fd', o', ho', rfl⟩ | hmap
  · simp only [setFd, Function.update_apply] at ho'
    split_ifs at ho'
    exact .inl ⟨fd', o', ho', rfl⟩
  · exact .inr hmap

lemma holds_idle_setFd (h : (idle.setFd fd (some o)).Holds ino) : o.ino = ino := by
  rcases holds_setFd h with (⟨_, _, h, -⟩ | ⟨_, _, h, -⟩) | h
  · cases h
  · cases h
  · exact h

lemma holds_setMap {m : Mapping} (h : (r.setMap addr (some m)).Holds ino) :
    r.Holds ino ∨ m.ino = ino := by
  rcases h with hfd | ⟨addr', m', hm', rfl⟩
  · exact .inl (.inl hfd)
  · simp only [setMap, Function.update_apply] at hm'
    split_ifs at hm' with heq
    · exact .inr (congrArg Mapping.ino (Option.some.inj hm'))
    · exact .inl (.inr ⟨addr', m', hm', rfl⟩)

lemma holds_setMap_none (h : (r.setMap addr none).Holds ino) : r.Holds ino := by
  rcases h with hfd | ⟨addr', m', hm', rfl⟩
  · exact .inl hfd
  · simp only [setMap, Function.update_apply] at hm'
    split_ifs at hm'
    exact .inr ⟨addr', m', hm', rfl⟩

/-- Closing gives back what was there before. -/
lemma setFd_setFd (h : r.fds fd = none) (o : Option OpenFile) :
    (r.setFd fd o).setFd fd none = r := by
  rw [setFd, setFd, Function.update_idem, ← h, Function.update_eq_self]

lemma setMap_setMap (h : r.maps addr = none) (m : Option Mapping) :
    (r.setMap addr m).setMap addr none = r := by
  rw [setMap, setMap, Function.update_idem, ← h, Function.update_eq_self]

end Reader

/-- The content of the file, if there is one, is one of the versions. -/
def Versions (file : Str) (A : Set Str) (w : World) : Prop :=
  ∀ c, w.kernel.content file = some c → c ∈ A

lemma Versions.stable (h : Versions file A w) (hrely : WriterMay file A w w') :
    Versions file A w' := by
  intro c hc
  rcases hrely.version c hc with hc | hc
  · exact h c hc
  · exact hc

/-- The reader has opened one thing more: a file that has a certain content. -/
structure Opened (r₀ : Reader) (fd : Fd) (offset : ℕ) (c : Str) (w : World) : Prop where
  fd_new : r₀.fds fd = none
  reader : ∃ ino, w.reader = r₀.setFd fd (some ⟨ino, offset⟩) ∧ (w.kernel.inodes ino).content = c

lemma Opened.stable {offset : ℕ} (h : Opened r₀ fd offset c w) (hrely : WriterMay file A w w') :
    Opened r₀ fd offset c w' := by
  obtain ⟨hnew, ino, hreader, hcontent⟩ := h
  have hheld : w.reader.Holds ino := by
    rw [hreader]
    exact .inl ⟨fd, ⟨ino, offset⟩, Function.update_self _ _ _, rfl⟩
  exact ⟨hnew, ino, hrely.reader.trans hreader, (hrely.held ino hheld).trans hcontent⟩

/-- A call after which no more is held is one that the writer relies on. -/
lemma readerMay_of_holds (hkernel : w'.kernel = w.kernel)
    (h : ∀ ino, w'.reader.Holds ino → w.reader.Holds ino) : ReaderMay file w w' :=
  ⟨hkernel, fun ino hino => .inl (h ino hino)⟩

variable {Q : α → World → Prop} {E : Option ReadError → World → Prop}

lemma safe_checkRead {what : Str} {res : Except Errno α}
    (hok : ∀ a, res = .ok a → ∀ w₁, WriterMay file A w w₁ → Q a w₁)
    (herr : ∀ code, res = .error code →
      ∀ w₁, WriterMay file A w w₁ → E (some (.systemError ⟨code, what⟩)) w₁) :
    (checkRead what res).Safe (WriterMay file A) (readStep keeps) (ReaderMay file) w Q E := by
  cases res with
  | ok a => exact hok a rfl
  | error code => exact herr code rfl

/-- Some more bytes are read. -/
lemma Opened.read {offset : ℕ} {more : Str} (h : Opened r₀ fd offset c w)
    (hstep : readStep keeps w (.read fd) more w') :
    ReaderMay file w w' ∧ Opened r₀ fd (offset + more.length) c w' ∧
      ∃ k, 0 < k ∧ more = (c.drop offset).take k := by
  obtain ⟨⟨o, k, ho, hk, hmore, hreader'⟩, hkernel⟩ := hstep
  obtain ⟨hnew, ino, hreader, hcontent⟩ := h
  have hfd : w.reader.fds fd = some ⟨ino, offset⟩ := by
    rw [hreader]
    exact Function.update_self _ _ _
  obtain rfl : o = ⟨ino, offset⟩ := Option.some.inj (ho.symm.trans hfd)
  rw [hcontent] at hmore
  refine ⟨readerMay_of_holds hkernel fun j hj => ?_, ⟨hnew, ino, ?_, ?_⟩, k, hk, hmore⟩
  · rw [hreader'] at hj
    rcases Reader.holds_setFd hj with hj | rfl
    · exact hj
    · exact .inl ⟨fd, _, hfd, rfl⟩
  · rw [hreader', hreader, Reader.setFd, Reader.setFd, Function.update_idem]
    rfl
  · rw [hkernel, hcontent]

/-- A stream is read to its end. By induction on the turns that are left. -/
lemma safe_readAll {n : ℕ} {bytes : Str} (h : Opened r₀ fd bytes.length c w)
    (hbytes : bytes = c.take bytes.length) :
    (readAll n fd bytes).Safe (WriterMay file A) (readStep keeps) (ReaderMay file) w
      (fun res w' => res = c ∧ ∃ offset, Opened r₀ fd offset c w')
      fun err w' => err = none ∧ n + bytes.length ≤ c.length ∧
        ∃ offset, Opened r₀ fd offset c w' := by
  induction n generalizing bytes w with
  | zero =>
    intro w₁ hrely
    have hlength := congrArg List.length hbytes
    rw [List.length_take] at hlength
    exact ⟨rfl, by omega, _, h.stable hrely⟩
  | succ n ih =>
    intro w₁ hrely more w₂ hstep
    obtain ⟨hmay, hopened, k, hk, hmore⟩ := (h.stable hrely).read hstep
    refine ⟨hmay, ?_⟩
    show (if more = [] then pure bytes else readAll n fd (bytes ++ more)).Safe _ _ _ _ _ _
    split_ifs with hnil
    · intro w₃ hrely'
      rw [hnil, eq_comm, List.take_eq_nil_iff, or_iff_right hk.ne', List.drop_eq_nil_iff] at hmore
      rw [List.take_of_length_le hmore] at hbytes
      exact ⟨hbytes, _, hopened.stable hrely'⟩
    · have hpos : 0 < more.length := List.length_pos_of_ne_nil hnil
      have htake : bytes ++ more = c.take (bytes ++ more).length := by
        have hlength : more.length ≤ k := by
          rw [hmore, List.length_take]
          exact Nat.min_le_left _ _
        have hmore' : more = (c.drop bytes.length).take more.length := by
          conv_lhs => rw [hmore, ← List.take_length (l := (c.drop bytes.length).take k),
            List.take_take]
          rw [← hmore, Nat.min_eq_left hlength]
        rw [List.length_append, List.take_add, ← hbytes, ← hmore']
      rw [← List.length_append] at hopened
      refine (ih hopened htake).mono (fun _ _ h => h) ?_
      rintro err w' ⟨herr, hle, hopened'⟩
      rw [List.length_append] at hle
      exact ⟨herr, by omega, hopened'⟩

/-- The file is opened, in one of its versions. -/
lemma opened_of_names (h : Versions file A w) (hfd : w.reader.fds fd = none)
    (hname : w.kernel.names file = some ino) (hkernel : w'.kernel = w.kernel)
    (hreader : w'.reader = w.reader.setFd fd (some ⟨ino, 0⟩)) :
    ReaderMay file w w' ∧ ∃ c ∈ A, Opened w.reader fd 0 c w' := by
  refine ⟨⟨hkernel, fun j hj => ?_⟩, _, h (w.kernel.inodes ino).content ?_, hfd, ino, hreader, ?_⟩
  · rw [hreader] at hj
    rcases Reader.holds_setFd hj with hj | rfl
    · exact .inl hj
    · exact .inr hname
  · rw [Kernel.content, hname]
    rfl
  · rw [hkernel]

/-! ### Closing -/

namespace GivenBack

variable {r' : Reader}

lemma of_eq (h : r' = r) : GivenBack keeps r r' :=
  ⟨.of_eq (congrArg Reader.fds h), .of_eq (congrArg Reader.maps h)⟩

lemma same (h : GivenBack keeps r₀ r) (hsame : r' = r) : GivenBack keeps r₀ r' := hsame ▸ h

lemma eq (h : GivenBack keeps r r') (hnot : ¬ keeps) : r' = r :=
  Reader.ext (h.fds.eq hnot) (h.maps.eq hnot)

end GivenBack

/-- What has been opened for a program is closed behind it, whatever comes out of it. -/
lemma safe_andFinally (r₀ : Reader) {call : ReadCall} {x : ReadProg α} {B : Reader → Prop}
    {P : α → Prop} {P' : Option ReadError → Prop}
    (hback : ∀ k r res r', B r → r.step keeps k call res r' →
      GivenBack keeps r₀ r' ∧ ∀ ino, r'.Holds ino → r.Holds ino)
    (h : x.Safe (WriterMay file A) (readStep keeps) (ReaderMay file) w
      (fun a w' => B w'.reader ∧ P a) fun err w' => B w'.reader ∧ P' err) :
    (x.andFinally do
      let _ ← askRead call).Safe (WriterMay file A) (readStep keeps) (ReaderMay file) w
        (fun a w' => GivenBack keeps r₀ w'.reader ∧ P a)
        fun err w' => GivenBack keeps r₀ w'.reader ∧ P' err := by
  have hclose {P : Prop} {E : Option ReadError → World → Prop} {w' : World}
      (h : B w'.reader ∧ P) :
      (askRead call >>= fun _ => pure ()).Safe (WriterMay file A) (readStep keeps)
        (ReaderMay file) w'
        (fun _ w' => ∀ w₁, WriterMay file A w' w₁ → GivenBack keeps r₀ w₁.reader ∧ P) E := by
    rintro w₁ h₁ res w₂ ⟨hstep, hkernel⟩
    rw [← h₁.reader] at h
    obtain ⟨hreader, hholds⟩ := hback _ _ _ _ h.1 hstep
    refine ⟨readerMay_of_holds hkernel hholds, fun w₃ h₃ w₄ h₄ => ⟨?_, h.2⟩⟩
    rw [h₄.reader, h₃.reader]
    exact hreader
  exact Safe.andFinally (h.mono (fun _ _ h => hclose h) fun _ _ h => hclose h)

/-- The reader has something open in addition, and the rest has been given back. -/
def Besides (keeps : Prop) (r₀ : Reader) (fd : Fd) (r : Reader) : Prop :=
  ∃ o, GivenBack keeps (r₀.setFd fd (some o)) r

/-- Closing a descriptor gives back what was open before. -/
lemma closes_fd (hnew : r₀.fds fd = none) (hr : Besides keeps r₀ fd r) {r' : Reader}
    {res : Except Errno Unit} (hr' : GivesBack keeps res r (r.setFd fd none) r') :
    GivenBack keeps r₀ r' ∧ ∀ ino, r'.Holds ino → r.Holds ino := by
  obtain ⟨o, hr⟩ := hr
  rcases hr' with rfl | ⟨hkeeps, -, rfl⟩
  · exact ⟨⟨hr.fds.giveBack hnew, hr.maps⟩, fun _ => Reader.holds_setFd_none⟩
  · exact ⟨⟨hr.fds.keep hnew hkeeps, hr.maps⟩, fun _ h => h⟩

/-- A memory area is unmapped, which gives back what was there before. -/
lemma unmaps {m : Mapping} {k : Kernel} {length : ℕ} {res : Except Errno Unit} {r' : Reader}
    (hnew : r₀.maps addr = none) (hr : r = r₀.setMap addr (some m))
    (hstep : r.step keeps k (.munmap addr length) res r') :
    GivenBack keeps r₀ r' ∧ ∀ ino, r'.Holds ino → r.Holds ino := by
  subst hr
  cases res with
  | ok _ =>
    have hr' : r' = (r₀.setMap addr (some m)).setMap addr none := hstep
    subst hr'
    exact ⟨.of_eq (Reader.setMap_setMap hnew _), fun _ => Reader.holds_setMap_none⟩
  | error _ =>
    obtain ⟨hnone | hkeeps, hsame⟩ := hstep
    · simp [Reader.setMap] at hnone
    · subst hsame
      exact ⟨⟨.refl _, (Table.Same.refl _).keep hnew hkeeps⟩, fun _ hino => hino⟩

/-! ### Streams -/

/-- What is known when reading has been given up. -/
def GivenUp (A : Set Str) (n : ℕ) (parse : Str → Option (Except Failure Unit × α)) :
    Option ReadError → Prop
  | none => ∃ c ∈ A, n ≤ c.length ∨ parse c = none
  | some (.failure e) => ∃ c ∈ A, ∃ a, parse c = some (.error e, a)
  | some (.systemError _) => True

/-- A call has failed, and that is what is thrown. -/
def SystemFailure (err : Option ReadError) : Prop := ∃ e, err = some (.systemError e)

/-- If all versions are parsed, only a call can fail. -/
lemma GivenUp.systemFailure {n : ℕ} {parse : Str → Option (Except Failure Unit × α)}
    {err : Option ReadError} (h : GivenUp A n parse err)
    (hparse : ∀ c ∈ A, c.length < n ∧ ∃ a, parse c = some (.ok (), a)) : SystemFailure err := by
  match err, h with
  | none, ⟨c, hc, hbound⟩ =>
    obtain ⟨hlength, a, ha⟩ := hparse c hc
    rcases hbound with hle | hnone
    · omega
    · cases hnone.symm.trans ha
  | some (.failure e), ⟨c, hc, b, hfailed⟩ =>
    obtain ⟨-, a, ha⟩ := hparse c hc
    cases hfailed.symm.trans ha
  | some (.systemError e), _ => exact ⟨e, rfl⟩

lemma Opened.besides {offset : ℕ} (h : Opened r₀ fd offset c w) :
    Besides keeps r₀ fd w.reader := by
  obtain ⟨-, ino, hreader, -⟩ := h
  exact ⟨_, .of_eq hreader⟩

/-- What is parsed is one of the versions, and the stream is closed. -/
lemma safe_parseFile (n : ℕ) (parse : Str → Option (Except Failure Unit × α))
    (h : Versions file A w) :
    (parseFile n file parse).Safe (WriterMay file A) (readStep keeps) (ReaderMay file) w
      (fun a w' => GivenBack keeps w.reader w'.reader ∧ ∃ c ∈ A, parse c = some (.ok (), a))
      fun err w' => GivenBack keeps w.reader w'.reader ∧ GivenUp A n parse err := by
  intro w₁ hrely res w₂ hstep
  have hversions := h.stable hrely
  rw [← hrely.reader]
  obtain ⟨hstep, hkernel⟩ := hstep
  cases res with
  | error code =>
    have hreader : w₂.reader = w₁.reader := hstep
    refine ⟨readerMay_of_holds hkernel fun j hj => by rwa [← hreader], fun w₃ hrely' => ?_⟩
    exact ⟨.of_eq (hrely'.reader.trans hreader), trivial⟩
  | ok fd =>
    obtain ⟨hfd, ino, hname, hreader⟩ := hstep
    obtain ⟨hmay, c, hc, hopened⟩ := opened_of_names hversions hfd hname hkernel hreader
    refine ⟨hmay, safe_andFinally _ (B := Besides keeps w₁.reader fd)
      (fun k r res r' hr hstep => closes_fd hfd hr hstep) ?_⟩
    refine Safe.bind ((safe_readAll hopened rfl).mono ?_ ?_)
    · rintro input w₃ ⟨rfl, _, hopened₃⟩
      have hkept {w₄ : World} (hrely₄ : WriterMay file A w₃ w₄) :
          Besides keeps w₁.reader fd w₄.reader := (hopened₃.stable hrely₄).besides
      cases hparse : parse input with
      | none => exact fun w₄ hrely₄ => ⟨hkept hrely₄, input, hc, .inr hparse⟩
      | some res =>
        obtain ⟨error | _, a⟩ := res
        · exact fun w₄ hrely₄ => ⟨hkept hrely₄, input, hc, a, hparse⟩
        · exact fun w₄ hrely₄ => ⟨hkept hrely₄, input, hc, hparse⟩
    · rintro err w₃ ⟨rfl, hle, _, hopened₃⟩
      exact ⟨hopened₃.besides, c, hc, .inl (by simpa using hle)⟩

/-- A call that changes nothing. -/
lemma readerMay_refl (w : World) : ReaderMay file w w := readerMay_of_holds rfl fun _ h => h

lemma safe_exists (h : Versions file A w) :
    (exists_ file).Safe (WriterMay file A) (readStep keeps) (ReaderMay file) w
      (fun _ w' => w'.reader = w.reader ∧ Versions file A w') E := by
  rintro w₁ h₁ found w₂ ⟨⟨-, hreader⟩, hkernel⟩
  obtain rfl : w₂ = w₁ := World.ext hkernel hreader
  exact ⟨readerMay_refl _, fun w₃ h₃ =>
    ⟨h₃.reader.trans h₁.reader, (h.stable h₁).stable h₃⟩⟩

lemma safe_statFile :
    (statFile file).Safe (WriterMay file A) (readStep keeps) (ReaderMay file) w
      (fun _ w' => w'.reader = w.reader)
      fun err w' => w'.reader = w.reader ∧ SystemFailure err := by
  rintro w₁ h₁ res w₂ ⟨hreader, hkernel⟩
  have hreader : w₂.reader = w₁.reader := by
    cases res with
    | error _ => exact hreader
    | ok _ => exact hreader.2
  obtain rfl : w₂ = w₁ := World.ext hkernel hreader
  refine ⟨readerMay_refl _, ?_⟩
  have hsame (w₃ : World) (h₃ : WriterMay file A w₂ w₃) : w₃.reader = w.reader :=
    h₃.reader.trans h₁.reader
  cases res with
  | ok st => exact hsame
  | error errno =>
    show (if errno = noent then pure none else _ : ReadProg (Option FileStat)).Safe _ _ _ _ _ _
    split_ifs
    · exact hsame
    · exact fun w₃ h₃ => ⟨hsame w₃ h₃, _, rfl⟩

lemma safe_timestamp (def_ : Time) :
    (timestamp file def_).Safe (WriterMay file A) (readStep keeps) (ReaderMay file) w
      (fun _ w' => w'.reader = w.reader) fun err w' => w'.reader = w.reader ∧ SystemFailure err :=
  Safe.bind (safe_statFile.mono (fun _ _ h _ h₁ => h₁.reader.trans h) fun _ _ h => h)

lemma safe_loadFile (n : ℕ) (parse : Str → Option (Except Failure Unit × α))
    (h : Versions file A w) :
    (loadFile n file parse).Safe (WriterMay file A) (readStep keeps) (ReaderMay file) w
      (fun a w' => GivenBack keeps w.reader w'.reader ∧ ∃ c ∈ A, parse c = some (.ok (), a.1))
      fun err w' => GivenBack keeps w.reader w'.reader ∧ GivenUp A n parse err := by
  refine Safe.bind ((safe_parseFile n parse h).mono ?_ fun _ _ h => h)
  rintro a w₁ ⟨h₁, hparse⟩
  refine Safe.bind ((safe_timestamp 0).mono (fun m_timestamp w₂ h₂ w₃ h₃ => ?_) ?_)
  · exact ⟨h₁.same (h₃.reader.trans h₂), hparse⟩
  · rintro _ w₂ ⟨h₂, e, rfl⟩
    exact ⟨h₁.same h₂, trivial⟩

/-- A file is loaded with two reads while the other process does nothing. -/
lemma interleaves_loadFile {β : Type} {x : SysProg β} {k : Kernel} {a : α}
    {parse : Str → Option (Except Failure Unit × α)} (n : ℕ) (hname : k.names file = some ino)
    (hne : (k.inodes ino).content ≠ [])
    (hparse : parse (k.inodes ino).content = some (.ok (), a)) (m_timestamp : Time) :
    Interleaves writeStep (readStep keeps) x (loadFile (n + 2) file parse) ⟨k, .idle⟩ x
      (.ret (a, m_timestamp)) ⟨k, .idle⟩ := by
  let c := (k.inodes ino).content
  let r := Reader.idle.setFd 0 (some ⟨ino, c.length⟩)
  have hfopen : readStep keeps ⟨k, .idle⟩ (.fopen file (str "rt")) (.ok 0)
      ⟨k, Reader.idle.setFd 0 (some ⟨ino, 0⟩)⟩ := ⟨⟨rfl, ino, hname, rfl⟩, rfl⟩
  have hread : readStep keeps ⟨k, Reader.idle.setFd 0 (some ⟨ino, 0⟩)⟩ (.read 0) c ⟨k, r⟩ := by
    refine ⟨⟨⟨ino, 0⟩, c.length, rfl, List.length_pos_of_ne_nil hne, ?_, ?_⟩, rfl⟩
    · exact List.take_length.symm
    · simp [r, Reader.setFd]
  have hend : readStep keeps ⟨k, r⟩ (.read 0) [] ⟨k, r⟩ := by
    refine ⟨⟨⟨ino, c.length⟩, 1, rfl, Nat.one_pos, ?_, ?_⟩, rfl⟩
    · simp [c]
    · simp [r, Reader.setFd]
  have hfclose : readStep keeps ⟨k, r⟩ (.fclose 0) (.ok ()) ⟨k, .idle⟩ :=
    ⟨.inl (Reader.setFd_setFd rfl _).symm, rfl⟩
  have hstat : readStep keeps ⟨k, .idle⟩ (.stat file) (.ok ⟨c.length, m_timestamp⟩) ⟨k, .idle⟩ :=
    ⟨⟨⟨ino, hname, rfl⟩, rfl⟩, rfl⟩
  let rest (a : α) : ReadProg (α × Time) := do
    let m_timestamp ← timestamp file 0
    pure (a, m_timestamp)
  let close : ReadProg Unit := do
    let _ ← askRead (.fclose 0)
  apply Interleaves.right _ _ hfopen
  apply Interleaves.right _ _ hread
  show Interleaves _ _ _ (Prog.andFinally ((if c = [] then pure [] else readAll (n + 1) 0 c) >>=
    fun input => outcome (parse input)) close >>= rest) _ _ _ _
  rw [if_neg hne]
  apply Interleaves.right _ _ hend
  show Interleaves _ _ _ ((outcome (parse c)).andFinally close >>= rest) _ _ _ _
  rw [hparse]
  apply Interleaves.right _ _ hfclose
  apply Interleaves.right _ _ hstat
  exact .refl _ _ _

end Libept.Sys
