import Libept.Utils.Sys.Rmtree.LeftOpen

/-!
# Removing a directory tree

What `rmtree` removes when it returns, what it may have removed when it is interrupted, and what it
leaves open when it throws. The parts of `rmtree` are followed with the directories as they have
been at first, which only lose entries.
-/

namespace Libept.Sys

open Prog Utils

variable {files : Files}

open Entries

namespace Dirs

variable {s s' s₁ s₂ : Dirs files} {E : Entries files} {t : List ((c : PathCall) × c.Reply)}
  {fd : Fd} {dirp : Dir} {d : ℕ} {err : PathError} {stream : DirStream}

/-! ### What is done with an entry -/

section Programs

variable {J : Entries files → Prop} {α : Type} {Q : α → Dirs files → Prop}
  {R : Option PathError → Dirs files → Prop} {path : Path} {pathname : Str}

lemma ensures_ask {I : Dirs files → Prop} {c : PathCall} {f : c.Reply → PathProg α} :
    (Path.ask c >>= f).Ensures step I s Q R ↔
      I s ∧ ∀ r s', s.step c r s' → (f r).Ensures step I s' Q R := Iff.rfl

lemma ensures_openat {flags : List PathFlag} (hJ : J s.entries) (hd : s.fds path.fd = some d) :
    (path.openat pathname flags).Ensures step (fun s' => J s'.entries) s
      (fun fd s' => s.fds fd = none ∧ ∃ i, s.entries.Leads d pathname i ∧ s' = s.setFd fd (some i))
      (Stopped s False) := by
  refine ensures_ask.mpr ⟨hJ, fun res s' hstep => ?_⟩
  cases res with
  | error code =>
    obtain rfl := hstep
    exact ⟨hJ, (Kept.refl _).left _⟩
  | ok fd =>
    obtain ⟨hfd, d', i, hd', hleads, -, rfl⟩ := hstep
    obtain rfl : d = d' := Option.some.inj (hd.symm.trans hd')
    exact ⟨hJ, hfd, i, hleads, rfl⟩

lemma ensures_fdopendir (hJ : J s.entries) (hd : s.fds path.fd = some d) :
    path.fdopendir.Ensures step (fun s' => J s'.entries) s
      (fun dirp s' => s'.entries = s.entries ∧ ∃ fd rest, Listing s.entries d rest ∧
        Reading s fd dirp ⟨fd, d, rest⟩ s')
      (Stopped s False) := by
  refine ensures_ask.mpr ⟨hJ, fun res s' hstep => ?_⟩
  cases res with
  | error code =>
    obtain rfl := hstep
    exact ⟨hJ, (Kept.refl _).left _⟩
  | ok fd =>
    obtain ⟨hfd, d', i, hd', hleads, -, rfl⟩ := hstep
    obtain rfl : d = d' := Option.some.inj (hd.symm.trans hd')
    obtain rfl := leads_dot hleads
    refine ensures_ask.mpr ⟨hJ, fun res s' hstep => ?_⟩
    cases res with
    | error code =>
      obtain rfl := hstep
      exact ⟨hJ, some fd, none, .fdopendir _ _ _, (Table.Same.refl _).take hfd, .refl _⟩
    | ok dirp =>
      obtain ⟨hdirp, i', rest, hi', hlisting, rfl⟩ := hstep
      obtain rfl : i = i' := by simpa [setFd] using hi'
      exact ⟨hJ, rfl, fd, rest, hlisting, hfd, hdirp, rfl, .refl _⟩

/-- An entry of a directory, or one that leads to itself or up. -/
def EntryOf (E : Entries files) (e : ℕ) (n : Str) (i : ℕ) : Prop :=
  n = str "." ∨ n = str ".." ∨ E.get e n = some i

/-- The iteration over a directory has come to an entry, or to the end. So many entries at most are
left behind it. -/
def At (E : Entries files) (e : ℕ) (path : Path) (s : Dirs files) (k : ℕ) :
    Option Path.iterator → Dirs files → Prop
  | none, s' => Kept none none s s'
  | some i, s' => i.path = path ∧
    (∃ ino, EntryOf E e i.cur_entry.d_name ino ∧ Typed files e ino i.cur_entry.d_type) ∧
    ∃ fd stream, Reading s fd i.dir stream s' ∧ stream.ino = e ∧
      (∀ n ino, (n, ino) ∈ stream.rest → EntryOf E e n ino) ∧ stream.rest.length < k

lemma ensures_next {e k : ℕ} (hJ : J s₁.entries) (hreading : Reading s fd dirp stream s₁)
    (hino : stream.ino = e) (hrest : ∀ n ino, (n, ino) ∈ stream.rest → EntryOf E e n ino)
    (hk : stream.rest.length ≤ k) :
    (Path.iterator.next path dirp).Ensures step (fun s' => J s'.entries) s₁
      (fun i? s' => s'.entries = s₁.entries ∧ At E e path s k i? s')
      (fun err s' => s' = s₁ ∧ ∃ code, err =
        some (.systemError ⟨code, path.pathname ++ str ": " ++ str "cannot readdir_r"⟩)) := by
  refine ensures_ask.mpr ⟨hJ, fun res s' hstep => ?_⟩
  rcases res with code | _ | entry
  · obtain rfl := hstep
    exact ⟨hJ, rfl, code, rfl⟩
  · obtain ⟨stream', hstream, -, rfl⟩ := hstep
    refine ensures_ask.mpr ⟨hJ, fun res s' hstep => ?_⟩
    obtain ⟨hentries, hkept⟩ := hreading.closedir (Kept.refl _) hstep
    rw [← hentries] at hJ
    exact ⟨hJ, hentries, hkept⟩
  · obtain ⟨stream', ino, hstream, hmem, htyped, rfl⟩ := hstep
    obtain rfl : stream = stream' :=
      Option.some.inj (hreading.stream_eq.symm.trans hstream)
    have hlength := List.length_erase_of_mem hmem
    have hpos := List.length_pos_of_mem hmem
    refine ⟨hJ, rfl, rfl, ⟨ino, hrest _ _ hmem, hino ▸ htyped⟩, fd,
      { stream with rest := stream.rest.erase (entry.d_name, ino) }, ?_, hino, ?_, ?_⟩
    · exact hreading.read _
    · exact fun n ino' hmem' => hrest n ino' (List.mem_of_mem_erase hmem')
    · dsimp only
      omega

/-- The iteration starts. -/
lemma ensures_new (hJ : J s.entries) (hd : s.fds path.fd = some d) (hle : s.entries ≤ E) :
    (Path.iterator.new path).Ensures step (fun s' => J s'.entries) s
      (fun i? s' => s'.entries = s.entries ∧
        At E d path s ((E.finite d).toFinset.card + 2) i? s')
      (Stopped s False) := by
  rw [Path.iterator.new, ensures_bind]
  refine (ensures_fdopendir hJ hd).mono ?_ fun _ _ h => h
  rintro dirp s₁ ⟨hentries, fd, rest, hlisting, hreading⟩
  rw [← hentries] at hJ
  have hleft {err : PathError} (hleaks : Leaks err (some fd) (some dirp)) :
      Left s err s₁ := ⟨_, _, hleaks, hreading.leave⟩
  refine ensures_ask.mpr ⟨hJ, fun name_max s' hstep => ?_⟩
  obtain rfl := hstep
  refine ensures_ask.mpr ⟨hJ, fun allocated s' hstep => ?_⟩
  obtain rfl := hstep
  cases allocated with
  | false => exact ⟨hJ, hleft (.malloc _ _)⟩
  | true =>
    have honly (n : Str) (ino : ℕ) (hmem : (n, ino) ∈ rest) : EntryOf E d n ino :=
      (hlisting.only n ino hmem).imp_right (Or.imp_right (hle d n ino))
    have hlength : rest.length ≤ (E.finite d).toFinset.card + 2 := by
      have hsub : (rest.map Prod.fst).toFinset ⊆
          insert (str ".") (insert (str "..") (E.finite d).toFinset) := by
        intro n hn
        obtain ⟨⟨_, ino⟩, hmem, rfl⟩ := List.mem_map.mp (List.mem_toFinset.mp hn)
        rw [Finset.mem_insert, Finset.mem_insert, Set.Finite.mem_toFinset]
        refine (honly _ _ hmem).imp_right (Or.imp_right fun hget => ?_)
        show E.get d _ ≠ none
        rw [hget]
        exact Option.some_ne_none _
      have hcard := Finset.card_le_card hsub
      rw [List.toFinset_card_of_nodup hlisting.nodup, List.length_map] at hcard
      have hinsert := Finset.card_insert_le (str "..") (E.finite d).toFinset
      have hinsert' := Finset.card_insert_le (str ".") (insert (str "..") (E.finite d).toFinset)
      omega
    refine (ensures_next hJ hreading rfl honly hlength).mono ?_ ?_
    · rintro i? s' ⟨hsame, hat⟩
      exact ⟨hsame.trans hentries, hat⟩
    · rintro err s' ⟨rfl, code, rfl⟩
      exact hleft (.readdir _ _ _ _)

end Programs

/-! ### The recursion -/

section Recursion

variable {D : ℕ → Str → Prop} {path : Path} {e k m n : ℕ} {i : Path.iterator}
  {rm : Path → PathProg Unit}

/-- A path is open at a directory, all entries below which may be removed. Its pathname leads there,
as the directories have been at first. -/
structure Entered (E : Entries files) (D : ℕ → Str → Prop) (path : Path) (e : ℕ) (s : Dirs files) :
    Prop where
  fd : s.fds path.fd = some e
  leads : E.Leads files.cwd path.pathname e
  below : ∀ d, E.Below e d → ∀ n, D d n
  own : ∀ d n, E.LastName files.cwd path.pathname d n → E.get d n = some e → D d n

/-- The tree of a directory has been removed, and nothing but the tree. -/
structure Removed (E : Entries files) (path : Path) (e : ℕ) (s s' : Dirs files) : Prop where
  kept : Kept none none s s'
  only : Only (fun d n => E.InTree e d ∨
    E.LastName files.cwd path.pathname d n ∧ E.get d n = some e) s.entries s'.entries
  gone : ∃ d n, E.LastName files.cwd path.pathname d n ∧ E.get d n = some e ∧ files.IsDir e ∧
    s'.entries.get d n = none

/-- What the call for a directory does, when it may go so deep. -/
def Removes (E : Entries files) (D : ℕ → Str → Prop) (m : ℕ) (rm : Path → PathProg Unit) : Prop :=
  ∀ path e s, Entered E D path e s → Only D E s.entries →
    (rm path).Ensures step (fun s' => Only D E s'.entries) s (fun _ s' => Removed E path e s s')
      (Stopped s (¬ E.Enough m e))

lemma isDir_of_typed {j : ℕ} (htyped : Typed files e j .DT_DIR) : files.IsDir j := by
  rcases htyped with htype | ⟨-, htype⟩
  · exact Files.isDir_iff_d_type.mpr htype.symm
  · cases htype

lemma reports_of_typed {j : ℕ} (htyped : Typed files e j .DT_UNKNOWN) :
    files.reports e = false := by
  rcases htyped with htype | ⟨hreports, -⟩
  · cases hkind : files.kind j <;> rw [hkind] at htype <;> cases htype
  · exact hreports

lemma isDir_of_stat {j : ℕ} {st : Stat} (hst : S_IFMT st.st_mode = (files.kind j).ifmt)
    (hdir : S_ISDIR st.st_mode = true) : files.IsDir j := by
  have hmode : S_IFMT st.st_mode = 0o040000 := by simpa [S_ISDIR, S_IFMT] using hdir
  exact Files.isDir_iff_ifmt.mpr (hst.symm.trans hmode)

/-- When an entry is taken for a directory, `rmtree` may go there. -/
lemma ensures_isdir (hfd : s.fds i.path.fd = some e) (honly : Only D E s.entries)
    {ino : ℕ} (hget : E.get e i.cur_entry.d_name = some ino)
    (htyped : Typed files e ino i.cur_entry.d_type) :
    i.isdir.Ensures step (fun s' => Only D E s'.entries) s
      (fun isdir s' => s' = s ∧ (isdir = true →
        ∀ c, E.Leads e i.cur_entry.d_name c → E.Descends e c))
      (Stopped s False) := by
  rw [Path.iterator.isdir]
  split_ifs with hdir hother
  · refine ⟨honly, rfl, fun _ c hc => ?_⟩
    rw [hdir] at htyped
    have hino := isDir_of_typed htyped
    obtain rfl := hc.eq_of_isDir hget hino
    exact ⟨_, _, hget, hc, hino, .inl rfl⟩
  · exact ⟨honly, rfl, fun h => absurd h Bool.false_ne_true⟩
  · rw [not_not] at hother
    rw [hother] at htyped
    refine ensures_ask.mpr ⟨honly, fun res s' hstep => ?_⟩
    cases res with
    | error code =>
      obtain rfl := hstep
      exact ⟨honly, (Kept.refl _).left _⟩
    | ok st =>
      obtain ⟨⟨d, j, hd, hleads, hst⟩, rfl⟩ := hstep
      obtain rfl : e = d := Option.some.inj (hfd.symm.trans hd)
      refine ⟨honly, rfl, fun hdir c hc => ?_⟩
      obtain rfl := hc.unique (hleads.mono honly.le)
      exact ⟨_, _, hget, hc, isDir_of_stat hst hdir, .inr (reports_of_typed htyped)⟩

lemma ensures_unlinkat {name : Str} {ino : ℕ} (hfd : s.fds path.fd = some e)
    (honly : Only D E s.entries) (hD : D e name) (hget : E.get e name = some ino) :
    (path.unlinkat name).Ensures step (fun s' => Only D E s'.entries) s
      (fun _ s' => Kept none none s s' ∧ Only (fun d _ => E.InTree e d) s.entries s'.entries)
      (Stopped s False) := by
  refine ensures_ask.mpr ⟨honly, fun res s' hstep => ?_⟩
  cases res with
  | error code =>
    obtain rfl := hstep
    exact ⟨honly, (Kept.refl _).left _⟩
  | ok _ =>
    obtain ⟨d, dir, n, j, hd, hlast, hj, -, rfl⟩ := hstep
    obtain rfl : e = d := Option.some.inj (hfd.symm.trans hd)
    have hname := E.isname _ _ _ hget
    -- the name stands in the directory itself
    obtain ⟨rfl, rfl⟩ : dir = e ∧ n = name := by
      obtain ⟨cs, l, hcs, hn, hwalk⟩ := hlast
      rw [components_name hname] at hcs
      rw [start_name hname] at hwalk
      cases cs with
      | cons c cs => simp at hcs
      | nil =>
        cases hwalk
        rw [List.nil_append, List.cons.injEq] at hcs
        exact ⟨rfl, hcs.1.symm⟩
    exact ⟨honly.trans (only_remove hD), .of_eq rfl rfl, only_remove .refl⟩

/-- A block with a path, which is closed at its end. -/
lemma ensures_scope {α : Type} {x : PathProg α} {Q : α → Dirs files → Prop}
    {R : Option PathError → Dirs files → Prop}
    (h : x.Ensures step (fun s' => Only D E s'.entries) s
      (fun a s' => ∀ res s'', GivesBack files.keeps res s' (s'.setFd path.fd none) s'' → Q a s'')
      (fun err s' => ∀ res s'', GivesBack files.keeps res s' (s'.setFd path.fd none) s'' →
        R err s'')) :
    (path.scope x).Ensures step (fun s' => Only D E s'.entries) s Q R := by
  have hclose {P : Dirs files → Prop} {s' : Dirs files} (honly : Only D E s'.entries)
      (hP : ∀ res s'', GivesBack files.keeps res s' (s'.setFd path.fd none) s'' → P s'') :
      (Path.ask (.close path.fd) >>= fun _ => pure ()).Ensures step
        (fun s' => Only D E s'.entries) s' (fun _ s'' => Only D E s''.entries ∧ P s'') R := by
    refine ensures_ask.mpr ⟨honly, fun res s'' hstep => ?_⟩
    have honly' : Only D E s''.entries := by rwa [hstep.same Dirs.entries rfl]
    exact ⟨honly', honly', hP res s'' hstep⟩
  rw [Path.scope, ensures_andFinally]
  exact h.strengthen.mono (fun a s' h => hclose h.1 h.2) fun err s' h => hclose h.1 h.2

/-- A directory in this one is removed with its tree, or an entry that is none. -/
lemma ensures_rmtreeEntry (hrm : Removes E D m rm) (hent : Entered E D path e s)
    (honly : Only D E s.entries) (hi : i.path = path) {ino : ℕ}
    (hentry : EntryOf E e i.cur_entry.d_name ino)
    (htyped : Typed files e ino i.cur_entry.d_type) :
    (Path.rmtreeEntry rm path i).Ensures step (fun s' => Only D E s'.entries) s
      (fun _ s' => Kept none none s s' ∧ Only (fun d _ => E.InTree e d) s.entries s'.entries)
      (Stopped s (¬ ∀ c, E.Descends e c → E.Enough m c)) := by
  rw [Path.rmtreeEntry]
  split_ifs with hskip
  · exact ⟨honly, .refl s, .refl _⟩
  have hget : E.get e i.cur_entry.d_name = some ino := by
    rw [not_or] at hskip
    exact (hentry.resolve_left hskip.1).resolve_left hskip.2
  have hname := E.isname _ _ _ hget
  have hD : D e i.cur_entry.d_name := hent.below e .refl _
  have hstop (err : Option PathError) (s' : Dirs files) (h : Stopped s False err s') :
      Stopped s (¬ ∀ c, E.Descends e c → E.Enough m c) err s' := h.imp False.elim fun _ h => h
  rw [ensures_bind]
  refine (ensures_isdir (hi ▸ hent.fd) honly hget htyped).mono ?_ hstop
  rintro isdir s' ⟨rfl, hdescends⟩
  cases isdir with
  | false => exact (ensures_unlinkat hent.fd honly hD hget).mono (fun _ _ h => h) hstop
  | true =>
    rw [if_pos rfl, ensures_bind, Path.openIn, ensures_bind]
    refine (ensures_openat honly hent.fd).mono ?_ hstop
    rintro fd _ ⟨hfd, c, hleads, rfl⟩
    have hleads' := hleads.mono honly.le
    have hstep : E.Descends e c := hdescends rfl c hleads'
    have hsub : Entered E D ⟨fd, joinpath path.pathname i.cur_entry.d_name⟩ c
        (s'.setFd fd (some c)) := by
      refine ⟨Function.update_self _ _ _, hent.leads.joinpath hname hleads', ?_, ?_⟩
      · exact fun d hd => hent.below d (.head hstep hd)
      · intro d n hlast _
        obtain ⟨rfl, rfl⟩ := hlast.joinpath hent.leads hname
        exact hD
    refine ⟨honly, ensures_scope ((hrm _ _ _ hsub honly).mono ?_ ?_)⟩
    · rintro _ s₃ ⟨hkept, hremoved, d, n, hlast, hc, hdir, -⟩ res s₄ hclose
      rw [← hclose.same Dirs.entries rfl] at hremoved
      refine ⟨hkept.close hfd hclose, hremoved.mono ?_⟩
      obtain ⟨rfl, rfl⟩ := hlast.joinpath hent.leads hname
      rintro d' n' (htree | ⟨hlast', -⟩)
      · exact .head ⟨_, hc, hdir⟩ htree
      · obtain ⟨rfl, rfl⟩ := hlast'.joinpath hent.leads hname
        exact .refl
    · intro err s₃ h res s₄ hclose
      refine h.imp (fun hbound hall => hbound (hall c hstep)) ?_
      rintro err ⟨fd?, dirp?, hleaks, hkept⟩
      exact ⟨fd?, dirp?, hleaks, hkept.close hfd hclose⟩

/-- By induction on the turns that are left. -/
lemma ensures_rmtreeLoop (hrm : Removes E D m rm) {i? : Option Path.iterator}
    (hent : Entered E D path e s) (honly : Only D E s₁.entries) (hat : At E e path s k i? s₁) :
    (Path.rmtreeLoop rm path n i?).Ensures step (fun s' => Only D E s'.entries) s₁
      (fun _ s' => Kept none none s s' ∧ Only (fun d _ => E.InTree e d) s₁.entries s'.entries)
      (Stopped s (n < k ∨ ¬ ∀ c, E.Descends e c → E.Enough m c)) := by
  induction n generalizing k i? s₁ with
  | zero =>
    cases i? with
    | none => exact ⟨honly, hat, .refl _⟩
    | some i =>
      obtain ⟨-, -, fd, stream, -, -, -, hk⟩ := hat
      exact ⟨honly, .inl (Nat.zero_lt_of_lt hk)⟩
  | succ n ih =>
    cases i? with
    | none => exact ⟨honly, hat, .refl _⟩
    | some i =>
      obtain ⟨hi, ⟨ino, hentry, htyped⟩, fd, stream, hreading, hino, hrest, hk⟩ := hat
      have hfd : s₁.fds path.fd = some e := hreading.fds_of_some hent.fd
      have hent₁ : Entered E D path e s₁ := ⟨hfd, hent.leads, hent.below, hent.own⟩
      -- the stream is closed when an exception leaves the turn
      have hclose {err? : Option PathError} {s₂ : Dirs files} (honly₂ : Only D E s₂.entries)
          (h : Stopped s₁ (¬ ∀ c, E.Descends e c → E.Enough m c) err? s₂) :
          (Path.ask (.closedir i.dir) >>= fun _ => pure ()).Ensures step
            (fun s' => Only D E s'.entries) s₂
            (fun _ s' => Only D E s'.entries ∧
              Stopped s (n + 1 < k ∨ ¬ ∀ c, E.Descends e c → E.Enough m c) err? s')
            (Stopped s (n + 1 < k ∨ ¬ ∀ c, E.Descends e c → E.Enough m c)) := by
        refine ensures_ask.mpr ⟨honly₂, fun res s' hstep => ?_⟩
        have honly' : Only D E s'.entries := by
          obtain ⟨_, -, hgives⟩ := hstep
          rwa [GivesBack.same hgives Dirs.entries rfl]
        refine ⟨honly', honly', h.imp .inr ?_⟩
        rintro err ⟨fd?, dirp?, hleaks, hkept⟩
        exact ⟨fd?, dirp?, hleaks, (hreading.closedir hkept hstep).2⟩
      rw [Path.rmtreeLoop, ensures_bind, Path.iterator.scope, ensures_onThrow, ensures_bind]
      refine (ensures_rmtreeEntry hrm hent₁ honly hi hentry htyped).strengthen.mono ?_ ?_
      · rintro _ s₂ ⟨honly₂, hkept, htree⟩
        refine (ensures_next honly₂ (hreading.kept hkept) hino hrest
          (Nat.le_sub_one_of_lt hk)).strengthen.mono ?_ ?_
        · rintro i?' s₃ ⟨honly₃, hsame, hat'⟩
          refine (ih honly₃ hat').mono ?_ ?_
          · rintro _ s' ⟨hkept', htree'⟩
            exact ⟨hkept', htree.trans (hsame ▸ htree')⟩
          · intro err? s' h
            refine h.imp (Or.imp_left fun hn => ?_) fun _ h => h
            omega
        · rintro _ s₃ ⟨honly₃, rfl, code, rfl⟩
          exact hclose honly₃ (hkept.left _)
      · exact fun err? s₂ h => hclose h.1 h.2

/-- By induction on the depth of the recursion. -/
lemma removes_rmtree (E : Entries files) (D : ℕ → Str → Prop) (m : ℕ) :
    Removes E D m (Path.rmtree m) := by
  induction m with
  | zero => exact fun path e s hent honly => ⟨honly, id⟩
  | succ m ih =>
    intro path e s hent honly
    rw [Path.rmtree, ensures_bind]
    refine (ensures_new honly hent.fd honly.le).strengthen.mono ?_ ?_
    · rintro i? s₁ ⟨honly₁, hentries, hat⟩
      rw [ensures_bind]
      refine (ensures_rmtreeLoop ih hent honly₁ hat).strengthen.mono ?_ ?_
      · rintro _ s₂ ⟨honly₂, hkept, htree⟩
        refine ensures_ask.mpr ⟨honly₂, fun res s' hstep => ?_⟩
        cases res with
        | error code =>
          obtain rfl := hstep
          exact ⟨honly₂, hkept.left _⟩
        | ok _ =>
          obtain ⟨d, n, i, hlast, hget, hdir, -, rfl⟩ := hstep
          have hlast' := hlast.mono honly₂.le
          have hget' := honly₂.le _ _ _ hget
          -- the pathname still leads to the directory
          obtain rfl : i = e := (hlast'.leads hget' hdir).unique hent.leads
          have hremove : Only (fun d n => E.InTree i d ∨
              E.LastName files.cwd path.pathname d n ∧ E.get d n = some i)
              s₂.entries (s₂.remove d n).entries := only_remove (.inr ⟨hlast', hget'⟩)
          have hgone : (s₂.remove d n).entries.get d n = none := if_pos ⟨rfl, rfl⟩
          refine ⟨honly₂.trans (only_remove (hent.own _ _ hlast' hget')), ?_, ?_, ?_⟩
          · exact hkept.trans (.of_eq rfl rfl)
          · rw [← hentries]
            exact (htree.mono fun _ _ => .inl).trans hremove
          · exact ⟨d, n, hlast', hget', hdir, hgone⟩
      · intro err? s₂ h
        refine h.2.imp ?_ fun _ h => h
        rintro (hm | hall) ⟨hcard, hbelow⟩
        · omega
        · exact hall hbelow
    · exact fun err? s₁ h => h.2.imp False.elim fun _ h => h

end Recursion

/-! ### Runs -/

section Runs

variable {m : ℕ} {p : Str} {y : PathProg Unit}

/-- What may be removed for a pathname. -/
def Removable (E : Entries files) (p : Str) (d : ℕ) (n : Str) : Prop :=
  ∃ e, E.Leads files.cwd p e ∧
    (E.Below e d ∨ E.LastName files.cwd p d n ∧ E.get d n = some e)

lemma ensures_rmtree (s : Dirs files) (m : ℕ) (p : Str) :
    (rmtree m p).Ensures step (fun s' => Only (Removable s.entries p) s.entries s'.entries) s
      (fun _ s' => ∃ path e, path.pathname = p ∧ s.entries.Leads files.cwd p e ∧
        Removed s.entries path e s s')
      (Stopped s (∃ e, s.entries.Leads files.cwd p e ∧ ¬ s.entries.Enough m e)) := by
  refine ensures_ask.mpr ⟨.refl _, fun res s' hstep => ?_⟩
  cases res with
  | error code =>
    obtain rfl := hstep
    exact ⟨.refl _, (Kept.refl _).left _⟩
  | ok fd =>
    obtain ⟨hfd, e, hleads, -, rfl⟩ := hstep
    have hent : Entered s.entries (Removable s.entries p) ⟨fd, p⟩ e (s.setFd fd (some e)) :=
      ⟨Function.update_self _ _ _, hleads, fun d hd n => ⟨e, hleads, .inl hd⟩,
        fun d n hlast hget => ⟨e, hleads, .inr ⟨hlast, hget⟩⟩⟩
    refine ensures_scope ((removes_rmtree _ _ m _ _ _ hent (Only.refl _)).mono ?_ ?_)
    · rintro _ s₁ ⟨hkept, honly, hgone⟩ res s₂ hclose
      rw [← hclose.same Dirs.entries rfl] at honly hgone
      exact ⟨_, e, rfl, hleads, hkept.close hfd hclose, honly, hgone⟩
    · intro err? s₁ h res s₂ hclose
      refine h.imp (fun hbound => ⟨e, hleads, hbound⟩) ?_
      rintro err ⟨fd?, dirp?, hleaks, hkept⟩
      exact ⟨fd?, dirp?, hleaks, hkept.close hfd hclose⟩

/-- When `rmtree` returns, the tree of the directory is gone with its entry, no other entry is, and
nothing is left open. A kernel that keeps what a call has failed to give back may leave more open,
but all that was open before is as it was. -/
theorem rmtree_removes (hrun : (rmtree m p).Reaches step s t (.ret ()) s') :
    (∃ e dir name, s.entries.Leads files.cwd p e ∧ s.entries.LastName files.cwd p dir name ∧
      s.entries.get dir name = some e ∧ files.IsDir e ∧
      ∀ d n, (s.entries.InTree e d ∨ d = dir ∧ n = name → s'.entries.get d n = none) ∧
        (¬ (s.entries.InTree e d ∨ d = dir ∧ n = name) →
          s'.entries.get d n = s.entries.get d n)) ∧
      (¬ files.keeps → s'.fds = s.fds ∧ s'.streams = s.streams) ∧
      (∀ fd, s.fds fd ≠ none → s'.fds fd = s.fds fd) ∧
      ∀ dirp, s.streams dirp ≠ none → s'.streams dirp = s.streams dirp := by
  obtain ⟨-, path, e, rfl, hleads, hkept, honly, dir, name, hlast, hget, hdir, hgone⟩ :=
    (ensures_rmtree s m p).reaches hrun
  have hemptied := emptied_of_reaches hrun
  refine ⟨⟨e, dir, name, hleads, hlast, hget, hdir, fun d n => ⟨?_, fun hother => ?_⟩⟩,
    fun hnot => ⟨hkept.fds.eq hnot, hkept.streams.eq hnot⟩,
    fun fd hopen => hkept.fds.eq_of fd (by simp) (.inl hopen),
    fun dirp hopen => hkept.streams.eq_of dirp (by simp) (.inl hopen)⟩
  · rintro (htree | ⟨rfl, rfl⟩)
    · exact hemptied.inTree hget hdir hgone htree n
    · exact hgone
  · refine (honly d n).resolve_right fun hremoved => hother ?_
    exact hremoved.2.imp_right fun h => h.1.unique hlast

/-- A directory with a single file in it. -/
def oneFile : Files where
  kind
    | 0 => .dir 0
    | 1 => .dir 0
    | _ => .reg
  root := 0
  cwd := 0
  reports _ := true
  keeps := False

def oneEntry : Entries oneFile where
  get d n := if d = 0 ∧ n = str "d" then some 1 else if d = 1 ∧ n = str "f" then some 2 else none
  isdir d n i h := by
    split_ifs at h with h0 h1
    · exact ⟨0, by rw [h0.1]; rfl⟩
    · exact ⟨0, by rw [h1.1]; rfl⟩
  isname d n i h := by
    split_ifs at h with h0 h1
    · rw [h0.2]
      exact ⟨by decide, by decide, by decide, by decide⟩
    · rw [h1.2]
      exact ⟨by decide, by decide, by decide, by decide⟩
  finite d := by
    refine (Set.toFinite {str "d", str "f"}).subset fun n (h : ite _ _ _ ≠ none) => ?_
    split_ifs at h with h0 h1
    · exact .inl h0.2
    · exact .inr h1.2
    · exact absurd rfl h

def oneDir : Dirs oneFile := ⟨oneEntry, fun _ => none, fun _ => none⟩

lemma isName_d : IsName (str "d") := ⟨by decide, by decide, by decide, by decide⟩

lemma isName_f : IsName (str "f") := ⟨by decide, by decide, by decide, by decide⟩

lemma lastName_name {n : Str} (E : Entries files) (hn : IsName n) : E.LastName d n d n := by
  refine ⟨[], 0, components_name hn, hn, ?_⟩
  rw [start_name hn]
  exact .here

lemma open_oneDir :
    oneDir.step (.openPath (str "d") [.O_PATH]) (Except.ok 0) (oneDir.setFd 0 (some 1)) :=
  ⟨rfl, 1, leads_of_isDir rfl ⟨0, rfl⟩, by simp, rfl⟩

lemma openat_oneDir :
    (oneDir.setFd 0 (some 1)).step (.openat 0 (str ".") [.O_DIRECTORY]) (Except.ok 1)
      ((oneDir.setFd 0 (some 1)).setFd 1 (some 1)) := by
  have hcomponents : components (str ".") = [str "."] := Pieces.pieces_singleton (by decide)
  refine ⟨rfl, 1, 1, rfl, ⟨by decide, ?_⟩, fun _ => ⟨0, rfl⟩, rfl⟩
  rw [hcomponents]
  exact .stay ⟨0, rfl⟩ (.inr rfl) .here

lemma run_oneDir : ∃ t s', (rmtree 2 (str "d")).Reaches step oneDir t (.ret ()) s' ∧
    s'.entries.get 1 (str "f") = none := by
  have hlisting : Listing oneEntry 1 [(str "f", 2)] := by
    refine ⟨⟨0, rfl⟩, by decide, fun n i h => ?_, fun n i h => ?_⟩
    · change ite _ _ _ = _ at h
      simp at h
      simp [h]
    · obtain ⟨rfl, rfl⟩ := Prod.mk.inj (List.mem_singleton.mp h)
      exact .inr (.inr rfl)
  have hfdopendir : ((oneDir.setFd 0 (some 1)).setFd 1 (some 1)).step (.fdopendir 1) (Except.ok 0)
      (((oneDir.setFd 0 (some 1)).setFd 1 (some 1)).setStream 0 (some ⟨1, 1, [(str "f", 2)]⟩)) :=
    ⟨rfl, 1, _, rfl, hlisting, rfl⟩
  have hfpathconf {s : Dirs oneFile} : s.step (.fpathconf 0) none s := rfl
  have hmalloc {s : Dirs oneFile} : s.step (.malloc 275) true s := rfl
  have hread {s : Dirs oneFile} (h : s.streams 0 = some ⟨1, 1, [(str "f", 2)]⟩) :
      s.step (.readdir_r 0) (Except.ok (some ⟨str "f", .DT_REG⟩))
        (s.setStream 0 (some ⟨1, 1, []⟩)) :=
    ⟨_, 2, h, List.mem_singleton.mpr rfl, .inl rfl, by simp⟩
  have hend {s : Dirs oneFile} (h : s.streams 0 = some ⟨1, 1, []⟩) :
      s.step (.readdir_r 0) (Except.ok none) s := ⟨_, h, by simp, rfl⟩
  have hclosedir {s : Dirs oneFile} (h : s.streams 0 = some ⟨1, 1, []⟩) :
      s.step (.closedir 0) (Except.ok ()) ((s.setStream 0 none).setFd 1 none) := ⟨_, h, .inl rfl⟩
  have hunlinkat {s : Dirs oneFile} (hfd : s.fds 0 = some 1)
      (hget : s.entries.get 1 (str "f") = some 2) :
      s.step (.unlinkat 0 (str "f")) (Except.ok ()) (s.remove 1 (str "f")) :=
    ⟨1, 1, str "f", 2, hfd, lastName_name _ isName_f, hget,
      fun ⟨_, h⟩ => FileKind.noConfusion h, rfl⟩
  have hrmdir {s : Dirs oneFile} (hget : s.entries.get 0 (str "d") = some 1)
      (hempty : ∀ n, s.entries.get 1 n = none) :
      s.step (.rmdir (str "d")) (Except.ok ()) (s.remove 0 (str "d")) :=
    ⟨0, str "d", 1, lastName_name _ isName_d, hget, ⟨0, rfl⟩, hempty, rfl⟩
  have hclose {s : Dirs oneFile} : s.step (.close 0) (Except.ok ()) (s.setFd 0 none) := .inl rfl
  have hempty (n : Str) : (oneEntry.remove 1 (str "f")).get 1 n = none := by
    simp [oneEntry]
  have hdone : (pure () : PathProg Unit).MayReturn step
      (((((((((oneDir.setFd 0 (some 1)).setFd 1 (some 1)).setStream 0
        (some ⟨1, 1, [(str "f", 2)]⟩)).setStream 0 (some ⟨1, 1, []⟩)).remove 1
          (str "f")).setStream 0 none).setFd 1 none).remove 0 (str "d")).setFd 0 none)
      fun _ s' => s'.entries.get 1 (str "f") = none := mayReturn_pure rfl
  have h : (rmtree 2 (str "d")).MayReturn step oneDir
      fun _ s' => s'.entries.get 1 (str "f") = none :=
    mayReturn_call open_oneDir <| mayReturn_call openat_oneDir <| mayReturn_call hfdopendir <|
      mayReturn_call hfpathconf <| mayReturn_call hmalloc <| mayReturn_call (hread rfl) <|
      mayReturn_call (hunlinkat rfl rfl) <| mayReturn_call (hend rfl) <|
      mayReturn_call (hclosedir rfl) <| mayReturn_call (hrmdir rfl hempty) <|
      mayReturn_call hclose hdone
  obtain ⟨t, a, s', hrun, hgone⟩ := h
  exact ⟨t, s', hrun, hgone⟩

theorem rmtree_removes_oneDir : ∃ t s', (rmtree 2 (str "d")).Reaches step oneDir t (.ret ()) s' ∧
    s'.entries.get 1 (str "f") = none ∧ s'.fds = oneDir.fds := by
  obtain ⟨t, s', hrun, -⟩ := run_oneDir
  obtain ⟨⟨e, dir, name, hleads, -, -, -, hentries⟩, hnothing, -⟩ := rmtree_removes hrun
  have hdir : oneEntry.Leads 0 (str "d") 1 := leads_of_isDir rfl ⟨0, rfl⟩
  obtain rfl : e = 1 := hleads.unique hdir
  exact ⟨t, s', hrun, (hentries 1 (str "f")).1 (.inl .refl), (hnothing id).1⟩

/-- Wherever `rmtree` is interrupted, an entry that is gone stood in a directory below the one that
is removed, or led to it. If the types of all entries in the tree are reported, it stood in the
tree. -/
theorem rmtree_stays_below (hrun : (rmtree m p).Reaches step s t y s') (d : ℕ) (n : Str)
    (hgone : s'.entries.get d n ≠ s.entries.get d n) :
    ∃ e, s.entries.Leads files.cwd p e ∧ s'.entries.get d n = none ∧
      ((s.entries.LastName files.cwd p d n ∧ s.entries.get d n = some e) ∨
        s.entries.Below e d ∧
          ((∀ c, s.entries.InTree e c → files.reports c = true) → s.entries.InTree e d)) := by
  have honly := ((ensures_rmtree s m p).reaches hrun).here
  obtain ⟨hnone, e, hleads, hbelow | hown⟩ := (honly d n).resolve_left hgone
  · exact ⟨e, hleads, hnone, .inr ⟨hbelow, hbelow.inTree⟩⟩
  · exact ⟨e, hleads, hnone, .inl hown⟩

theorem rmtree_stays_below_oneDir :
    ∃ t s', (rmtree 2 (str "d")).Reaches step oneDir t (.ret ()) s' ∧
      oneEntry.get 1 (str "f") = some 2 ∧ s'.entries.get 1 (str "f") = none ∧
      ∃ e, oneEntry.Leads 0 (str "d") e := by
  obtain ⟨t, s', hrun, hgone⟩ := run_oneDir
  have hchanged : s'.entries.get 1 (str "f") ≠ oneDir.entries.get 1 (str "f") := by
    rw [hgone]
    exact (Option.some_ne_none _).symm
  obtain ⟨e, hleads, hnone, -⟩ := rmtree_stays_below hrun 1 (str "f") hchanged
  exact ⟨t, s', hrun, rfl, hnone, e, hleads⟩

/-- When `rmtree` throws, at most one descriptor is left open: the error tells that no stream was
made for it, or that the stream was not read from. A kernel that keeps what a call has failed to
give back may leave more open, but all that was open before is as it was. -/
theorem rmtree_leaks (hrun : (rmtree m p).Reaches step s t (.throw (some err)) s') :
    Left s err s' :=
  ((ensures_rmtree s m p).reaches hrun).2

theorem rmtree_leaks_oneDir :
    ∃ t s' err, (rmtree 2 (str "d")).Reaches step oneDir t (.throw (some err)) s' ∧
      s'.fds 1 = some 1 ∧ Left oneDir err s' := by
  have hfdopendir : ((oneDir.setFd 0 (some 1)).setFd 1 (some 1)).step (.fdopendir 1)
      (Except.error 24) ((oneDir.setFd 0 (some 1)).setFd 1 (some 1)) := rfl
  have hclose : ((oneDir.setFd 0 (some 1)).setFd 1 (some 1)).step (.close 0) (Except.ok ())
      (((oneDir.setFd 0 (some 1)).setFd 1 (some 1)).setFd 0 none) := .inl rfl
  have hrun : (rmtree 2 (str "d")).Reaches step oneDir _ (.throw (some _)) _ :=
    .call open_oneDir <| .call openat_oneDir <| .call hfdopendir <| .call hclose <| .refl _ _
  exact ⟨_, _, _, hrun, rfl, rmtree_leaks hrun⟩

end Runs

end Dirs

end Libept.Sys
