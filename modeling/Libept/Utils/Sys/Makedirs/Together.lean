import Libept.Utils.Sys.Growing

/-!
# Making directories at the same time

Any number of processes run `makedirs`, each for a pathname of its own, and their calls come in any
order. What another one has made is found by `mkdir_ifmissing`, so that none of them fails for what
the others do.
-/

namespace Libept.Sys

open Prog Utils Entries

variable {files : Files} {E : Entries files} {p dir : Str} {cwd i : ℕ} {mode : Mode}

/-! ### The components of the directory -/

lemma exists_rdropWhile (f : Byte → Bool) (s : Str) :
    ∃ t, s = s.rdropWhile f ++ t ∧ ∀ c ∈ t, f c = true := by
  induction s using List.reverseRecOn with
  | nil => exact ⟨[], rfl, by simp⟩
  | append_singleton s c ih =>
    by_cases hc : f c = true
    · obtain ⟨t, hs, ht⟩ := ih
      refine ⟨t ++ [c], ?_, ?_⟩
      · rw [List.rdropWhile_concat_pos _ _ _ hc, ← List.append_assoc, ← hs]
      · simpa [or_imp, forall_and, hc] using ht
    · exact ⟨[], by rw [List.rdropWhile_concat_neg _ _ _ hc, List.append_nil], by simp⟩

lemma exists_slashes (s : Str) :
    ∃ k, s = s.rdropWhile (· == slash) ++ List.replicate k slash := by
  obtain ⟨t, hs, ht⟩ := exists_rdropWhile (· == slash) s
  exact ⟨t.length, by rwa [← List.eq_replicate_of_mem fun c hc => beq_iff_eq.mp (ht c hc)]⟩

/-- A pathname is a name in a directory, or there are only slashes. -/
lemma exists_name (p : Str) : (∃ k, p = List.replicate k slash) ∨
    ∃ dir name k, p = dir ++ name ++ List.replicate k slash ∧ name ≠ [] ∧ slash ∉ name ∧
      (dir = [] ∨ ∃ f, dir = f ++ [slash]) := by
  obtain ⟨k, hk⟩ := exists_slashes p
  by_cases hp' : p.rdropWhile (· == slash) = []
  · exact .inl ⟨k, by rwa [hp'] at hk⟩
  obtain ⟨name, hname, hnot⟩ := exists_rdropWhile (· != slash) (p.rdropWhile (· == slash))
  have hslash : slash ∉ name := fun hmem => by simpa using hnot slash hmem
  refine .inr ⟨_, name, k, by rwa [← hname], ?_, hslash, ?_⟩
  · rintro rfl
    -- then the last byte would be a slash, and not be one
    rw [List.append_nil] at hname
    have hlast := List.rdropWhile_last_not (· == slash) p hp'
    have hlast' := List.rdropWhile_eq_self_iff.mp hname.symm hp'
    exact hlast' (bne_iff_ne.mpr fun heq => hlast (beq_iff_eq.mpr heq))
  · refine or_iff_not_imp_left.mpr fun hnil => ?_
    have hlast := List.rdropWhile_last_not (· != slash) _ hnil
    refine ⟨_, (List.dropLast_append_getLast hnil).symm.trans (congrArg _ ?_)⟩
    simpa using hlast

lemma components_nil : components [] = [[]] := Pieces.pieces_singleton List.not_mem_nil

lemma components_slashes (s : Str) (k : ℕ) :
    components (s ++ List.replicate k slash) = components s ++ List.replicate k [] := by
  induction k with
  | zero => simp
  | succ k ih =>
    rw [List.replicate_succ', List.replicate_succ', ← List.append_assoc, ← List.append_assoc,
      ← ih, components, Pieces.pieces_append_cons, Pieces.pieces_singleton List.not_mem_nil]
    rfl

lemma components_replicate (k : ℕ) :
    components (List.replicate k slash) = List.replicate (k + 1) [] := by
  have h := components_slashes [] k
  rwa [List.nil_append, components_nil] at h

lemma isRoot_append {s : Str} (hs : s ≠ []) (t : Str) : isRoot (s ++ t) = isRoot s := by
  obtain ⟨b, s, rfl⟩ := List.exists_cons_of_ne_nil hs
  rfl

/-- The components of a directory are those of the pathname but for the last one, if slashes do not
count. -/
inductive Upper (p dir : Str) (cs : List Str) : Prop
  | here (hdir : dir = str ".") (hcs : cs = []) (hroot : isRoot p = false)
  | root (hdir : dir = str "/") (k : ℕ) (hcs : cs = List.replicate k []) (hroot : isRoot p = true)
  | above (hne : dir ≠ []) (k : ℕ) (hcs : cs = components dir ++ List.replicate k [])
    (hroot : isRoot dir = isRoot p)

/-- What `unslash` leaves away are slashes. -/
lemma upper_unslash (f t : Str) : Upper (f ++ slash :: t) (unslash f) (components f) := by
  obtain ⟨k, hk⟩ := exists_slashes f
  rw [unslash]
  by_cases hnil : f.rdropWhile (· == slash) = []
  · rw [hnil, List.nil_append] at hk
    rw [if_pos hnil]
    refine .root rfl (k + 1) ?_ ?_
    · rw [hk, components_replicate]
    · rw [hk]
      cases k <;> rfl
  · rw [if_neg hnil]
    refine .above hnil k ?_ ?_
    · rw [← components_slashes, ← hk]
    · rw [hk, List.append_assoc, isRoot_append hnil, ← hk]

lemma exists_upper (hp : p ≠ []) :
    ∃ cs c k, components p = cs ++ c :: List.replicate k [] ∧ Upper p (parent p) cs := by
  obtain ⟨k, rfl⟩ | ⟨dir, name, k, rfl, hne, hslash, hdir⟩ := exists_name p
  · obtain ⟨k, rfl⟩ : ∃ m, k = m + 1 := ⟨k - 1, by cases k <;> simp_all⟩
    have hall : (List.replicate (k + 1) slash).rdropWhile (· == slash) = [] := by
      rw [List.rdropWhile_eq_nil_iff]
      exact fun c hc => by simp [List.eq_of_mem_replicate hc]
    refine ⟨[], [], k + 1, by rw [components_replicate]; rfl, .root ?_ 0 rfl rfl⟩
    rw [parent, if_neg hp, if_pos hall]
  have hname : components (name ++ List.replicate k slash) = name :: List.replicate k [] := by
    rw [components_slashes, components, Pieces.pieces_singleton hslash]
    rfl
  rcases hdir with rfl | ⟨f, rfl⟩
  · rw [parent_append hne hslash k (.inl rfl), if_pos rfl, List.nil_append]
    refine ⟨[], name, k, hname, .here rfl rfl ?_⟩
    rw [isRoot_append hne, isRoot]
    exact decide_eq_false fun hhead => hslash (List.mem_of_mem_head? hhead)
  · rw [parent_append hne hslash k (.inr List.getLast?_concat), if_neg (by simp), unslash_concat,
      List.append_assoc, List.append_assoc, List.singleton_append]
    refine ⟨components f, name, k, ?_, upper_unslash f _⟩
    rw [components, Pieces.pieces_append_cons]
    exact congrArg (components f ++ ·) hname

/-! ### One process -/

/-- The pathname leads to a directory. -/
def Entries.HasDir (E : Entries files) (cwd : ℕ) (p : Str) : Prop :=
  ∃ i, E.Leads cwd p i ∧ files.IsDir i

/-- Nothing is in the way of the pathname. -/
def Entries.ClearPath (E : Entries files) (cwd : ℕ) (p : Str) : Prop :=
  E.Clear (start files cwd p) (components p)

lemma clearPath_upper (hp : p ≠ []) (h : E.ClearPath cwd p) : E.ClearPath cwd (parent p) := by
  obtain ⟨cs, c, k, hcs, hupper⟩ := exists_upper hp
  rw [ClearPath, hcs] at h
  have hclear := h.of_append
  rw [ClearPath]
  cases hupper with
  | here hdir _ hroot =>
    have hdot : components (str ".") = [str "."] := Pieces.pieces_singleton (by decide)
    rw [start, hroot, if_neg Bool.false_ne_true] at h
    rw [hdir, hdot]
    exact .pass (.stay h.dir (.inr rfl) .here) (.here h.dir)
  | root hdir _ _ hroot =>
    rw [start, if_pos hroot] at h
    rw [hdir]
    have hslash : components (str "/") = [[], []] := components_replicate 1
    have hstart : start files cwd (str "/") = files.root := rfl
    rw [hslash, hstart]
    have hstay : E.Walk files.root [[]] files.root := .stay h.dir (.inl rfl) .here
    exact .pass hstay (.pass hstay (.here h.dir))
  | above _ k hdir hroot =>
    rw [hdir] at hclear
    rw [start, hroot]
    exact hclear.of_append

/-- The directory of a pathname is the place for its last component. -/
lemma hasPlace_upper (hp : p ≠ []) (hwhole : E.Whole) (hcwd : E.Linked cwd)
    (h : E.HasDir cwd (parent p)) : E.HasPlace cwd p := by
  obtain ⟨i, hleads, hi⟩ := h
  obtain ⟨cs, c, k, hcs, hupper⟩ := exists_upper hp
  refine ⟨hp, cs, c, k, i, hcs, ?_, hi, ?_⟩
  · cases hupper with
    | here hdir hnil hroot =>
      rw [hdir] at hleads
      rw [hnil, leads_dot hleads, start, hroot, if_neg Bool.false_ne_true]
      exact .here
    | root hdir k hcs hroot =>
      obtain ⟨-, hwalk⟩ := hleads
      have hslash : components (str "/") = List.replicate 2 [] := components_replicate 1
      have hstart : start files cwd (str "/") = files.root := rfl
      rw [hdir, hslash, hstart] at hwalk
      obtain rfl := hwalk.unique (.stays hwhole.root 2)
      rw [hcs, start, if_pos hroot]
      exact .stays hi k
    | above _ k hcs hroot =>
      obtain ⟨-, hwalk⟩ := hleads
      rw [hcs, start, ← hroot]
      exact hwalk.append (.stays hi k)
  · refine hleads.2.linked hwhole ?_
    rw [start]
    split_ifs
    · exact .inl rfl
    · exact hcwd

lemma Entries.HasDir.mono {E' : Entries files} (h : E.HasDir cwd p) (hle : E ≤ E') :
    E'.HasDir cwd p := by
  obtain ⟨i, hleads, hi⟩ := h
  exact ⟨i, hleads.mono hle, hi⟩

/-- Something under a clear pathname is a directory. -/
lemma Entries.ClearPath.hasDir (h : E.ClearPath cwd p) (hstands : E.Stands cwd p) :
    E.HasDir cwd p := by
  rcases hstands with ⟨i, hleads⟩ | ⟨dir, n, hlast, hn⟩
  · exact ⟨i, hleads, h.isDir hleads.2⟩
  · exact h.leads hlast hn

namespace Dirs

variable {s s' : Dirs files}

/-- The others make directories. -/
def Grows (s s' : Dirs files) : Prop := s.entries.Grows s'.entries

instance : IsRely (@Grows files) where
  refl _ := .refl
  trans _ _ _ := Relation.ReflTransGen.trans

/-- What is known of the entries while the process makes its directories. -/
structure Ready (cwd : ℕ) (p : Str) (s : Dirs files) : Prop where
  whole : s.entries.Whole
  linked : s.entries.Linked cwd
  clear : s.entries.ClearPath cwd p

lemma Ready.grows (h : Ready cwd p s) (hgrows : s.Grows s') : Ready cwd p s' where
  whole := Entries.Grows.keeps (fun _ _ _ _ _ => Whole.newDir) hgrows h.whole
  linked := h.linked.mono hgrows.le
  clear := Entries.Grows.keeps (fun _ _ _ _ _ => Clear.newDir) hgrows h.clear

/-- The error is none that tells what is there and what is not. -/
def Refused (e : DirError) (_ : Dirs files) : Prop :=
  ∃ error, e = .systemError error ∧ Denied error.code

/-- While directories are made, `stat` finds one that is there. -/
lemma safe_stat (h : s.entries.HasDir cwd p) :
    (stat p).Safe Grows (makeStep cwd) Grows s
      (fun res s' => ∃ st, res = some st ∧ S_ISDIR st.st_mode = true ∧ s'.entries.HasDir cwd p)
      Refused := by
  refine Safe.bind ?_
  intro s₁ h₁ r s' hstep
  obtain ⟨i, hleads, hi⟩ := h.mono h₁.le
  cases r with
  | ok st =>
    obtain ⟨rfl, i', hleads', hifmt⟩ := hstep
    obtain rfl := hleads.unique hleads'
    refine ⟨.refl, fun s₂ h₂ s₃ h₃ => ⟨st, rfl, (isDir_iff_S_ISDIR hifmt).mpr hi, ?_⟩⟩
    exact HasDir.mono ⟨i, hleads, hi⟩ (le_trans h₂.le h₃.le)
  | error errno =>
    obtain ⟨rfl, ⟨-, hnil | hmissing⟩ | ⟨-, hnone⟩ | hdenied⟩ := hstep
    · exact absurd hnil hleads.1
    · exact absurd hleads.2 hmissing.not_walk
    · exact absurd ⟨i, hleads⟩ hnone
    · refine ⟨.refl, fun s₂ _ => ?_⟩
      dsimp only
      rw [if_neg hdenied.2.2.1]
      exact fun s₃ _ => ⟨_, rfl, hdenied⟩

/-- The first turn is the last one. -/
lemma safe_mkdir_ifmissing (h : Ready cwd p s) (hplace : s.entries.HasPlace cwd p) :
    (mkdir_ifmissing p mode).Safe Grows (makeStep cwd) Grows s
      (fun _ s' => s'.entries.HasDir cwd p) Refused := by
  refine Safe.bind ?_
  intro s₁ h₁ r s' hstep
  cases r with
  | ok _ =>
    obtain ⟨⟨dir, n, j, hlast, hnew⟩, -⟩ := hstep
    have hj : files.IsDir j := ⟨_, hnew.kind⟩
    have hleads := (hlast.mono hnew.le).leads hnew.made hj
    refine ⟨.single ⟨dir, n, j, hnew⟩, fun s₂ h₂ s₃ h₃ => ?_⟩
    exact HasDir.mono ⟨j, hleads, hj⟩ (le_trans h₂.le h₃.le)
  | error errno =>
    obtain ⟨rfl, ⟨herrno, hstands⟩ | ⟨-, hnone⟩ | hdenied⟩ := hstep
    · -- what is there is a directory, and stays there
      have hdir := (h.grows h₁).clear.hasDir hstands
      refine ⟨.refl, fun s₂ h₂ => ?_⟩
      dsimp only
      rw [if_neg (by tauto)]
      refine Safe.bind ((safe_stat (hdir.mono h₂.le)).mono ?_ fun _ _ h => h)
      rintro _ s₃ ⟨st, rfl, hst, hdir⟩
      dsimp only
      rw [hst, Bool.not_true, if_neg Bool.false_ne_true]
      exact fun s₄ h₄ => hdir.mono h₄.le
    · exact absurd (hplace.mono h₁.le) hnone
    · refine ⟨.refl, fun s₂ _ => ?_⟩
      dsimp only
      rw [if_pos ⟨hdenied.1, hdenied.2.1⟩]
      exact fun s₃ _ => ⟨_, rfl, hdenied⟩

lemma Ready.upper (h : Ready cwd p s) (hp : p ≠ []) : Ready cwd (parent p) s :=
  ⟨h.whole, h.linked, clearPath_upper hp h.clear⟩

lemma hasDir_top (h : Ready cwd p s) (htop : IsTop p) : s.entries.HasDir cwd p := by
  rcases htop with rfl | rfl
  · have hslash : components (str "/") = List.replicate 2 [] := components_replicate 1
    refine ⟨files.root, ⟨by decide, ?_⟩, h.whole.root⟩
    rw [hslash]
    exact .stays h.whole.root 2
  · have hdot : components (str ".") = [str "."] := Pieces.pieces_singleton (by decide)
    have hcwd : files.IsDir cwd := Clear.dir h.clear
    refine ⟨cwd, ⟨by decide, ?_⟩, hcwd⟩
    rw [hdot]
    exact .stay hcwd (.inr rfl) .here

/-- By induction on the lineage of the pathname. -/
lemma safe_makedirs {ds : List Str} (hds : Lineage p ds) {prog : DirProg Unit}
    (hprog : (makedirs p mode).Returns (some prog)) (hp : p ≠ []) (h : Ready cwd p s) :
    prog.Safe Grows (makeStep cwd) Grows s
      (fun _ s' => s'.entries.HasDir cwd p ∧ ∀ d ∈ ds, s'.entries.HasDir cwd d) Refused := by
  induction hds generalizing prog with
  | top htop =>
    obtain rfl : pure () = prog := Option.some.inj ((makedirs_top htop).unique hprog)
    exact fun s₁ h₁ => ⟨(hasDir_top h htop).mono h₁.le, by simp⟩
  | @under p dir ds htop hdir hds ih =>
    obtain rfl : parent p = dir := Option.some.inj ((dirname_eq p).symm.trans hdir)
    obtain ⟨upper, hupper, -⟩ := hds.makedirs mode
    obtain rfl : _ = prog := Option.some.inj ((makedirs_under htop hdir hupper).unique hprog)
    have hne : parent p ≠ [] := by
      obtain ⟨cs, c, k, -, hup⟩ := exists_upper hp
      cases hup with
      | here hdir => exact hdir ▸ by decide
      | root hdir => exact hdir ▸ by decide
      | above hne => exact hne
    have hrun := (ih hupper hne (h.upper hp)).relied fun _ _ h => h
    refine Safe.bind (hrun.mono ?_ fun _ _ h => h.2)
    rintro _ s' ⟨hgrows, hup, hall⟩
    have h' := h.grows hgrows
    refine ((safe_mkdir_ifmissing h' (hasPlace_upper hp h'.whole h'.linked hup)).relied
      fun _ _ h => h).mono ?_ fun _ _ h => h.2
    rintro _ s'' ⟨hgrows', hdir'⟩
    refine ⟨hdir', fun d hd => ?_⟩
    rcases List.mem_append.mp hd with hd | hd
    · exact (hall d hd).mono hgrows'.le
    · rwa [List.mem_singleton.mp hd]

/-- Any number of processes make directories at the same time. If nothing is in the way of the
pathnames, all their components are there for each process that has returned, and none throws
because of something that is there, or is not. -/
theorem makedirs_together {ι : Type} [DecidableEq ι] (cwd : ι → ℕ) (p : ι → Str) (mode : ι → Mode)
    (prog progs' : ι → DirProg Unit) (s s' : Dirs files)
    (hprog : ∀ i, (makedirs (p i) (mode i)).Returns (some (prog i))) (hp : ∀ i, p i ≠ [])
    (hs : ∀ i, Ready (cwd i) (p i) s) (hrun : Steps (fun i => makeStep (cwd i)) prog s progs' s')
    (i : ι) :
    (progs' i = .ret () →
      ∃ ds, Lineage (p i) ds ∧ s'.entries.HasDir (cwd i) (p i) ∧
        ∀ d ∈ ds, s'.entries.HasDir (cwd i) d) ∧
      ∀ e, progs' i = .throw e → ∃ error, e = .systemError error ∧ Denied error.code := by
  choose ds hds using fun i => exists_lineage (p i)
  have hsafe : (progs' i).Safe Grows (makeStep (cwd i)) Grows s' _ Refused :=
    hrun.safe (fun _ _ h => h) (fun i => safe_makedirs (hds i) (hprog i) (hp i) (hs i)) i
  refine ⟨fun hret => ?_, fun e hthrow => ?_⟩
  · rw [hret] at hsafe
    exact ⟨ds i, hds i, hsafe s' .refl⟩
  · rw [hthrow] at hsafe
    exact hsafe s' .refl

/-! ### Two processes -/

/-- A root, and an inode for a directory in it. -/
def rootFiles : Files where
  kind i := if i ≤ 1 then .dir 0 else .reg
  root := 0
  cwd := 0
  reports _ := true
  keeps := False

def noEntry : Entries rootFiles where
  get _ _ := none
  isdir _ _ _ h := absurd h (Option.some_ne_none _).symm
  isname _ _ _ h := absurd h (Option.some_ne_none _).symm
  finite _ := by simp

lemma isName_new : IsName (str "d") := ⟨by decide, by decide, by decide, by decide⟩

def rootEntry : Entries rootFiles where
  get d n := if d = 0 ∧ n = str "d" then some 1 else none
  isdir d n i h := by
    split_ifs at h with h0
    exact ⟨0, by rw [h0.1]; rfl⟩
  isname d n i h := by
    split_ifs at h with h0
    rw [h0.2]
    exact isName_new
  finite d := by
    refine (Set.finite_singleton (str "d")).subset fun n (h : ite _ _ _ ≠ none) => ?_
    split_ifs at h with h0
    · exact h0.2
    · exact absurd rfl h

lemma newDir_root : noEntry.NewDir rootEntry 0 (str "d") 1 where
  linked := .inl rfl
  kind := rfl
  free := rfl
  unused := by rintro (h | ⟨d, n, h⟩) <;> cases h
  empty _ := rfl
  get _ _ := rfl

lemma ready_root : Ready 0 (str "d") ⟨noEntry, fun _ => none, fun _ => none⟩ where
  whole := by
    refine ⟨⟨0, rfl⟩, ?_⟩
    rintro i parent (rfl | ⟨d, n, h⟩) hparent
    · obtain rfl : 0 = parent := FileKind.dir.inj hparent
      exact ⟨⟨0, rfl⟩, .inl rfl⟩
    · cases h
  linked := .inl rfl
  clear := by
    rw [ClearPath, components_name isName_new, start_name isName_new]
    exact .free ⟨0, rfl⟩ isName_new rfl (by simp)

lemma makedirs_d (mode : Mode) :
    (makedirs (str "d") mode).Returns
      (some (pure () >>= fun _ => mkdir_ifmissing (str "d") mode)) :=
  makedirs_under (by decide) (by decide) (makedirs_top (.inr rfl))

/-- One makes the directory and the other one finds it. -/
theorem makedirs_together_two :
    ∃ prog s s', (makedirs (str "d") 0o777).Returns (some prog) ∧
      Steps (fun _ : Bool => makeStep 0) (fun _ => prog) s (fun _ => .ret ()) s' ∧
      ¬ (s : Dirs rootFiles).entries.HasDir 0 (str "d") ∧ s'.entries.HasDir 0 (str "d") := by
  let s : Dirs rootFiles := ⟨noEntry, fun _ => none, fun _ => none⟩
  let s' : Dirs rootFiles := ⟨rootEntry, fun _ => none, fun _ => none⟩
  let prog : DirProg Unit := pure () >>= fun _ => mkdir_ifmissing (str "d") 0o777
  have hlast (E : Entries rootFiles) : E.LastName 0 (str "d") 0 (str "d") := by
    refine ⟨[], 0, components_name isName_new, isName_new, ?_⟩
    rw [start_name isName_new]
    exact .here
  have hrun : Steps (fun _ : Bool => makeStep 0) (fun _ => prog) s (fun _ => .ret ()) s' := by
    have hmade : makeStep 0 s (.mkdir (str "d") 0o777) (Except.ok ()) s' :=
      ⟨⟨0, str "d", 1, hlast _, newDir_root⟩, rfl, rfl⟩
    have hexists : makeStep 0 s' (.mkdir (str "d") 0o777) (Except.error EEXIST) s' :=
      ⟨rfl, .inl ⟨.inl rfl, .inr ⟨0, str "d", hlast _, by decide⟩⟩⟩
    have hfound : makeStep 0 s' (.stat (str "d")) (Except.ok ⟨0o040000⟩) s' :=
      ⟨rfl, 1, (hlast _).leads rfl ⟨0, rfl⟩, rfl⟩
    have hdone (progs : Bool → DirProg Unit) (h : progs = fun _ => .ret ()) :
        Steps (fun _ : Bool => makeStep 0) progs s' (fun _ => .ret ()) s' := h ▸ .refl _ _
    refine .call true _ s' rfl hmade (.call false _ s' rfl hexists
      (.call false _ s' rfl hfound (hdone _ ?_)))
    exact funext fun b => by cases b <;> rfl
  refine ⟨prog, s, s', makedirs_d _, hrun, ?_, ?_⟩
  · rintro ⟨i, ⟨-, hwalk⟩, -⟩
    rw [components_name isName_new, start_name isName_new] at hwalk
    exact not_walk_of_none isName_new rfl hwalk
  · obtain ⟨ds, -, hdir, -⟩ := (makedirs_together _ _ (fun _ => 0o777) _ _ s s'
      (fun _ => makedirs_d _) (fun _ => by decide) (fun _ => ready_root) hrun true).1 rfl
    exact hdir

end Dirs

end Libept.Sys
