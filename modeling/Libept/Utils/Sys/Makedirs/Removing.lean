import Libept.Utils.Sys.Growing
import Libept.Utils.Sys.Rmtree

/-!
# Making directories while others remove them

`mkdir_ifmissing` finds out with two calls that there is something that is not a directory, and
another process may remove it between the two. It tries again, and after some turns takes it for a
symbolic link that leads nowhere. When the others only remove files and directories, one more turn
is enough, and what it says has been true of an entry that was there from the beginning.
-/

namespace Libept.Sys

open Prog Utils

variable {files : Files} {d i j k : ℕ} {c n p : Str} {cs cs' : List Str}

namespace Entries

variable {E E' : Entries files}

/-- What is missing is behind the components that lead somewhere. -/
lemma Missing.walked (h : E.Missing d (cs ++ cs')) (hwalk : E.Walk d cs j) : E.Missing j cs' := by
  induction cs generalizing d with
  | nil =>
    cases hwalk
    exact h
  | cons c cs ih =>
    cases h with
    | absent hname hc => exact absurd hwalk (not_walk_of_none hname hc)
    | pass hc h => exact ih h ((walk_cons_iff hc).mp hwalk)
    | link hc hj h =>
      have happend : E.Walk d ([c] ++ cs) j := hwalk
      obtain ⟨i, hi, -⟩ := happend.of_append
      exact absurd hi (Missing.not_walk (.link hc hj h))

lemma not_missing_replicate (k : ℕ) : ¬ E.Missing d (List.replicate k []) := by
  induction k generalizing d with
  | zero =>
    intro h
    cases h
  | succ k ih =>
    intro h
    cases h with
    | absent hname => exact hname.ne_nil rfl
    | pass _ h => exact ih h
    | link hc => exact (ne_of_get hc).1 rfl

/-- When the last name of a pathname is there, and yet it leads to nothing, the name is that of a
symbolic link that leads to nothing. -/
lemma Missing.symlink (h : E.Missing (start files d p) (components p))
    (hlast : E.LastName d p i n) (hn : E.get i n = some j) :
    ∃ target, files.kind j = .symlink target ∧
      E.Missing (start files i target) (components target) := by
  obtain ⟨cs, k, hcs, hname, hwalk⟩ := hlast
  rw [hcs] at h
  cases h.walked hwalk with
  | absent _ hc => exact absurd (hc.symm.trans hn) (by simp)
  | pass _ hrest => exact absurd hrest (not_missing_replicate k)
  | link hc hj htarget =>
    obtain rfl : j = _ := Option.some.inj (hn.symm.trans hc)
    exact ⟨_, hj, htarget⟩

/-- No directory is in something that is not one. -/
structure Closed (files : Files) : Prop where
  root : files.IsDir files.root
  parent : ∀ i parent, files.kind i = .dir parent → files.IsDir parent

/-- What is not a directory is found under the last component, in the directory that the others
lead to. -/
lemma Walk.last_of_not_isDir (hfiles : Closed files) (h : E.Walk d cs i) (hd : files.IsDir d)
    (hi : ¬ files.IsDir i) :
    ∃ cs' dir c j, cs = cs' ++ [c] ∧ E.Walk d cs' dir ∧ E.get dir c = some j ∧
      ¬ files.IsDir j := by
  induction h with
  | here => exact absurd hd hi
  | stay hstay hskip _ ih =>
    obtain ⟨cs', dir, n, j, rfl, hwalk, hget, hj⟩ := ih hd hi
    exact ⟨_ :: cs', dir, n, j, rfl, .stay hstay hskip hwalk, hget, hj⟩
  | up hparent _ ih =>
    obtain ⟨cs', dir, n, j, rfl, hwalk, hget, hj⟩ := ih (hfiles.parent _ _ hparent) hi
    exact ⟨_ :: cs', dir, n, j, rfl, .up hparent hwalk, hget, hj⟩
  | @enter d k i c cs hc hk h ih =>
    by_cases hdir : files.IsDir k
    · obtain ⟨cs', dir, n, j, rfl, hwalk, hget, hj⟩ := ih hdir hi
      exact ⟨c :: cs', dir, n, j, rfl, .enter hc hk hwalk, hget, hj⟩
    · cases cs with
      | nil => exact ⟨[], d, c, k, rfl, .here, hc, hdir⟩
      | cons => exact absurd h.isDir_of_cons hdir
  | @follow d l k i c target cs hc hl htarget h _ ih =>
    by_cases hdir : files.IsDir k
    · obtain ⟨cs', dir, n, j, rfl, hwalk, hget, hj⟩ := ih hdir hi
      exact ⟨c :: cs', dir, n, j, rfl, .follow hc hl htarget hwalk, hget, hj⟩
    · cases cs with
      | nil => exact ⟨[], d, c, l, rfl, .here, hc, fun hdir' => not_symlink hdir' _ hl⟩
      | cons => exact absurd h.isDir_of_cons hdir

/-- Entries have been removed and directories have been made. -/
def Becomes : Entries files → Entries files → Prop :=
  Relation.ReflTransGen fun E E' => E' ≤ E ∨ ∃ d n j, E.NewDir E' d n j

/-- The entries that have been made since are directories. -/
lemma Becomes.get (h : E.Becomes E') (hn : E'.get d n = some j) :
    E.get d n = some j ∨ files.IsDir j := by
  induction h with
  | refl => exact .inl hn
  | tail _ hstep ih =>
    rcases hstep with hle | ⟨d', n', j', hnew⟩
    · exact ih (hle _ _ _ hn)
    · rw [hnew.get] at hn
      split_ifs at hn
      · obtain rfl := Option.some.inj hn
        exact .inr ⟨_, hnew.kind⟩
      · exact ih hn

lemma Becomes.removed (h : E.Becomes E') {E'' : Entries files} (hle : E'' ≤ E') : E.Becomes E'' :=
  h.tail (.inl hle)

lemma Becomes.newDir (h : E.Becomes E') {E'' : Entries files} (hnew : E'.NewDir E'' d n j) :
    E.Becomes E'' :=
  h.tail (.inr ⟨d, n, j, hnew⟩)

end Entries

namespace Dirs

open Entries

variable {s s' : Dirs files} {E : Entries files} {cwd : ℕ} {mode : Mode} {ds : List Str}

/-- What the error says of a pathname is true in a tree, of an entry that was there in the
beginning. -/
inductive Truthful (E E' : Entries files) (cwd : ℕ) (p : Str) : DirError → Prop
  | failed {error : SystemError} : Truthful E E' cwd p (.systemError error)
  | found {dir i j : ℕ} {name : Str} (hlast : E'.LastName cwd p dir name)
    (hget : E.get dir name = some j) (hget' : E'.get dir name = some j)
    (hleads : E'.Leads cwd p i) (hi : ¬ files.IsDir i) :
    Truthful E E' cwd p (.runtimeError (p ++ str " exists but is not a directory"))
  | dangling {dir j : ℕ} {name target : Str} (hlast : E'.LastName cwd p dir name)
    (hget : E.get dir name = some j) (hget' : E'.get dir name = some j)
    (hj : files.kind j = .symlink target)
    (hmissing : E'.Missing (start files dir target) (components target)) :
    Truthful E E' cwd p (.runtimeError (p ++ str " exists and looks like a dangling symlink"))

/-- So it was in a tree that the first one became, and since then entries have only been removed. -/
def WasTruthful (E : Entries files) (cwd : ℕ) (p : Str) (e : DirError) (s : Dirs files) : Prop :=
  ∃ E', E.Becomes E' ∧ s.entries ≤ E' ∧ Truthful E E' cwd p e

/-- The others remove entries. -/
def Shrinks (s s' : Dirs files) : Prop := s'.entries ≤ s.entries

instance : IsRely (@Shrinks files) where
  refl s := le_refl s.entries
  trans _ _ _ h h' := le_trans h' h

/-- In a turn before, the pathname came to a name that was not there. -/
def Failed (E : Entries files) (cwd : ℕ) (p : Str) (s : Dirs files) : Prop :=
  ∃ E', E.Becomes E' ∧ s.entries ≤ E' ∧ E'.Missing (start files cwd p) (components p)

lemma Failed.shrinks (h : Failed E cwd p s) (hshrinks : s.Shrinks s') : Failed E cwd p s' := by
  obtain ⟨E', hbecomes, hle, hmissing⟩ := h
  exact ⟨E', hbecomes, le_trans hshrinks hle, hmissing⟩

/-- If there is something again in the next turn, it is the link that was there before. -/
lemma Failed.dangling (h : Failed E cwd p s) (hstands : s.entries.Stands cwd p) :
    WasTruthful E cwd p (.runtimeError (p ++ str " exists and looks like a dangling symlink"))
      s := by
  obtain ⟨E', hbecomes, hle, hmissing⟩ := h
  rcases hstands with ⟨i, hleads⟩ | ⟨dir, n, hlast, hn⟩
  · exact absurd (hleads.mono hle).2 hmissing.not_walk
  obtain ⟨j, hj⟩ := Option.ne_none_iff_exists'.mp hn
  have hlast' := hlast.mono hle
  have hj' := hle _ _ _ hj
  obtain ⟨target, hkind, htarget⟩ := hmissing.symlink hlast' hj'
  refine ⟨E', hbecomes, hle, .dangling hlast' ?_ hj' hkind htarget⟩
  exact (hbecomes.get hj').resolve_right fun hdir => not_symlink hdir _ hkind

lemma WasTruthful.shrinks {e : DirError} (h : WasTruthful E cwd p e s) (hshrinks : s.Shrinks s') :
    WasTruthful E cwd p e s' := by
  obtain ⟨E', hbecomes, hle, htruthful⟩ := h
  exact ⟨E', hbecomes, le_trans hshrinks hle, htruthful⟩

/-- The walk has come to something that is not a directory. -/
lemma wasTruthful_found (hfiles : Closed files) (hcwd : files.IsDir cwd)
    (hbecomes : E.Becomes s.entries) (hleads : s.entries.Leads cwd p i) (hi : ¬ files.IsDir i) :
    WasTruthful E cwd p (.runtimeError (p ++ str " exists but is not a directory")) s := by
  have hstart : files.IsDir (start files cwd p) := by
    rw [start]
    split_ifs
    · exact hfiles.root
    · exact hcwd
  obtain ⟨cs, dir, n, j, hcs, hwalk, hget, hj⟩ := hleads.2.last_of_not_isDir hfiles hstart hi
  have hlast : s.entries.LastName cwd p dir n :=
    ⟨cs, 0, hcs, s.entries.isname _ _ _ hget, hwalk⟩
  refine ⟨s.entries, hbecomes, le_refl _, .found hlast ?_ hget hleads hi⟩
  exact (hbecomes.get hget).resolve_right hj

lemma wasTruthful_failed {error : SystemError} (h : E.Becomes s.entries) :
    WasTruthful E cwd p (.systemError error) s :=
  ⟨s.entries, h, le_refl _, .failed⟩

lemma safe_stat_shrinks (hp : p ≠ []) (hbecomes : E.Becomes s.entries) :
    (stat p).Safe Shrinks (makeStep cwd) (fun _ _ => True) s
      (fun res s' => s.Shrinks s' ∧ ((res = none ∧ Failed E cwd p s') ∨
        ∃ st i s₁, res = some st ∧ s.Shrinks s₁ ∧ s₁.Shrinks s' ∧ s₁.entries.Leads cwd p i ∧
          (S_ISDIR st.st_mode = true ↔ files.IsDir i)))
      fun e s' => s.Shrinks s' ∧ ∃ error, e = .systemError error := by
  refine Safe.bind ?_
  intro s₁ h₁ r s' hstep
  cases r with
  | ok st =>
    obtain ⟨rfl, i, hleads, hifmt⟩ := hstep
    refine ⟨trivial, fun s₂ h₂ s₃ h₃ => ?_⟩
    have h₁₃ := le_trans h₃ h₂
    exact ⟨le_trans h₁₃ h₁, .inr ⟨st, i, s', rfl, h₁, h₁₃, hleads, isDir_iff_S_ISDIR hifmt⟩⟩
  | error errno =>
    obtain ⟨rfl, hstep⟩ := hstep
    refine ⟨trivial, fun s₂ h₂ => ?_⟩
    dsimp only
    split_ifs with herrno
    · intro s₃ h₃
      have h₁₃ := le_trans h₃ h₂
      refine ⟨le_trans h₁₃ h₁, .inl ⟨rfl, _, hbecomes.removed h₁, h₁₃, ?_⟩⟩
      rcases hstep with ⟨-, hnil | hmissing⟩ | ⟨hnotdir, -⟩ | hdenied
      · exact absurd hnil hp
      · exact hmissing
      · rw [herrno] at hnotdir
        exact absurd hnotdir (by decide)
      · exact absurd herrno hdenied.2.2.1
    · exact fun s₃ h₃ => ⟨le_trans (le_trans h₃ h₂) h₁, _, rfl⟩

/-- One turn, with what is left to do in the next one. -/
lemma safe_turn (n : ℕ) (hfiles : Closed files) (hcwd : files.IsDir cwd)
    (hbecomes : E.Becomes s.entries)
    (hnext : ∀ s₁ s₂, s.Shrinks s₁ → s₁.Shrinks s₂ → s₁.entries.Stands cwd p →
      Failed E cwd p s₂ →
      (mkdirLoop p mode n).Safe Shrinks (makeStep cwd) (fun _ _ => True) s₂
        (fun _ s' => E.Becomes s'.entries) fun e s' => WasTruthful E cwd p e s') :
    (mkdirLoop p mode (n + 1)).Safe Shrinks (makeStep cwd) (fun _ _ => True) s
      (fun _ s' => E.Becomes s'.entries) fun e s' => WasTruthful E cwd p e s' := by
  refine Safe.bind ?_
  intro s₁ h₁ r s' hstep
  have hbecomes₁ := hbecomes.removed h₁
  cases r with
  | ok _ =>
    obtain ⟨⟨dir, m, j, -, hnew⟩, -⟩ := hstep
    exact ⟨trivial, fun s₂ h₂ s₃ h₃ => (hbecomes₁.newDir hnew).removed (le_trans h₃ h₂)⟩
  | error errno =>
    obtain ⟨rfl, hstep⟩ := hstep
    refine ⟨trivial, fun s₂ h₂ => ?_⟩
    have hbecomes₂ := hbecomes₁.removed h₂
    dsimp only
    split_ifs with herrno
    · exact fun s₃ h₃ => wasTruthful_failed (hbecomes₂.removed h₃)
    have hstands : s'.entries.Stands cwd p := by
      rcases hstep with ⟨-, hstands⟩ | ⟨hnone | hnotdir, -⟩ | hdenied
      · exact hstands
      · rw [hnone] at herrno
        exact absurd herrno (by decide)
      · rw [hnotdir] at herrno
        exact absurd herrno (by decide)
      · exact absurd ⟨hdenied.1, hdenied.2.1⟩ herrno
    refine Safe.bind ((safe_stat_shrinks hstands.ne_nil hbecomes₂).mono ?_ ?_)
    · rintro res s₃ ⟨h₃, ⟨rfl, hfailed⟩ | ⟨st, i, s₄, rfl, h₄, h₄₃, hleads, hiff⟩⟩
      · exact hnext s' s₃ h₁ (le_trans h₃ h₂) hstands hfailed
      · dsimp only
        split_ifs with hdir
        · intro s₅ h₅
          have hi : ¬ files.IsDir i := fun hi => by
            rw [hiff.mpr hi] at hdir
            cases hdir
          have hfound := wasTruthful_found hfiles hcwd (hbecomes₂.removed h₄) hleads hi
          exact hfound.shrinks (le_trans h₅ h₄₃)
        · exact fun s₅ h₅ => hbecomes₂.removed (le_trans h₅ h₃)
    · rintro _ s₃ ⟨h₃, error, rfl⟩
      exact wasTruthful_failed (hbecomes₂.removed h₃)

/-- By induction on the turns that are left. -/
lemma safe_mkdirLoop (n : ℕ) (hfiles : Closed files) (hcwd : files.IsDir cwd)
    (hbecomes : E.Becomes s.entries) (hfailed : Failed E cwd p s)
    (hlast : n = 0 →
      WasTruthful E cwd p (.runtimeError (p ++ str " exists and looks like a dangling symlink"))
        s) :
    (mkdirLoop p mode n).Safe Shrinks (makeStep cwd) (fun _ _ => True) s
      (fun _ s' => E.Becomes s'.entries) fun e s' => WasTruthful E cwd p e s' := by
  induction n generalizing s with
  | zero => exact fun s₁ h₁ => (hlast rfl).shrinks h₁
  | succ n ih =>
    refine safe_turn n hfiles hcwd hbecomes fun s₁ s₂ h₁ h₂ hstands hfailed₂ => ?_
    refine ih (hbecomes.removed (le_trans h₂ h₁)) hfailed₂ fun _ => ?_
    exact ((hfailed.shrinks h₁).dangling hstands).shrinks h₂

lemma safe_mkdir_ifmissing_shrinks (hfiles : Closed files) (hcwd : files.IsDir cwd)
    (hbecomes : E.Becomes s.entries) :
    (mkdir_ifmissing p mode).Safe Shrinks (makeStep cwd) (fun _ _ => True) s
      (fun _ s' => E.Becomes s'.entries) fun e s' => WasTruthful E cwd p e s' :=
  safe_turn 4 hfiles hcwd hbecomes fun _ _ h₁ h₂ _ hfailed =>
    safe_mkdirLoop 4 hfiles hcwd (hbecomes.removed (le_trans h₂ h₁)) hfailed
      fun h => absurd h (by decide)

/-- By induction on the lineage of the pathname. -/
lemma safe_makedirs_shrinks (hfiles : Closed files) (hcwd : files.IsDir cwd)
    (hds : Lineage p ds) {prog : DirProg Unit} (hprog : (makedirs p mode).Returns (some prog))
    (hbecomes : E.Becomes s.entries) :
    prog.Safe Shrinks (makeStep cwd) (fun _ _ => True) s (fun _ s' => E.Becomes s'.entries)
      fun e s' => ∃ d ∈ ds, WasTruthful E cwd d e s' := by
  induction hds generalizing prog with
  | top htop =>
    obtain rfl : pure () = prog := Option.some.inj ((makedirs_top htop).unique hprog)
    exact fun s₁ h₁ => hbecomes.removed h₁
  | @under p dir ds htop hdir hds ih =>
    obtain ⟨upper, hupper, -⟩ := hds.makedirs mode
    obtain rfl : _ = prog := Option.some.inj ((makedirs_under htop hdir hupper).unique hprog)
    refine Safe.bind ((ih hupper).mono ?_ ?_)
    · intro _ s' hbecomes'
      refine (safe_mkdir_ifmissing_shrinks hfiles hcwd hbecomes').mono (fun _ _ h => h) ?_
      exact fun e _ he => ⟨p, List.mem_append_right _ (List.mem_singleton_self p), he⟩
    · rintro e _ ⟨d, hd, he⟩
      exact ⟨d, List.mem_append_left _ hd, he⟩

/-- None of the calls that remove directories makes an entry. -/
lemma shrinks_of_step {c : PathCall} {r : c.Reply} (h : s.step c r s') : s.Shrinks s' := by
  rw [Shrinks]
  rcases step_entries h with hsame | ⟨d, n, -, -, -, hremove⟩
  · rw [hsame]
    exact le_refl _
  · rw [hremove]
    exact remove_le _ _ _

/-- While another process removes files and directories, `makedirs` says that a directory is a
symbolic link that leads nowhere, or not a directory, only if that has been so at some time, and of
an entry that was there from the beginning. -/
theorem makedirs_while_removed {β : Type} {prog : DirProg Unit} {x : DirProg Unit}
    {y y' : PathProg β} {e : DirError} (hfiles : Closed files) (hcwd : files.IsDir cwd)
    (hprog : (makedirs p mode).Returns (some prog)) (hds : Lineage p ds)
    (hrun : Interleaves (makeStep cwd) step prog y s x y' s') (hthrow : x = .throw e) :
    ∃ d ∈ ds, ∃ E', s.entries.Becomes E' ∧ s'.entries ≤ E' ∧
      Truthful s.entries E' cwd d e := by
  have hy : y.Safe (fun _ _ => True) step Shrinks s (fun _ _ => True) fun _ _ => True :=
    safe_of_step (fun _ _ _ _ h => shrinks_of_step h) y s
  have hsafe := (hrun.safe (fun _ _ _ => trivial) (fun _ _ h => h)
    (safe_makedirs_shrinks hfiles hcwd hds hprog .refl) hy).1
  rw [hthrow] at hsafe
  exact hsafe s' (le_refl _)

/-! ### A link -/

/-- A root with a link to nothing in it. -/
def linkFiles : Files where
  kind i := if i = 0 then .dir 0 else .symlink (str "x")
  root := 0
  cwd := 0
  reports _ := true
  keeps := False

lemma isName_l : IsName (str "l") := ⟨by decide, by decide, by decide, by decide⟩

def linkEntry : Entries linkFiles where
  get d n := if d = 0 ∧ n = str "l" then some 1 else none
  isdir d n i h := by
    split_ifs at h with h0
    exact ⟨0, by rw [h0.1]; rfl⟩
  isname d n i h := by
    split_ifs at h with h0
    rw [h0.2]
    exact isName_l
  finite d := by
    refine (Set.finite_singleton (str "l")).subset fun n (h : ite _ _ _ ≠ none) => ?_
    split_ifs at h with h0
    · exact h0.2
    · exact absurd rfl h

lemma closed_linkFiles : Closed linkFiles where
  root := ⟨0, rfl⟩
  parent i parent h := by
    change ite _ _ _ = _ at h
    split_ifs at h
    exact ⟨0, by rw [← FileKind.dir.inj h]; rfl⟩

lemma makedirs_l (mode : Mode) :
    (makedirs (str "l") mode).Returns
      (some (pure () >>= fun _ => mkdir_ifmissing (str "l") mode)) :=
  makedirs_under (by decide) (by decide) (makedirs_top (.inr rfl))

/-- Between two turns another process tries to remove a tree. -/
theorem makedirs_while_removed_link :
    ∃ (prog : DirProg Unit) (y' : PathProg Unit) (e : DirError) (s : Dirs linkFiles),
      s.entries = linkEntry ∧ (makedirs (str "l") 0o777).Returns (some prog) ∧
      Interleaves (makeStep 0) step prog (rmtree 1 (str "q")) s (.throw e) y' s ∧
      ∃ E', Truthful linkEntry E' 0 (str "l") e := by
  let s : Dirs linkFiles := ⟨linkEntry, fun _ => none, fun _ => none⟩
  have hexists : makeStep 0 s (.mkdir (str "l") 0o777) (Except.error EEXIST) s := by
    refine ⟨rfl, .inl ⟨.inl rfl, .inr ⟨0, str "l", ⟨[], 0, components_name isName_l, isName_l, ?_⟩,
      by decide⟩⟩⟩
    rw [start_name isName_l]
    exact .here
  have hdangling : makeStep 0 s (.stat (str "l")) (Except.error ENOENT) s := by
    have hx : IsName (str "x") := ⟨by decide, by decide, by decide, by decide⟩
    refine ⟨rfl, .inl ⟨rfl, .inr ?_⟩⟩
    rw [components_name isName_l, start_name isName_l]
    refine .link rfl rfl ?_
    rw [components_name hx, start_name hx]
    exact .absent hx rfl
  have hturn {x : DirProg Unit} {y y' : PathProg Unit} {n : ℕ}
      (h : Interleaves (makeStep 0) step (mkdirLoop (str "l") 0o777 n) y s x y' s) :
      Interleaves (makeStep 0) step (mkdirLoop (str "l") 0o777 (n + 1)) y s x y' s :=
    .left _ s hexists (.left _ s hdangling h)
  have hopen : step s (.openPath (str "q") [.O_PATH]) (Except.error ENOENT) s := rfl
  have hrun : Interleaves (makeStep 0) step (mkdirLoop (str "l") 0o777 5) (rmtree 1 (str "q")) s
      (mkdirLoop (str "l") 0o777 0) (.throw _) s :=
    hturn (.right _ s hopen (hturn (hturn (hturn (hturn (.refl _ _ s))))))
  have hprog := makedirs_l 0o777
  have hlineage : Lineage (str "l") [str "l"] :=
    .under (by decide) (by decide) (.top (.inr rfl))
  obtain ⟨d, hd, E', -, -, htruthful⟩ :=
    makedirs_while_removed closed_linkFiles ⟨0, rfl⟩ hprog hlineage hrun rfl
  rw [List.mem_singleton.mp hd] at htruthful
  exact ⟨_, _, _, s, rfl, hprog, hrun, E', htruthful⟩

end Dirs

end Libept.Sys
