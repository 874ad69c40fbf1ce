import Libept.Utils.Sys
import Libept.Utils.String.Dirname

/-!
# Making directories

`makedirs` calls itself for the directory of a pathname until it gets to the root or to the current
directory, and on the way back makes what is missing. It is run with a bound on the depth of the
calls. The system calls are those of `mkdir_ifmissing`, and their path names hold no NUL.
-/

namespace Libept.Sys

open Prog Utils

/-! ### System calls -/

inductive DirCall where
  | mkdir (pathname : Str) (mode : Mode)
  | stat (pathname : Str)
  deriving DecidableEq, Repr

/-- `struct stat` -/
structure Stat where
  st_mode : Mode
  deriving DecidableEq, Repr

abbrev DirCall.Reply : DirCall → Type
  | mkdir _ _ => Except Errno Unit
  | stat _ => Except Errno Stat

def DirCall.failed : (c : DirCall) × c.Reply → Bool
  | ⟨mkdir _ _, r⟩ => !r.isOk
  | ⟨stat _, r⟩ => !r.isOk

def ENOENT : Errno := 2
def EEXIST : Errno := 17
def EISDIR : Errno := 21

def S_ISDIR (mode : Mode) : Bool := mode &&& 0o170000 == 0o040000

/-- What is thrown: a `std::system_error` or a `std::runtime_error`. -/
inductive DirError where
  | systemError (error : SystemError)
  | runtimeError (what_arg : Str)
  deriving DecidableEq, Repr

def DirError.what_arg : DirError → Str
  | systemError error => error.what_arg
  | runtimeError what_arg => what_arg

abbrev DirProg := Prog DirCall DirCall.Reply DirError

/-! ### The source -/

/-- The `stat` that gives nothing if there is no such file. -/
def stat (pathname : Str) : DirProg (Option Stat) := do
  let res ← Prog.ask (DirCall.stat pathname)
  match res with
  | .ok st => pure (some st)
  | .error errno =>
    if errno = ENOENT then pure none
    else .throw (.systemError ⟨errno, str "cannot stat " ++ pathname⟩)

/-- The loop of `impl_mkdir_ifmissing`, with the number of turns that are left. -/
def mkdirLoop (pathname : Str) (mode : Mode) : ℕ → DirProg Unit
  | 0 => .throw (.runtimeError (pathname ++ str " exists and looks like a dangling symlink"))
  | n + 1 => do
    let res ← Prog.ask (DirCall.mkdir pathname mode)
    match res with
    | .ok _ => pure ()
    | .error errno =>
      if errno ≠ EEXIST ∧ errno ≠ EISDIR then
        .throw (.systemError ⟨errno, str "cannot create directory " ++ pathname⟩)
      else do
        let st ← stat pathname
        match st with
        -- it has just been deleted, or is a dangling symlink
        | none => mkdirLoop pathname mode n
        | some st =>
          if !S_ISDIR st.st_mode then
            .throw (.runtimeError (pathname ++ str " exists but is not a directory"))
          else pure ()

def mkdir_ifmissing (pathname : Str) (mode : Mode) : DirProg Unit := mkdirLoop pathname mode 5

/-- `makedirs`, as far as it calls itself less than so many times. -/
def makedirsWithin (mode : Mode) : ℕ → Str → Option (Option (DirProg Unit))
  | 0, _ => none
  | n + 1, pathname =>
    if pathname = str "/" ∨ pathname = str "." then some (some (pure ()))
    else
      match dirname pathname with
      | none => some none
      | some parent =>
        (makedirsWithin mode n parent).map fun upper => upper.map fun ensure => do
          -- first ensure that the upper path exists
          ensure
          -- then create this dir
          mkdir_ifmissing pathname mode

lemma makedirsWithin_mono {mode : Mode} {m n : ℕ} {p : Str} {prog : Option (DirProg Unit)}
    (hmn : m ≤ n) (h : makedirsWithin mode m p = some prog) :
    makedirsWithin mode n p = some prog := by
  induction m generalizing n p prog with
  | zero => cases h
  | succ m ih =>
    obtain ⟨n, rfl⟩ : ∃ k, n = k + 1 := ⟨n - 1, by omega⟩
    rw [makedirsWithin] at h ⊢
    split_ifs at h ⊢ with htop
    · exact h
    · split at h
      case h_1 hdir => simpa [hdir] using h
      case h_2 dir hdir =>
        obtain ⟨upper, hupper, rfl⟩ := Option.map_eq_some_iff.mp h
        rw [ih (by omega) hupper]
        rfl

def makedirs (pathname : Str) (mode : Mode) : Comp (Option (DirProg Unit)) :=
  ⟨fun n => makedirsWithin mode n pathname, makedirsWithin_mono⟩

/-! ### The ancestors of a pathname -/

/-- A directory that is there anyway. -/
def IsTop (p : Str) : Prop := p = str "/" ∨ p = str "."

instance (p : Str) : Decidable (IsTop p) := inferInstanceAs (Decidable (_ ∨ _))

/-- The successive ancestors of a pathname below the first one that is there anyway, from the top
down, and the pathname itself at the end. -/
inductive Lineage : Str → List Str → Prop
  | top {p : Str} (htop : IsTop p) : Lineage p []
  | under {p dir : Str} {ds : List Str} (htop : ¬ IsTop p) (hdir : dirname p = some dir)
    (hds : Lineage dir ds) : Lineage p (ds ++ [p])

variable {p dir : Str} {ds : List Str} {mode : Mode}

lemma dirname_cases (hdir : dirname p = some dir) :
    IsTop dir ∨ (dir <+: p ∧ dir.length < p.length ∧ dir.getLast? ≠ some slash) := by
  obtain rfl : parent p = dir := by simpa [dirname_eq] using hdir
  exact or_assoc.mpr (parent_cases p)

/-- What gets smaller from a pathname to its directory. The directories that are there anyway may be
as long as the pathnames that they come from. -/
def rank (p : Str) : ℕ := if IsTop p then 0 else p.length + 1

lemma rank_lt (htop : ¬ IsTop p) (hdir : dirname p = some dir) : rank dir < rank p := by
  rw [rank, rank, if_neg htop]
  split_ifs with htop'
  · exact Nat.succ_pos _
  · obtain ⟨-, hlt, -⟩ := (dirname_cases hdir).resolve_left htop'
    exact Nat.succ_lt_succ hlt

lemma exists_lineage (p : Str) : ∃ ds, Lineage p ds := by
  induction hrank : rank p using Nat.strong_induction_on generalizing p with
  | _ n ih =>
    subst hrank
    by_cases htop : IsTop p
    · exact ⟨[], .top htop⟩
    · obtain ⟨ds, hds⟩ := ih _ (rank_lt htop (dirname_eq p)) _ rfl
      exact ⟨_, .under htop (dirname_eq p) hds⟩

lemma Lineage.eq_nil (h : Lineage p ds) (htop : IsTop p) : ds = [] := by
  cases h with
  | top => rfl
  | under hbelow => exact absurd htop hbelow

/-- All of them are prefixes of the pathname, and they get longer. -/
lemma Lineage.increasing (h : Lineage p ds) :
    (∀ d ∈ ds, d <+: p) ∧ ds.Pairwise fun d e => d.length < e.length := by
  induction h with
  | top => simp
  | @under p dir ds htop hdir hds ih =>
    obtain ⟨hpre, hpairwise⟩ := ih
    rcases dirname_cases hdir with htop' | ⟨hdirp, hlt, -⟩
    · obtain rfl := hds.eq_nil htop'
      simp
    · constructor
      · intro d hd
        rcases List.mem_append.mp hd with hd | hd
        · exact (hpre d hd).trans hdirp
        · rw [List.mem_singleton.mp hd]
      · refine List.pairwise_append.mpr ⟨hpairwise, List.pairwise_singleton _ _, ?_⟩
        rintro d hd _ (_ | ⟨_, ⟨⟩⟩)
        exact Nat.lt_of_le_of_lt (hpre d hd).length_le hlt

/-! ### The calls for one directory -/

abbrev Answered := (c : DirCall) × c.Reply

/-- The calls by which a directory is made, or found, in so many turns at most. -/
inductive Made (p : Str) (mode : Mode) : ℕ → List Answered → Prop
  | made {n : ℕ} : Made p mode (n + 1) [⟨.mkdir p mode, .ok ()⟩]
  | found {n : ℕ} {errno : Errno} {st : Stat} (herrno : errno = EEXIST ∨ errno = EISDIR)
    (hst : S_ISDIR st.st_mode = true) :
    Made p mode (n + 1) [⟨.mkdir p mode, .error errno⟩, ⟨.stat p, .ok st⟩]
  | again {n : ℕ} {errno : Errno} {t : List Answered} (herrno : errno = EEXIST ∨ errno = EISDIR)
    (h : Made p mode n t) :
    Made p mode (n + 1) (⟨.mkdir p mode, .error errno⟩ :: ⟨.stat p, .error ENOENT⟩ :: t)

/-- Some call has failed, and the error names the directory. -/
def GaveUp (p : Str) (e : DirError) (t : List Answered) : Prop :=
  (∃ i ∈ t, DirCall.failed i) ∧ p <:+: e.what_arg

variable {t t' : List Answered} {n : ℕ}

lemma ensures_stat :
    (stat p).Ensures record (fun _ => True) t
      (fun res t' => (res = none ∧ t' = t ++ [⟨.stat p, .error ENOENT⟩]) ∨
        ∃ st, res = some st ∧ t' = t ++ [⟨.stat p, .ok st⟩])
      fun e t' => (∃ errno, t' = t ++ [⟨.stat p, .error errno⟩]) ∧ p <:+: e.what_arg := by
  rw [stat, ensures_bind]
  refine ⟨trivial, ?_⟩
  rintro res _ rfl
  refine ⟨trivial, ?_⟩
  cases res with
  | ok st => exact ⟨trivial, .inr ⟨st, rfl, rfl⟩⟩
  | error errno =>
    by_cases herrno : errno = ENOENT
    · subst herrno
      exact ⟨trivial, .inl ⟨rfl, rfl⟩⟩
    · dsimp only
      rw [if_neg herrno]
      exact ⟨trivial, ⟨errno, rfl⟩, (List.suffix_append _ _).isInfix⟩

/-- By induction on the turns that are left. -/
lemma ensures_mkdirLoop (p : Str) (mode : Mode) (n : ℕ) :
    (mkdirLoop p mode n).Ensures record (fun _ => True) [] (fun _ t => Made p mode n t)
      fun e t => n = 0 ∧ p <:+: e.what_arg ∨ GaveUp p e t := by
  induction n with
  | zero => exact ⟨trivial, .inl ⟨rfl, (List.prefix_append _ _).isInfix⟩⟩
  | succ n ih =>
    rw [mkdirLoop, ensures_bind]
    refine ⟨trivial, ?_⟩
    rintro res _ rfl
    refine ⟨trivial, ?_⟩
    cases res with
    | ok _ => exact ⟨trivial, .made⟩
    | error errno =>
      have hfailed (t : List Answered) :
          ∃ i ∈ [] ++ [⟨.mkdir p mode, .error errno⟩] ++ t, DirCall.failed i :=
        ⟨⟨.mkdir p mode, .error errno⟩, by simp, rfl⟩
      dsimp only
      split_ifs with herrno
      · exact ⟨trivial, .inr ⟨hfailed [], (List.suffix_append _ _).isInfix⟩⟩
      rw [not_and_or, not_not, not_not] at herrno
      rw [ensures_bind]
      refine ensures_stat.mono ?_ ?_
      · rintro _ _ (⟨rfl, rfl⟩ | ⟨st, rfl, rfl⟩)
        · -- the next turn, behind these two calls
          refine ih.after (List.append_nil _).symm (fun _ _ => trivial) ?_ ?_
          · exact fun _ t ht => .again herrno ht
          · rintro e t (⟨-, he⟩ | ⟨-, he⟩)
            · exact .inr ⟨hfailed _, he⟩
            · exact .inr ⟨hfailed _, he⟩
        · dsimp only
          split_ifs with hdir
          · exact ⟨trivial, .inr ⟨hfailed _, (List.prefix_append _ _).isInfix⟩⟩
          · exact ⟨trivial, .found herrno (by simpa using hdir)⟩
      · rintro e _ ⟨⟨errno', rfl⟩, he⟩
        exact .inr ⟨hfailed _, he⟩

lemma ensures_mkdir_ifmissing (p : Str) (mode : Mode) :
    (mkdir_ifmissing p mode).Ensures record (fun _ => True) [] (fun _ t => Made p mode 5 t)
      (GaveUp p) := by
  refine (ensures_mkdirLoop p mode 5).mono (fun _ _ h => h) fun e t h => ?_
  exact h.resolve_left fun h0 => absurd h0.1 (by decide)

/-- A directory that is made. -/
def created (mode : Mode) (d : Str) : Answered := ⟨.mkdir d mode, .ok ()⟩

lemma mayReturn_mkdir_ifmissing :
    (mkdir_ifmissing p mode).MayReturn record t fun _ t' => t' = t ++ [created mode p] := by
  have hdone : (pure () : DirProg Unit).MayReturn record (t ++ [created mode p])
      fun _ t' => t' = t ++ [created mode p] := mayReturn_pure rfl
  have hstep : record t (DirCall.mkdir p mode) (.ok ()) (t ++ [created mode p]) := rfl
  exact mayReturn_call hstep hdone

lemma Made.eq_of_not_failed (h : Made p mode n t) (hok : ∀ i ∈ t, ¬ DirCall.failed i) :
    t = [created mode p] := by
  cases h with
  | made => rfl
  | found => exact absurd rfl (hok _ List.mem_cons_self)
  | again => exact absurd rfl (hok _ List.mem_cons_self)

/-! ### The calls for a lineage -/

/-- The directories were made, or found, one after the other. -/
inductive MadeAll (mode : Mode) : List Str → List Answered → Prop
  | nil : MadeAll mode [] []
  | concat {ds : List Str} {d : Str} {t t' : List Answered} (hds : MadeAll mode ds t)
    (hd : Made d mode 5 t') : MadeAll mode (ds ++ [d]) (t ++ t')

/-- All the directories above one of them were made, or found, and this one was not. -/
def StoppedAt (mode : Mode) (ds : List Str) (e : DirError) (t : List Answered) : Prop :=
  ∃ upper d lower t₁ t₂, ds = upper ++ d :: lower ∧ t = t₁ ++ t₂ ∧ MadeAll mode upper t₁ ∧
    GaveUp d e t₂

lemma MadeAll.eq_of_not_failed (h : MadeAll mode ds t) (hok : ∀ i ∈ t, ¬ DirCall.failed i) :
    t = ds.map (created mode) := by
  induction h with
  | nil => rfl
  | concat _ hd ih =>
    rw [List.forall_mem_append] at hok
    rw [List.map_append, ← ih hok.1, hd.eq_of_not_failed hok.2]
    rfl

lemma makedirs_top (htop : IsTop p) : (makedirs p mode).Returns (some (pure ())) :=
  ⟨1, if_pos htop⟩

lemma makedirs_under {prog : DirProg Unit} (htop : ¬ IsTop p) (hdir : dirname p = some dir)
    (h : (makedirs dir mode).Returns (some prog)) :
    (makedirs p mode).Returns (some (prog >>= fun _ => mkdir_ifmissing p mode)) := by
  obtain ⟨n, hn⟩ := h
  have hwithin : makedirsWithin mode n dir = some (some prog) := hn
  refine ⟨n + 1, ?_⟩
  show makedirsWithin mode (n + 1) p = _
  rw [IsTop] at htop
  rw [makedirsWithin, if_neg htop, hdir]
  simp only [hwithin, Option.map_some]

/-- `makedirs` ends, and makes the lineage of its pathname. By induction on the lineage. -/
theorem Lineage.makedirs (h : Lineage p ds) (mode : Mode) :
    ∃ prog, (makedirs p mode).Returns (some prog) ∧
      prog.Ensures record (fun _ => True) [] (fun _ t => MadeAll mode ds t) (StoppedAt mode ds) ∧
      prog.MayReturn record [] fun _ t => t = ds.map (created mode) := by
  induction h with
  | top htop => exact ⟨_, makedirs_top htop, ⟨trivial, .nil⟩, mayReturn_pure rfl⟩
  | @under p dir ds htop hdir _ ih =>
    obtain ⟨prog, hprog, hensures, hmay⟩ := ih
    refine ⟨_, makedirs_under htop hdir hprog, ?_, ?_⟩
    · rw [ensures_bind]
      refine hensures.mono (fun _ t ht => ?_) ?_
      · refine (ensures_mkdir_ifmissing p mode).after (List.append_nil t).symm
          (fun _ _ => trivial) ?_ ?_
        · exact fun _ _ ht' => ht.concat ht'
        · exact fun e t' he => ⟨ds, p, [], t, t', rfl, rfl, ht, he⟩
      · rintro e _ ⟨upper, d, lower, t₁, t₂, rfl, rfl, hupper, he⟩
        exact ⟨upper, d, lower ++ [p], t₁, t₂, by simp, rfl, hupper, he⟩
    · refine MayReturn.bind (hmay.mono ?_)
      rintro _ _ rfl
      refine mayReturn_mkdir_ifmissing.mono ?_
      rintro _ _ rfl
      rw [List.map_append]
      rfl

/-- `dirname` leads up, so that `makedirs` ends. When no call fails it makes the ancestors of
the pathname, from the top down, and then the pathname itself. -/
theorem makedirs_creates (p : Str) (mode : Mode) :
    (∃ dir, dirname p = some dir ∧ (dir = str "/" ∨ dir = str "." ∨
      (dir <+: p ∧ dir.length < p.length ∧ dir.getLast? ≠ some slash))) ∧
    ∃ ds prog, Lineage p ds ∧ (ds.Pairwise fun d e => d.length < e.length) ∧
      (makedirs p mode).Returns (some prog) ∧
      (∀ {σ : Type} (step : σ → (c : DirCall) → c.Reply → σ → Prop) s t y s',
        prog.Reaches step s t y s' → y.Ended → (∀ i ∈ t, ¬ DirCall.failed i) →
        y = .ret () ∧ t = ds.map (created mode)) ∧
      prog.Reaches record [] (ds.map (created mode)) (.ret ()) (ds.map (created mode)) := by
  obtain ⟨ds, hds⟩ := exists_lineage p
  obtain ⟨prog, hreturns, hensures, t, ⟨⟩, _, hrun, rfl⟩ := hds.makedirs mode
  refine ⟨⟨_, dirname_eq p, parent_cases p⟩, ds, prog, hds, hds.increasing.2, hreturns, ?_, ?_⟩
  · intro σ step s t y s' hrun hended hok
    have hcalls := hensures.calls hrun
    cases y with
    | ret a => exact ⟨rfl, hcalls.2.eq_of_not_failed hok⟩
    | throw e =>
      obtain ⟨-, upper, d, lower, t₁, t₂, -, rfl, -, ⟨i, hi, hfailed⟩, -⟩ := hcalls
      exact absurd hfailed (hok i (List.mem_append_right _ hi))
    | call c next => exact hended.elim
  · have ht : ds.map (created mode) = t := hrun.record_eq
    rwa [← ht] at hrun

end Libept.Sys
