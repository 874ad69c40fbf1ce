import Libept.Apt.CacheUpdates
import Libept.Apt.Iterator

/-!
# How old an answer can be

An implementation keeps what it has read when it was constructed, and `checkCacheUpdates` tells from
the timestamps of the files whether it is still the same. The files may change at any moment, also
between the two times that their timestamps are looked at, and between the reading of the cache and
that of the policy.
-/

namespace Libept.Apt

open PkgCache Sys

/-! ### Files that change -/

/-- The files of libapt at one moment. What is in the pin file is a `π`. -/
structure AptFiles (π : Type) where
  /-- The time of modification of `Dir::Cache::pkgcache`, if it is there. -/
  pkgcache : Option ℤ
  /-- The time of modification of `Dir::State::status`, if it is there. -/
  status : Option ℤ
  cache : PkgCache
  pins : π

variable {π : Type}

/-- What `aptTimestamp` finds, if the files do not change meanwhile. -/
def AptFiles.timestamp (f : AptFiles π) : ℤ := max (f.pkgcache.getD 0) (f.status.getD 0)

/-- `stat` tells when a file was modified or that it is not there, or it fails. -/
def StatFile.Answers (file : StatFile) (modified : Option ℤ) : Prop :=
  match file.st_mtime with
  | .ok st_mtime => modified = some st_mtime
  | .error errno => errno = ENOENT → modified = none

/-- What `aptTimestamp` is told when it looks at the first file when the files are `f`, and at the
second one when they are `g`. -/
structure Timestamps.Tell (times : Timestamps) (f g : AptFiles π) : Prop where
  pkgcache : times.pkgcache.Answers f.pkgcache
  status : times.status.Answers g.status

/-- No file is ever given an older time. -/
structure Dated (files : ℕ → AptFiles π) : Prop where
  nonneg : ∀ t, 0 ≤ (files t).timestamp
  pkgcache : ∀ ⦃s t⦄, s ≤ t → (files s).pkgcache.getD 0 ≤ (files t).pkgcache.getD 0
  status : ∀ ⦃s t⦄, s ≤ t → (files s).status.getD 0 ≤ (files t).status.getD 0

/-- When a constructor looks at the timestamps of the two files, and when it reads the cache and the
pin file. -/
structure Moments where
  pkgcache : ℕ
  status : ℕ
  cache : ℕ
  pins : ℕ

structure Moments.InOrder (m : Moments) : Prop where
  status : m.pkgcache ≤ m.status
  cache : m.status ≤ m.cache
  pins : m.cache ≤ m.pins

/-- What is read by a constructor. How libapt makes a policy for a cache of what is in the pin file
is a parameter. -/
structure AptEnv.Reads (policyOf : PkgCache → π → Package → Option Version) (files : ℕ → AptFiles π)
    (m : Moments) (env : AptEnv) : Prop where
  inOrder : m.InOrder
  times : env.times.Tell (files m.pkgcache) (files m.status)
  cache : env.cache = (files m.cache).cache
  policy : env.policy = policyOf (files m.cache).cache (files m.pins).pins

/-! ### Runs with moments -/

/-- A query that neither changes what has been read nor its timestamp. -/
def AptCall.Quiet : AptCall → Prop
  | .checkCacheUpdates _ _ => False
  | .invalidateTimestamp => True
  | .query x => ∀ i : AptImplementation, x.run i ≠ .undefined →
    let Same := fun j : AptImplementation =>
      j.m_cache = i.m_cache ∧ j.m_policy = i.m_policy ∧ j.m_open_timestamp = i.m_open_timestamp
    x.Ensures i (fun _ j => Same j) fun _ j => Same j

/-- A call, with the moments at which `checkCacheUpdates` looks at the timestamps of the two files,
and those of the constructor. -/
inductive DatedCall where
  | checkCacheUpdates (pkgcache status : ℕ) (times : Timestamps) (m : Moments) (env : AptEnv)
  | other (call : AptCall)

structure DatedObject where
  object : AptObject
  now : ℕ

/-- When `checkCacheUpdates` is done. -/
def doneAt (status : ℕ) (times : Timestamps) (m : Moments) : ℕ :=
  match aptTimestamp times with
  | .ok _ => m.pins
  | .error _ => status

/-- A check that is told the timestamps may construct an implementation afterwards. -/
inductive DatedObject.Step (policyOf : PkgCache → π → Package → Option Version)
    (files : ℕ → AptFiles π) : DatedObject → DatedCall → DatedObject → Prop
  | checkCacheUpdates {o : DatedObject} {o' : AptObject} {pkgcache status : ℕ}
    {times : Timestamps} {m : Moments} {env : AptEnv} (hnow : o.now ≤ pkgcache)
    (hstatus : pkgcache ≤ status) (htell : times.Tell (files pkgcache) (files status))
    (hopened : status ≤ m.pkgcache) (henv : env.Reads policyOf files m)
    (hleave : o.object.leave (checkCacheUpdates times env o.object.impl) = some o') :
    Step policyOf files o (.checkCacheUpdates pkgcache status times m env)
      ⟨o', doneAt status times m⟩
  | other {o : DatedObject} {o' : AptObject} {call : AptCall} (hquiet : call.Quiet)
    (hleave : o.object.after call = some o') :
    Step policyOf files o (.other call) ⟨o', o.now⟩

def datedCalls (policyOf : PkgCache → π → Package → Option Version) (files : ℕ → AptFiles π) :
    Transitions DatedObject DatedCall where
  init o := ∃ m env h, AptEnv.Reads policyOf files m env ∧ m.pins = o.now ∧
    (newImplementation env).run h = .ok o.object.impl o.object.heap
  step := DatedObject.Step policyOf files

/-! ### What is told -/

variable {β : Type*} {policyOf : PkgCache → π → Package → Option Version}
  {files : ℕ → AptFiles π} {view : PkgCache → (Package → Option Version) → β}
  {o o' : DatedObject} {env : AptEnv} {times : Timestamps} {m : Moments}
  {h : Heap AptImplementation} {impl t : ℕ} {now : ℤ} {i j : AptImplementation}
  {steps : List (DatedObject × DatedCall)}

lemma Dated.mono (hdated : Dated files) ⦃s t : ℕ⦄ (hst : s ≤ t) :
    (files s).timestamp ≤ (files t).timestamp :=
  max_le_max (hdated.pkgcache hst) (hdated.status hst)

lemma timestamp_of_answers {file : StatFile} {modified : Option ℤ} {t : ℤ}
    (h : file.Answers modified) (ht : timestamp file 0 = .ok t) : t = modified.getD 0 := by
  rw [StatFile.Answers] at h
  rw [timestamp] at ht
  split at ht
  case h_1 hmtime =>
    rw [hmtime] at h
    rw [h, Option.getD_some, Except.ok.inj ht]
  case h_2 errno hmtime =>
    rw [hmtime] at h
    split_ifs at ht with herrno
    rw [h herrno, Option.getD_none, Except.ok.inj ht]

/-- The timestamp that is found is between those of the two moments. -/
lemma Timestamps.Tell.between {s t : ℕ} (hdated : Dated files) (hst : s ≤ t)
    (htell : times.Tell (files s) (files t)) (hnow : aptTimestamp times = .ok now) :
    (files s).timestamp ≤ now ∧ now ≤ (files t).timestamp := by
  rw [aptTimestamp] at hnow
  cases h₁ : timestamp times.pkgcache 0 with
  | error => simp [h₁, bind, Except.bind] at hnow
  | ok t₁ =>
    cases h₂ : timestamp times.status 0 with
    | error => simp [h₁, h₂, bind, Except.bind] at hnow
    | ok t₂ =>
      have hmax : now = max t₁ t₂ := by
        simp only [h₁, h₂, bind, Except.bind, pure, Except.pure, Except.ok.injEq] at hnow
        rw [← hnow]
        split_ifs with hlt
        · exact (max_eq_left hlt.le).symm
        · exact (max_eq_right (not_lt.mp hlt)).symm
      rw [hmax, timestamp_of_answers htell.pkgcache h₁, timestamp_of_answers htell.status h₂]
      exact ⟨max_le_max (le_refl _) (hdated.status hst),
        max_le_max (hdated.pkgcache hst) (le_refl _)⟩

/-! ### What has been read -/

/-- What is shown of the cache of one moment, with the pin file of another one. -/
def shown (policyOf : PkgCache → π → Package → Option Version) (files : ℕ → AptFiles π)
    (view : PkgCache → (Package → Option Version) → β) (s r : ℕ) : β :=
  view (files s).cache (policyOf (files s).cache (files r).pins)

/-- What is looked at does not change without a change of the timestamp, not even when the pin file
is read later than the cache. -/
def Told (policyOf : PkgCache → π → Package → Option Version) (files : ℕ → AptFiles π)
    (view : PkgCache → (Package → Option Version) → β) : Prop :=
  ∀ s r t, s ≤ r → r ≤ t → (files s).timestamp = (files t).timestamp →
    shown policyOf files view s r = shown policyOf files view t t

/-- What an object shows is what was in the cache at a moment, and in the pin file at the same or a
later one, both not before `t`. -/
def DatedObject.Recent (policyOf : PkgCache → π → Package → Option Version)
    (files : ℕ → AptFiles π) (view : PkgCache → (Package → Option Version) → β) (t : ℕ)
    (o : DatedObject) : Prop :=
  ∀ i, o.object.heap.at? o.object.impl = some i → ∃ s r, t ≤ s ∧ s ≤ r ∧ r ≤ o.now ∧
    view i.m_cache i.m_policy = shown policyOf files view s r

/-- The implementation was opened at a moment `a`, or seems to be older, and shows what has been
read since then, and not before `t`. -/
def DatedObject.Since (policyOf : PkgCache → π → Package → Option Version)
    (files : ℕ → AptFiles π) (view : PkgCache → (Package → Option Version) → β) (t : ℕ)
    (o : DatedObject) : Prop :=
  ∀ i, o.object.heap.at? o.object.impl = some i → ∃ a s r, a ≤ s ∧ t ≤ s ∧ s ≤ r ∧ r ≤ o.now ∧
    i.m_open_timestamp ≤ (files a).timestamp ∧
    view i.m_cache i.m_policy = shown policyOf files view s r

lemma DatedObject.Since.recent (h : o.Since policyOf files view t) :
    o.Recent policyOf files view t := by
  intro i hi
  obtain ⟨-, s, r, -, hts, hsr, hnow, -, hview⟩ := h i hi
  exact ⟨s, r, hts, hsr, hnow, hview⟩

lemma DatedObject.Since.mono (h : o.Since policyOf files view t) {s : ℕ} (hs : s ≤ t) :
    o.Since policyOf files view s := by
  intro i hi
  obtain ⟨a, s', r, has, hts, hrest⟩ := h i hi
  exact ⟨a, s', r, has, hs.trans hts, hrest⟩

/-- What is read from one moment on. -/
lemma since_made {o : AptObject} (hdated : Dated files) (ht : t ≤ m.cache)
    (henv : env.Reads policyOf files m) (hnow : aptTimestamp env.times = .ok now)
    (hmade : o.heap.at? o.impl = some ⟨env.cache, env.policy, none, now⟩) :
    DatedObject.Since policyOf files view t ⟨o, m.pins⟩ := by
  intro i hi
  obtain rfl := Option.some.inj (hmade.symm.trans hi)
  exact ⟨m.status, m.cache, m.pins, henv.inOrder.cache, ht, henv.inOrder.pins, le_refl _,
    (henv.times.between hdated henv.inOrder.status hnow).2, congrArg₂ view henv.cache henv.policy⟩

/-- What a function leaves, when it returns or throws. -/
lemma leave_cases {o o' : AptObject} {x : Exec Error (Heap AptImplementation) ℕ}
    {Q : ℕ → Heap AptImplementation → Prop} {E : Error → Heap AptImplementation → Prop}
    (hx : x.Ensures o.heap Q E) (hleave : o.leave x = some o') :
    Q o'.impl o'.heap ∨ o'.impl = o.impl ∧ ∃ e, E e o'.heap := by
  rw [AptObject.leave] at hleave
  cases hrun : x.run o.heap with
  | ok impl h =>
    simp only [hrun, Option.some.injEq] at hleave
    subst hleave
    exact .inl (hx.of_ok hrun)
  | threw e h =>
    simp only [hrun, Option.some.injEq] at hleave
    subst hleave
    exact .inr ⟨rfl, e, hx.of_threw hrun⟩
  | undefined => exact absurd hrun hx.defined

/-- What a check leaves: the implementation that was there, a new one, or none. -/
lemma check_cases {o o' : AptObject} (hi : o.heap.at? o.impl = some i)
    (hleave : o.leave (checkCacheUpdates times env o.impl) = some o') :
    (∃ error, aptTimestamp times = .error error) ∧ o'.heap.at? o'.impl = some i ∨
      ∃ now, aptTimestamp times = .ok now ∧
        (now ≤ i.m_open_timestamp ∧ o'.heap.at? o'.impl = some i ∨
          (∃ t, aptTimestamp env.times = .ok t ∧
            o'.heap.at? o'.impl = some ⟨env.cache, env.policy, none, t⟩) ∨
          o'.heap.at? o'.impl = none) := by
  rcases leave_cases (checkCacheUpdates_ensures times env hi) hleave with
    ⟨now, hnow, hstays | ⟨-, hmade⟩⟩ | ⟨himpl, -, ⟨herror, hsame⟩ | ⟨⟨now, hnow, -⟩, -, hnone⟩⟩
  · exact .inr ⟨now, hnow, .inl hstays⟩
  · exact .inr ⟨now, hnow, .inr (.inl hmade)⟩
  · exact .inl ⟨herror, himpl ▸ hsame⟩
  · exact .inr ⟨now, hnow, .inr (.inr (himpl ▸ hnone))⟩

/-- A call needs an implementation. -/
lemma live_of_leave {o o' : AptObject} {α : Type}
    {x : Exec Error AptImplementation α} {f : α → Exec Error (Heap AptImplementation) ℕ}
    (hleave : o.leave (Heap.call o.impl x >>= f) = some o') : ∃ i, o.heap.at? o.impl = some i := by
  cases hi : o.heap.at? o.impl with
  | some i => exact ⟨i, rfl⟩
  | none =>
    have hundefined : (Heap.call o.impl x).run o.heap = .undefined := by
      simp [Heap.call, hi]
    rw [AptObject.leave, Exec.run_bind_undefined hundefined] at hleave
    cases hleave

/-! ### Runs -/

/-- An implementation that stays keeps what it shows. -/
lemma DatedObject.Since.stays {o' : AptObject} {t' : ℕ} (ho : o.Since policyOf files view t)
    (hnow : o.now ≤ t') (hi : o.object.heap.at? o.object.impl = some i)
    (hsame : o'.heap.at? o'.impl = some i) :
    DatedObject.Since policyOf files view t ⟨o', t'⟩ := by
  intro j hj
  obtain rfl := Option.some.inj (hsame.symm.trans hj)
  obtain ⟨a, s, r, has, hts, hsr, hr, hrest⟩ := ho i hi
  exact ⟨a, s, r, has, hts, hsr, hr.trans hnow, hrest⟩

/-- An implementation that is not older than what a check has found shows what the files have then:
no timestamp has changed since it was opened. -/
lemma since_told {o' : AptObject} {pkgcache status t' : ℕ} (hdated : Dated files)
    (htold : Told policyOf files view) (ho : o.Since policyOf files view t)
    (hpkgcache : o.now ≤ pkgcache) (hstatus : pkgcache ≤ status)
    (htell : times.Tell (files pkgcache) (files status)) (hnow : aptTimestamp times = .ok now)
    (ht' : pkgcache ≤ t') (hi : o.object.heap.at? o.object.impl = some i)
    (hle : now ≤ i.m_open_timestamp) (hsame : o'.heap.at? o'.impl = some i) :
    DatedObject.Since policyOf files view (max t pkgcache) ⟨o', t'⟩ := by
  intro j hj
  obtain rfl := Option.some.inj (hsame.symm.trans hj)
  obtain ⟨a, s, r, has, hts, hsr, hr, hopen, hview⟩ := ho i hi
  have hrp := hr.trans hpkgcache
  have heq : (files s).timestamp = (files pkgcache).timestamp := by
    have hbetween := htell.between hdated hstatus hnow
    have has' := hdated.mono has
    have hsp := hdated.mono (hsr.trans hrp)
    omega
  exact ⟨a, pkgcache, pkgcache, by omega, by omega, le_refl _, ht', hopen,
    hview.trans (htold s r pkgcache hsr hrp heq)⟩

/-- A check keeps how old an answer can be. After a check that is told the timestamps what is shown
is not older than the check. -/
lemma since_check {pkgcache status : ℕ} (hdated : Dated files)
    (htold : Told policyOf files view) (ho : o.Since policyOf files view t)
    (hstep : o.Step policyOf files (.checkCacheUpdates pkgcache status times m env) o') :
    o'.Since policyOf files view t ∧
      ∀ now, aptTimestamp times = .ok now → o'.Since policyOf files view (max t pkgcache) := by
  cases hstep with
  | checkCacheUpdates hnow hstatus htell hopened henv hleave =>
    rename_i object
    obtain ⟨i, hi⟩ := live_of_leave hleave
    have hcache : status ≤ m.cache := hopened.trans (henv.inOrder.status.trans henv.inOrder.cache)
    have hpins : status ≤ m.pins := hcache.trans henv.inOrder.pins
    rcases check_cases hi hleave with ⟨⟨error, herror⟩, hsame⟩ | ⟨now, htime, hcases⟩
    · rw [doneAt, herror]
      exact ⟨ho.stays (hnow.trans hstatus) hi hsame, fun now hnow' => by cases hnow'⟩
    · rw [doneAt, htime]
      have hmax : DatedObject.Since policyOf files view (max t pkgcache) ⟨object, m.pins⟩ := by
        rcases hcases with ⟨hle, hsame⟩ | ⟨t', ht', hmade⟩ | hnone
        · exact since_told hdated htold ho hnow hstatus htell htime (hstatus.trans hpins) hi hle
            hsame
        · obtain ⟨-, s, r, -, hts, hsr, hr, -⟩ := ho i hi
          exact since_made hdated (by omega) henv ht' hmade
        · intro j hj
          cases hnone.symm.trans hj
      exact ⟨hmax.mono (le_max_left _ _), fun _ _ => hmax⟩

/-- An implementation that shows the same, with the same timestamp or none. -/
structure AptImplementation.Keeps (i : AptImplementation) (j : AptImplementation) : Prop where
  cache : j.m_cache = i.m_cache
  policy : j.m_policy = i.m_policy
  timestamp : j.m_open_timestamp = i.m_open_timestamp ∨ j.m_open_timestamp = 0

lemma quiet_ensures {call : AptCall} (hquiet : call.Quiet) (hi : h.at? impl = some i)
    (hdefined : call.DefinedOn i) :
    (call.run impl).Ensures h (fun impl' h' => ∃ j, h'.at? impl' = some j ∧ i.Keeps j)
      fun _ h' => ∃ j, h'.at? impl = some j ∧ i.Keeps j := by
  cases call with
  | checkCacheUpdates => exact hquiet.elim
  | invalidateTimestamp =>
    simp only [AptCall.run, invalidateTimestamp, Exec.ensures_bind, Heap.ensures_call hi,
      Exec.ensures_modify, Exec.ensures_pure]
    exact ⟨_, Heap.at?_put_self hi, rfl, rfl, .inr rfl⟩
  | query x =>
    simp only [AptCall.run, Exec.ensures_bind, Heap.ensures_call hi, Exec.ensures_pure]
    refine (hquiet i hdefined).mono ?_ ?_
    · rintro _ j ⟨hcache, hpolicy, htimestamp⟩
      exact ⟨j, Heap.at?_put_self hi, hcache, hpolicy, .inl htimestamp⟩
    · rintro _ j ⟨hcache, hpolicy, htimestamp⟩
      exact ⟨j, Heap.at?_put_self hi, hcache, hpolicy, .inl htimestamp⟩

/-- No other call opens anything. -/
lemma since_other {call : AptCall} (hdated : Dated files) (ho : o.Since policyOf files view t)
    (hstep : o.Step policyOf files (.other call) o') : o'.Since policyOf files view t := by
  cases hstep with
  | other hquiet hleave =>
    rename_i object
    obtain ⟨i, hi⟩ : ∃ i, o.object.heap.at? o.object.impl = some i := by
      cases call with
      | checkCacheUpdates => exact hquiet.elim
      | invalidateTimestamp => exact live_of_leave hleave
      | query x => exact live_of_leave hleave
    obtain ⟨j, hj, hkeeps⟩ : ∃ j, object.heap.at? object.impl = some j ∧ i.Keeps j := by
      have hdefined := definedOn_of_after hi hleave
      rcases leave_cases (quiet_ensures hquiet hi hdefined) hleave with hok | ⟨himpl, -, hthrew⟩
      · exact hok
      · rwa [himpl]
    obtain ⟨a, s, r, has, hts, hsr, hrnow, hopen, hview⟩ := ho i hi
    intro j' hj'
    obtain rfl := Option.some.inj (hj.symm.trans hj')
    refine ⟨a, s, r, has, hts, hsr, hrnow, ?_, ?_⟩
    · rcases hkeeps.timestamp with hsame | hzero
      · rwa [hsame]
      · rw [hzero]
        exact hdated.nonneg a
    · rw [hkeeps.cache, hkeeps.policy, hview]

/-- By induction on the run: every check that is told the timestamps is a bound, and so is the
beginning. -/
lemma since_run (hdated : Dated files) (htold : Told policyOf files view)
    (hrun : (datedCalls policyOf files).Run steps o) :
    o.Since policyOf files view 0 ∧ ∀ x ∈ steps, ∀ pkgcache status times m env now,
      x.2 = .checkCacheUpdates pkgcache status times m env → aptTimestamp times = .ok now →
        o.Since policyOf files view pkgcache := by
  induction hrun with
  | @init o hinit =>
    obtain ⟨m, env, h, henv, hpins, hnew⟩ := hinit
    obtain ⟨-, now, hnow, hmade⟩ := (newImplementation_ensures env h).of_ok hnew
    have hsince : DatedObject.Since policyOf files view 0 ⟨o.object, m.pins⟩ :=
      since_made hdated (Nat.zero_le _) henv hnow hmade
    rw [hpins] at hsince
    exact ⟨hsince, fun x hx => by cases hx⟩
  | @step steps o o' call hrun hstep ih =>
    obtain ⟨hzero, hchecks⟩ := ih
    have hkeep : ∀ t, o.Since policyOf files view t → o'.Since policyOf files view t := by
      intro t ho
      cases call with
      | checkCacheUpdates => exact (since_check hdated htold ho hstep).1
      | other call => exact since_other hdated ho hstep
    refine ⟨hkeep 0 hzero, List.forall_mem_append.mpr ⟨?_, List.forall_mem_singleton.mpr ?_⟩⟩
    · intro x hx pkgcache status times m env now heq hnow
      exact hkeep pkgcache (hchecks x hx pkgcache status times m env now heq hnow)
    · rintro pkgcache status times m env now rfl hnow
      exact ((since_check hdated htold hzero hstep).2 now hnow).mono (le_max_right _ _)

/-! ### Exactly then -/

/-- What `stat` tells when it does not fail. -/
def answer (modified : Option ℤ) : Except Errno ℤ :=
  match modified with
  | some st_mtime => .ok st_mtime
  | none => .error ENOENT

def AptFiles.told (f : AptFiles π) : Timestamps :=
  ⟨⟨str "pkgcache.bin", answer f.pkgcache⟩, ⟨str "status", answer f.status⟩⟩

lemma answers_answer (name : Str) (modified : Option ℤ) :
    StatFile.Answers ⟨name, answer modified⟩ modified := by
  cases modified with
  | some => rfl
  | none => exact fun _ => rfl

lemma timestamp_answer (name : Str) (modified : Option ℤ) :
    timestamp ⟨name, answer modified⟩ 0 = .ok (modified.getD 0) := by
  cases modified <;> rfl

lemma AptFiles.tell_told (f g : AptFiles π) (h : g.status = f.status) : f.told.Tell f g where
  pkgcache := answers_answer _ _
  status := h ▸ answers_answer _ _

lemma AptFiles.aptTimestamp_told (f : AptFiles π) : aptTimestamp f.told = .ok f.timestamp := by
  rw [aptTimestamp, told]
  simp only [timestamp_answer, bind, Except.bind, pure, Except.pure, AptFiles.timestamp]
  rw [max_def]
  split_ifs <;> first | rfl | omega

/-- A system on which nothing fails, and the pin file is read when the files are `g`. -/
def AptFiles.working (policyOf : PkgCache → π → Package → Option Version) (f g : AptFiles π) :
    AptEnv :=
  ⟨true, true, true, f.told, true, true, true, f.cache, policyOf f.cache g.pins⟩

lemma reads_working (policyOf : PkgCache → π → Package → Option Version) {s r : ℕ} (hsr : s ≤ r) :
    ((files s).working policyOf (files r)).Reads policyOf files ⟨s, s, s, r⟩ where
  inOrder := ⟨le_refl _, le_refl _, hsr⟩
  times := (files s).tell_told _ rfl
  cache := rfl
  policy := rfl

/-- An object is constructed from one moment on, and checks at a later one with the same
timestamp. -/
lemma run_same_timestamp (policyOf : PkgCache → π → Package → Option Version) {s r t : ℕ}
    (hsr : s ≤ r) (hrt : r ≤ t) (heq : (files s).timestamp = (files t).timestamp) :
    ∃ steps o i, (datedCalls policyOf files).Run (steps ++ [(o, .checkCacheUpdates t t
      (files t).told ⟨t, t, t, t⟩ ((files t).working policyOf (files t)))])
      ⟨⟨Heap.empty.push i, 0⟩, t⟩ ∧ i.m_cache = (files s).cache ∧
        i.m_policy = policyOf (files s).cache (files r).pins := by
  let i : AptImplementation :=
    ⟨(files s).cache, policyOf (files s).cache (files r).pins, none, (files s).timestamp⟩
  let o : DatedObject := ⟨⟨Heap.empty.push i, 0⟩, r⟩
  have hmake : AptImplementation.make ((files s).working policyOf (files r)) = .ok i := by
    rw [AptImplementation.make, AptFiles.working]
    simp only [AptFiles.aptTimestamp_told]
    rfl
  have hinit : (datedCalls policyOf files).init o := by
    refine ⟨⟨s, s, s, r⟩, _, Heap.empty, reads_working _ hsr, rfl, ?_⟩
    rw [newImplementation, hmake]
    rfl
  have hget : (Heap.call 0 Exec.get : Exec Error _ _).run (Heap.empty.push i) =
      .ok i (Heap.empty.push i) := rfl
  have hnot : ¬ i.m_open_timestamp < (files t).timestamp := heq.not_lt
  have hleave : o.object.leave (checkCacheUpdates (files t).told
      ((files t).working policyOf (files t)) 0) = some o.object := by
    rw [AptObject.leave, checkCacheUpdates, Exec.run_bind_ok hget, AptFiles.aptTimestamp_told]
    dsimp only
    rw [if_neg hnot]
    rfl
  have hdone : doneAt t (files t).told ⟨t, t, t, t⟩ = t := by
    rw [doneAt, AptFiles.aptTimestamp_told]
  have hstep := DatedObject.Step.checkCacheUpdates (m := ⟨t, t, t, t⟩) hrt (le_refl t)
    ((files t).tell_told _ rfl) (le_refl t) (reads_working policyOf (le_refl t))
    hleave
  rw [hdone] at hstep
  exact ⟨[], o, i, .step (.init hinit) hstep, rfl, rfl⟩

/-- Files that change without a change of their timestamps. -/
def changingFiles (t : ℕ) : AptFiles Unit :=
  ⟨none, some 0, if t = 0 then sampleCache else ⟨[], fun _ => ⟨[], false⟩⟩, ()⟩

end Libept.Apt
