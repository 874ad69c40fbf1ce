import Libept.Apt.AptImplementation
import Libept.Lib.Runs

/-!
# Reopening the cache

When the files of libapt have changed, `checkCacheUpdates` deletes the implementation before it
constructs a new one. If the constructor throws, the object is left with a pointer to what has been
deleted. Nothing else can break it.
-/

namespace Libept.Apt

/-- The calls of the functions of an `Apt` object. A query calls any functions of the
implementation. -/
inductive AptCall where
  | checkCacheUpdates (times : Timestamps) (env : AptEnv)
  | invalidateTimestamp
  | query (x : Exec Error AptImplementation Unit)

/-- A query that needs the dependency cache. -/
def AptCall.depcache (opens : Bool) : AptCall :=
  .query do
    let _ ← AptImplementation.depcache opens
    return ()

/-- The function that is called, for the pointer `impl`. It returns what the pointer is then. -/
def AptCall.run (impl : ℕ) : AptCall → Exec Error (Heap AptImplementation) ℕ
  | .checkCacheUpdates times env => Apt.checkCacheUpdates times env impl
  | .invalidateTimestamp => do
    Apt.invalidateTimestamp impl
    return impl
  | .query x => do
    Heap.call impl x
    return impl

/-- The implementation itself can answer the call. -/
def AptCall.DefinedOn (i : AptImplementation) : AptCall → Prop
  | .query x => x.run i ≠ .undefined
  | _ => True

/-- An `Apt` object, and the heap with the implementations. -/
structure AptObject where
  heap : Heap AptImplementation
  impl : ℕ

namespace AptObject

/-- What a function leaves of the object, whether it returns or throws. The pointer is only set by
a function that returns. -/
def leave (o : AptObject) (x : Exec Error (Heap AptImplementation) ℕ) : Option AptObject :=
  match x.run o.heap with
  | .ok impl h => some ⟨h, impl⟩
  | .threw _ h => some ⟨h, o.impl⟩
  | .undefined => none

def after (o : AptObject) (call : AptCall) : Option AptObject := o.leave (call.run o.impl)

/-- The pointer designates an implementation, so that all calls that the implementation can answer
are defined, and so is the destructor. -/
structure Usable (o : AptObject) : Prop where
  live : ∃ i, o.heap.at? o.impl = some i
  calls : ∀ call : AptCall, (∀ i, o.heap.at? o.impl = some i → call.DefinedOn i) →
    (call.run o.impl).run o.heap ≠ .undefined
  destructor : (destroy o.impl).run o.heap ≠ .undefined

end AptObject

/-- None of the calls that a constructor makes fails. -/
def AptEnv.Constructs (env : AptEnv) : Prop :=
  (env.initialized ∨ env.initConfig ∧ env.initSystem) ∧ (∃ t, aptTimestamp env.times = .ok t) ∧
    env.readMainList ∧ env.makeStatusCache ∧ env.readPinFile

/-- If the call finds that the files have changed, they can be opened. -/
def AptCall.Reopens (o : AptObject) : AptCall → Prop
  | .checkCacheUpdates times env => ∀ i now, o.heap.at? o.impl = some i →
      aptTimestamp times = .ok now → i.m_open_timestamp < now → env.Constructs
  | _ => True

/-- An object that has been constructed, and the calls of its functions. -/
def aptCalls : Transitions AptObject AptCall where
  init o := ∃ env h, (newImplementation env).run h = .ok o.impl o.heap
  step o call o' := o.after call = some o'

variable {o o' : AptObject} {env : AptEnv} {times : Timestamps} {h : Heap AptImplementation}
  {impl : ℕ} {i : AptImplementation}

/-! ### Constructing -/

lemma aptInit_cases (env : AptEnv) :
    ((env.initialized ∨ env.initConfig ∧ env.initSystem) ∧ aptInit env = .ok ()) ∨
      (¬(env.initialized ∨ env.initConfig ∧ env.initSystem) ∧ ∃ e, aptInit env = .error e) := by
  rw [aptInit]
  cases env.initialized <;> cases env.initConfig <;> cases env.initSystem <;> simp

/-- What is constructed when no call fails. -/
lemma make_cases (env : AptEnv) :
    (env.Constructs ∧ ∃ t, aptTimestamp env.times = .ok t ∧
      AptImplementation.make env = .ok ⟨env.cache, env.policy, none, t⟩) ∨
      (¬env.Constructs ∧ ∃ e, AptImplementation.make env = .error e) := by
  unfold AptEnv.Constructs AptImplementation.make
  rcases aptInit_cases env with ⟨hinit, hok⟩ | ⟨hinit, e, herror⟩
  · rw [hok]
    simp only [hinit, true_and]
    cases htime : aptTimestamp env.times with
    | error => exact .inr ⟨by simp, _, rfl⟩
    | ok t =>
      cases env.readMainList with
      | false => exact .inr ⟨by simp, _, rfl⟩
      | true =>
        cases env.makeStatusCache with
        | false => exact .inr ⟨by simp, _, rfl⟩
        | true =>
          cases env.readPinFile with
          | false => exact .inr ⟨by simp, _, rfl⟩
          | true => exact .inl ⟨by simp, t, rfl, rfl⟩
  · rw [herror]
    exact .inr ⟨fun hc => hinit hc.1, _, rfl⟩

lemma newImplementation_ensures (env : AptEnv) (h : Heap AptImplementation) :
    (newImplementation env).Ensures h
      (fun impl' h' => env.Constructs ∧ ∃ t, aptTimestamp env.times = .ok t ∧
        h'.at? impl' = some ⟨env.cache, env.policy, none, t⟩)
      fun _ h' => ¬env.Constructs ∧ h' = h := by
  rw [newImplementation]
  rcases make_cases env with ⟨hc, t, ht, hi⟩ | ⟨hc, e, he⟩
  · rw [hi]
    exact ⟨hc, t, ht, Heap.at?_push_self⟩
  · rw [he]
    exact ⟨hc, rfl⟩

/-! ### Calls -/

/-- The implementation stays when the timestamp cannot be told, or is not newer. Otherwise there is
a new one, or none when the files cannot be opened. -/
lemma checkCacheUpdates_ensures (times : Timestamps) (env : AptEnv)
    (hi : h.at? impl = some i) :
    (checkCacheUpdates times env impl).Ensures h
      (fun impl' h' => ∃ now, aptTimestamp times = .ok now ∧
        (now ≤ i.m_open_timestamp ∧ h'.at? impl' = some i ∨
          env.Constructs ∧ ∃ t, aptTimestamp env.times = .ok t ∧
            h'.at? impl' = some ⟨env.cache, env.policy, none, t⟩))
      fun _ h' => (∃ error, aptTimestamp times = .error error) ∧ h'.at? impl = some i ∨
        (∃ now, aptTimestamp times = .ok now ∧ i.m_open_timestamp < now) ∧ ¬env.Constructs ∧
          h'.at? impl = none := by
  have hput : (h.put impl i).at? impl = some i := Heap.at?_put_self hi
  simp only [checkCacheUpdates, Exec.ensures_bind, Heap.ensures_call hi, Exec.ensures_get]
  cases htime : aptTimestamp times with
  | error error => exact .inl ⟨⟨error, rfl⟩, hput⟩
  | ok now =>
    simp only [Exec.ensures_bind, Exec.ensures_ite, Heap.ensures_delete hput, Exec.ensures_pure]
    constructor
    · intro hold
      refine (newImplementation_ensures env _).mono ?_ ?_
      · exact fun impl' h' hnew => ⟨now, rfl, .inr hnew⟩
      · rintro e h' ⟨hc, rfl⟩
        refine .inr ⟨⟨now, rfl, hold⟩, hc, ?_⟩
        rw [Heap.at?_erase, if_pos rfl]
    · exact fun hnew => ⟨now, rfl, .inl ⟨not_lt.mp hnew, hput⟩⟩

/-- The pointer designates an implementation after a call, unless the files could not be opened
again. Then what it designates has been deleted. -/
lemma run_ensures (hi : h.at? impl = some i) (call : AptCall) (hdefined : call.DefinedOn i) :
    (call.run impl).Ensures h
      (fun impl' h' => call.Reopens ⟨h, impl⟩ ∧ ∃ j, h'.at? impl' = some j)
      fun _ h' => (call.Reopens ⟨h, impl⟩ ↔ ∃ j, h'.at? impl = some j) := by
  have hput : ∀ j : AptImplementation, ∃ k, (h.put impl j).at? impl = some k := fun j =>
    ⟨j, Heap.at?_put_self hi⟩
  cases call with
  | checkCacheUpdates times env =>
    refine (checkCacheUpdates_ensures times env hi).mono ?_ ?_
    · rintro impl' h' ⟨now, hnow, ⟨hle, hsame⟩ | ⟨hc, t, -, hnew⟩⟩
      · refine ⟨fun j now' hj hnow' hlt => absurd hlt (not_lt.mpr ?_), i, hsame⟩
        obtain rfl := Option.some.inj (hi.symm.trans hj)
        obtain rfl := Except.ok.inj (hnow.symm.trans hnow')
        exact hle
      · exact ⟨fun _ _ _ _ _ => hc, _, hnew⟩
    · rintro e h' (⟨⟨error, herror⟩, hsame⟩ | ⟨⟨now, hnow, hlt⟩, hc, hnone⟩)
      · refine iff_of_true (fun _ now' _ hnow' => ?_) ⟨i, hsame⟩
        rw [herror] at hnow'
        cases hnow'
      · refine iff_of_false (fun hreopens => hc (hreopens i now hi hnow hlt)) ?_
        rw [hnone]
        simp
  | invalidateTimestamp =>
    simp only [AptCall.run, invalidateTimestamp, Exec.ensures_bind, Heap.ensures_call hi,
      Exec.ensures_modify, Exec.ensures_pure]
    exact ⟨trivial, hput _⟩
  | query x =>
    simp only [AptCall.run, Exec.ensures_bind, Heap.ensures_call hi, Exec.ensures_pure]
    rw [Exec.Ensures]
    cases hx : x.run i with
    | ok a j => exact ⟨trivial, hput j⟩
    | threw e j => exact iff_of_true trivial (hput j)
    | undefined => exact hdefined hx

/-- An object can be used as long as its pointer designates an implementation. -/
lemma AptObject.usable_iff : o.Usable ↔ ∃ i, o.heap.at? o.impl = some i := by
  refine ⟨Usable.live, fun ⟨i, hi⟩ => ⟨⟨i, hi⟩, fun call hdefined => ?_, ?_⟩⟩
  · exact (run_ensures hi call (hdefined i hi)).defined
  · simp [destroy, Heap.delete, hi]

/-- A call that has left an object was one that the implementation could answer. -/
lemma definedOn_of_after {call : AptCall} (hi : o.heap.at? o.impl = some i)
    (hafter : o.after call = some o') : call.DefinedOn i := by
  cases call with
  | query x =>
    intro hx
    have hundefined : (Heap.call o.impl x).run o.heap = .undefined := by
      simp [Heap.call, hi, hx]
    rw [AptObject.after, AptObject.leave, AptCall.run, Exec.run_bind_undefined hundefined]
      at hafter
    cases hafter
  | checkCacheUpdates => trivial
  | invalidateTimestamp => trivial

/-- The object can be used after every call of a run, returned or thrown, exactly when each call
that finds that the files have changed can open them. -/
theorem usable_iff_reopens :
    ∀ steps o, aptCalls.Run steps o →
      (Transitions.Always AptObject.Usable steps o ↔ ∀ x ∈ steps, x.2.Reopens x.1) := by
  intro steps o hrun
  refine hrun.always_iff (J := fun _ => True) ?_ ?_
  · rintro o ⟨env, h, hnew⟩
    obtain ⟨-, t, -, hlive⟩ := (newImplementation_ensures env h).of_ok hnew
    exact ⟨trivial, AptObject.usable_iff.mpr ⟨_, hlive⟩⟩
  · intro o call o' _ husable hstep
    refine ⟨trivial, ?_⟩
    obtain ⟨i, hi⟩ := husable.live
    have hensures := run_ensures hi call (definedOn_of_after hi hstep)
    rw [AptObject.usable_iff]
    unfold aptCalls AptObject.after AptObject.leave at hstep
    cases hcall : (call.run o.impl).run o.heap with
    | ok impl' h' =>
      simp only [hcall, Option.some.injEq] at hstep
      subst hstep
      obtain ⟨hreopens, hlive⟩ := hensures.of_ok hcall
      exact iff_of_true hlive hreopens
    | threw e h' =>
      simp only [hcall, Option.some.injEq] at hstep
      subst hstep
      exact (hensures.of_threw hcall).symm
    | undefined => exact (hensures.defined hcall).elim

/-- Timestamps that can be told. -/
def sampleTimes (status : ℤ) : Timestamps :=
  ⟨⟨str "pkgcache.bin", .ok 0⟩, ⟨str "status", .ok status⟩⟩

/-- A system where everything works but perhaps the pin file. -/
def sampleEnv (status : ℤ) (readPinFile : Bool) : AptEnv :=
  ⟨true, true, true, sampleTimes status, true, true, readPinFile, ⟨[], fun _ => ⟨[], false⟩⟩,
    fun _ => none⟩

def sampleImplementation (timestamp : ℤ) : AptImplementation :=
  ⟨⟨[], fun _ => ⟨[], false⟩⟩, fun _ => none, none, timestamp⟩

def sampleObject : AptObject := ⟨Heap.empty.push (sampleImplementation 1), 0⟩

lemma init_sample : aptCalls.init sampleObject := ⟨sampleEnv 1 true, Heap.empty, rfl⟩

theorem usable_iff_reopens_sample :
    Transitions.Always AptObject.Usable
      [(sampleObject, AptCall.checkCacheUpdates (sampleTimes 2) (sampleEnv 2 true))]
      ⟨(sampleObject.heap.erase 0).push (sampleImplementation 2), 1⟩ := by
  have hstep : aptCalls.step sampleObject (.checkCacheUpdates (sampleTimes 2) (sampleEnv 2 true))
      ⟨(sampleObject.heap.erase 0).push (sampleImplementation 2), 1⟩ := rfl
  apply (usable_iff_reopens _ _ (.step (.init init_sample) hstep)).mpr
  exact List.forall_mem_singleton.mpr fun _ _ _ _ _ => ⟨.inl rfl, ⟨2, rfl⟩, rfl, rfl, rfl⟩

/-- The files have changed and the pin file cannot be read: the next call and the destructor use
what has been deleted. -/
theorem reopening_throws :
    ∃ o : AptObject,
      aptCalls.Run [(sampleObject, .checkCacheUpdates (sampleTimes 2) (sampleEnv 2 false))] o ∧
        ¬o.Usable ∧ ((AptCall.depcache true).run o.impl).run o.heap = .undefined ∧
        (destroy o.impl).run o.heap = .undefined := by
  have hstep : aptCalls.step sampleObject (.checkCacheUpdates (sampleTimes 2) (sampleEnv 2 false))
      ⟨sampleObject.heap.erase 0, 0⟩ := rfl
  exact ⟨_, .step (.init init_sample) hstep, fun husable => husable.destructor rfl, rfl, rfl⟩

end Libept.Apt
