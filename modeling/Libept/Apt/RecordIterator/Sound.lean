import Libept.Apt.RecordIterator.Counting
import Libept.Lib.Runs

/-!
# All the iterators

Any number of iterators is made, copied, assigned, moved and destroyed in any order. The counters
stay right as long as none of them is full when an iterator is copied.
-/

namespace Libept.Apt

open RecordIteratorImpl

variable {h h' : Heap RecordIteratorImpl} {c : ℕ → ℕ} {k n : ℕ} {i i' j : RecordIterator}
  {disk : Str → Contents}

/-! ### All the iterators -/

/-- The iterators there are, and the heap with the objects that they point to. -/
structure Machine where
  impls : Heap RecordIteratorImpl
  iters : Heap RecordIterator

namespace Machine

/-- How many iterators point to an object. -/
def pointing (iters : Heap RecordIterator) (k : ℕ) : ℕ := iters.count fun i => i.impl = some k

/-- The counters are right and the iterators are valid. -/
structure Sound (disk : Str → Contents) (m : Machine) : Prop where
  counted : Counted m.impls (pointing m.iters)
  valid : ∀ j i, m.iters.at? j = some i → i.Valid disk m.impls

variable {m : Machine} {iters iters' : Heap RecordIterator} {a : ℕ}

lemma toNat_decide (i : RecordIterator) (k : ℕ) :
    (decide (i.impl = some k)).toNat = owns i.impl k := by
  by_cases hk : i.impl = some k <;> simp [owns, hk]

lemma pointing_push (iters : Heap RecordIterator) (i : RecordIterator) :
    pointing (iters.push i) = fun k => pointing iters k + owns i.impl k := by
  funext k
  rw [← toNat_decide]
  exact Heap.count_push

lemma pointing_erase (ha : iters.at? a = some i) :
    (fun k => pointing (iters.erase a) k + owns i.impl k) = pointing iters := by
  funext k
  rw [← toNat_decide]
  exact Heap.count_erase ha

lemma pointing_put (ha : iters.at? a = some i) (j : RecordIterator) :
    pointing (iters.put a j) = fun k => pointing (iters.erase a) k + owns j.impl k := by
  funext k
  have hput : pointing (iters.put a j) k + owns i.impl k = pointing iters k + owns j.impl k := by
    rw [← toNat_decide, ← toNat_decide]
    exact Heap.count_put ha
  have herase := congrFun (pointing_erase ha) k
  omega

lemma pointing_pos (ha : iters.at? a = some i) (hk : i.impl = some k) : 0 < pointing iters k :=
  Heap.count_pos ha (by simp [hk])

/-- The other iterators stay valid. -/
lemma Sound.of_keeps (hs : m.Sound disk) (hc : Counted h' (pointing iters'))
    (hkeeps : Keeps m.impls h')
    (hiters : ∀ a i, iters'.at? a = some i → m.iters.at? a = some i ∨ i.Valid disk h') :
    Sound disk ⟨h', iters'⟩ := by
  refine ⟨hc, fun a i ha => ?_⟩
  rcases hiters a i ha with hold | hvalid
  · exact (hs.valid a i hold).keeps hkeeps hc fun k hk => pointing_pos ha hk
  · exact hvalid

lemma sound_empty : Sound disk ⟨Heap.empty, Heap.empty⟩ := by
  refine ⟨⟨fun k r hk => ?_, fun k => ?_⟩, fun a i ha => ?_⟩
  · cases hk
  · simp [pointing, Heap.at?_empty]
  · cases ha

/-- A new iterator, with the reference that it holds. -/
lemma Sound.push (hs : m.Sound disk)
    (hc : Counted h' fun k => pointing m.iters k + owns i.impl k) (hkeeps : Keeps m.impls h')
    (hvalid : i.Valid disk h') : Sound disk ⟨h', m.iters.push i⟩ := by
  rw [← pointing_push] at hc
  apply hs.of_keeps hc hkeeps
  intro b j hb
  rcases Heap.at?_push_cases hb with ⟨-, rfl⟩ | hold
  · exact .inr hvalid
  · exact .inl hold

/-- An iterator that is changed, with the reference that it holds afterwards. -/
lemma Sound.put (hs : m.Sound disk) (ha : m.iters.at? a = some i)
    (hc : Counted h' fun k => pointing (m.iters.erase a) k + owns j.impl k)
    (hkeeps : Keeps m.impls h') (hvalid : j.Valid disk h') :
    Sound disk ⟨h', m.iters.put a j⟩ := by
  rw [← pointing_put ha j] at hc
  apply hs.of_keeps hc hkeeps
  intro b i' hb
  rcases Heap.at?_put_cases ha hb with ⟨-, rfl⟩ | hold
  · exact .inr hvalid
  · exact .inl hold

end Machine

/-! ### Calls -/

/-- What can be done with the iterators, which are designated by their addresses. -/
inductive IterCall where
  | recordBegin (sorter : Sorter PkgCache.VerFile) (env : Env) (apt : AptImplementation)
    (lastOffset : UInt64)
  | copy (a : ℕ)
  | assign (a b : ℕ)
  | deref (env : Env) (a : ℕ)
  | next (a : ℕ)
  | destroy (a : ℕ)

namespace IterCall

/-- The member function that is called; it returns the iterators there are afterwards. -/
def exec (iters : Heap RecordIterator) :
    IterCall → Exec Exception (Heap RecordIteratorImpl) (Heap RecordIterator)
  | recordBegin sorter env apt lastOffset => do
    let i ← Apt.recordBegin sorter env apt lastOffset
    return iters.push i
  | copy a => do
    let r ← Exec.ofOption (iters.at? a)
    let i ← r.copy
    return iters.push i
  | assign a b => do
    let i ← Exec.ofOption (iters.at? a)
    let r ← Exec.ofOption (iters.at? b)
    let i ← i.assign r
    return iters.put a i
  | deref env a => do
    let i ← Exec.ofOption (iters.at? a)
    let (_, i) ← i.deref env
    return iters.put a i
  | next a => do
    let i ← Exec.ofOption (iters.at? a)
    let i ← i.next
    return iters.put a i
  | destroy a => do
    let i ← Exec.ofOption (iters.at? a)
    i.destroy
    return iters.erase a

/-- The call is for iterators that are there; an end iterator is not followed and not moved. The
package files stay as they are, and there is a record to begin with. -/
def Legal (disk : Str → Contents) (m : Machine) : IterCall → Prop
  | recordBegin sorter env apt lastOffset =>
    env.disk = disk ∧ (RecordIteratorImpl.make sorter apt lastOffset).vflist ≠ []
  | copy a => ∃ i, m.iters.at? a = some i
  | assign a b => (∃ i, m.iters.at? a = some i) ∧ ∃ r, m.iters.at? b = some r
  | deref env a => env.disk = disk ∧ ∃ i k, m.iters.at? a = some i ∧ i.impl = some k
  | next a => ∃ i k, m.iters.at? a = some i ∧ i.impl = some k
  | destroy a => ∃ i, m.iters.at? a = some i

/-- The object that an iterator is made to point to has fewer than `2 ^ 31 - 1` iterators. -/
def Room (m : Machine) : IterCall → Prop
  | copy a => ∀ r, m.iters.at? a = some r → HasRoom (Machine.pointing m.iters) r.impl
  | assign _ b => ∀ r, m.iters.at? b = some r → HasRoom (Machine.pointing m.iters) r.impl
  | _ => True

variable {m : Machine} {call : IterCall} {iters : Heap RecordIterator} {a b : ℕ}

/-- A call for which there is room is defined and keeps the machine sound. -/
lemma exec_ensures (hs : m.Sound disk) (hf : Fit m.impls) (hlegal : call.Legal disk m)
    (hroom : call.Room m) :
    (call.exec m.iters).Ensures m.impls
      (fun iters impls => Machine.Sound disk ⟨impls, iters⟩ ∧ Fit impls) fun _ _ => True := by
  cases call with
  | recordBegin sorter env apt lastOffset =>
    obtain ⟨rfl, hne⟩ := hlegal
    simp only [exec, Exec.ensures_bind, Exec.ensures_pure]
    refine (recordBegin_ensures hs.counted hf hne).mono ?_ fun _ _ _ => trivial
    rintro i h' ⟨hc, hfit, hkeeps, hvalid⟩
    exact ⟨hs.push hc hkeeps hvalid, hfit⟩
  | copy a =>
    obtain ⟨r, ha⟩ := hlegal
    simp only [exec, ha, RecordIterator.copy, Exec.ensures_bind, Exec.ensures_ofOption_some,
      Exec.ensures_pure]
    have hlive k (hk : r.impl = some k) := Machine.pointing_pos ha hk
    refine (acquire_ensures hs.counted hf hlive (hroom r ha)).mono ?_ fun _ _ _ => trivial
    rintro _ h' ⟨hc, hfit, hkeeps⟩
    have hvalid := (hs.valid a r ha).keeps hkeeps hc fun k hk =>
      Nat.add_pos_left (Machine.pointing_pos ha hk) _
    exact ⟨hs.push hc hkeeps hvalid, hfit⟩
  | assign a b =>
    obtain ⟨⟨i, ha⟩, r, hb⟩ := hlegal
    simp only [exec, ha, hb, RecordIterator.assign, Exec.ensures_bind, Exec.ensures_ofOption_some,
      Exec.ensures_pure]
    have hlive k (hk : r.impl = some k) := Machine.pointing_pos hb hk
    refine (acquire_ensures hs.counted hf hlive (hroom r hb)).mono ?_ fun _ _ _ => trivial
    rintro _ h₁ ⟨hc₁, hfit₁, hkeeps₁⟩
    -- what is released is the reference that the iterator had before
    have hboth : (fun k => Machine.pointing m.iters k + owns r.impl k) =
        fun k => Machine.pointing (m.iters.put a r) k + owns i.impl k := by
      rw [← Machine.pointing_erase ha, Machine.pointing_put ha r]
      exact funext fun k => Nat.add_right_comm _ _ _
    rw [hboth] at hc₁
    refine (release_ensures hc₁ hfit₁).mono ?_ fun _ _ hfalse => hfalse.elim
    rintro _ h₂ ⟨hc, hfit, hkeeps₂⟩
    have hkeeps := hkeeps₁.trans hkeeps₂
    rw [Machine.pointing_put ha r] at hc
    have hvalid := (hs.valid b r hb).keeps hkeeps hc fun k hk =>
      Nat.add_pos_right _ (by simp [owns, hk])
    exact ⟨hs.put ha hc hkeeps hvalid, hfit⟩
  | deref env a =>
    obtain ⟨rfl, i, k, ha, hk⟩ := hlegal
    simp only [exec, ha, Exec.ensures_bind, Exec.ensures_ofOption_some, Exec.ensures_pure]
    refine (deref_ensures hs.counted hf (hs.valid a i ha) hk).mono ?_ fun _ _ _ => trivial
    rintro ⟨str, i'⟩ h' ⟨himpl, hc, hfit, hkeeps, hvalid⟩
    rw [← Machine.pointing_erase ha, ← himpl] at hc
    exact ⟨hs.put ha hc hkeeps hvalid, hfit⟩
  | next a =>
    obtain ⟨i, k, ha, hk⟩ := hlegal
    simp only [exec, ha, Exec.ensures_bind, Exec.ensures_ofOption_some, Exec.ensures_pure]
    have hc := hs.counted
    rw [← Machine.pointing_erase ha] at hc
    refine (next_ensures hc hf (hs.valid a i ha) hk).mono ?_ fun _ _ hfalse => hfalse.elim
    rintro i' h' ⟨hc', hfit, hkeeps, hvalid⟩
    exact ⟨hs.put ha hc' hkeeps hvalid, hfit⟩
  | destroy a =>
    obtain ⟨i, ha⟩ := hlegal
    simp only [exec, ha, RecordIterator.destroy, Exec.ensures_bind, Exec.ensures_ofOption_some,
      Exec.ensures_pure]
    have hc := hs.counted
    rw [← Machine.pointing_erase ha] at hc
    refine (release_ensures hc hf).mono ?_ fun _ _ hfalse => hfalse.elim
    rintro _ h' ⟨hc', hfit, hkeeps⟩
    exact ⟨hs.of_keeps hc' hkeeps fun b j hb => .inl (Heap.at?_of_erase hb), hfit⟩

/-- The counter that would have to be increased is full. -/
lemma exec_undefined (hs : m.Sound disk) (hlegal : call.Legal disk m) (hfull : ¬call.Room m) :
    (call.exec m.iters).run m.impls = .undefined := by
  have key (r : RecordIterator) (hr : ∃ a, m.iters.at? a = some r)
      (hno : ¬HasRoom (Machine.pointing m.iters) r.impl) :
      (RecordIterator.acquire r.impl).run m.impls = .undefined := by
    obtain ⟨a, ha⟩ := hr
    obtain ⟨k, hk, hle⟩ : ∃ k, r.impl = some k ∧ ¬Machine.pointing m.iters k < 2 ^ 31 - 1 := by
      simpa [HasRoom] using hno
    obtain ⟨s, hs', -⟩ := hs.valid a r ha k hk
    rw [hk]
    exact acquire_undefined hs.counted hs' hle
  cases call with
  | copy a =>
    obtain ⟨r, ha⟩ := hlegal
    have hacquire := key r ⟨a, ha⟩ (by simpa [Room, ha] using hfull)
    simp only [exec, ha, Exec.ofOption, RecordIterator.copy, Exec.run_bind, Exec.run_pure,
      hacquire]
  | assign a b =>
    obtain ⟨⟨i, ha⟩, r, hb⟩ := hlegal
    have hacquire := key r ⟨b, hb⟩ (by simpa [Room, hb] using hfull)
    simp only [exec, ha, hb, Exec.ofOption, RecordIterator.assign, Exec.run_bind, Exec.run_pure,
      hacquire]
  | _ => exact absurd trivial hfull

end IterCall

/-- Calls of the member functions, beginning with no iterators. There is no machine after a call
without a defined result. A call that throws is not made. -/
def iterCalls (disk : Str → Contents) : Transitions (Option Machine) IterCall where
  init s := s = some ⟨Heap.empty, Heap.empty⟩
  step s call s' := ∃ m, s = some m ∧ call.Legal disk m ∧
    match (call.exec m.iters).run m.impls with
    | .ok iters impls => s' = some ⟨impls, iters⟩
    | .threw _ _ => False
    | .undefined => s' = none

/-- All calls have been defined, and the machine is sound. -/
def AllSound (disk : Str → Contents) (s : Option Machine) : Prop := ∃ m, s = some m ∧ m.Sound disk

/-- In a run all calls are defined, each counter is the number of iterators of its object, an object
is there exactly while it has one, and the iterators are valid, if and only if there is always room
for the iterators that are made. -/
theorem all_sound_iff :
    ∀ disk steps s, (iterCalls disk).Run steps s →
      (Transitions.Always (AllSound disk) steps s ↔
        ∀ x ∈ steps, ∀ m, x.1 = some m → x.2.Room m) := by
  intro disk steps s hrun
  refine hrun.always_iff (J := fun s => ∀ m, s = some m → Fit m.impls)
    (P := fun s call => ∀ m, s = some m → call.Room m) ?_ ?_
  · rintro s rfl
    refine ⟨fun m hm => ?_, _, rfl, Machine.sound_empty⟩
    obtain rfl := Option.some.inj hm
    exact fit_empty
  · rintro s call s' hfit ⟨m, rfl, hs⟩ ⟨m', hm', hlegal, hstep⟩
    obtain rfl := Option.some.inj hm'
    have hroom : (∀ m', some m = some m' → call.Room m') ↔ call.Room m := by simp
    rw [hroom]
    by_cases hr : call.Room m
    · have hensures := IterCall.exec_ensures hs (hfit m rfl) hlegal hr
      cases hcall : (call.exec m.iters).run m.impls with
      | ok iters impls =>
        rw [hcall] at hstep
        obtain ⟨hsound, hfit'⟩ := hensures.of_ok hcall
        subst hstep
        refine ⟨fun m' hm' => ?_, iff_of_true ⟨_, rfl, hsound⟩ hr⟩
        obtain rfl := Option.some.inj hm'
        exact hfit'
      | threw e impls =>
        rw [hcall] at hstep
        exact hstep.elim
      | undefined => exact (hensures.defined hcall).elim
    · rw [IterCall.exec_undefined hs hlegal hr] at hstep
      subst hstep
      refine ⟨fun m' hm' => ?_, iff_of_false ?_ hr⟩
      · cases hm'
      · rintro ⟨m', hm', -⟩
        cases hm'

/-- A cache with one package. -/
def sampleSource : AptImplementation :=
  ⟨⟨[⟨str "p", [⟨none, [sampleLocation]⟩], none⟩], fun _ => ⟨str "f", false⟩⟩,
    fun package => package.VersionList.head?, none, 0⟩

def sampleBegin : IterCall := .recordBegin Sorter.merge (Env.working sampleDisk) sampleSource 0

lemma make_sampleSource :
    make Sorter.merge sampleSource 0 = ofList sampleSource [sampleLocation] 0 := by
  have hlocate : sampleSource.m_cache.packages.filterMap (locate sampleSource) =
      [sampleLocation] := rfl
  rw [make, hlocate]
  simp [Sorter.merge]

/-- The object of the cache, with a record read and so many iterators. -/
def sampleObj (n : ℤ) : RecordIteratorImpl :=
  { (ofList sampleSource [sampleLocation] 0).after sampleLocation with _ref := n }

def sampleIter : RecordIterator := ⟨some 0, 0, str "bc", 0⟩

/-- An iterator that has come to the end. -/
def sampleEnd : RecordIterator := { sampleIter with impl := none }

def sampleMachine (n : ℤ) (iters : List (Option RecordIterator)) : Machine :=
  ⟨⟨[some (sampleObj n)]⟩, ⟨iters⟩⟩

lemma run_sampleBegin :
    (iterCalls sampleDisk).Run [(some ⟨Heap.empty, Heap.empty⟩, sampleBegin)]
        (some (sampleMachine 1 [some sampleIter])) ∧
      Machine.Sound sampleDisk (sampleMachine 1 [some sampleIter]) ∧
      Fit (sampleMachine 1 [some sampleIter]).impls := by
  have hlegal : sampleBegin.Legal sampleDisk ⟨Heap.empty, Heap.empty⟩ := by
    simp [sampleBegin, IterCall.Legal, Env.working, make_sampleSource, ofList]
  have hexec : (sampleBegin.exec Heap.empty).run Heap.empty =
      .ok ⟨[some sampleIter]⟩ ⟨[some (sampleObj 1)]⟩ := by
    simp only [sampleBegin, IterCall.exec, recordBegin, make_sampleSource]
    rfl
  refine ⟨.step (.init rfl) ⟨_, rfl, hlegal, ?_⟩, ?_⟩
  · simp only [hexec]
    rfl
  · exact (IterCall.exec_ensures Machine.sound_empty fit_empty hlegal trivial).of_ok hexec

/-- An iterator is copied and assigned to its copy, which comes to the end, and is destroyed. The
object goes with the last iterator that points to it. -/
theorem all_sound_sample :
    ∃ steps m, (iterCalls sampleDisk).Run steps (some m) ∧
      steps.map Prod.snd = [sampleBegin, .copy 0, .assign 1 0, .next 1, .destroy 0] ∧
      Transitions.Always (AllSound sampleDisk) steps (some m) ∧ m.impls.at? 0 = none := by
  let m₁ := sampleMachine 1 [some sampleIter]
  let m₂ := sampleMachine 2 [some sampleIter, some sampleIter]
  let m₃ := sampleMachine 1 [some sampleIter, some sampleEnd]
  let m₄ : Machine := ⟨⟨[none]⟩, ⟨[none, some sampleEnd]⟩⟩
  have hcopy : (iterCalls sampleDisk).step (some m₁) (.copy 0) (some m₂) :=
    ⟨_, rfl, ⟨_, rfl⟩, rfl⟩
  have hassign : (iterCalls sampleDisk).step (some m₂) (.assign 1 0) (some m₂) :=
    ⟨_, rfl, ⟨⟨_, rfl⟩, _, rfl⟩, rfl⟩
  have hnext : (iterCalls sampleDisk).step (some m₂) (.next 1) (some m₃) :=
    ⟨_, rfl, ⟨_, _, rfl, rfl⟩, rfl⟩
  have hdestroy : (iterCalls sampleDisk).step (some m₃) (.destroy 0) (some m₄) :=
    ⟨_, rfl, ⟨_, rfl⟩, rfl⟩
  have hrun := (((run_sampleBegin.1.step hcopy).step hassign).step hnext).step hdestroy
  refine ⟨_, m₄, hrun, rfl, (all_sound_iff _ _ _ hrun).mpr ?_, rfl⟩
  have hroom (n : ℤ) (iters : List (Option RecordIterator)) :
      Machine.pointing (sampleMachine n iters).iters 0 ≤ 2 →
      HasRoom (Machine.pointing (sampleMachine n iters).iters) (some 0) := by
    rintro hle k ⟨⟩
    omega
  simp only [List.nil_append, List.cons_append, List.forall_mem_cons, List.not_mem_nil]
  refine ⟨fun _ _ => trivial, ?_, ?_, fun _ _ => trivial, fun _ _ => trivial, by simp⟩
  · rintro m ⟨⟩ r ⟨⟩
    exact hroom _ _ (by decide)
  · rintro m ⟨⟩ r ⟨⟩
    exact hroom _ _ (by decide)

/-- `n` copies of an iterator, as long as there is room for them. -/
lemma run_copies {steps : List (Option Machine × IterCall)} {m : Machine} {a : ℕ}
    (hrun : (iterCalls disk).Run steps (some m)) (hs : m.Sound disk) (hf : Fit m.impls)
    (ha : m.iters.at? a = some i) (hk : i.impl = some k)
    (hroom : Machine.pointing m.iters k + n ≤ 2 ^ 31 - 1) :
    ∃ steps' m', (iterCalls disk).Run (steps ++ steps') (some m') ∧
      steps'.map Prod.snd = List.replicate n (IterCall.copy a) ∧ m'.Sound disk ∧ Fit m'.impls ∧
      m'.iters.at? a = some i ∧ Machine.pointing m'.iters k = Machine.pointing m.iters k + n := by
  induction n with
  | zero => exact ⟨[], m, by rwa [List.append_nil], rfl, hs, hf, ha, rfl⟩
  | succ n ih =>
    obtain ⟨steps', m', hrun', hcopies, hs', hf', ha', hpointing⟩ := ih (by omega)
    have hhas : HasRoom (Machine.pointing m'.iters) i.impl := by
      intro k' hk'
      obtain rfl := Option.some.inj (hk.symm.trans hk')
      omega
    have hroom' : (IterCall.copy a).Room m' := by
      intro r hr
      rwa [← Option.some.inj (ha'.symm.trans hr)]
    have hlive k' (hk' : i.impl = some k') := Machine.pointing_pos ha' hk'
    obtain ⟨_, h', hacquire, -⟩ := (acquire_ensures hs'.counted hf' hlive hhas).returns
    have hexec : ((IterCall.copy a).exec m'.iters).run m'.impls = .ok (m'.iters.push i) h' := by
      simp only [IterCall.exec, ha', Exec.ofOption, RecordIterator.copy, Exec.run_bind,
        Exec.run_pure, hacquire]
    have hlegal : (IterCall.copy a).Legal disk m' := ⟨i, ha'⟩
    obtain ⟨hs'', hf''⟩ := (IterCall.exec_ensures hs' hf' hlegal hroom').of_ok hexec
    have hstep : (iterCalls disk).step (some m') (.copy a) (some ⟨h', m'.iters.push i⟩) :=
      ⟨m', rfl, hlegal, by simp only [hexec]⟩
    refine ⟨steps' ++ [(some m', .copy a)], ⟨h', m'.iters.push i⟩, ?_, ?_, hs'', hf'', ?_, ?_⟩
    · rw [← List.append_assoc]
      exact .step hrun' hstep
    · rw [List.map_append, hcopies, List.replicate_succ']
      rfl
    · rw [Heap.at?_push, if_neg (Heap.lt_next ha').ne, ha']
    · rw [Machine.pointing_push]
      simp only [hpointing, owns, if_pos hk]
      rfl

/-- When an iterator is copied `2 ^ 31 - 1` times, the last copy overflows the counter. -/
theorem counter_overflows :
    ∃ steps, (iterCalls sampleDisk).Run steps none ∧
      steps.map Prod.snd = sampleBegin :: List.replicate (2 ^ 31 - 1) (.copy 0) ∧
      ¬Transitions.Always (AllSound sampleDisk) steps none := by
  obtain ⟨hrun, hs, hf⟩ := run_sampleBegin
  have ha : (sampleMachine 1 [some sampleIter]).iters.at? 0 = some sampleIter := rfl
  have hone : Machine.pointing (sampleMachine 1 [some sampleIter]).iters 0 = 1 := rfl
  have hroom : Machine.pointing (sampleMachine 1 [some sampleIter]).iters 0 + (2 ^ 31 - 2) ≤
      2 ^ 31 - 1 := by
    rw [hone]
    omega
  obtain ⟨steps, m, hrun', hcopies, hs', -, ha', hpointing⟩ := run_copies hrun hs hf ha rfl hroom
  have hlegal : (IterCall.copy 0).Legal sampleDisk m := ⟨_, ha'⟩
  have hfull : ¬(IterCall.copy 0).Room m := by
    intro hroom
    have hlt := hroom _ ha' 0 rfl
    rw [hpointing, hone] at hlt
    omega
  have hexec := IterCall.exec_undefined hs' hlegal hfull
  refine ⟨_, .step hrun' ⟨m, rfl, hlegal, by simp only [hexec]⟩, ?_, fun hall => ?_⟩
  · have hnumber : 2 ^ 31 - 1 = 2 ^ 31 - 2 + 1 := by omega
    rw [hnumber, List.replicate_succ', List.map_append, List.map_append, hcopies]
    simp only [List.map_cons, List.map_nil, List.cons_append, List.nil_append]
  · obtain ⟨_, h, -⟩ := hall.2
    cases h

end Libept.Apt
