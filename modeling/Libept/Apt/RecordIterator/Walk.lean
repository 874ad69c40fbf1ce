import Libept.Apt.RecordIterator
import Libept.Apt.RecordIteratorImpl.Record

/-!
# Walking the records

The loop from `recordBegin` to `recordEnd` reads the records in the order of their locations. The
first one is read when the iterator is constructed, before anything has asked whether it is there.
-/

namespace Libept.Apt

open RecordIteratorImpl

variable {h h' : Heap RecordIteratorImpl} {k n m pos : ℕ} {r r' : RecordIteratorImpl}
  {i : RecordIterator} {env : ℕ → Env} {strs : List Str} {buffer : Str}

/-- The records of `m` indexes from `pos` on. -/
def recordsFrom (env : ℕ → Env) (m pos : ℕ) : Exec Exception RecordIteratorImpl (List Str) :=
  (List.range' pos m).mapM fun idx => record (env idx) idx

/-- The loop ends, and it returns or throws what `x` does. -/
def Yields (loop : Comp (Outcome Exception (Heap RecordIteratorImpl) (List Str)))
    (x : Outcome Exception RecordIteratorImpl (List Str)) : Prop :=
  ∃ o, loop.Returns o ∧ o.result = x.result ∧ o.result ≠ none

lemma not_yields {loop : Comp (Outcome Exception (Heap RecordIteratorImpl) (List Str))}
    {x : Outcome Exception RecordIteratorImpl (List Str)} (h : loop.Returns .undefined) :
    ¬Yields loop x := by
  rintro ⟨o, hreturns, -, hdefined⟩
  exact hdefined (h.unique hreturns ▸ rfl)

/-- The object of an iterator that walks `n` records alone. -/
structure Walked (h : Heap RecordIteratorImpl) (k n : ℕ) (r : RecordIteratorImpl) : Prop where
  at? : h.at? k = some r
  ref_eq : r._ref = 1
  size_eq : r.size = n
  coherent : r.Coherent
  unopened : r.Unopened

/-- A record is read, or the call throws. -/
lemma Walked.record_cases (env : ℕ → Env) (hr : Walked h k n r) (hpos : pos < n) :
    (∃ buffer r', (record (env pos) pos).run r = .ok buffer r' ∧ Walked (h.put k r') k n r') ∨
      ∃ e r', (record (env pos) pos).run r = .threw e r' := by
  have hlt : pos < r.vflist.length := hpos.trans_eq hr.size_eq.symm
  have hensures := record_ensures (env pos) hr.coherent hr.unopened
    (List.getElem?_eq_getElem hlt)
  cases hrun : (record (env pos) pos).run r with
  | ok buffer r' =>
    obtain ⟨-, -, rfl⟩ := hensures.of_ok hrun
    refine .inl ⟨buffer, _, rfl, ⟨?_, hr.ref_eq, hr.size_eq, ?_, unopened_of_some rfl⟩⟩
    · exact Heap.at?_put_self hr.at?
    · exact standing_coherent_iff.mpr rfl
  | threw e r' => exact .inr ⟨e, r', rfl⟩
  | undefined => exact (hensures.defined hrun).elim

/-! ### Going on -/

lemma Walked.next_inside (hr : Walked h k n r) (hk : i.impl = some k) (hpos : i.pos + 1 < n) :
    i.next.run h = .ok { i with pos := i.pos + 1 } h := by
  have hcall : (Heap.call k (Exec.get : Exec Exception _ _)).run h = .ok r h := by
    rw [Heap.run_call_ok hr.at? rfl, Heap.put_self hr.at?]
  have hin : ¬i.pos + 1 ≥ r.size := by
    rw [hr.size_eq]
    omega
  simp only [RecordIterator.next, hk, Exec.ofOption, pure_bind, Exec.run_bind_ok hcall, if_neg hin,
    Exec.run_pure]

/-- At the end the last reference is released. -/
lemma Walked.next_end (hr : Walked h k n r) (hk : i.impl = some k) (hpos : ¬i.pos + 1 < n) :
    ∃ h', i.next.run h = .ok { i with impl := none, pos := 0 } h' := by
  have hcall : (Heap.call k (Exec.get : Exec Exception _ _)).run h = .ok r h := by
    rw [Heap.run_call_ok hr.at? rfl, Heap.put_self hr.at?]
  have hout : i.pos + 1 ≥ r.size := by
    rw [hr.size_eq]
    omega
  have hunref : unref.run r = .ok true { r with _ref := 0 } := by
    have hsub : CInt.sub r._ref 1 = some 0 := by
      rw [hr.ref_eq]
      decide
    simp only [unref, Exec.run_bind, Exec.get, hsub, Exec.ofOption, Exec.modify, Exec.run_pure]
    rfl
  have hput : (h.put k { r with _ref := 0 }).at? k = some { r with _ref := 0 } :=
    Heap.at?_put_self hr.at?
  have hrelease : (RecordIterator.release (some k)).run h = .ok () (h.erase k) := by
    simp only [RecordIterator.release, Exec.run_bind_ok (Heap.run_call_ok hr.at? hunref), if_true,
      Heap.delete, hput, Option.isSome_some, Heap.erase_put]
  refine ⟨h.erase k, ?_⟩
  simp only [RecordIterator.next, hk, Exec.ofOption, pure_bind, Exec.run_bind_ok hcall, if_pos hout,
    Exec.run_bind_ok hrelease, Exec.run_pure]

/-! ### The loop -/

/-- The loop from an iterator on. -/
def walkFrom (env : ℕ → Env) (i : RecordIterator) (strs : List Str) (h : Heap RecordIteratorImpl) :
    Comp (Outcome Exception (Heap RecordIteratorImpl) (List Str)) :=
  Comp.loop (fun s => pure (walkRecordsTurn env s)) (i, strs, h)

lemma walkFrom_end (i : RecordIterator) :
    (walkFrom env { i with impl := none, pos := 0 } strs h).Returns (.ok strs h) :=
  Comp.loop_stop (Comp.returns_pure.mpr rfl)

/-- The loop goes on with the records behind the one that has been read, if there are any. -/
lemma yields_of_deref (hr : Walked h' k n r) (hk : i.impl = some k)
    (hderef : (i.deref (env i.pos)).run h = .ok (buffer, ⟨some k, pos, buffer, pos⟩) h')
    (hn : n = pos + 1 + m)
    (hrest : 0 < m → Yields (walkFrom env ⟨some k, pos + 1, buffer, pos⟩ (strs ++ [buffer]) h')
      (((strs ++ [buffer] ++ ·) <$> recordsFrom env m (pos + 1)).run r)) :
    Yields (walkFrom env i strs h)
      (((strs ++ [buffer] ++ ·) <$> recordsFrom env m (pos + 1)).run r) := by
  have hne : i.ne recordEnd = true := by simp [RecordIterator.ne, recordEnd, hk]
  rcases Nat.eq_zero_or_pos m with rfl | hm
  · obtain ⟨h'', hnext⟩ := Walked.next_end (i := ⟨some k, pos, buffer, pos⟩) hr rfl
      (by simp only; omega)
    have hturn : walkRecordsTurn env (i, strs, h) =
        .inl (⟨none, 0, buffer, pos⟩, strs ++ [buffer], h'') := by
      simp only [walkRecordsTurn, hne, if_true, hderef, hnext]
    refine ⟨.ok (strs ++ [buffer]) h'', ?_, ?_, Option.some_ne_none _⟩
    · apply (Comp.loop_next (Comp.returns_pure.mpr hturn) _).mpr
      exact walkFrom_end ⟨none, 0, buffer, pos⟩
    · simp [recordsFrom, Outcome.result]
  · have hnext := Walked.next_inside (i := ⟨some k, pos, buffer, pos⟩) hr rfl
      (by simp only; omega)
    have hturn : walkRecordsTurn env (i, strs, h) =
        .inl (⟨some k, pos + 1, buffer, pos⟩, strs ++ [buffer], h') := by
      simp only [walkRecordsTurn, hne, if_true, hderef, hnext]
    obtain ⟨o, hreturns, hresult⟩ := hrest hm
    exact ⟨o, (Comp.loop_next (Comp.returns_pure.mpr hturn) _).mpr hreturns, hresult⟩

lemma run_recordsFrom_ok (hrun : (record (env pos) pos).run r = .ok buffer r') :
    ((strs ++ ·) <$> recordsFrom env (m + 1) pos).run r =
      ((strs ++ [buffer] ++ ·) <$> recordsFrom env m (pos + 1)).run r' := by
  simp only [recordsFrom, List.range'_succ, List.mapM_cons, map_eq_pure_bind, bind_assoc,
    pure_bind, Exec.run_bind_ok hrun, List.append_assoc, List.singleton_append]

lemma run_recordsFrom_threw {e : Exception} (hrun : (record (env pos) pos).run r = .threw e r') :
    ((strs ++ ·) <$> recordsFrom env (m + 1) pos).run r = .threw e r' := by
  simp only [recordsFrom, List.range'_succ, List.mapM_cons, map_eq_pure_bind, bind_assoc,
    Exec.run_bind_threw hrun]

/-- The loop from an iterator that has not read its record yet. By induction on how many records
there are behind it. -/
lemma yields_walkFrom (hr : Walked h k n r) (hk : i.impl = some k) (hcur : i.cur_pos ≠ i.pos)
    (hn : n = i.pos + 1 + m) :
    Yields (walkFrom env i strs h) (((strs ++ ·) <$> recordsFrom env (m + 1) i.pos).run r) := by
  induction m using Nat.strong_induction_on generalizing h i r strs with
  | _ m ih =>
    have hne : i.ne recordEnd = true := by simp [RecordIterator.ne, recordEnd, hk]
    rcases hr.record_cases env (by omega : i.pos < n) with
      ⟨buffer, r', hrun, hr'⟩ | ⟨e, r', hrun⟩
    · have hderef : (i.deref (env i.pos)).run h =
          .ok (buffer, ⟨some k, i.pos, buffer, i.pos⟩) (h.put k r') := by
        simp only [RecordIterator.deref, if_pos hcur, hk, Exec.ofOption, pure_bind,
          Exec.run_bind_ok (Heap.run_call_ok hr.at? hrun), Exec.run_pure]
      rw [run_recordsFrom_ok hrun]
      apply yields_of_deref hr' hk hderef hn
      intro hm
      obtain ⟨m, rfl⟩ := Nat.exists_eq_succ_of_ne_zero hm.ne'
      exact ih m m.lt_succ_self hr' rfl (Nat.succ_ne_self _).symm (by simp only; omega)
    · have hturn : walkRecordsTurn env (i, strs, h) = .inr (.threw e (h.put k r')) := by
        simp only [walkRecordsTurn, hne, if_true, RecordIterator.deref, if_pos hcur, hk,
          Exec.ofOption, pure_bind, Exec.run_bind_threw (Heap.run_call_threw hr.at? hrun)]
      rw [run_recordsFrom_threw hrun]
      exact ⟨_, Comp.loop_stop (Comp.returns_pure.mpr hturn), rfl, Option.some_ne_none _⟩

variable (sorter : Sorter PkgCache.VerFile) (env : ℕ → Env) (apt : AptImplementation)
  (lastOffset : UInt64) (h : Heap RecordIteratorImpl)

/-- The object that `recordBegin` makes, with its first reference. -/
def firstReference : RecordIteratorImpl := { make sorter apt lastOffset with _ref := 1 }

lemma run_ref : ref.run (make sorter apt lastOffset) =
    .ok () (firstReference sorter apt lastOffset) := by
  have hadd : CInt.add (make sorter apt lastOffset)._ref 1 = some 1 :=
    (by decide : CInt.add 0 1 = some 1)
  simp only [ref, Exec.run_bind, Exec.get, hadd, Exec.ofOption, Exec.modify, Exec.run_pure]
  rfl

/-- Up to the first record. -/
lemma run_recordBegin :
    (recordBegin sorter (env 0) apt lastOffset).run h =
      (do let cur ← Heap.call h.next (record (env 0) 0)
          return ⟨some h.next, 0, cur, 0⟩ : Exec Exception _ RecordIterator).run
        (h.push (firstReference sorter apt lastOffset)) := by
  have hnew : (Heap.new (make sorter apt lastOffset) : Exec Exception _ ℕ).run h =
      .ok h.next (h.push (make sorter apt lastOffset)) := rfl
  have hat : (h.push (make sorter apt lastOffset)).at? h.next =
      some (make sorter apt lastOffset) := Heap.at?_push_self
  have href := Heap.run_call_ok hat (run_ref sorter apt lastOffset)
  rw [Heap.put_push] at href
  rw [recordBegin, Exec.run_bind_ok hnew, RecordIterator.make, Exec.run_bind_ok href]

lemma walked_firstReference :
    Walked (h.push (firstReference sorter apt lastOffset)) h.next (make sorter apt lastOffset).size
      (firstReference sorter apt lastOffset) where
  at? := Heap.at?_push_self
  ref_eq := rfl
  size_eq := rfl
  coherent := coherent_of_none rfl
  unopened := fun _ => rfl

/-- For every cache and whatever the system answers, the loop from `recordBegin` to `recordEnd`
ends, is defined and yields the records of all indexes in their order, or the exception that one
of them throws, if and only if there is a record. -/
theorem walkRecords_iff :
    Yields (walkRecords sorter env apt lastOffset h)
        ((do ref
             (List.range (make sorter apt lastOffset).size).mapM
               fun idx => record (env idx) idx).run
          (make sorter apt lastOffset)) ↔
      0 < (make sorter apt lastOffset).size := by
  rw [Exec.run_bind_ok (run_ref sorter apt lastOffset), List.range_eq_range']
  have hr := walked_firstReference sorter apt lastOffset h
  have hbegin := run_recordBegin sorter env apt lastOffset h
  cases hn : (make sorter apt lastOffset).size with
  | zero =>
    have hnone : (firstReference sorter apt lastOffset).vflist[0]? = none :=
      List.getElem?_eq_none hn.le
    rw [Exec.run_bind_undefined (Heap.run_call_undefined hr.at? (record_undefined hnone))] at hbegin
    rw [walkRecords, hbegin]
    exact iff_of_false (not_yields (Comp.returns_pure.mpr rfl)) (lt_irrefl 0)
  | succ m =>
    refine iff_of_true ?_ m.succ_pos
    have hrecords : (List.range' 0 (m + 1)).mapM (fun idx => record (env idx) idx) =
        ([] ++ ·) <$> recordsFrom env (m + 1) 0 := by
      simp only [List.nil_append, id_map', recordsFrom]
    rw [hn] at hr
    rw [hrecords]
    rcases hr.record_cases env m.succ_pos with ⟨buffer, r', hrun, hr'⟩ | ⟨e, r', hrun⟩
    · rw [Exec.run_bind_ok (Heap.run_call_ok hr.at? hrun), Exec.run_pure] at hbegin
      rw [walkRecords, hbegin, run_recordsFrom_ok hrun]
      apply yields_of_deref (i := ⟨some h.next, 0, buffer, 0⟩) hr' rfl rfl (by omega)
      intro hm
      obtain ⟨m, rfl⟩ := Nat.exists_eq_succ_of_ne_zero hm.ne'
      exact yields_walkFrom hr' rfl (Nat.succ_ne_self _).symm (by simp only; omega)
    · rw [Exec.run_bind_threw (Heap.run_call_threw hr.at? hrun)] at hbegin
      rw [walkRecords, hbegin, run_recordsFrom_threw hrun]
      exact ⟨_, Comp.returns_pure.mpr rfl, rfl, Option.some_ne_none _⟩

/-- With no record the loop reads the first location, which is not there. -/
theorem walkRecords_none :
    (make Sorter.merge sampleApt 0).size = 0 ∧
      (walkRecords Sorter.merge (fun _ => Env.working sampleDisk) sampleApt 0 Heap.empty).Returns
        .undefined ∧
      ∀ x, ¬Yields
        (walkRecords Sorter.merge (fun _ => Env.working sampleDisk) sampleApt 0 Heap.empty) x := by
  have hmake : make Sorter.merge sampleApt 0 = ofList sampleApt [] 0 := by
    simp [make, Sorter.merge, sampleApt]
  have hundefined : (walkRecords Sorter.merge (fun _ => Env.working sampleDisk) sampleApt 0
      Heap.empty).Returns .undefined := by
    simp only [walkRecords, recordBegin, hmake]
    exact Comp.returns_pure.mpr rfl
  exact ⟨by rw [hmake]; rfl, hundefined, fun x => not_yields hundefined⟩

end Libept.Apt
