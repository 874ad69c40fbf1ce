import Libept.Apt.RecordIteratorImpl
import Libept.Lib.Comp

/-!
# Iterating over the records

A `RecordIterator` holds a pointer to a `RecordIteratorImpl`, which it shares with its copies and
which counts them. The functions here work on the heap with the objects that are pointed to. They
return what the iterator is afterwards.
-/

namespace Libept.Apt

structure RecordIterator where
  impl : Option ℕ
  pos : ℕ
  cur : Str
  cur_pos : ℕ

namespace RecordIterator

/-- `if (impl) impl->ref()` -/
def acquire : Option ℕ → Exec Exception (Heap RecordIteratorImpl) Unit
  | none => pure ()
  | some k => Heap.call k RecordIteratorImpl.ref

/-- `if (impl && impl->unref()) delete impl` -/
def release : Option ℕ → Exec Exception (Heap RecordIteratorImpl) Unit
  | none => pure ()
  | some k => do
    let last ← Heap.call k RecordIteratorImpl.unref
    if last then Heap.delete k

/-- The constructor from a pointer. -/
def make (env : Env) (impl : Option ℕ) (pos : ℕ) :
    Exec Exception (Heap RecordIteratorImpl) RecordIterator :=
  match impl with
  | none => return ⟨none, pos, [], pos⟩
  | some k => do
    Heap.call k RecordIteratorImpl.ref
    let cur ← Heap.call k (RecordIteratorImpl.record env pos)
    return ⟨some k, pos, cur, pos⟩

/-- The copy constructor. -/
def copy (r : RecordIterator) : Exec Exception (Heap RecordIteratorImpl) RecordIterator := do
  acquire r.impl
  return r

/-- The destructor. -/
def destroy (i : RecordIterator) : Exec Exception (Heap RecordIteratorImpl) Unit := release i.impl

/-- `operator*`, and the iterator afterwards. -/
def deref (env : Env) (i : RecordIterator) :
    Exec Exception (Heap RecordIteratorImpl) (Str × RecordIterator) :=
  if i.cur_pos ≠ i.pos then do
    let k ← Exec.ofOption i.impl
    let cur ← Heap.call k (RecordIteratorImpl.record env i.pos)
    return (cur, { i with cur := cur, cur_pos := i.pos })
  else return (i.cur, i)

/-- `operator++` -/
def next (i : RecordIterator) : Exec Exception (Heap RecordIteratorImpl) RecordIterator := do
  let k ← Exec.ofOption i.impl
  let r ← Heap.call k Exec.get
  if i.pos + 1 ≥ r.size then do
    -- at the end, it becomes an end iterator
    release i.impl
    return { i with impl := none, pos := 0 }
  else return { i with pos := i.pos + 1 }

/-- `operator=` -/
def assign (i r : RecordIterator) : Exec Exception (Heap RecordIteratorImpl) RecordIterator := do
  acquire r.impl
  release i.impl
  return r

/-- `operator!=` -/
def ne (i j : RecordIterator) : Bool := i.impl != j.impl || i.pos != j.pos

end RecordIterator

/-- `Apt::recordBegin` -/
def recordBegin (sorter : Sorter PkgCache.VerFile) (env : Env) (apt : AptImplementation)
    (lastOffset : UInt64) : Exec Exception (Heap RecordIteratorImpl) RecordIterator := do
  let k ← Heap.new (RecordIteratorImpl.make sorter apt lastOffset)
  RecordIterator.make env (some k) 0

/-- `Apt::recordEnd` -/
def recordEnd : RecordIterator := ⟨none, 0, [], 0⟩

/-- One turn of a loop that collects the records. The state is an iterator, what has been collected
and the heap; the system answers as in `env` when the record of an index is read. -/
def walkRecordsTurn (env : ℕ → Env) : RecordIterator × List Str × Heap RecordIteratorImpl →
    (RecordIterator × List Str × Heap RecordIteratorImpl) ⊕
      Outcome Exception (Heap RecordIteratorImpl) (List Str)
  | (i, strs, h) =>
    if i.ne recordEnd then
      match (i.deref (env i.pos)).run h with
      | .ok (str, i) h =>
        match i.next.run h with
        | .ok i h => .inl (i, strs ++ [str], h)
        | .threw e h => .inr (.threw e h)
        | .undefined => .inr .undefined
      | .threw e h => .inr (.threw e h)
      | .undefined => .inr .undefined
    else .inr (.ok strs h)

/-- `for (i = recordBegin(); i != recordEnd(); ++i)` -/
def walkRecords (sorter : Sorter PkgCache.VerFile) (env : ℕ → Env) (apt : AptImplementation)
    (lastOffset : UInt64) (h : Heap RecordIteratorImpl) :
    Comp (Outcome Exception (Heap RecordIteratorImpl) (List Str)) :=
  match (recordBegin sorter (env 0) apt lastOffset).run h with
  | .ok i h => Comp.loop (fun s => pure (walkRecordsTurn env s)) (i, [], h)
  | .threw e h => pure (.threw e h)
  | .undefined => pure .undefined

end Libept.Apt
