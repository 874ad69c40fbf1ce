import Libept.Apt.RecordIterator
import Libept.Apt.RecordIteratorImpl.Record

/-!
# Counting the iterators

The counter of an object is the number of iterators that point to it. A member that acquires or
releases a reference changes the number for one object by one, and the last release deletes the
object. The counter is an `int`: with `2 ^ 31 - 1` iterators it is full, and there is no defined
result when one more is made.
-/

namespace Libept.Apt

open RecordIteratorImpl

variable {h h' : Heap RecordIteratorImpl} {c : ℕ → ℕ} {k idx n : ℕ} {r r' : RecordIteratorImpl}
  {i i' j : RecordIterator} {o : Option ℕ} {env : Env} {vf : PkgCache.VerFile}
  {disk : Str → Contents}

/-! ### The objects -/

/-- The counters are given by `c`, and exactly the objects with a positive counter are there. -/
structure Counted (h : Heap RecordIteratorImpl) (c : ℕ → ℕ) : Prop where
  ref_eq : ∀ k r, h.at? k = some r → r._ref = c k
  live_iff : ∀ k, (∃ r, h.at? k = some r) ↔ 0 < c k

/-- What else is known of the objects: their counters are in range and `record` can be called. -/
def Fit (h : Heap RecordIteratorImpl) : Prop :=
  ∀ k r, h.at? k = some r → CInt.InRange r._ref ∧ r.Coherent ∧ r.Unopened

/-- The locations of the objects stay as they are, and no object comes back. -/
structure Keeps (h h' : Heap RecordIteratorImpl) : Prop where
  next_le : h.next ≤ h'.next
  old : ∀ k r', h'.at? k = some r' → k < h.next →
    ∃ r, h.at? k = some r ∧ r'.vflist = r.vflist ∧ r'.apt = r.apt

lemma Keeps.refl (h : Heap RecordIteratorImpl) : Keeps h h :=
  ⟨le_rfl, fun _ r hk _ => ⟨r, hk, rfl, rfl⟩⟩

lemma Keeps.trans {h'' : Heap RecordIteratorImpl} (h₁ : Keeps h h') (h₂ : Keeps h' h'') :
    Keeps h h'' := by
  refine ⟨h₁.next_le.trans h₂.next_le, fun k r'' hk'' hlt => ?_⟩
  obtain ⟨r', hk', hvflist', hapt'⟩ := h₂.old k r'' hk'' (hlt.trans_le h₁.next_le)
  obtain ⟨r, hk, hvflist, hapt⟩ := h₁.old k r' hk' hlt
  exact ⟨r, hk, hvflist'.trans hvflist, hapt'.trans hapt⟩

/-- How many of the references to an object a pointer accounts for. -/
def owns (o : Option ℕ) (k : ℕ) : ℕ := if o = some k then 1 else 0

lemma owns_pos (hk : o = some k) : 0 < c k + owns o k := by
  simp [owns, hk]

lemma Counted.pos (hc : Counted h c) (hk : h.at? k = some r) : 0 < c k :=
  (hc.live_iff k).mp ⟨r, hk⟩

/-- An object is replaced by one with another counter. -/
lemma Counted.put {s : RecordIteratorImpl} (hc : Counted h c) (hk : h.at? k = some r)
    (href : s._ref = n) (hn : 0 < n) : Counted (h.put k s) (Function.update c k n) := by
  have hlt := Heap.lt_next hk
  constructor
  · intro m t hm
    rw [Heap.at?_put hlt] at hm
    split_ifs at hm with hmk
    · obtain rfl := Option.some.inj hm
      rw [hmk, Function.update_self, href]
    · rw [Function.update_of_ne hmk]
      exact hc.ref_eq m t hm
  · intro m
    rw [Heap.at?_put hlt]
    split_ifs with hmk
    · rw [hmk, Function.update_self]
      exact iff_of_true ⟨s, rfl⟩ hn
    · rw [Function.update_of_ne hmk]
      exact hc.live_iff m

lemma Counted.erase (hc : Counted h c) : Counted (h.erase k) (Function.update c k 0) := by
  constructor
  · intro m s hm
    rw [Heap.at?_erase] at hm
    split_ifs at hm with hmk
    rw [Function.update_of_ne hmk]
    exact hc.ref_eq m s hm
  · intro m
    rw [Heap.at?_erase]
    split_ifs with hmk
    · simp [hmk]
    · rw [Function.update_of_ne hmk]
      exact hc.live_iff m

lemma fit_empty : Fit Heap.empty := by
  intro k r hk
  cases hk

lemma Fit.put {s : RecordIteratorImpl} (hf : Fit h) (hk : h.at? k = some r)
    (href : CInt.InRange s._ref) (hcoherent : s.Coherent) (hunopened : s.Unopened) :
    Fit (h.put k s) := by
  intro m t hm
  rcases Heap.at?_put_cases hk hm with ⟨-, rfl⟩ | hold
  · exact ⟨href, hcoherent, hunopened⟩
  · exact hf m t hold

lemma keeps_put (hk : h.at? k = some r) (hvflist : r'.vflist = r.vflist) (hapt : r'.apt = r.apt) :
    Keeps h (h.put k r') := by
  refine ⟨Heap.next_put.ge, fun m s hm _ => ?_⟩
  rcases Heap.at?_put_cases hk hm with ⟨rfl, rfl⟩ | hold
  · exact ⟨r, hk, hvflist, hapt⟩
  · exact ⟨s, hold, rfl, rfl⟩

lemma keeps_erase : Keeps h (h.erase k) :=
  ⟨Heap.next_erase.ge, fun _ s hm _ => ⟨s, Heap.at?_of_erase hm, rfl, rfl⟩⟩

/-- A new object with its first reference. -/
lemma Counted.push (hc : Counted h c) (href : r._ref = 1) :
    Counted (h.push r) (fun m => c m + owns (some h.next) m) := by
  have hnew : c h.next = 0 := by
    by_contra hpos
    obtain ⟨s, hs⟩ := (hc.live_iff h.next).mpr (Nat.pos_of_ne_zero hpos)
    exact (Heap.lt_next hs).ne rfl
  constructor
  · intro m s hm
    rw [Heap.at?_push] at hm
    split_ifs at hm with hmk
    · obtain rfl := Option.some.inj hm
      simp [owns, hmk, hnew, href]
    · simpa [owns, Ne.symm hmk] using hc.ref_eq m s hm
  · intro m
    rw [Heap.at?_push]
    split_ifs with hmk
    · simp [owns, hmk]
    · simpa [owns, Ne.symm hmk] using hc.live_iff m

lemma Fit.push (hf : Fit h) (href : CInt.InRange r._ref) (hcoherent : r.Coherent)
    (hunopened : r.Unopened) : Fit (h.push r) := by
  intro m s hm
  rcases Heap.at?_push_cases hm with ⟨-, rfl⟩ | hold
  · exact ⟨href, hcoherent, hunopened⟩
  · exact hf m s hold

lemma keeps_push : Keeps h (h.push r) := by
  refine ⟨by simp, fun m s hm hlt => ?_⟩
  rw [Heap.at?_push, if_neg hlt.ne] at hm
  exact ⟨s, hm, rfl, rfl⟩

/-! ### Acquiring and releasing -/

lemma owns_none : (fun m => c m + owns none m) = c := by
  funext m
  simp [owns]

lemma owns_some : (fun m => c m + owns (some k) m) = Function.update c k (c k + 1) := by
  funext m
  by_cases hmk : m = k
  · simp [owns, hmk]
  · simp [owns, Function.update_of_ne hmk, Ne.symm hmk]

/-- There is a counter that can still be increased. -/
def HasRoom (c : ℕ → ℕ) (o : Option ℕ) : Prop := ∀ k, o = some k → c k < 2 ^ 31 - 1

lemma acquire_ensures (hc : Counted h c) (hf : Fit h) (hlive : ∀ k, o = some k → 0 < c k)
    (hroom : HasRoom c o) :
    (RecordIterator.acquire o).Ensures h
      (fun _ h' => Counted h' (fun m => c m + owns o m) ∧ Fit h' ∧ Keeps h h')
      fun _ _ => False := by
  cases o with
  | none =>
    rw [owns_none]
    exact ⟨hc, hf, Keeps.refl h⟩
  | some k =>
    obtain ⟨r, hk⟩ := (hc.live_iff k).mpr (hlive k rfl)
    have href := hc.ref_eq k r hk
    have hlt := hroom k rfl
    have hrange : CInt.InRange (r._ref + 1) := ⟨by omega, by omega⟩
    have hadd : CInt.add r._ref 1 = some (r._ref + 1) := if_pos hrange
    obtain ⟨-, hcoherent, hunopened⟩ := hf k r hk
    simp only [RecordIterator.acquire, Heap.ensures_call hk, ref, Exec.ensures_bind,
      Exec.ensures_get, hadd, Exec.ensures_ofOption_some, Exec.ensures_modify]
    refine ⟨?_, hf.put hk hrange hcoherent hunopened, keeps_put hk rfl rfl⟩
    rw [owns_some]
    exact hc.put hk (by rw [href, Nat.cast_add, Nat.cast_one]) (by omega)

lemma acquire_undefined (hc : Counted h c) (hk : h.at? k = some r) (hfull : ¬c k < 2 ^ 31 - 1) :
    (RecordIterator.acquire (some k)).run h = .undefined := by
  have href := hc.ref_eq k r hk
  have hadd : CInt.add r._ref 1 = none := if_neg fun hrange => by
    have hlt := hrange.2
    omega
  simp only [RecordIterator.acquire, Heap.call, hk, ref, Exec.run_bind, Exec.get, hadd,
    Exec.ofOption]

lemma release_ensures (hc : Counted h (fun m => c m + owns o m)) (hf : Fit h) :
    (RecordIterator.release o).Ensures h
      (fun _ h' => Counted h' c ∧ Fit h' ∧ Keeps h h') fun _ _ => False := by
  cases o with
  | none =>
    rw [owns_none] at hc
    exact ⟨hc, hf, Keeps.refl h⟩
  | some k =>
    rw [owns_some] at hc
    obtain ⟨r, hk⟩ := (hc.live_iff k).mpr (by simp)
    have href := hc.ref_eq k r hk
    rw [Function.update_self] at href
    obtain ⟨⟨-, hlt⟩, hcoherent, hunopened⟩ := hf k r hk
    have hrange : CInt.InRange (r._ref - 1) := ⟨by omega, by omega⟩
    have hsub : CInt.sub r._ref 1 = some (r._ref - 1) := if_pos hrange
    have hput : (h.put k { r with _ref := r._ref - 1 }).at? k =
        some { r with _ref := r._ref - 1 } := Heap.at?_put_self hk
    simp only [RecordIterator.release, Exec.ensures_bind, Heap.ensures_call hk, unref,
      Exec.ensures_get, hsub, Exec.ensures_ofOption_some, Exec.ensures_modify, Exec.ensures_pure,
      Exec.ensures_ite, decide_eq_true_eq, Heap.ensures_delete hput, Heap.erase_put]
    refine ⟨fun hzero => ⟨?_, ?_, ?_⟩, fun hpos => ⟨?_, ?_, ?_⟩⟩
    · have herase := hc.erase (k := k)
      rwa [Function.update_idem, Function.update_eq_self_iff.mpr (by omega)] at herase
    · exact fun m s hm => hf m s (Heap.at?_of_erase hm)
    · exact keeps_erase
    · have hput := hc.put hk (s := { r with _ref := r._ref - 1 }) (n := c k)
        (by push_cast at href; simp only [href]; omega) (by omega)
      rwa [Function.update_idem, Function.update_eq_self] at hput
    · exact hf.put hk hrange hcoherent hunopened
    · exact keeps_put hk rfl rfl

/-! ### Reading -/

/-- A record that is read is the one of the index, and the counters stay. -/
lemma call_record_ensures (hc : Counted h c) (hf : Fit h) (hk : h.at? k = some r)
    (hvf : r.vflist[idx]? = some vf) :
    (Heap.call k (record env idx)).Ensures h
      (fun buffer h' => buffer = r.bytesAt env.disk vf ∧ Counted h' c ∧ Fit h' ∧ Keeps h h')
      fun _ _ => True := by
  obtain ⟨hrange, hcoherent, hunopened⟩ := hf k r hk
  rw [Heap.ensures_call hk]
  refine (record_ensures env hcoherent hunopened hvf).mono ?_ fun _ _ _ => trivial
  rintro buffer _ ⟨-, rfl, rfl⟩
  have hput := hc.put hk (s := r.after vf) (hc.ref_eq k r hk) (hc.pos hk)
  rw [Function.update_eq_self] at hput
  have hfit := hf.put hk (s := r.after vf) hrange (standing_coherent_iff.mpr rfl)
    (unopened_of_some rfl)
  exact ⟨rfl, hput, hfit, keeps_put hk rfl rfl⟩

/-! ### Iterators -/

/-- An iterator that is not an end iterator is within the locations of its object, and has read the
record of the index `cur_pos`. -/
def RecordIterator.Valid (disk : Str → Contents) (h : Heap RecordIteratorImpl)
    (i : RecordIterator) : Prop :=
  ∀ k, i.impl = some k → ∃ r, h.at? k = some r ∧ i.pos < r.vflist.length ∧
    ∃ vf, r.vflist[i.cur_pos]? = some vf ∧ i.cur = r.bytesAt disk vf

lemma bytesAt_congr (hapt : r'.apt = r.apt) : r'.bytesAt disk vf = r.bytesAt disk vf := by
  simp only [bytesAt, fileName, hapt]

lemma RecordIterator.valid_of_none (hnone : i.impl = none) : i.Valid disk h := by
  intro k hk
  cases hk.symm.trans hnone

lemma RecordIterator.Valid.keeps (hi : i.Valid disk h) (hkeeps : Keeps h h') (hc : Counted h' c)
    (hpos : ∀ k, i.impl = some k → 0 < c k) : i.Valid disk h' := by
  intro k hk
  obtain ⟨r, hr, hlt, vf, hvf, hcur⟩ := hi k hk
  obtain ⟨r', hr'⟩ := (hc.live_iff k).mpr (hpos k hk)
  obtain ⟨s, hs, hvflist, hapt⟩ := hkeeps.old k r' hr' (Heap.lt_next hr)
  obtain rfl := Option.some.inj (hr.symm.trans hs)
  refine ⟨r', hr', by rwa [hvflist], vf, by rwa [hvflist], ?_⟩
  rw [hcur, bytesAt_congr hapt]

lemma recordBegin_ensures {sorter : Sorter PkgCache.VerFile} {apt : AptImplementation}
    {lastOffset : UInt64} (hc : Counted h c) (hf : Fit h)
    (hne : (make sorter apt lastOffset).vflist ≠ []) :
    (recordBegin sorter env apt lastOffset).Ensures h
      (fun i h' => Counted h' (fun m => c m + owns i.impl m) ∧ Fit h' ∧ Keeps h h' ∧
        i.Valid env.disk h') fun _ _ => True := by
  obtain ⟨vf, hvf⟩ : ∃ vf, (make sorter apt lastOffset).vflist[0]? = some vf :=
    ⟨_, List.getElem?_eq_getElem (List.length_pos_of_ne_nil hne)⟩
  have hnew : (h.push (make sorter apt lastOffset)).at? h.next =
      some (make sorter apt lastOffset) := Heap.at?_push_self
  have hadd : CInt.add (make sorter apt lastOffset)._ref 1 = some 1 :=
    (by decide : CInt.add 0 1 = some 1)
  simp only [recordBegin, RecordIterator.make, Exec.ensures_bind, Heap.ensures_new,
    Heap.ensures_call hnew, ref, Exec.ensures_get, hadd, Exec.ensures_ofOption_some,
    Exec.ensures_modify, Heap.put_push, Exec.ensures_pure]
  have hr : (h.push { make sorter apt lastOffset with _ref := 1 }).at? h.next =
      some { make sorter apt lastOffset with _ref := 1 } := Heap.at?_push_self
  have hf' : Fit (h.push { make sorter apt lastOffset with _ref := 1 }) :=
    hf.push (by decide : CInt.InRange 1) (coherent_of_none rfl) fun _ => rfl
  refine (call_record_ensures (hc.push rfl) hf' hr hvf).mono ?_ fun _ _ _ => trivial
  rintro buffer h' ⟨rfl, hc', hfit, hkeeps⟩
  refine ⟨hc', hfit, keeps_push.trans hkeeps, ?_⟩
  refine RecordIterator.Valid.keeps (fun k hk => ?_) hkeeps hc' fun k hk => ?_
  · obtain rfl := Option.some.inj hk
    exact ⟨_, hr, List.length_pos_of_ne_nil hne, vf, hvf, rfl⟩
  · exact owns_pos hk

lemma deref_ensures (hc : Counted h c) (hf : Fit h) (hi : i.Valid env.disk h)
    (hk : i.impl = some k) :
    (i.deref env).Ensures h
      (fun p h' => p.2.impl = i.impl ∧ Counted h' c ∧ Fit h' ∧ Keeps h h' ∧ p.2.Valid env.disk h')
      fun _ _ => True := by
  obtain ⟨r, hr, hlt, vf, hvf, hcur⟩ := hi k hk
  rw [RecordIterator.deref]
  split_ifs
  · have hread : r.vflist[i.pos]? = some r.vflist[i.pos] := List.getElem?_eq_getElem hlt
    simp only [Exec.ensures_bind, hk, Exec.ensures_ofOption_some, Exec.ensures_pure]
    refine (call_record_ensures hc hf hr hread).mono ?_ fun _ _ _ => trivial
    rintro buffer h' ⟨rfl, hc', hfit, hkeeps⟩
    refine ⟨trivial, hc', hfit, hkeeps, ?_⟩
    refine RecordIterator.Valid.keeps (fun m hm => ?_) hkeeps hc' fun m hm => ?_
    · obtain rfl := Option.some.inj hm
      exact ⟨r, hr, hlt, _, hread, rfl⟩
    · obtain rfl := Option.some.inj hm
      exact hc.pos hr
  · exact ⟨rfl, hc, hf, Keeps.refl h, hi⟩

lemma next_ensures (hc : Counted h (fun m => c m + owns i.impl m)) (hf : Fit h)
    (hi : i.Valid disk h) (hk : i.impl = some k) :
    i.next.Ensures h
      (fun i' h' => Counted h' (fun m => c m + owns i'.impl m) ∧ Fit h' ∧ Keeps h h' ∧
        i'.Valid disk h') fun _ _ => False := by
  obtain ⟨r, hr, hlt, vf, hvf, hcur⟩ := hi k hk
  simp only [RecordIterator.next, Exec.ensures_bind, hk, Exec.ensures_ofOption_some,
    Heap.ensures_call hr, Exec.ensures_get, Heap.put_self hr, Exec.ensures_ite, Exec.ensures_pure]
  refine ⟨fun hend => ?_, fun hmore => ⟨?_, hf, Keeps.refl h, ?_⟩⟩
  · rw [hk] at hc
    refine (release_ensures hc hf).mono ?_ fun _ _ hfalse => hfalse
    rintro _ h' ⟨hc', hfit, hkeeps⟩
    exact ⟨by rwa [owns_none], hfit, hkeeps, RecordIterator.valid_of_none rfl⟩
  · rwa [hk] at hc
  · intro m hm
    obtain rfl := Option.some.inj hm
    exact ⟨r, hr, Nat.lt_of_not_le hmore, vf, hvf, hcur⟩

end Libept.Apt
