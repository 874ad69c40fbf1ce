import Libept.Apt.Libapt
import Libept.Lib.Comp

/-!
# Walking the packages

`Apt::Iterator` owns a copy of a `PkgIterator`, or nothing when it is at the end. Its `operator++`
goes on to the next package that has a version, but `begin` stands at the first package there is,
or at the end of libapt's list. There is no result where the source follows a null pointer or a
libapt iterator that is at its end.
-/

namespace Libept.Apt

open PkgCache

/-- A position among the packages. -/
structure PkgIterator where
  index : ℕ
  deriving DecidableEq

namespace PkgIterator

def atEnd (cache : PkgCache) (i : PkgIterator) : Bool := cache.packages.length ≤ i.index

def deref (cache : PkgCache) (i : PkgIterator) : Option Package := cache.packages[i.index]?

def next (cache : PkgCache) (i : PkgIterator) : Option PkgIterator :=
  if i.atEnd cache then none else some ⟨i.index + 1⟩

end PkgIterator

structure Iterator where
  cur : Option PkgIterator
  deriving DecidableEq

namespace Iterator

/-- `operator*` -/
def deref (cache : PkgCache) (i : Iterator) : Option Str := do
  let iter ← i.cur
  let package ← iter.deref cache
  some package.Name

/-- One turn of the loop of `operator++` over the packages without versions. -/
def skipTurn (cache : PkgCache) (iter : PkgIterator) : PkgIterator ⊕ Option PkgIterator :=
  if iter.atEnd cache then .inr (some iter)
  else
    match iter.deref cache with
    | none => .inr none
    | some package =>
      if package.VersionList.isEmpty then
        match iter.next cache with
        | none => .inr none
        | some iter => .inl iter
      else .inr (some iter)

def skip (cache : PkgCache) (iter : PkgIterator) : Comp (Option PkgIterator) :=
  Comp.loop (fun iter => pure (skipTurn cache iter)) iter

/-- `operator++` -/
def next (cache : PkgCache) (i : Iterator) : Comp (Option Iterator) :=
  match i.cur.bind (·.next cache) with
  | none => pure none
  | some iter => do
    match ← skip cache iter with
    | none => pure none
    | some iter => pure (some ⟨if iter.atEnd cache then none else some iter⟩)

/-- `operator!=` -/
def ne (i j : Iterator) : Bool :=
  match i.cur, j.cur with
  | none, none => false
  | some iter1, some iter2 => iter1 != iter2
  | _, _ => true

end Iterator

/-- `Apt::begin` -/
def begin : Iterator := ⟨some ⟨0⟩⟩

/-- `Apt::end` -/
def end_ : Iterator := ⟨none⟩

/-- One turn of a loop that collects the names of the packages. -/
def walkTurn (cache : PkgCache) : Iterator × List Str →
    Comp ((Iterator × List Str) ⊕ Option (List Str))
  | (i, names) =>
    if i.ne end_ then
      match i.deref cache with
      | none => pure (.inr none)
      | some name => do
        match ← i.next cache with
        | none => pure (.inr none)
        | some i => pure (.inl (i, names ++ [name]))
    else pure (.inr (some names))

/-- `for (i = begin(); i != end(); ++i)` -/
def walk (cache : PkgCache) : Comp (Option (List Str)) := Comp.loop (walkTurn cache) (begin, [])

variable {cache : PkgCache} {n : ℕ} {package : Package} {rest : List Package}

/-! ### Positions -/

lemma deref_of_drop (h : cache.packages.drop n = package :: rest) :
    PkgIterator.deref cache ⟨n⟩ = some package := by
  have hhead := congrArg List.head? h
  rwa [List.head?_drop] at hhead

lemma atEnd_of_drop (h : cache.packages.drop n = package :: rest) :
    PkgIterator.atEnd cache ⟨n⟩ = false := by
  have hlt : n < cache.packages.length := by
    by_contra hle
    rw [List.drop_eq_nil_of_le (by omega)] at h
    cases h
  simpa [PkgIterator.atEnd] using hlt

lemma next_of_drop (h : cache.packages.drop n = package :: rest) :
    PkgIterator.next cache ⟨n⟩ = some ⟨n + 1⟩ := by
  rw [PkgIterator.next, atEnd_of_drop h]
  rfl

lemma drop_succ (h : cache.packages.drop n = package :: rest) :
    cache.packages.drop (n + 1) = rest := by
  rw [← List.drop_drop, h, List.drop_one, List.tail_cons]

lemma atEnd_of_drop_nil (h : cache.packages.drop n = []) :
    PkgIterator.atEnd cache ⟨n⟩ = true := by
  simpa [PkgIterator.atEnd] using List.drop_eq_nil_iff.mp h

/-! ### Going on -/

def hasVersions (package : Package) : Bool := !package.VersionList.isEmpty

/-- The loop stops at the next package that has a version, or at the end. -/
lemma skip_returns (h : cache.packages.drop n = rest) :
    ∃ m, (Iterator.skip cache ⟨n⟩).Returns (some ⟨m⟩) ∧
      cache.packages.drop m = rest.dropWhile (!hasVersions ·) := by
  induction rest generalizing n with
  | nil =>
    refine ⟨n, Comp.loop_stop (Comp.returns_pure.mpr ?_), h⟩
    rw [Iterator.skipTurn, if_pos (atEnd_of_drop_nil h)]
  | cons package rest ih =>
    have hturn : Iterator.skipTurn cache ⟨n⟩ =
        if package.VersionList.isEmpty then .inl ⟨n + 1⟩ else .inr (some ⟨n⟩) := by
      simp only [Iterator.skipTurn, atEnd_of_drop h, deref_of_drop h, next_of_drop h,
        Bool.false_eq_true, if_false]
    cases hempty : package.VersionList.isEmpty with
    | true =>
      obtain ⟨m, hm, hdrop⟩ := ih (drop_succ h)
      rw [hempty, if_pos rfl] at hturn
      refine ⟨m, (Comp.loop_next ?_ _).mpr hm, ?_⟩
      · rw [hturn]
        exact Comp.returns_pure.mpr rfl
      · rw [hdrop, List.dropWhile_cons_of_pos (by simp [hasVersions, hempty])]
    | false =>
      rw [hempty, if_neg (by simp)] at hturn
      refine ⟨n, Comp.loop_stop ?_, ?_⟩
      · rw [hturn]
        exact Comp.returns_pure.mpr rfl
      · rw [h, List.dropWhile_cons_of_neg (by simp [hasVersions, hempty])]

/-- `operator++` is at the end, or at the next package that has a version. -/
lemma next_returns (h : cache.packages.drop n = package :: rest) :
    ((Iterator.next cache ⟨some ⟨n⟩⟩).Returns (some end_) ∧ rest.filter hasVersions = []) ∨
      ∃ m package' rest', (Iterator.next cache ⟨some ⟨n⟩⟩).Returns (some ⟨some ⟨m⟩⟩) ∧
        cache.packages.drop m = package' :: rest' ∧ rest'.length < rest.length ∧
        rest.filter hasVersions = package' :: rest'.filter hasVersions := by
  obtain ⟨m, hm, hdrop⟩ := skip_returns (drop_succ h)
  have hnext : (Iterator.next cache ⟨some ⟨n⟩⟩).Returns
      (some ⟨if PkgIterator.atEnd cache ⟨m⟩ then none else some ⟨m⟩⟩) := by
    simp only [Iterator.next, Option.bind_some, next_of_drop h]
    exact (hm.bind _ _).mpr (Comp.returns_pure.mpr rfl)
  rcases hrest : rest.dropWhile (!hasVersions ·) with _ | ⟨package', rest'⟩
  · rw [hrest] at hdrop
    rw [atEnd_of_drop_nil hdrop] at hnext
    refine .inl ⟨hnext, ?_⟩
    rw [List.dropWhile_eq_nil_iff] at hrest
    exact List.filter_eq_nil_iff.mpr fun p hp => by simpa using hrest p hp
  · rw [hrest] at hdrop
    rw [atEnd_of_drop hdrop] at hnext
    have hlength : (package' :: rest').length ≤ rest.length := by
      rw [← hrest]
      exact (List.dropWhile_sublist _).length_le
    refine .inr ⟨m, package', rest', hnext, hdrop, hlength, ?_⟩
    have hfirst := List.head?_dropWhile_not (!hasVersions ·) rest
    rw [hrest] at hfirst
    have hskipped : (rest.takeWhile (!hasVersions ·)).filter hasVersions = [] :=
      List.filter_eq_nil_iff.mpr fun p hp => by simpa using List.mem_takeWhile_imp hp
    conv_lhs => rw [← List.takeWhile_append_dropWhile (p := (!hasVersions ·)) (l := rest)]
    rw [List.filter_append, hskipped, hrest, List.nil_append, List.filter_cons_of_pos]
    simpa using hfirst

/-! ### Walking -/

/-- From any package on, the walk yields this package and then the packages with versions. By
induction on the number of the packages that are left. -/
lemma walk_returns (names : List Str) (h : cache.packages.drop n = package :: rest) :
    (Comp.loop (walkTurn cache) (⟨some ⟨n⟩⟩, names)).Returns
      (some (names ++ (package :: rest.filter hasVersions).map Package.Name)) := by
  induction hlength : rest.length using Nat.strong_induction_on generalizing n names package rest
    with
  | _ k ih =>
    subst hlength
    have hturn : ∀ i, (Iterator.next cache ⟨some ⟨n⟩⟩).Returns (some i) →
        (walkTurn cache (⟨some ⟨n⟩⟩, names)).Returns (.inl (i, names ++ [package.Name])) := by
      intro i hi
      have hderef : Iterator.deref cache ⟨some ⟨n⟩⟩ = some package.Name := by
        simp [Iterator.deref, deref_of_drop h]
      simp only [walkTurn, Iterator.ne, end_, if_true, hderef]
      exact (hi.bind _ _).mpr (Comp.returns_pure.mpr rfl)
    rcases next_returns h with ⟨hnext, hnone⟩ | ⟨m, package', rest', hnext, hdrop, hlt, hrest⟩
    · refine (Comp.loop_next (hturn _ hnext) _).mpr (Comp.loop_stop ?_)
      rw [hnone]
      exact Comp.returns_pure.mpr rfl
    · apply (Comp.loop_next (hturn _ hnext) _).mpr
      have hwalk := ih rest'.length hlt (names ++ [package.Name]) hdrop rfl
      rw [hrest]
      simpa using hwalk

/-- The walk from `begin` to `end` ends, follows no libapt iterator that is at its end and yields
exactly the packages that have a version, in their order, if and only if there is a package and the
first one has a version. -/
theorem walk_iff (cache : PkgCache) :
    (walk cache).Returns (some ((cache.packages.filter hasVersions).map Package.Name)) ↔
      ∃ package rest, cache.packages = package :: rest ∧ package.VersionList ≠ [] := by
  rcases hpackages : cache.packages with _ | ⟨package, rest⟩
  · have hundefined : (walk cache).Returns none := by
      apply Comp.loop_stop
      have hderef : Iterator.deref cache begin = none := by
        simp [Iterator.deref, begin, PkgIterator.deref, hpackages]
      simp only [walkTurn, hderef]
      exact Comp.returns_pure.mpr rfl
    constructor
    · intro h
      cases hundefined.unique h
    · rintro ⟨package, rest, h, -⟩
      cases h
  · have hwalk := walk_returns [] (n := 0) (by rw [List.drop_zero, hpackages])
    rw [List.nil_append] at hwalk
    constructor
    · intro h
      refine ⟨package, rest, rfl, fun hempty => ?_⟩
      have hlength := congrArg (Option.map List.length) (hwalk.unique h)
      rw [List.filter_cons_of_neg (by simp [hasVersions, hempty])] at hlength
      simp at hlength
    · rintro ⟨package', rest', h, hne⟩
      cases h
      rw [List.filter_cons_of_pos (by simpa [hasVersions] using hne)]
      exact hwalk

/-- A package without a version in front of one that has some. -/
def sampleCache : PkgCache :=
  ⟨[⟨str "a", [], none⟩, ⟨str "b", [⟨none, []⟩], none⟩], fun _ => ⟨[], false⟩⟩

theorem walk_first_package :
    (walk sampleCache).Returns (some [str "a", str "b"]) ∧
      (sampleCache.packages.filter hasVersions).map Package.Name = [str "b"] ∧
      (walk ⟨[], fun _ => ⟨[], false⟩⟩).Returns none :=
  ⟨⟨3, rfl⟩, rfl, ⟨1, rfl⟩⟩

end Libept.Apt
