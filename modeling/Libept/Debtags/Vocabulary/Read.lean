import Libept.Debtags.Maint.DebDBParser.Append
import Libept.Debtags.Vocabulary.Reachable

/-!
# Reading whole files into a vocabulary

When a read comes to an end, and what a read of one file after another does.
-/

namespace Libept.Vocabulary

open DebDBParser

variable {v v' : Vocabulary} {input input' : Str}

/-! ### Termination -/

lemma Reachable.finishes_iff (h : Reachable v) (input : Str) :
    Finishes (v.read input) ↔ ¬Hangs input ∧ ¬Overflows input :=
  forRecords_finishes_iff (fun _ record hwf => hwf.mergeRecord record) h.wf input

/-- Calling `nextRecord` until it returns false or throws, and `read` with any vocabulary, come to
an end exactly on the files that have no last line, without a newline, that starts with a blank and
comes after lines without an error, the last of them not blank, and in which no more blank lines
come after each other, behind lines without an error, than an `int` can count. -/
theorem read_finishes_iff (input : Str) :
    (Finishes (readAll input) ↔ ¬Hangs input ∧ ¬Overflows input) ∧
      ∀ v, Reachable v → (Finishes (v.read input) ↔ ¬Hangs input ∧ ¬Overflows input) :=
  ⟨readAll_finishes_iff input, fun _ h => h.finishes_iff input⟩

theorem read_finishes_sample :
    Finishes (readAll (str "Facet: a\n b\n")) ∧ Finishes (empty.read (str "Facet: a\n b\n")) :=
  have h := read_finishes_iff (str "Facet: a\n b\n")
  have hend : (reading (str "Facet: a\n b\n")).2 = .finished := by decide
  have hcount := not_overflows_of_finished hend
  have hhangs : ¬Hangs (str "Facet: a\n b\n") := by
    rw [← reading_hangs_iff hcount, hend]
    simp
  ⟨h.1.mpr ⟨hhangs, hcount⟩, (h.2 empty .empty).mpr ⟨hhangs, hcount⟩⟩

/-- A continuation line that the end of the file cuts off is read for ever. -/
theorem read_cut_off :
    ¬(readAll (str "Facet: a\n b")).Halts ∧ ¬(empty.read (str "Facet: a\n b")).Halts := by
  have hend : (reading (str "Facet: a\n b")) = ([], .hangs) := by decide
  rw [readAll, (forRecords_denotes _ _ _).halts_iff, (read_denotes empty _).halts_iff, hend]
  simp [feed]

/-! ### One file after another -/

lemma Wf.read_overflow_iff (h : v.Wf) (input : Str) :
    (∃ v', (v.read input).Returns (.error .overflow, v')) ↔ Overflows input := by
  have hfeed := feed_outcome (I := Wf) (fun _ record hwf => hwf.mergeRecord record) h
    (reading input).1 (reading input).2
  simp only [read_denotes v input _, ← reading_overflow_iff]
  constructor
  · rintro ⟨v', hv'⟩
    rw [hv'] at hfeed
    cases hend : (reading input).2 <;> simp_all [End.outcome]
  · intro hend
    rw [hend] at hfeed ⊢
    obtain ⟨y, hy, hyfst⟩ := Option.map_eq_some_iff.mp hfeed
    exact ⟨y.2, by rw [hy, ← hyfst]⟩

/-- Where a count overflows, a read may come to anything. -/
lemma Wf.mayReturn_of_overflows (h : v.Wf) (hinput : Overflows input)
    (x : Except Failure Unit × Vocabulary) : v.MayReturn input x :=
  .inr ((h.read_overflow_iff input).mpr hinput)

/-- Where none does, it comes to what the model gives, or to nothing. -/
lemma Wf.mayReturn_iff (h : v.Wf) (hinput : ¬Overflows input)
    (x : Except Failure Unit × Vocabulary) : v.MayReturn input x ↔ (v.read input).Returns x := by
  refine ⟨fun hx => hx.resolve_right ?_, .inl⟩
  rwa [h.read_overflow_iff]

lemma append_newlines (input input' : Str) :
    input ++ str "\n\n" ++ input' = input ++ nl :: nl :: input' := by
  rw [show str "\n\n" = [nl, nl] by decide, List.append_assoc]
  rfl

lemma finished_of_returns (h : (v.read input).Returns (.ok (), v')) :
    (reading input).2 = .finished :=
  feed_returns ((read_denotes v input _).mp h)

/-- A file that is read normally, two newlines and another file, where an `int` can count the blank
lines between them. -/
lemma read_append (h : (v.read input).Returns (.ok (), v')) (hfits : Fits input input')
    (x : Except Failure Unit × Vocabulary) :
    (v.read (input ++ str "\n\n" ++ input')).Returns x ↔ (v'.read input').Returns x := by
  have hfeed := (read_denotes v input _).mp h
  have hend := finished_of_returns h
  rw [hend] at hfeed
  rw [append_newlines, read_denotes v _ x, read_denotes v' _ x,
    reading_append (Prod.ext rfl hend) hfits, feed_append hfeed]

/-- Two files that are read like one: what one call may come to, the other call may. -/
lemma Wf.mayReturn_append_iff (hwf : v.Wf) (h : (v.read input).Returns (.ok (), v'))
    (input' : Str) :
    (∀ x, v.MayReturn (input ++ str "\n\n" ++ input') x ↔ v'.MayReturn input' x) ↔
      Fits input input' ∨ Overflows input' := by
  have hwf' := hwf.read h
  have hjoined := overflows_append_iff (finished_of_returns h) input'
  rw [← append_newlines] at hjoined
  constructor
  · intro hall
    by_contra hnot
    rw [not_or] at hnot
    have hreturn := hwf.mayReturn_of_overflows (hjoined.mpr (.inl hnot.1)) (.error .overflow, v)
    rw [hall, hwf'.mayReturn_iff hnot.2] at hreturn
    exact hnot.2 ((hwf'.read_overflow_iff input').mp ⟨v, hreturn⟩)
  · rintro (hfits | hoverflow) x
    · simp only [MayReturn, read_append h hfits]
    · exact iff_of_true (hwf.mayReturn_of_overflows (hjoined.mpr (.inr hoverflow)) x)
        (hwf'.mayReturn_of_overflows hoverflow x)

lemma splitOn_replicate (n : ℕ) (s : Str) :
    (List.replicate n nl ++ s).splitOn nl = List.replicate n [] ++ s.splitOn nl := by
  induction n with
  | zero => rfl
  | succ n ih =>
    rw [List.replicate_succ, List.replicate_succ, List.cons_append, List.cons_append,
      splitOn_newline, ih]

lemma blankLines_replicate (n : ℕ) : blankLines (List.replicate (n + 1) []) = n := by
  induction n with
  | zero => rfl
  | succ n ih =>
    rw [List.replicate_succ, blankLines_cons [] (by simp), ih]
    rfl

lemma readLines_replicate (n : ℕ) :
    readLines .between (List.replicate (n + 1) []) = ([], .finished) := by
  induction n with
  | zero => rfl
  | succ n ih =>
    rw [List.replicate_succ, readLines_cons [] (by simp), ← ih]
    rfl

/-- A facet, with newlines behind it. -/
def facetLine (n : ℕ) : Str := str "Facet: a" ++ nl :: List.replicate n nl

lemma splitOn_facetLine (n : ℕ) :
    (facetLine n).splitOn nl = str "Facet: a" :: List.replicate (n + 1) [] := by
  have hrest := splitOn_replicate n []
  rw [List.append_nil, List.splitOn_nil, ← List.replicate_succ'] at hrest
  rw [facetLine, List.splitOn_append_cons_self_of_not_mem (by decide), hrest]

/-- It is read, as long as the newlines can be counted. -/
lemma reading_facetLine {n : ℕ} (hn : n < 2 ^ 31) :
    reading (facetLine n) =
      ([(∅ : Record).insertIfNew (str "Facet") (str "a")], .finished) := by
  have hinside : readLines (.inside ∅ (str "Facet") (str "a")) (List.replicate (n + 1) []) =
      ([(∅ : Record).insertIfNew (str "Facet") (str "a")], .finished) := by
    cases n with
    | zero => rfl
    | succ n =>
      have hcount := blankLines_replicate (n + 1)
      rw [List.replicate_succ] at hcount ⊢
      rw [readLines_blank rfl (by simp) (by omega), readLines_replicate]
      rfl
  have hcount : blankLines (str "Facet: a" :: List.replicate (n + 1) []) = 0 := by
    rw [blankLines_cons _ (by simp), if_neg (by decide)]
  rw [reading, readFrom, splitOn_facetLine, hcount, if_pos (by decide), readLines_cons _ (by simp),
    ← hinside]
  rfl

lemma le_blankEnd_facetLine (n : ℕ) : n + 1 ≤ blankEnd ((facetLine n).splitOn nl) := by
  have hall := @blankEnd_of_all (List.replicate (n + 1) []) fun l hl => by
    rw [List.eq_of_mem_replicate hl]
    rfl
  rw [List.length_replicate] at hall
  rw [splitOn_facetLine]
  exact hall.symm.le.trans (rtakeWhile_cons _ _ _)

end Libept.Vocabulary
