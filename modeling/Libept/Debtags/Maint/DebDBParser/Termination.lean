import Libept.Debtags.Maint.DebDBParser.Refine

/-!
# Files that are never read to their end

The loop over the continuation lines has no test for the end of the file. It never ends when it
meets a last line, without a newline, that starts with a blank. And the blank lines between two
records are counted in an `int`, which holds so many and no more.
-/

namespace Libept.DebDBParser

/-- A line on which a field starts. -/
def isFieldLine (l : Str) : Bool :=
  ((l.dropWhile isNameChar).dropWhile isblank).head? == some colon

/-- The line `l` may come after the line `prev`: it is blank, or it continues a line that is not,
or a field starts on it. -/
def Follows (prev l : Str) : Prop :=
  l.all isblank = true ∨
    if startsBlank l then prev.all isblank = false else isFieldLine l = true

/-- The file has lines without an error, and after a line that is not blank a last line, without a
newline, that starts with a blank. -/
def Hangs (input : Str) : Prop :=
  ∃ (lines : List Str) (last : Str), input.splitOn nl = lines ++ [last] ∧
    ([] :: lines).IsChain Follows ∧ (lines.getLastD []).all isblank = false ∧
      startsBlank last = true

/-- After the line `prev` there are lines without an error, and then more blank lines than an `int`
can count, each of them with a newline. -/
def OverflowsAfter (prev : Str) (ls : List Str) : Prop :=
  ∃ lines blanks rest : List Str, ls = lines ++ (blanks ++ rest) ∧ rest ≠ [] ∧
    (prev :: lines).IsChain Follows ∧ (∀ l ∈ blanks, l.all isblank = true) ∧
      blanks.length = 2 ^ 31

/-- The file has lines without an error, and then more blank lines than an `int` can count. -/
def Overflows (input : Str) : Prop := OverflowsAfter [] (input.splitOn nl)

/-! ### Blank lines -/

lemma length_le_blankLines {blanks rest : List Str} (hblank : ∀ l ∈ blanks, l.all isblank = true)
    (hrest : rest ≠ []) : blanks.length ≤ blankLines (blanks ++ rest) := by
  induction blanks with
  | nil => exact Nat.zero_le _
  | cons l blanks ih =>
    rw [List.forall_mem_cons] at hblank
    rw [List.cons_append, blankLines_cons l (List.append_ne_nil_of_right_ne_nil _ hrest),
      if_pos hblank.1, List.length_cons]
    exact Nat.succ_le_succ (ih hblank.2)

lemma exists_blanks {n : ℕ} {ls : List Str} (hne : ls ≠ []) (h : n ≤ blankLines ls) :
    ∃ blanks rest : List Str, ls = blanks ++ rest ∧ rest ≠ [] ∧
      (∀ l ∈ blanks, l.all isblank = true) ∧ blanks.length = n := by
  induction n generalizing ls with
  | zero => exact ⟨[], ls, rfl, hne, by simp, rfl⟩
  | succ n ih =>
    rcases ls with _ | ⟨l, _ | ⟨l', ls⟩⟩
    · exact absurd rfl hne
    · simp [blankLines] at h
    · rw [blankLines] at h
      split_ifs at h with hall
      · obtain ⟨blanks, rest, hsplit, hrest, hblank, hlength⟩ :=
          ih (List.cons_ne_nil l' ls) (Nat.le_of_succ_le_succ h)
        refine ⟨l :: blanks, rest, by rw [hsplit, List.cons_append], hrest, ?_, by simp [hlength]⟩
        exact List.forall_mem_cons.mpr ⟨hall, hblank⟩
      · omega

section Blanks

variable {prev l : Str} {ls : List Str}

lemma overflowsAfter_of_le (hne : ls ≠ []) (h : 2 ^ 31 ≤ blankLines ls) :
    OverflowsAfter prev ls := by
  obtain ⟨blanks, rest, hsplit, hrest⟩ := exists_blanks hne h
  exact ⟨[], blanks, rest, hsplit, hrest.1, .singleton prev, hrest.2⟩

lemma OverflowsAfter.cons (hfollows : Follows prev l) (h : OverflowsAfter l ls) :
    OverflowsAfter prev (l :: ls) := by
  obtain ⟨lines, blanks, rest, rfl, hrest, hchain, hblanks⟩ := h
  exact ⟨l :: lines, blanks, rest, rfl, hrest, .cons_cons hfollows hchain, hblanks⟩

lemma OverflowsAfter.tail (h : OverflowsAfter prev (l :: ls))
    (hcount : blankLines (l :: ls) < 2 ^ 31) : Follows prev l ∧ OverflowsAfter l ls := by
  obtain ⟨lines, blanks, rest, hsplit, hrest, hchain, hblank, hlength⟩ := h
  cases lines with
  | nil =>
    rw [List.nil_append] at hsplit
    have hle := length_le_blankLines hblank hrest
    rw [← hsplit] at hle
    omega
  | cons l' lines =>
    obtain ⟨rfl, rfl⟩ := List.cons.inj hsplit
    obtain ⟨hfollows, hchain⟩ := List.isChain_cons_cons.mp hchain
    exact ⟨hfollows, lines, blanks, rest, rfl, hrest, hchain, hblank, hlength⟩

end Blanks

/-! ### Readings that hang or overflow -/

def Position.isInside : Position → Bool
  | .between => false
  | .inside .. => true

variable {pos : Position} {prev l : Str}

lemma fieldLine_isFieldLine (h : isFieldLine l = true) : ∃ fb, fieldLine l = .ok fb := by
  rw [isFieldLine, beq_iff_eq, List.head?_eq_some_iff] at h
  obtain ⟨rest, hrest⟩ := h
  exact ⟨_, by simp only [fieldLine, hrest]; rfl⟩

lemma fieldLine_not_isFieldLine (h : isFieldLine l = false) :
    ∃ c, fieldLine l = .error (invalidCharacter c) := by
  rw [isFieldLine, beq_eq_false_iff_ne] at h
  rcases hrest : (l.dropWhile isNameChar).dropWhile isblank with _ | ⟨c, rest⟩
  · exact ⟨nl, by simp only [fieldLine, hrest]⟩
  · have hc : c ≠ colon := fun hc => h (by rw [hrest, hc]; rfl)
    exact ⟨c, by simp [fieldLine, hrest, hc]⟩

lemma lastFieldLine_ne_overflow (l : Str) : lastFieldLine l ≠ .error .overflow := by
  rw [lastFieldLine]
  split_ifs
  · simp
  · simp
  · cases h : isFieldLine l with
    | true =>
      obtain ⟨fb, hfb⟩ := fieldLine_isFieldLine h
      simp [hfb]
    | false =>
      obtain ⟨c, hc⟩ := fieldLine_not_isFieldLine h
      simp [hc, invalidCharacter]

/-- A line that may come next is read, and leaves the reading inside a record unless it is blank. -/
lemma step_follows (hpos : pos.isInside = !prev.all isblank) (h : Follows prev l) :
    ∃ pos' record, step pos l = .ok (pos', record) ∧ pos'.isInside = !l.all isblank := by
  rcases line_cases l with hblank | ⟨hall, hstart⟩ | ⟨c, t, rfl, hc⟩
  · cases pos with
    | between => exact ⟨_, _, by rw [step, if_pos hblank], by simp [hblank, Position.isInside]⟩
    | inside r f b => exact ⟨_, _, by rw [step, if_pos hblank], by simp [hblank, Position.isInside]⟩
  · have hprev : prev.all isblank = false := by simpa [Follows, hall, hstart] using h
    cases pos with
    | between => simp [Position.isInside, hprev] at hpos
    | inside r f b =>
      exact ⟨_, _, by rw [step, if_neg (by simp [hall]), if_pos hstart],
        by simp [hall, Position.isInside]⟩
  · have hline : isFieldLine (c :: t) = true := by simpa [Follows, startsBlank, hc] using h
    obtain ⟨fb, hfb⟩ := fieldLine_isFieldLine hline
    have hstart : startsBlank (c :: t) = false := hc
    refine ⟨.inside pos.record fb.1 fb.2, none, ?_, by simp [hc, Position.isInside]⟩
    rw [step_of_field (by simp [hc]) hstart, hfb]
    rfl

lemma step_not_follows (hpos : pos.isInside = !prev.all isblank) (h : ¬Follows prev l) :
    ∃ what, step pos l = .error (.runtimeError what) := by
  rcases line_cases l with hblank | ⟨hall, hstart⟩ | ⟨c, t, rfl, hc⟩
  · exact absurd (.inl hblank) h
  · have hprev : prev.all isblank = true := by simpa [Follows, hall, hstart] using h
    cases pos with
    | between => exact ⟨_, by rw [step, if_neg (by simp [hall]), if_pos hstart, notAtBOL]⟩
    | inside r f b => simp [Position.isInside, hprev] at hpos
  · have hline : isFieldLine (c :: t) = false := by simpa [Follows, startsBlank, hc] using h
    obtain ⟨b, hb⟩ := fieldLine_not_isFieldLine hline
    have hstart : startsBlank (c :: t) = false := hc
    rw [step_of_field (by simp [hc]) hstart, hb]
    exact ⟨_, rfl⟩

lemma finish_hangs_iff :
    (finish pos l).2 = .hangs ↔ pos.isInside = true ∧ startsBlank l = true := by
  cases pos with
  | between =>
    simp only [finish, Position.isInside]
    split_ifs
    · simp
    · simp
    · cases lastFieldLine l <;> simp
  | inside r f b =>
    simp only [finish, Position.isInside]
    split_ifs with hnil hstart
    · simp [hnil, startsBlank]
    · simp [hstart]
    · cases lastFieldLine l <;> simp [hstart]

lemma finish_ne_overflow (pos : Position) (l : Str) : (finish pos l).2 ≠ .failed .overflow := by
  have hline := lastFieldLine_ne_overflow l
  cases pos with
  | between =>
    rw [finish]
    split_ifs
    · simp
    · simp [notAtBOL]
    · cases h : lastFieldLine l <;> simp_all
  | inside r f b =>
    rw [finish]
    split_ifs
    · simp
    · simp
    · cases h : lastFieldLine l <;> simp_all

/-- Reading hangs at the last line or nowhere, by induction on the lines before it. -/
lemma readLines_hangs_iff (hpos : pos.isInside = !prev.all isblank) (lines : List Str)
    (last : Str) (hcount : ¬OverflowsAfter prev (lines ++ [last])) :
    (readLines pos (lines ++ [last])).2 = .hangs ↔
      (prev :: lines).IsChain Follows ∧ (lines.getLastD prev).all isblank = false ∧
        startsBlank last = true := by
  induction lines generalizing pos prev with
  | nil =>
    rw [List.nil_append, readLines, finish_hangs_iff, hpos]
    simp
  | cons l lines ih =>
    rw [List.cons_append] at hcount ⊢
    rw [readLines_cons l (by simp), List.isChain_cons_cons, List.getLastD_cons]
    by_cases hfollows : Follows prev l
    · obtain ⟨pos', record, hstep, hpos'⟩ := step_follows hpos hfollows
      have hrest := ih hpos' fun h => hcount (h.cons hfollows)
      have hblanks : blankLines (l :: (lines ++ [last])) < 2 ^ 31 :=
        not_le.mp fun h => hcount (overflowsAfter_of_le (List.cons_ne_nil _ _) h)
      rw [and_iff_right hfollows, ← hrest, hstep]
      cases record with
      | none => rfl
      | some record => simp only [if_pos hblanks]
    · obtain ⟨what, hstep⟩ := step_not_follows hpos hfollows
      simp [hstep, hfollows]

/-- The count overflows where there are too many blank lines. Between records those ahead have been
counted already. By induction on the lines. -/
lemma readLines_overflow_iff (hpos : pos.isInside = !prev.all isblank) (ls : List Str)
    (hcount : pos.isInside = false → blankLines ls < 2 ^ 31) :
    (readLines pos ls).2 = .failed .overflow ↔ OverflowsAfter prev ls := by
  induction ls generalizing pos prev with
  | nil =>
    refine iff_of_false (by simp [readLines]) ?_
    rintro ⟨lines, blanks, rest, hsplit, hrest, -⟩
    simp [hrest] at hsplit
  | cons l ls ih =>
    rcases List.eq_nil_or_concat ls with rfl | ⟨ls', l', rfl⟩
    · refine iff_of_false (finish_ne_overflow pos l) fun h => ?_
      obtain ⟨-, lines, blanks, rest, hsplit, hrest, -⟩ := h.tail (by simp [blankLines])
      simp [hrest] at hsplit
    rw [readLines_cons l (by simp)]
    by_cases hfollows : Follows prev l
    · obtain ⟨pos', record, hstep, hpos'⟩ := step_follows hpos hfollows
      by_cases hblanks : blankLines (l :: ls'.concat l') < 2 ^ 31
      · have hrest := ih hpos' fun hbetween => by
          rw [hpos', Bool.not_eq_false'] at hbetween
          rw [blankLines_cons l (by simp), if_pos hbetween] at hblanks
          omega
        have htail : OverflowsAfter prev (l :: ls'.concat l') ↔ OverflowsAfter l (ls'.concat l') :=
          ⟨fun h => (h.tail hblanks).2, fun h => h.cons hfollows⟩
        rw [htail, ← hrest, hstep]
        cases record with
        | none => rfl
        | some record => simp only [if_pos hblanks]
      · refine iff_of_true ?_ (overflowsAfter_of_le (by simp) (not_lt.mp hblanks))
        have hall : l.all isblank = true := by
          by_contra hall
          rw [blankLines_cons l (by simp), if_neg hall] at hblanks
          exact hblanks (by decide)
        cases pos with
        | between => exact absurd (hcount rfl) hblanks
        | inside r f b =>
          rw [step, if_pos hall]
          simp only [if_neg hblanks]
    · obtain ⟨what, hstep⟩ := step_not_follows hpos hfollows
      refine iff_of_false (by simp [hstep]) fun h => hfollows (h.tail ?_).1
      rw [blankLines_cons l (by simp), if_neg fun hall => hfollows (.inl hall)]
      decide

theorem reading_overflow_iff (input : Str) :
    (reading input).2 = .failed .overflow ↔ Overflows input := by
  rw [reading]
  split_ifs with hcount
  · exact readLines_overflow_iff rfl _ fun _ => hcount
  · exact iff_of_true rfl (overflowsAfter_of_le (List.splitOn_ne_nil nl input) (not_lt.mp hcount))

theorem reading_hangs_iff {input : Str} (h : ¬Overflows input) :
    (reading input).2 = .hangs ↔ Hangs input := by
  have hne := List.splitOn_ne_nil nl input
  have hcount : blankLines (input.splitOn nl) < 2 ^ 31 :=
    not_le.mp fun hle => h (overflowsAfter_of_le hne hle)
  have key (lines : List Str) (last : Str) (hsplit : input.splitOn nl = lines ++ [last]) :=
    @readLines_hangs_iff .between [] rfl lines last (hsplit ▸ h)
  rw [reading, if_pos hcount, readFrom]
  constructor
  · intro hhangs
    have hsplit := (List.dropLast_append_getLast hne).symm
    rw [hsplit] at hhangs
    exact ⟨_, _, hsplit, (key _ _ hsplit).mp hhangs⟩
  · rintro ⟨lines, last, hsplit, hhangs⟩
    rw [hsplit]
    exact (key lines last hsplit).mpr hhangs

/-! ### Reading all the records -/

/-- The records of a file: construct a parser, and call `nextRecord` until it returns false or
throws. -/
def readAll (input : Str) : Comp (Except Failure Unit × List Record) :=
  forRecords (fun records record => (.ok (), records ++ [record])) [] input

/-- A reading comes to an end, and no count overflows on the way. -/
def Finishes {σ : Type} (x : Comp (Except Failure Unit × σ)) : Prop :=
  ∃ y, x.Returns y ∧ y.1 ≠ .error .overflow

/-- How a reading ends, if nothing is thrown for a record. -/
def End.outcome : End → Option (Except Failure Unit)
  | .finished => some (.ok ())
  | .failed e => some (.error e)
  | .hangs => none

lemma End.outcome_iff {e : End} :
    (∃ o, e.outcome = some o ∧ o ≠ .error .overflow) ↔ e ≠ .hangs ∧ e ≠ .failed .overflow := by
  cases e <;> simp [outcome]

section Feed

variable {σ : Type} {emit : σ → Record → Except Failure Unit × σ} {I : σ → Prop}
  (hemit : ∀ s record, I s → (emit s record).1 = .ok () ∧ I (emit s record).2)

include hemit

lemma feed_outcome {s : σ} (hs : I s) (records : List Record) (e : End) :
    (feed emit s records e).map Prod.fst = e.outcome := by
  induction records generalizing s with
  | nil => cases e <;> rfl
  | cons record records ih =>
    obtain ⟨hok, hI⟩ := hemit s record hs
    rw [feed]
    rcases hr : emit s record with ⟨_ | _, s'⟩
    · rw [hr] at hok
      cases hok
    · rw [hr] at hI
      exact ih hI

lemma forRecords_finishes_iff {s : σ} (hs : I s) (input : Str) :
    Finishes (forRecords emit s input) ↔ ¬Hangs input ∧ ¬Overflows input := by
  have hfeed := feed_outcome hemit hs (reading input).1 (reading input).2
  have hfinishes : Finishes (forRecords emit s input) ↔
      ∃ o, (reading input).2.outcome = some o ∧ o ≠ .error .overflow := by
    simp only [Finishes, forRecords_denotes emit s input _, ← hfeed, Option.map_eq_some_iff]
    constructor
    · rintro ⟨y, hy, hne⟩
      exact ⟨y.1, ⟨y, hy, rfl⟩, hne⟩
    · rintro ⟨_, ⟨y, hy, rfl⟩, hne⟩
      exact ⟨y, hy, hne⟩
  rw [hfinishes, End.outcome_iff]
  by_cases hoverflow : Overflows input
  · simp [(reading_overflow_iff input).mpr hoverflow, hoverflow]
  · rw [ne_eq, ne_eq, reading_overflow_iff, reading_hangs_iff hoverflow]

end Feed

theorem readAll_finishes_iff (input : Str) :
    Finishes (readAll input) ↔ ¬Hangs input ∧ ¬Overflows input :=
  forRecords_finishes_iff (I := fun _ => True) (fun _ _ _ => ⟨rfl, trivial⟩) trivial input

end Libept.DebDBParser
