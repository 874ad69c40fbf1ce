import Libept.Debtags.Maint.DebDBParser.Termination

/-!
# Files after each other

An empty line ends whatever record a file was in. So a file that is read to its end, two newlines
and another file are read as the one file and then the other, as long as an `int` can count the
blank lines where they meet.
-/

namespace Libept.DebDBParser

variable {pos : Position} {prev l input input' : Str} {ls ls' bs : List Str} {records : List Record}

/-! ### Blank lines where two files meet -/

/-- The number of blank lines at the end of the given ones. -/
def blankEnd (ls : List Str) : ℕ := (ls.rtakeWhile (·.all isblank)).length

/-- Two newlines between the files make one more blank line between those at the end of the first
file and those at the beginning of the second one, and an `int` can count them. -/
def Fits (input input' : Str) : Prop :=
  blankEnd (input.splitOn nl) + 1 + blankLines (input'.splitOn nl) < 2 ^ 31

instance (input input' : Str) : Decidable (Fits input input') := inferInstanceAs (Decidable (_ < _))

lemma rtakeWhile_cons (p : Str → Bool) (l : Str) (ls : List Str) :
    (ls.rtakeWhile p).length ≤ ((l :: ls).rtakeWhile p).length := by
  rw [List.rtakeWhile, List.rtakeWhile, List.reverse_cons, List.takeWhile_append]
  split_ifs with h
  · simp only [List.length_reverse, List.length_append, h]
    omega
  · exact le_refl _

lemma blankEnd_of_all (h : ∀ l ∈ ls, l.all isblank = true) : blankEnd ls = ls.length := by
  rw [blankEnd, List.rtakeWhile_eq_self_iff.mpr h]

/-- With more lines behind them, the blank lines at the beginning stay the same if other lines
come after them. -/
lemma blankLines_append (hbs : bs ≠ []) :
    blankLines (ls ++ [] :: bs) =
      if ∀ l ∈ ls, l.all isblank = true then ls.length + 1 + blankLines bs else blankLines ls := by
  induction ls with
  | nil =>
    rw [List.nil_append, blankLines_cons [] hbs]
    simp [Nat.add_comm]
  | cons l ls ih =>
    rw [List.cons_append, blankLines_cons l (by simp), ih]
    simp only [List.forall_mem_cons]
    by_cases hall : l.all isblank = true
    · rw [if_pos hall]
      by_cases hrest : ∀ l ∈ ls, l.all isblank = true
      · rw [if_pos hrest, if_pos ⟨hall, hrest⟩, List.length_cons]
        omega
      · have hne : ls ≠ [] := by
          rintro rfl
          exact hrest (by simp)
        rw [if_neg hrest, if_neg fun h => hrest h.2, blankLines_cons l hne, if_pos hall]
    · rw [if_neg hall, if_neg fun h => hall h.1]
      rcases ls with _ | ⟨l', ls⟩
      · rfl
      · rw [blankLines, if_neg hall]

lemma OverflowsAfter.append (hchain : (prev :: ls).IsChain Follows)
    (h : OverflowsAfter (ls.getLastD prev) ls') : OverflowsAfter prev (ls ++ ls') := by
  induction ls generalizing prev with
  | nil => exact h
  | cons l ls ih =>
    obtain ⟨hfollows, hchain⟩ := List.isChain_cons_cons.mp hchain
    rw [List.getLastD_cons] at h
    exact (ih hchain h).cons hfollows

/-- More blank lines than can be counted, from the beginning of a file on in which nothing
overflows, go on to its end. -/
lemma meets_of_le (hbs : bs ≠ []) (hls : ¬OverflowsAfter prev ls)
    (h : 2 ^ 31 ≤ blankLines (ls ++ [] :: bs)) : 2 ^ 31 ≤ blankEnd ls + 1 + blankLines bs := by
  rw [blankLines_append hbs] at h
  split_ifs at h with hall
  · rwa [blankEnd_of_all hall]
  · have hne : ls ≠ [] := by
      rintro rfl
      exact hall (by simp)
    exact absurd (overflowsAfter_of_le hne h) hls

/-- By induction on the lines of the first file. -/
lemma meets_of_overflowsAfter (hbs : bs ≠ []) (hls : ¬OverflowsAfter prev ls)
    (h : OverflowsAfter prev (ls ++ [] :: bs)) :
    2 ^ 31 ≤ blankEnd ls + 1 + blankLines bs ∨ OverflowsAfter [] bs := by
  by_cases hcount : blankLines (ls ++ [] :: bs) < 2 ^ 31
  · induction ls generalizing prev with
    | nil => exact .inr (h.tail hcount).2
    | cons l ls ih =>
      obtain ⟨hfollows, htail⟩ := OverflowsAfter.tail h hcount
      have hls' : ¬OverflowsAfter l ls := fun hls' => hls (hls'.cons hfollows)
      have hmono : blankEnd ls ≤ blankEnd (l :: ls) := rtakeWhile_cons _ l ls
      by_cases hcount' : blankLines (ls ++ [] :: bs) < 2 ^ 31
      · exact (ih hls' htail hcount').imp_left fun hle => by omega
      · have hle := meets_of_le hbs hls' (not_lt.mp hcount')
        exact .inl (by omega)
  · exact .inl (meets_of_le hbs hls (not_lt.mp hcount))

lemma overflowsAfter_of_meets (hbs : bs ≠ []) (hchain : (prev :: ls).IsChain Follows)
    (h : 2 ^ 31 ≤ blankEnd ls + 1 + blankLines bs) : OverflowsAfter prev (ls ++ [] :: bs) := by
  have hsplit : ls.rdropWhile (·.all isblank) ++ ls.rtakeWhile (·.all isblank) = ls :=
    List.rdropWhile_append_rtakeWhile
  have hblank (l : Str) (hl : l ∈ ls.rtakeWhile (·.all isblank)) : l.all isblank = true :=
    List.mem_rtakeWhile_imp (p := fun l : Str => l.all isblank) hl
  rw [← hsplit, List.append_assoc]
  rw [← hsplit, ← List.cons_append] at hchain
  apply OverflowsAfter.append hchain.left_of_append
  apply overflowsAfter_of_le (by simp)
  rw [blankLines_append hbs, if_pos hblank]
  exact h

/-! ### Readings -/

/-- A blank line ends the record that there is. -/
lemma readLines_blank (hall : l.all isblank = true) (hne : ls ≠ [])
    (hcount : blankLines (l :: ls) < 2 ^ 31) :
    readLines pos (l :: ls) =
      (pos.records ++ (readLines .between ls).1, (readLines .between ls).2) := by
  rw [readLines_cons l hne, step_blank hall]
  cases pos with
  | between => rfl
  | inside record field body => exact if_pos hcount

lemma splitOn_newline (input : Str) : (nl :: input).splitOn nl = [] :: input.splitOn nl :=
  List.splitOn_append_cons_self_of_not_mem (List.not_mem_nil (a := nl)) input

lemma readFrom_newline (r : Str) (hcount : newlines (nl :: r) < 2 ^ 31) :
    readFrom pos (nl :: r) =
      (pos.records ++ (readFrom .between r).1, (readFrom .between r).2) := by
  rw [← blankLines_splitOn, splitOn_newline] at hcount
  rw [readFrom, splitOn_newline]
  exact readLines_blank rfl (List.splitOn_ne_nil nl r) hcount

lemma follows_of_finish (h : (finish pos l).2 = .finished) : Follows prev l := by
  have hfinish : finish pos l = ((finish pos l).1, .finished) := Prod.ext rfl h
  rcases finish_finished hfinish with ⟨hall, -⟩ | ⟨-, hstart, a, hline, -⟩
  · exact .inl hall
  · right
    rw [if_neg (by simp [hstart])]
    by_contra hnot
    obtain ⟨c, hc⟩ := fieldLine_not_isFieldLine (Bool.not_eq_true _ ▸ hnot)
    rw [hc] at hline
    cases hline

/-- A reading that comes to its end meets no error on its way. -/
lemma isChain_of_finished (hpos : pos.isInside = !prev.all isblank)
    (h : (readLines pos ls).2 = .finished) : (prev :: ls).IsChain Follows := by
  induction ls generalizing pos prev with
  | nil => exact .singleton prev
  | cons l ls ih =>
    rcases eq_or_ne ls [] with rfl | hls
    · exact .cons_cons (follows_of_finish h) (.singleton l)
    · rw [readLines_cons l hls] at h
      by_cases hfollows : Follows prev l
      · refine .cons_cons hfollows ?_
        obtain ⟨pos', record, hstep, hpos'⟩ := step_follows hpos hfollows
        rw [hstep] at h
        cases record with
        | none => exact ih hpos' h
        | some record =>
          simp only [] at h
          split_ifs at h
          exact ih hpos' h
      · obtain ⟨what, hstep⟩ := step_not_follows hpos hfollows
        rw [hstep] at h
        cases h

/-- The lines of a file that is read to its end, an empty line, and the lines of another file. By
induction on the lines of the first file, in which nothing overflows. -/
lemma readLines_append (hbs : bs ≠ []) (hpos : pos.isInside = !prev.all isblank) (hls : ls ≠ [])
    (h : readLines pos ls = (records, .finished)) (hcount : ¬OverflowsAfter prev ls)
    (hfits : blankEnd ls + 1 + blankLines bs < 2 ^ 31) :
    readLines pos (ls ++ [] :: bs) =
      (records ++ (readLines .between bs).1, (readLines .between bs).2) := by
  induction ls generalizing pos prev records with
  | nil => exact absurd rfl hls
  | cons l ls ih =>
    have hchain := isChain_of_finished hpos (congrArg Prod.snd h)
    have hfollows := (List.isChain_cons_cons.mp hchain).1
    have hmono : blankEnd ls ≤ blankEnd (l :: ls) := rtakeWhile_cons _ l ls
    have hblanks : blankLines (l :: (ls ++ [] :: bs)) < 2 ^ 31 :=
      not_le.mp fun hle => absurd hfits (not_lt.mpr (meets_of_le hbs hcount hle))
    rcases eq_or_ne ls [] with rfl | hne
    · have hnewline (pos : Position) := @readLines_blank pos [] bs rfl hbs
        (by rw [blankLines_cons [] hbs, if_pos (by rfl)]; omega)
      rw [List.nil_append] at hblanks
      rw [List.singleton_append]
      rcases finish_finished h with ⟨hall, rfl⟩ | ⟨hall, hstart, a, hline, rfl⟩
      · rw [readLines_blank hall (by simp) hblanks, hnewline]
        rfl
      · rw [readLines_cons l (by simp), step_of_field hall hstart, hline]
        exact hnewline _
    · obtain ⟨pos', record, hstep, hpos'⟩ := step_follows hpos hfollows
      have hcount' : ¬OverflowsAfter l ls := fun hls' => hcount (hls'.cons hfollows)
      rw [readLines_cons l hne, hstep] at h
      rw [List.cons_append, readLines_cons l (by simp), hstep]
      cases record with
      | none => exact ih hpos' hne h hcount' (by omega)
      | some record =>
        simp only [] at h ⊢
        split_ifs at h
        · obtain ⟨rfl, hend⟩ := Prod.mk.inj h
          rw [if_pos hblanks, ih hpos' hne (Prod.ext rfl hend) hcount' (by omega)]
          rfl
        · cases (Prod.mk.inj h).2

/-! ### Files -/

lemma blankLines_lt (h : ¬Overflows input) : blankLines (input.splitOn nl) < 2 ^ 31 :=
  not_le.mp fun hle => h (overflowsAfter_of_le (List.splitOn_ne_nil nl input) hle)

lemma not_overflows_of_finished (h : (reading input).2 = .finished) : ¬Overflows input := by
  rw [← reading_overflow_iff, h]
  simp

lemma splitOn_newlines (input input' : Str) :
    (input ++ nl :: nl :: input').splitOn nl = input.splitOn nl ++ [] :: input'.splitOn nl := by
  rw [List.splitOn_append_cons_self, splitOn_newline]

/-- Behind a file that is read to its end, the count overflows where the files meet, or in the
second file. -/
theorem overflows_append_iff (h : (reading input).2 = .finished) (input' : Str) :
    Overflows (input ++ nl :: nl :: input') ↔ ¬Fits input input' ∨ Overflows input' := by
  have hcount := not_overflows_of_finished h
  have hbs := List.splitOn_ne_nil nl input'
  rw [reading, if_pos (blankLines_lt hcount)] at h
  have hchain := @isChain_of_finished .between [] _ rfl h
  rw [Overflows, splitOn_newlines, Fits, not_lt]
  refine ⟨meets_of_overflowsAfter hbs hcount, ?_⟩
  rintro (hmeets | hrest)
  · exact overflowsAfter_of_meets hbs hchain hmeets
  · exact OverflowsAfter.append hchain (hrest.cons (.inl rfl))

theorem reading_append (h : reading input = (records, .finished)) (hfits : Fits input input') :
    reading (input ++ nl :: nl :: input') =
      (records ++ (reading input').1, (reading input').2) := by
  have hcount := not_overflows_of_finished (congrArg Prod.snd h)
  have hne := List.splitOn_ne_nil nl input
  have hbs := List.splitOn_ne_nil nl input'
  have hfits' : blankEnd (input.splitOn nl) + 1 + blankLines (input'.splitOn nl) < 2 ^ 31 := hfits
  rw [reading, if_pos (blankLines_lt hcount)] at h
  rw [reading, splitOn_newlines, if_pos, reading, if_pos (by omega), readFrom, splitOn_newlines]
  · exact @readLines_append .between [] _ _ _ hbs rfl hne h hcount hfits'
  · exact not_le.mp fun hle => absurd hfits' (not_lt.mpr (meets_of_le hbs hcount hle))

section Feed

variable {σ : Type} {emit : σ → Record → Except Failure Unit × σ} {s s' : σ}
  {records : List Record} {e : End}

/-- Only a reading to the end of the file returns normally. -/
lemma feed_returns (h : feed emit s records e = some (.ok (), s')) : e = .finished := by
  induction records generalizing s with
  | nil => cases e <;> first | rfl | cases h
  | cons record records ih =>
    rw [feed] at h
    rcases hr : emit s record with ⟨_ | _, s₁⟩
    · rw [hr] at h
      cases h
    · rw [hr] at h
      exact ih h

lemma feed_append (h : feed emit s records .finished = some (.ok (), s')) (records' : List Record) :
    feed emit s (records ++ records') e = feed emit s' records' e := by
  induction records generalizing s with
  | nil =>
    obtain rfl : s = s' := congrArg Prod.snd (Option.some.inj h)
    rfl
  | cons record records ih =>
    rw [List.cons_append, feed]
    rw [feed] at h
    rcases hr : emit s record with ⟨_ | _, s₁⟩
    · rw [hr] at h
      cases h
    · rw [hr] at h
      exact ih h

end Feed

end Libept.DebDBParser
