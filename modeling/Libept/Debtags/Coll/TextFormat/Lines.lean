import Libept.Debtags.Coll.Fast.Relation
import Libept.Debtags.Coll.TextFormat
import Libept.Lib.Lines

/-!
# Parsing line by line

`parse` handles each line on its own: what has been read of a line never reaches the next one, and
a line changes the collection at its end only. So a file is parsed as its lines one after another,
and an error leaves the collection as the lines before it have made it.
-/

namespace Libept.TextFormat

open Std Fast

/-! ### Elements stay on their line -/

namespace Scan

variable {s s' : Scan} {l : Str}

/-- The separator character is never a newline. -/
lemma sepchar_of_turn (h : s.sepchar ≠ nl) {c : Byte} (hc : c ≠ nl)
    (hturn : s.turn c = .ok (some s')) : s'.sepchar ≠ nl := by
  rw [turn] at hturn
  split at hturn <;> split_ifs at hturn <;> cases hturn <;>
    first | exact h | exact hc | exact (by decide : (0 : Byte) ≠ nl)

/-- Where the scanner stops on a line: in some state at the end of it, or at a character that it
gives back, with a separator and the element before it. -/
inductive Stop where
  | ended (s : Scan)
  | separator (c : Byte) (item rest : Str)

/-- The scanner on the characters of a line. -/
def across (s : Scan) : Str → Except Failure Stop
  | [] => .ok (.ended s)
  | c :: rest =>
    match s.turn c with
    | .error e => .error e
    | .ok none => .ok (.separator s.sepchar s.item (c :: rest))
    | .ok (some s') => across s' rest

lemma run_nl (r : Str) :
    s.run (nl :: r) = if s.sepchar != 0 && s.sepchar != colon then
      thrown "separator character ends the line" else .ok (some nl, s.item, r) := by
  rw [run, if_pos rfl]

/-- A line at the end of the file. -/
lemma run_last (hl : nl ∉ l) :
    s.run l = match s.across l with
      | .error e => .error e
      | .ok (.ended s') => .ok (none, s'.item, [])
      | .ok (.separator c item l') => .ok (some c, item, l') := by
  induction l generalizing s with
  | nil => rfl
  | cons b l ih =>
    have hb : b ≠ nl := fun h => hl (by simp [h])
    rw [run, if_neg hb, across]
    cases s.turn b with
    | error e => rfl
    | ok next =>
      cases next with
      | none => rfl
      | some s' => exact ih fun h => hl (by simp [h])

/-- A line with a newline behind it, whatever follows. -/
lemma run_line (hl : nl ∉ l) (r : Str) :
    s.run (l ++ nl :: r) = match s.across l with
      | .error e => .error e
      | .ok (.ended s') => s'.run (nl :: r)
      | .ok (.separator c item l') => .ok (some c, item, l' ++ nl :: r) := by
  induction l generalizing s with
  | nil => rfl
  | cons b l ih =>
    have hb : b ≠ nl := fun h => hl (by simp [h])
    rw [List.cons_append, run, if_neg hb, across]
    cases s.turn b with
    | error e => rfl
    | ok next =>
      cases next with
      | none => rfl
      | some s' => exact ih fun h => hl (by simp [h])

/-- What is given back is a part of the line. -/
lemma separator_of_across (hl : nl ∉ l) (hs : s.sepchar ≠ nl) {c : Byte} {item l' : Str}
    (h : s.across l = .ok (.separator c item l')) : c ≠ nl ∧ nl ∉ l' := by
  induction l generalizing s with
  | nil => cases h
  | cons b l ih =>
    have hb : b ≠ nl := fun h => hl (by simp [h])
    rw [across] at h
    cases hturn : s.turn b with
    | error e =>
      rw [hturn] at h
      cases h
    | ok next =>
      rw [hturn] at h
      cases next with
      | none =>
        cases h
        exact ⟨hs, hl⟩
      | some s' => exact ih (fun h => hl (by simp [h])) (sepchar_of_turn hs hb hturn) h

/-- Behind a separator a shorter part of the line is left. -/
lemma separator_of_start (hl : nl ∉ l) {c : Byte} {item l' : Str}
    (h : start.across l = .ok (.separator c item l')) :
    c ≠ nl ∧ nl ∉ l' ∧ l'.length < l.length := by
  obtain ⟨hc, hl'⟩ := separator_of_across hl (by decide) h
  have hrest := run_last (s := start) hl
  rw [h] at hrest
  exact ⟨hc, hl', length_of_parseElement hrest⟩

end Scan

/-! ### One line -/

/-- What is read of one line, up to its end: the sets of its items and of its tags. -/
def readLine (input : Str) (line : Line) : Except Failure Line :=
  match _h : parseElement input with
  | .error e => .error e
  | .ok (none, item, _) => .ok (line.add item)
  | .ok (some sep, item, rest) =>
    let line := line.add item
    if sep = nl then .ok line
    else if sep = colon then
      if line.inTags then thrown "separator ':' appears twice"
      else readLine rest { line with inTags := true }
    else readLine rest line
termination_by input.length
decreasing_by all_goals exact length_of_parseElement ‹_›

lemma readLine_eq (input : Str) (line : Line) :
    readLine input line = match parseElement input with
      | .error e => .error e
      | .ok (none, item, _) => .ok (line.add item)
      | .ok (some sep, item, rest) =>
        if sep = nl then .ok (line.add item)
        else if sep = colon then
          if (line.add item).inTags then thrown "separator ':' appears twice"
          else readLine rest { line.add item with inTags := true }
        else readLine rest (line.add item) := by
  rw [readLine]
  split <;> rename_i h <;> rw [h]

lemma parseLoop_eq (input : Str) (line : Line) (out : Fast) :
    parseLoop input line out = match parseElement input with
      | .error e => (.error e, out)
      | .ok (none, item, _) => (line.add item).finish out
      | .ok (some sep, item, rest) =>
        if sep = nl then
          match (line.add item).finish out with
          | (.error e, out) => (.error e, out)
          | (.ok (), out) => parseLoop rest Line.start out
        else if sep = colon then
          if (line.add item).inTags then (thrown "separator ':' appears twice", out)
          else parseLoop rest { line.add item with inTags := true } out
        else parseLoop rest (line.add item) out := by
  rw [parseLoop]
  split <;> rename_i h <;> exact h ▸ rfl

/-- A line at the end of the file: its sets are collected, and stored at its end. -/
lemma parseLoop_last {l : Str} (hl : nl ∉ l) (line : Line) (out : Fast) :
    parseLoop l line out = match readLine l line with
      | .error e => (.error e, out)
      | .ok line => line.finish out := by
  induction h : l.length using Nat.strong_induction_on generalizing l line with
  | _ n ih =>
    subst h
    rw [parseLoop_eq, readLine_eq, parseElement, Scan.run_last hl]
    cases hstop : Scan.start.across l with
    | error e => rfl
    | ok stop =>
      cases stop with
      | ended s => rfl
      | separator c item l' =>
        obtain ⟨hc, hl', hlen⟩ := Scan.separator_of_start hl hstop
        simp only [if_neg hc]
        split_ifs
        · rfl
        · exact ih _ hlen hl' _ rfl
        · exact ih _ hlen hl' _ rfl

/-- A line that ends with a newline: then the rest of the file is parsed from a fresh state. -/
lemma parseLoop_line {l : Str} (hl : nl ∉ l) (r : Str) (line : Line) (out : Fast) :
    parseLoop (l ++ nl :: r) line out = match readLine (l ++ [nl]) line with
      | .error e => (.error e, out)
      | .ok line => match line.finish out with
        | (.error e, out) => (.error e, out)
        | (.ok (), out) => parse r out := by
  induction h : l.length using Nat.strong_induction_on generalizing l line with
  | _ n ih =>
    subst h
    rw [parseLoop_eq, readLine_eq, parseElement, parseElement, Scan.run_line hl,
      Scan.run_line hl]
    cases hstop : Scan.start.across l with
    | error e => rfl
    | ok stop =>
      cases stop with
      | ended s =>
        simp only [Scan.run_nl]
        split_ifs <;> rfl
      | separator c item l' =>
        obtain ⟨hc, hl', hlen⟩ := Scan.separator_of_start hl hstop
        simp only [if_neg hc]
        split_ifs
        · rfl
        · exact ih _ hlen hl' _ rfl
        · exact ih _ hlen hl' _ rfl

/-! ### The end of a line -/

/-- A line that is stored adds the pairs of its sets. -/
lemma Line.finish_eq {line : Line} {out out' : Fast} (h : line.finish out = (.ok (), out')) :
    out' = out.insert line.itemset line.tagset := by
  rw [finish] at h
  split_ifs at h with hempty hitems htags
  · cases h
  · obtain rfl := (Prod.mk.inj h).2
    rw [ExtTreeSet.isEmpty_iff] at htags
    rw [htags]
  · exact (Prod.mk.inj h).2.symm
  · obtain rfl := (Prod.mk.inj h).2
    have htags : line.tagset.isEmpty = true := by
      simp only [Bool.not_eq_true', Bool.not_eq_false, Bool.and_eq_true] at hempty
      exact hempty.2
    rw [Fast.insert, if_pos htags]

lemma Line.finish_error {line : Line} {out out' : Fast} {e : Failure}
    (h : line.finish out = (.error e, out')) : out' = out := by
  rw [finish] at h
  split_ifs at h <;> cases h
  rfl

/-- The pairs of an item and a tag on a line. -/
def LinePairs (l : Str) (i t : Str) : Prop :=
  ∃ line, readLine l Line.start = .ok line ∧ i ∈ line.itemset ∧ t ∈ line.tagset

lemma parse_nil (out : Fast) : parse [] out = (.ok (), out) := by
  rw [parse, parseLoop_eq]
  rfl

/-! ### Files -/

/-- A line, with the newline behind it or at the end of the file. -/
def IsLine (s : Str) : Prop := ∃ l, nl ∉ l ∧ (s = l ∨ s = l ++ [nl])

/-- What is done with a line: nothing but adding the pairs on it, and an error leaves the
collection as it was. -/
lemma finish_cases (input : Str) (out : Fast) :
    (∃ e, (match readLine input Line.start with
        | .error e => (.error e, out)
        | .ok line => line.finish out) = (.error e, out)) ∨
      ∃ out', (match readLine input Line.start with
        | .error e => (.error e, out)
        | .ok line => line.finish out) = (.ok (), out') ∧ Adds out out' (LinePairs input) := by
  unfold LinePairs
  cases readLine input Line.start with
  | error e => exact .inl ⟨e, rfl⟩
  | ok line =>
    rcases h : line.finish out with ⟨e | _, out'⟩
    · obtain rfl := Line.finish_error h
      exact .inl ⟨e, h⟩
    · refine .inr ⟨out', h, ?_⟩
      obtain rfl := Line.finish_eq h
      exact (adds_insert out line.itemset line.tagset).congr fun i t => by simp

lemma parse_whole_line {l : Str} (hl : nl ∉ l) (out : Fast) :
    parse (l ++ [nl]) out = match readLine (l ++ [nl]) Line.start with
      | .error e => (.error e, out)
      | .ok line => line.finish out := by
  rw [parse, parseLoop_line hl]
  cases readLine (l ++ [nl]) Line.start with
  | error e => rfl
  | ok line =>
    simp only [parse_nil]
    rcases line.finish out with ⟨e | _, out'⟩ <;> rfl

lemma parse_of_isLine {s : Str} (hs : IsLine s) (out : Fast) :
    (∃ e, parse s out = (.error e, out)) ∨
      ∃ out', parse s out = (.ok (), out') ∧ Adds out out' (LinePairs s) := by
  obtain ⟨l, hl, rfl | rfl⟩ := hs
  · rw [parse, parseLoop_last hl]
    exact finish_cases _ out
  · rw [parse_whole_line hl]
    exact finish_cases _ out

/-- The first line of a file, and then the rest. -/
lemma parse_line {l : Str} (hl : nl ∉ l) (r : Str) (out : Fast) :
    parse (l ++ nl :: r) out = match parse (l ++ [nl]) out with
      | (.error e, out) => (.error e, out)
      | (.ok (), out) => parse r out := by
  rw [parse_whole_line hl, parse, parseLoop_line hl]
  cases readLine (l ++ [nl]) Line.start <;> rfl

/-- A file of whole lines, and then any other file. -/
lemma parse_append {a : Str} (ha : a = [] ∨ a.getLast? = some nl) (b : Str) (out : Fast) :
    parse (a ++ b) out = match parse a out with
      | (.error e, out) => (.error e, out)
      | (.ok (), out) => parse b out := by
  induction a using Lines.induction nl generalizing out with
  | last l hl =>
    rcases ha with rfl | ha
    · rw [parse_nil]
      rfl
    · exact absurd (List.mem_of_getLast? ha) hl
  | line l r hl ih =>
    have hr : r = [] ∨ r.getLast? = some nl := by
      rcases r with _ | ⟨c, r⟩
      · exact .inl rfl
      · refine .inr ?_
        simpa [List.getLast?_append] using ha
    rw [List.append_assoc, List.cons_append, parse_line hl, parse_line hl r]
    rcases parse (l ++ [nl]) out with ⟨e | _, out'⟩
    · rfl
    · exact ih hr out'

/-- Lines with the newline behind each. -/
def wholeLines (lines : List Str) : Str := (lines.map (· ++ [nl])).flatten

/-- When parsing throws, some line throws, and the lines before it have added their pairs. By
induction on the lines. -/
lemma parse_error {s : Str} {out out' : Fast} {e : Failure} (h : parse s out = (.error e, out')) :
    ∃ (lines : List Str) (l rest : Str), s = wholeLines lines ++ l ++ rest ∧
      (∀ x ∈ lines, nl ∉ x) ∧ IsLine l ∧ parse (wholeLines lines) out = (.ok (), out') ∧
      parse l out' = (.error e, out') ∧
      Adds out out' fun i t => ∃ x ∈ lines, LinePairs (x ++ [nl]) i t := by
  induction s using Lines.induction nl generalizing out with
  | last l hl =>
    have hline : IsLine l := ⟨l, hl, .inl rfl⟩
    rcases parse_of_isLine hline out with ⟨e', he'⟩ | ⟨out'', hok, -⟩
    · rw [he'] at h
      cases h
      exact ⟨[], l, [], by simp [wholeLines], by simp, hline, parse_nil _, he',
        (Adds.refl _).congr fun i t => by simp⟩
    · rw [hok] at h
      cases h
  | line l r hl ih =>
    have hline : IsLine (l ++ [nl]) := ⟨l, hl, .inr rfl⟩
    rw [parse_line hl] at h
    rcases parse_of_isLine hline out with ⟨e', he'⟩ | ⟨out₁, hok, hadds⟩
    · rw [he'] at h
      cases h
      exact ⟨[], l ++ [nl], r, by simp [wholeLines], by simp, hline, parse_nil _, he',
        (Adds.refl _).congr fun i t => by simp⟩
    · rw [hok] at h
      obtain ⟨lines, l', rest, rfl, hlines, hl', hprefix, herror, hpairs⟩ := ih h
      refine ⟨l :: lines, l', rest, ?_, ?_, hl', ?_, herror, ?_⟩
      · simp [wholeLines]
      · simpa using ⟨hl, hlines⟩
      · have hsplit : wholeLines (l :: lines) = l ++ nl :: wholeLines lines := by simp [wholeLines]
        rw [hsplit, parse_line hl, hok]
        exact hprefix
      · exact (hadds.trans hpairs).congr fun i t => by simp

/-- Parsing is compositional over lines. A line that throws leaves the collection unchanged. When
a file throws, a line of it does, and the collection is the earlier one and exactly the pairs of
the lines before. -/
theorem parse_by_lines :
    (∀ (a b : Str) (out : Fast), a = [] ∨ a.getLast? = some nl →
      parse (a ++ b) out = match parse a out with
        | (.error e, out) => (.error e, out)
        | (.ok (), out) => parse b out) ∧
      (∀ (s : Str) (out out' : Fast) (e : Failure), IsLine s → parse s out = (.error e, out') →
        out' = out) ∧
      ∀ (s : Str) (out out' : Fast) (e : Failure), parse s out = (.error e, out') →
        ∃ (lines : List Str) (l rest : Str), s = wholeLines lines ++ l ++ rest ∧
          (∀ x ∈ lines, nl ∉ x) ∧ IsLine l ∧ parse (wholeLines lines) out = (.ok (), out') ∧
          parse l out' = (.error e, out') ∧
          Adds out out' fun i t => ∃ x ∈ lines, LinePairs (x ++ [nl]) i t := by
  refine ⟨fun a b out ha => parse_append ha b out, fun s out out' e hs h => ?_,
    fun s out out' e h => parse_error h⟩
  rcases parse_of_isLine hs out with ⟨e', he'⟩ | ⟨out'', hok, -⟩
  · rw [he'] at h
    exact (Prod.mk.inj h).2.symm
  · rw [hok] at h
    cases h

theorem parse_by_lines_sample :
    (parse (str "a: t\n" ++ str ",") Fast.empty = match parse (str "a: t\n") Fast.empty with
      | (.error e, out) => (.error e, out)
      | (.ok (), out) => parse (str ",") out) ∧
      ∃ lines l rest, str "," = wholeLines lines ++ l ++ rest ∧ IsLine l := by
  have hthrow : parse (str ",") Fast.empty =
      (thrown "element cannot start with a separation character", Fast.empty) := by
    rw [parse, parseLoop_eq]
    rfl
  obtain ⟨lines, l, rest, hs, -, hl, -⟩ := parse_by_lines.2.2 (str ",") _ _ _ hthrow
  exact ⟨parse_by_lines.1 _ _ _ (.inr (by decide)), lines, l, rest, hs, hl⟩

end Libept.TextFormat
