import Libept.Debtags.Maint.DebDBParser
import Libept.Lib.Lines

/-!
# Reading a file line by line

What the parser makes of a file, said in terms of its lines: a reading stands between two records
or inside one, every line moves it on, and it ends with the last line, which has no newline. The
result is the list of the records, in order, and how the reading ends. The blank lines between two
records are counted before the first of them is given, and the count may overflow.
-/

namespace Libept.DebDBParser

/-! ### Lines -/

def startsBlank (l : Str) : Bool := l.head?.any isblank

def trim (l : Str) : Str := (l.dropWhile isblank).rdropWhile isblank

/-- The text of a continuation line: a dot stands for an empty line. -/
def contText (l : Str) : Str := if trim l = [dot] then [] else trim l

def notAtBOL : Failure := .runtimeError (str "field must start at the beginning of the line")

def invalidCharacter (c : Byte) : Failure :=
  .runtimeError (str "invalid character `" ++ [c] ++ str "' expecting `:'")

/-- The name and the body on a line that starts a field. -/
def fieldLine (l : Str) : Except Failure (Str × Str) :=
  match (l.dropWhile isNameChar).dropWhile isblank with
  | [] => .error (invalidCharacter nl)
  | c :: rest =>
    if c != colon then .error (invalidCharacter c) else .ok (l.takeWhile isNameChar, trim rest)

/-- The same on the last line, where the file ends instead of the line. -/
def lastFieldLine (l : Str) : Except Failure (Str × Str) :=
  if l.dropWhile isNameChar = [] then
    .error (.runtimeError
      (str "field is truncated at end of file.  Last line begins with: \"" ++ l ++ [nl]))
  else if (l.dropWhile isNameChar).dropWhile isblank = [] then
    .error (.runtimeError (str "field is truncated at end of file"))
  else fieldLine l

/-! ### Readings -/

/-- Where a reading stands at the start of a line. -/
inductive Position where
  | between
  | inside (record : Record) (field body : Str)

inductive End where
  | finished
  | failed (e : Failure)
  | hangs
  deriving DecidableEq

/-- Read a line that ends with a newline: the next position, and the record that ends here. -/
def step : Position → Str → Except Failure (Position × Option Record)
  | .between, l =>
    if l.all isblank then .ok (.between, none)
    else if startsBlank l then .error notAtBOL
    else (fieldLine l).map fun (field, body) => (.inside ∅ field body, none)
  | .inside record field body, l =>
    if l.all isblank then .ok (.between, some (record.insertIfNew field body))
    else if startsBlank l then .ok (.inside record field (body ++ nl :: contText l), none)
    else (fieldLine l).map fun (field', body') =>
      (.inside (record.insertIfNew field body) field' body', none)

/-- Read the last line. -/
def finish : Position → Str → List Record × End
  | .between, l =>
    if l.all isblank then ([], .finished)
    else if startsBlank l then ([], .failed notAtBOL)
    else match lastFieldLine l with
      | .error e => ([], .failed e)
      | .ok (field, body) => ([(∅ : Record).insertIfNew field body], .finished)
  | .inside record field body, l =>
    if l = [] then ([record.insertIfNew field body], .finished)
    else if startsBlank l then ([], .hangs)
    else match lastFieldLine l with
      | .error e => ([], .failed e)
      | .ok (field', body') =>
        ([(record.insertIfNew field body).insertIfNew field' body'], .finished)

/-- The number of blank lines at the beginning of the given lines, of which the last one has no
newline and does not count. -/
def blankLines : List Str → ℕ
  | l :: l' :: ls => if l.all isblank then blankLines (l' :: ls) + 1 else 0
  | _ => 0

/-- The records on the given lines, and the end of their reading. -/
def readLines (pos : Position) : List Str → List Record × End
  | [] => ([], .finished)
  | [l] => finish pos l
  | l :: l' :: ls =>
    match step pos l with
    | .error e => ([], .failed e)
    | .ok (pos', none) => readLines pos' (l' :: ls)
    | .ok (pos', some record) =>
      -- the record is there when all the blank lines behind it have been counted
      if blankLines (l :: l' :: ls) < 2 ^ 31 then
        (record :: (readLines pos' (l' :: ls)).1, (readLines pos' (l' :: ls)).2)
      else ([], .failed .overflow)

/-- A reading from the given position on. Between records, the blank lines ahead have been
counted. -/
def readFrom (pos : Position) (s : Str) : List Record × End := readLines pos (s.splitOn nl)

/-- A reading of a whole file. -/
def reading (input : Str) : List Record × End :=
  if blankLines (input.splitOn nl) < 2 ^ 31 then readFrom .between input
  else ([], .failed .overflow)

/-- Do something with each record, until it fails. There is no result if the reading hangs. -/
def feed {σ : Type} (body : σ → Record → Except Failure Unit × σ) (s : σ) :
    List Record → End → Option (Except Failure Unit × σ)
  | [], .finished => some (.ok (), s)
  | [], .failed e => some (.error e, s)
  | [], .hangs => none
  | record :: records, e =>
    match body s record with
    | (.error e', s') => some (.error e', s')
    | (.ok (), s') => feed body s' records e

/-! ### Rules -/

/-- What has been read of a record, with the field that is being read. -/
def Position.record : Position → Record
  | .between => ∅
  | .inside record field body => record.insertIfNew field body

/-- The record that an empty line ends. -/
def Position.records : Position → List Record
  | .between => []
  | .inside record field body => [record.insertIfNew field body]

variable {pos pos' : Position} {l : Str}

/-- A field that the file ends is the field that a newline ends. -/
lemma fieldLine_of_lastFieldLine {a : Str × Str} (h : lastFieldLine l = .ok a) :
    fieldLine l = .ok a := by
  rw [lastFieldLine] at h
  split_ifs at h
  exact h

/-- A line that starts a field does so wherever the reading stands. -/
lemma step_of_field (hall : l.all isblank = false) (hstart : startsBlank l = false) :
    step pos l = (fieldLine l).map fun (field, body) => (.inside pos.record field body, none) := by
  cases pos <;> rw [step, if_neg (by simp [hall]), if_neg (by simp [hstart])] <;> rfl

/-- A blank line ends the record that there is. -/
lemma step_blank (hall : l.all isblank = true) :
    step pos l = .ok (.between, pos.records.head?) := by
  cases pos <;> rw [step, if_pos hall] <;> rfl

lemma not_all_of_not_startsBlank (hne : l ≠ []) (hstart : startsBlank l = false) :
    l.all isblank = false := by
  obtain ⟨c, l', rfl⟩ := List.exists_cons_of_ne_nil hne
  rw [startsBlank, List.head?_cons, Option.any_some] at hstart
  rw [List.all_cons, hstart, Bool.false_and]

/-- The last line of a file that is read to its end is blank, or starts a field. -/
lemma finish_finished {records : List Record} (h : finish pos l = (records, .finished)) :
    (l.all isblank = true ∧ records = pos.records) ∨
      l.all isblank = false ∧ startsBlank l = false ∧
        ∃ a, fieldLine l = .ok a ∧ records = [pos.record.insertIfNew a.1 a.2] := by
  cases pos with
  | between =>
    rw [finish] at h
    split_ifs at h with hall hstart
    · exact .inl ⟨hall, (Prod.mk.inj h).1.symm⟩
    · cases (Prod.mk.inj h).2
    · rw [Bool.not_eq_true] at hall hstart
      cases hline : lastFieldLine l with
      | error e => simp [hline] at h
      | ok a =>
        rw [hline] at h
        exact .inr ⟨hall, hstart, a, fieldLine_of_lastFieldLine hline, (Prod.mk.inj h).1.symm⟩
  | inside record field body =>
    rw [finish] at h
    split_ifs at h with hnil hstart
    · exact .inl ⟨by simp [hnil], (Prod.mk.inj h).1.symm⟩
    · cases (Prod.mk.inj h).2
    · rw [Bool.not_eq_true] at hstart
      have hall := not_all_of_not_startsBlank hnil hstart
      cases hline : lastFieldLine l with
      | error e => simp [hline] at h
      | ok a =>
        rw [hline] at h
        exact .inr ⟨hall, hstart, a, fieldLine_of_lastFieldLine hline, (Prod.mk.inj h).1.symm⟩

lemma readLines_cons (l : Str) {ls : List Str} (hne : ls ≠ []) :
    readLines pos (l :: ls) =
      match step pos l with
      | .error e => ([], .failed e)
      | .ok (pos', none) => readLines pos' ls
      | .ok (pos', some record) =>
        if blankLines (l :: ls) < 2 ^ 31 then
          (record :: (readLines pos' ls).1, (readLines pos' ls).2)
        else ([], .failed .overflow) := by
  obtain ⟨l', ls', rfl⟩ := List.exists_cons_of_ne_nil hne
  simp only [readLines]

lemma readFrom_last (hl : nl ∉ l) : readFrom pos l = finish pos l := by
  rw [readFrom, List.splitOn_eq_singleton hl, readLines]

/-! ### Blank lines ahead -/

/-- The newlines among the blanks and newlines at the start of a text. -/
def newlines : Str → ℕ
  | [] => 0
  | c :: s => if c == nl then newlines s + 1 else if isblank c then newlines s else 0

lemma newlines_blanks (h : l.all isblank = true) (r : Str) : newlines (l ++ r) = newlines r := by
  induction l with
  | nil => rfl
  | cons c l ih =>
    rw [List.all_cons, Bool.and_eq_true] at h
    simp [newlines, h.1, ne_nl_of_isblank h.1, ih h.2]

@[simp] lemma newlines_newline (r : Str) : newlines (nl :: r) = newlines r + 1 := by
  simp [newlines]

lemma newlines_stop {c : Byte} (hblank : isblank c = false) (hnl : c ≠ nl) (r : Str) :
    newlines (c :: r) = 0 := by
  simp [newlines, hblank, hnl]

lemma newlines_of_not_all (hl : nl ∉ l) (hall : l.all isblank = false) (r : Str) :
    newlines (l ++ r) = 0 := by
  induction l with
  | nil => cases hall
  | cons c l ih =>
    rw [List.mem_cons, not_or] at hl
    cases hc : isblank c with
    | true =>
      have hrest : l.all isblank = false := by simpa [hc] using hall
      rw [List.cons_append, newlines, if_neg (by simpa using Ne.symm hl.1), if_pos hc,
        ih hl.2 hrest]
    | false => exact newlines_stop hc (Ne.symm hl.1) _

lemma newlines_last (hl : nl ∉ l) : newlines l = 0 := by
  cases hall : l.all isblank with
  | true =>
    rw [← List.append_nil l, newlines_blanks hall]
    rfl
  | false =>
    rw [← List.append_nil l, newlines_of_not_all hl hall]

lemma newlines_line (hl : nl ∉ l) (r : Str) :
    newlines (l ++ nl :: r) = if l.all isblank then newlines r + 1 else 0 := by
  split_ifs with hall
  · rw [newlines_blanks hall, newlines_newline]
  · exact newlines_of_not_all hl (by simpa using hall) _

lemma blankLines_cons (l : Str) {ls : List Str} (hne : ls ≠ []) :
    blankLines (l :: ls) = if l.all isblank then blankLines ls + 1 else 0 := by
  obtain ⟨l', ls', rfl⟩ := List.exists_cons_of_ne_nil hne
  rw [blankLines]

/-- The blank lines ahead are the newlines that are eaten. -/
lemma blankLines_splitOn (s : Str) : blankLines (s.splitOn nl) = newlines s := by
  induction s using Lines.induction nl with
  | last l hl =>
    rw [List.splitOn_eq_singleton hl, newlines_last hl, blankLines]
    simp
  | line l r hl ih =>
    rw [List.splitOn_append_cons_self_of_not_mem hl, blankLines_cons _ (List.splitOn_ne_nil nl r),
      newlines_line hl, ih]

lemma readFrom_line (hl : nl ∉ l) (r : Str) :
    readFrom pos (l ++ nl :: r) =
      match step pos l with
      | .error e => ([], .failed e)
      | .ok (pos', none) => readFrom pos' r
      | .ok (pos', some record) =>
        if newlines (l ++ nl :: r) < 2 ^ 31 then
          (record :: (readFrom pos' r).1, (readFrom pos' r).2)
        else ([], .failed .overflow) := by
  rw [← blankLines_splitOn]
  simp only [readFrom, List.splitOn_append_cons_self_of_not_mem hl,
    readLines_cons l (List.splitOn_ne_nil nl r)]

lemma reading_eq (input : Str) :
    reading input =
      if newlines input < 2 ^ 31 then readFrom .between input else ([], .failed .overflow) := by
  rw [reading, blankLines_splitOn]

end Libept.DebDBParser
