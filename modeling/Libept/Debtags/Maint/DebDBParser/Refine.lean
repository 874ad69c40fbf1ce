import Libept.Debtags.Maint.DebDBParser.Reading

/-!
# The parser reads line by line

Calling `nextRecord` until there are no more records does the same, for every file, as going
through its lines: the same records, and the same end.
-/

namespace Libept.DebDBParser

/-! ### Kinds of lines -/

/-- A line is blank, starts with a blank, or starts with something else. -/
lemma line_cases (l : Str) :
    l.all isblank = true ∨ (l.all isblank = false ∧ startsBlank l = true) ∨
      ∃ c t, l = c :: t ∧ isblank c = false := by
  rcases l with _ | ⟨c, t⟩
  · exact .inl rfl
  · cases hc : isblank c with
    | false => exact .inr (.inr ⟨c, t, rfl, hc⟩)
    | true =>
      cases hall : t.all isblank with
      | true => exact .inl (by simp [hc, hall])
      | false => exact .inr (.inl (by simp [hc, hall, startsBlank]))

/-- A line that is not blank has a first byte that is not. -/
lemma exists_first {l : Str} (h : l.all isblank = false) :
    ∃ c t, l.dropWhile isblank = c :: t ∧ isblank c = false ∧
      l = l.takeWhile isblank ++ c :: t := by
  rcases hd : l.dropWhile isblank with _ | ⟨c, t⟩
  · rw [List.dropWhile_eq_nil_iff] at hd
    rw [← Bool.not_eq_true, List.all_eq_true] at h
    exact absurd hd h
  · refine ⟨c, t, rfl, ?_, ?_⟩
    · have hhead := List.head?_dropWhile_not isblank l
      rw [hd] at hhead
      simpa using hhead
    · rw [← hd, List.takeWhile_append_dropWhile]

lemma all_takeWhile (l : Str) : (l.takeWhile isblank).all isblank = true := by
  rw [List.all_eq_true]
  exact fun c hc => List.mem_takeWhile_imp hc

/-! ### Eating blanks and empty lines -/

variable {l r : Str} {bol eof : Bool}

/-- The parser behind the blanks and newlines. -/
def eaten (eof : Bool) : Str → Bool → DebDBParser
  | [], bol => ⟨[], bol, true⟩
  | c :: s, bol => if isblank c || c == nl then eaten eof s (c == nl) else ⟨c :: s, bol, eof⟩

/-- Blanks are eaten, and leave the parser in the middle of a line. -/
lemma eaten_blanks (h : l.all isblank = true) (r : Str) :
    eaten eof (l ++ r) bol = eaten eof r (l.isEmpty && bol) := by
  induction l generalizing bol with
  | nil => rfl
  | cons c l ih =>
    rw [List.all_cons, Bool.and_eq_true] at h
    have hc : (c == nl) = false := beq_false_of_ne (ne_nl_of_isblank h.1)
    rw [List.cons_append, eaten, if_pos (by simp [h.1]), hc, ih h.2]
    simp

@[simp] lemma eaten_newline (r : Str) : eaten eof (nl :: r) bol = eaten eof r true := by
  simp [eaten]

/-- Anything else stops the eating. -/
lemma eaten_stop {c : Byte} (hblank : isblank c = false) (hnl : c ≠ nl) (r : Str) :
    eaten eof (c :: r) bol = ⟨c :: r, bol, eof⟩ := by
  simp [eaten, hblank, hnl]

lemma go_newline (s : Str) (n : ℕ) :
    eatSpacesAndEmptyLines.go eof (nl :: s) bol n =
      if n + 1 < 2 ^ 31 then eatSpacesAndEmptyLines.go eof s true (n + 1 : ℕ)
      else .error .overflow := by
  rw [eatSpacesAndEmptyLines.go, if_pos (by simp), if_pos (by simp), CInt.add_one_natCast]
  split_ifs <;> rfl

/-- By induction on the text, with the number of newlines that have been counted before it. -/
lemma go_eq (s : Str) {n : ℕ} (hn : n < 2 ^ 31) :
    eatSpacesAndEmptyLines.go eof s bol n =
      if n + newlines s < 2 ^ 31 then .ok ((n + newlines s : ℕ), eaten eof s bol)
      else .error .overflow := by
  induction s generalizing bol n with
  | nil =>
    rw [newlines, Nat.add_zero, if_pos hn]
    rfl
  | cons c s ih =>
    by_cases hc : c = nl
    · subst hc
      have hcount : n + 1 + newlines s = n + newlines (nl :: s) := by
        rw [newlines_newline]
        omega
      rw [go_newline, eaten_newline, ← hcount]
      by_cases hlast : n + 1 < 2 ^ 31
      · rw [if_pos hlast, ih hlast]
      · rw [if_neg hlast, if_neg (by omega)]
    · have hnl : (c == nl) = false := beq_false_of_ne hc
      cases hblank : isblank c with
      | true =>
        have hcount : newlines (c :: s) = newlines s := by simp [newlines, hnl, hblank]
        have hrest : eaten eof (c :: s) bol = eaten eof s false := by simp [eaten, hnl, hblank]
        rw [hcount, hrest, ← ih hn, eatSpacesAndEmptyLines.go, if_pos (by simp [hblank]),
          if_neg (by simp [hc])]
      | false =>
        rw [newlines_stop hblank hc, eaten_stop hblank hc, Nat.add_zero, if_pos hn,
          eatSpacesAndEmptyLines.go, if_neg (by simp [hc, hblank])]

/-- The newlines are counted, unless they are too many for an `int`. -/
lemma eat_eq (s : Str) :
    eatSpacesAndEmptyLines ⟨s, bol, eof⟩ =
      if newlines s < 2 ^ 31 then .ok ((newlines s : ℕ), eaten eof s bol)
      else .error .overflow := by
  have hgo := @go_eq bol eof s 0 (by decide)
  rwa [Nat.zero_add] at hgo

lemma eat_stop {c : Byte} (hblank : isblank c = false) (hnl : c ≠ nl) (r : Str) :
    eatSpacesAndEmptyLines ⟨c :: r, bol, eof⟩ = .ok (0, ⟨c :: r, bol, eof⟩) := by
  rw [eat_eq, newlines_stop hblank hnl, eaten_stop hblank hnl]
  rfl

lemma eat_nil : eatSpacesAndEmptyLines ⟨[], bol, eof⟩ = .ok (0, ⟨[], bol, true⟩) := rfl

/-- The parser at the start of the next record. -/
def start (s : Str) : DebDBParser := eaten false s true

lemma new_eq (s : Str) :
    new s = if newlines s < 2 ^ 31 then .ok (start s) else .error .overflow := by
  rw [new, eat_eq]
  split_ifs <;> rfl

/-! ### Bodies -/

lemma trimEnd_first (l : Str) : trimEnd (l.dropWhile isblank) = trim l := by
  unfold trimEnd trim
  split_ifs with h
  · cases hall : l.all isblank with
    | true =>
      have hnil := List.dropWhile_eq_nil_iff.mpr (List.all_eq_true.mp hall)
      rw [hnil, List.rdropWhile_nil]
    | false =>
      obtain ⟨c, t, hc, hblank, -⟩ := exists_first hall
      rw [hc, List.all_cons, hblank, Bool.false_and] at h
      cases h
  · rfl

lemma rdropWhile_append_cons {c : Byte} (hc : isblank c = false) (body w : Str) :
    (body ++ c :: w).rdropWhile isblank = body ++ c :: w.rdropWhile isblank := by
  rw [List.rdropWhile, List.rdropWhile, List.reverse_append, List.reverse_cons, List.append_assoc,
    List.singleton_append, Lines.dropWhile_append_stop hc]
  simp

lemma trimEnd_next (body w : Str) :
    trimEnd (body ++ nl :: w) = body ++ nl :: w.rdropWhile isblank := by
  rw [trimEnd, if_neg (by simp), rdropWhile_append_cons isblank_nl]

lemma appendFieldBody_line (hl : nl ∉ l) (body r : Str) :
    appendFieldBody body ⟨l ++ nl :: r, bol, eof⟩ =
      (trimEnd (body ++ l.dropWhile isblank), ⟨r, true, eof⟩) := by
  have hl' := Lines.not_mem_dropWhile (p := isblank) hl
  simp only [appendFieldBody, Lines.dropWhile_append_stop isblank_nl, Lines.takeWhile_line hl',
    Lines.dropWhile_line hl']

lemma appendFieldBody_last (hl : nl ∉ l) (body : Str) :
    appendFieldBody body ⟨l, bol, eof⟩ =
      (trimEnd (body ++ l.dropWhile isblank), ⟨[], bol, true⟩) := by
  have hl' := Lines.not_mem_dropWhile (p := isblank) hl
  simp only [appendFieldBody, Lines.takeWhile_last hl', Lines.dropWhile_last hl']

/-! ### The first line of a field -/

lemma fieldHead_notBOL (s : Str) : fieldHead ⟨s, false, eof⟩ = .error notAtBOL := rfl

lemma isNameChar_nl : isNameChar nl = false := by decide

lemma getFieldName_line (l r : Str) :
    getFieldName ⟨l ++ nl :: r, true, eof⟩ =
      .ok (l.takeWhile isNameChar, ⟨l.dropWhile isNameChar ++ nl :: r, true, eof⟩) := by
  rw [getFieldName, if_neg (by simp)]
  simp only [Lines.takeWhile_append_stop isNameChar_nl, Lines.dropWhile_append_stop isNameChar_nl]
  split
  · rename_i hnil
    simp at hnil
  · rfl

lemma getFieldName_last (hne : l ≠ []) :
    getFieldName ⟨l, true, eof⟩ =
      if l.dropWhile isNameChar = [] then
        .error (.runtimeError
          (str "field is truncated at end of file.  Last line begins with: \"" ++ l ++ [nl]))
      else .ok (l.takeWhile isNameChar, ⟨l.dropWhile isNameChar, true, eof⟩) := by
  rw [getFieldName, if_neg (by simp)]
  rcases hrest : l.dropWhile isNameChar with _ | ⟨c, t⟩
  · have htake : l.takeWhile isNameChar = l := by
      conv_rhs => rw [← List.takeWhile_append_dropWhile (p := isNameChar) (l := l), hrest]
      simp
    simp [htake, hne]
  · simp

lemma eatFieldSep_cons {w rest : Str} {c : Byte} (h : w.dropWhile isblank = c :: rest) :
    eatFieldSep ⟨w, bol, eof⟩ =
      if c != colon then .error (invalidCharacter c) else .ok ⟨rest, bol, eof⟩ := by
  simp only [eatFieldSep, h, invalidCharacter]

lemma fieldHead_of_name {p p' : DebDBParser} {field : Str}
    (h : p.getFieldName = .ok (field, p')) :
    p.fieldHead = p'.eatFieldSep.map fun p => (field, appendFieldBody [] p) := by
  simp only [fieldHead, h]
  change (do let p ← p'.eatFieldSep; pure (field, appendFieldBody [] p)) = _
  cases p'.eatFieldSep <;> rfl

/-- The separator and the first line of the body, on a line that the end of the line or of the
file ends. -/
lemma eatFieldSep_map {w rest r : Str} {c : Byte} {p : DebDBParser} (field : Str)
    (h : w.dropWhile isblank = c :: rest)
    (hbody : appendFieldBody [] ⟨rest ++ r, bol, eof⟩ = (trim rest, p)) :
    (eatFieldSep ⟨w ++ r, bol, eof⟩).map (fun p => (field, appendFieldBody [] p)) =
      (if c != colon then .error (invalidCharacter c) else .ok (field, trim rest) :
        Except Failure (Str × Str)).map fun (field, body) => (field, body, p) := by
  have hcons : (w ++ r).dropWhile isblank = c :: (rest ++ r) := by
    rw [List.dropWhile_append, h]
    simp
  rw [eatFieldSep_cons hcons]
  split_ifs
  · rfl
  · simp [Except.map, hbody]

lemma not_mem_body {rest : Str} {c : Byte} (hl : nl ∉ l)
    (h : (l.dropWhile isNameChar).dropWhile isblank = c :: rest) : nl ∉ rest := by
  have hmem := Lines.not_mem_dropWhile (p := isblank) (Lines.not_mem_dropWhile (p := isNameChar) hl)
  rw [h] at hmem
  exact fun hrest => hmem (List.mem_cons_of_mem _ hrest)

lemma fieldHead_line (hl : nl ∉ l) (r : Str) :
    fieldHead ⟨l ++ nl :: r, true, eof⟩ =
      (fieldLine l).map fun (field, body) => (field, body, ⟨r, true, eof⟩) := by
  rw [fieldHead_of_name (getFieldName_line l r), fieldLine]
  rcases hw : (l.dropWhile isNameChar).dropWhile isblank with _ | ⟨c, rest⟩
  · have hstop := Lines.dropWhile_append_stop isblank_nl (l.dropWhile isNameChar) r
    rw [hw, List.nil_append] at hstop
    rw [eatFieldSep_cons hstop]
    rfl
  · apply eatFieldSep_map _ hw
    rw [appendFieldBody_line (not_mem_body hl hw), List.nil_append, trimEnd_first]

lemma fieldHead_last (hl : nl ∉ l) (hne : l ≠ []) :
    fieldHead ⟨l, true, eof⟩ =
      (lastFieldLine l).map fun (field, body) => (field, body, ⟨[], true, true⟩) := by
  have hname := @getFieldName_last l eof hne
  rw [lastFieldLine]
  split_ifs at hname ⊢ with hall hsep
  · rw [fieldHead, hname]
    rfl
  · rw [fieldHead_of_name hname, eatFieldSep, hsep]
    rfl
  · rw [fieldHead_of_name hname, fieldLine]
    rcases hw : (l.dropWhile isNameChar).dropWhile isblank with _ | ⟨c, rest⟩
    · exact absurd hw hsep
    · have hbody : appendFieldBody [] ⟨rest ++ [], true, eof⟩ = (trim rest, ⟨[], true, true⟩) := by
        rw [List.append_nil, appendFieldBody_last (not_mem_body hl hw), List.nil_append,
          trimEnd_first]
      simpa using eatFieldSep_map (l.takeWhile isNameChar) hw hbody

/-! ### Continuation lines -/

lemma eaten_indented (hl : nl ∉ l) (hall : l.all isblank = false) (hstart : startsBlank l = true)
    (r : Str) : eaten eof (l ++ r) true = ⟨l.dropWhile isblank ++ r, false, eof⟩ := by
  obtain ⟨c, t, hdrop, hblank, hsplit⟩ := exists_first hall
  have hnl : c ≠ nl := fun h => hl (by rw [hsplit, h]; simp)
  have htake : (l.takeWhile isblank).isEmpty = false := by
    rcases l with _ | ⟨b, l⟩
    · cases hall
    · simp [show isblank b = true from hstart]
  rw [hdrop]
  conv_lhs => rw [hsplit, List.append_assoc, eaten_blanks (all_takeWhile l), htake]
  rw [Bool.false_and, List.cons_append, eaten_stop hblank hnl]

lemma eat_indented (hl : nl ∉ l) (hall : l.all isblank = false) (hstart : startsBlank l = true)
    (r : Str) :
    eatSpacesAndEmptyLines ⟨l ++ r, true, eof⟩ =
      .ok (0, ⟨l.dropWhile isblank ++ r, false, eof⟩) := by
  rw [eat_eq, newlines_of_not_all hl hall, eaten_indented hl hall hstart]
  rfl

/-- A dot alone on a continuation line is taken off again. -/
lemma dot_line (body w : Str) :
    (if (body ++ nl :: w).length - (body ++ [nl]).length == 1 &&
        (body ++ nl :: w).getLast? == some dot then (body ++ nl :: w).dropLast
      else body ++ nl :: w) = body ++ nl :: if w = [dot] then [] else w := by
  have hlen : (body ++ nl :: w).length - (body ++ [nl]).length = w.length := by
    simp only [List.length_append, List.length_cons, List.length_nil]
    omega
  rw [hlen]
  by_cases hw : w = [dot]
  · subst hw
    simp
  · rw [if_neg hw, if_neg]
    intro h
    rw [Bool.and_eq_true, beq_iff_eq, beq_iff_eq] at h
    obtain ⟨x, rfl⟩ := List.length_eq_one_iff.mp h.1
    simp at h
    exact hw (by rw [h])

lemma contTurn_of_eat {p q : DebDBParser} {body x w : Str}
    (heat : p.eatSpacesAndEmptyLines = .ok (0, ⟨w, false, eof⟩))
    (happend : appendFieldBody (body ++ [nl]) ⟨w, false, eof⟩ = (body ++ nl :: x, q)) :
    contTurn (body, p) = .inl (body ++ nl :: if x = [dot] then [] else x, q) := by
  have hdot := dot_line body x
  simp only [contTurn, heat, happend]
  split_ifs at hdot ⊢ <;> simp_all

lemma contTurn_line (hl : nl ∉ l) (hall : l.all isblank = false) (hstart : startsBlank l = true)
    (body r : Str) :
    contTurn (body, ⟨l ++ nl :: r, true, false⟩) =
      .inl (body ++ nl :: contText l, ⟨r, true, false⟩) := by
  apply contTurn_of_eat (eat_indented hl hall hstart _)
  rw [appendFieldBody_line (Lines.not_mem_dropWhile hl), List.dropWhile_idempotent,
    List.append_assoc, List.singleton_append, trimEnd_next]
  rfl

lemma succ_beq_zero (n : ℕ) : (((n + 1 : ℕ) : ℤ) == 0) = false := by
  rw [beq_eq_false_iff_ne]
  omega

/-- Newlines are eaten: the record ends when all of them have been counted. -/
lemma contTurn_blank_line (hblank : l.all isblank = true) (body r : Str) :
    contTurn (body, ⟨l ++ nl :: r, true, false⟩) =
      if newlines r + 1 < 2 ^ 31 then .inr (.ok (body, (newlines r + 1 : ℕ), start r))
      else .inr (.error .overflow) := by
  simp only [contTurn, eat_eq, newlines_blanks hblank, newlines_newline, eaten_blanks hblank,
    eaten_newline]
  by_cases hcount : newlines r + 1 < 2 ^ 31
  · rw [if_pos hcount, if_pos hcount]
    simp only [succ_beq_zero, Bool.false_and, Bool.false_eq_true, if_false]
    rfl
  · rw [if_neg hcount, if_neg hcount]

/-- The next field starts. -/
lemma contTurn_field {c : Byte} (hblank : isblank c = false) (hnl : c ≠ nl) (body t : Str) :
    contTurn (body, ⟨c :: t, true, false⟩) = .inr (.ok (body, 0, ⟨c :: t, true, false⟩)) := by
  simp only [contTurn, eat_stop hblank hnl]
  rfl

lemma contTurn_end (body : Str) (eof : Bool) :
    contTurn (body, ⟨[], true, eof⟩) = .inr (.ok (body, 0, ⟨[], true, true⟩)) := rfl

/-- At the end of the file in the middle of a line, the loop goes on and nothing changes. -/
lemma contTurn_stuck (body : Str) :
    contTurn (body, ⟨[], false, true⟩) = .inl (body ++ [nl], ⟨[], false, true⟩) := by
  apply contTurn_of_eat (x := []) eat_nil
  rw [appendFieldBody_last List.not_mem_nil, List.dropWhile_nil, List.append_nil, trimEnd_next,
    List.rdropWhile_nil]

/-- A last line that starts with a blank leads there. -/
lemma contTurn_last (hl : nl ∉ l) (hstart : startsBlank l = true) (body : Str) :
    ∃ body', contTurn (body, ⟨l, true, false⟩) = .inl (body', ⟨[], false, true⟩) := by
  cases hall : l.all isblank with
  | true =>
    have heat : eatSpacesAndEmptyLines ⟨l, true, false⟩ = .ok (0, ⟨[], false, true⟩) := by
      have hne : l.isEmpty = false := by
        rcases l with _ | ⟨b, l⟩
        · cases hstart
        · rfl
      rw [eat_eq, newlines_last hl, ← List.append_nil l, eaten_blanks hall, hne]
      rfl
    refine ⟨_, contTurn_of_eat (x := []) heat ?_⟩
    rw [appendFieldBody_last List.not_mem_nil, List.dropWhile_nil, List.append_nil, trimEnd_next,
      List.rdropWhile_nil]
  | false =>
    have heat := @eat_indented l false hl hall hstart []
    rw [List.append_nil, List.append_nil] at heat
    refine ⟨_, contTurn_of_eat (x := trim l) heat ?_⟩
    rw [appendFieldBody_last (Lines.not_mem_dropWhile hl), List.dropWhile_idempotent,
      List.append_assoc, List.singleton_append, trimEnd_next]
    rfl

/-! ### The start of the next record -/

lemma start_blank_line (hblank : l.all isblank = true) (r : Str) :
    start (l ++ nl :: r) = start r := by
  rw [start, eaten_blanks hblank, eaten_newline]
  rfl

lemma start_blank_last (hblank : l.all isblank = true) : (start l).isEOF = true := by
  rw [start, ← List.append_nil l, eaten_blanks hblank]
  rfl

lemma start_field {c : Byte} (hblank : isblank c = false) (hnl : c ≠ nl) (t : Str) :
    start (c :: t) = ⟨c :: t, true, false⟩ :=
  eaten_stop hblank hnl t

/-! ### Loops -/

section Loops

variable {σ : Type} (emit : σ → Record → Except Failure Unit × σ) (s : σ)

/-- What is left to do for a record once the first line of a body has been read. -/
def restOfRecord (record : Record) (field body : Str) (p : DebDBParser) :
    Comp (Except Failure (Record × DebDBParser)) := do
  match ← contLoop body p with
  | .error e => pure (.error e)
  | .ok (body, n, p) =>
    let record := record.insertIfNew field body
    if !p.isEOF && n == 0 then Comp.loop fieldTurn (record, p) else pure (.ok (record, p))

/-- What is left to do for a file once a record has been read. -/
def afterRecord : Except Failure (Record × DebDBParser) → Comp (Except Failure Unit × σ)
  | .error e => pure (.error e, s)
  | .ok (record, p) =>
    match emit s record with
    | (.error e, s) => pure (.error e, s)
    | (.ok (), s) => whileNextRecord emit s p

lemma fieldLoop_error {p : DebDBParser} {e : Failure} (h : p.fieldHead = .error e)
    (record : Record) : (Comp.loop fieldTurn (record, p)).Returns (.error e) := by
  apply Comp.loop_stop
  simp only [fieldTurn, h, Comp.returns_pure]

lemma fieldLoop_ok {p p' : DebDBParser} {field body : Str}
    (h : p.fieldHead = .ok (field, body, p')) (record : Record) :
    (Comp.loop fieldTurn (record, p)).Same (restOfRecord record field body p') := by
  apply (Comp.loop_same _ _).trans
  simp only [fieldTurn, h, restOfRecord, bind_assoc]
  apply Comp.Same.bind_right
  rintro (e | ⟨body, n, p⟩)
  · exact Comp.Same.refl _
  · simp only []
    split_ifs <;> exact Comp.Same.refl _

lemma whileNextRecord_isEOF {p : DebDBParser} (h : p.isEOF = true) :
    (whileNextRecord emit s p).Returns (.ok (), s) := by
  apply Comp.loop_stop
  simp [nextRecord, h]

lemma whileNextRecord_record {p : DebDBParser} (h : p.isEOF = false) :
    (whileNextRecord emit s p).Same (Comp.loop fieldTurn (∅, p) >>= afterRecord emit s) := by
  apply (Comp.loop_same _ _).trans
  simp only [nextRecord, h, Bool.false_eq_true, if_false, bind_assoc, pure_bind]
  apply Comp.Same.bind_right
  intro r
  rcases r with e | ⟨record, p⟩
  · exact Comp.Same.refl _
  · simp only [Except.map, afterRecord]
    rcases emit s record with ⟨e | _, s'⟩ <;> exact Comp.Same.refl _

lemma contLoop_stop {p : DebDBParser} {body : Str} {x : Except Failure (Str × ℤ × DebDBParser)}
    (h : contTurn (body, p) = .inr x) : (contLoop body p).Returns x :=
  Comp.loop_stop (by rw [h]; exact Comp.returns_pure.mpr rfl)

lemma restOfRecord_overflow {p : DebDBParser} {body : Str}
    (h : contTurn (body, p) = .inr (.error .overflow)) (record : Record) (field : Str) :
    (restOfRecord record field body p).Returns (.error .overflow) := by
  apply ((contLoop_stop h).bind _ _).mpr
  exact Comp.returns_pure.mpr rfl

lemma restOfRecord_stop {p p' : DebDBParser} {body body' : Str} {n : ℤ}
    (h : contTurn (body, p) = .inr (.ok (body', n, p'))) (hstop : (!p'.isEOF && n == 0) = false)
    (record : Record) (field : Str) :
    (restOfRecord record field body p).Returns (.ok (record.insertIfNew field body', p')) := by
  apply ((contLoop_stop h).bind _ _).mpr
  simp only [hstop, Bool.false_eq_true, if_false]
  exact Comp.returns_pure.mpr rfl

lemma restOfRecord_field {p p' : DebDBParser} {body body' : Str}
    (h : contTurn (body, p) = .inr (.ok (body', 0, p'))) (hp : p'.isEOF = false)
    (record : Record) (field : Str) :
    (restOfRecord record field body p).Same
      (Comp.loop fieldTurn (record.insertIfNew field body', p')) := by
  apply ((contLoop_stop h).bind _).trans
  simp only [hp]
  exact Comp.Same.refl _

lemma restOfRecord_next {p p' : DebDBParser} {body body' : Str}
    (h : contTurn (body, p) = .inl (body', p')) (record : Record) (field : Str) :
    (restOfRecord record field body p).Same (restOfRecord record field body' p') := by
  have hloop : (contLoop body p).Same (contLoop body' p') :=
    Comp.loop_next (by rw [h]; exact Comp.returns_pure.mpr rfl)
  exact hloop.bind _

/-- In the middle of a line at the end of the file, the record never ends. -/
lemma restOfRecord_stuck (record : Record) (field body : Str) :
    (restOfRecord record field body ⟨[], false, true⟩).Denotes none := by
  apply Comp.Denotes.bind_none
  refine Comp.denotes_loop_forever (fun s => s.2 = ⟨[], false, true⟩) ?_ rfl
  rintro ⟨body, p⟩ rfl
  exact ⟨_, by rw [contTurn_stuck]; exact Comp.returns_pure.mpr rfl, rfl⟩

/-! ### Refinement -/

/-- A file that is read to its end after a record. -/
lemma afterRecord_denotes {s : σ} {p : DebDBParser} (record : Record) {records : List Record}
    {e : End} (h : ∀ s, (whileNextRecord emit s p).Denotes (feed emit s records e)) :
    (afterRecord emit s (.ok (record, p))).Denotes (feed emit s (record :: records) e) := by
  rw [afterRecord, feed]
  rcases emit s record with ⟨e | _, s'⟩
  · exact (Comp.returns_pure.mpr rfl).denotes
  · exact h s'

lemma fieldLoop_throws {p : DebDBParser} {e : Failure} (h : p.fieldHead = .error e)
    (record : Record) :
    (Comp.loop fieldTurn (record, p) >>= afterRecord emit s).Returns (.error e, s) :=
  ((fieldLoop_error h record).bind _ _).mpr (Comp.returns_pure.mpr rfl)

/-- A record whose last field is on the last line. -/
lemma fieldLoop_last {p : DebDBParser} {field body : Str}
    (h : p.fieldHead = .ok (field, body, ⟨[], true, true⟩)) (record : Record) :
    (Comp.loop fieldTurn (record, p) >>= afterRecord emit s).Denotes
      (feed emit s [record.insertIfNew field body] .finished) := by
  have hrest := restOfRecord_stop (contTurn_end body true) rfl record field
  apply (((fieldLoop_ok h record).bind _).trans (hrest.bind _)).denotes
  exact afterRecord_denotes emit _ fun s => (whileNextRecord_isEOF emit s rfl).denotes

/-- What the last line gives when it starts a field of the record. -/
def lastField (record : Record) (l : Str) : List Record × End :=
  match lastFieldLine l with
  | .error e => ([], .failed e)
  | .ok (field, body) => ([record.insertIfNew field body], .finished)

lemma fieldLoop_lastField (hl : nl ∉ l) (hne : l ≠ []) (record : Record) :
    (Comp.loop fieldTurn (record, ⟨l, true, false⟩) >>= afterRecord emit s).Denotes
      (feed emit s (lastField record l).1 (lastField record l).2) := by
  have hhead := @fieldHead_last l false hl hne
  rw [lastField]
  cases hline : lastFieldLine l with
  | error e =>
    rw [hline] at hhead
    exact (fieldLoop_throws emit s hhead record).denotes
  | ok fb =>
    rw [hline] at hhead
    exact fieldLoop_last emit s hhead record

/-- What comes of a line that starts a field of the record, and of the rest of the file. -/
def fromField (record : Record) (l r : Str) : List Record × End :=
  match fieldLine l with
  | .error e => ([], .failed e)
  | .ok (field, body) => readFrom (.inside record field body) r

lemma fieldLoop_fromField (hl : nl ∉ l)
    (hrest : ∀ record field body,
      (restOfRecord record field body ⟨r, true, false⟩ >>= afterRecord emit s).Denotes
        (feed emit s (readFrom (.inside record field body) r).1
          (readFrom (.inside record field body) r).2)) (record : Record) :
    (Comp.loop fieldTurn (record, ⟨l ++ nl :: r, true, false⟩) >>= afterRecord emit s).Denotes
      (feed emit s (fromField record l r).1 (fromField record l r).2) := by
  have hhead := @fieldHead_line l false hl r
  rw [fromField]
  cases hline : fieldLine l with
  | error e =>
    rw [hline] at hhead
    exact (fieldLoop_throws emit s hhead record).denotes
  | ok fb =>
    rw [hline] at hhead
    exact ((fieldLoop_ok hhead record).bind _).denotes (hrest record fb.1 fb.2)

lemma readFrom_fromField {pos : Position} (hl : nl ∉ l) (hall : l.all isblank = false)
    (hstart : startsBlank l = false) (r : Str) :
    readFrom pos (l ++ nl :: r) = fromField pos.record l r := by
  rw [readFrom_line hl, step_of_field hall hstart, fromField]
  cases fieldLine l <;> rfl

/-! ### The start of a line -/

/-- The last line of a file, between records. -/
lemma refine_between_last {l : Str} (hl : nl ∉ l) (s : σ) :
    (whileNextRecord emit s (start l)).Denotes
      (feed emit s (readFrom .between l).1 (readFrom .between l).2) := by
  rw [readFrom_last hl, finish]
  rcases line_cases l with hblank | ⟨hall, hstart⟩ | ⟨c, t, rfl, hc⟩
  · rw [if_pos hblank]
    exact (whileNextRecord_isEOF emit s (start_blank_last hblank)).denotes
  · have hnext := @eaten_indented l false hl hall hstart []
    rw [List.append_nil, List.append_nil] at hnext
    rw [start, hnext, if_neg (by simp [hall]), if_pos hstart]
    apply (whileNextRecord_record emit s rfl).denotes
    exact (fieldLoop_throws emit s (fieldHead_notBOL _) ∅).denotes
  · have hnl : c ≠ nl := fun h => hl (by simp [h])
    rw [start_field hc hnl, if_neg (by simp [hc]), if_neg (by simp [startsBlank, hc])]
    apply (whileNextRecord_record emit s rfl).denotes
    exact fieldLoop_lastField emit s hl (by simp) ∅

/-- The last line of a file, inside a record. -/
lemma refine_inside_last {l : Str} (hl : nl ∉ l) (s : σ) (record : Record) (field body : Str) :
    (restOfRecord record field body ⟨l, true, false⟩ >>= afterRecord emit s).Denotes
      (feed emit s (readFrom (.inside record field body) l).1
        (readFrom (.inside record field body) l).2) := by
  rw [readFrom_last hl, finish]
  by_cases hnil : l = []
  · subst hnil
    rw [if_pos rfl]
    apply ((restOfRecord_stop (contTurn_end body false) rfl record field).bind _).denotes
    exact afterRecord_denotes emit _ fun s => (whileNextRecord_isEOF emit s rfl).denotes
  rw [if_neg hnil]
  cases hstart : startsBlank l with
  | true =>
    rw [if_pos rfl]
    obtain ⟨body', hturn⟩ := contTurn_last hl hstart body
    apply ((restOfRecord_next hturn record field).bind _).denotes
    exact (restOfRecord_stuck record field body').bind_none
  | false =>
    obtain ⟨c, t, rfl⟩ := List.exists_cons_of_ne_nil hnil
    have hc : isblank c = false := hstart
    have hnl : c ≠ nl := fun h => hl (by simp [h])
    rw [if_neg (by simp)]
    have hfield := restOfRecord_field (contTurn_field hc hnl body t) rfl record field
    apply (hfield.bind _).denotes
    exact fieldLoop_lastField emit s hl (by simp) _

section Line

variable {l r : Str} (hl : nl ∉ l)
  (hbetween : ∀ s, (whileNextRecord emit s (start r)).Denotes
    (feed emit s (readFrom .between r).1 (readFrom .between r).2))
  (hinside : ∀ s record field body,
    (restOfRecord record field body ⟨r, true, false⟩ >>= afterRecord emit s).Denotes
      (feed emit s (readFrom (.inside record field body) r).1
        (readFrom (.inside record field body) r).2))

include hl hbetween hinside

/-- A line between records, when the lines behind it are read right from both positions. -/
lemma refine_between_line (s : σ) :
    (whileNextRecord emit s (start (l ++ nl :: r))).Denotes
      (feed emit s (readFrom .between (l ++ nl :: r)).1 (readFrom .between (l ++ nl :: r)).2) := by
  rcases line_cases l with hblank | ⟨hall, hstart⟩ | ⟨c, t, rfl, hc⟩
  · rw [readFrom_line hl, step, start_blank_line hblank, if_pos hblank]
    exact hbetween s
  · rw [readFrom_line hl, step, start, eaten_indented hl hall hstart, if_neg (by simp [hall]),
      if_pos hstart]
    apply (whileNextRecord_record emit s rfl).denotes
    exact (fieldLoop_throws emit s (fieldHead_notBOL _) ∅).denotes
  · have hnl : c ≠ nl := fun h => hl (by simp [h])
    rw [readFrom_fromField hl (by simp [hc]) hc, List.cons_append, start_field hc hnl]
    apply (whileNextRecord_record emit s rfl).denotes
    exact fieldLoop_fromField emit s hl (hinside s) ∅

/-- A line inside a record, likewise. -/
lemma refine_inside_line (s : σ) (record : Record) (field body : Str) :
    (restOfRecord record field body ⟨l ++ nl :: r, true, false⟩ >>= afterRecord emit s).Denotes
      (feed emit s (readFrom (.inside record field body) (l ++ nl :: r)).1
        (readFrom (.inside record field body) (l ++ nl :: r)).2) := by
  rcases line_cases l with hblank | ⟨hall, hstart⟩ | ⟨c, t, rfl, hc⟩
  · have hturn := contTurn_blank_line hblank body r
    rw [readFrom_line hl, newlines_line hl, step, if_pos hblank, if_pos hblank]
    simp only []
    split_ifs at hturn ⊢
    · have hstop := restOfRecord_stop hturn (by rw [succ_beq_zero, Bool.and_false]) record field
      apply (hstop.bind _).denotes
      exact afterRecord_denotes emit _ hbetween
    · apply ((restOfRecord_overflow hturn record field).bind _).denotes
      exact (Comp.returns_pure.mpr rfl).denotes
  · rw [readFrom_line hl, step, if_neg (by simp [hall]), if_pos hstart]
    have hnext := restOfRecord_next (contTurn_line hl hall hstart body r) record field
    apply (hnext.bind _).denotes
    exact hinside s record field _
  · have hnl : c ≠ nl := fun h => hl (by simp [h])
    rw [readFrom_fromField hl (by simp [hc]) hc]
    have hfield := restOfRecord_field (contTurn_field hc hnl body (t ++ nl :: r)) rfl record field
    apply (hfield.bind _).denotes
    exact fieldLoop_fromField emit s hl (hinside s) _

end Line

/-- Both positions at the start of a line, by induction on the lines. -/
lemma refine_positions (input : Str) :
    (∀ s, (whileNextRecord emit s (start input)).Denotes
        (feed emit s (readFrom .between input).1 (readFrom .between input).2)) ∧
      ∀ s record field body,
        (restOfRecord record field body ⟨input, true, false⟩ >>= afterRecord emit s).Denotes
          (feed emit s (readFrom (.inside record field body) input).1
            (readFrom (.inside record field body) input).2) := by
  induction input using Lines.induction nl with
  | last l hl => exact ⟨refine_between_last emit hl, refine_inside_last emit hl⟩
  | line l r hl ih =>
    obtain ⟨hbetween, hinside⟩ := ih
    exact ⟨refine_between_line emit hl hbetween hinside,
      refine_inside_line emit hl hbetween hinside⟩

/-- Going through the records of a file, by calls of `nextRecord`, is going through its lines. -/
theorem forRecords_denotes (input : Str) :
    (forRecords emit s input).Denotes (feed emit s (reading input).1 (reading input).2) := by
  rw [forRecords, new_eq, reading_eq]
  split_ifs
  · exact (refine_positions emit input).1 s
  · exact (Comp.returns_pure.mpr rfl).denotes

end Loops

end Libept.DebDBParser
