import Libept.Debtags.Coll.TextFormat.Format

/-!
# What is accepted on a line

The scanner has at every moment read an element and something behind it that its state tells. So
the lines that are read to their end are those of the format, and those with a separator left over
behind the last element. A comma left over makes a newline throw, and a colon does not.
-/

namespace Libept.TextFormat

open Std Fast

/-! ### The end of a line -/

/-- What the scanner may have read behind the last element of a line, with the separator character
that it remembers, which is 0 if there is none. -/
inductive IsEnding : Byte → Str → Prop
  | blanks {w : Str} (hw : w.all isblank = true) : IsEnding 0 w
  | run {c : Byte} {w : Str} (hc : isSep c = true) (hw : w.all isSep = true) : IsEnding c (c :: w)
  | separator {c : Byte} {w : Str} (hc : isSep c = true) (hw : IsSeparator c w) : IsEnding c w

/-- The lines that are read to their end, with the separator character left over there. -/
inductive IsRead : Byte → Str → Prop
  | blank {b : Str} (hb : b.all isblank = true) : IsRead 0 b
  | fields {a s w : Str} {is ts : List Str} {c : Byte} (ha : a.all isblank = true)
    (hs : IsFields s is ts) (hw : IsEnding c w) : IsRead c (a ++ (s ++ w))

lemma isSep_iff {c : Byte} : isSep c = true ↔ c = colon ∨ c = comma := by
  simp [isSep]

lemma IsEnding.sepchar {c : Byte} {w : Str} (h : IsEnding c w) : c = 0 ∨ c = colon ∨ c = comma := by
  cases h with
  | blanks => exact .inl rfl
  | run hc | separator hc => exact .inr (isSep_iff.mp hc)

/-! ### The text behind a state -/

lemma isElement_singleton {d : Byte} (hd : d ≠ nl) (hblank : isblank d = false)
    (hsep : isSep d = false) : IsElement [d] where
  ne_nil := by simp
  no_nl := by simpa using hd.symm
  start := by simp [hblank, hsep]
  stop := by simp [hblank, hsep]
  apart := .singleton d

/-- Blanks alone, or separator characters alone, are not next to each other. -/
lemma isChain_of_all {w : Str} (hw : w.all isblank = true ∨ w.all isSep = true) :
    w.IsChain fun a b =>
      ¬(isSep a = true ∧ isblank b = true) ∧ ¬(isblank a = true ∧ isSep b = true) := by
  have hapart : ∀ c ∈ w, ∀ d ∈ w, ¬(isSep c = true ∧ isblank d = true) := by
    rintro c hc d hd ⟨hsep, hblank⟩
    rcases hw with hw | hw
    · have hc := List.all_eq_true.mp hw c hc
      rw [isblank_of_isSep hsep] at hc
      cases hc
    · have hd := isblank_of_isSep (List.all_eq_true.mp hw d hd)
      rw [hblank] at hd
      cases hd
  apply List.Pairwise.isChain
  apply List.pairwise_of_forall_mem_list
  intro a ha b hb
  exact ⟨hapart a ha b hb, fun h => hapart b hb a ha h.symm⟩

/-- An element grows by an ordinary character, with blanks or separator characters in between. -/
lemma IsElement.extend {e w : Str} {c : Byte} (he : IsElement e)
    (hw : w.all isblank = true ∨ w.all isSep = true) (hc : c ≠ nl) (hblank : isblank c = false)
    (hsep : isSep c = false) : IsElement (e ++ w ++ [c]) where
  ne_nil := by simp
  no_nl := by
    have hwnl : nl ∉ w := by
      rcases hw with hw | hw
      · exact fun h => ne_nl_of_isblank (List.all_eq_true.mp hw _ h) rfl
      · exact fun h => ne_nl_of_isSep (List.all_eq_true.mp hw _ h) rfl
    simp [he.no_nl, hwnl, hc.symm]
  start := by
    obtain ⟨d, e', rfl⟩ := List.exists_cons_of_ne_nil he.ne_nil
    simpa using he.start
  stop := by simp [hblank, hsep]
  apart := by
    rw [List.isChain_append, List.isChain_append]
    refine ⟨⟨he.apart, isChain_of_all hw, fun a ha b _ => ?_⟩, .singleton c, fun a _ b hb => ?_⟩
    · obtain ⟨hblank, hsep⟩ := he.stop a ha
      simp [hblank, hsep]
    · obtain rfl : c = b := by simpa using hb
      simp [hblank, hsep]

namespace Scan

/-- The text that has been read of an element and of what is behind it, for each state. -/
inductive Reads : Str → Scan → Prop
  | item {e : Str} (he : IsElement e) : Reads e ⟨.item, e, [], 0⟩
  | ispace {e w : Str} (he : IsElement e) (hne : w ≠ []) (hw : w.all isblank = true) :
    Reads (e ++ w) ⟨.ispace, e, w, 0⟩
  | isep {e w : Str} {c : Byte} (he : IsElement e) (hc : isSep c = true)
    (hw : w.all isSep = true) : Reads (e ++ c :: w) ⟨.isep, e, c :: w, c⟩
  | tspace {e w sep : Str} {c : Byte} (he : IsElement e) (hc : isSep c = true)
    (hw : IsSeparator c w) : Reads (e ++ w) ⟨.tspace, e, sep, c⟩

variable {x l : Str} {s s' : Scan} {c : Byte}

/-- A character keeps the text behind the state. -/
lemma Reads.turn (h : Reads x s) (hc : c ≠ nl) (hturn : s.turn c = .ok (some s')) :
    Reads (x ++ [c]) s' := by
  cases h with
  | @item e he =>
    simp only [Scan.turn] at hturn
    split_ifs at hturn with hblank hsep <;> cases hturn
    · exact .ispace he (by simp) (by simp [hblank])
    · exact .isep (w := []) he hsep rfl
    · simpa using Reads.item (he.extend (w := []) (.inl rfl) hc (by simpa using hblank)
        (by simpa using hsep))
  | @ispace e w he hne hw =>
    simp only [Scan.turn] at hturn
    split_ifs at hturn with hblank hsep <;> cases hturn
    · simpa using Reads.ispace (w := w ++ [c]) he (by simp) (by simp [List.all_append, hw, hblank])
    · simpa using @Reads.tspace e (w ++ [c]) w c he hsep (.before (b := []) hne hw rfl)
    · exact .item (he.extend (.inl hw) hc (by simpa using hblank) (by simpa using hsep))
  | @isep e w d he hd hw =>
    simp only [Scan.turn] at hturn
    split_ifs at hturn with hblank hlen hsep <;> cases hturn
    · obtain rfl : w = [] := by
        simpa [List.length_pos_iff] using hlen
      simpa using @Reads.tspace e [d, c] [d] d he hd (.behind (by simp) (by simp [hblank]))
    · simpa using Reads.isep (w := w ++ [c]) he hd (by simp [List.all_append, hw, hsep])
    · have hseps : (d :: w).all isSep = true := by simp [hd, hw]
      exact .item (he.extend (.inr hseps) hc (by simpa using hblank) (by simpa using hsep))
  | @tspace e w sep d he hd hw =>
    simp only [Scan.turn] at hturn
    split_ifs at hturn with hblank <;> cases hturn
    rw [List.append_assoc]
    cases hw with
    | @behind b hne hb =>
      exact .tspace he hd (.behind (by simp) (by simp [List.all_append, hb, hblank]))
    | @before a b hne ha hb =>
      rw [List.append_assoc, List.cons_append]
      exact .tspace he hd (.before hne ha (by simp [List.all_append, hb, hblank]))

/-- A character is given back behind a separator only, and it is not a blank. -/
lemma Reads.back (h : Reads x s) (hturn : s.turn c = .ok none) :
    ∃ w, x = s.item ++ w ∧ IsElement s.item ∧ isSep s.sepchar = true ∧
      IsSeparator s.sepchar w ∧ isblank c = false := by
  have hstate := state_of_turn hturn
  cases h with
  | item | ispace | isep => cases hstate
  | @tspace e w sep d he hd hw =>
    refine ⟨w, rfl, he, hd, hw, ?_⟩
    simp only [Scan.turn] at hturn
    split_ifs at hturn with hblank
    · cases hturn
    · exact Bool.eq_false_iff.mpr hblank

/-- The element and the ending that have been read. -/
lemma Reads.ending (h : Reads x s) :
    ∃ w, x = s.item ++ w ∧ IsElement s.item ∧ IsEnding s.sepchar w := by
  cases h with
  | item he => exact ⟨[], by simp, he, .blanks rfl⟩
  | ispace he hne hw => exact ⟨_, rfl, he, .blanks hw⟩
  | isep he hc hw => exact ⟨_, rfl, he, .run hc hw⟩
  | tspace he hc hw => exact ⟨_, rfl, he, .separator hc hw⟩

/-- An element and what is behind it, up to the end of the line or the next element. -/
lemma Reads.across (h : Reads x s) (hl : nl ∉ l) :
    (∀ s', s.across l = .ok (.ended s') →
      ∃ w, x ++ l = s'.item ++ w ∧ IsElement s'.item ∧ IsEnding s'.sepchar w) ∧
      ∀ c item l', s.across l = .ok (.separator c item l') →
        ∃ w, x ++ l = item ++ (w ++ l') ∧ IsElement item ∧ isSep c = true ∧ IsSeparator c w ∧
          ∃ d ∈ l'.head?, isblank d = false := by
  induction l generalizing x s with
  | nil =>
    constructor
    · rintro s' ⟨⟩
      simpa using h.ending
    · rintro c item l' ⟨⟩
  | cons d l ih =>
    have hd : d ≠ nl := fun h => hl (by simp [h])
    have hl' : nl ∉ l := fun h => hl (by simp [h])
    rw [Scan.across]
    cases hturn : s.turn d with
    | error e => simp
    | ok next =>
      cases next with
      | none =>
        constructor
        · rintro s' ⟨⟩
        · rintro c item l' ⟨⟩
          obtain ⟨w, rfl, he, hc, hw, hblank⟩ := h.back hturn
          exact ⟨w, by simp, he, hc, hw, d, rfl, hblank⟩
      | some s' =>
        have hnext := ih (h.turn hd hturn) hl'
        rw [List.append_assoc, List.singleton_append] at hnext
        exact hnext

/-- The same from the start of a line, when it does not start with a blank. -/
lemma across_start (hl : nl ∉ l) (hhead : ∃ d ∈ l.head?, isblank d = false) :
    (∀ s', start.across l = .ok (.ended s') →
      ∃ w, l = s'.item ++ w ∧ IsElement s'.item ∧ IsEnding s'.sepchar w) ∧
      ∀ c item l', start.across l = .ok (.separator c item l') →
        ∃ w, l = item ++ (w ++ l') ∧ IsElement item ∧ isSep c = true ∧ IsSeparator c w ∧
          ∃ d ∈ l'.head?, isblank d = false := by
  obtain ⟨d, hd, hblank⟩ := hhead
  obtain ⟨l, rfl⟩ : ∃ r, l = d :: r := ⟨l.tail, List.eq_cons_of_mem_head? hd⟩
  have hdnl : d ≠ nl := fun h => hl (by simp [h])
  cases hsep : isSep d with
  | true =>
    have herror : start.across (d :: l) =
        thrown "element cannot start with a separation character" := by
      simp [Scan.across, Scan.turn, start, hblank, hsep, thrown]
    rw [herror, thrown]
    simp
  | false =>
    have hstart : start.across (d :: l) = across ⟨.item, [d], [], 0⟩ l := by
      simp [Scan.across, Scan.turn, start, hblank, hsep]
    rw [hstart]
    exact (Reads.item (isElement_singleton hdnl hblank hsep)).across fun h => hl (by simp [h])

end Scan

/-! ### The text of a line that is read -/

variable {l s w : Str} {is ts es : List Str} {line line' : Line} {c : Byte}

@[simp] lemma Line.inTags_add (line : Line) (item : Str) :
    (line.add item).inTags = line.inTags := by
  rw [Line.add]
  split_ifs <;> rfl

/-- A line that is read starts with an element, and an ending or a separator is behind it. -/
lemma readLine_cases (hl : nl ∉ l) (hhead : ∃ d ∈ l.head?, isblank d = false)
    (h : readLine l line = .ok line') :
    (∃ e c w, l = e ++ w ∧ IsElement e ∧ IsEnding c w) ∨
      ∃ e c w l', l = e ++ (w ++ l') ∧ IsElement e ∧ IsSeparator c w ∧ nl ∉ l' ∧
        (∃ d ∈ l'.head?, isblank d = false) ∧ l'.length < l.length ∧
        (c = comma ∧ readLine l' (line.add e) = .ok line' ∨ c = colon ∧ line.inTags = false ∧
          readLine l' { line.add e with inTags := true } = .ok line') := by
  obtain ⟨hended, hseparator⟩ := Scan.across_start hl hhead
  rw [readLine_eq, parseElement, Scan.run_last hl] at h
  cases hstop : Scan.start.across l with
  | error e =>
    rw [hstop] at h
    cases h
  | ok stop =>
    rw [hstop] at h
    cases stop with
    | ended s' =>
      obtain ⟨w, hw, he, hend⟩ := hended s' hstop
      exact .inl ⟨_, _, w, hw, he, hend⟩
    | separator c item l' =>
      obtain ⟨w, hw, he, hc, hsep, hhead'⟩ := hseparator c item l' hstop
      obtain ⟨hcnl, hl', hlen⟩ := Scan.separator_of_start hl hstop
      refine .inr ⟨item, c, w, l', hw, he, hsep, hl', hhead', hlen, ?_⟩
      simp only [if_neg hcnl, Line.inTags_add] at h
      rcases isSep_iff.mp hc with rfl | rfl
      · rw [if_pos rfl] at h
        cases htags : line.inTags with
        | true =>
          simp [htags, thrown] at h
        | false =>
          rw [htags] at h
          exact .inr ⟨rfl, rfl, h⟩
      · rw [if_neg (by decide)] at h
        exact .inl ⟨rfl, h⟩

/-- Behind the colon. By induction on the length of what is left. -/
lemma elements_of_readLine (hl : nl ∉ l) (hhead : ∃ d ∈ l.head?, isblank d = false)
    (htags : line.inTags = true) (h : readLine l line = .ok line') :
    ∃ s es c w, l = s ++ w ∧ IsElements s es ∧ IsEnding c w := by
  induction hn : l.length using Nat.strong_induction_on generalizing l line with
  | _ n ih =>
    subst hn
    rcases readLine_cases hl hhead h with ⟨e, c, w, rfl, he, hw⟩ |
      ⟨e, c, w, l', rfl, he, hsep, hl', hhead', hlen, ⟨rfl, h'⟩ | ⟨rfl, hfalse, -⟩⟩
    · exact ⟨e, [e], c, w, rfl, .one he, hw⟩
    · obtain ⟨s, es, d, w', rfl, hs, hw'⟩ := ih _ hlen hl' hhead' (by simpa using htags) h' rfl
      exact ⟨_, _, d, w', by simp, .cons he hsep hs, hw'⟩
    · rw [htags] at hfalse
      cases hfalse

lemma IsFields.cons {e : Str} (he : IsElement e) (hw : IsSeparator comma w)
    (hs : IsFields s is ts) : IsFields (e ++ (w ++ s)) (e :: is) ts := by
  cases hs with
  | items hs => exact .items (.cons he hw hs)
  | tagged hs hsep hr => simpa using IsFields.tagged (.cons he hw hs) hsep hr

/-- From the first element on. By induction on the length of what is left. -/
lemma fields_of_readLine (hl : nl ∉ l) (hhead : ∃ d ∈ l.head?, isblank d = false)
    (htags : line.inTags = false) (h : readLine l line = .ok line') :
    ∃ s is ts c w, l = s ++ w ∧ IsFields s is ts ∧ IsEnding c w := by
  induction hn : l.length using Nat.strong_induction_on generalizing l line with
  | _ n ih =>
    subst hn
    rcases readLine_cases hl hhead h with ⟨e, c, w, rfl, he, hw⟩ |
      ⟨e, c, w, l', rfl, he, hsep, hl', hhead', hlen, ⟨rfl, h'⟩ | ⟨rfl, -, h'⟩⟩
    · exact ⟨e, [e], [], c, w, rfl, .items (.one he), hw⟩
    · obtain ⟨s, is, ts, d, w', rfl, hs, hw'⟩ :=
        ih _ hlen hl' hhead' (by simpa using htags) h' rfl
      exact ⟨_, _, _, d, w', by simp, .cons he hsep hs, hw'⟩
    · obtain ⟨s, ts, d, w', rfl, hs, hw'⟩ := elements_of_readLine hl' hhead' rfl h'
      exact ⟨_, _, _, d, w', by simp, .tagged (.one he) hsep hs, hw'⟩

lemma isRead_of_readLine (hl : nl ∉ l) (h : readLine l Line.start = .ok line') :
    ∃ c, IsRead c l := by
  obtain ⟨a, r, rfl, ha, hr⟩ : ∃ a r, l = a ++ r ∧ a.all isblank = true ∧
      ∀ d ∈ r.head?, isblank d = false := by
    refine ⟨l.takeWhile isblank, l.dropWhile isblank, by simp, List.all_takeWhile, fun d hd => ?_⟩
    have hnot := List.head?_dropWhile_not isblank l
    rw [Option.mem_def.mp hd] at hnot
    exact hnot
  rw [readLine_lspace ha] at h
  rcases r with _ | ⟨d, r⟩
  · rw [List.append_nil]
    exact ⟨0, .blank ha⟩
  · obtain ⟨s, is, ts, c, w, hsplit, hs, hw⟩ :=
      fields_of_readLine (fun hmem => hl (by simp [hmem])) ⟨d, rfl, hr d rfl⟩ rfl h
    rw [hsplit]
    exact ⟨c, .fields ha hs hw⟩

/-! ### Reading the end of a line -/

namespace Scan

lemma run_isep {w : Str} (hw : w.all isSep = true) (item sep : Str) (c : Byte) (r : Str) :
    run ⟨.isep, item, sep, c⟩ (w ++ r) = run ⟨.isep, item, sep ++ w, c⟩ r := by
  induction w generalizing sep with
  | nil => simp
  | cons d w ih =>
    rw [List.all_cons, Bool.and_eq_true] at hw
    rw [List.cons_append, run_isep_sep hw.1, ih hw.2]
    simp

/-- An ending leaves its separator character in the state, and the element as it is. -/
lemma run_ending {c : Byte} {w : Str} (hw : IsEnding c w) (e : Str) :
    ∃ s : Scan, s.item = e ∧ s.sepchar = c ∧
      ∀ r, run ⟨.item, e, [], 0⟩ (w ++ r) = s.run r := by
  cases hw with
  | blanks hw => exact run_blanks hw e
  | @run c w hc hw =>
    refine ⟨⟨.isep, e, [c] ++ w, c⟩, rfl, rfl, fun r => ?_⟩
    rw [List.cons_append, run_item_sep hc, run_isep hw, List.nil_append]
  | separator hc hw =>
    obtain ⟨sep, hrun⟩ := run_isSeparator hc hw e
    exact ⟨⟨.tspace, e, sep, _⟩, rfl, rfl, hrun⟩

end Scan

/-- The last element of a file. -/
lemma readLine_ending {e : Str} (he : IsElement e) (hw : IsEnding c w) (line : Line) :
    readLine (e ++ w) line = .ok (line.add e) := by
  obtain ⟨s, rfl, rfl, hrun⟩ := Scan.run_ending hw e
  rw [readLine_eq, parseElement, Scan.run_element he, ← List.append_nil w, hrun]
  rfl

/-- The last element of a line that a newline ends. -/
lemma readLine_ending_nl {e : Str} (he : IsElement e) (hw : IsEnding c w) (line : Line) :
    readLine (e ++ (w ++ [nl])) line =
      if c = comma then thrown "separator character ends the line" else .ok (line.add e) := by
  obtain ⟨s, rfl, rfl, hrun⟩ := Scan.run_ending hw e
  rw [readLine_eq, parseElement, Scan.run_element he, hrun, Scan.run_nl]
  rcases hw.sepchar with hc | hc | hc <;> rw [hc] <;> rfl

/-- A line at the end of the file and the same line with a newline: both are read, with the same
sets, but for a comma left over, with which the newline throws. -/
lemma IsRead.readLine (h : IsRead c l) :
    ∃ line, readLine l Line.start = .ok line ∧ (line.tagset ≠ ∅ → line.itemset ≠ ∅) ∧
      readLine (l ++ [nl]) Line.start =
        if c = comma then thrown "separator character ends the line" else .ok line := by
  cases h with
  | blank hb =>
    have hlast := readLine_lspace hb [] Line.start
    rw [List.append_nil] at hlast
    refine ⟨Line.start, ?_, by simp [Line.start], ?_⟩
    · rw [hlast, readLine_eq]
      rfl
    · rw [readLine_lspace hb, readLine_eq, if_neg (by decide)]
      rfl
  | @fields a s w is ts c ha hs hw =>
    obtain ⟨line, hline, hitems, -, hne⟩ := readLine_fields hs
    refine ⟨line, ?_, fun _ hempty => ?_, ?_⟩
    · rw [readLine_lspace ha]
      exact hline w .ok fun e line he => readLine_ending he hw line
    · obtain ⟨i, hi⟩ := List.exists_mem_of_ne_nil is hne
      have hi := (hitems i).mpr hi
      rw [hempty] at hi
      exact ExtTreeSet.not_mem_empty hi
    · rw [List.append_assoc, readLine_lspace ha, List.append_assoc]
      exact hline (w ++ [nl])
        (fun line => if c = comma then thrown "separator character ends the line" else .ok line)
        fun e line he => readLine_ending_nl he hw line

/-- What a newline lets pass, the end of the file does too. By induction on the length of what is
left of the line. -/
lemma readLine_of_nl (hl : nl ∉ l) (h : readLine (l ++ [nl]) line = .ok line') :
    readLine l line = .ok line' := by
  induction hn : l.length using Nat.strong_induction_on generalizing l line with
  | _ n ih =>
    subst hn
    rw [readLine_eq, parseElement, Scan.run_line hl] at h
    rw [readLine_eq, parseElement, Scan.run_last hl]
    cases hstop : Scan.start.across l with
    | error e =>
      rw [hstop] at h
      cases h
    | ok stop =>
      rw [hstop] at h
      cases stop with
      | ended s =>
        simp only [Scan.run_nl] at h
        split_ifs at h
        · cases h
        · exact h
      | separator c item l' =>
        obtain ⟨hc, hl', hlen⟩ := Scan.separator_of_start hl hstop
        simp only [if_neg hc] at h ⊢
        split_ifs at h ⊢ with hcolon htags
        · cases h
        · exact ih _ hlen hl' h rfl
        · exact ih _ hlen hl' h rfl

lemma isRead_of_readLine_nl (hl : nl ∉ l) (h : readLine (l ++ [nl]) Line.start = .ok line') :
    ∃ c, c ≠ comma ∧ IsRead c l := by
  obtain ⟨c, hread⟩ := isRead_of_readLine hl (readLine_of_nl hl h)
  refine ⟨c, ?_, hread⟩
  rintro rfl
  obtain ⟨line, -, -, hthrow⟩ := hread.readLine
  rw [if_pos rfl, h] at hthrow
  cases hthrow

/-! ### Accepted lines -/

lemma IsFields.not_mem_nl (hs : IsFields s is ts) : nl ∉ s := by
  cases hs with
  | items hs => exact hs.not_mem_nl
  | tagged hs hsep hr => simpa using ⟨hs.not_mem_nl, hsep.not_mem_nl (by decide), hr.not_mem_nl⟩

/-- An ending has no ordinary characters. -/
lemma IsEnding.all (hw : IsEnding c w) : ∀ d ∈ w, isblank d = true ∨ isSep d = true := by
  cases hw with
  | blanks hw => exact fun d hd => .inl (List.all_eq_true.mp hw d hd)
  | run hc hw =>
    intro d hd
    rcases List.mem_cons.mp hd with rfl | hd
    · exact .inr hc
    · exact .inr (List.all_eq_true.mp hw d hd)
  | separator hc hw =>
    cases hw with
    | behind hne hb =>
      intro d hd
      rcases List.mem_cons.mp hd with rfl | hd
      · exact .inr hc
      · exact .inl (List.all_eq_true.mp hb d hd)
    | before hne ha hb =>
      intro d hd
      rcases List.mem_append.mp hd with hd | hd
      · exact .inl (List.all_eq_true.mp ha d hd)
      · rcases List.mem_cons.mp hd with rfl | hd
        · exact .inr hc
        · exact .inl (List.all_eq_true.mp hb d hd)

lemma IsEnding.not_mem_nl (hw : IsEnding c w) : nl ∉ w := by
  intro h
  rcases hw.all nl h with h | h <;> exact absurd h (by decide)

lemma IsRead.not_mem_nl (h : IsRead c l) : nl ∉ l := by
  cases h with
  | blank hb => exact not_mem_nl_of_blank hb
  | fields ha hs hw => simpa using ⟨not_mem_nl_of_blank ha, hs.not_mem_nl, hw.not_mem_nl⟩

/-- A line is accepted when no comma is left over at its end. -/
lemma parse_nl_ok_iff (hl : nl ∉ l) (out : Fast) :
    (parse (l ++ [nl]) out).1 = .ok () ↔ ∃ c, c ≠ comma ∧ IsRead c l := by
  rw [parse_whole_line hl]
  constructor
  · intro h
    cases hline : readLine (l ++ [nl]) Line.start with
    | error e =>
      rw [hline] at h
      cases h
    | ok line => exact isRead_of_readLine_nl hl hline
  · rintro ⟨c, hc, hread⟩
    obtain ⟨line, -, htags, hline⟩ := hread.readLine
    obtain ⟨out', hout'⟩ := Line.finish_ok htags out
    rw [hline, if_neg hc]
    simp only [hout']

end Libept.TextFormat
