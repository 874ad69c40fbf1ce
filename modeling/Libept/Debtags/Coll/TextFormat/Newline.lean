import Libept.Debtags.Coll.TextFormat.Accepted

/-!
# The newline of the last line

A file is read as the same file with a newline behind it, but for a comma left over at its end:
the end of the file lets it pass, and the newline throws.
-/

namespace Libept.TextFormat

variable {l r s : Str} {c : Byte} {out : Fast}

/-- Both calls return normally, or both throw, and they leave the same collection. -/
def Agree (x y : Except Failure Unit × Fast) : Prop := x.1.isOk = y.1.isOk ∧ x.2 = y.2

/-- All lines but the last one are accepted, and the last one ends with a comma left over. -/
inductive EndsInComma : Str → Prop
  | last {l : Str} (h : IsRead comma l) : EndsInComma l
  | line {l r : Str} {c : Byte} (hc : c ≠ comma) (hl : IsRead c l) (hr : EndsInComma r) :
    EndsInComma (l ++ nl :: r)

/-! ### The last line -/

lemma IsRead.parse_last (h : IsRead c l) (out : Fast) :
    ∃ out', parse l out = (.ok (), out') ∧ parse (l ++ [nl]) out =
      if c = comma then (thrown "separator character ends the line", out) else (.ok (), out') := by
  obtain ⟨line, hline, htags, hnl⟩ := h.readLine
  obtain ⟨out', hout'⟩ := Line.finish_ok htags out
  refine ⟨out', ?_, ?_⟩
  · rw [parse, parseLoop_last h.not_mem_nl, hline]
    exact hout'
  · rw [parse_whole_line h.not_mem_nl, hnl]
    split_ifs
    · rfl
    · exact hout'

/-- A line that the end of the file does not let pass throws with a newline, too. -/
lemma parse_not_isRead (hl : nl ∉ l) (h : ∀ c, ¬IsRead c l) (out : Fast) :
    (∃ e, parse l out = (.error e, out)) ∧ ∃ e, parse (l ++ [nl]) out = (.error e, out) := by
  constructor
  · cases hline : readLine l Line.start with
    | ok line =>
      obtain ⟨c, hread⟩ := isRead_of_readLine hl hline
      exact absurd hread (h c)
    | error e =>
      refine ⟨e, ?_⟩
      rw [parse, parseLoop_last hl, hline]
  · cases hline : readLine (l ++ [nl]) Line.start with
    | ok line =>
      obtain ⟨c, -, hread⟩ := isRead_of_readLine_nl hl hline
      exact absurd hread (h c)
    | error e =>
      refine ⟨e, ?_⟩
      rw [parse_whole_line hl, hline]

/-- A comma is left over, or it is not. -/
lemma IsRead.ne_comma (h : IsRead c l) (hc : c ≠ comma) : ¬IsRead comma l := by
  intro hcomma
  obtain ⟨line, -, -, hnl⟩ := h.readLine
  obtain ⟨line', -, -, hthrow⟩ := hcomma.readLine
  rw [hnl, if_neg hc, if_pos rfl] at hthrow
  cases hthrow

lemma agree_last_iff (hl : nl ∉ l) (out : Fast) :
    Agree (parse l out) (parse (l ++ [nl]) out) ↔ ¬IsRead comma l := by
  by_cases h : ∃ c, IsRead c l
  · obtain ⟨c, hread⟩ := h
    obtain ⟨out', hlast, hnl⟩ := hread.parse_last out
    rw [hlast, hnl]
    split_ifs with hc
    · subst hc
      exact iff_of_false (fun hagree => by cases hagree.1) (not_not_intro hread)
    · exact iff_of_true ⟨rfl, rfl⟩ (hread.ne_comma hc)
  · obtain ⟨⟨e, he⟩, e', he'⟩ := parse_not_isRead hl (not_exists.mp h) out
    rw [he, he']
    exact iff_of_true ⟨rfl, rfl⟩ (not_exists.mp h comma)

/-! ### Files -/

lemma endsInComma_last (hl : nl ∉ l) : EndsInComma l ↔ IsRead comma l := by
  constructor
  · intro h
    cases h with
    | last h => exact h
    | line => simp at hl
  · exact .last

lemma endsInComma_line (hl : nl ∉ l) :
    EndsInComma (l ++ nl :: r) ↔ (∃ c, c ≠ comma ∧ IsRead c l) ∧ EndsInComma r := by
  constructor
  · intro h
    generalize hs : l ++ nl :: r = s at h
    cases h with
    | last h => exact absurd (by simp [← hs]) h.not_mem_nl
    | @line l' r' c hc hl' hr =>
      obtain ⟨rfl, -, rfl⟩ := Lines.append_cons_inj (P := (· ≠ nl)) (fun x hx h => hl (h ▸ hx))
        (fun x hx h => hl'.not_mem_nl (h ▸ hx)) (by simp) (by simp) hs
      exact ⟨⟨c, hc, hl'⟩, hr⟩
  · rintro ⟨⟨c, hc, hread⟩, hr⟩
    exact .line hc hread hr

/-- A newline behind a file makes no difference, exactly if the file does not end with a comma
left over. By induction on the lines. -/
theorem parse_newline_iff (s : Str) (out : Fast) :
    Agree (parse s out) (parse (s ++ [nl]) out) ↔ ¬EndsInComma s := by
  induction s using Lines.induction nl generalizing out with
  | last l hl => rw [agree_last_iff hl, endsInComma_last hl]
  | line l r hl ih =>
    rw [List.append_assoc, List.cons_append, parse_line hl, parse_line hl (r ++ [nl]),
      endsInComma_line hl]
    by_cases h : ∃ c, c ≠ comma ∧ IsRead c l
    · obtain ⟨c, hc, hread⟩ := h
      obtain ⟨out', -, hnl⟩ := hread.parse_last out
      rw [hnl, if_neg hc]
      simp only [ih, and_iff_right (show ∃ c, c ≠ comma ∧ IsRead c l from ⟨c, hc, hread⟩)]
    -- the first line throws, in both files
    · rw [← parse_nl_ok_iff hl out] at h
      rcases hparse : parse (l ++ [nl]) out with ⟨e | _, out'⟩
      · exact iff_of_true ⟨rfl, rfl⟩ fun hends => h ((parse_nl_ok_iff hl out).mpr hends.1)
      · exact absurd (by rw [hparse]) h

/-- A comma behind the only element of a file. -/
theorem newline_throws :
    (parse (str "a,") Fast.empty).1 = .ok () ∧
      ¬Agree (parse (str "a,") Fast.empty) (parse (str "a," ++ [nl]) Fast.empty) := by
  have ha : IsElements (str "a") [str "a"] :=
    .one (isElement_singleton (by decide) (by decide) (by decide))
  have hread : IsRead comma (str "a,") :=
    .fields (a := []) (w := [comma]) rfl (.items ha) (.run (by decide) rfl)
  obtain ⟨out', hlast, -⟩ := hread.parse_last Fast.empty
  refine ⟨by rw [hlast], fun hagree => ?_⟩
  exact (agree_last_iff hread.not_mem_nl Fast.empty).mp hagree hread

end Libept.TextFormat
