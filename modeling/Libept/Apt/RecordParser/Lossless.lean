import Libept.Apt.RecordParser.Fields

/-!
# What a scan loses

The fields of a record are meant to be all of it, up to its first empty line. A scan does less when
the last line is one byte long and has no newline, which the unsigned guard of the loop skips.
-/

namespace Libept.RecordParser

/-- The part of a record up to and including the newline before its first empty line, the whole
record if there is none. -/
def upToEmptyLine : Str → Str
  | [] => []
  | [c] => [c]
  | c :: d :: r => if c = nl ∧ d = nl then [nl] else c :: upToEmptyLine (d :: r)

/-- There is an empty line, or the last line is not a single byte. -/
def EndsSeen (r : Str) : Prop := [nl, nl] <:+: r ∨ ¬∃ p c, r = p ++ [nl, c]

/-- Unless a line ends here, whether the end is seen does not depend on the first byte. -/
lemma endsSeen_cons {c d : Byte} {r : Str} (h : c ≠ nl ∨ d ≠ nl ∧ r ≠ []) :
    EndsSeen (c :: d :: r) ↔ EndsSeen (d :: r) := by
  have hpair : [nl, nl] <:+: c :: d :: r ↔ [nl, nl] <:+: d :: r := by
    rw [List.infix_cons_iff, or_iff_right]
    rintro ⟨t, ht⟩
    simp only [List.cons_append, List.nil_append, List.cons.injEq] at ht
    rcases h with h | h
    · exact h ht.1.symm
    · exact h.1 ht.2.1.symm
  have hlast : (∃ p x, c :: d :: r = p ++ [nl, x]) ↔ ∃ p x, d :: r = p ++ [nl, x] := by
    constructor
    · rintro ⟨p, x, hp⟩
      rcases p with _ | ⟨y, p⟩
      · simp only [List.nil_append, List.cons.injEq] at hp
        rcases h with h | h
        · exact absurd hp.1 h
        · exact absurd hp.2.2 h.2
      · exact ⟨p, x, (List.cons.inj hp).2⟩
    · rintro ⟨p, x, hp⟩
      exact ⟨c :: p, x, by rw [hp, List.cons_append]⟩
  rw [EndsSeen, EndsSeen, hpair, hlast]

lemma upToEmptyLine_cons {c d : Byte} {r : Str} (h : c ≠ nl ∨ d ≠ nl) :
    upToEmptyLine (c :: d :: r) = c :: upToEmptyLine (d :: r) := by
  rw [upToEmptyLine, if_neg (by tauto)]

lemma endsSeen_singleton (c : Byte) : EndsSeen [c] := by
  refine .inr ?_
  rintro ⟨p, x, hp⟩
  have hlen := congrArg List.length hp
  simp at hlen

/-- A line break before the last byte is not seen. -/
lemma not_endsSeen {c : Byte} (h : c ≠ nl) : ¬EndsSeen [nl, c] := by
  rintro (hpair | hlast)
  · have := hpair.eq_of_length rfl
    simp only [List.cons.injEq] at this
    exact h this.2.1.symm
  · exact hlast ⟨[], c, rfl⟩

/-- From the middle of a field on, the fields are all of the rest exactly when its end is seen. -/
lemma flatten_fieldTextsFrom_iff (acc r : Str) :
    (fieldTextsFrom acc r).flatten = acc ++ upToEmptyLine r ↔ EndsSeen r := by
  fun_induction fieldTextsFrom acc r with
  | case1 acc => simp [upToEmptyLine, EndsSeen]
  | case2 acc rest h =>
    rcases rest with _ | ⟨d, r⟩
    · simp [upToEmptyLine, endsSeen_singleton]
    · obtain rfl : d = nl := by simpa using h
      have hseen : EndsSeen (nl :: nl :: r) := .inl ⟨[], r, rfl⟩
      simp [upToEmptyLine, hseen]
  | case3 acc rest h hlen hs | case4 acc rest h hlen hs =>
    obtain ⟨d, rfl⟩ := List.length_eq_one_iff.mp hlen
    have hd : d ≠ nl := by simpa using h
    simp [upToEmptyLine, hd, not_endsSeen hd]
  | case5 acc rest h hlen hs ih | case6 acc rest h hlen hs ih =>
    rcases rest with _ | ⟨d, r⟩
    · simp at h
    have hd : d ≠ nl := by simpa using h
    have hr : r ≠ [] := by simpa using hlen
    rw [upToEmptyLine_cons (.inr hd), endsSeen_cons (.inr ⟨hd, hr⟩), ← ih]
    simp
  | case7 acc c rest hc ih =>
    rcases rest with _ | ⟨d, r⟩
    · simp [fieldTextsFrom, upToEmptyLine, endsSeen_singleton]
    · rw [upToEmptyLine_cons (.inl hc), endsSeen_cons (.inl hc), ← ih]
      simp

/-! ### Lossless scans -/

lemma flatten_fields_scan (S : Sorter ℕ) (s : Str) :
    ((List.range (scan S s).size).map (scan S s).field).flatten = (fieldTexts s).flatten := by
  rw [fields_scan]

/-- The fields are the record up to its first empty line exactly if there is an empty line, or the
record is not a single byte and its last line is not a single byte without a newline. -/
theorem scan_lossless_iff (S : Sorter ℕ) (s : Str) :
    ((List.range (scan S s).size).map (scan S s).field).flatten = upToEmptyLine s ↔
      [nl, nl] <:+: s ∨ s.length ≠ 1 ∧ ¬∃ p c, s = p ++ [nl, c] := by
  rw [flatten_fields_scan, fieldTexts]
  split_ifs with h
  · obtain ⟨c, rfl⟩ := List.length_eq_one_iff.mp h
    have hpair : ¬[nl, nl] <:+: [c] := fun hc => by simpa using hc.length_le
    simp [upToEmptyLine, hpair]
  · rw [← List.nil_append (upToEmptyLine s), flatten_fieldTextsFrom_iff]
    simp [EndsSeen, h]

/-- The last line of a record is lost when it is one byte without a newline. -/
theorem scan_loses_last_byte :
    ((List.range (scan .merge (str "A: b\nx")).size).map
      (scan .merge (str "A: b\nx")).field).flatten ≠ upToEmptyLine (str "A: b\nx") := by
  rw [flatten_fields_scan]
  decide

end Libept.RecordParser
