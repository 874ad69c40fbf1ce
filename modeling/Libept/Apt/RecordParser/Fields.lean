import Libept.Apt.RecordParser
import Libept.Lib.Lines

/-!
# The fields of a record

`fieldTexts` cuts a record into its fields by one structural pass over the bytes. The offset table
that `scan` builds represents exactly this list: `field i` is its `i`-th element. What the scan
loses is read off the list.
-/

namespace Libept.RecordParser

/-! ### Cutting a record into fields -/

/-- The fields from the middle of a field on, of which `acc` has been read. A last line of one byte
ends the scan without a field. -/
def fieldTextsFrom (acc : Str) : Str → List Str
  | [] => [acc]
  | c :: rest =>
    if c = nl then
      if rest = [] ∨ rest.headD 0 = nl then [acc ++ [nl]]
      else if rest.length = 1 then
        if isspace (rest.headD 0) then [] else [acc ++ [nl]]
      else if isspace (rest.headD 0) then fieldTextsFrom (acc ++ [nl]) rest
      else (acc ++ [nl]) :: fieldTextsFrom [] rest
    else fieldTextsFrom (acc ++ [c]) rest

/-- The fields of a record. The scan does not start on a record of one byte. -/
def fieldTexts (s : Str) : List Str := if s.length = 1 then [] else fieldTextsFrom [] s

lemma fieldTextsFrom_append {l : Str} (hl : nl ∉ l) (acc r : Str) :
    fieldTextsFrom acc (l ++ r) = fieldTextsFrom (acc ++ l) r := by
  induction l generalizing acc with
  | nil => simp
  | cons c l ih =>
    have hc : c ≠ nl := fun h => hl (by simp [h])
    have hl' : nl ∉ l := fun h => hl (by simp [h])
    rw [List.cons_append, fieldTextsFrom, if_neg hc, ih hl', List.append_assoc,
      List.singleton_append]

/-- No byte is invented: the fields in order are a prefix of the record. -/
lemma fieldTextsFrom_flatten_isPrefix (acc r : Str) :
    (fieldTextsFrom acc r).flatten <+: acc ++ r := by
  fun_induction fieldTextsFrom acc r with
  | case1 acc => simp
  | case2 acc rest h => simp
  | case3 acc rest h hlen hs => simp
  | case4 acc rest h hlen hs => simp
  | case5 acc rest h hlen hs ih => simpa using ih
  | case6 acc rest h hlen hs ih => simpa using ih
  | case7 acc c rest hc ih => simpa using ih

/-! ### The offset table -/

/-- End offsets of consecutive strings, the first of which begins at `start`. -/
def offsets (start : ℕ) : List Str → List ℕ
  | [] => []
  | f :: fs => (start + f.length) :: offsets (start + f.length) fs

@[simp] lemma length_offsets (start : ℕ) (fs : List Str) :
    (offsets start fs).length = fs.length := by
  induction fs generalizing start with
  | nil => rfl
  | cons f fs ih => simp [offsets, ih]

lemma lt_predSize {pre r : Str} (h : 2 ≤ r.length ∨ pre ++ r = []) :
    pre.length < predSize (pre ++ r).length := by
  rw [predSize]
  rcases h with h | h
  · rw [if_neg (by rw [List.length_append]; omega), List.length_append]
    omega
  · obtain ⟨rfl, rfl⟩ := List.append_eq_nil_iff.mp h
    simp

lemma getD_append_length (pre r : Str) : (pre ++ r).getD pre.length 0 = r.headD 0 := by
  cases r <;> simp

/-- With one byte left the loop guard fails. -/
lemma scanLoop_stop {pre r : Str} (h : r.length = 1) (idx : ℕ) (ends sorted : List ℕ) :
    scanLoop (pre ++ r) pre.length idx ends sorted = (ends, sorted) := by
  rw [scanLoop, if_neg]
  rw [predSize]
  rw [if_neg (by rw [List.length_append]; omega), List.length_append]
  omega

/-- With no newline ahead the last field is the rest of the buffer. -/
lemma scanLoop_last {pre l : Str} (hl : nl ∉ l) (h : pre.length < predSize (pre ++ l).length)
    (idx : ℕ) (ends sorted : List ℕ) :
    scanLoop (pre ++ l) pre.length idx ends sorted =
      (ends ++ [(pre ++ l).length], sorted ++ [idx]) := by
  rw [scanLoop, if_pos h]
  split
  case h_1 => rfl
  case h_2 q hq =>
    rw [find_of_not_mem hl] at hq
    cases hq

/-- A turn of the loop goes behind the next newline. It is the last one when nothing or another
newline is there. -/
lemma scanLoop_line {pre l r : Str} (hl : nl ∉ l)
    (h : pre.length < predSize (pre ++ (l ++ nl :: r)).length) (idx : ℕ) (ends sorted : List ℕ) :
    scanLoop (pre ++ (l ++ nl :: r)) pre.length idx ends sorted =
      if r = [] ∨ r.headD 0 = nl then
        (ends ++ [(pre ++ (l ++ [nl])).length], sorted ++ [idx])
      else if isspace (r.headD 0) then
        scanLoop (pre ++ (l ++ [nl]) ++ r) (pre ++ (l ++ [nl])).length idx ends sorted
      else
        scanLoop (pre ++ (l ++ [nl]) ++ r) (pre ++ (l ++ [nl])).length (idx + 1)
          (ends ++ [(pre ++ (l ++ [nl])).length]) (sorted ++ [idx]) := by
  rw [scanLoop, if_pos h]
  split
  case h_1 hq =>
    rw [find_append hl] at hq
    cases hq
  case h_2 q hq =>
    rw [find_append hl, Option.some.injEq] at hq
    have hcont : pre ++ (l ++ nl :: r) = pre ++ (l ++ [nl]) ++ r := by simp
    have hend : q + 1 = (pre ++ (l ++ [nl])).length := by
      simp only [List.length_append, List.length_singleton] at hq ⊢
      omega
    rw [hcont, hend, getD_append_length, @List.length_append _ (pre ++ _)]
    rcases r with _ | ⟨c, r⟩
    · simp
    · by_cases hnl : c = nl
      · simp [hnl]
      · cases hspace : isspace c <;> simp [hnl, hspace]

/-- From the start of a line on, the loop records the ends of the fields that are left. -/
lemma scanLoop_eq (r pre acc : Str) (idx : ℕ) (ends sorted : List ℕ)
    (h : 2 ≤ r.length ∨ pre ++ acc ++ r = []) :
    scanLoop (pre ++ acc ++ r) (pre ++ acc).length idx ends sorted =
      (ends ++ offsets pre.length (fieldTextsFrom acc r),
        sorted ++ List.range' idx (fieldTextsFrom acc r).length) := by
  induction r using Lines.induction nl generalizing pre acc idx ends sorted with
  | last l hl =>
    have htexts : fieldTextsFrom acc l = [acc ++ l] := by
      simpa [fieldTextsFrom] using fieldTextsFrom_append hl acc []
    rw [scanLoop_last hl (lt_predSize h), htexts]
    simp [offsets]
  | line l r hl ih =>
    have htexts : fieldTextsFrom acc (l ++ nl :: r) = fieldTextsFrom (acc ++ l) (nl :: r) :=
      fieldTextsFrom_append hl acc (nl :: r)
    have hassoc : pre ++ acc ++ (l ++ [nl]) = pre ++ (acc ++ l ++ [nl]) := by simp
    rw [scanLoop_line hl (lt_predSize h), htexts, fieldTextsFrom, if_pos rfl, hassoc]
    by_cases hstop : r = [] ∨ r.headD 0 = nl
    · rw [if_pos hstop, if_pos hstop]
      simp [offsets]
    rw [if_neg hstop, if_neg hstop]
    by_cases hone : r.length = 1
    -- one byte is left: the loop leaves without a field for it
    · rw [scanLoop_stop hone, scanLoop_stop hone, if_pos hone]
      cases isspace (r.headD 0) <;> simp [offsets]
    have hlen : 2 ≤ r.length := by
      have hpos := List.length_pos_iff.mpr (not_or.mp hstop).1
      omega
    rw [if_neg hone]
    cases hspace : isspace (r.headD 0) with
    | true =>
      rw [if_pos rfl, if_pos rfl]
      exact ih pre (acc ++ l ++ [nl]) idx ends sorted (.inl hlen)
    | false =>
      rw [if_neg Bool.false_ne_true, if_neg Bool.false_ne_true]
      have hrest := ih (pre ++ (acc ++ l ++ [nl])) [] (idx + 1)
        (ends ++ [(pre ++ (acc ++ l ++ [nl])).length]) (sorted ++ [idx]) (.inl hlen)
      rw [List.append_nil] at hrest
      rw [hrest, offsets, List.length_cons, List.range'_succ, @List.length_append _ pre]
      simp only [List.append_assoc, List.singleton_append]

lemma getElem?_offsets (start : ℕ) (fs : List Str) (i : ℕ) :
    (offsets start fs)[i]? =
      fs[i]?.map fun f => start + (fs.take i).flatten.length + f.length := by
  induction fs generalizing start i with
  | nil => simp [offsets]
  | cons f fs ih =>
    cases i with
    | zero => simp [offsets]
    | succ i => simp [offsets, ih, Nat.add_assoc]

/-- The offset before a field is the length of the fields in front of it. -/
lemma getD_offsets_pred {fs : List Str} {i : ℕ} (h : i < fs.length) (hi : i ≠ 0) :
    (offsets 0 fs).getD (i - 1) 0 = (fs.take i).flatten.length := by
  obtain ⟨j, rfl⟩ := Nat.exists_eq_add_one_of_ne_zero hi
  have hj : j < fs.length := Nat.lt_of_succ_lt h
  rw [Nat.add_sub_cancel, List.getD_eq_getElem?_getD, getElem?_offsets,
    List.getElem?_eq_getElem hj, List.take_succ_eq_append_getElem hj, Option.map_some,
    Option.getD_some, Nat.zero_add, List.flatten_append, List.length_append, List.flatten_singleton]

/-- With the offsets of `fs` and a buffer that starts with `fs`, the fields are `fs`. -/
lemma field_of_offsets {fs : List Str} {buffer : Str} (h : fs.flatten <+: buffer)
    (sorted : List ℕ) (i : ℕ) :
    field ⟨buffer, offsets 0 fs, sorted⟩ i = fs.getD i [] := by
  rcases lt_or_ge i fs.length with hi | hi
  · have hend : (offsets 0 fs)[i]? = some ((fs.take i).flatten.length + fs[i].length) := by
      rw [getElem?_offsets, List.getElem?_eq_getElem hi, Option.map_some, Nat.zero_add]
    have hcut : substr buffer (fs.take i).flatten.length fs[i].length = fs[i] := by
      obtain ⟨rest, rfl⟩ := h
      have hsplit : fs.flatten ++ rest =
          (fs.take i).flatten ++ (fs[i] ++ ((fs.drop (i + 1)).flatten ++ rest)) := by
        conv_lhs => rw [← List.take_append_drop i fs, ← List.cons_getElem_drop_succ (h := hi)]
        simp only [List.flatten_append, List.flatten_cons, List.append_assoc]
      rw [hsplit, substr, List.drop_left, List.take_left]
    simp only [field, hend, List.getD_eq_getElem _ _ hi]
    by_cases h0 : i = 0
    · subst h0
      simpa using hcut
    · rw [if_neg h0, getD_offsets_pred hi h0, Nat.add_sub_cancel_left, hcut]
  · have hend : (offsets 0 fs)[i]? = none := List.getElem?_eq_none (by simpa using hi)
    simp only [field, hend, List.getD_eq_default _ _ hi]

/-! ### The record after a scan -/

lemma fieldTexts_flatten_isPrefix (s : Str) : (fieldTexts s).flatten <+: s := by
  rw [fieldTexts]
  split_ifs
  · exact List.nil_prefix
  · exact fieldTextsFrom_flatten_isPrefix [] s

lemma scanLoop_zero (s : Str) :
    scanLoop s 0 0 [] [] = (offsets 0 (fieldTexts s), List.range (fieldTexts s).length) := by
  rw [fieldTexts]
  split_ifs with h
  · exact @scanLoop_stop [] s h 0 [] []
  · have hlen : 2 ≤ s.length ∨ [] ++ [] ++ s = [] := by
      rcases s with _ | ⟨a, _ | ⟨b, s⟩⟩
      · exact .inr rfl
      · exact absurd rfl h
      · exact .inl (by simp)
    simpa [List.range_eq_range'] using scanLoop_eq s [] [] 0 [] [] hlen

variable (S : Sorter ℕ) (s : Str)

@[simp] lemma size_scan : (scan S s).size = (fieldTexts s).length := by
  simp [scan, size, scanLoop_zero]

@[simp] lemma field_scan (i : ℕ) : (scan S s).field i = (fieldTexts s).getD i [] := by
  rw [scan, scanLoop_zero]
  exact field_of_offsets (fieldTexts_flatten_isPrefix s) _ i

lemma fields_scan : (List.range (scan S s).size).map (scan S s).field = fieldTexts s := by
  apply List.ext_getElem (by simp)
  intro i h₁ h₂
  simp [h₂]

end Libept.RecordParser
