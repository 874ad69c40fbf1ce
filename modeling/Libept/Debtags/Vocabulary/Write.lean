import Libept.Debtags.Maint.DebDBParser.Append
import Libept.Debtags.Maint.DebDBParser.Values
import Libept.Debtags.Vocabulary

/-!
# Reading what has been written

`write` gives the text of groups of fields with an empty line behind each. A value that the parser
has read is read back as it is, unless it ends with a newline: then the line that should end the
field is an empty line, and it ends the record. The name of a facet may be any beginning of a value,
and is read back without the blanks and the dot that it may end with.
-/

namespace Libept

open Std

namespace DebDBParser

/-! ### Reading a line -/

variable {pos : Position} {k p q v : Str}

lemma isblank_of_isNameChar {c : Byte} (h : isNameChar c = true) : isblank c = false := by
  have h32 : c ≠ 32 := by
    rintro rfl
    exact absurd h (by decide)
  have h9 : c ≠ 9 := by
    rintro rfl
    exact absurd h (by decide)
  simp [isblank, h32, h9]

lemma fieldLine_name (hk : k.all isNameChar = true) (p : Str) :
    fieldLine (k ++ colon :: 32 :: p) = .ok (k, trim p) := by
  have hdrop : k.dropWhile isNameChar = [] :=
    List.dropWhile_eq_nil_iff.mpr fun c hc => List.all_eq_true.mp hk c hc
  have htake : k.takeWhile isNameChar = k :=
    List.takeWhile_eq_self_iff.mpr fun c hc => List.all_eq_true.mp hk c hc
  have hcolon : isNameChar colon = false := by decide
  rw [fieldLine, Lines.dropWhile_append_stop hcolon, Lines.takeWhile_append_stop hcolon, hdrop,
    htake]
  rfl

lemma startsBlank_name (hk : k.all isNameChar = true) (p : Str) :
    startsBlank (k ++ colon :: p) = false := by
  rcases k with _ | ⟨c, k⟩
  · rfl
  · rw [List.all_cons, Bool.and_eq_true] at hk
    exact isblank_of_isNameChar hk.1

lemma newlines_name (hk : k.all isNameChar = true) (p : Str) : newlines (k ++ colon :: p) = 0 := by
  have hstart := startsBlank_name hk p
  rcases k with _ | ⟨c, k⟩
  · exact newlines_stop isblank_colon (by decide) p
  · refine newlines_stop hstart ?_ (k ++ colon :: p)
    rintro rfl
    simp [isNameChar_nl] at hk

lemma not_mem_field (hk : k.all isNameChar = true) (hp : nl ∉ p) :
    nl ∉ k ++ colon :: 32 :: p := by
  have hnot : nl ∉ k := fun h => by simpa [isNameChar_nl] using List.all_eq_true.mp hk nl h
  simpa [nl, colon] using ⟨hnot, hp⟩

lemma not_all_continuation (hne : q ≠ []) (hstart : startsBlank q = false) :
    (32 :: q).all isblank = false := by
  obtain ⟨c, q, rfl⟩ := List.exists_cons_of_ne_nil hne
  have hc : isblank c = false := hstart
  simp [hc]

/-- The line of a field starts the field, wherever the reading stands. -/
lemma readFrom_field (hk : k.all isNameChar = true) (hp : nl ∉ p) (r : Str) :
    readFrom pos (k ++ colon :: 32 :: (p ++ nl :: r)) =
      readFrom (.inside pos.record k (trim p)) r := by
  have hnl := not_mem_field hk hp
  have hblank : (k ++ colon :: 32 :: p).all isblank = false := by simp
  have hsplit : k ++ colon :: 32 :: (p ++ nl :: r) = (k ++ colon :: 32 :: p) ++ nl :: r := by simp
  rw [hsplit, readFrom_line hnl, step_of_field hblank (startsBlank_name hk _), fieldLine_name hk]
  rfl

/-- A continuation line, with a blank before its text. -/
lemma readFrom_continuation (hq : nl ∉ q) (hne : q ≠ []) (hstart : startsBlank q = false)
    (record : Record) (field body r : Str) :
    readFrom (.inside record field body) (32 :: (q ++ nl :: r)) =
      readFrom (.inside record field (body ++ nl :: contText q)) r := by
  have hnl : nl ∉ 32 :: q := by simpa [nl] using hq
  have hblank := not_all_continuation hne hstart
  have htext : contText (32 :: q) = contText q := rfl
  rw [← List.cons_append, readFrom_line hnl, step, if_neg (by simp [hblank]), if_pos (by rfl),
    htext]

end DebDBParser

namespace Vocabulary

open DebDBParser

variable {pos : Position} {l q s v w r : Str} {k : Str}

/-! ### Values that are read back -/

/-- What is read of a value that has been written. -/
def reread (val : Str) : Str :=
  if val.getLast? = some nl then val.dropLast
  else
    let res := val.rdropWhile isblank
    if [nl, dot] <:+ res then res.dropLast else res

/-- The beginnings of values: the names of facets are among them. -/
def IsBeginning (s : Str) : Prop := ∃ v, IsValue v ∧ s <+: v

lemma isBeginning_of_isValue (h : IsValue v) : IsBeginning v := ⟨v, h, List.prefix_refl v⟩

lemma isBeginning_cases (h : IsBeginning s) :
    (nl ∉ s ∧ startsBlank s = false) ∨
      ∃ v q, IsValue v ∧ nl ∉ q ∧ startsBlank q = false ∧ s = v ++ nl :: q := by
  obtain ⟨v, hv, hs⟩ := h
  induction hv with
  | @first p hnl htrim =>
    have hstart : startsBlank p = false := htrim ▸ startsBlank_trim p
    exact .inl ⟨fun h => hnl (hs.subset h), startsBlank_of_isPrefix hstart hs⟩
  | @next v q hv hnl hcont ih =>
    rcases List.prefix_or_prefix_of_prefix hs (List.prefix_append v (nl :: q)) with hsv | ⟨s', rfl⟩
    · exact ih hsv
    · rw [List.prefix_append_right_inj] at hs
      rcases s' with _ | ⟨c, q'⟩
      · exact ih (by simp)
      · obtain ⟨rfl, hq'⟩ := List.cons_prefix_cons.mp hs
        have hstart : startsBlank q = false := hcont ▸ startsBlank_contText q
        exact .inr ⟨v, q', hv, fun h => hnl (hq'.subset h), startsBlank_of_isPrefix hstart hq', rfl⟩

lemma reread_first (hnl : nl ∉ s) (hstart : startsBlank s = false) : reread s = trim s := by
  have hlast : s.getLast? ≠ some nl := fun h => hnl (List.mem_of_getLast? h)
  have hsuffix : ¬[nl, dot] <:+ s.rdropWhile isblank := fun h =>
    hnl ((List.rdropWhile_prefix _ _).subset (h.subset List.mem_cons_self))
  rw [reread, if_neg hlast, trim_of_startsBlank hstart]
  exact if_neg hsuffix

lemma reread_newline (v : Str) : reread (v ++ [nl]) = v := by
  simp [reread]

lemma isSuffix_nl_dot_iff (hw : nl ∉ w) : [nl, dot] <:+ v ++ nl :: w ↔ w = [dot] := by
  constructor
  · rintro ⟨t, ht⟩
    rcases w.eq_nil_or_concat' with rfl | ⟨w, c, rfl⟩
    · have := congrArg List.getLast? ht
      simp [List.getLast?_cons, nl, dot] at this
    have hsplit : t ++ [nl] = v ++ nl :: w ∧ dot = c := by
      have : (t ++ [nl]) ++ [dot] = (v ++ nl :: w) ++ [c] := by simpa using ht
      exact ⟨List.append_inj_left' this rfl, by simpa using List.append_inj_right' this rfl⟩
    rcases w.eq_nil_or_concat' with rfl | ⟨w, d, rfl⟩
    · rw [hsplit.2]
      rfl
    · have := congrArg List.getLast? hsplit.1
      simp only [List.mem_append, List.mem_singleton, not_or] at hw
      exact absurd (by simpa [List.getLast?_cons] using this) hw.1.2
  · rintro rfl
    exact ⟨v, rfl⟩

lemma getLast?_next (hnl : nl ∉ q) (hne : q ≠ []) (v : Str) :
    (v ++ nl :: q).getLast? ≠ some nl := by
  obtain ⟨q, c, rfl⟩ := q.eq_nil_or_concat'.resolve_left hne
  simp only [List.mem_append, List.mem_singleton, not_or] at hnl
  simpa [List.getLast?_cons] using Ne.symm hnl.2

lemma reread_next (hnl : nl ∉ q) (hstart : startsBlank q = false) (hne : q ≠ []) (v : Str) :
    reread (v ++ nl :: q) = v ++ nl :: contText q := by
  have hrdrop : (v ++ nl :: q).rdropWhile isblank = v ++ nl :: trim q := by
    rw [rdropWhile_append_cons isblank_nl, trim_of_startsBlank hstart]
  rw [reread, if_neg (getLast?_next hnl hne v), contText, hrdrop]
  simp only [isSuffix_nl_dot_iff (not_mem_trim hnl)]
  split_ifs with hdot
  · simp [hdot]
  · rfl

/-- A value is read back as it is, unless it ends with a newline. -/
lemma reread_of_isValue (hv : IsValue v) (hlast : v.getLast? ≠ some nl) : reread v = v := by
  cases hv with
  | first hnl htrim => rw [reread_first hnl (htrim ▸ startsBlank_trim v), htrim]
  | @next v q hv hnl hcont =>
    have hne : q ≠ [] := by
      rintro rfl
      simp at hlast
    rw [reread_next hnl (hcont ▸ startsBlank_contText q) hne, hcont]

/-! ### Reading a field -/

lemma escape_line (hl : nl ∉ l) (r : Str) :
    escape false (l ++ nl :: r) = l ++ nl :: escape true r := by
  induction l with
  | nil => simp [escape]
  | cons c l ih =>
    simp only [List.mem_cons, not_or] at hl
    simp [escape, Ne.symm hl.1, ih hl.2]

lemma escape_last (hl : nl ∉ l) : escape false l = l := by
  induction l with
  | nil => rfl
  | cons c l ih =>
    simp only [List.mem_cons, not_or] at hl
    simp [escape, Ne.symm hl.1, ih hl.2]

/-- A line that is not empty gets a blank. -/
lemma escape_next (hl : nl ∉ l) (hne : l ≠ []) (hstart : startsBlank l = false) (r : Str) :
    escape true (l ++ r) = 32 :: escape false (l ++ r) := by
  rcases l with _ | ⟨c, l⟩
  · exact absurd rfl hne
  · have hblank : isblank c = false := by simpa [startsBlank] using hstart
    simp only [List.mem_cons, not_or] at hl
    simp only [isblank, Bool.or_eq_false_iff, beq_eq_false_iff_ne] at hblank
    simp [escape, Ne.symm hl.1, hblank.1, hblank.2]

/-- What is written of a value with more lines behind it, up to these lines, for whatever reads the
first line of a field and its continuation lines. By induction on the lines of the value. -/
lemma escape_value {α : Type} {R : α → α → Prop} (start : Str → α) (inside : Str → Str → α)
    (htrans : ∀ {x y z}, R x y → R y z → R x z)
    (hstart : ∀ p r, nl ∉ p → R (start (p ++ nl :: r)) (inside (trim p) r))
    (hnext : ∀ v q r, nl ∉ q → q ≠ [] → startsBlank q = false →
      R (inside v (32 :: (q ++ nl :: r))) (inside (v ++ nl :: contText q) r))
    (hv : IsValue v) (s r : Str) :
    R (start (escape false (v ++ nl :: s) ++ r)) (inside v (escape true s ++ r)) := by
  induction hv generalizing s with
  | @first p hnl htrim =>
    have hfirst := hstart p (escape true s ++ r) hnl
    rw [htrim] at hfirst
    rwa [escape_line hnl, List.append_assoc, List.cons_append]
  | @next v q hv hnl hcont ih =>
    rw [List.append_assoc, List.cons_append]
    apply htrans (ih _)
    by_cases hq : q = []
    · subst hq
      -- an empty line is written as a dot
      have hdot : escape true ([] ++ nl :: s) ++ r =
          32 :: ([dot] ++ nl :: (escape true s ++ r)) := rfl
      rw [hdot]
      exact hnext v [dot] _ (by decide) (by simp) rfl
    · have hq' : startsBlank q = false := hcont ▸ startsBlank_contText q
      have hline := hnext v q (escape true s ++ r) hnl hq hq'
      rw [hcont] at hline
      rwa [escape_next hnl hq hq', escape_line hnl, List.cons_append, List.append_assoc,
        List.cons_append]

lemma readFrom_value (hk : k.all isNameChar = true) (hv : IsValue v) (s r : Str) :
    readFrom pos (k ++ colon :: 32 :: (escape false (v ++ nl :: s) ++ r)) =
      readFrom (.inside pos.record k v) (escape true s ++ r) := by
  refine escape_value (R := Eq) (fun t => readFrom pos (k ++ colon :: 32 :: t))
    (fun v t => readFrom (.inside pos.record k v) t) Eq.trans ?_ ?_ hv s r
  · intro p r hp
    exact readFrom_field hk hp r
  · intro v q r hq hne hstart
    exact readFrom_continuation hq hne hstart pos.record k v r

/-- A field that has been written. When its value ends with a newline, an empty line follows. -/
lemma readFrom_writeDebStyleField (hk : k.all isNameChar = true) (hs : IsBeginning s) (r : Str) :
    readFrom pos (writeDebStyleField k s ++ r) =
      readFrom (.inside pos.record k (reread s)) (if s.getLast? = some nl then nl :: r else r) := by
  have hwrite : writeDebStyleField k s ++ r =
      k ++ colon :: 32 :: (escape false s ++ nl :: r) := by
    rw [writeDebStyleField, show str ": " = [colon, 32] from by decide]
    simp
  rw [hwrite]
  rcases isBeginning_cases hs with ⟨hnl, hstart⟩ | ⟨v, q, hv, hnl, hstart, rfl⟩
  · rw [escape_last hnl, readFrom_field hk hnl, reread_first hnl hstart,
      if_neg fun h => hnl (List.mem_of_getLast? h)]
  · rw [readFrom_value hk hv]
    by_cases hq : q = []
    · subst hq
      rw [reread_newline, if_pos (by simp)]
      rfl
    · have hescape := escape_next hnl hq hstart []
      rw [List.append_nil, escape_last hnl] at hescape
      rw [hescape, List.cons_append, readFrom_continuation hnl hq hstart,
        reread_next hnl hstart hq, if_neg (getLast?_next hnl hq v)]

/-! ### Reading groups of fields -/

/-- Fields with an empty line behind them. -/
def writeGroup (fields : List (Str × Str)) : Str :=
  fields.flatMap (fun (k, v) => writeDebStyleField k v) ++ [nl]

/-- The records that are read of a group: it is cut behind each value that ends with a newline. -/
def cut : Position → List (Str × Str) → List Record
  | pos, [] => pos.records
  | pos, (k, v) :: fields =>
    if v.getLast? = some nl then
      (Position.inside pos.record k (reread v)).records ++ cut .between fields
    else cut (.inside pos.record k (reread v)) fields

/-- The record that a group is meant to be. -/
def recordOf (fields : List (Str × Str)) : Record :=
  fields.foldl (fun record a => record.insertIfNew a.1 (reread a.2)) ∅

/-- Fields that can be written. -/
def Writable (fields : List (Str × Str)) : Prop :=
  ∀ a ∈ fields, a.1.all isNameChar = true ∧ IsBeginning a.2

variable {fields : List (Str × Str)}

lemma newlines_writeGroup (h : Writable fields) (hne : fields ≠ []) (r : Str) :
    newlines (writeGroup fields ++ r) = 0 := by
  obtain ⟨⟨k, v⟩, fields, rfl⟩ := List.exists_cons_of_ne_nil hne
  have hk := (List.forall_mem_cons.mp h).1.1
  have hsplit : writeGroup ((k, v) :: fields) ++ r =
      k ++ colon :: (32 :: (escape false v ++ [nl] ++ (writeGroup fields ++ r))) := by
    simp [writeGroup, writeDebStyleField, show str ": " = [colon, 32] from by decide]
  rw [hsplit, newlines_name hk]

/-- No more than two newlines come after each other behind a group. -/
lemma newlines_newline_writeGroup (h : Writable fields) {r : Str} (hr : newlines r = 0) :
    newlines (nl :: (writeGroup fields ++ r)) < 2 ^ 31 := by
  rw [newlines_newline]
  rcases eq_or_ne fields [] with rfl | hne
  · have hgroup : writeGroup [] ++ r = nl :: r := rfl
    rw [hgroup, newlines_newline, hr]
    decide
  · rw [newlines_writeGroup h hne]
    decide

lemma readFrom_writeGroup (h : Writable fields) {r : Str} (hr : newlines r = 0) :
    readFrom pos (writeGroup fields ++ r) =
      (cut pos fields ++ (readFrom .between r).1, (readFrom .between r).2) := by
  induction fields generalizing pos with
  | nil =>
    apply readFrom_newline r
    rw [newlines_newline, hr]
    decide
  | cons a fields ih =>
    obtain ⟨k, v⟩ := a
    obtain ⟨⟨hk, hv⟩, hfields⟩ := List.forall_mem_cons.mp h
    have hsplit : writeGroup ((k, v) :: fields) ++ r =
        writeDebStyleField k v ++ (writeGroup fields ++ r) := by simp [writeGroup]
    rw [hsplit, readFrom_writeDebStyleField hk hv, cut]
    split_ifs
    · rw [readFrom_newline _ (newlines_newline_writeGroup hfields hr), ih hfields,
        List.append_assoc]
    · exact ih hfields

lemma reading_writeGroups (groups : List (List (Str × Str))) (h : ∀ g ∈ groups, Writable g)
    (hne : ∀ g ∈ groups, g ≠ []) :
    reading (groups.flatMap writeGroup) = (groups.flatMap (cut .between), .finished) := by
  have key : newlines (groups.flatMap writeGroup) = 0 ∧
      readFrom .between (groups.flatMap writeGroup) =
        (groups.flatMap (cut .between), .finished) := by
    induction groups with
    | nil => exact ⟨rfl, rfl⟩
    | cons g groups ih =>
      obtain ⟨hg, hgroups⟩ := List.forall_mem_cons.mp h
      obtain ⟨hgne, hgroupsne⟩ := List.forall_mem_cons.mp hne
      obtain ⟨hcount, ih⟩ := ih hgroups hgroupsne
      rw [List.flatMap_cons, List.flatMap_cons]
      refine ⟨newlines_writeGroup hg hgne _, ?_⟩
      rw [readFrom_writeGroup hg hcount, ih]
  rw [reading_eq, if_pos (by rw [key.1]; decide), key.2]

/-- A group is one record when no value but the last one ends with a newline. -/
lemma cut_eq_singleton (hne : fields ≠ []) (h : ∀ a ∈ fields.dropLast, a.2.getLast? ≠ some nl) :
    cut pos fields =
      [fields.foldl (fun record a => record.insertIfNew a.1 (reread a.2)) pos.record] := by
  induction fields generalizing pos with
  | nil => exact absurd rfl hne
  | cons a fields ih =>
    rcases fields with _ | ⟨b, fields⟩
    · simp [cut, Position.records, Position.record]
    · rw [List.dropLast_cons_of_ne_nil (by simp), List.forall_mem_cons] at h
      rw [cut, if_neg h.1, ih (by simp) h.2]
      rfl

lemma getElem?_insertIfNew_cases {record : Record} {k k' x y : Str}
    (h : (record.insertIfNew k x)[k']? = some y) : record[k']? = some y ∨ k = k' ∧ x = y := by
  rw [ExtTreeMap.getElem?_insertIfNew] at h
  split_ifs at h with hk
  · exact .inr ⟨LawfulEqCmp.eq_of_compare hk.1, Option.some.inj h⟩
  · exact .inl h

/-- The fields that are read are among those that were written. -/
lemma field_of_mem_cut {record : Record} (h : record ∈ cut pos fields) {k x : Str}
    (hx : record[k]? = some x) :
    pos.record[k]? = some x ∨ ∃ v, (k, v) ∈ fields ∧ x = reread v := by
  induction fields generalizing pos with
  | nil =>
    cases pos with
    | between => cases h
    | inside rec field body =>
      obtain rfl := List.mem_singleton.mp h
      exact .inl hx
  | cons a fields ih =>
    obtain ⟨k', v⟩ := a
    have hfirst : (pos.record.insertIfNew k' (reread v))[k]? = some x →
        pos.record[k]? = some x ∨ ∃ w, (k, w) ∈ (k', v) :: fields ∧ x = reread w := by
      intro hnew
      rcases getElem?_insertIfNew_cases hnew with hold | ⟨rfl, rfl⟩
      · exact .inl hold
      · exact .inr ⟨v, List.mem_cons_self, rfl⟩
    have hrest : (∃ w, (k, w) ∈ fields ∧ x = reread w) →
        ∃ w, (k, w) ∈ (k', v) :: fields ∧ x = reread w :=
      fun ⟨w, hw, hxw⟩ => ⟨w, List.mem_cons_of_mem _ hw, hxw⟩
    rw [cut] at h
    split_ifs at h
    · rcases List.mem_append.mp h with h | h
      · obtain rfl := List.mem_singleton.mp h
        exact hfirst hx
      · exact .inr (hrest ((ih h).resolve_left (by simp [Position.record])))
    · rcases ih h with hnew | hmem
      · exact hfirst hnew
      · exact .inr (hrest hmem)

lemma getElem?_insertIfNew_new {record : Record} {k : Str} (h : record[k]? = none) (x k' : Str) :
    (record.insertIfNew k x)[k']? = if k = k' then some x else record[k']? := by
  have hmem : k ∉ record := by
    rw [ExtTreeMap.mem_iff_isSome_getElem?, h]
    simp
  rw [ExtTreeMap.getElem?_insertIfNew]
  simp only [LawfulEqCmp.compare_eq_iff_eq, hmem, not_false_eq_true, and_true]

/-- A group with one value for each field is read as these fields. -/
lemma getElem?_recordOf (h : fields.Pairwise fun a b => a.1 ≠ b.1) (k x : Str) :
    (recordOf fields)[k]? = some x ↔ ∃ v, (k, v) ∈ fields ∧ x = reread v := by
  have key : ∀ record : Record, (∀ a ∈ fields, record[a.1]? = none) →
      ((fields.foldl (fun record a => record.insertIfNew a.1 (reread a.2)) record)[k]? = some x ↔
        record[k]? = some x ∨ ∃ v, (k, v) ∈ fields ∧ x = reread v) := by
    induction fields with
    | nil => simp
    | cons a fields ih =>
      intro record hrecord
      obtain ⟨ha, hfields⟩ := List.pairwise_cons.mp h
      obtain ⟨hnone, hrest⟩ := List.forall_mem_cons.mp hrecord
      have hlookup := getElem?_insertIfNew_new hnone (reread a.2)
      rw [List.foldl_cons, ih hfields _ fun b hb => by rw [hlookup, if_neg (ha b hb), hrest b hb],
        hlookup]
      obtain ⟨k', v⟩ := a
      by_cases hk : k' = k
      · subst hk
        have hnot : ∀ w, (k', w) ∉ fields := fun w hw => ha _ hw rfl
        simp [hnone, hnot, eq_comm]
      · simp [hk, Ne.symm hk]
  rw [recordOf, key ∅ (by simp)]
  simp

end Vocabulary

end Libept
