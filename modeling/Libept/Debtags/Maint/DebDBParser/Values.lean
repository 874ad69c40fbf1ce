import Libept.Debtags.Maint.DebDBParser.Reading

/-!
# The fields that a reading gives

The name of a field is made of name characters, and its value of a trimmed line and the texts of
continuation lines. Nothing else is ever in a record, whatever file is read.
-/

namespace Libept.DebDBParser

open Std

variable {l p q v : Str}

/-! ### Trimmed lines -/

lemma dropWhile_of_startsBlank (h : startsBlank l = false) : l.dropWhile isblank = l := by
  rcases l with _ | ⟨c, t⟩
  · rfl
  · have hc : isblank c = false := by simpa [startsBlank] using h
    simp [hc]

lemma trim_of_startsBlank (h : startsBlank l = false) : trim l = l.rdropWhile isblank := by
  rw [trim, dropWhile_of_startsBlank h]

lemma startsBlank_of_isPrefix (h : startsBlank l = false) (hp : p <+: l) :
    startsBlank p = false := by
  rcases p with _ | ⟨c, t⟩
  · rfl
  · obtain ⟨r, rfl⟩ := hp
    exact h

lemma startsBlank_dropWhile (l : Str) : startsBlank (l.dropWhile isblank) = false := by
  rcases h : l.dropWhile isblank with _ | ⟨c, t⟩
  · rfl
  · have hc := List.head?_dropWhile_not isblank l
    simpa [h, startsBlank] using hc

lemma startsBlank_trim (l : Str) : startsBlank (trim l) = false :=
  startsBlank_of_isPrefix (startsBlank_dropWhile l) (List.rdropWhile_prefix _ _)

lemma trim_trim (l : Str) : trim (trim l) = trim l := by
  rw [trim_of_startsBlank (startsBlank_trim l)]
  exact List.rdropWhile_idempotent _ _

lemma not_mem_trim (hl : nl ∉ l) : nl ∉ trim l :=
  fun h => Lines.not_mem_dropWhile hl ((List.rdropWhile_prefix _ _).subset h)

lemma contText_contText (l : Str) : contText (contText l) = contText l := by
  by_cases h : trim l = [dot]
  · have hdot : contText l = [] := if_pos h
    rw [hdot]
    rfl
  · have htext : contText l = trim l := if_neg h
    rw [htext, contText, trim_trim, if_neg h]

lemma not_mem_contText (hl : nl ∉ l) : nl ∉ contText l := by
  rw [contText]
  split_ifs
  · simp
  · exact not_mem_trim hl

lemma startsBlank_contText (l : Str) : startsBlank (contText l) = false := by
  rw [contText]
  split_ifs
  · rfl
  · exact startsBlank_trim l

/-! ### Values -/

/-- The values that a field can have. -/
inductive IsValue : Str → Prop
  | first {p : Str} (hnl : nl ∉ p) (htrim : trim p = p) : IsValue p
  | next {v q : Str} (hv : IsValue v) (hnl : nl ∉ q) (hcont : contText q = q) :
    IsValue (v ++ nl :: q)

structure IsField (k v : Str) : Prop where
  name : k.all isNameChar = true
  value : IsValue v

def AreFields (record : Record) : Prop := ∀ k v : Str, record[k]? = some v → IsField k v

lemma areFields_empty : AreFields ∅ := by
  intro k v h
  simp at h

lemma AreFields.insertIfNew {record : Record} {k v : Str} (h : AreFields record)
    (hkv : IsField k v) : AreFields (record.insertIfNew k v) := by
  intro k' v' hv'
  rw [ExtTreeMap.getElem?_insertIfNew] at hv'
  split_ifs at hv' with hk
  · obtain rfl := LawfulEqCmp.eq_of_compare hk.1
    rwa [← Option.some.inj hv']
  · exact h k' v' hv'

lemma isField_of_fieldLine (hl : nl ∉ l) {k v : Str} (h : fieldLine l = .ok (k, v)) :
    IsField k v := by
  rw [fieldLine] at h
  split at h
  · cases h
  · rename_i c rest hrest
    split_ifs at h
    obtain ⟨rfl, rfl⟩ := Prod.mk.inj (Except.ok.inj h)
    have hnl : nl ∉ rest := fun hmem =>
      Lines.not_mem_dropWhile (Lines.not_mem_dropWhile hl) (hrest ▸ List.mem_cons_of_mem c hmem)
    exact ⟨List.all_takeWhile, .first (not_mem_trim hnl) (trim_trim rest)⟩

lemma isField_of_lastFieldLine (hl : nl ∉ l) {k v : Str} (h : lastFieldLine l = .ok (k, v)) :
    IsField k v :=
  isField_of_fieldLine hl (fieldLine_of_lastFieldLine h)

/-! ### Readings -/

/-- What a reading has of a record is made of fields. -/
def Position.AreFields : Position → Prop
  | .between => True
  | .inside record field body => DebDBParser.AreFields record ∧ IsField field body

variable {pos pos' : Position}

lemma areFields_record (hpos : pos.AreFields) : AreFields pos.record := by
  cases pos with
  | between => exact areFields_empty
  | inside rec field body => exact hpos.1.insertIfNew hpos.2

lemma areFields_step (hpos : pos.AreFields) (hl : nl ∉ l) {record : Option Record}
    (h : step pos l = .ok (pos', record)) : pos'.AreFields ∧ ∀ r ∈ record, AreFields r := by
  by_cases hall : l.all isblank = true
  · have hrec := areFields_record hpos
    cases pos <;> rw [step, if_pos hall] at h <;> cases h
    · exact ⟨trivial, by simp⟩
    · exact ⟨trivial, by simpa [Position.record] using hrec⟩
  by_cases hstart : startsBlank l = true
  · cases pos <;> rw [step, if_neg hall, if_pos hstart] at h <;> cases h
    obtain ⟨hrec, hfield⟩ := hpos
    have hvalue := IsValue.next hfield.value (not_mem_contText hl) (contText_contText l)
    exact ⟨⟨hrec, hfield.name, hvalue⟩, by simp⟩
  rw [step_of_field (by simpa using hall) (by simpa using hstart)] at h
  cases hline : fieldLine l with
  | error e =>
    rw [hline] at h
    cases h
  | ok fb =>
    rw [hline] at h
    cases h
    exact ⟨⟨areFields_record hpos, isField_of_fieldLine hl hline⟩, by simp⟩

lemma areFields_finish (hpos : pos.AreFields) (hl : nl ∉ l) :
    ∀ r ∈ (finish pos l).1, AreFields r := by
  cases pos with
  | between =>
    rw [finish]
    split_ifs
    · simp
    · simp
    · cases hline : lastFieldLine l with
      | error e => simp
      | ok fb => simpa using areFields_empty.insertIfNew (isField_of_lastFieldLine hl hline)
  | inside rec field body =>
    obtain ⟨hrec, hfield⟩ := hpos
    rw [finish]
    split_ifs
    · simpa using hrec.insertIfNew hfield
    · simp
    · cases hline : lastFieldLine l with
      | error e => simp
      | ok fb =>
        simpa using (hrec.insertIfNew hfield).insertIfNew (isField_of_lastFieldLine hl hline)

/-- By induction on the lines of the file. -/
lemma areFields_readFrom (hpos : pos.AreFields) (s : Str) :
    ∀ r ∈ (readFrom pos s).1, AreFields r := by
  induction s using Lines.induction nl generalizing pos with
  | last l hl =>
    rw [readFrom_last hl]
    exact areFields_finish hpos hl
  | line l s hl ih =>
    rw [readFrom_line hl]
    cases hstep : step pos l with
    | error e => simp
    | ok next =>
      obtain ⟨pos', record⟩ := next
      obtain ⟨hpos', hrecord⟩ := areFields_step hpos hl hstep
      cases record with
      | none => exact ih hpos'
      | some record =>
        simp only []
        split_ifs
        · exact List.forall_mem_cons.mpr ⟨hrecord record rfl, ih hpos'⟩
        · simp

theorem areFields_reading (input : Str) : ∀ r ∈ (reading input).1, AreFields r := by
  rw [reading]
  split_ifs
  · exact @areFields_readFrom .between trivial input
  · simp

end Libept.DebDBParser
