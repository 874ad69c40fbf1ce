import Libept.Debtags.Maint.DebDBParser.Reading

/-!
# The records of a file

A record is on the lines between two blank ones. Each of its fields starts on a line of its own,
and goes on on the lines behind it that start with a blank. Where a name occurs more than once, the
first field with it counts.
-/

namespace Libept.DebDBParser

open Std

/-- The lines of each record. -/
def paragraphs (input : Str) : List (List Str) :=
  ((input.splitOn nl).splitOnP (·.all isblank)).filter (· ≠ [])

/-- The fields on the lines behind the one that starts the given field. -/
def fieldsFrom : Str × Str → List Str → List (Str × Str)
  | a, [] => [a]
  | (field, body), l :: ls =>
    if startsBlank l then fieldsFrom (field, body ++ nl :: contText l) ls
    else match fieldLine l with
      | .error _ => [(field, body)]
      | .ok a => (field, body) :: fieldsFrom a ls

/-- The fields on the lines of a record, in their order. -/
def fieldsOf : List Str → List (Str × Str)
  | [] => []
  | l :: ls =>
    match fieldLine l with
    | .error _ => []
    | .ok a => fieldsFrom a ls

/-- The fields of each record. -/
def recordsOf (input : Str) : List (List (Str × Str)) := (paragraphs input).map fieldsOf

/-- A record with more fields, of which those with a new name count. -/
def addFields (record : Record) (fields : List (Str × Str)) : Record :=
  fields.foldl (fun record a => record.insertIfNew a.1 a.2) record

lemma getElem?_insertIfNew_or (record : Record) (a : Str × Str) (k : Str) :
    (record.insertIfNew a.1 a.2)[k]? = (record[k]?).or (if k = a.1 then some a.2 else none) := by
  rw [ExtTreeMap.getElem?_insertIfNew]
  simp only [ExtTreeMap.mem_iff_isSome_getElem?]
  by_cases hk : k = a.1
  · subst hk
    rw [if_pos rfl]
    cases record[a.1]? <;> simp
  · have hne : compare a.1 k ≠ .eq := fun h => hk (LawfulEqCmp.eq_of_compare h).symm
    rw [if_neg (fun h => hne h.1), if_neg hk, Option.or_none]

/-- In a record the first field with a name counts. -/
lemma getElem?_addFields (record : Record) (fields : List (Str × Str)) (k : Str) :
    (addFields record fields)[k]? = (record[k]?).or (fields.lookup k) := by
  induction fields generalizing record with
  | nil => simp [addFields]
  | cons a fields ih =>
    rw [addFields, List.foldl_cons, ← addFields, ih, getElem?_insertIfNew_or, Option.or_assoc]
    congr 1
    by_cases hk : k = a.1
    · subst hk
      rw [if_pos rfl, Option.some_or, List.lookup_cons_self]
    · rw [if_neg hk, Option.none_or, List.lookup_cons, beq_false_of_ne hk]

/-! ### Reading them -/

variable {l : Str} {ls : List Str} {pos : Position} {record : Record} {field body : Str}
  {records : List Record}

/-- What a reading that has come to the given position makes of the lines of the file that are
left. -/
def Reads (ls : List Str) (records : List Record) : Position → Prop
  | .between => records =
      (((ls.splitOnP (·.all isblank)).filter (· ≠ [])).map fieldsOf).map (addFields ∅)
  | .inside record field body => ∃ q qs, ls.splitOnP (·.all isblank) = q :: qs ∧
      records = addFields record (fieldsFrom (field, body) q) ::
        ((qs.filter (· ≠ [])).map fieldsOf).map (addFields ∅)

/-! #### One line -/

lemma splitOnP_blank (hl : l.all isblank = true) (ls : List Str) :
    (l :: ls).splitOnP (·.all isblank) = [] :: ls.splitOnP (·.all isblank) := by
  rw [List.splitOnP_cons_eq_if_modifyHead, if_pos hl]

/-- A blank line ends the record that there is. -/
lemma Reads.blank (pos : Position) (hl : l.all isblank = true) (h : Reads ls records .between) :
    Reads (l :: ls) (pos.records ++ records) pos := by
  cases pos with
  | between =>
    rw [Reads, splitOnP_blank hl, List.filter_cons_of_neg (by simp)]
    exact h
  | inside record field body =>
    refine ⟨[], _, splitOnP_blank hl ls, ?_⟩
    rw [h]
    rfl

lemma splitOnP_line (hl : l.all isblank = false) {q : List Str} {qs : List (List Str)}
    (h : ls.splitOnP (·.all isblank) = q :: qs) :
    (l :: ls).splitOnP (·.all isblank) = (l :: q) :: qs := by
  rw [List.splitOnP_cons_eq_if_modifyHead, if_neg (by simp [hl]), h]
  rfl

/-- A line that goes on with a field. -/
lemma Reads.cont (hl : l.all isblank = false) (hstart : startsBlank l = true)
    (h : Reads ls records (.inside record field (body ++ nl :: contText l))) :
    Reads (l :: ls) records (.inside record field body) := by
  obtain ⟨q, qs, hsplit, rfl⟩ := h
  refine ⟨l :: q, qs, splitOnP_line hl hsplit, ?_⟩
  rw [fieldsFrom, if_pos hstart]

/-- A line that starts a field. -/
lemma Reads.start {field' body' : Str} (hl : l.all isblank = false)
    (hstart : startsBlank l = false) (hline : fieldLine l = .ok (field', body'))
    (h : Reads ls records (.inside pos.record field' body')) : Reads (l :: ls) records pos := by
  obtain ⟨q, qs, hsplit, rfl⟩ := h
  have hsplit' := splitOnP_line hl hsplit
  cases pos with
  | between =>
    rw [Reads, hsplit', List.filter_cons_of_pos (by simp), List.map_cons, List.map_cons, fieldsOf,
      hline]
    rfl
  | inside record field body =>
    refine ⟨l :: q, qs, hsplit', ?_⟩
    rw [fieldsFrom, if_neg (by simp [hstart]), hline]
    rfl

/-- The last line. -/
lemma reads_finish (h : finish pos l = (records, .finished)) : Reads [l] records pos := by
  rcases finish_finished h with ⟨hall, rfl⟩ | ⟨hall, hstart, a, hline, rfl⟩
  · have hnone : Reads [] [] .between := rfl
    have hblank := hnone.blank pos hall
    rwa [List.append_nil] at hblank
  · have hend : Reads [] [addFields pos.record [a]] (.inside pos.record a.1 a.2) :=
      ⟨[], [], rfl, rfl⟩
    exact hend.start hall hstart hline

/-- The records that are read when a reading comes to its end. By induction on the lines. -/
lemma reads_of_readLines (hne : ls ≠ []) (h : readLines pos ls = (records, .finished)) :
    Reads ls records pos := by
  induction ls generalizing pos records with
  | nil => exact absurd rfl hne
  | cons l ls ih =>
    rcases List.eq_nil_or_concat ls with rfl | hcons
    · exact reads_finish h
    · have hls : ls ≠ [] := by
        obtain ⟨ls', l', rfl⟩ := hcons
        simp
      rw [readLines_cons l hls] at h
      cases hl : l.all isblank with
      | true =>
        rw [step_blank hl] at h
        cases pos with
        | between => exact (ih hls h).blank .between hl
        | inside record field body =>
          simp only [Position.records, List.head?_cons] at h
          split_ifs at h
          · obtain ⟨rfl, hend⟩ := Prod.mk.inj h
            exact (ih hls (Prod.ext rfl hend)).blank (.inside record field body) hl
          · cases (Prod.mk.inj h).2
      | false =>
        cases hstart : startsBlank l with
        | true =>
          cases pos with
          | between => simp [step, hl, hstart] at h
          | inside record field body =>
            rw [step, if_neg (by simp [hl]), if_pos hstart] at h
            exact (ih hls h).cont hl hstart
        | false =>
          rw [step_of_field hl hstart] at h
          cases hline : fieldLine l with
          | error e => simp [hline, Except.map] at h
          | ok a =>
            rw [hline] at h
            exact (ih hls h).start hl hstart hline

/-- The records of a file that is read to its end. -/
lemma records_of_reading (input : Str) {records : List Record}
    (h : reading input = (records, .finished)) :
    records = (recordsOf input).map (addFields ∅) := by
  rw [reading] at h
  split_ifs at h
  · exact reads_of_readLines (List.splitOn_ne_nil nl input) h
  · cases (Prod.mk.inj h).2

end Libept.DebDBParser
