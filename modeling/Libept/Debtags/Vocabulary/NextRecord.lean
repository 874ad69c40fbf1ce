import Libept.Debtags.Maint.DebDBParser.Paragraphs
import Libept.Debtags.Vocabulary.Write

/-!
# One record is written and read back

`nextRecord` is the inverse of writing fields, for values without blanks around their lines, and it
stops exactly behind the empty line after them, whatever follows.
-/

namespace Libept

namespace DebDBParser

variable {v w k p q body r : Str} {record : Record}

/-! ### Normal values -/

/-- A line with no blank at its beginning and at its end. -/
def IsTrimmed (l : Str) : Prop := l.head?.any isblank = false ∧ l.getLast?.any isblank = false

/-- A value whose lines are trimmed, those behind the first one being no dots, and the last of
several not empty. -/
structure IsNormal (v : Str) : Prop where
  trimmed : ∀ l ∈ v.splitOn nl, IsTrimmed l
  no_dot : ∀ l ∈ (v.splitOn nl).tail, l ≠ [dot]
  last : (v.splitOn nl).tail ≠ [] → (v.splitOn nl).getLast? ≠ some []

instance (l : Str) : Decidable (IsTrimmed l) := inferInstanceAs (Decidable (_ ∧ _))

instance (v : Str) : Decidable (IsNormal v) :=
  decidable_of_iff ((∀ l ∈ v.splitOn nl, IsTrimmed l) ∧ (∀ l ∈ (v.splitOn nl).tail, l ≠ [dot]) ∧
      ((v.splitOn nl).tail ≠ [] → (v.splitOn nl).getLast? ≠ some []))
    ⟨fun h => ⟨h.1, h.2.1, h.2.2⟩, fun h => ⟨h.trimmed, h.no_dot, h.last⟩⟩

lemma IsTrimmed.trim {l : Str} (h : IsTrimmed l) : trim l = l := by
  rw [trim_of_startsBlank h.1, List.rdropWhile_eq_self_iff]
  intro hne
  have hlast := h.2
  rw [List.getLast?_eq_some_getLast hne, Option.any_some] at hlast
  simp [hlast]

lemma IsTrimmed.contText {l : Str} (h : IsTrimmed l) (hdot : l ≠ [dot]) : contText l = l := by
  rw [DebDBParser.contText, h.trim, if_neg hdot]

/-- A value goes on with lines. By induction on them. -/
lemma IsValue.append (hv : IsValue v) (h : ∀ l ∈ w.splitOn nl, contText l = l) :
    IsValue (v ++ nl :: w) := by
  induction w using Lines.induction nl generalizing v with
  | last q hq =>
    rw [List.splitOn_eq_singleton hq, List.forall_mem_singleton] at h
    exact .next hv hq h
  | line q w hq ih =>
    rw [List.splitOn_append_cons_self_of_not_mem hq, List.forall_mem_cons] at h
    have hnext := ih (.next hv hq h.1) h.2
    rwa [List.append_assoc, List.cons_append] at hnext

lemma IsNormal.isValue (h : IsNormal v) : IsValue v := by
  obtain ⟨htrimmed, hdot, -⟩ := h
  induction v using Lines.induction nl with
  | last p hp =>
    rw [List.splitOn_eq_singleton hp, List.forall_mem_singleton] at htrimmed
    exact .first hp htrimmed.trim
  | line p w hp _ =>
    rw [List.splitOn_append_cons_self_of_not_mem hp] at htrimmed hdot
    rw [List.forall_mem_cons] at htrimmed
    apply IsValue.append (.first hp htrimmed.1.trim)
    intro l hl
    exact (htrimmed.2 l hl).contText (hdot l hl)

lemma IsNormal.getLast? (h : IsNormal v) : v.getLast? ≠ some nl := by
  intro hlast
  obtain ⟨w, rfl⟩ := List.getLast?_eq_some_iff.mp hlast
  have hlines : (w ++ [nl]).splitOn nl = w.splitOn nl ++ [[]] :=
    List.splitOn_append_cons_self w []
  refine h.last ?_ ?_
  · rw [hlines, List.tail_append_of_ne_nil (List.splitOn_ne_nil nl w)]
    simp
  · rw [hlines, List.getLast?_concat]

/-! ### The lines of a field -/

/-- The first line of a field. -/
lemma fieldLoop_name (hk : k.all isNameChar = true) (hp : nl ∉ p) (record : Record) (r : Str) :
    (Comp.loop fieldTurn (record, ⟨k ++ colon :: 32 :: (p ++ nl :: r), true, false⟩)).Same
      (restOfRecord record k (trim p) ⟨r, true, false⟩) := by
  have hnl := not_mem_field hk hp
  have hhead := @fieldHead_line _ false hnl r
  rw [fieldLine_name hk, List.append_assoc, List.cons_append, List.cons_append] at hhead
  exact fieldLoop_ok hhead record

/-- A continuation line, with a blank before its text. -/
lemma restOfRecord_continuation (hq : nl ∉ q) (hne : q ≠ []) (hstart : startsBlank q = false)
    (record : Record) (k body r : Str) :
    (restOfRecord record k body ⟨32 :: (q ++ nl :: r), true, false⟩).Same
      (restOfRecord record k (body ++ nl :: contText q) ⟨r, true, false⟩) := by
  have hnl : nl ∉ 32 :: q := by simpa [nl] using hq
  have hblank := not_all_continuation hne hstart
  exact restOfRecord_next (contTurn_line hnl hblank rfl body r) record k

/-- The line of the next field. -/
lemma restOfRecord_name {k' : Str} (hk' : k'.all isNameChar = true) (record : Record)
    (k body r : Str) :
    (restOfRecord record k body ⟨k' ++ colon :: r, true, false⟩).Same
      (Comp.loop fieldTurn (record.insertIfNew k body, ⟨k' ++ colon :: r, true, false⟩)) := by
  obtain ⟨c, t, hsplit⟩ := List.exists_cons_of_ne_nil (l := k' ++ colon :: r) (by simp)
  have hc : isblank c = false := by
    have hstart := startsBlank_name hk' r
    rwa [hsplit] at hstart
  have hnl : c ≠ nl := by
    rintro rfl
    rcases k' with _ | ⟨c, k'⟩
    · cases hsplit
    · obtain ⟨rfl, -⟩ := List.cons.inj hsplit
      simp [isNameChar_nl] at hk'
  rw [hsplit]
  exact restOfRecord_field (contTurn_field hc hnl body t) rfl record k

end DebDBParser

namespace Vocabulary

open DebDBParser

variable {v w k body r cont : Str} {record : Record} {fields : List (Str × Str)}

/-! ### Fields -/

lemma fieldLoop_value (hk : k.all isNameChar = true) (hv : IsValue v) (record : Record)
    (s r : Str) :
    (Comp.loop fieldTurn
      (record, ⟨k ++ colon :: 32 :: (escape false (v ++ nl :: s) ++ r), true, false⟩)).Same
      (restOfRecord record k v ⟨escape true s ++ r, true, false⟩) := by
  refine escape_value (R := Comp.Same)
    (fun t => Comp.loop fieldTurn (record, ⟨k ++ colon :: 32 :: t, true, false⟩))
    (fun v t => restOfRecord record k v ⟨t, true, false⟩) Comp.Same.trans ?_ ?_ hv s r
  · intro p r hp
    exact fieldLoop_name hk hp record r
  · intro v q r hq hne hstart
    exact restOfRecord_continuation hq hne hstart record k v r

/-- A newline behind a text is written as it is, unless there is one before it. -/
lemma escape_newline {b : Bool} (hb : v = [] → b = false) (hlast : v.getLast? ≠ some nl) :
    escape b (v ++ [nl]) = escape b v ++ [nl] := by
  induction v generalizing b with
  | nil =>
    obtain rfl := hb rfl
    rfl
  | cons c v ih =>
    have hrest : v.getLast? ≠ some nl := by
      intro h
      rw [List.getLast?_cons, h] at hlast
      exact hlast rfl
    have hc : v = [] → c ≠ nl := by
      rintro rfl rfl
      exact hlast rfl
    cases b with
    | false =>
      have htail := ih (b := decide (c = nl)) (fun h => decide_eq_false (hc h)) hrest
      rw [List.cons_append, escape, htail, escape, List.cons_append]
    | true =>
      rw [List.cons_append, escape, escape]
      split_ifs with hnl
      · rw [ih (b := true) (fun h => absurd hnl (hc h)) hrest]
        simp
      · rw [ih (b := false) (fun _ => rfl) hrest]
        simp
      · rw [ih (b := false) (fun _ => rfl) hrest]
        simp

/-- A field that has been written. -/
lemma fieldLoop_writeDebStyleField (hk : k.all isNameChar = true) (hv : IsNormal v)
    (record : Record) (r : Str) :
    (Comp.loop fieldTurn (record, ⟨writeDebStyleField k v ++ r, true, false⟩)).Same
      (restOfRecord record k v ⟨r, true, false⟩) := by
  have hwrite : writeDebStyleField k v ++ r =
      k ++ colon :: 32 :: (escape false (v ++ [nl]) ++ r) := by
    rw [writeDebStyleField, escape_newline (fun _ => rfl) hv.getLast?,
      show str ": " = [colon, 32] from by decide]
    simp
  rw [hwrite]
  exact fieldLoop_value hk hv.isValue record [] r

/-! ### Records -/

/-- A parser at the beginning of a line, with the given text before it. -/
def before (s : Str) : DebDBParser := ⟨s, true, s.isEmpty⟩

/-- A text that starts with a character that is neither a blank nor a newline, if with any. -/
def IsStart (s : Str) : Prop := ∀ c ∈ s.head?, isblank c = false ∧ c ≠ nl

lemma start_of_isStart (h : IsStart cont) : start cont = before cont := by
  rcases cont with _ | ⟨c, t⟩
  · rfl
  · obtain ⟨hblank, hnl⟩ := h c rfl
    exact start_field hblank hnl t

lemma newlines_of_isStart (h : IsStart cont) : newlines cont = 0 := by
  rcases cont with _ | ⟨c, t⟩
  · rfl
  · obtain ⟨hblank, hnl⟩ := h c rfl
    exact newlines_stop hblank hnl t

/-- The fields behind the one that has been read. By induction on them. -/
lemma restOfRecord_writeGroup (hcont : IsStart cont)
    (hfields : ∀ a ∈ fields, a.1.all isNameChar = true ∧ IsNormal a.2) (record : Record)
    (k v : Str) :
    (restOfRecord record k v ⟨writeGroup fields ++ cont, true, false⟩).Returns
      (.ok (addFields (record.insertIfNew k v) fields, before cont)) := by
  induction fields generalizing record k v with
  | nil =>
    have hturn := contTurn_blank_line (l := []) rfl v cont
    rw [newlines_of_isStart hcont, if_pos (by decide)] at hturn
    rw [← start_of_isStart hcont]
    exact restOfRecord_stop hturn (by rw [succ_beq_zero, Bool.and_false]) record k
  | cons a fields ih =>
    obtain ⟨⟨hk, hv⟩, hrest⟩ := List.forall_mem_cons.mp hfields
    have hsplit : writeGroup (a :: fields) ++ cont =
        writeDebStyleField a.1 a.2 ++ (writeGroup fields ++ cont) := by simp [writeGroup]
    have hname : writeGroup (a :: fields) ++ cont =
        a.1 ++ colon :: (32 :: (escape false a.2 ++ [nl] ++ (writeGroup fields ++ cont))) := by
      rw [hsplit, writeDebStyleField, show str ": " = [colon, 32] from by decide]
      simp
    have hfield := restOfRecord_name hk record k v
      (32 :: (escape false a.2 ++ [nl] ++ (writeGroup fields ++ cont)))
    rw [← hname, hsplit] at hfield
    rw [hsplit]
    apply (hfield _).mpr
    apply (fieldLoop_writeDebStyleField hk hv _ _ _).mpr
    exact ih hrest _ _ _

/-- With different names every field is found. -/
lemma lookup_eq_some_iff (h : (fields.map Prod.fst).Nodup) :
    fields.lookup k = some v ↔ (k, v) ∈ fields := by
  induction fields with
  | nil => simp
  | cons a fields ih =>
    obtain ⟨k', v'⟩ := a
    rw [List.map_cons, List.nodup_cons] at h
    by_cases hk : k = k'
    · subst hk
      have hnot : (k, v) ∉ fields := fun hmem => h.1 (List.mem_map.mpr ⟨_, hmem, rfl⟩)
      simp [hnot, eq_comm]
    · rw [List.lookup_cons, beq_false_of_ne hk]
      simp [ih h.2, hk]

/-- Writing fields with normal values under different names, and an empty line, is inverted by
`nextRecord`, which leaves the parser at the start of what comes behind them. -/
theorem nextRecord_written (hne : fields ≠ [])
    (hfields : ∀ a ∈ fields, a.1.all isNameChar = true ∧ IsNormal a.2)
    (hnames : (fields.map Prod.fst).Nodup) (hcont : IsStart cont) :
    ∃ record : Record,
      (before (fields.flatMap (fun (k, v) => writeDebStyleField k v) ++
        nl :: cont)).nextRecord.Returns (.ok (some (record, before cont))) ∧
      ∀ k v, record[k]? = some v ↔ (k, v) ∈ fields := by
  refine ⟨addFields ∅ fields, ?_, fun k v => ?_⟩
  · obtain ⟨a, fields, rfl⟩ := List.exists_cons_of_ne_nil hne
    obtain ⟨⟨hk, hv⟩, hrest⟩ := List.forall_mem_cons.mp hfields
    have hbefore : before ((a :: fields).flatMap (fun (k, v) => writeDebStyleField k v) ++
        nl :: cont) =
          ⟨writeDebStyleField a.1 a.2 ++ (writeGroup fields ++ cont), true, false⟩ := by
      simp [before, writeGroup, writeDebStyleField]
    have hloop := (fieldLoop_writeDebStyleField hk hv ∅ (writeGroup fields ++ cont) _).mpr
      (restOfRecord_writeGroup hcont hrest ∅ a.1 a.2)
    rw [hbefore, nextRecord, if_neg (by simp)]
    exact (hloop.bind _ _).mpr (Comp.returns_pure.mpr rfl)
  · rw [getElem?_addFields, Std.ExtTreeMap.getElem?_empty, Option.none_or,
      lookup_eq_some_iff hnames]

/-- A value with an empty line in it, and a field behind the record. -/
theorem nextRecord_written_sample :
    ∃ record : Record,
      (before (str "Tag: a::b\nDescription: x\n .\n y\n\nFacet: c\n")).nextRecord.Returns
        (.ok (some (record, before (str "Facet: c\n")))) ∧
      record[str "Description"]? = some (str "x\n\ny") := by
  have hnormal : ∀ a ∈ [(str "Tag", str "a::b"), (str "Description", str "x\n\ny")],
      a.1.all isNameChar = true ∧ IsNormal a.2 := by decide
  have hcont : IsStart (str "Facet: c\n") := by
    rintro c hc
    obtain rfl := Option.some.inj hc
    decide
  obtain ⟨record, hrecord, hfields⟩ := nextRecord_written (by simp) hnormal (by decide) hcont
  exact ⟨record, hrecord, (hfields _ _).mpr (by simp)⟩

end Vocabulary

end Libept
