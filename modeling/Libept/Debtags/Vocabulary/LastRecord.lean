import Libept.Debtags.Maint.DebDBParser.Paragraphs
import Libept.Debtags.Vocabulary.Facts
import Libept.Debtags.Vocabulary.Read

/-!
# The last record wins

Two opposite rules say which value a field gets: the first occurrence in a record, and the last of
the records. Reading more files never removes a facet, a tag or a field, and reading a file again
changes nothing. All this is so as long as an `int` can count the blank lines between two records.
-/

namespace Libept.Vocabulary

open Voc DebDBParser

variable {v v' v'' : Vocabulary} {input : Str} {inputs inputs' : List Str} {f t k : Str}
  {record : Record} {records : List Record}

/-! ### Values of the fields -/

/-- What a record with the given fields says of the field `k` of the facet `f`. -/
def facetValue (f k : Str) (fields : Str → Option Str) : Option Str :=
  if fields (str "Facet") = some f then fields k else none

/-- What a record with the given fields says of the field `k` of the tag `t`. -/
def tagValue (t k : Str) (fields : Str → Option Str) : Option Str :=
  if fields (str "Facet") = none ∧ fields (str "Tag") = some t then fields k else none

lemma facetField_mergeRecord (h : v.Wf) (hk : k ≠ str "Facet") (record : Record) :
    (v.mergeRecord record).2.facetField f k =
      (facetValue f k (record[·]?)).or (v.facetField f k) := by
  rcases record_cases record with ⟨g, hg⟩ | ⟨hg, t, ht⟩ | ⟨hg, ht⟩
  · rw [mergeRecord_facet h hg, (lookups_mergedFacet v g record).2.1, facetValue, hg]
    by_cases hgf : g = f <;> simp [hgf, hk]
  · rw [mergeRecord_tag v hg ht, (lookups_mergedTag v t record).2.1, facetValue, hg]
    simp
  · rw [mergeRecord_skip v hg ht, facetValue, hg]
    simp

lemma tagField_mergeRecord (h : v.Wf) (hk : k ≠ str "Tag") (record : Record) :
    (v.mergeRecord record).2.tagField t k =
      (tagValue t k (record[·]?)).or (v.tagField t k) := by
  rcases record_cases record with ⟨g, hg⟩ | ⟨hg, u, hu⟩ | ⟨hg, hu⟩
  · rw [mergeRecord_facet h hg, tagField, (lookups_mergedFacet v g record).2.2, tagValue, hg]
    simp [tagField]
  · rw [mergeRecord_tag v hg hu, (lookups_mergedTag v u record).2.2.2, tagValue, hg, hu]
    by_cases hut : u = t <;> simp [hut, hk]
  · rw [mergeRecord_skip v hg hu, tagValue, hg, hu]
    simp

/-- A field that every record updates has the value of the last record that gives it one. By
induction on the records. -/
lemma field_mergeAll (field : Vocabulary → Option Str) (value : (Str → Option Str) → Option Str)
    (hmerge : ∀ v, v.Wf → ∀ record : Record, field (v.mergeRecord record).2 =
      (value (record[·]?)).or (field v)) (h : v.Wf) (records : List Record) :
    field (v.mergeAll records) =
      (records.reverse.findSome? fun record => value (record[·]?)).or (field v) := by
  induction records generalizing v with
  | nil => rfl
  | cons record records ih =>
    have hrest := ih (h.mergeRecord record).2
    rw [mergeAll, List.foldl_cons, ← mergeAll, hrest, hmerge v h, List.reverse_cons,
      List.findSome?_append, List.findSome?_singleton, Option.or_assoc]

lemma facetField_mergeAll (h : v.Wf) (hk : k ≠ str "Facet") (records : List Record) :
    (v.mergeAll records).facetField f k =
      (records.reverse.findSome? fun record => facetValue f k (record[·]?)).or
        (v.facetField f k) :=
  field_mergeAll (·.facetField f k) _ (fun _ hv => facetField_mergeRecord hv hk) h records

lemma tagField_mergeAll (h : v.Wf) (hk : k ≠ str "Tag") (records : List Record) :
    (v.mergeAll records).tagField t k =
      (records.reverse.findSome? fun record => tagValue t k (record[·]?)).or (v.tagField t k) :=
  field_mergeAll (·.tagField t k) _ (fun _ hv => tagField_mergeRecord hv hk) h records

/-- The fields of the records in their order tell the same. -/
lemma findSome?_addFields (value : (Str → Option Str) → Option Str)
    (fields : List (List (Str × Str))) :
    ((fields.map (addFields ∅)).reverse.findSome? fun record => value (record[·]?)) =
      fields.reverse.findSome? fun fields => value (fields.lookup ·) := by
  have hlookup (fields : List (Str × Str)) :
      ((addFields ∅ fields)[·]?) = (fields.lookup ·) := by
    funext k
    simp [getElem?_addFields]
  rw [← List.map_reverse, List.findSome?_map]
  congr 1
  funext fields
  rw [Function.comp_apply, hlookup]

/-! ### Files -/

/-- A read that returns normally has merged all records of the file. -/
lemma read_returns_iff (h : v.Wf) : (v.read input).Returns (.ok (), v') ↔
    (reading input).2 = .finished ∧ v' = v.mergeAll ((recordsOf input).map (addFields ∅)) := by
  have hrecords : (reading input).2 = .finished →
      (reading input).1 = (recordsOf input).map (addFields ∅) := fun hend =>
    records_of_reading input (Prod.ext rfl hend)
  rw [read_denotes]
  constructor
  · intro hfeed
    have hend := feed_returns hfeed
    rw [hend, feed_mergeRecord h, hrecords hend] at hfeed
    exact ⟨hend, (Prod.mk.inj (Option.some.inj hfeed)).2.symm⟩
  · rintro ⟨hend, rfl⟩
    rw [hend, feed_mergeRecord h, hrecords hend]

/-- Reading one file after the other, each of which may return normally with the given result. -/
inductive ReadFiles : Vocabulary → List Str → Vocabulary → Prop
  | nil (v : Vocabulary) : ReadFiles v [] v
  | cons {v v' v'' : Vocabulary} {input : Str} {inputs : List Str}
    (hread : v.MayReturn input (.ok (), v')) (h : ReadFiles v' inputs v'') :
    ReadFiles v (input :: inputs) v''

lemma readFiles_singleton : ReadFiles v [input] v' ↔ v.MayReturn input (.ok (), v') := by
  constructor
  · intro h
    cases h with
    | cons hread hrest =>
      cases hrest
      exact hread
  · exact fun h => .cons h (.nil v')

lemma readFiles_append :
    ReadFiles v (inputs ++ inputs') v'' ↔
      ∃ v', ReadFiles v inputs v' ∧ ReadFiles v' inputs' v'' := by
  constructor
  · intro h
    induction inputs generalizing v with
    | nil => exact ⟨v, .nil v, h⟩
    | cons input inputs ih =>
      cases h with
      | cons hread hrest =>
        obtain ⟨v', h', h''⟩ := ih hrest
        exact ⟨v', .cons hread h', h''⟩
  · rintro ⟨v', h, h'⟩
    induction h with
    | nil => exact h'
    | cons hread _ ih => exact .cons hread (ih h')

/-- Without an overflow the files give their records. -/
lemma ReadFiles.eq_mergeAll (h : ReadFiles v inputs v') (hwf : v.Wf)
    (hcount : ∀ input ∈ inputs, ¬Overflows input) :
    v' = v.mergeAll ((inputs.flatMap recordsOf).map (addFields ∅)) := by
  induction h with
  | nil v => rfl
  | cons hread h ih =>
    obtain ⟨hfirst, hrest⟩ := List.forall_mem_cons.mp hcount
    rw [hwf.mayReturn_iff hfirst] at hread
    obtain ⟨-, rfl⟩ := (read_returns_iff hwf).mp hread
    rw [ih (hwf.mergeAll _) hrest, List.flatMap_cons, List.map_append, mergeAll, mergeAll, mergeAll,
      List.foldl_append]

lemma exists_readFiles (h : v.Wf) (inputs : List Str)
    (hinputs : ∀ input ∈ inputs, (reading input).2 = .finished) : ∃ v', ReadFiles v inputs v' := by
  induction inputs generalizing v with
  | nil => exact ⟨v, .nil v⟩
  | cons input inputs ih =>
    obtain ⟨hend, hrest⟩ := List.forall_mem_cons.mp hinputs
    obtain ⟨v', hv'⟩ := ih (h.mergeAll ((recordsOf input).map (addFields ∅))) hrest
    exact ⟨v', .cons (.inl ((read_returns_iff h).mpr ⟨hend, rfl⟩)) hv'⟩

/-! ### What stays -/

/-- Nothing that is there disappears. -/
structure Extends (v v' : Vocabulary) : Prop where
  facet : ∀ f, v.hasFacet f = true → v'.hasFacet f = true
  facetField : ∀ f k, (v.facetField f k).isSome → (v'.facetField f k).isSome
  tag : ∀ t, v.hasTag t = true → v'.hasTag t = true
  tagField : ∀ t k, (v.tagField t k).isSome → (v'.tagField t k).isSome

lemma hasFacet_iff : v.hasFacet f = true ↔ v.Has (.facet f) := by
  rw [hasFacet, Std.ExtTreeMap.contains_iff_mem]
  rfl

lemma hasTag_iff_has : v.hasTag t = true ↔ v.Has (.tag t) := by
  rw [hasTag_iff, ← Option.isSome_iff_exists]
  rfl

lemma has_facet_of_subject (h : ∃ b, b.subject = (Fact.facet f).subject ∧ v.Has b) :
    v.Has (.facet f) := by
  obtain ⟨b, hb, hhas⟩ := h
  cases b <;> simp only [Fact.subject, Fact.facet.injEq, reduceCtorEq] at hb
  rwa [← hb]

lemma has_tag_of_subject (h : ∃ b, b.subject = (Fact.tag t).subject ∧ v.Has b) :
    v.Has (.tag t) := by
  obtain ⟨b, hb, hhas⟩ := h
  cases b <;> simp only [Fact.subject, Fact.tag.injEq, reduceCtorEq] at hb
  rwa [← hb]

lemma extends_mergeAll (h : v.Wf) (records : List Record) : v.Extends (v.mergeAll records) := by
  have key (a : Fact) (ha : v.Has a) : ∃ b, b.subject = a.subject ∧ (v.mergeAll records).Has b :=
    exists_has_mergeAll h (.inl ha)
  constructor
  · intro f hf
    rw [hasFacet_iff] at hf ⊢
    exact has_facet_of_subject (key _ hf)
  · intro f k hk
    obtain ⟨x, hx⟩ := Option.isSome_iff_exists.mp hk
    obtain ⟨b, hb, hhas⟩ := key (.facetField f k x) hx
    cases b <;> simp only [Fact.subject, Fact.facetField.injEq, reduceCtorEq, and_true] at hb
    obtain ⟨rfl, rfl⟩ := hb
    exact Option.isSome_of_mem hhas
  · intro t ht
    rw [hasTag_iff_has] at ht ⊢
    exact has_tag_of_subject (key _ ht)
  · intro t k hk
    obtain ⟨x, hx⟩ := Option.isSome_iff_exists.mp hk
    obtain ⟨b, hb, hhas⟩ := key (.tagField t k x) hx
    cases b <;> simp only [Fact.subject, Fact.tagField.injEq, reduceCtorEq, and_true] at hb
    obtain ⟨rfl, rfl⟩ := hb
    exact Option.isSome_of_mem hhas

/-! ### Merging twice -/

lemma Wf.facetField_facet (h : v.Wf) (f : Str) : v.facetField f (str "Facet") = none := by
  rw [facetField]
  cases hd : v.m_facets[f]? with
  | none => rfl
  | some d => exact (h f d hd).no_facet

lemma Wf.tagField_tag (h : v.Wf) (t : Str) : v.tagField t (str "Tag") = none := by
  rw [tagField]
  cases htd : v.tagData t with
  | none => rfl
  | some td =>
    obtain ⟨d, hd, hmem⟩ := tagData_eq_some_iff.mp htd
    exact ((h _ d hd).isTag t td hmem).no_tag

/-- A second merge of the same records finds the facets, the tags and the values there. -/
lemma same_mergeAll (h : v.Wf) (records : List Record) :
    (v.mergeAll records).Same ((v.mergeAll records).mergeAll records) := by
  have hwf := h.mergeAll records
  have hwf' := hwf.mergeAll records
  have hextends := extends_mergeAll hwf records
  have hold (a : Fact) (ha : ((v.mergeAll records).mergeAll records).Has a) :
      ∃ b, b.subject = a.subject ∧ (v.mergeAll records).Has b := by
    rcases has_of_has_mergeAll hwf ha with ha | hstates
    · exact ⟨a, rfl, ha⟩
    · exact exists_has_mergeAll h (.inr hstates)
  have htwice (x y : Option Str) : x.or (x.or y) = x.or y := by
    cases x <;> rfl
  apply same_of_has_iff hwf hwf'
  intro a
  cases a with
  | facet f =>
    constructor
    · intro hf
      exact hasFacet_iff.mp (hextends.facet f (hasFacet_iff.mpr hf))
    · intro hf
      exact has_facet_of_subject (hold _ hf)
  | facetField f k x =>
    simp only [Has]
    by_cases hk : k = str "Facet"
    · rw [hk, hwf.facetField_facet, hwf'.facetField_facet]
    · rw [facetField_mergeAll hwf hk, facetField_mergeAll h hk, htwice]
  | tag t =>
    constructor
    · intro ht
      exact hasTag_iff_has.mp (hextends.tag t (hasTag_iff_has.mpr ht))
    · intro ht
      exact has_tag_of_subject (hold _ ht)
  | tagField t k x =>
    simp only [Has]
    by_cases hk : k = str "Tag"
    · rw [hk, hwf.tagField_tag, hwf'.tagField_tag]
    · rw [tagField_mergeAll hwf hk, tagField_mergeAll h hk, htwice]

/-- What is expected of reading these files one after the other, each of which returns normally. A
field has the value that the last record with this field for its facet or tag gives it first. No
facet, tag or field disappears from one file to a later one. And each file, read a second time
behind itself, returns normally again and changes none of them. -/
structure LastRecordWins (inputs : List Str) : Prop where
  facetField (v : Vocabulary) (h : ReadFiles empty inputs v) (f k : Str) (hk : k ≠ str "Facet") :
    v.facetField f k = (inputs.flatMap recordsOf).reverse.findSome? fun fields =>
      facetValue f k (fields.lookup ·)
  tagField (v : Vocabulary) (h : ReadFiles empty inputs v) (t k : Str) (hk : k ≠ str "Tag") :
    v.tagField t k = (inputs.flatMap recordsOf).reverse.findSome? fun fields =>
      tagValue t k (fields.lookup ·)
  stays (before after : List Str) (hsplit : inputs = before ++ after) (v v' : Vocabulary)
    (h : ReadFiles empty before v) (h' : ReadFiles v after v') : v.Extends v'
  again (before after : List Str) (input : Str) (hsplit : inputs = before ++ input :: after)
    (v : Vocabulary) (h : ReadFiles empty (before ++ [input]) v) :
    ∃ v', (∀ x, v.MayReturn input x ↔ x = (.ok (), v')) ∧ v.Same v'

/-- So it is if no count overflows. -/
lemma lastRecordWins_of_not_overflows (hcount : ∀ input ∈ inputs, ¬Overflows input) :
    LastRecordWins inputs where
  facetField v h f k hk := by
    rw [h.eq_mergeAll wf_empty hcount, facetField_mergeAll wf_empty hk, findSome?_addFields]
    simp [Vocabulary.facetField, empty]
  tagField v h t k hk := by
    rw [h.eq_mergeAll wf_empty hcount, tagField_mergeAll wf_empty hk, findSome?_addFields]
    simp [Vocabulary.tagField, tagData_eq, empty]
  stays before after hsplit v v' h h' := by
    rw [hsplit, List.forall_mem_append] at hcount
    have hwf : v.Wf := by
      rw [h.eq_mergeAll wf_empty hcount.1]
      exact wf_empty.mergeAll _
    rw [h'.eq_mergeAll hwf hcount.2]
    exact extends_mergeAll hwf _
  again before after input hsplit v h := by
    rw [hsplit, List.forall_mem_append, List.forall_mem_cons] at hcount
    obtain ⟨hbefore, hinput, -⟩ := hcount
    obtain ⟨u, hu, hlast⟩ := readFiles_append.mp h
    have hwf : u.Wf := by
      rw [hu.eq_mergeAll wf_empty hbefore]
      exact wf_empty.mergeAll _
    rw [readFiles_singleton, hwf.mayReturn_iff hinput, read_returns_iff hwf] at hlast
    obtain ⟨hend, rfl⟩ := hlast
    have hwf' := hwf.mergeAll ((recordsOf input).map (addFields ∅))
    have hread' := (read_returns_iff hwf').mpr ⟨hend, rfl⟩
    refine ⟨_, fun x => ?_, same_mergeAll hwf _⟩
    rw [hwf'.mayReturn_iff hinput]
    exact ⟨fun hx => hx.unique hread', fun hx => hx ▸ hread'⟩

/-- After the first file that overflows there may be anything, and then anything again. -/
lemma not_lastRecordWins (hinputs : ReadFiles empty inputs v)
    (hcount : ¬∀ input ∈ inputs, ¬Overflows input) : ¬LastRecordWins inputs := by
  intro hwins
  obtain ⟨before, input, after, rfl, hbefore, hinput⟩ :
      ∃ before input after, inputs = before ++ input :: after ∧
        (∀ input ∈ before, ¬Overflows input) ∧ Overflows input := by
    classical
    obtain ⟨input, hfind⟩ : ∃ input, inputs.find? (decide <| Overflows ·) = some input := by
      simpa [← Option.isSome_iff_exists] using hcount
    obtain ⟨hinput, before, after, hsplit, hbefore⟩ := List.find?_eq_some_iff_append.mp hfind
    exact ⟨before, input, after, hsplit, by simpa using hbefore, by simpa using hinput⟩
  obtain ⟨u, hu, -⟩ := readFiles_append.mp hinputs
  have hwf : u.Wf := by
    rw [hu.eq_mergeAll wf_empty hbefore]
    exact wf_empty.mergeAll _
  have hany := readFiles_append.mpr
    ⟨u, hu, readFiles_singleton.mpr (hwf.mayReturn_of_overflows hinput (.ok (), empty))⟩
  obtain ⟨v', hagain, -⟩ := hwins.again before after input rfl empty hany
  have hthrows := wf_empty.mayReturn_of_overflows hinput (.error .overflow, empty)
  cases (hagain _).mp hthrows

/-- Reading files, each of which may return normally, gives each field the value that the last
record with this field for its facet or tag gives it first, keeps every facet, tag and field, and
changes nothing when a file is read a second time, if and only if in no file more blank lines come
after each other, behind lines without an error, than an `int` can count. -/
theorem last_record_wins_iff (h : ReadFiles empty inputs v) :
    LastRecordWins inputs ↔ ∀ input ∈ inputs, ¬Overflows input :=
  ⟨fun hwins => by_contra fun hcount => not_lastRecordWins h hcount hwins,
    lastRecordWins_of_not_overflows⟩

/-- Two records for a facet, of which the first one has a field twice. -/
theorem last_record_wins_sample :
    ∃ v, ReadFiles empty [str "Facet: a\nx: 1\nx: 2\ny: 3\n", str "Facet: a\ny: 4\n"] v ∧
      v.facetField (str "a") (str "x") = some (str "1") ∧
      v.facetField (str "a") (str "y") = some (str "4") := by
  have hends : ∀ input ∈ [str "Facet: a\nx: 1\nx: 2\ny: 3\n", str "Facet: a\ny: 4\n"],
      (reading input).2 = .finished := by decide
  obtain ⟨v, hfiles⟩ := exists_readFiles wf_empty _ hends
  have hfacet := ((last_record_wins_iff hfiles).mpr fun input hinput =>
    not_overflows_of_finished (hends input hinput)).facetField v hfiles
  exact ⟨v, hfiles, (hfacet _ _ (by decide)).trans (by decide),
    (hfacet _ _ (by decide)).trans (by decide)⟩

/-- Two records for a facet, with so many newlines between them. -/
def twoRecords (n : ℕ) : Str :=
  str "Facet: a\nx: 1" ++ nl :: (List.replicate n nl ++ str "Facet: a\nx: 2")

lemma splitOn_twoRecords (n : ℕ) :
    (twoRecords n).splitOn nl =
      str "Facet: a" :: str "x: 1" :: (List.replicate n [] ++ [str "Facet: a", str "x: 2"]) := by
  rw [twoRecords, List.splitOn_append_cons_self, splitOn_replicate]
  rfl

lemma overflows_twoRecords : Overflows (twoRecords (2 ^ 31)) := by
  refine ⟨[str "Facet: a", str "x: 1"], List.replicate (2 ^ 31) [], [str "Facet: a", str "x: 2"],
    splitOn_twoRecords _, by simp, ?_, ?_, List.length_replicate⟩
  · exact .cons_cons (.inr rfl) (.cons_cons (.inr rfl) (.singleton _))
  · intro l hl
    rw [List.eq_of_mem_replicate hl]
    rfl

lemma splitOnP_replicate (n : ℕ) (ls : List Str) :
    ((List.replicate n ([] : Str) ++ ls).splitOnP fun l => l.all isblank).filter (· ≠ []) =
      (ls.splitOnP fun l => l.all isblank).filter (· ≠ []) := by
  induction n with
  | zero => rfl
  | succ n ih =>
    rw [List.replicate_succ, List.cons_append, splitOnP_blank rfl,
      List.filter_cons_of_neg (by simp), ih]

lemma recordsOf_twoRecords {n : ℕ} (hn : 0 < n) :
    recordsOf (twoRecords n) =
      [[(str "Facet", str "a"), (str "x", str "1")],
        [(str "Facet", str "a"), (str "x", str "2")]] := by
  obtain ⟨m, rfl⟩ := Nat.exists_eq_add_of_lt hn
  have hrest := @splitOnP_blank [] rfl (List.replicate (0 + m) [] ++ [str "Facet: a", str "x: 2"])
  have hsecond := @splitOnP_line (str "x: 1") _ (by decide) _ _ hrest
  have hfirst := @splitOnP_line (str "Facet: a") _ (by decide) _ _ hsecond
  rw [recordsOf, paragraphs, splitOn_twoRecords, List.replicate_succ, List.cons_append, hfirst,
    List.filter_cons_of_pos (by simp), splitOnP_replicate]
  rfl

/-- With more newlines than can be counted, the second record may be lost. -/
theorem last_record_lost :
    ∃ v, ReadFiles empty [twoRecords (2 ^ 31)] v ∧
      v.facetField (str "a") (str "x") = some (str "1") ∧
      ¬LastRecordWins [twoRecords (2 ^ 31)] := by
  let v := empty.mergeAll [addFields ∅ [(str "Facet", str "a"), (str "x", str "1")]]
  have hread : ReadFiles empty [twoRecords (2 ^ 31)] v :=
    readFiles_singleton.mpr (wf_empty.mayReturn_of_overflows overflows_twoRecords _)
  have hone : v.facetField (str "a") (str "x") = some (str "1") := by
    rw [facetField_mergeAll wf_empty (by decide)]
    rfl
  refine ⟨v, hread, hone, fun hwins => ?_⟩
  have htwo := hwins.facetField v hread (str "a") (str "x") (by decide)
  rw [hone, List.flatMap_singleton, recordsOf_twoRecords (by decide)] at htwo
  revert htwo
  decide

end Libept.Vocabulary
