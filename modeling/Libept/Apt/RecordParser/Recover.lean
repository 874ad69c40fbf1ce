import Libept.Apt.RecordParser.Index

/-!
# Reading back a record

A record rendered from well-formed fields is cut into exactly these fields, whatever follows its
first empty line, and `name`, `index` and `lookup` give back their names, positions and values.
-/

namespace Libept.RecordParser

/-! ### Well-formed fields -/

structure IsName (name : Str) : Prop where
  ne_nil : name ≠ []
  no_colon : colon ∉ name
  no_nl : nl ∉ name
  start : ∀ c ∈ name.head?, isspace c = false

/-- A value without white space at its ends, in which white space follows every newline. -/
structure IsValue (value : Str) : Prop where
  start : ∀ c ∈ value.head?, isspace c = false
  stop : ∀ c ∈ value.getLast?, isspace c = false
  continued : value.IsChain fun a b => a = nl → isspace b = true ∧ b ≠ nl

structure Field where
  name : Str
  value : Str
  isName : IsName name
  isValue : IsValue value

/-- A field as it stands in a record. -/
def Field.text (f : Field) : Str := f.name ++ str ": " ++ f.value ++ [nl]

def render (L : List Field) : Str := (L.map Field.text).flatten

/-! ### Cutting a rendered record -/

/-- Continuation lines stay in the field. -/
lemma fieldTextsFrom_continued {w : Str} (hstop : ∀ c ∈ w.getLast?, isspace c = false)
    (hchain : w.IsChain fun a b => a = nl → isspace b = true ∧ b ≠ nl) (acc rest : Str) :
    fieldTextsFrom acc (w ++ nl :: rest) = fieldTextsFrom (acc ++ w) (nl :: rest) := by
  induction w generalizing acc with
  | nil => simp
  | cons c w ih =>
    have hacc : acc ++ c :: w = acc ++ [c] ++ w := by simp
    have hrest : fieldTextsFrom (acc ++ [c]) (w ++ nl :: rest) =
        fieldTextsFrom (acc ++ [c] ++ w) (nl :: rest) := by
      rcases w with _ | ⟨d, w⟩
      · simp
      · exact ih (by simpa using hstop) hchain.tail _
    rw [hacc, ← hrest, List.cons_append, fieldTextsFrom]
    by_cases hc : c = nl
    · subst hc
      rcases w with _ | ⟨d, w⟩
      · simp at hstop
      · obtain ⟨hspace, hd⟩ := (List.isChain_cons_cons.mp hchain).1 rfl
        simp [hspace, hd]
    · rw [if_neg hc]

/-- What may follow the last field: nothing, or an empty line and any bytes. -/
def IsTail (tail : Str) : Prop := tail = [] ∨ tail.headD 0 = nl

lemma fieldTextsFrom_stop {tail : Str} (h : IsTail tail) (acc : Str) :
    fieldTextsFrom acc (nl :: tail) = [acc ++ [nl]] := by
  rw [fieldTextsFrom, if_pos rfl]
  exact if_pos h

/-- A field ends at a line that starts with a name. -/
lemma fieldTextsFrom_next (f : Field) (acc rest : Str) :
    fieldTextsFrom acc (nl :: (f.text ++ rest)) =
      (acc ++ [nl]) :: fieldTextsFrom [] (f.text ++ rest) := by
  obtain ⟨c, name, hname⟩ := List.exists_cons_of_ne_nil f.isName.ne_nil
  have hspace : isspace c = false := f.isName.start c (by simp [hname])
  have hc : c ≠ nl := fun h => f.isName.no_nl (by simp [hname, h])
  rw [fieldTextsFrom, if_pos rfl]
  simp [Field.text, hname, hspace, hc]

/-- A rendered record is cut into the fields it was made of. -/
lemma fieldTextsFrom_render {L : List Field} (hne : L ≠ []) {tail : Str} (htail : IsTail tail) :
    fieldTextsFrom [] (render L ++ tail) = L.map Field.text := by
  induction L with
  | nil => exact absurd rfl hne
  | cons f L ih =>
    have hno : nl ∉ f.name ++ str ": " := by
      rw [List.mem_append, not_or]
      exact ⟨f.isName.no_nl, by decide⟩
    have htext : render (f :: L) ++ tail =
        (f.name ++ str ": ") ++ (f.value ++ nl :: (render L ++ tail)) := by
      simp [render, Field.text]
    rw [htext, fieldTextsFrom_append hno, List.nil_append,
      fieldTextsFrom_continued f.isValue.stop f.isValue.continued]
    rcases L with _ | ⟨g, L⟩
    · rw [render, List.map_nil, List.flatten_nil, List.nil_append, fieldTextsFrom_stop htail]
      rfl
    · have hnext : render (g :: L) ++ tail = g.text ++ (render L ++ tail) := by simp [render]
      rw [hnext, fieldTextsFrom_next, ← hnext, ih (by simp)]
      rfl

lemma length_text_pos (f : Field) : 2 ≤ f.text.length := by
  have hpos := List.length_pos_iff.mpr f.isName.ne_nil
  simp [Field.text, str]
  omega

lemma fieldTexts_render {L : List Field} (hne : L ≠ []) {tail : Str} (htail : IsTail tail) :
    fieldTexts (render L ++ tail) = L.map Field.text := by
  obtain ⟨f, L', rfl⟩ := List.exists_cons_of_ne_nil hne
  have hlen := length_text_pos f
  rw [fieldTexts, if_neg, fieldTextsFrom_render hne htail]
  simp [render]
  omega

/-! ### Name and value of a field -/

section Access

variable {p : RecordParser} {f : Field} {i : ℕ}

lemma text_eq (f : Field) : f.text = f.name ++ colon :: (32 :: f.value ++ [nl]) := by
  simp [Field.text, show str ": " = [colon, 32] by decide]

lemma find_colon (f : Field) : find f.text colon 0 = some f.name.length := by
  have hfind := @find_append colon [] f.name f.isName.no_colon (32 :: f.value ++ [nl])
  rw [List.nil_append, List.length_nil, Nat.zero_add] at hfind
  rw [text_eq, hfind]

lemma name_of_field (h : p.field i = f.text) : p.name i = f.name := by
  simp only [name, h, find_colon, substr]
  simp [text_eq]

lemma rdropWhile_value (f : Field) : (f.value ++ [nl]).rdropWhile isspace = f.value := by
  rw [List.rdropWhile_concat_pos _ _ _ isspace_nl, List.rdropWhile_eq_self_iff]
  intro hne
  simpa using f.isValue.stop _ (List.getLast?_eq_some_getLast hne)

lemma lookup_of_field (h : p.field i = f.text) : p.lookup i = f.value := by
  have hdrop : f.text.drop (f.name.length + 1) = 32 :: (f.value ++ [nl]) := by
    rw [text_eq, List.drop_append]
    simp
  have hskip : (32 :: (f.value ++ [nl])).dropWhile isspace = (f.value ++ [nl]).dropWhile isspace :=
    List.dropWhile_cons_of_pos (by decide)
  simp only [lookup, h, find_colon, hdrop, hskip]
  cases hv : f.value with
  | nil => decide
  | cons c value =>
    have hc : isspace c = false := f.isValue.start c (by simp [hv])
    rw [List.cons_append, List.dropWhile_cons_of_neg (by simp [hc]), ← List.cons_append, ← hv,
      rdropWhile_value]

end Access

/-! ### Reading a record back -/

/-- Scanning `s` gives the fields `L`: their number, and each field's name, position and value. -/
structure Recovers (S : Sorter ℕ) (L : List Field) (s : Str) : Prop where
  size : (scan S s).size = L.length
  name (i : ℕ) (f : Field) (h : L[i]? = some f) : (scan S s).name i = f.name
  index (i : ℕ) (f : Field) (h : L[i]? = some f) : (scan S s).index f.name = some i
  lookup (i : ℕ) (f : Field) (h : L[i]? = some f) : (scan S s).lookupName f.name = some f.value

section Recover

variable {L : List Field} {tail : Str} (S : Sorter ℕ)

lemma size_scan_render (hne : L ≠ []) (htail : IsTail tail) :
    (scan S (render L ++ tail)).size = L.length := by
  rw [size_scan, fieldTexts_render hne htail, List.length_map]

lemma field_scan_render (htail : IsTail tail) {i : ℕ} {f : Field} (h : L[i]? = some f) :
    (scan S (render L ++ tail)).field i = f.text := by
  have hne : L ≠ [] := List.ne_nil_of_mem (List.mem_of_getElem? h)
  simp [fieldTexts_render hne htail, h]

/-- Distinct field names stay distinct. -/
lemma injOn_name (hne : L ≠ []) (hnames : (L.map Field.name).Nodup) (htail : IsTail tail) :
    Set.InjOn (scan S (render L ++ tail)).name (Set.Iio (scan S (render L ++ tail)).size) := by
  intro i hi j hj hij
  rw [Set.mem_Iio, size_scan_render S hne htail] at hi hj
  have hname : ∀ k (hk : k < L.length), (scan S (render L ++ tail)).name k = L[k].name :=
    fun k hk => name_of_field (field_scan_render S htail (List.getElem?_eq_getElem hk))
  rw [hname i hi, hname j hj] at hij
  have hi' : i < (L.map Field.name).length := by simpa using hi
  have hj' : j < (L.map Field.name).length := by simpa using hj
  apply (@List.Nodup.getElem_inj_iff _ _ hnames i hi' j hj').mp
  rw [List.getElem_map, List.getElem_map, hij]

lemma recovers_of_le (hne : L ≠ []) (hnames : (L.map Field.name).Nodup) (htail : IsTail tail)
    (hlen : L.length ≤ 2 ^ 30) : Recovers S L (render L ++ tail) := by
  have hsize := size_scan_render S hne htail
  have hindex : ∀ (i : ℕ) (f : Field), L[i]? = some f →
      (scan S (render L ++ tail)).index f.name = some i := by
    intro i f h
    have hi : i < (scan S (render L ++ tail)).size := by
      rw [hsize]
      exact (List.getElem?_eq_some_iff.mp h).1
    rw [← name_of_field (field_scan_render S htail h)]
    exact index_name (indexed_scan S _) (injOn_name S hne hnames htail) (by rwa [hsize]) hi
  refine ⟨hsize, fun i f h => ?_, hindex, fun i f h => ?_⟩
  · exact name_of_field (field_scan_render S htail h)
  · rw [lookupName, hindex i f h, Option.map_some, lookup_of_field (field_scan_render S htail h)]

lemma not_recovers_of_lt {s : Str} (hlen : 2 ^ 30 < L.length) : ¬Recovers S L s := by
  intro h
  obtain ⟨i, hi, hindex⟩ := exists_index_ne (indexed_scan S s) (by rwa [h.size])
  rw [h.size] at hi
  have hf := List.getElem?_eq_getElem hi
  rw [h.name i _ hf] at hindex
  exact hindex (h.index i _ hf)

end Recover

/-- A record of well-formed fields with distinct names is read back, whatever follows its first
empty line, exactly if it has at most 2^30 fields: above that, `index` computes with sums that do
not fit an `int`. -/
theorem recovers_iff (S : Sorter ℕ) {L : List Field} (hne : L ≠ [])
    (hnames : (L.map Field.name).Nodup) :
    (Recovers S L (render L) ∧ ∀ junk, Recovers S L (render L ++ nl :: junk)) ↔
      L.length ≤ 2 ^ 30 := by
  have hnil : render L = render L ++ [] := (List.append_nil _).symm
  constructor
  · rintro ⟨h, -⟩
    by_contra hlen
    exact not_recovers_of_lt S (by omega) h
  · intro hlen
    rw [hnil]
    exact ⟨recovers_of_le S hne hnames (.inl rfl) hlen, fun junk => by
      rw [← hnil]
      exact recovers_of_le S hne hnames (.inr rfl) hlen⟩

/-- Two fields, the first with a continuation line. -/
def sampleFields : List Field :=
  [⟨str "B", str "x\n y", ⟨by decide, by decide, by decide, by rintro c ⟨⟩; decide⟩,
      ⟨by rintro c ⟨⟩; decide, by rintro c ⟨⟩; decide, by decide⟩⟩,
    ⟨str "A", [], ⟨by decide, by decide, by decide, by rintro c ⟨⟩; decide⟩,
      ⟨by simp, by simp, .nil⟩⟩]

theorem recovers_sampleFields :
    Recovers .merge sampleFields (render sampleFields) ∧
      ∀ junk, Recovers .merge sampleFields (render sampleFields ++ nl :: junk) :=
  (recovers_iff .merge (L := sampleFields) (by decide) (by decide)).mpr (by decide)

/-! ### A record with many fields -/

/-- The decimal digits of a number, the last one first. -/
def digits (k : ℕ) : Str := (Nat.digits 10 k).map fun d => UInt8.ofNat (48 + d)

lemma mem_digits {k : ℕ} {c : Byte} (h : c ∈ digits k) : ∃ d < 10, c = UInt8.ofNat (48 + d) := by
  obtain ⟨d, hd, rfl⟩ := List.mem_map.mp h
  exact ⟨d, Nat.digits_lt_base (by omega) hd, rfl⟩

lemma digits_injective : Function.Injective digits := by
  refine Function.LeftInverse.injective
    (g := fun s => Nat.ofDigits 10 (s.map fun c => c.toNat - 48)) fun k => ?_
  have hback : (digits k).map (fun c => c.toNat - 48) = Nat.digits 10 k := by
    rw [digits, List.map_map]
    refine (List.map_congr_left fun d hd => ?_).trans (List.map_id _)
    have hlt := Nat.digits_lt_base (by omega) hd
    simp
    omega
  simp only [hback, Nat.ofDigits_digits]

lemma isName_digits (k : ℕ) : IsName (digits (k + 1)) where
  ne_nil := by simp [digits]
  no_colon h := by
    obtain ⟨d, hd, hc⟩ := mem_digits h
    revert hc
    decide +revert
  no_nl h := by
    obtain ⟨d, hd, hc⟩ := mem_digits h
    revert hc
    decide +revert
  start c h := by
    obtain ⟨d, hd, rfl⟩ := mem_digits (List.mem_of_mem_head? h)
    clear h
    decide +revert

/-- Fields named by consecutive numbers, without values. -/
def numberedRecord (n : ℕ) : List Field :=
  (List.range n).map fun k => ⟨digits (k + 1), [], isName_digits k, ⟨by simp, by simp, .nil⟩⟩

lemma length_numberedRecord (n : ℕ) : (numberedRecord n).length = n := by simp [numberedRecord]

lemma nodup_numberedRecord (n : ℕ) : ((numberedRecord n).map Field.name).Nodup := by
  rw [numberedRecord, List.map_map]
  apply List.nodup_range.map
  intro k l h
  exact Nat.succ_injective (digits_injective h)

/-- With 2^30 + 1 fields, a record with distinct names is not read back. -/
theorem large_record_not_recovered :
    numberedRecord (2 ^ 30 + 1) ≠ [] ∧ ((numberedRecord (2 ^ 30 + 1)).map Field.name).Nodup ∧
      ¬Recovers .merge (numberedRecord (2 ^ 30 + 1)) (render (numberedRecord (2 ^ 30 + 1))) := by
  have hlen := length_numberedRecord (2 ^ 30 + 1)
  refine ⟨?_, nodup_numberedRecord _, not_recovers_of_lt .merge (by omega)⟩
  rw [← List.length_pos_iff, hlen]
  exact Nat.succ_pos _

end Libept.RecordParser
