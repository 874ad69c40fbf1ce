import Libept.Apt.RecordParser.Recover

/-!
# Looking a name up

Up to 2^30 fields `index` finds a field by any name that occurs, and reports the others as
missing. Above that the search for the last name adds two bounds whose sum does not fit an `int`.
-/

namespace Libept.RecordParser

variable {p : RecordParser} {s : Str}

/-- `index` finds the names that some field has, and no others. -/
structure Finds (p : RecordParser) : Prop where
  found (s : Str) (h : ∃ i < p.size, p.name i = s) :
    ∃ i < p.size, p.index s = some i ∧ p.name i = s
  missing (s : Str) (h : ¬∃ i < p.size, p.name i = s) :
    p.index s = some p.size ∧ p.lookupName s = some []
  distinct (h : Set.InjOn p.name (Set.Iio p.size)) (i : ℕ) (hi : i < p.size) :
    p.index (p.name i) = some i

/-- There is nothing behind the last field. -/
@[simp] lemma lookup_size (p : RecordParser) : p.lookup p.size = [] := by
  have hfield : p.field p.size = [] := by
    have hend : p.ends[p.size]? = none := List.getElem?_eq_none le_rfl
    rw [field, hend]
  have hfind : find ([] : Str) colon 0 = none := rfl
  simp only [lookup, hfield, hfind]

lemma finds_of_le (h : p.Indexed) (hsize : p.size ≤ 2 ^ 30) : p.Finds where
  found s hs := by
    rcases index_cases h hsize s with ⟨i, hi, hname, hindex⟩ | ⟨hnone, -⟩
    · exact ⟨i, hi, hindex, hname⟩
    · obtain ⟨i, hi, hname⟩ := hs
      exact absurd hname (hnone i hi)
  missing s hs := by
    rcases index_cases h hsize s with ⟨i, hi, hname, -⟩ | ⟨-, hindex⟩
    · exact absurd ⟨i, hi, hname⟩ hs
    · rw [lookupName, hindex, Option.map_some, lookup_size]
      exact ⟨rfl, rfl⟩
  distinct hinj i hi := index_name h hinj hsize hi

lemma not_finds_of_lt (h : p.Indexed) (hsize : 2 ^ 30 < p.size) (hlt : p.size < 2 ^ 31) :
    ¬p.Finds := by
  intro hfinds
  obtain ⟨i, hi, hindex⟩ := exists_index_eq_none h hsize hlt
  obtain ⟨j, -, hj, -⟩ := hfinds.found (p.name i) ⟨i, hi, rfl⟩
  rw [hindex] at hj
  cases hj

/-- When their number fits an `int`, all fields are found by their names, and no others, exactly
if there are at most 2^30 of them. -/
theorem finds_iff (S : Sorter ℕ) (str : Str) (hint : (scan S str).size < 2 ^ 31) :
    (scan S str).Finds ↔ (scan S str).size ≤ 2 ^ 30 := by
  constructor
  · intro hfinds
    by_contra hlen
    exact not_finds_of_lt (indexed_scan S str) (by omega) hint hfinds
  · exact finds_of_le (indexed_scan S str)

theorem finds_sample : (scan .merge (str "A: x\nB\nA: y\n")).Finds := by
  have hsize : (scan .merge (str "A: x\nB\nA: y\n")).size = 3 := by
    rw [size_scan]
    decide
  exact (finds_iff .merge _ (by omega)).mpr (by omega)

/-- A record of 2^30 + 1 fields. -/
theorem large_record_not_found :
    (scan .merge (render (numberedRecord (2 ^ 30 + 1)))).size < 2 ^ 31 ∧
      ¬(scan .merge (render (numberedRecord (2 ^ 30 + 1)))).Finds := by
  have hlen := length_numberedRecord (2 ^ 30 + 1)
  have hne : numberedRecord (2 ^ 30 + 1) ≠ [] := by
    rw [← List.length_pos_iff, hlen]
    exact Nat.succ_pos _
  have hsize := size_scan_render .merge hne (.inl rfl)
  rw [List.append_nil, hlen] at hsize
  exact ⟨by omega, not_finds_of_lt (indexed_scan .merge _) (by omega) (by omega)⟩

end Libept.RecordParser
