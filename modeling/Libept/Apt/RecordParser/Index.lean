import Libept.Apt.RecordParser.Fields

/-!
# The index of the fields

`scan` sorts the fields by name, and `index` looks a name up by binary search. Below the search
position no name is after the one looked for, above it every name is; on `int` bounds the search
gets there as long as the sum of two bounds fits.
-/

namespace Libept.RecordParser

open Std

variable {p : RecordParser} {str : Str}

/-! ### Sorting by name -/

/-- `rpcompare` is a comparison that `std::sort` may be called with. -/
lemma rpcompare_strictWeak (p : RecordParser) :
    IsStrictWeakOrder ℕ fun a b => p.rpcompare a b = true where
  irrefl a h := by simp [rpcompare] at h
  trans a b c hab hbc := by
    simp only [rpcompare, beq_iff_eq] at *
    exact TransCmp.lt_trans hab hbc
  incomp_trans a b c hab hbc := by
    -- names that are not less than each other are equal
    have heq : ∀ x y, ¬p.rpcompare x y = true ∧ ¬p.rpcompare y x = true → p.name x = p.name y := by
      intro x y h
      simp only [rpcompare, beq_iff_eq, ← OrientedCmp.gt_iff_lt (a := p.name x)] at h
      cases hxy : compare (p.name x) (p.name y) with
      | lt => exact absurd hxy h.1
      | eq => exact LawfulEqCmp.eq_of_compare hxy
      | gt => exact absurd hxy h.2
    simp [rpcompare, (heq a b hab).trans (heq b c hbc)]

/-- The table `sorted` lists the fields in the order of their names. -/
structure Indexed (p : RecordParser) : Prop where
  perm : p.sorted.Perm (List.range p.size)
  sorted : p.sorted.Pairwise fun a b => (compare (p.name a) (p.name b)).isLE = true

namespace Indexed

lemma length (h : p.Indexed) : p.sorted.length = p.size := by
  rw [h.perm.length_eq, List.length_range]

/-- Names do not decrease along the table. -/
lemma mono (h : p.Indexed) {j k a b : ℕ} (ha : p.sorted[j]? = some a) (hb : p.sorted[k]? = some b)
    (hjk : j ≤ k) : (compare (p.name a) (p.name b)).isLE = true := by
  obtain ⟨hj, rfl⟩ := List.getElem?_eq_some_iff.mp ha
  obtain ⟨hk, rfl⟩ := List.getElem?_eq_some_iff.mp hb
  rcases hjk.eq_or_lt with rfl | hlt
  · simp
  · exact List.pairwise_iff_getElem.mp h.sorted j k hj hk hlt

lemma nodup (h : p.Indexed) : p.sorted.Nodup := h.perm.nodup_iff.mpr List.nodup_range

lemma exists_getElem? (h : p.Indexed) {i : ℕ} (hi : i < p.size) :
    ∃ j : ℕ, p.sorted[j]? = some i :=
  List.mem_iff_getElem?.mp (h.perm.mem_iff.mpr (List.mem_range.mpr hi))

lemma lt_size (h : p.Indexed) {i j : ℕ} (hj : p.sorted[j]? = some i) : i < p.size :=
  List.mem_range.mp (h.perm.mem_iff.mp (List.mem_of_getElem? hj))

end Indexed

/-! ### The binary search -/

/-- No name up to position `b` is after `str`. -/
def Below (p : RecordParser) (str : Str) (b : ℤ) : Prop :=
  ∀ j i : ℕ, p.sorted[j]? = some i → (j : ℤ) ≤ b → (compare (p.name i) str).isLE = true

/-- Every name from position `e` on is after `str`. -/
def Above (p : RecordParser) (str : Str) (e : ℤ) : Prop :=
  ∀ j i : ℕ, p.sorted[j]? = some i → e ≤ j → compare (p.name i) str = .gt

lemma below_of_getElem? (h : p.Indexed) {k a : ℕ} (ha : p.sorted[k]? = some a)
    (hle : (compare (p.name a) str).isLE = true) : p.Below str k := by
  intro j i hj hjk
  exact TransCmp.isLE_trans (h.mono hj ha (by omega)) hle

lemma above_of_getElem? (h : p.Indexed) {k a : ℕ} (ha : p.sorted[k]? = some a)
    (hgt : compare (p.name a) str = .gt) : p.Above str k := by
  intro j i hj hkj
  exact TransCmp.gt_of_isGE_of_gt (OrientedCmp.isGE_of_isLE (h.mono ha hj (by omega))) hgt

/-- The number tested next is between the bounds. -/
lemma tdiv_sum_between {begin end_ gap sum : ℤ} (hgap : CInt.sub end_ begin = some gap)
    (hgt : 1 < gap) (hsum : CInt.add end_ begin = some sum) :
    begin < sum.tdiv 2 ∧ sum.tdiv 2 < end_ := by
  obtain rfl := CInt.sub_eq_some hgap
  obtain rfl := CInt.add_eq_some hsum
  exact CInt.tdiv_two_between (by omega)

/-- The position tested next is a valid one, between the bounds. -/
lemma exists_cur {begin end_ gap sum : ℤ} (hbegin : -1 ≤ begin)
    (hgap : CInt.sub end_ begin = some gap) (hgt : 1 < gap)
    (hsum : CInt.add end_ begin = some sum) :
    ∃ cur : ℕ, sum.tdiv 2 = cur ∧ begin < cur ∧ (cur : ℤ) < end_ ∧
      CInt.get p.sorted (sum.tdiv 2) = p.sorted[cur]? := by
  obtain ⟨h₁, h₂⟩ := tdiv_sum_between hgap hgt hsum
  obtain ⟨cur, hcur⟩ := Int.eq_ofNat_of_zero_le (show 0 ≤ sum.tdiv 2 by omega)
  rw [hcur] at h₁ h₂ ⊢
  exact ⟨cur, rfl, h₁, h₂, CInt.get_natCast _ _⟩

/-- While the sum of two bounds fits an `int`, the search finds where the names up to `str` end. -/
lemma searchLoop_eq_some (h : p.Indexed) (hsize : p.size ≤ 2 ^ 30) (begin end_ : ℤ)
    (hbegin : -1 ≤ begin) (hlt : begin < end_) (hend : end_ ≤ p.size)
    (hbelow : p.Below str begin) (habove : p.Above str end_) :
    ∃ b, p.searchLoop str begin end_ = some b ∧ -1 ≤ b ∧ b < p.size ∧
      p.Below str b ∧ p.Above str (b + 1) := by
  fun_induction searchLoop p str begin end_ with
  | case1 begin end_ hgap =>
    rw [CInt.sub, if_pos (by unfold CInt.InRange; omega)] at hgap
    cases hgap
  | case2 begin end_ gap hgap hlt hsum =>
    obtain rfl := CInt.sub_eq_some hgap
    rw [CInt.add, if_pos (by unfold CInt.InRange; omega)] at hsum
    cases hsum
  | case3 begin end_ gap hgap hgt sum hsum hget =>
    obtain ⟨cur, -, h₁, h₂, hread⟩ := exists_cur hbegin hgap hgt hsum
    rw [hread, List.getElem?_eq_none_iff, h.length] at hget
    omega
  | case4 begin end_ gap hgap hgt sum hsum i hget hafter ih =>
    obtain ⟨cur, hcur, h₁, h₂, hread⟩ := exists_cur hbegin hgap hgt hsum
    rw [hread] at hget
    rw [hcur] at ih ⊢
    exact ih hbegin h₁ (by omega) hbelow (above_of_getElem? h hget (beq_iff_eq.mp hafter))
  | case5 begin end_ gap hgap hgt sum hsum i hget hafter ih =>
    obtain ⟨cur, hcur, h₁, h₂, hread⟩ := exists_cur hbegin hgap hgt hsum
    rw [hread] at hget
    rw [hcur] at ih ⊢
    have hle := Ordering.isLE_iff_ne_gt.mpr fun hgt => hafter (beq_iff_eq.mpr hgt)
    exact ih (by omega) h₂ hend (below_of_getElem? h hget hle) habove
  | case6 begin end_ gap hgap hgt =>
    obtain rfl := CInt.sub_eq_some hgap
    obtain rfl : end_ = begin + 1 := by omega
    exact ⟨begin, rfl, hbegin, by omega, hbelow, habove⟩

/-- The search never returns a position that is not below its upper bound. -/
lemma lt_of_searchLoop {begin end_ b : ℤ} (h : p.searchLoop str begin end_ = some b) :
    b = begin ∨ b < end_ := by
  fun_induction searchLoop p str begin end_ with
  | case1 | case2 | case3 => cases h
  | case4 begin end_ gap hgap hgt sum hsum i hget hafter ih =>
    obtain ⟨h₁, h₂⟩ := tdiv_sum_between hgap hgt hsum
    rcases ih h with hb | hb
    · exact .inl hb
    · exact .inr (by omega)
  | case5 begin end_ gap hgap hgt sum hsum i hget hafter ih =>
    obtain ⟨h₁, h₂⟩ := tdiv_sum_between hgap hgt hsum
    rcases ih h with hb | hb
    · exact .inr (by omega)
    · exact .inr hb
  | case6 begin end_ gap hgap hgt => exact .inl (Option.some.inj h).symm

/-- Above 2^30 fields, the search for the last name has bounds whose sum does not fit an `int`. -/
lemma searchLoop_eq_none (hsize : 2 ^ 30 < p.size) (begin : ℤ)
    (hbegin : -1 ≤ begin) (hlt : begin + 1 < p.size) (hall : p.Below str p.size) :
    p.searchLoop str begin p.size = none := by
  generalize hend : (p.size : ℤ) = end_ at *
  fun_induction searchLoop p str begin end_ with
  | case1 | case2 | case3 => rfl
  | case4 begin end_ gap hgap hgt sum hsum i hget hafter ih =>
    obtain ⟨cur, -, h₁, h₂, hread⟩ := exists_cur hbegin hgap hgt hsum
    rw [hread] at hget
    exact absurd (beq_iff_eq.mp hafter) (Ordering.isLE_iff_ne_gt.mp (hall cur i hget (by omega)))
  | case5 begin end_ gap hgap hgt sum hsum i hget hafter ih =>
    obtain ⟨cur, hcur, h₁, h₂, -⟩ := exists_cur (p := p) hbegin hgap hgt hsum
    have hrange := CInt.inRange_of_add hsum
    obtain rfl := CInt.add_eq_some hsum
    -- the last position is not tested: the sum of its bounds is too large
    have hlast : (end_ + begin).tdiv 2 + 1 < end_ := by
      rw [CInt.InRange] at hrange
      have h₁ := Int.tmod_add_tdiv_mul (end_ + begin) 2
      have h₂ := Int.tmod_nonneg 2 (show 0 ≤ end_ + begin by omega)
      omega
    exact ih (by omega) hend hlast hall
  | case6 begin end_ gap hgap hgt =>
    obtain rfl := CInt.sub_eq_some hgap
    omega

/-! ### The index of a name -/

lemma sorted_scan (S : Sorter ℕ) (s : Str) :
    (scan S s).sorted = S.sort (scan S s).rpcompare (List.range (scan S s).size) := by
  change S.sort (scan S s).rpcompare (scanLoop s 0 0 [] []).2 = _
  rw [scanLoop_zero, size_scan]

lemma indexed_scan (S : Sorter ℕ) (s : Str) : (scan S s).Indexed where
  perm := by
    rw [sorted_scan]
    exact S.perm _ _ (rpcompare_strictWeak _)
  sorted := by
    rw [sorted_scan]
    refine (S.sorted _ _ (rpcompare_strictWeak _)).imp fun {a b} hab => ?_
    simp only [rpcompare, beq_eq_false_iff_ne, ne_eq] at hab
    exact OrientedCmp.isLE_of_isGE (Ordering.isGE_iff_ne_lt.mpr hab)

/-- `index` finds a field that has the name, if there is one. -/
lemma index_cases (h : p.Indexed) (hsize : p.size ≤ 2 ^ 30) (s : Str) :
    (∃ i < p.size, p.name i = s ∧ p.index s = some i) ∨
      (∀ i < p.size, p.name i ≠ s) ∧ p.index s = some p.size := by
  obtain ⟨b, hsearch, hlo, hhi, hbelow, habove⟩ :=
    @searchLoop_eq_some p s h hsize (-1) p.size (by omega) (by omega) le_rfl
      (fun j i _ hneg => by omega)
      (fun j i hj hlen => by
        have := (List.getElem?_eq_some_iff.mp hj).1
        rw [h.length] at this
        omega)
  -- the position of a field with the name is not above `b`
  have hpos : ∀ i < p.size, p.name i = s → ∃ j : ℕ, p.sorted[j]? = some i ∧ (j : ℤ) ≤ b := by
    rintro i hi rfl
    obtain ⟨j, hj⟩ := h.exists_getElem? hi
    refine ⟨j, hj, ?_⟩
    by_contra hlt
    have := habove j i hj (by omega)
    simp at this
  rw [index, CInt.ofSize_of_lt (by omega), hsearch]
  by_cases hneg : b = -1
  · refine .inr ⟨fun i hi hname => ?_, by simp [hneg]⟩
    obtain ⟨j, -, hj⟩ := hpos i hi hname
    omega
  obtain ⟨k, rfl⟩ : ∃ k : ℕ, b = k := ⟨b.toNat, by omega⟩
  obtain ⟨a, ha⟩ : ∃ a, p.sorted[k]? = some a :=
    ⟨_, List.getElem?_eq_getElem (by rw [h.length]; omega)⟩
  by_cases hname : p.name a = s
  · exact .inl ⟨a, h.lt_size ha, hname, by simp [CInt.get_natCast, ha, hname, hneg]⟩
  · refine .inr ⟨fun i hi hi' => hname ?_, by simp [CInt.get_natCast, ha, hname, hneg]⟩
    obtain ⟨j, hj, hjk⟩ := hpos i hi hi'
    subst hi'
    exact LawfulEqCmp.eq_of_compare
      (OrientedCmp.isLE_antisymm (hbelow k a ha le_rfl) (h.mono hj ha (by omega)))

/-- With distinct names, `index` finds a field by its name. -/
lemma index_name (h : p.Indexed) (hinj : Set.InjOn p.name (Set.Iio p.size))
    (hsize : p.size ≤ 2 ^ 30) {i : ℕ} (hi : i < p.size) : p.index (p.name i) = some i := by
  rcases index_cases h hsize (p.name i) with ⟨a, ha, hname, hindex⟩ | ⟨hnone, -⟩
  · rw [hindex, hinj ha hi hname]
  · exact absurd rfl (hnone i hi)

/-- No name is after that of the last field of the table. -/
lemma exists_last (h : p.Indexed) (hpos : 0 < p.size) :
    ∃ i, p.sorted[p.size - 1]? = some i ∧ p.Below (p.name i) p.size := by
  have hlast : p.size - 1 < p.sorted.length := by
    rw [h.length]
    omega
  refine ⟨_, List.getElem?_eq_getElem hlast, fun j a hj _ => ?_⟩
  have := (List.getElem?_eq_some_iff.mp hj).1
  rw [h.length] at this
  exact h.mono hj (List.getElem?_eq_getElem hlast) (by omega)

/-- Above 2^30 fields, the search for the last name does not get through. -/
lemma exists_index_eq_none (h : p.Indexed) (hsize : 2 ^ 30 < p.size) (hlt : p.size < 2 ^ 31) :
    ∃ i < p.size, p.index (p.name i) = none := by
  obtain ⟨i, hi, hall⟩ := exists_last h (by omega)
  refine ⟨i, h.lt_size hi, ?_⟩
  rw [index, CInt.ofSize_of_lt hlt, searchLoop_eq_none hsize (-1) le_rfl (by omega) hall]
  rfl

/-- Above 2^30 fields, the last field by name is not found. -/
lemma exists_index_ne (h : p.Indexed) (hsize : 2 ^ 30 < p.size) :
    ∃ i < p.size, p.index (p.name i) ≠ some i := by
  rcases lt_or_ge p.size (2 ^ 31) with hlt | hge
  · obtain ⟨i, hi, hindex⟩ := exists_index_eq_none h hsize hlt
    exact ⟨i, hi, by simp [hindex]⟩
  -- the upper bound wraps around to a number below the position of the last name
  obtain ⟨i, hi, -⟩ := exists_last h (by omega)
  refine ⟨i, h.lt_size hi, fun hindex => ?_⟩
  rw [index] at hindex
  cases hsearch : p.searchLoop (p.name i) (-1) (CInt.ofSize p.size) with
  | none => simp [hsearch] at hindex
  | some b =>
    have hsize' : p.size ≠ i := (h.lt_size hi).ne'
    by_cases hb : b = -1
    · simp [hsearch, hb, hsize'] at hindex
    have hlt : b < p.size - 1 := by
      have hbound := CInt.ofSize_lt p.size
      rcases lt_of_searchLoop hsearch with hb' | hb'
      · exact absurd hb' hb
      · omega
    cases hget : CInt.get p.sorted b with
    | none => simp [hsearch, hb, hget] at hindex
    | some a =>
      have hai : a = i := by
        simp only [hsearch, hb, hget, Option.bind_eq_bind, Option.bind_some, if_false] at hindex
        split_ifs at hindex
        · exact absurd (Option.some.inj hindex) hsize'
        · exact Option.some.inj hindex
      rw [CInt.get, hai] at hget
      split_ifs at hget with hneg
      have hlen := (List.getElem?_eq_some_iff.mp hget).1
      have heq := (List.getElem?_inj hlen h.nodup).mp (hget.trans hi.symm)
      omega

end Libept.RecordParser
