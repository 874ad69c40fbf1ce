import Libept.Utils.String.Base64

/-!
# The decoder on any input

Every character is looked up in the table, which is left at one index only. What the decoder
returns is said in closed form: the bits of all values, less one byte for each trailing `=`.
-/

namespace Libept.Utils

/-! ### The tables -/

/-- What a character stands for, as long as it is in the table. -/
def value (c : Byte) : UInt32 := ((invbase64 c).getD 0).toUInt32

/-- The table is left at the first index behind it, which the check lets pass. -/
lemma invbase64_eq_none_iff {c : Byte} : invbase64 c = none ↔ c = 123 := by
  have hlength : invData.length = 80 := by decide
  unfold invbase64
  split_ifs with hlow hhigh
  · refine iff_of_false not_false ?_
    rintro rfl
    exact absurd hlow (by decide)
  · refine iff_of_false not_false ?_
    rintro rfl
    exact absurd hhigh (by decide)
  · have hc : (123 : Byte).toNat = 123 := by decide
    rw [List.getElem?_eq_none_iff, ← UInt8.toNat_inj, hc]
    omega

lemma sextet_eq (s : Str) (j : ℕ) :
    sextet s j = s[j]?.bind fun c => if c = 123 then none else some (value c) := by
  rw [sextet]
  cases s[j]? with
  | none => rfl
  | some c =>
    by_cases hc : c = 123
    · simp [hc, invbase64_eq_none_iff.mpr]
    · obtain ⟨v, hv⟩ := Option.ne_none_iff_exists'.mp (mt invbase64_eq_none_iff.mp hc)
      simp [hc, hv, value]

/-- What follows a lookup is done if the lookup does not fail. -/
lemma bind_unless {α β : Type*} (p : Prop) [Decidable p] (a : α) (f : α → Option β) :
    (if p then none else some a).bind f = if p then none else f a := by
  split <;> rfl

/-! ### The loop over the quadruplets -/

/-- The values at the front of a list, packed. Those that are missing are zero. -/
def quadruplet (l : List UInt32) : UInt32 :=
  l.getD 0 0 <<< 18 + l.getD 1 0 <<< 12 + l.getD 2 0 <<< 6 + l.getD 3 0

/-- The quadruplet is left out of the table where one of its characters is. -/
lemma packQuadruplet_eq {s : Str} {i : ℕ} (hi : i < s.length) :
    packQuadruplet s i =
      if 123 ∈ (s.drop i).take 4 then none else some (quadruplet ((s.drop i).map value)) := by
  have hlt : ∀ k, i + k < s.length ↔ k < (s.drop i).length := by
    intro k
    rw [List.length_drop]
    omega
  have hget : ∀ k, s[i + k]? = (s.drop i)[k]? := fun k => List.getElem?_drop.symm
  have hget0 := hget 0
  rw [Nat.add_zero] at hget0
  have hne : s.drop i ≠ [] := by
    rwa [Ne, List.drop_eq_nil_iff, Nat.not_le]
  have hswap : ∀ c : Byte, 123 = c ↔ c = 123 := fun c => eq_comm
  simp only [packQuadruplet, sextet_eq, hget, hget0, hlt]
  generalize s.drop i = l at hne
  -- the list ends before one of the four characters, or not
  rcases l with _ | ⟨a, _ | ⟨b, _ | ⟨c, _ | ⟨d, _ | ⟨e, l⟩⟩⟩⟩⟩
  · exact absurd rfl hne
  all_goals simp [quadruplet, hswap, bind_unless, ite_or]

/-- The bytes for a list of values. -/
def unpack (l : List UInt32) : Str :=
  if l = [] then [] else decodeBits (quadruplet l) ++ unpack (l.drop 4)
termination_by l.length
decreasing_by
  have := List.length_pos_of_ne_nil ‹_›
  rw [List.length_drop]
  omega

/-- By induction on the length of what is left. -/
lemma decodeLoop_returns (s : Str) (i : ℕ) (res : Str) :
    (Comp.loop (fun x => pure (decodeTurn s x)) (i, res)).Returns
      (if 123 ∈ s.drop i then none else some (res ++ unpack ((s.drop i).map value))) := by
  induction hn : s.length - i using Nat.strong_induction_on generalizing i res with
  | _ n ih =>
    by_cases hi : i < s.length
    · have hsplit : s.drop i = (s.drop i).take 4 ++ s.drop (i + 4) := by
        rw [← List.drop_drop, List.take_append_drop]
      by_cases hbrace : 123 ∈ (s.drop i).take 4
      · have hmem : 123 ∈ s.drop i := List.mem_of_mem_take hbrace
        rw [if_pos hmem]
        apply Comp.loop_stop
        simp [decodeTurn, hi, packQuadruplet_eq hi, hbrace]
      · have hmem : 123 ∈ s.drop i ↔ 123 ∈ s.drop (i + 4) := by
          rw [hsplit, List.mem_append, or_iff_right hbrace]
        have hne : (s.drop i).map value ≠ [] := by
          rwa [Ne, List.map_eq_nil_iff, List.drop_eq_nil_iff, Nat.not_le]
        have hrest : (s.drop (i + 4)).map value = ((s.drop i).map value).drop 4 := by
          rw [← List.map_drop, List.drop_drop]
        have hnext := ih (s.length - (i + 4)) (by omega) (i + 4)
          (res ++ decodeBits (quadruplet ((s.drop i).map value))) rfl
        have hturn : decodeTurn s (i, res) =
            .inl (i + 4, res ++ decodeBits (quadruplet ((s.drop i).map value))) := by
          simp [decodeTurn, hi, packQuadruplet_eq hi, hbrace]
        rw [unpack, if_neg hne, ← List.append_assoc, ← hrest]
        simp only [hmem]
        exact Comp.returns_loop.mpr (.inr ⟨_, Comp.returns_pure.mpr hturn, hnext⟩)
    · have hnil : s.drop i = [] := List.drop_eq_nil_of_le (Nat.le_of_not_lt hi)
      apply Comp.loop_stop
      simp [decodeTurn, hi, hnil, unpack]

/-! ### Padding -/

/-- The number of characters `=` at the end of a string. -/
def trailing (s : Str) : ℕ := (s.reverse.takeWhile (· == equals)).length

lemma trailing_take_succ {s : Str} {i : ℕ} (hi : i < s.length) :
    trailing (s.take (i + 1)) = if s[i] = equals then trailing (s.take i) + 1 else 0 := by
  rw [trailing, List.take_succ_eq_append_getElem hi, List.reverse_append, List.reverse_singleton,
    List.singleton_append, List.takeWhile_cons]
  by_cases hc : s[i] = equals <;> simp [hc, trailing]

lemma paddingTurn_stop {s : Str} {i : ℕ} (hi : i < s.length) (hc : s[i] ≠ equals) (res : Str) :
    paddingTurn s (i, res) = .inr (some res) := by
  simp [paddingTurn, List.getElem?_eq_getElem hi, hc]

lemma paddingTurn_equals {s : Str} {i : ℕ} (hi : i < s.length) (hc : s[i] = equals) (res : Str) :
    paddingTurn s (i, res) =
      if i = 0 ∨ res.dropLast = [] then .inr (some res.dropLast)
      else .inl (i - 1, res.dropLast) := by
  have hdrop : (if res.length > 0 then res.dropLast else res) = res.dropLast := by
    cases res <;> simp
  simp only [paddingTurn, List.getElem?_eq_getElem hi, hc, if_true, hdrop,
    List.length_eq_zero_iff]

/-- As many bytes are removed as there are characters `=` up to the index. -/
lemma paddingLoop_returns (s : Str) {i : ℕ} (hi : i < s.length) (res : Str) :
    (Comp.loop (fun x => pure (paddingTurn s x)) (i, res)).Returns
      (some (res.take (res.length - trailing (s.take (i + 1))))) := by
  induction i generalizing res with
  | zero =>
    apply Comp.loop_stop
    rw [trailing_take_succ hi]
    by_cases hc : s[0] = equals
    · rw [paddingTurn_equals hi hc, if_pos (.inl rfl), if_pos hc]
      simp [trailing, List.dropLast_eq_take]
    · rw [paddingTurn_stop hi hc, if_neg hc]
      simp
  | succ i ih =>
    rw [trailing_take_succ hi]
    by_cases hc : s[i + 1] = equals
    · rw [if_pos hc]
      have hturn := paddingTurn_equals hi hc res
      by_cases hnil : res.dropLast = []
      · have hlength : res.length - 1 = 0 := by rw [← List.length_dropLast, hnil, List.length_nil]
        have hzero : res.length - (trailing (s.take (i + 1)) + 1) = 0 := by omega
        rw [if_pos (.inr hnil), hnil] at hturn
        rw [hzero, List.take_zero]
        exact Comp.loop_stop (Comp.returns_pure.mpr hturn)
      · have hnext := ih (by omega) res.dropLast
        have htake : res.dropLast.take (res.dropLast.length - trailing (s.take (i + 1))) =
            res.take (res.length - (trailing (s.take (i + 1)) + 1)) := by
          rw [List.length_dropLast, List.dropLast_eq_take, List.take_take]
          congr 1
          omega
        rw [if_neg (by simp [hnil])] at hturn
        rw [htake] at hnext
        exact Comp.returns_loop.mpr (.inr ⟨_, Comp.returns_pure.mpr hturn, hnext⟩)
    · apply Comp.loop_stop
      rw [paddingTurn_stop hi hc, if_neg hc]
      simp

/-! ### Whole strings -/

/-- What the decoder returns. -/
def decoded (s : Str) : Str :=
  (unpack (s.map value)).take ((unpack (s.map value)).length - trailing s)

/-- The decoder always returns, and only a brace makes it look outside of its table. -/
lemma decodeBase64_returns (s : Str) :
    (decodeBase64 s).Returns (if 123 ∈ s then none else some (decoded s)) := by
  have hloop := decodeLoop_returns s 0 []
  rw [List.drop_zero, List.nil_append] at hloop
  by_cases hbrace : 123 ∈ s
  · rw [if_pos hbrace] at hloop ⊢
    exact Comp.returns_bind.mpr ⟨_, hloop, Comp.returns_pure.mpr rfl⟩
  · rw [if_neg hbrace] at hloop ⊢
    refine Comp.returns_bind.mpr ⟨_, hloop, ?_⟩
    by_cases hlength : s.length > 0
    · have hpadding := paddingLoop_returns s (Nat.sub_one_lt_of_lt hlength) (unpack (s.map value))
      rw [Nat.sub_add_cancel hlength, List.take_length] at hpadding
      simp only [if_pos hlength]
      exact hpadding
    · obtain rfl : s = [] := List.eq_nil_of_length_eq_zero (by omega)
      exact Comp.returns_pure.mpr (by simp [decoded, unpack])

/-- The decoder ends without looking outside of its table, its input or its result exactly when
there is no brace in its input. -/
theorem decodeBase64_safe_iff (s : Str) :
    (∃ res, (decodeBase64 s).Returns (some res)) ↔ 123 ∉ s := by
  have hreturns := decodeBase64_returns s
  constructor
  · rintro ⟨res, hres⟩ hbrace
    rw [if_pos hbrace] at hreturns
    cases hres.unique hreturns
  · intro hbrace
    rw [if_neg hbrace] at hreturns
    exact ⟨_, hreturns⟩

/-- The brace has the first index behind the table. -/
theorem decodeBase64_brace :
    (decodeBase64 (str "\x7b")).Returns none ∧
      ¬∃ res, (decodeBase64 (str "\x7b")).Returns (some res) := by
  have hreturns := decodeBase64_returns (str "\x7b")
  rw [if_pos (by decide)] at hreturns
  refine ⟨hreturns, ?_⟩
  rintro ⟨res, hres⟩
  cases hres.unique hreturns

end Libept.Utils
