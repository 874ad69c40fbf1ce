import Libept.Apt.RawRecord

/-!
# The order of versions

The four comparison operators of `Version` compare the names, and the versions of one name as
Debian policy orders them. That comparison is libapt's, and a parameter here: its result is
negative, zero or positive.
-/

namespace Libept.Apt.RawRecord

/-! ### Comparisons by sign -/

section Sign

variable {α : Type*}

/-- The sign of `cmp` tells how two values are ordered. -/
structure IsSignPreorder (cmp : α → α → ℤ) : Prop where
  swap : ∀ a b, (cmp b a).sign = -(cmp a b).sign
  trans : ∀ a b c, cmp a b ≤ 0 → cmp b c ≤ 0 → cmp a c ≤ 0

def bySign (cmp : α → α → ℤ) (a b : α) : Ordering := compare (cmp a b) 0

variable {cmp : α → α → ℤ} {a b : α}

lemma isLE_bySign : (bySign cmp a b).isLE = true ↔ cmp a b ≤ 0 := Int.isLE_compare

lemma bySign_eq_lt : bySign cmp a b = .lt ↔ cmp a b < 0 := Int.compare_eq_lt

lemma bySign_eq_gt : bySign cmp a b = .gt ↔ 0 < cmp a b := Int.compare_eq_gt

lemma IsSignPreorder.transCmp (h : IsSignPreorder cmp) : Std.TransCmp (bySign cmp) where
  eq_swap {a b} := by
    have hswap := h.swap a b
    rcases lt_trichotomy (cmp a b) 0 with hlt | heq | hgt
    · rw [Int.sign_eq_neg_one_of_neg hlt, neg_neg, Int.sign_eq_one_iff_pos] at hswap
      rw [bySign_eq_lt.mpr hlt, bySign_eq_gt.mpr hswap]
      rfl
    · rw [heq, Int.sign_zero, neg_zero, Int.sign_eq_zero_iff_zero] at hswap
      rw [bySign, bySign, heq, hswap]
      rfl
    · rw [Int.sign_eq_one_of_pos hgt, Int.sign_eq_neg_one_iff_neg] at hswap
      rw [bySign_eq_gt.mpr hgt, bySign_eq_lt.mpr hswap]
      rfl
  isLE_trans {a b c} hab hbc := by
    rw [isLE_bySign] at *
    exact h.trans a b c hab hbc

end Sign

/-! ### The operators -/

namespace Version

variable (CmpVersion : Str → Str → ℤ)

/-- What the four operators have in common: they hold for names in order `first`, and for versions
of one name that pass the test. -/
def nameThenVersion (first : Ordering) (test : ℤ → Bool) (a b : Version) : Bool :=
  if compare a.name b.name = first then true
  else if a.name = b.name then test (CmpVersion a.version b.version)
  else false

/-- `operator<=` -/
def le : Version → Version → Bool := nameThenVersion CmpVersion .lt (· ≤ 0)

/-- `operator<` -/
def lt : Version → Version → Bool := nameThenVersion CmpVersion .lt (· < 0)

/-- `operator>=` -/
def ge : Version → Version → Bool := nameThenVersion CmpVersion .gt (· ≥ 0)

/-- `operator>` -/
def gt : Version → Version → Bool := nameThenVersion CmpVersion .gt (· > 0)

/-! ### One comparison for the four -/

/-- First the names are compared, then the versions. -/
def policy : Version → Version → Ordering :=
  compareLex (compareOn Version.name) fun a b => bySign CmpVersion a.version b.version

variable {CmpVersion} {a b c : Version}

lemma policy_eq :
    policy CmpVersion a b =
      (compare a.name b.name).then (bySign CmpVersion a.version b.version) := rfl

/-- An operator of this shape looks at the comparison alone, when its test does. -/
lemma nameThenVersion_eq {first : Ordering} {test : ℤ → Bool} {accepts : Ordering → Bool}
    (hne : first ≠ .eq) (hfirst : accepts first = true) (hlast : accepts first.swap = false)
    (htest : ∀ n, test n = accepts (compare n 0)) (a b : Version) :
    nameThenVersion CmpVersion first test a b = accepts (policy CmpVersion a b) := by
  rw [nameThenVersion, policy_eq]
  by_cases hname : a.name = b.name
  · have heq : compare a.name b.name = .eq := by simp [hname]
    rw [heq, if_neg (Ne.symm hne), if_pos hname, htest]
    rfl
  · rw [if_neg hname]
    cases hcmp : compare a.name b.name with
    | eq => exact absurd (Std.LawfulEqCmp.eq_of_compare hcmp) hname
    | lt => cases first <;> simp_all
    | gt => cases first <;> simp_all

lemma le_eq (a b : Version) : le CmpVersion a b = (policy CmpVersion a b).isLE := by
  rw [le]
  refine nameThenVersion_eq (by decide) rfl rfl (fun n => ?_) a b
  rw [Bool.eq_iff_iff, Int.isLE_compare, decide_eq_true_iff]

lemma lt_eq (a b : Version) : lt CmpVersion a b = (policy CmpVersion a b).isLT := by
  rw [lt]
  refine nameThenVersion_eq (by decide) rfl rfl (fun n => ?_) a b
  rw [Bool.eq_iff_iff, Ordering.isLT_iff_eq_lt, Int.compare_eq_lt, decide_eq_true_iff]

lemma ge_eq (a b : Version) : ge CmpVersion a b = (policy CmpVersion a b).isGE := by
  rw [ge]
  refine nameThenVersion_eq (by decide) rfl rfl (fun n => ?_) a b
  rw [Bool.eq_iff_iff, Int.isGE_compare, decide_eq_true_iff]

lemma gt_eq (a b : Version) : gt CmpVersion a b = (policy CmpVersion a b).isGT := by
  rw [gt]
  refine nameThenVersion_eq (by decide) rfl rfl (fun n => ?_) a b
  rw [Bool.eq_iff_iff, Ordering.isGT_iff_eq_gt, Int.compare_eq_gt, decide_eq_true_iff]

/-! ### The order -/

section Order

variable (h : IsSignPreorder CmpVersion)

include h

lemma transCmp_policy : Std.TransCmp (policy CmpVersion) := by
  have hversion := h.transCmp
  have hon : Std.TransCmp fun a b : Version => bySign CmpVersion a.version b.version :=
    { eq_swap := hversion.eq_swap, isLE_trans := hversion.isLE_trans }
  exact inferInstanceAs (Std.TransCmp (compareLex _ _))

lemma policy_swap (a b : Version) : policy CmpVersion a b = (policy CmpVersion b a).swap :=
  (transCmp_policy h).eq_swap

lemma le_total (a b : Version) : le CmpVersion a b = true ∨ le CmpVersion b a = true := by
  rw [le_eq, le_eq, policy_swap h a b]
  cases policy CmpVersion b a with
  | lt => exact .inr rfl
  | eq => exact .inr rfl
  | gt => exact .inl rfl

lemma le_trans (hab : le CmpVersion a b = true) (hbc : le CmpVersion b c = true) :
    le CmpVersion a c = true := by
  rw [le_eq] at *
  exact (transCmp_policy h).isLE_trans hab hbc

lemma lt_iff_not_le (a b : Version) : lt CmpVersion a b = true ↔ ¬ le CmpVersion b a = true := by
  rw [lt_eq, le_eq, policy_swap h a b]
  cases policy CmpVersion b a <;> simp

lemma gt_iff_lt (a b : Version) : gt CmpVersion a b = true ↔ lt CmpVersion b a = true := by
  rw [gt_eq, lt_eq, policy_swap h a b]
  cases policy CmpVersion b a <;> simp

lemma ge_iff_le (a b : Version) : ge CmpVersion a b = true ↔ le CmpVersion b a = true := by
  rw [ge_eq, le_eq, policy_swap h a b]
  cases policy CmpVersion b a <;> simp

lemma isStrictWeakOrder_lt :
    IsStrictWeakOrder Version fun a b => lt CmpVersion a b = true where
  irrefl a ha := by
    rw [lt_iff_not_le h] at ha
    exact ha ((le_total h a a).elim id id)
  trans a b c hab hbc := by
    rw [lt_iff_not_le h] at *
    intro hca
    exact hab (le_trans h ((le_total h b c).resolve_right hbc) hca)
  incomp_trans a b c hab hbc := by
    simp only [lt_iff_not_le h, not_not] at *
    exact ⟨le_trans h hbc.1 hab.1, le_trans h hab.2 hbc.2⟩

end Order

/-- The operators agree on one total order, if libapt's comparison is one. -/
theorem version_order (h : IsSignPreorder CmpVersion) :
    (∀ a b, le CmpVersion a b = true ∨ le CmpVersion b a = true) ∧
      (∀ a b c, le CmpVersion a b = true → le CmpVersion b c = true → le CmpVersion a c = true) ∧
      (∀ a b, lt CmpVersion a b = true ↔ ¬ le CmpVersion b a = true) ∧
      (∀ a b, gt CmpVersion a b = true ↔ lt CmpVersion b a = true) ∧
      (∀ a b, ge CmpVersion a b = true ↔ le CmpVersion b a = true) ∧
      IsStrictWeakOrder Version fun a b => lt CmpVersion a b = true :=
  ⟨le_total h, fun _ _ _ => le_trans h, lt_iff_not_le h, gt_iff_lt h, ge_iff_le h,
    isStrictWeakOrder_lt h⟩

/-- A comparison of the bytes, which orders the revisions below as libapt does. -/
def strcmp (a b : Str) : ℤ :=
  match compare a b with
  | .lt => -1
  | .eq => 0
  | .gt => 1

lemma bySign_strcmp (a b : Str) : bySign strcmp a b = compare a b := by
  rw [bySign, strcmp]
  cases compare a b <;> rfl

lemma isSignPreorder_strcmp : IsSignPreorder strcmp where
  swap a b := by
    rw [strcmp, strcmp, Std.OrientedOrd.eq_swap (a := b)]
    cases compare a b <;> rfl
  trans a b c hab hbc := by
    rw [← isLE_bySign, bySign_strcmp] at *
    exact Std.TransCmp.isLE_trans hab hbc

theorem version_order_revisions :
    lt strcmp ⟨str "a", str "10.0-1"⟩ ⟨str "a", str "10.0-2"⟩ = true ∧
      gt strcmp ⟨str "a", str "10.0-2"⟩ ⟨str "a", str "10.0-1"⟩ = true := by
  obtain ⟨-, -, hlt, hgt, -⟩ := version_order isSignPreorder_strcmp
  have h := (hlt ⟨str "a", str "10.0-1"⟩ ⟨str "a", str "10.0-2"⟩).mpr (by decide)
  exact ⟨h, (hgt _ _).mpr h⟩

end Version

end Libept.Apt.RawRecord
