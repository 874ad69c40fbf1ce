import Libept.Utils.Basic

/-!
# Removing characters at both ends

`lstrip`, `rstrip` and `strip` remove the characters that satisfy a classifier. An access outside
of the string has no result.
-/

namespace Libept.Utils

/-! ### The loops -/

/-- `while (beg < last && classifier(str[beg])) ++beg` -/
def skipForward (f : Byte → Bool) (s : Str) (last beg : ℕ) : Option ℕ :=
  if beg < last then do
    let c ← s[beg]?
    if f c then skipForward f s last (beg + 1) else pure beg
  else pure beg
termination_by last - beg

/-- `while (end > 0 && classifier(str[end - 1])) --end` -/
def skipBackward (f : Byte → Bool) (s : Str) : ℕ → Option ℕ
  | 0 => pure 0
  | end_ + 1 => do
    let c ← s[end_]?
    if f c then skipBackward f s end_ else pure (end_ + 1)

/-- `while (end >= beg && classifier(str[end])) --end` -/
def skipLast (f : Byte → Bool) (s : Str) (beg : ℕ) : ℕ → Option ℕ
  | 0 =>
    if 0 ≥ beg then do
      let c ← s[0]?
      -- the index is unsigned and wraps: the next character is `str[SIZE_MAX]`
      if f c then none else pure 0
    else pure 0
  | end_ + 1 =>
    if end_ + 1 ≥ beg then do
      let c ← s[end_ + 1]?
      if f c then skipLast f s beg end_ else pure (end_ + 1)
    else pure (end_ + 1)

/-! ### The functions -/

def lstrip (s : Str) (classifier : Byte → Bool) : Option Str :=
  if s.isEmpty then pure s else do
    let beg ← skipForward classifier s s.length 0
    pure ((s.drop beg).take (s.length - beg + 1))

def rstrip (s : Str) (classifier : Byte → Bool) : Option Str :=
  if s.isEmpty then pure s else do
    let end_ ← skipBackward classifier s s.length
    if end_ = 0 then pure [] else pure (s.take end_)

def strip (s : Str) (classifier : Byte → Bool) : Option Str :=
  if s.isEmpty then pure s else do
    let beg ← skipForward classifier s (s.length - 1) 0
    let end_ ← skipLast classifier s beg (s.length - 1)
    -- `end - beg + 1`, where `end` is `beg - 1` at least
    pure ((s.drop beg).take (end_ + 1 - beg))

/-! ### What the loops find -/

lemma skipForward_append (f : Byte → Bool) (pre s : Str) (n : ℕ) (h : n ≤ s.length) :
    skipForward f (pre ++ s) (pre.length + n) pre.length =
      some (pre.length + ((s.take n).takeWhile f).length) := by
  induction n generalizing pre s with
  | zero => simp [skipForward]
  | succ n ih =>
    cases s with
    | nil => simp at h
    | cons c s =>
      rw [skipForward, if_pos (by omega)]
      cases hc : f c with
      | false => simp [hc]
      | true =>
        have key := ih (pre ++ [c]) s (by simpa using h)
        simp only [List.append_assoc, List.singleton_append, List.length_append,
          List.length_singleton] at key
        simp [hc, show pre.length + (n + 1) = pre.length + 1 + n by omega, key]
        omega

/-- The loop from the start of the string passes the characters that satisfy the classifier. -/
lemma skipForward_eq (f : Byte → Bool) (s : Str) (n : ℕ) (h : n ≤ s.length) :
    skipForward f s n 0 = some ((s.take n).takeWhile f).length := by
  simpa using skipForward_append f [] s n h

lemma take_succ_eq {s : Str} {n : ℕ} {c : Byte} (h : s[n]? = some c) :
    s.take (n + 1) = s.take n ++ [c] := by
  rw [List.take_add_one, h]
  rfl

lemma skipBackward_eq (f : Byte → Bool) (s : Str) (n : ℕ) (h : n ≤ s.length) :
    ∃ e, skipBackward f s n = some e ∧ s.take e = (s.take n).rdropWhile f := by
  induction n with
  | zero => exact ⟨0, rfl, by simp⟩
  | succ n ih =>
    obtain ⟨c, hc⟩ : ∃ c, s[n]? = some c := ⟨_, List.getElem?_eq_getElem h⟩
    rw [take_succ_eq hc, List.rdropWhile_concat]
    cases hf : f c with
    | false => exact ⟨n + 1, by simp [skipBackward, hc, hf], by simpa using take_succ_eq hc⟩
    | true => simpa [skipBackward, hc, hf] using ih (by omega)

lemma le_of_skipBackward {f : Byte → Bool} {s : Str} {n e : ℕ} (h : skipBackward f s n = some e) :
    e ≤ n := by
  induction n with
  | zero =>
    obtain rfl : 0 = e := Option.some.inj h
    exact Nat.le_refl _
  | succ n ih =>
    obtain ⟨c, -, hc⟩ := Option.bind_eq_some_iff.mp h
    cases hf : f c with
    | false =>
      obtain rfl : n + 1 = e := by simpa [hf] using hc
      exact Nat.le_refl _
    | true => exact Nat.le_succ_of_le (ih (by simpa [hf] using hc))

/-- The index does not wrap when the string starts with a character that stays, or its first
character is not looked at. -/
lemma skipLast_eq (f : Byte → Bool) (s : Str) (beg n : ℕ) (hn : n < s.length)
    (h : beg = 0 → ∀ c, s[0]? = some c → f c = false) :
    ∃ e, skipLast f s beg n = some e ∧
      (s.drop beg).take (e + 1 - beg) = ((s.drop beg).take (n + 1 - beg)).rdropWhile f := by
  obtain ⟨c, hc⟩ : ∃ c, s[n]? = some c := ⟨_, List.getElem?_eq_getElem hn⟩
  induction n generalizing c with
  | zero =>
    by_cases hbeg : beg = 0
    · subst hbeg
      have hf : f c = false := h rfl c hc
      have htake : s.take 1 = [c] := take_succ_eq hc
      exact ⟨0, by simp [skipLast, hc, hf], by simp [htake, List.rdropWhile_singleton, hf]⟩
    · exact ⟨0, by simp [skipLast, hbeg], by simp [show 1 - beg = 0 by omega]⟩
  | succ n ih =>
    by_cases hbeg : beg ≤ n + 1
    · have htake :
          (s.drop beg).take (n + 1 + 1 - beg) = (s.drop beg).take (n + 1 - beg) ++ [c] := by
        rw [show n + 1 + 1 - beg = n + 1 - beg + 1 by omega]
        refine take_succ_eq ?_
        rw [List.getElem?_drop, show beg + (n + 1 - beg) = n + 1 by omega, hc]
      rw [htake, List.rdropWhile_concat]
      cases hf : f c with
      | false => exact ⟨n + 1, by simp [skipLast, hbeg, hc, hf], by simpa using htake⟩
      | true =>
        have hn' : n < s.length := by omega
        simpa [skipLast, hbeg, hc, hf] using ih hn' _ (List.getElem?_eq_getElem hn')
    · exact ⟨n + 1, by simp [skipLast, hbeg], by simp [show n + 1 + 1 - beg = 0 by omega]⟩

/-! ### Stripping one end -/

lemma drop_length_takeWhile (f : Byte → Bool) (s : Str) :
    s.drop (s.takeWhile f).length = s.dropWhile f := by
  calc s.drop (s.takeWhile f).length
    _ = (s.takeWhile f ++ s.dropWhile f).drop (s.takeWhile f).length := by
      rw [List.takeWhile_append_dropWhile]
    _ = s.dropWhile f := List.drop_left

lemma lstrip_eq (s : Str) (f : Byte → Bool) : lstrip s f = some (s.dropWhile f) := by
  rw [lstrip]
  split
  case isTrue h =>
    obtain rfl := List.isEmpty_iff.mp h
    rfl
  case isFalse =>
    rw [skipForward_eq f s s.length (Nat.le_refl _), List.take_length]
    show some _ = _
    rw [List.take_of_length_le (by simp), drop_length_takeWhile]

lemma rstrip_eq (s : Str) (f : Byte → Bool) : rstrip s f = some (s.rdropWhile f) := by
  rw [rstrip]
  split
  case isTrue h =>
    obtain rfl := List.isEmpty_iff.mp h
    rfl
  case isFalse =>
    obtain ⟨e, he, htake⟩ := skipBackward_eq f s s.length (Nat.le_refl _)
    rw [List.take_length] at htake
    rw [he, ← htake]
    show (if e = 0 then _ else _) = _
    split
    case isTrue h => simp [h]
    case isFalse => rfl

/-- The two ends do not interfere. -/
lemma rdropWhile_dropWhile (f : Byte → Bool) (s : Str) :
    (s.dropWhile f).rdropWhile f = (s.rdropWhile f).dropWhile f := by
  induction s using List.reverseRecOn with
  | nil => rfl
  | append_singleton s c ih =>
    rw [List.dropWhile_append, List.rdropWhile_concat]
    cases hf : f c with
    | true =>
      rw [if_pos rfl, ← ih]
      split
      case isTrue h => simp [hf, List.isEmpty_iff.mp h]
      case isFalse => rw [List.rdropWhile_concat_pos f _ _ hf]
    | false =>
      have hkeep (t : Str) : (t ++ [c]).rdropWhile f = t ++ [c] :=
        List.rdropWhile_concat_neg f _ _ (by simp [hf])
      rw [if_neg Bool.false_ne_true, List.dropWhile_append]
      split
      case isTrue => simp [hf]
      case isFalse => exact hkeep _

/-! ### Stripping both ends -/

/-- Where the first loop of `strip` stops: before the last character at the latest. -/
lemma rdropWhile_drop_takeWhile (f : Byte → Bool) (s : Str) :
    (s.drop (s.dropLast.takeWhile f).length).rdropWhile f = (s.dropWhile f).rdropWhile f := by
  induction s using List.reverseRecOn with
  | nil => rfl
  | append_singleton s c =>
    rw [List.dropLast_concat, List.drop_append_of_le_length (List.takeWhile_prefix f).length_le,
      drop_length_takeWhile, List.dropWhile_append]
    split
    case isTrue h =>
      cases hf : f c with
      | true => simp [List.isEmpty_iff.mp h, hf]
      | false => simp [List.isEmpty_iff.mp h, hf]
    case isFalse => rfl

/-- `strip` does not read outside of the string unless its one character is removed. -/
lemma strip_eq (s : Str) (f : Byte → Bool) (h : ∀ c, s = [c] → f c = false) :
    strip s f = some ((s.dropWhile f).rdropWhile f) := by
  rw [strip]
  split
  case isTrue he =>
    obtain rfl := List.isEmpty_iff.mp he
    rfl
  case isFalse he =>
    have hlen : 0 < s.length := List.length_pos_iff.mpr (by simpa using he)
    have hfirst : (s.dropLast.takeWhile f).length = 0 → ∀ c, s[0]? = some c → f c = false := by
      intro hbeg c hc
      match s with
      | [_] => exact h c (by simpa using hc)
      | _ :: _ :: _ =>
        obtain rfl : _ = c := by simpa using hc
        simpa using hbeg
    obtain ⟨e, hskip, htake⟩ := skipLast_eq f s _ (s.length - 1) (by omega) hfirst
    rw [skipForward_eq f s _ (Nat.sub_le _ _), ← List.dropLast_eq_take]
    show (skipLast f s _ _).bind _ = _
    rw [hskip]
    show some _ = _
    rw [htake, Nat.sub_add_cancel hlen, List.take_of_length_le (by simp),
      rdropWhile_drop_takeWhile]

lemma strip_singleton (c : Byte) (f : Byte → Bool) (h : f c = true) : strip [c] f = none := by
  simp [strip, skipForward, skipLast, h]

/-- `strip` is `lstrip` and `rstrip` in either order, unless the string is one character that is
removed. -/
theorem strip_iff (s : Str) (classifier : Byte → Bool) :
    (∃ t, strip s classifier = some t ∧
        (rstrip s classifier).bind (lstrip · classifier) = some t ∧
        (lstrip s classifier).bind (rstrip · classifier) = some t) ↔
      ¬ ∃ c, s = [c] ∧ classifier c = true := by
  simp only [lstrip_eq, rstrip_eq, Option.bind_some]
  constructor
  · rintro ⟨t, ht, -⟩ ⟨c, rfl, hc⟩
    rw [strip_singleton c classifier hc] at ht
    cases ht
  · intro h
    refine ⟨_, strip_eq s classifier ?_, ?_, rfl⟩
    · intro c hs
      simpa using fun hc => h ⟨c, hs, hc⟩
    · rw [rdropWhile_dropWhile]

/-- A string of one space is not stripped to the empty string. -/
theorem strip_space : ¬ ∃ t, strip (str " ") isspace = some t := by
  rintro ⟨t, ht⟩
  rw [show str " " = [32] from rfl, strip_singleton 32 isspace rfl] at ht
  cases ht

end Libept.Utils
