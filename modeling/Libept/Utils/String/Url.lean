import Libept.Utils.String.CString

/-!
# Urlencoding

`encode_url` writes a character that needs it as `%` and two hexadecimal digits, and `decode_url`
reads these escapes back.
-/

namespace Libept.Utils

def percent : Byte := 37

/-! ### Encoding -/

/-- The characters that stand for themselves. The source compares signed characters, and those
above 127 are in no range either way. -/
def isUrlPlain (c : Byte) : Bool :=
  (48 ≤ c && c ≤ 57) || (65 ≤ c && c ≤ 90) || (97 ≤ c && c ≤ 122) || c == dash || c == 95
    || c == 33 || c == 42 || c == 39 || c == 40 || c == 41

/-- What `snprintf` makes of a character with the format `%%%02x`. -/
def urlEscape (c : Byte) : Str := [percent, hexDigit (c / 16), hexDigit (c % 16)]

/-- What is added for one character. -/
def urlEncodeChar (c : Byte) : Str := if isUrlPlain c then [c] else urlEscape c

def encodeUrl (s : Str) : Str := s.flatMap urlEncodeChar

/-! ### Decoding -/

def hexValue (c : Byte) : ℕ :=
  if c ≤ 57 then c.toNat - 48 else if c ≤ 70 then c.toNat - 55 else c.toNat - 87

/-- The number that is written at the front of a C string, as `strtoul` reads it in base 16. It is
in the range of the result for the two characters that it is used for. -/
def strtoul16 (s : Str) : ℕ :=
  let digits (s : Str) : ℕ := (s.takeWhile isxdigit).foldl (fun n c => 16 * n + hexValue c) 0
  let number (s : Str) : ℕ :=
    match s with
    | 48 :: 120 :: s => digits s
    | 48 :: 88 :: s => digits s
    | s => digits s
  match (s.takeWhile (· != 0)).dropWhile isspace with
  | 45 :: s => (2 ^ 64 - number s) % 2 ^ 64
  | 43 :: s => number s
  | s => number s

/-- `size - 2`, which wraps. -/
def twoLess (size : ℕ) : ℕ := if size < 2 then 2 ^ 64 + size - 2 else size - 2

/-- The loop of `decode_url`. -/
def decodeUrlLoop (s res : Str) (i : ℕ) : Str :=
  if h : i < s.length then
    if s[i] = percent then
      -- a partial escape at the end
      if i ≥ twoLess s.length then res
      else decodeUrlLoop s (res ++ [UInt8.ofNat (strtoul16 ((s.drop (i + 1)).take 2))]) (i + 3)
    else decodeUrlLoop s (res ++ [s[i]]) (i + 1)
  else res
termination_by s.length - i

def decodeUrl (s : Str) : Str := decodeUrlLoop s [] 0

/-! ### What a text stands for -/

/-- Each `%` of the text is followed by two characters, and `t` is the text with the characters
that these escapes stand for. -/
inductive Decodes : Str → Str → Prop where
  | nil : Decodes [] []
  | char {s t : Str} (c : Byte) (hc : c ≠ percent) (h : Decodes s t) : Decodes (c :: s) (c :: t)
  | escape {s t : Str} (a b : Byte) (h : Decodes s t) :
      Decodes (percent :: a :: b :: s) (UInt8.ofNat (strtoul16 [a, b]) :: t)

lemma twoLess_eq {size : ℕ} (h : 2 ≤ size) : twoLess size = size - 2 :=
  if_neg (Nat.not_lt.mpr h)

section DecodeUrlLoop

variable (pre rest res : Str)

lemma decodeUrlLoop_char {c : Byte} (hc : c ≠ percent) :
    decodeUrlLoop (pre ++ c :: rest) res pre.length =
      decodeUrlLoop (pre ++ c :: rest) (res ++ [c]) (pre.length + 1) := by
  rw [decodeUrlLoop, dif_pos (by simp)]
  simp [hc]

lemma decodeUrlLoop_escape (a b : Byte) :
    decodeUrlLoop (pre ++ percent :: a :: b :: rest) res pre.length =
      decodeUrlLoop (pre ++ percent :: a :: b :: rest) (res ++ [UInt8.ofNat (strtoul16 [a, b])])
        (pre.length + 3) := by
  have hdrop : ((pre ++ percent :: a :: b :: rest).drop (pre.length + 1)).take 2 = [a, b] := by
    simp
  have hroom : ¬ pre.length ≥ twoLess (pre ++ percent :: a :: b :: rest).length := by
    have hlen : (pre ++ percent :: a :: b :: rest).length = pre.length + rest.length + 3 := by
      simp
      omega
    rw [hlen, twoLess_eq (by omega)]
    omega
  rw [decodeUrlLoop, dif_pos (by simp), if_pos (by simp), if_neg hroom, hdrop]

/-- By induction on the derivation, for any text before and behind. -/
lemma decodeUrlLoop_decodes {s t : Str} (h : Decodes s t) :
    decodeUrlLoop (pre ++ s ++ rest) res pre.length =
      decodeUrlLoop (pre ++ s ++ rest) (res ++ t) (pre.length + s.length) := by
  induction h generalizing pre res with
  | nil => simp
  | @char s t c hc h ih =>
    have key := ih (pre ++ [c]) (res ++ [c])
    simp only [List.append_assoc, List.cons_append, List.nil_append, List.length_append,
      List.length_cons, List.length_nil] at key
    simp only [List.append_assoc, List.cons_append, List.length_cons]
    rw [decodeUrlLoop_char _ _ _ hc, key, Nat.add_assoc, Nat.add_comm 1]
  | @escape s t a b h ih =>
    have key := ih (pre ++ [percent, a, b]) (res ++ [UInt8.ofNat (strtoul16 [a, b])])
    simp only [List.append_assoc, List.cons_append, List.nil_append, List.length_append,
      List.length_cons, List.length_nil] at key
    simp only [List.append_assoc, List.cons_append, List.length_cons]
    rw [decodeUrlLoop_escape, key, Nat.add_assoc, Nat.add_comm 3]

end DecodeUrlLoop

lemma decodeUrl_append {s t : Str} (h : Decodes s t) (rest : Str) :
    decodeUrl (s ++ rest) = decodeUrlLoop (s ++ rest) t s.length := by
  simpa [decodeUrl] using decodeUrlLoop_decodes [] rest [] h

lemma decodeUrl_eq {s t : Str} (h : Decodes s t) : decodeUrl s = t := by
  have key := decodeUrl_append h []
  rwa [decodeUrlLoop, dif_neg (by simp), List.append_nil] at key

/-! ### Hexadecimal digits -/

lemma ne_of_isxdigit {c d : Byte} (h : isxdigit c = true) (hd : isxdigit d = false) : c ≠ d := by
  rintro rfl
  simp [h] at hd

lemma isspace_of_isxdigit {c : Byte} (h : isxdigit c = true) : isspace c = false := by
  simp only [isxdigit, isdigit, isspace, Bool.or_eq_true, Bool.and_eq_true, decide_eq_true_eq,
    UInt8.le_iff_toNat_le, Bool.or_eq_false_iff, beq_eq_false_iff_ne, Bool.and_eq_false_iff,
    decide_eq_false_iff_not, ne_eq, ← UInt8.toNat_inj] at h ⊢
  simp only [UInt8.reduceToNat] at h ⊢
  omega

lemma strtoul16_digits {a b : Byte} (ha : isxdigit a = true) (hb : isxdigit b = true) :
    strtoul16 [a, b] = 16 * hexValue a + hexValue b := by
  have hends : a ≠ 0 ∧ b ≠ 0 := ⟨ne_of_isxdigit ha rfl, ne_of_isxdigit hb rfl⟩
  have hsign : a ≠ 43 ∧ a ≠ 45 := ⟨ne_of_isxdigit ha rfl, ne_of_isxdigit ha rfl⟩
  have hbase : b ≠ 88 ∧ b ≠ 120 := ⟨ne_of_isxdigit hb rfl, ne_of_isxdigit hb rfl⟩
  simp [strtoul16, hends, isspace_of_isxdigit ha, hsign, hbase, ha, hb]

/-- Lower-case, as `%02x` writes them. -/
def isLowerHex (c : Byte) : Bool := isdigit c || (97 ≤ c && c ≤ 102)

lemma hexDigit_spec {n : Byte} (h : n < 16) :
    isLowerHex (hexDigit n) = true ∧ hexValue (hexDigit n) = n.toNat := by
  have key : ∀ n : Fin 16, isLowerHex (hexDigit (UInt8.ofNat n)) = true ∧
      hexValue (hexDigit (UInt8.ofNat n)) = n := by
    decide
  have hn : UInt8.ofNat n.toNat = n := UInt8.ofNat_toNat
  have hspec := key ⟨n.toNat, h⟩
  rwa [hn] at hspec

lemma strtoul16_hexDigit (c : Byte) :
    UInt8.ofNat (strtoul16 [hexDigit (c / 16), hexDigit (c % 16)]) = c := by
  rw [strtoul16_digits (isxdigit_hexDigit (high_lt c)) (isxdigit_hexDigit (low_lt c)),
    (hexDigit_spec (high_lt c)).2, (hexDigit_spec (low_lt c)).2, UInt8.toNat_div, UInt8.toNat_mod]
  show UInt8.ofNat (16 * (c.toNat / 16) + c.toNat % 16) = c
  rw [Nat.div_add_mod, UInt8.ofNat_toNat]

/-! ### Encoded texts -/

/-- A text of letters, digits, `-_!*'()` and complete escapes. -/
inductive IsUrlText : Str → Prop where
  | nil : IsUrlText []
  | char {s : Str} (c : Byte) (hc : isalnum c = true ∨ c ∈ str "-_!*'()") (h : IsUrlText s) :
      IsUrlText (c :: s)
  | escape {s : Str} (a b : Byte) (ha : isLowerHex a = true) (hb : isLowerHex b = true)
      (h : IsUrlText s) : IsUrlText (percent :: a :: b :: s)

lemma isUrlPlain_iff (c : Byte) :
    isUrlPlain c = true ↔ isalnum c = true ∨ c ∈ str "-_!*'()" := by
  have hstr : str "-_!*'()" = [dash, 95, 33, 42, 39, 40, 41] := rfl
  simp [isUrlPlain, isalnum, hstr, or_assoc]

lemma decodes_encodeUrl (s : Str) : Decodes (encodeUrl s) s := by
  induction s with
  | nil => exact .nil
  | cons c s ih =>
    show Decodes (urlEncodeChar c ++ encodeUrl s) (c :: s)
    cases hc : isUrlPlain c with
    | true =>
      have hne : c ≠ percent := by
        rintro rfl
        exact absurd hc (by decide)
      simpa [urlEncodeChar, hc] using Decodes.char c hne ih
    | false =>
      have key := Decodes.escape (hexDigit (c / 16)) (hexDigit (c % 16)) ih
      rw [strtoul16_hexDigit] at key
      simpa [urlEncodeChar, urlEscape, hc] using key

lemma isUrlText_encodeUrl (s : Str) : IsUrlText (encodeUrl s) := by
  induction s with
  | nil => exact .nil
  | cons c s ih =>
    show IsUrlText (urlEncodeChar c ++ encodeUrl s)
    cases hc : isUrlPlain c with
    | true => simpa [urlEncodeChar, hc] using IsUrlText.char c ((isUrlPlain_iff c).mp hc) ih
    | false =>
      have hhigh := (hexDigit_spec (high_lt c)).1
      have hlow := (hexDigit_spec (low_lt c)).1
      simpa [urlEncodeChar, urlEscape, hc] using IsUrlText.escape _ _ hhigh hlow ih

/-- Every string survives, and its encoding has only characters that need no encoding. -/
theorem decodeUrl_encodeUrl (s : Str) : decodeUrl (encodeUrl s) = s ∧ IsUrlText (encodeUrl s) :=
  ⟨decodeUrl_eq (decodes_encodeUrl s), isUrlText_encodeUrl s⟩

/-! ### Partial escapes -/

/-- Each `%` is followed by two hexadecimal digits. -/
def HasCompleteEscapes (p : Str) : Prop :=
  ∀ i, p[i]? = some percent → ∃ a b, p[i + 1]? = some a ∧ p[i + 2]? = some b ∧
    isxdigit a = true ∧ isxdigit b = true

lemma HasCompleteEscapes.drop {p : Str} (h : HasCompleteEscapes p) (n : ℕ) :
    HasCompleteEscapes (p.drop n) := by
  intro i hi
  rw [List.getElem?_drop] at hi
  simpa only [List.getElem?_drop, Nat.add_assoc] using h (n + i) hi

lemma HasCompleteEscapes.exists_decodes {p : Str} (h : HasCompleteEscapes p) :
    ∃ t, Decodes p t := by
  induction hn : p.length using Nat.strong_induction_on generalizing p with
  | _ n ih =>
    cases p with
    | nil => exact ⟨[], .nil⟩
    | cons c p =>
      have next (k : ℕ) : ∃ t, Decodes (p.drop k) t :=
        ih _ (by simp at hn ⊢; omega) (h.drop (k + 1)) rfl
      by_cases hc : c = percent
      · subst hc
        obtain ⟨a, b, ha, hb, -⟩ := h 0 rfl
        match p with
        | a' :: b' :: p =>
          obtain ⟨t, ht⟩ := next 2
          exact ⟨_, .escape a' b' ht⟩
      · obtain ⟨t, ht⟩ := next 0
        exact ⟨_, .char c hc ht⟩

/-- A partial escape behind complete ones is dropped, when there are two characters before the
end for the unsigned bound not to wrap. -/
lemma decodeUrl_truncated {p t q : Str} (h : Decodes p t) (hq : q.length ≤ 1)
    (hlen : 1 ≤ p.length + q.length) : decodeUrl (p ++ percent :: q) = t := by
  have hbound : p.length ≥ twoLess (p ++ percent :: q).length := by
    have hend : (p ++ percent :: q).length = p.length + q.length + 1 := by simp; omega
    rw [hend, twoLess_eq (by omega)]
    omega
  rw [decodeUrl_append h, decodeUrlLoop, dif_pos (by simp), if_pos (by simp), if_pos hbound]

lemma decodeUrl_percent : decodeUrl [percent] = [0] := by
  have hfirst : [percent][0] = percent := rfl
  rw [decodeUrl, decodeUrlLoop, dif_pos (by decide), if_pos hfirst, if_neg (by decide),
    decodeUrlLoop, dif_neg (by decide)]
  rfl

/-- A partial escape at the end is ignored unless it is a `%` with nothing before it. -/
theorem decodeUrl_truncated_iff (p : Str) (h : Byte) (hp : HasCompleteEscapes p) :
    (decodeUrl (p ++ [percent]) = decodeUrl p ∧ decodeUrl (p ++ [percent, h]) = decodeUrl p) ↔
      p ≠ [] := by
  obtain ⟨t, ht⟩ := hp.exists_decodes
  constructor
  · rintro ⟨hpercent, -⟩ rfl
    have hnil : decodeUrl [] = [] := decodeUrl_eq .nil
    rw [hnil, List.nil_append, decodeUrl_percent] at hpercent
    cases hpercent
  · intro hne
    have hlen := List.length_pos_iff.mpr hne
    rw [decodeUrl_eq ht]
    exact ⟨decodeUrl_truncated ht (Nat.zero_le _) hlen,
      decodeUrl_truncated ht (Nat.le_refl _) (by simp)⟩

theorem decodeUrl_truncated_behind_escape :
    decodeUrl (str "%41" ++ [percent]) = decodeUrl (str "%41") ∧
      decodeUrl (str "%41" ++ [percent, 52]) = decodeUrl (str "%41") := by
  refine (decodeUrl_truncated_iff (str "%41") 52 ?_).mpr (by decide)
  intro i hi
  match i with
  | 0 => exact ⟨52, 49, rfl, rfl, rfl, rfl⟩
  | 1 | 2 => exact absurd hi (by decide)
  | _ + 3 => cases hi

/-- The lone `%` becomes a null character. -/
theorem decodeUrl_lone_percent :
    HasCompleteEscapes [] ∧ decodeUrl ([] ++ [percent]) ≠ decodeUrl [] := by
  constructor
  · intro i hi
    cases hi
  · rw [List.nil_append, decodeUrl_percent, decodeUrl_eq .nil]
    exact List.cons_ne_nil _ _

end Libept.Utils
