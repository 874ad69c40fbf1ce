import Libept.Utils.Basic

/-!
# C strings

`encode_cstring` escapes a string as in the source of a C program, and `decode_cstring` reads it
back, up to a double quote. The iterator of the decoder is what is left of its input.
-/

namespace Libept.Utils

def quote : Byte := 34
def backslash : Byte := 92
def tab : Byte := 9

def iscntrl (c : Byte) : Bool := c < 32 || c == 127

def isdigit (c : Byte) : Bool := 48 ≤ c && c ≤ 57

def isxdigit (c : Byte) : Bool := isdigit c || (65 ≤ c && c ≤ 70) || (97 ≤ c && c ≤ 102)

/-! ### Encoding -/

def hexDigit (n : Byte) : Byte := if n < 10 then 48 + n else 87 + n

/-- What `snprintf` makes of a control character with the format `\x%02x`. None is negative. -/
def hexEscape (c : Byte) : Str := [backslash, 120, hexDigit (c / 16), hexDigit (c % 16)]

/-- What is added for one character. -/
def encodeChar (c : Byte) : Str :=
  if c = nl then str "\\n"
  else if c = tab then str "\\t"
  else if c = 0 || iscntrl c then hexEscape c
  else if c = quote || c = backslash then [backslash, c]
  else [c]

def encodeCstring (s : Str) : Str := s.flatMap encodeChar

/-! ### Decoding -/

/-- The number that is written at the front of a string in decimal, as `atoi` reads it. -/
def atoi (s : Str) : ℤ :=
  let number (s : Str) : ℤ := (s.takeWhile isdigit).foldl (fun n c => 10 * n + (c.toNat - 48)) 0
  match s.dropWhile isspace with
  | 45 :: s => -number s
  | 43 :: s => number s
  | s => number s

/-- The digits of an escape: up to two. -/
def hexDigits (s : Str) : Str := (s.take 2).takeWhile isxdigit

/-- The loop of `decode_cstring`, which stops at the end or before a quote. -/
def decodeLoop (res s : Str) : Str × Str :=
  match s with
  | [] => (res, [])
  | c :: s =>
    if c = quote then (res, c :: s)
    else if c = backslash then
      match s with
      | [] => (res ++ [c], [])
      | d :: s =>
        if d = 110 then decodeLoop (res ++ [nl]) s
        else if d = 116 then decodeLoop (res ++ [tab]) s
        else if d = 120 then
          let buf := str "0x" ++ hexDigits s
          decodeLoop (res ++ [UInt8.ofInt (atoi buf)]) (s.drop (hexDigits s).length)
        else decodeLoop (res ++ [d]) s
    else decodeLoop (res ++ [c]) s
termination_by s.length

/-- The string and `lenParsed`. -/
def decodeCstring (s : Str) : Str × ℕ :=
  let (res, left) := decodeLoop [] s
  let left := if left.head? = some quote then left.tail else left
  (res, s.length - left.length)

/-! ### One character -/

/-- What becomes of a character that is encoded and decoded. -/
def survivor (c : Byte) : Byte := if iscntrl c && c != nl && c != tab then 0 else c

/-- The base of the number is not known to `atoi`, which stops behind the zero. -/
lemma atoi_hex (s : Str) : atoi (str "0x" ++ s) = 0 := rfl

lemma isxdigit_hexDigit {n : Byte} (h : n < 16) : isxdigit (hexDigit n) = true := by
  have key : ∀ n : Fin 16, isxdigit (hexDigit (UInt8.ofNat n)) = true := by decide
  have hn : UInt8.ofNat n.toNat = n := UInt8.ofNat_toNat
  rw [← hn]
  exact key ⟨n.toNat, h⟩

lemma high_lt (c : Byte) : c / 16 < 16 := by
  have hc := c.toNat_lt
  rw [UInt8.lt_iff_toNat_lt, UInt8.toNat_div]
  exact Nat.div_lt_of_lt_mul hc

lemma low_lt (c : Byte) : c % 16 < 16 := by
  rw [UInt8.lt_iff_toNat_lt, UInt8.toNat_mod]
  exact Nat.mod_lt _ (by decide)

lemma hexDigits_escape (c : Byte) (rest : Str) :
    hexDigits (hexDigit (c / 16) :: hexDigit (c % 16) :: rest) =
      [hexDigit (c / 16), hexDigit (c % 16)] := by
  simp [hexDigits, isxdigit_hexDigit (high_lt c), isxdigit_hexDigit (low_lt c)]

section DecodeLoop

variable {c d : Byte} (res s : Str)

lemma decodeLoop_nl : decodeLoop res (str "\\n" ++ s) = decodeLoop (res ++ [nl]) s := by
  change decodeLoop res (backslash :: 110 :: s) = _
  rw [decodeLoop, if_neg (by decide), if_pos rfl, if_pos rfl]

lemma decodeLoop_tab : decodeLoop res (str "\\t" ++ s) = decodeLoop (res ++ [tab]) s := by
  change decodeLoop res (backslash :: 116 :: s) = _
  rw [decodeLoop, if_neg (by decide), if_pos rfl, if_neg (by decide), if_pos rfl]

lemma decodeLoop_hexEscape : decodeLoop res (hexEscape c ++ s) = decodeLoop (res ++ [0]) s := by
  have hdigits := hexDigits_escape c s
  change decodeLoop res (backslash :: 120 :: hexDigit (c / 16) :: hexDigit (c % 16) :: s) = _
  rw [decodeLoop, if_neg (by decide), if_pos rfl, if_neg (by decide), if_neg (by decide),
    if_pos rfl]
  simp only [hdigits, atoi_hex]
  rfl

/-- Any other character may stand behind a backslash. -/
lemma decodeLoop_backslash (hn : d ≠ 110) (ht : d ≠ 116) (hx : d ≠ 120) :
    decodeLoop res (backslash :: d :: s) = decodeLoop (res ++ [d]) s := by
  rw [decodeLoop, if_neg (by decide), if_pos rfl, if_neg hn, if_neg ht, if_neg hx]

lemma decodeLoop_plain (hquote : c ≠ quote) (hback : c ≠ backslash) :
    decodeLoop res (c :: s) = decodeLoop (res ++ [c]) s := by
  rw [decodeLoop.eq_def]
  simp only [hquote, hback, if_false]

lemma decodeLoop_quote : decodeLoop res (quote :: s) = (res, quote :: s) := by
  rw [decodeLoop.eq_def]
  simp only [if_true]

/-- One character that was encoded is read, whatever follows it. -/
lemma decodeLoop_encodeChar :
    decodeLoop res (encodeChar c ++ s) = decodeLoop (res ++ [survivor c]) s := by
  by_cases hnl : c = nl
  · subst hnl
    exact decodeLoop_nl res s
  by_cases htab : c = tab
  · subst htab
    exact decodeLoop_tab res s
  rw [encodeChar, if_neg hnl, if_neg htab]
  by_cases hctrl : iscntrl c = true
  · have hsurvivor : survivor c = 0 := by simp [survivor, hctrl, hnl, htab]
    rw [if_pos (by simp [hctrl]), hsurvivor]
    exact decodeLoop_hexEscape res s
  have hzero : c ≠ 0 := by
    rintro rfl
    exact hctrl (by decide)
  have hsurvivor : survivor c = c := by simp [survivor, hctrl]
  rw [if_neg (by simp [hctrl, hzero]), hsurvivor]
  by_cases hescape : c = quote ∨ c = backslash
  · rw [if_pos (by simpa using hescape)]
    have hne : c ≠ 110 ∧ c ≠ 116 ∧ c ≠ 120 := by
      rcases hescape with rfl | rfl <;> decide
    exact decodeLoop_backslash res s hne.1 hne.2.1 hne.2.2
  · rw [if_neg (by simpa using hescape)]
    rw [not_or] at hescape
    exact decodeLoop_plain res s hescape.1 hescape.2

/-- By induction on the string that was encoded. -/
lemma decodeLoop_encodeCstring (t : Str) :
    decodeLoop res (encodeCstring t ++ s) = decodeLoop (res ++ t.map survivor) s := by
  induction t generalizing res with
  | nil => simp [encodeCstring]
  | cons c t ih =>
    have hcons : encodeCstring (c :: t) = encodeChar c ++ encodeCstring t := rfl
    rw [hcons, List.append_assoc, decodeLoop_encodeChar, ih, List.append_assoc]
    rfl

end DecodeLoop

/-! ### Whole strings -/

lemma decodeCstring_encodeCstring (s : Str) :
    decodeCstring (encodeCstring s) = (s.map survivor, (encodeCstring s).length) := by
  have hloop := decodeLoop_encodeCstring [] [] s
  rw [List.append_nil, decodeLoop, List.nil_append] at hloop
  simp [decodeCstring, hloop]

lemma survivor_eq_self_iff {c : Byte} :
    survivor c = c ↔ (iscntrl c = true → c = nl ∨ c = tab ∨ c = 0) := by
  rw [survivor]
  split_ifs with h
  · simp only [Bool.and_eq_true, bne_iff_ne] at h
    obtain ⟨⟨hctrl, hnl⟩, htab⟩ := h
    simp [hctrl, hnl, htab, eq_comm]
  · refine iff_of_true rfl fun hctrl => ?_
    by_contra hne
    simp only [not_or] at hne
    exact h (by simp [hctrl, hne])

lemma map_survivor_eq_self_iff {s : Str} :
    s.map survivor = s ↔ ∀ c ∈ s, iscntrl c = true → c = nl ∨ c = tab ∨ c = 0 := by
  have hinj := @List.map_inj_left _ _ s survivor id
  rw [List.map_id] at hinj
  simp only [hinj, id_eq, survivor_eq_self_iff]

/-- A string comes back exactly when it has no control characters but newlines, tabs and NULs. -/
theorem decode_encode_cstring_iff (s : Str) :
    (decodeCstring (encodeCstring s)).1 = s ↔
      ∀ c ∈ s, iscntrl c = true → c = nl ∨ c = tab ∨ c = 0 := by
  rw [decodeCstring_encodeCstring]
  exact map_survivor_eq_self_iff

/-- An escape character is written as `\x1b`, and NUL is read. -/
theorem decode_encode_escape :
    encodeCstring [27] = str "\\x1b" ∧ (decodeCstring (encodeCstring [27])).1 = [0] ∧
      (decodeCstring (encodeCstring [27])).1 ≠ [27] := by
  rw [decodeCstring_encodeCstring]
  decide

/-- A string that was encoded ends before the first quote that is not part of it, whatever stands
behind that. -/
theorem decode_cstring_delimited (s rest : Str) :
    (decodeCstring (encodeCstring s ++ quote :: rest)).2 = (encodeCstring s).length + 1 ∧
      (decodeCstring (encodeCstring s ++ quote :: rest)).1.length = s.length := by
  have hloop : decodeLoop [] (encodeCstring s ++ quote :: rest) =
      (s.map survivor, quote :: rest) := by
    rw [decodeLoop_encodeCstring, decodeLoop_quote, List.nil_append]
  simp only [decodeCstring, hloop, List.head?_cons, if_true, List.tail_cons, List.length_append,
    List.length_cons, List.length_map, and_true]
  omega

end Libept.Utils
