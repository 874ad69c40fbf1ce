import Libept.Utils.String.Base64.Decoding

/-!
# Decoding what was encoded

Three characters are 24 bits, which are four values of six bits. The encoder writes them out, and
puts padding over the characters for the bits that it made up at the end.
-/

namespace Libept.Utils

/-! ### The bits of a group -/

lemma map_value_base64 : base64.map value = (List.range 64).map UInt32.ofNat := by decide

lemma value_base64 {v : UInt32} (h : v.toNat < 64) : value (base64.getD v.toNat 0) = v := by
  have hzero : value 0 = 0 := by decide
  have hmap := @List.getD_map _ _ base64 0 v.toNat value
  rw [← hmap, map_value_base64, List.getD_eq_getElem _ _ (by simpa using h), List.getElem_map,
    List.getElem_range, UInt32.ofNat_toNat]

/-- Four values of six bits. -/
def sextets (enc : UInt32) : List UInt32 :=
  ([18, 12, 6, 0] : List UInt32).map fun j => (enc >>> j) &&& 63

lemma toNat_shiftLeft {v j : UInt32} (n : ℕ) (hj : j.toNat = n) (hn : n < 32)
    (h : v.toNat * 2 ^ n < 2 ^ 32) : (v <<< j).toNat = v.toNat * 2 ^ n := by
  rw [UInt32.toNat_shiftLeft, hj, Nat.mod_eq_of_lt hn, Nat.shiftLeft_eq, Nat.mod_eq_of_lt h]

/-- The bits that are shifted to different places do not overlap. -/
lemma toNat_pack (a b c : Byte) :
    (a.toUInt32 <<< 16 ||| b.toUInt32 <<< 8 ||| c.toUInt32).toNat =
      a.toNat * 65536 + b.toNat * 256 + c.toNat := by
  have ha := a.toNat_lt
  have hb := b.toNat_lt
  have hc := c.toNat_lt
  have hshifta : (a.toUInt32 <<< 16).toNat = a.toNat * 2 ^ 16 :=
    toNat_shiftLeft 16 rfl (by decide) (by rw [UInt8.toNat_toUInt32]; omega)
  have hshiftb : (b.toUInt32 <<< 8).toNat = b.toNat * 2 ^ 8 :=
    toNat_shiftLeft 8 rfl (by decide) (by rw [UInt8.toNat_toUInt32]; omega)
  have hab := @Nat.two_pow_add_eq_or_of_lt 16 (b.toNat * 2 ^ 8) (by omega) a.toNat
  have habc := @Nat.two_pow_add_eq_or_of_lt 8 c.toNat (by omega) (a.toNat * 2 ^ 8 + b.toNat)
  rw [UInt32.toNat_or, UInt32.toNat_or, hshifta, hshiftb, UInt8.toNat_toUInt32,
    Nat.mul_comm a.toNat, ← hab]
  have hhigh : 2 ^ 16 * a.toNat + b.toNat * 2 ^ 8 = 2 ^ 8 * (a.toNat * 2 ^ 8 + b.toNat) := by omega
  calc 2 ^ 16 * a.toNat + b.toNat * 2 ^ 8 ||| c.toNat
      = 2 ^ 8 * (a.toNat * 2 ^ 8 + b.toNat) ||| c.toNat := by rw [hhigh]
    _ = 2 ^ 8 * (a.toNat * 2 ^ 8 + b.toNat) + c.toNat := habc.symm
    _ = a.toNat * 65536 + b.toNat * 256 + c.toNat := by omega

lemma toNat_sextet (enc : UInt32) {j : UInt32} (hj : j.toNat < 32) :
    ((enc >>> j) &&& 63).toNat = enc.toNat / 2 ^ j.toNat % 64 := by
  rw [UInt32.toNat_and, UInt32.toNat_shiftRight, Nat.mod_eq_of_lt hj, Nat.shiftRight_eq_div_pow]
  exact Nat.and_two_pow_sub_one_eq_mod _ 6

/-- Four values of six bits, as digits of the number. -/
lemma toNat_sextets (enc : UInt32) :
    (enc >>> 18 &&& 63).toNat = enc.toNat / 2 ^ 18 % 64 ∧
      (enc >>> 12 &&& 63).toNat = enc.toNat / 2 ^ 12 % 64 ∧
      (enc >>> 6 &&& 63).toNat = enc.toNat / 2 ^ 6 % 64 ∧
      (enc >>> 0 &&& 63).toNat = enc.toNat / 2 ^ 0 % 64 := by
  refine ⟨?_, ?_, ?_, ?_⟩ <;> exact toNat_sextet enc (by decide)

lemma toNat_byte (enc : UInt32) {j : UInt32} (hj : j.toNat < 32) :
    ((enc >>> j) &&& 0xff).toUInt8.toNat = enc.toNat / 2 ^ j.toNat % 256 := by
  rw [UInt32.toNat_toUInt8, UInt32.toNat_and, UInt32.toNat_shiftRight, Nat.mod_eq_of_lt hj,
    Nat.shiftRight_eq_div_pow]
  have hmask := Nat.and_two_pow_sub_one_eq_mod (enc.toNat / 2 ^ j.toNat) 8
  have h255 : (255 : UInt32).toNat = 2 ^ 8 - 1 := rfl
  rw [h255, hmask]
  omega

lemma toNat_quadruplet {v0 v1 v2 v3 : UInt32} (h0 : v0.toNat < 64) (h1 : v1.toNat < 64)
    (h2 : v2.toNat < 64) (h3 : v3.toNat < 64) :
    (v0 <<< 18 + v1 <<< 12 + v2 <<< 6 + v3).toNat =
      v0.toNat * 2 ^ 18 + v1.toNat * 2 ^ 12 + v2.toNat * 2 ^ 6 + v3.toNat := by
  have hshift0 : (v0 <<< 18).toNat = v0.toNat * 2 ^ 18 :=
    toNat_shiftLeft 18 rfl (by decide) (by omega)
  have hshift1 : (v1 <<< 12).toNat = v1.toNat * 2 ^ 12 :=
    toNat_shiftLeft 12 rfl (by decide) (by omega)
  have hshift2 : (v2 <<< 6).toNat = v2.toNat * 2 ^ 6 :=
    toNat_shiftLeft 6 rfl (by decide) (by omega)
  simp only [UInt32.toNat_add, hshift0, hshift1, hshift2]
  omega

/-- The values of 24 bits are packed again. -/
lemma quadruplet_sextets {enc : UInt32} (h : enc.toNat < 2 ^ 24) (l : List UInt32) :
    quadruplet (sextets enc ++ l) = enc := by
  obtain ⟨h0, h1, h2, h3⟩ := toNat_sextets enc
  have hquad := toNat_quadruplet (by rw [h0]; omega) (by rw [h1]; omega) (by rw [h2]; omega)
    (by rw [h3]; omega)
  rw [h0, h1, h2, h3] at hquad
  apply UInt32.toNat_inj.mp
  refine hquad.trans ?_
  omega

lemma decodeBits_pack (a b c : Byte) :
    decodeBits (a.toUInt32 <<< 16 ||| b.toUInt32 <<< 8 ||| c.toUInt32) = [a, b, c] := by
  have hpack := toNat_pack a b c
  generalize (a.toUInt32 <<< 16 ||| b.toUInt32 <<< 8 ||| c.toUInt32) = enc at *
  have h0 : (enc >>> 16 &&& 0xff).toUInt8.toNat = enc.toNat / 2 ^ 16 % 256 :=
    toNat_byte enc (by decide)
  have h1 : (enc >>> 8 &&& 0xff).toUInt8.toNat = enc.toNat / 2 ^ 8 % 256 :=
    toNat_byte enc (by decide)
  have h2 : (enc >>> 0 &&& 0xff).toUInt8.toNat = enc.toNat / 2 ^ 0 % 256 :=
    toNat_byte enc (by decide)
  rw [UInt32.shiftRight_zero] at h2
  have ha := a.toNat_lt
  have hb := b.toNat_lt
  have hc := c.toNat_lt
  rw [decodeBits, List.cons.injEq, List.cons.injEq, List.cons.injEq, ← UInt8.toNat_inj,
    ← UInt8.toNat_inj, ← UInt8.toNat_inj, h0, h1, h2]
  exact ⟨by omega, by omega, by omega, rfl⟩

/-! ### The encoder -/

/-- What the loop of the encoder adds for what is left. -/
def pack (s : Str) : Str := if s = [] then [] else encodeBits (packTriplet s 0) ++ pack (s.drop 3)
termination_by s.length
decreasing_by
  have := List.length_pos_of_ne_nil ‹_›
  rw [List.length_drop]
  omega

lemma byteAt_eq_zero {s : Str} {i : ℕ} (hi : ¬i < s.length) : byteAt s i = 0 := by
  rw [byteAt, List.getD_eq_default _ _ (Nat.le_of_not_lt hi)]
  rfl

lemma byteAt_drop (s : Str) (i j : ℕ) : byteAt (s.drop i) j = byteAt s (i + j) := by
  simp [byteAt, List.getD_eq_getElem?_getD]

/-- Both branches pack the same bits. -/
lemma packTriplet_eq (s : Str) (i : ℕ) :
    packTriplet s i = byteAt s i <<< 16 ||| byteAt s (i + 1) <<< 8 ||| byteAt s (i + 2) := by
  rw [packTriplet]
  split_ifs with h3 h1 h2 h2
  · rfl
  · rfl
  · simp [byteAt_eq_zero h2]
  · omega
  · simp [byteAt_eq_zero h1, byteAt_eq_zero h2]

lemma packTriplet_drop (s : Str) (i : ℕ) : packTriplet (s.drop i) 0 = packTriplet s i := by
  simp only [packTriplet_eq, byteAt_drop, Nat.zero_add, Nat.add_zero]

lemma encodeLoop_eq (s : Str) (i : ℕ) (res : Str) :
    encodeLoop s i res = res ++ pack (s.drop i) := by
  fun_induction encodeLoop s i res with
  | case1 i res hi ih =>
    have hne : s.drop i ≠ [] := by
      rwa [Ne, List.drop_eq_nil_iff, Nat.not_le]
    rw [ih, List.append_assoc, @pack.eq_def (s.drop i), if_neg hne, packTriplet_drop,
      List.drop_drop]
  | case2 i res hi =>
    rw [List.drop_eq_nil_of_le (Nat.le_of_not_lt hi), pack, if_pos rfl, List.append_nil]

/-- Induction by three characters at a time. -/
lemma triplet_induction {P : Str → Prop} (nil : P []) (one : ∀ a, P [a]) (two : ∀ a b, P [a, b])
    (three : ∀ a b c s, P s → P (a :: b :: c :: s)) : ∀ s, P s
  | [] => nil
  | [a] => one a
  | [a, b] => two a b
  | a :: b :: c :: s => three a b c s (triplet_induction nil one two three s)

lemma padding_cons (a b c : Byte) (s : Str) : padding (a :: b :: c :: s) = padding s := by
  have hmod : (s.length + 1 + 1 + 1) % 3 = s.length % 3 := by omega
  simp only [padding, List.length_cons, hmod]

/-- The bits of three characters. -/
def bits (a b c : Byte) : UInt32 := a.toUInt32 <<< 16 ||| b.toUInt32 <<< 8 ||| c.toUInt32

lemma pack_cons (a b c : Byte) (s : Str) :
    pack (a :: b :: c :: s) = encodeBits (bits a b c) ++ pack s := by
  rw [pack, if_neg (by simp), packTriplet_eq]
  rfl

lemma pack_nil : pack [] = [] := by
  rw [pack, if_pos rfl]

lemma pack_one (a : Byte) : pack [a] = encodeBits (bits a 0 0) := by
  rw [pack, if_neg (by simp), packTriplet_eq, List.drop_succ_cons, List.drop_nil, pack_nil,
    List.append_nil]
  rfl

lemma pack_two (a b : Byte) : pack [a, b] = encodeBits (bits a b 0) := by
  rw [pack, if_neg (by simp), packTriplet_eq, List.drop_succ_cons, List.drop_succ_cons,
    List.drop_nil, pack_nil, List.append_nil]
  rfl

lemma toNat_sextet_lt (enc j : UInt32) : ((enc >>> j) &&& 63).toNat < 64 := by
  rw [UInt32.toNat_and]
  exact Nat.lt_of_le_of_lt Nat.and_le_right (by decide)

lemma map_value_encodeBits (enc : UInt32) : (encodeBits enc).map value = sextets enc := by
  rw [encodeBits, List.map_map]
  exact List.map_congr_left fun j _ => value_base64 (toNat_sextet_lt enc j)

lemma unpack_sextets (a b c : Byte) (l : List UInt32) :
    unpack (sextets (bits a b c) ++ l) = [a, b, c] ++ unpack l := by
  have hpack : (bits a b c).toNat = _ := toNat_pack a b c
  have ha := a.toNat_lt
  have hb := b.toNat_lt
  have hc := c.toNat_lt
  have hbits : decodeBits (bits a b c) = [a, b, c] := decodeBits_pack a b c
  rw [unpack, if_neg (by simp [sextets]), quadruplet_sextets (by omega), hbits]
  rfl

lemma unpack_encodeBits (a b c : Byte) :
    unpack ((encodeBits (bits a b c)).map value) = [a, b, c] := by
  have hnil : unpack [] = [] := by rw [unpack, if_pos rfl]
  have hunpack := unpack_sextets a b c []
  rwa [List.append_nil, hnil, ← map_value_encodeBits] at hunpack

/-- What was packed is unpacked, with zeros for the characters that are missing at the end. -/
lemma unpack_pack (s : Str) :
    unpack ((pack s).map value) = s ++ List.replicate (padding s) 0 := by
  induction s using triplet_induction with
  | nil =>
    rw [pack_nil, List.map_nil, unpack, if_pos rfl]
    rfl
  | one a =>
    rw [pack_one, unpack_encodeBits]
    rfl
  | two a b =>
    rw [pack_two, unpack_encodeBits]
    rfl
  | three a b c s ih =>
    rw [pack_cons, List.map_append, map_value_encodeBits, unpack_sextets, ih, padding_cons]
    rfl

lemma encodeBits_mem_base64 {enc : UInt32} {c : Byte} (hc : c ∈ encodeBits enc) : c ∈ base64 := by
  obtain ⟨j, -, rfl⟩ := List.mem_map.mp hc
  rw [List.getD_eq_getElem _ _ (toNat_sextet_lt enc j)]
  exact List.getElem_mem _

lemma mem_base64_of_encodeBits {enc : UInt32} {body rest : Str}
    (h : encodeBits enc = body ++ rest) : ∀ c ∈ body, c ∈ base64 := by
  intro c hc
  apply @encodeBits_mem_base64 enc
  rw [h]
  exact List.mem_append_left rest hc

lemma encodeBits_eq (enc : UInt32) :
    encodeBits enc =
      [base64.getD (enc.toNat / 2 ^ 18 % 64) 0, base64.getD (enc.toNat / 2 ^ 12 % 64) 0,
        base64.getD (enc.toNat / 2 ^ 6 % 64) 0, base64.getD (enc.toNat / 2 ^ 0 % 64) 0] := by
  obtain ⟨h0, h1, h2, h3⟩ := toNat_sextets enc
  rw [← h0, ← h1, ← h2, ← h3]
  rfl

/-- The characters for bits that are not there are those for zero. -/
lemma encodeBits_one (a : Byte) : ∃ x y, encodeBits (bits a 0 0) = [x, y, 65, 65] := by
  have hpack : (bits a 0 0).toNat = a.toNat * 65536 + 0 * 256 + 0 := toNat_pack a 0 0
  have h2 : (bits a 0 0).toNat / 2 ^ 6 % 64 = 0 := by omega
  have h3 : (bits a 0 0).toNat / 2 ^ 0 % 64 = 0 := by omega
  rw [encodeBits_eq, h2, h3]
  exact ⟨_, _, rfl⟩

lemma encodeBits_two (a b : Byte) : ∃ x y z, encodeBits (bits a b 0) = [x, y, z, 65] := by
  have hpack : (bits a b 0).toNat = a.toNat * 65536 + b.toNat * 256 + 0 := toNat_pack a b 0
  have h3 : (bits a b 0).toNat / 2 ^ 0 % 64 = 0 := by omega
  rw [encodeBits_eq, h3]
  exact ⟨_, _, _, rfl⟩

lemma length_pack (s : Str) : (pack s).length = 4 * ((s.length + 2) / 3) := by
  induction s using triplet_induction with
  | nil => simp [pack_nil]
  | one a => simp [pack_one, encodeBits]
  | two a b => simp [pack_two, encodeBits]
  | three a b c s ih =>
    simp only [pack_cons, List.length_append, ih, encodeBits, List.length_map, List.length_cons,
      List.length_nil]
    omega

/-- The characters that are replaced at the end stand for no bits. -/
lemma pack_eq_append (s : Str) :
    ∃ body, pack s = body ++ List.replicate (padding s) 65 ∧ ∀ c ∈ body, c ∈ base64 := by
  induction s using triplet_induction with
  | nil => exact ⟨[], by simp [pack_nil, padding], by simp⟩
  | one a =>
    obtain ⟨x, y, hone⟩ := encodeBits_one a
    exact ⟨[x, y], by rw [pack_one, hone]; rfl, mem_base64_of_encodeBits hone⟩
  | two a b =>
    obtain ⟨x, y, z, htwo⟩ := encodeBits_two a b
    exact ⟨[x, y, z], by rw [pack_two, htwo]; rfl, mem_base64_of_encodeBits htwo⟩
  | three a b c s ih =>
    obtain ⟨body, hpack, hbody⟩ := ih
    refine ⟨encodeBits (bits a b c) ++ body, ?_, ?_⟩
    · rw [pack_cons, hpack, padding_cons, List.append_assoc]
    · rw [List.forall_mem_append]
      exact ⟨fun c => encodeBits_mem_base64, hbody⟩

/-- The loop that writes padding replaces the characters at the end. By induction on how many. -/
lemma foldl_set_equals (body : Str) (c : Byte) (k : ℕ) :
    ∀ m ≤ k, (List.range m).foldl (fun res i => res.set (res.length - i - 1) equals)
        (body ++ List.replicate k c) =
      body ++ (List.replicate (k - m) c ++ List.replicate m equals) := by
  intro m hm
  induction m with
  | zero => simp
  | succ m ih =>
    obtain ⟨j, rfl⟩ := Nat.exists_eq_add_of_le' hm
    have hleft : j + (m + 1) - m = j + 1 := by omega
    have hfront : body ++ (List.replicate (j + 1) c ++ List.replicate m equals) =
        (body ++ List.replicate j c) ++ c :: List.replicate m equals := by
      simp [List.replicate_succ']
    have hindex : (body ++ List.replicate j c ++ c :: List.replicate m equals).length - m - 1 =
        (body ++ List.replicate j c).length := by
      simp only [List.length_append, List.length_cons, List.length_replicate]
      omega
    rw [List.range_succ, List.foldl_append, ih (by omega), List.foldl_cons, List.foldl_nil, hleft,
      hfront, hindex, List.set_append_right _ _ le_rfl, Nat.sub_self, List.set_cons_zero,
      Nat.add_sub_cancel, List.append_assoc]
    rfl

lemma encodeBase64_eq (s : Str) :
    ∃ body, encodeBase64 s = body ++ List.replicate (padding s) equals ∧
      pack s = body ++ List.replicate (padding s) 65 ∧ ∀ c ∈ body, c ∈ base64 := by
  obtain ⟨body, hpack, hbody⟩ := pack_eq_append s
  refine ⟨body, ?_, hpack, hbody⟩
  have hset := foldl_set_equals body 65 (padding s) (padding s) le_rfl
  rw [encodeBase64, encodeLoop_eq, List.drop_zero, List.nil_append, hpack, hset, Nat.sub_self]
  rfl

/-- Padding does not occur in the alphabet, and neither does the character that has no entry. -/
lemma equals_not_mem_base64 : equals ∉ base64 := by decide

lemma brace_not_mem_base64 : 123 ∉ base64 := by decide

lemma trailing_append {body : Str} (hbody : equals ∉ body) (k : ℕ) :
    trailing (body ++ List.replicate k equals) = k := by
  have hreplicate :
      (List.replicate k equals).takeWhile (· == equals) = List.replicate k equals := by
    simp
  have hstop : body.reverse.takeWhile (· == equals) = [] := by
    rw [List.takeWhile_eq_nil_iff]
    intro hpos heq
    apply hbody
    rw [← eq_of_beq heq]
    exact List.mem_reverse.mp (List.getElem_mem _)
  rw [trailing, List.reverse_append, List.reverse_replicate, List.takeWhile_append, hreplicate,
    if_pos rfl, hstop, List.append_nil, List.length_replicate]

lemma decoded_encodeBase64 (s : Str) : decoded (encodeBase64 s) = s := by
  obtain ⟨body, hencode, hpack, hbody⟩ := encodeBase64_eq s
  have hvalue : value equals = value 65 := by decide
  have hvalues : (encodeBase64 s).map value = (pack s).map value := by
    rw [hencode, hpack, List.map_append, List.map_append, List.map_replicate, List.map_replicate,
      hvalue]
  have htrailing : trailing (encodeBase64 s) = padding s := by
    rw [hencode]
    exact trailing_append (fun h => equals_not_mem_base64 (hbody _ h)) _
  rw [decoded, hvalues, unpack_pack, htrailing, List.length_append, List.length_replicate,
    Nat.add_sub_cancel, List.take_left]

/-- What was encoded is decoded to what it was. It is made of characters of the alphabet, four for
each group of three, of which those that stand for nothing are replaced at the end. -/
theorem decode_encode_base64 (s : Str) :
    (decodeBase64 (encodeBase64 s)).Returns (some s) ∧
      (encodeBase64 s).length = 4 * ((s.length + 2) / 3) ∧
      ∃ body, encodeBase64 s = body ++ List.replicate ((3 - s.length % 3) % 3) equals ∧
        ∀ c ∈ body, c ∈ base64 ∧ c ≠ equals := by
  obtain ⟨body, hencode, hpack, hbody⟩ := encodeBase64_eq s
  have hpadding : padding s = (3 - s.length % 3) % 3 := by
    rw [padding]
    split_ifs <;> omega
  have hbrace : 123 ∉ encodeBase64 s := by
    rw [hencode, List.mem_append, not_or]
    refine ⟨fun h => brace_not_mem_base64 (hbody _ h), fun h => ?_⟩
    exact absurd (List.eq_of_mem_replicate h) (by decide)
  refine ⟨?_, ?_, body, hpadding ▸ hencode, fun c hc => ⟨hbody c hc, ?_⟩⟩
  · have hreturns := decodeBase64_returns (encodeBase64 s)
    rwa [if_neg hbrace, decoded_encodeBase64] at hreturns
  · rw [← length_pack, hpack, hencode]
    simp
  · rintro rfl
    exact equals_not_mem_base64 (hbody _ hc)

end Libept.Utils
