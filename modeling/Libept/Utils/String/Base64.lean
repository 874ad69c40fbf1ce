import Libept.Lib.Comp
import Libept.Utils.Basic

/-!
# Base64

`encode_base64` and `decode_base64`, with the tables that they use. The decoder has no result where
it reads outside of its table, of its input, or of its result.
-/

namespace Libept.Utils

def equals : Byte := 61

def base64 : Str := str "ABCDEFGHIJKLMNOPQRSTUVWXYZabcdefghijklmnopqrstuvwxyz0123456789+/"

/-! ### Encoding -/

def byteAt (s : Str) (i : ℕ) : UInt32 := (s.getD i 0).toUInt32

/-- The triplet at `i`, packed into 24 bits. -/
def packTriplet (s : Str) (i : ℕ) : UInt32 :=
  if i + 3 < s.length then byteAt s i <<< 16 ||| byteAt s (i + 1) <<< 8 ||| byteAt s (i + 2)
  else
    let enc := byteAt s i <<< 16
    let enc := if i + 1 < s.length then enc ||| byteAt s (i + 1) <<< 8 else enc
    if i + 2 < s.length then enc ||| byteAt s (i + 2) else enc

/-- The characters for 24 bits. -/
def encodeBits (enc : UInt32) : Str :=
  ([18, 12, 6, 0] : List UInt32).map fun j => base64.getD ((enc >>> j) &&& 63).toNat 0

def encodeLoop (s : Str) (i : ℕ) (res : Str) : Str :=
  if i < s.length then encodeLoop s (i + 3) (res ++ encodeBits (packTriplet s i)) else res
termination_by s.length - i

/-- How many characters are replaced at the end. -/
def padding (s : Str) : ℕ := if s.length % 3 = 0 then 0 else 3 - s.length % 3

def encodeBase64 (s : Str) : Str :=
  (List.range (padding s)).foldl (fun res i => res.set (res.length - i - 1) equals)
    (encodeLoop s 0 [])

/-! ### Decoding -/

/-- The table of `invbase64`. -/
def invData : Str :=
  [62, 0, 0, 0, 63, 52, 53, 54, 55, 56, 57, 58, 59, 60, 61, 0, 0, 0, 0, 0, 0, 0, 0, 1, 2, 3, 4, 5,
    6, 7, 8, 9, 10, 11, 12, 13, 14, 15, 16, 17, 18, 19, 20, 21, 22, 23, 24, 25, 0, 0, 0, 0, 0, 0,
    26, 27, 28, 29, 30, 31, 32, 33, 34, 35, 36, 37, 38, 39, 40, 41, 42, 43, 44, 45, 46, 47, 48, 49,
    50, 51]

/-- A `char` is signed. -/
def invbase64 (idx : Byte) : Option Byte :=
  if idx.toInt8 < 43 then some 0
  else if idx.toNat > 43 + invData.length then some 0
  else invData[idx.toNat - 43]?

/-- `invbase64(str[i])` -/
def sextet (s : Str) (i : ℕ) : Option UInt32 := do
  let c ← s[i]?
  let v ← invbase64 c
  some v.toUInt32

/-- The quadruplet at `i`, packed into 24 bits. -/
def packQuadruplet (s : Str) (i : ℕ) : Option UInt32 :=
  if i + 4 < s.length then do
    let v0 ← sextet s i
    let v1 ← sextet s (i + 1)
    let v2 ← sextet s (i + 2)
    let v3 ← sextet s (i + 3)
    some (v0 <<< 18 + v1 <<< 12 + v2 <<< 6 + v3)
  else do
    let v0 ← sextet s i
    let enc : UInt32 := v0 <<< 18
    let enc : UInt32 ← if i + 1 < s.length then do
        let v1 ← sextet s (i + 1)
        some (enc + v1 <<< 12)
      else some enc
    let enc : UInt32 ← if i + 2 < s.length then do
        let v2 ← sextet s (i + 2)
        some (enc + v2 <<< 6)
      else some enc
    if i + 3 < s.length then do
      let v3 ← sextet s (i + 3)
      some (enc + v3)
    else some enc

/-- The bytes for 24 bits. -/
def decodeBits (enc : UInt32) : Str :=
  [(enc >>> 16 &&& 0xff).toUInt8, (enc >>> 8 &&& 0xff).toUInt8, (enc &&& 0xff).toUInt8]

/-- One turn of the loop over the quadruplets. -/
def decodeTurn (s : Str) : ℕ × Str → (ℕ × Str) ⊕ Option Str := fun (i, res) =>
  if i < s.length then
    match packQuadruplet s i with
    | none => .inr none
    | some enc => .inl (i + 4, res ++ decodeBits enc)
  else .inr (some res)

/-- One turn of the loop that removes trailing padding. -/
def paddingTurn (s : Str) : ℕ × Str → (ℕ × Str) ⊕ Option Str := fun (i, res) =>
  match s[i]? with
  | none => .inr none
  | some c =>
    if c = equals then
      let res := if res.length > 0 then res.dropLast else res
      if i = 0 ∨ res.length = 0 then .inr (some res) else .inl (i - 1, res)
    else .inr (some res)

def decodeBase64 (s : Str) : Comp (Option Str) := do
  match ← Comp.loop (fun x => pure (decodeTurn s x)) (0, []) with
  | none => pure none
  | some res =>
    if s.length > 0 then Comp.loop (fun x => pure (paddingTurn s x)) (s.length - 1, res)
    else pure (some res)

end Libept.Utils
