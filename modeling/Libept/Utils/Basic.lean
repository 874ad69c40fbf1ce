import Mathlib

/-!
# Byte strings

A `std::string` is a list of bytes, compared byte by byte as unsigned characters, and the
classification functions of `<cctype>` are those of the C locale. `std::set` and `std::map` are
the ordered trees of the standard library: walking one goes in increasing order of the keys.
-/

namespace Libept

abbrev Byte := UInt8

abbrev Str := List Byte

abbrev StrSet := Std.ExtTreeSet Str

abbrev StrMap (β : Type) := Std.ExtTreeMap Str β

/-- The bytes of a string literal. -/
def str (s : String) : Str := s.toList.map Char.toUInt8

def nl : Byte := 10
def comma : Byte := 44
def dash : Byte := 45
def dot : Byte := 46
def colon : Byte := 58

def isblank (c : Byte) : Bool := c == 32 || c == 9

def isspace (c : Byte) : Bool := c == 32 || (9 ≤ c && c ≤ 13)

def isalnum (c : Byte) : Bool := (48 ≤ c && c ≤ 57) || (65 ≤ c && c ≤ 90) || (97 ≤ c && c ≤ 122)

@[simp] lemma isblank_nl : isblank nl = false := by decide

@[simp] lemma isblank_colon : isblank colon = false := by decide

@[simp] lemma isspace_nl : isspace nl = true := by decide

lemma ne_nl_of_isblank {c : Byte} (h : isblank c = true) : c ≠ nl := by
  rintro rfl
  simp at h

/-- How a call can stop early: by an exception, at a failed `assert`, or at a sum that an `int` does
not hold, behind which nothing is defined. -/
inductive Failure where
  | runtimeError (what : Str)
  | assertFailed (cond : Str)
  | overflow
  deriving DecidableEq, Repr

end Libept
