import Libept.Lib.CInt
import Libept.Lib.Sorter
import Libept.Utils.Basic

/-!
# The record parser

`RecordParser` keeps a record as one buffer with the end offsets of its fields, and a table of the
fields sorted by name. The functions follow `apt/recordparser.cc`; `std::sort` is any sorting
function.
-/

namespace Libept

structure RecordParser where
  buffer : Str
  /-- End offsets of the fields. -/
  ends : List ℕ
  /-- Indexes on `ends`, sorted by field name. -/
  sorted : List ℕ
  deriving DecidableEq

namespace RecordParser

/-! ### Strings -/

/-- `s.find(c, pos)` -/
def find (s : Str) (c : Byte) (pos : ℕ) : Option ℕ :=
  ((s.drop pos).findIdx? (· == c)).map (pos + ·)

/-- `s.substr(pos, len)` -/
def substr (s : Str) (pos len : ℕ) : Str := (s.drop pos).take len

/-- `size - 1` in `size_t`, which wraps around at zero. -/
def predSize (size : ℕ) : ℕ := if size = 0 then 2 ^ 64 - 1 else size - 1

lemma le_of_find_eq_some {s : Str} {c : Byte} {pos q : ℕ} (h : find s c pos = some q) :
    pos ≤ q ∧ q < s.length := by
  obtain ⟨k, hk, rfl⟩ := Option.map_eq_some_iff.mp h
  obtain ⟨hlt, -⟩ := List.findIdx?_eq_some_iff_getElem.mp hk
  rw [List.length_drop] at hlt
  omega

lemma find_append {c : Byte} {pre l : Str} (hl : c ∉ l) (r : Str) :
    find (pre ++ (l ++ c :: r)) c pre.length = some (pre.length + l.length) := by
  have hnone : l.findIdx? (· == c) = none :=
    List.findIdx?_eq_none_iff.mpr fun x hx => beq_false_of_ne fun h => hl (h ▸ hx)
  simp [find, hnone, List.findIdx?_cons]

lemma find_of_not_mem {c : Byte} {pre l : Str} (hl : c ∉ l) :
    find (pre ++ l) c pre.length = none := by
  have hnone : l.findIdx? (· == c) = none :=
    List.findIdx?_eq_none_iff.mpr fun x hx => beq_false_of_ne fun h => hl (h ▸ hx)
  simp [find, hnone]

/-! ### Scanning -/

/-- The scan for the ends of the fields, from offset `pos` on. -/
def scanLoop (buffer : Str) (pos idx : ℕ) (ends sorted : List ℕ) : List ℕ × List ℕ :=
  if pos < predSize buffer.length then
    match h : find buffer nl pos with
    -- the buffer does not end with a newline
    | none => (ends ++ [buffer.length], sorted ++ [idx])
    | some q =>
      -- the buffer ends with a newline
      if q + 1 = buffer.length then (ends ++ [q + 1], sorted ++ [idx])
      -- parsing ends on a double newline
      else if buffer.getD (q + 1) 0 = nl then (ends ++ [q + 1], sorted ++ [idx])
      -- the next line is not a continuation line
      else if !isspace (buffer.getD (q + 1) 0) then
        scanLoop buffer (q + 1) (idx + 1) (ends ++ [q + 1]) (sorted ++ [idx])
      else scanLoop buffer (q + 1) idx ends sorted
  else (ends, sorted)
termination_by buffer.length - pos
decreasing_by
  all_goals
    have hq := le_of_find_eq_some h
    omega

def size (p : RecordParser) : ℕ := p.ends.length

def field (p : RecordParser) (idx : ℕ) : Str :=
  match p.ends[idx]? with
  | none => []
  | some e =>
    if idx = 0 then substr p.buffer 0 e
    else substr p.buffer (p.ends.getD (idx - 1) 0) (e - p.ends.getD (idx - 1) 0)

def name (p : RecordParser) (idx : ℕ) : Str :=
  match find (p.field idx) colon 0 with
  | none => p.field idx
  | some pos => substr (p.field idx) 0 pos

/-- `rpcompare` -/
def rpcompare (p : RecordParser) (a b : ℕ) : Bool := compare (p.name a) (p.name b) == .lt

def scan (S : Sorter ℕ) (str : Str) : RecordParser :=
  let table := scanLoop str 0 0 [] []
  let p : RecordParser := ⟨str, table.1, table.2⟩
  { p with sorted := S.sort p.rpcompare p.sorted }

/-! ### Access -/

def lookup (p : RecordParser) (idx : ℕ) : Str :=
  match find (p.field idx) colon 0 with
  | none => p.field idx
  | some pos => (((p.field idx).drop (pos + 1)).dropWhile isspace).rdropWhile isspace

/-- The binary search of `index`: the last position whose name is not after `str`, or -1. There is
no result when a bound or the sum of the bounds overflows. -/
def searchLoop (p : RecordParser) (str : Str) (begin end_ : ℤ) : Option ℤ :=
  match _hgap : CInt.sub end_ begin with
  | none => none
  | some gap =>
    if _hlt : 1 < gap then
      match _hsum : CInt.add end_ begin with
      | none => none
      | some sum =>
        match CInt.get p.sorted (sum.tdiv 2) with
        | none => none
        | some i =>
          if compare (p.name i) str == .gt then searchLoop p str begin (sum.tdiv 2)
          else searchLoop p str (sum.tdiv 2) end_
    else some begin
termination_by (end_ - begin).toNat
decreasing_by
  all_goals
    have hgap := CInt.sub_eq_some ‹_›
    have hsum := CInt.add_eq_some ‹_›
    have := CInt.tdiv_two_between (a := begin) (b := end_) (by omega)
    subst hsum
    omega

/-- The index of the field with the given name, `size` if there is none. -/
def index (p : RecordParser) (str : Str) : Option ℕ := do
  let begin ← p.searchLoop str (-1) (CInt.ofSize p.size)
  if begin = -1 then some p.size
  else
    let i ← CInt.get p.sorted begin
    if p.name i != str then some p.size else some i

def lookupName (p : RecordParser) (name : Str) : Option Str := (p.index name).map p.lookup

end RecordParser

end Libept
