import Libept.Debtags.Coll.Fast

/-!
# The text format of a collection

`parseElement` and `parse` of `coll/TextFormat.cc`, which read lines such as
`item1, item2: tag1, tag2`. The stream is the list of the bytes that are left in it, and reading
it never fails.
-/

namespace Libept.TextFormat

open Operators

def thrown {α : Type} (what : String) : Except Failure α := .error (.runtimeError (str what))

/-- The separator characters. -/
def isSep (c : Byte) : Bool := c == colon || c == comma

/-! ### Elements -/

inductive State where
  | lspace
  | item
  | ispace
  | isep
  | tspace
  deriving DecidableEq

/-- The variables of `parseElement`. -/
structure Scan where
  state : State
  item : Str
  sep : Str
  sepchar : Byte

namespace Scan

def start : Scan := ⟨.lspace, [], [], 0⟩

/-- The switch of `parseElement` on a character other than a newline: the next state, or nothing
when the character is given back to the stream. -/
def turn (s : Scan) (c : Byte) : Except Failure (Option Scan) :=
  match s.state with
  -- optional leading space
  | .lspace =>
    if isblank c then .ok (some s)
    else if isSep c then thrown "element cannot start with a separation character"
    else .ok (some { s with item := s.item ++ [c], state := .item })
  -- non-separating characters
  | .item =>
    if isblank c then .ok (some { s with sep := s.sep ++ [c], state := .ispace })
    else if isSep c then .ok (some { s with sepchar := c, sep := s.sep ++ [c], state := .isep })
    else .ok (some { s with item := s.item ++ [c] })
  -- space inside item or at the end of item
  | .ispace =>
    if isblank c then .ok (some { s with sep := s.sep ++ [c] })
    else if isSep c then .ok (some { s with sepchar := c, state := .tspace })
    else .ok (some { s with item := s.item ++ s.sep ++ [c], sep := [], state := .item })
  -- separator inside item or at the end of item
  | .isep =>
    if isblank c then
      if s.sep.length > 1 then thrown "item is followed by more than one separator characters"
      else .ok (some { s with state := .tspace })
    else if isSep c then .ok (some { s with sep := s.sep ++ [c] })
    else .ok (some ⟨.item, s.item ++ s.sep ++ [c], [], 0⟩)
  | .tspace => if isblank c then .ok (some s) else .ok none

/-- The loop of `parseElement`. It gives the separator, with none for the end of the file, the
element and the rest of the stream. -/
def run (s : Scan) : Str → Except Failure (Option Byte × Str × Str)
  | [] => .ok (none, s.item, [])
  | c :: rest =>
    if c = nl then
      if s.sepchar != 0 && s.sepchar != colon then thrown "separator character ends the line"
      else .ok (some nl, s.item, rest)
    else
      match s.turn c with
      | .error e => .error e
      | .ok none => .ok (some s.sepchar, s.item, c :: rest)
      | .ok (some s') => run s' rest

lemma state_of_turn {s : Scan} {c : Byte} (h : s.turn c = .ok none) : s.state = .tspace := by
  rw [turn] at h
  split at h
  · split_ifs at h <;> cases h
  · split_ifs at h <;> cases h
  · split_ifs at h <;> cases h
  · split_ifs at h <;> cases h
  · assumption

/-- Only the state behind a separator gives a character back. -/
lemma length_of_run {s : Scan} {input : Str} {c : Byte} {item rest : Str}
    (h : s.run input = .ok (some c, item, rest)) :
    rest.length ≤ input.length ∧ (s.state ≠ .tspace → rest.length < input.length) := by
  induction input generalizing s with
  | nil => cases h
  | cons b input ih =>
    rw [run] at h
    split_ifs at h
    · cases h
    · cases h
      simp
    · cases hturn : s.turn b with
      | error e =>
        rw [hturn] at h
        cases h
      | ok next =>
        rw [hturn] at h
        cases next with
        | none =>
          cases h
          exact ⟨le_rfl, fun hstate => absurd (state_of_turn hturn) hstate⟩
        | some s' =>
          have := (ih h).1
          simp only [List.length_cons]
          omega

end Scan

def parseElement (input : Str) : Except Failure (Option Byte × Str × Str) := Scan.start.run input

lemma length_of_parseElement {input : Str} {c : Byte} {item rest : Str}
    (h : parseElement input = .ok (some c, item, rest)) : rest.length < input.length :=
  (Scan.length_of_run h).2 (by decide)

/-! ### Lines -/

/-- What has been read of a line. -/
structure Line where
  itemset : StrSet
  tagset : StrSet
  inTags : Bool

namespace Line

def start : Line := ⟨∅, ∅, false⟩

def add (line : Line) (item : Str) : Line :=
  if item.isEmpty then line
  else if line.inTags then { line with tagset := orAssignItem line.tagset item }
  else { line with itemset := orAssignItem line.itemset item }

/-- What is done at the end of a line and at the end of the file. -/
def finish (line : Line) (out : Fast) : Except Failure Unit × Fast :=
  if !(line.itemset.isEmpty && line.tagset.isEmpty) then
    if line.itemset.isEmpty then (thrown "no elements before ':' separator", out)
    else if line.tagset.isEmpty then (.ok (), out.insert line.itemset ∅)
    else (.ok (), out.insert line.itemset line.tagset)
  else (.ok (), out)

end Line

/-- The loop of `parse`: the outcome, and the collection as it is left. -/
def parseLoop (input : Str) (line : Line) (out : Fast) : Except Failure Unit × Fast :=
  match _h : parseElement input with
  | .error e => (.error e, out)
  | .ok (none, item, _) => (line.add item).finish out
  | .ok (some sep, item, rest) =>
    let line := line.add item
    if sep = nl then
      match line.finish out with
      | (.error e, out) => (.error e, out)
      | (.ok (), out) => parseLoop rest Line.start out
    else if sep = colon then
      if line.inTags then (thrown "separator ':' appears twice", out)
      else parseLoop rest { line with inTags := true } out
    else parseLoop rest line out
termination_by input.length
decreasing_by all_goals exact length_of_parseElement ‹_›

def parse (input : Str) (out : Fast) : Except Failure Unit × Fast := parseLoop input Line.start out

end Libept.TextFormat
