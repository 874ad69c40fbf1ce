import Libept.Lib.CInt
import Libept.Lib.Comp
import Libept.Utils.Basic

/-!
# The parser of Debian database files

The functions of `DebDBParser` in `debtags/maint/debdbparser.cc`. The input file is the list of
bytes that are left in it, and reading it never fails. A call that throws, or that counts more
newlines than an `int` holds, has no parser state to go on from.
-/

namespace Libept

/-- The fields of a record. -/
abbrev Record := StrMap Str

structure DebDBParser where
  input : Str
  isBOL : Bool
  isEOF : Bool
  deriving DecidableEq

namespace DebDBParser

/-! ### Reading pieces of the input -/

/-- Eat spaces and empty lines, and return the number of newlines encountered. -/
def eatSpacesAndEmptyLines (p : DebDBParser) : Except Failure (ℤ × DebDBParser) :=
  go p.isEOF p.input p.isBOL 0
where
  go (isEOF : Bool) : Str → Bool → ℤ → Except Failure (ℤ × DebDBParser)
    | [], isBOL, res => .ok (res, ⟨[], isBOL, true⟩)
    | c :: rest, isBOL, res =>
      if isblank c || c == nl then
        if c == nl then
          match CInt.add res 1 with
          | none => .error .overflow
          | some res => go isEOF rest true res
        else go isEOF rest false res
      else .ok (res, ⟨c :: rest, isBOL, isEOF⟩)

/-- The bytes of a field name. -/
def isNameChar (c : Byte) : Bool := isalnum c || c == dash

def getFieldName (p : DebDBParser) : Except Failure (Str × DebDBParser) :=
  if !p.isBOL then
    .error (.runtimeError (str "field must start at the beginning of the line"))
  else
    let res := p.input.takeWhile isNameChar
    match p.input.dropWhile isNameChar with
    | [] =>
      if res.isEmpty then .ok (res, { p with input := [], isEOF := true })
      else .error (.runtimeError
        (str "field is truncated at end of file.  Last line begins with: \"" ++ res ++ [nl]))
    | rest => .ok (res, { p with input := rest })

def eatFieldSep (p : DebDBParser) : Except Failure DebDBParser :=
  match p.input.dropWhile isblank with
  | [] => .error (.runtimeError (str "field is truncated at end of file"))
  | c :: rest =>
    if c != colon then
      .error (.runtimeError (str "invalid character `" ++ [c] ++ str "' expecting `:'"))
    else .ok { p with input := rest }

/-- `body.resize(body.find_last_not_of(" \t") + 1)`, unless there are only blanks. -/
def trimEnd (body : Str) : Str := if body.all isblank then body else body.rdropWhile isblank

def appendFieldBody (body : Str) (p : DebDBParser) : Str × DebDBParser :=
  let line := p.input.dropWhile isblank
  let body := trimEnd (body ++ line.takeWhile (· != nl))
  match line.dropWhile (· != nl) with
  | [] => (body, { p with input := [], isEOF := true })
  | _ :: rest => (body, { p with input := rest, isBOL := true })

/-! ### Reading a record -/

/-- One turn of the loop over the continuation lines of a body. -/
def contTurn : Str × DebDBParser →
    (Str × DebDBParser) ⊕ Except Failure (Str × ℤ × DebDBParser)
  | (body, p) =>
    match p.eatSpacesAndEmptyLines with
    | .error e => .inr (.error e)
    | .ok (n, p) =>
      if n == 0 && !p.isBOL then
        let start := body ++ [nl]
        let (body, p) := appendFieldBody start p
        -- dot-only lines stand for empty lines
        if body.length - start.length == 1 && body.getLast? == some dot then
          .inl (body.dropLast, p)
        else .inl (body, p)
      else .inr (.ok (body, n, p))

/-- The rest of a body after its first line, and the newlines eaten behind it. -/
def contLoop (body : Str) (p : DebDBParser) : Comp (Except Failure (Str × ℤ × DebDBParser)) :=
  Comp.loop (fun s => pure (contTurn s)) (body, p)

/-- A field name and the first line of the body. -/
def fieldHead (p : DebDBParser) : Except Failure (Str × Str × DebDBParser) := do
  let (field, p) ← p.getFieldName
  let p ← p.eatFieldSep
  let (body, p) := appendFieldBody [] p
  return (field, body, p)

/-- One turn of the loop over the fields of a record. -/
def fieldTurn : Record × DebDBParser →
    Comp ((Record × DebDBParser) ⊕ Except Failure (Record × DebDBParser))
  | (record, p) =>
    match p.fieldHead with
    | .error e => pure (.inr (.error e))
    | .ok (field, body, p) => do
      match ← contLoop body p with
      | .error e => pure (.inr (.error e))
      | .ok (body, n, p) =>
        let record := record.insertIfNew field body
        if !p.isEOF && n == 0 then pure (.inl (record, p)) else pure (.inr (.ok (record, p)))

/-- The next record, or nothing when there are no more. -/
def nextRecord (p : DebDBParser) : Comp (Except Failure (Option (Record × DebDBParser))) :=
  if p.isEOF then pure (.ok none)
  else do
    let r ← Comp.loop fieldTurn (∅, p)
    pure (r.map some)

/-- The constructor: go at the start of the next record. -/
def new (input : Str) : Except Failure DebDBParser :=
  (eatSpacesAndEmptyLines ⟨input, true, false⟩).map Prod.snd

/-- `while (parser.nextRecord(record)) { … }`, with a body that changes the state `σ` and may
throw. -/
def whileNextRecord {σ : Type} (body : σ → Record → Except Failure Unit × σ) (s : σ)
    (p : DebDBParser) : Comp (Except Failure Unit × σ) :=
  Comp.loop (fun (s, p) => do
    match ← p.nextRecord with
    | .error e => pure (.inr (.error e, s))
    | .ok none => pure (.inr (.ok (), s))
    | .ok (some (record, p)) =>
      match body s record with
      | (.error e, s) => pure (.inr (.error e, s))
      | (.ok (), s) => pure (.inl (s, p))) (s, p)

/-- The same with a parser that is constructed on the file first. -/
def forRecords {σ : Type} (body : σ → Record → Except Failure Unit × σ) (s : σ) (input : Str) :
    Comp (Except Failure Unit × σ) :=
  match new input with
  | .error e => pure (.error e, s)
  | .ok p => whileNextRecord body s p

end DebDBParser

end Libept
