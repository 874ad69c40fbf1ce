import Libept.Apt.RecordParser

/-!
# The tags of a package

`PackageRecord` reads the fields of a package record. Here is `parseTags` with its tokenizer, as
in `apt/packagerecord.cc`: tags are divided by white space and commas, and a tag such as
`made-of::{glass,iron}` stands for one tag for each alternative between the braces.
-/

namespace Libept.PackageRecord

open RecordParser

def lbrace : Byte := 123
def rbrace : Byte := 125

/-- The characters between tags. -/
def isTagSep (c : Byte) : Bool := c == 32 || c == 9 || c == nl || c == comma

inductive State where
  | sep
  | tag
  | braces
  deriving DecidableEq

structure Tagparser where
  res : StrSet
  curTag : Str
  hasBraces : Bool

namespace Tagparser

/-- The loop of `expand_tag_braces` over the alternatives from offset `begin` on. The last one
stops before the last character, which is taken to be the closing brace. -/
def expandLoop (tag pre : Str) (begin : ℕ) (res : StrSet) : StrSet :=
  match _h : find tag comma begin with
  | some end_ =>
    expandLoop tag pre (end_ + 1) (res.insert (pre ++ substr tag begin (end_ - begin)))
  | none => res.insert (pre ++ substr tag begin (tag.length - 1 - begin))
termination_by tag.length - begin
decreasing_by
  have hend := le_of_find_eq_some ‹_›
  omega

def expandTagBraces (p : Tagparser) (tag : Str) : Tagparser :=
  match find tag lbrace 0 with
  | none => p
  | some begin => { p with res := expandLoop tag (substr tag 0 begin) (begin + 1) p.res }

def resetTag (p : Tagparser) : Tagparser := { p with curTag := [], hasBraces := false }

def haveTag (p : Tagparser) : Tagparser :=
  if p.hasBraces then (p.expandTagBraces p.curTag).resetTag
  else { p with res := p.res.insert p.curTag }.resetTag

/-- `cur_tag += c` -/
def push (p : Tagparser) (c : Byte) : Tagparser := { p with curTag := p.curTag ++ [c] }

/-- The loop of `parse` before the characters that are left. There is no result when the character
behind the last one is looked at. -/
def parseLoop (state : State) (p : Tagparser) (s : Str) : Option Tagparser :=
  match s with
  | [] => some (if p.curTag.isEmpty then p else p.haveTag)
  | c :: rest =>
    match state with
    | .sep =>
      if isTagSep c then parseLoop .sep p rest
      -- the character is not used up
      else parseLoop .tag p (c :: rest)
    | .tag =>
      if isTagSep c then parseLoop .sep p.haveTag rest
      else if c = lbrace then parseLoop .braces { p.push c with hasBraces := true } rest
      else parseLoop .tag (p.push c) rest
    | .braces =>
      match rest with
      | [] => none
      | d :: rest => parseLoop (if d = rbrace then .tag else .braces) (p.push c) (d :: rest)
termination_by (s.length, if state = .sep then 1 else 0)

def parse (p : Tagparser) (s : Str) : Option Tagparser := parseLoop .sep p.resetTag s

end Tagparser

def parseTags (def_ : StrSet) (str : Str) : Option StrSet :=
  if str = [] then some def_ else (Tagparser.parse ⟨∅, [], false⟩ str).map Tagparser.res

end Libept.PackageRecord
