import Libept.Apt.PackageRecord.Tags

/-!
# Groups that do not close

Between braces the tokenizer uses a character up before it looks at the next one. So a closing
brace directly behind the opening one is taken for content, and a group that is still open at the
end makes it look behind the last character.

The tokenizer is compared with a machine that takes one character at a time and looks at no other.
-/

namespace Libept.PackageRecord

open Std RecordParser Tagparser

/-! ### Looking behind the last character -/

/-- The loop of `parse` where the character behind the last one can be looked at, and is
`behind`. -/
def parsePast (behind : Byte) (state : State) (p : Tagparser) (s : Str) : Tagparser :=
  match s with
  | [] => if p.curTag.isEmpty then p else p.haveTag
  | c :: rest =>
    match state with
    | .sep =>
      if isTagSep c then parsePast behind .sep p rest
      else parsePast behind .tag p (c :: rest)
    | .tag =>
      if isTagSep c then parsePast behind .sep p.haveTag rest
      else if c = lbrace then parsePast behind .braces { p.push c with hasBraces := true } rest
      else parsePast behind .tag (p.push c) rest
    | .braces =>
      let next := rest.headD behind
      parsePast behind (if next = rbrace then .tag else .braces) (p.push c) rest
termination_by (s.length, if state = .sep then 1 else 0)

/-- What `parseTags` gives if the character behind the last one is `behind`. -/
def parseTagsPast (behind : Byte) (def_ : StrSet) (str : Str) : StrSet :=
  if str = [] then def_ else (parsePast behind .sep ⟨∅, [], false⟩ str).res

/-! ### The machine -/

inductive Mode where
  | sep
  | tag
  /-- Directly behind an opening brace. -/
  | opened
  /-- Where a closing brace closes. -/
  | inside
  deriving DecidableEq

/-- The mode after a character. -/
def Mode.next : Mode → Byte → Mode
  | .opened, _ => .inside
  | .inside, c => if c = rbrace then .tag else .inside
  | _, c => if isTagSep c then .sep else if c = lbrace then .opened else .tag

/-- A character of a tag. -/
def Tagparser.collect (p : Tagparser) (c : Byte) : Tagparser :=
  if c = lbrace then { p.push c with hasBraces := true } else p.push c

/-- What has been read after a character. -/
def Tagparser.take (p : Tagparser) : Mode → Byte → Tagparser
  | .sep, c => if isTagSep c then p else p.collect c
  | .tag, c => if isTagSep c then p.haveTag else p.collect c
  | _, c => p.push c

def step (x : Mode × Tagparser) (c : Byte) : Mode × Tagparser := (x.1.next c, x.2.take x.1 c)

/-- At the end the tag that has been collected is added. -/
def Tagparser.finish (p : Tagparser) : Tagparser := if p.curTag.isEmpty then p else p.haveTag

/-- The state of the tokenizer in a mode, before the characters that are left. -/
def Mode.state (behind : Byte) (s : Str) : Mode → State
  | .sep => .sep
  | .tag => .tag
  | .opened => .braces
  | .inside => if s.headD behind = rbrace then .tag else .braces

@[simp] lemma isTagSep_lbrace : isTagSep lbrace = false := by decide

@[simp] lemma isTagSep_rbrace : isTagSep rbrace = false := by decide

@[simp] lemma isTagSep_comma : isTagSep comma = true := by decide

@[simp] lemma rbrace_ne_lbrace : rbrace ≠ lbrace := by decide

variable {behind c : Byte} {m : Mode} {p : Tagparser} {s : Str}

/-- A character that does not divide tags leads to the same state between tags and in a tag. -/
lemma parsePast_collect (hsep : isTagSep c = false) :
    parsePast behind .tag p (c :: s) =
      parsePast behind ((Mode.next .tag c).state behind s) (p.collect c) s := by
  rw [parsePast]
  by_cases hbrace : c = lbrace
  · subst hbrace
    simp [Mode.next, Mode.state, collect]
  · simp [Mode.next, Mode.state, hsep, hbrace, collect]

lemma parsePast_eq (behind : Byte) (m : Mode) (p : Tagparser) (s : Str) :
    parsePast behind (m.state behind s) p s = (s.foldl step (m, p)).2.finish := by
  induction s generalizing m p with
  | nil => rw [parsePast]; rfl
  | cons c s ih =>
    rw [List.foldl_cons, step, ← ih]
    cases m with
    | sep =>
      cases hsep : isTagSep c with
      | true => simp [Mode.state, parsePast, Mode.next, take, hsep]
      | false =>
        have htag := @parsePast_collect behind c p s hsep
        simpa [Mode.state, parsePast, Mode.next, take, hsep] using htag
    | tag =>
      cases hsep : isTagSep c with
      | true => simp [Mode.state, parsePast, Mode.next, take, hsep]
      | false =>
        have htag := @parsePast_collect behind c p s hsep
        simpa [Mode.state, Mode.next, take, hsep] using htag
    | opened => simp [Mode.state, parsePast, Mode.next, take]
    | inside =>
      by_cases hbrace : c = rbrace
      · subst hbrace
        have htag := @parsePast_collect behind rbrace p s (by decide)
        simpa [Mode.state, Mode.next, take, collect] using htag
      · simp [Mode.state, parsePast, Mode.next, take, hbrace]

/-- The same for the tokenizer itself, which has no result in a group that is still open. -/
lemma parseLoop_collect (hsep : isTagSep c = false) :
    parseLoop .tag p (c :: s) =
      parseLoop ((Mode.next .tag c).state behind s) (p.collect c) s := by
  rw [parseLoop]
  by_cases hbrace : c = lbrace
  · subst hbrace
    simp [Mode.next, Mode.state, collect]
  · simp [Mode.next, Mode.state, hsep, hbrace, collect]

lemma next_tag_ne_inside (c : Byte) : Mode.next .tag c ≠ .inside := by
  change (if isTagSep c then Mode.sep else if c = lbrace then .opened else .tag) ≠ .inside
  split_ifs <;> decide

lemma parseLoop_eq (behind : Byte) (m : Mode) (p : Tagparser) (s : Str)
    (hs : m = .inside → s ≠ []) :
    parseLoop (m.state behind s) p s =
      if (s.foldl step (m, p)).1 = .inside then none
      else some (s.foldl step (m, p)).2.finish := by
  induction s generalizing m p with
  | nil =>
    have hm : m ≠ .inside := fun h => hs h rfl
    rw [parseLoop, List.foldl_nil, if_neg hm]
    rfl
  | cons c s ih =>
    have hcollect : isTagSep c = false → parseLoop .tag p (c :: s) =
        if (s.foldl step (Mode.next .tag c, p.collect c)).1 = .inside then none
        else some (s.foldl step (Mode.next .tag c, p.collect c)).2.finish := by
      intro hsep
      rw [@parseLoop_collect behind c p s hsep]
      exact ih _ _ fun h => absurd h (next_tag_ne_inside c)
    have hbraces : parseLoop .braces p (c :: s) =
        if (s.foldl step (.inside, p.push c)).1 = .inside then none
        else some (s.foldl step (.inside, p.push c)).2.finish := by
      cases s with
      | nil => simp [parseLoop]
      | cons d s =>
        rw [parseLoop]
        exact ih .inside (p.push c) fun _ => List.cons_ne_nil d s
    rw [List.foldl_cons, step]
    cases m with
    | sep =>
      cases hsep : isTagSep c with
      | true =>
        have hnext := ih .sep p fun h => absurd h (by decide)
        simpa [Mode.state, parseLoop, Mode.next, take, hsep] using hnext
      | false => simpa [Mode.state, parseLoop, Mode.next, take, hsep] using hcollect hsep
    | tag =>
      cases hsep : isTagSep c with
      | true =>
        have hnext := ih .sep p.haveTag fun h => absurd h (by decide)
        simpa [Mode.state, parseLoop, Mode.next, take, hsep] using hnext
      | false => simpa [Mode.state, Mode.next, take, hsep] using hcollect hsep
    | opened => exact hbraces
    | inside =>
      by_cases hbrace : c = rbrace
      · subst hbrace
        simpa [Mode.state, Mode.next, take, collect] using hcollect isTagSep_rbrace
      · simpa [Mode.state, Mode.next, take, hbrace] using hbraces

/-! ### Groups that close -/

/-- Every group is closed by a brace that does not stand directly behind the one that opens it,
except that the last one may end where it opens. -/
inductive GroupsClose : Str → Prop
  | plain {s : Str} (h : lbrace ∉ s) : GroupsClose s
  | cut {w : Str} (h : lbrace ∉ w) : GroupsClose (w ++ [lbrace])
  | group {w body s : Str} (h : lbrace ∉ w) (c : Byte) (hbody : rbrace ∉ body)
      (hs : GroupsClose s) : GroupsClose (w ++ lbrace :: c :: (body ++ rbrace :: s))

/-- Between groups. -/
def Mode.Outside (m : Mode) : Prop := m = .sep ∨ m = .tag

lemma Mode.Outside.next (h : m.Outside) (hc : c ≠ lbrace) : (m.next c).Outside := by
  have hnext : m.next c = if isTagSep c then .sep else .tag := by
    rcases h with rfl | rfl <;> simp [Mode.next, hc]
  rw [hnext]
  split_ifs
  · exact .inl rfl
  · exact .inr rfl

lemma Mode.Outside.foldl (h : m.Outside) (hs : lbrace ∉ s) : (s.foldl Mode.next m).Outside := by
  induction s generalizing m with
  | nil => exact h
  | cons c s ih =>
    rw [List.mem_cons, not_or] at hs
    exact ih (h.next (Ne.symm hs.1)) hs.2

lemma Mode.Outside.next_lbrace (h : m.Outside) : m.next lbrace = .opened := by
  rcases h with rfl | rfl <;> rfl

lemma foldl_inside (hs : rbrace ∉ s) : s.foldl Mode.next .inside = .inside := by
  induction s with
  | nil => rfl
  | cons c s ih =>
    rw [List.mem_cons, not_or] at hs
    rw [List.foldl_cons, Mode.next, if_neg (Ne.symm hs.1)]
    exact ih hs.2

lemma foldl_group {w body : Str} (hm : m.Outside) (hw : lbrace ∉ w) (hbody : rbrace ∉ body) :
    (w ++ lbrace :: c :: (body ++ rbrace :: s)).foldl Mode.next m = s.foldl Mode.next .tag := by
  rw [List.foldl_append, List.foldl_cons, (hm.foldl hw).next_lbrace, List.foldl_cons,
    List.foldl_append]
  change (rbrace :: s).foldl Mode.next (body.foldl Mode.next .inside) = _
  rw [foldl_inside hbody]
  rfl

/-- Where the groups close, the machine does not stop inside of one. -/
lemma GroupsClose.foldl_ne (h : GroupsClose s) (hm : m.Outside) :
    s.foldl Mode.next m ≠ .inside := by
  induction h generalizing m with
  | plain hs =>
    rcases hm.foldl hs with h | h <;> simp [h]
  | cut hw =>
    rw [List.foldl_append, List.foldl_cons, (hm.foldl hw).next_lbrace]
    decide
  | group hw c hbody _ ih =>
    rw [foldl_group hm hw hbody]
    exact ih (.inr rfl)

/-- By induction on the length: what follows the first group has the same property. -/
lemma groupsClose_of_foldl_ne (hm : m.Outside) (h : s.foldl Mode.next m ≠ .inside) :
    GroupsClose s := by
  induction hn : s.length using Nat.strong_induction_on generalizing s m with
  | _ n ih =>
    by_cases hbrace : lbrace ∈ s
    · obtain ⟨w, r, rfl, hw⟩ := List.eq_append_cons_of_mem hbrace
      rcases r with _ | ⟨c, r⟩
      · exact .cut hw
      by_cases hclose : rbrace ∈ r
      · obtain ⟨body, s, rfl, hbody⟩ := List.eq_append_cons_of_mem hclose
        rw [foldl_group hm hw hbody] at h
        have hlt : s.length < n := by
          simp only [← hn, List.length_append, List.length_cons]
          omega
        exact .group hw c hbody (ih s.length hlt (.inr rfl) h rfl)
      · refine absurd ?_ h
        rw [List.foldl_append, List.foldl_cons, (hm.foldl hw).next_lbrace, List.foldl_cons]
        exact foldl_inside hclose
    · exact .plain hbrace

lemma groupsClose_iff (hm : m.Outside) : GroupsClose s ↔ s.foldl Mode.next m ≠ .inside :=
  ⟨fun h => h.foldl_ne hm, groupsClose_of_foldl_ne hm⟩

lemma fst_foldl_step (x : Mode × Tagparser) : (s.foldl step x).1 = s.foldl Mode.next x.1 := by
  induction s generalizing x with
  | nil => rfl
  | cons c s ih => exact ih (step x c)

/-- The tokenizer has the same result as one that may look behind the last character, or none. -/
theorem parse_eq (behind : Byte) (p : Tagparser) (s : Str) :
    p.parse s = if s.foldl Mode.next .sep = .inside then none
      else some (parsePast behind .sep p.resetTag s) := by
  have hloop := parseLoop_eq behind .sep p.resetTag s fun h => absurd h (by decide)
  have hpast := parsePast_eq behind .sep p.resetTag s
  rw [fst_foldl_step] at hloop
  rw [parse, show State.sep = Mode.sep.state behind s from rfl, hloop, hpast]

/-- The tokenizer stays within a list of tags exactly when the groups in it close. -/
theorem parse_isSome_iff (p : Tagparser) (s : Str) : (p.parse s).isSome ↔ GroupsClose s := by
  rw [parse_eq 0, groupsClose_iff (m := .sep) (.inl rfl)]
  split_ifs with h <;> simp [h]

/-- In a group that is not closed, the character behind the last one is looked at. -/
theorem parseTags_unclosed : parseTags ∅ (str "a\x7bb") = none := by
  rw [parseTags, if_neg (by decide), parse_eq 0, if_pos (by decide), Option.map_none]

end Libept.PackageRecord
