import Libept.Apt.PackageRecord

/-!
# Reading a list of tags

Tags and brace groups, written one after another with separators between them, are all read, and
nothing else is.
-/

namespace Libept.PackageRecord

open Std RecordParser Tagparser

/-! ### Groups of tags -/

/-- A tag that stands for itself. -/
structure IsPlain (tag : Str) : Prop where
  ne_nil : tag ≠ []
  no_sep : tag.any isTagSep = false
  no_lbrace : lbrace ∉ tag

/-- What stands in front of the braces, or between them. -/
structure IsPart (s : Str) : Prop where
  no_sep : s.any isTagSep = false
  no_lbrace : lbrace ∉ s
  no_rbrace : rbrace ∉ s

/-- A tag, or alternatives with what they have in common in front. -/
inductive Group where
  | plain (tag : Str) (h : IsPlain tag)
  | braces (pre : Str) (alts : List Str) (hpre : IsPart pre) (hne : alts ≠ [])
      (halts : ∀ a ∈ alts, a ≠ [] ∧ IsPart a)

namespace Group

/-- The tags of a group. -/
def tags : Group → List Str
  | plain tag _ => [tag]
  | braces pre alts _ _ _ => alts.map (pre ++ ·)

/-- A group as it is written. -/
def text : Group → Str
  | plain tag _ => tag
  | braces pre alts _ _ _ => pre ++ lbrace :: ([comma].intercalate alts ++ [rbrace])

end Group

def IsTagSeps (s : Str) : Prop := s.all isTagSep = true

/-- Groups as they are written one after another, with separators behind each of them. -/
inductive Renders : List Group → Str → Prop
  | last (g : Group) {w : Str} (hw : IsTagSeps w) : Renders [g] (g.text ++ w)
  | cons (g : Group) {w : Str} (hw : IsTagSeps w) (hne : w ≠ []) {groups : List Group} {s : Str}
      (hs : Renders groups s) : Renders (g :: groups) (g.text ++ (w ++ s))

/-! ### Alternatives -/

variable {p : Tagparser} {tag pre s w t : Str} {begin end_ : ℕ} {res : StrSet}

lemma expandLoop_of_find (h : find tag comma begin = some end_) :
    expandLoop tag pre begin res =
      expandLoop tag pre (end_ + 1) (res.insert (pre ++ substr tag begin (end_ - begin))) := by
  rw [expandLoop]
  split
  · rename_i hend
    obtain rfl := Option.some.inj (h.symm.trans hend)
    rfl
  · rename_i hnone
    cases h.symm.trans hnone

lemma expandLoop_of_find_none (h : find tag comma begin = none) :
    expandLoop tag pre begin res =
      res.insert (pre ++ substr tag begin (tag.length - 1 - begin)) := by
  rw [expandLoop]
  split
  · rename_i hend
    cases h.symm.trans hend
  · rfl

lemma no_comma (h : s.any isTagSep = false) : comma ∉ s := by
  intro hc
  have := List.any_eq_false.mp h comma hc
  revert this
  decide

lemma mem_insert_iff {x : Str} : t ∈ res.insert x ↔ t ∈ res ∨ t = x := by
  rw [ExtTreeSet.mem_insert, LawfulEqCmp.compare_eq_iff_eq, or_comm, eq_comm]

lemma substr_middle (front a s : Str) : substr (front ++ (a ++ s)) front.length a.length = a := by
  rw [substr, List.drop_left, List.take_left]

/-- The alternatives from the current one on are added, whatever the last character is. By induction
on those behind it. -/
lemma mem_expandLoop (front pre a : Str) (alts : List Str) (res : StrSet) {d : Byte}
    (hd : d ≠ comma) (hcomma : ∀ b ∈ a :: alts, comma ∉ b)
    (htag : tag = front ++ ([comma].intercalate (a :: alts) ++ [d])) :
    t ∈ expandLoop tag pre front.length res ↔ t ∈ res ∨ t ∈ (a :: alts).map (pre ++ ·) := by
  induction alts generalizing front a res with
  | nil =>
    rw [List.intercalate_singleton] at htag
    have hfind : find tag comma front.length = none := by
      rw [htag]
      apply find_of_not_mem
      rw [List.mem_append, not_or]
      exact ⟨hcomma a (by simp), by simpa using Ne.symm hd⟩
    have hlen : tag.length - 1 - front.length = a.length := by
      simp only [htag, List.length_append, List.length_singleton]
      omega
    rw [expandLoop_of_find_none hfind, hlen, htag, substr_middle, mem_insert_iff,
      List.map_singleton, List.mem_singleton]
  | cons b alts ih =>
    rw [List.intercalate_cons_cons, List.append_assoc, List.append_assoc,
      List.singleton_append] at htag
    have hfind : find tag comma front.length = some (front.length + a.length) := by
      rw [htag, find_append (hcomma a (by simp))]
    have hnext : tag = (front ++ a ++ [comma]) ++ ([comma].intercalate (b :: alts) ++ [d]) := by
      simp [htag]
    have hlen : front.length + a.length + 1 = (front ++ a ++ [comma]).length := by
      simp [Nat.add_assoc]
    have hcut : substr tag front.length (front.length + a.length - front.length) = a := by
      rw [Nat.add_sub_cancel_left, htag, substr_middle]
    have hrest : ∀ c ∈ b :: alts, comma ∉ c := fun c hc => hcomma c (List.mem_cons_of_mem _ hc)
    rw [expandLoop_of_find hfind, hlen, ih _ _ _ hrest hnext, hcut, mem_insert_iff, or_assoc,
      @List.map_cons _ _ _ a, List.mem_cons]

/-- Braces are expanded to their alternatives, with the prefix in front of each. -/
lemma mem_expandTagBraces {alts : List Str} {d : Byte} (hpre : lbrace ∉ pre) (hne : alts ≠ [])
    (hd : d ≠ comma) (hcomma : ∀ a ∈ alts, comma ∉ a) :
    t ∈ (p.expandTagBraces (pre ++ lbrace :: ([comma].intercalate alts ++ [d]))).res ↔
      t ∈ p.res ∨ t ∈ alts.map (pre ++ ·) := by
  obtain ⟨a, alts, rfl⟩ := List.exists_cons_of_ne_nil hne
  have hfind := @find_append lbrace [] pre hpre ([comma].intercalate (a :: alts) ++ [d])
  rw [List.nil_append, List.length_nil, Nat.zero_add] at hfind
  have hcut : substr (pre ++ lbrace :: ([comma].intercalate (a :: alts) ++ [d])) 0 pre.length =
      pre := substr_middle [] pre _
  have hlen : pre.length + 1 = (pre ++ [lbrace]).length := by simp
  simp only [expandTagBraces, hfind, hcut, hlen]
  exact mem_expandLoop (pre ++ [lbrace]) pre a alts p.res hd hcomma (by simp)

/-! ### The tokenizer -/

/-- What is left is empty, or starts with a separator. -/
def IsEnd (s : Str) : Prop := ∀ c ∈ s.head?, isTagSep c = true

lemma parseLoop_sep (hw : IsTagSeps w) : parseLoop .sep p (w ++ s) = parseLoop .sep p s := by
  induction w with
  | nil => rfl
  | cons c w ih =>
    obtain ⟨hc, hw⟩ := Bool.and_eq_true_iff.mp hw
    rw [List.cons_append, parseLoop, if_pos hc]
    exact ih hw

lemma parseLoop_sep_tag (hs : s ≠ []) (h : ∀ c ∈ s.head?, isTagSep c = false) :
    parseLoop .sep p s = parseLoop .tag p s := by
  obtain ⟨c, s, rfl⟩ := List.exists_cons_of_ne_nil hs
  conv_lhs => rw [parseLoop]
  simp [h c (by simp)]

section Collect

variable {cur : Str} {b : Bool}

/-- The characters of a tag are collected. -/
lemma parseLoop_tag (hw : w.any isTagSep = false) (hbrace : lbrace ∉ w) :
    parseLoop .tag ⟨res, cur, b⟩ (w ++ s) = parseLoop .tag ⟨res, cur ++ w, b⟩ s := by
  induction w generalizing cur with
  | nil => simp
  | cons c w ih =>
    obtain ⟨hsep, hw⟩ := Bool.or_eq_false_iff.mp hw
    have hc : c ≠ lbrace := fun h => hbrace (by simp [h])
    rw [List.cons_append, parseLoop]
    simp only [hsep, Bool.false_eq_true, if_false, hc, push]
    rw [ih hw fun h => hbrace (by simp [h]), List.append_assoc, List.singleton_append]

lemma parseLoop_tag_lbrace :
    parseLoop .tag ⟨res, cur, b⟩ (lbrace :: s) =
      parseLoop .braces ⟨res, cur ++ [lbrace], true⟩ s := by
  rw [parseLoop, if_neg (by decide), if_pos rfl]
  rfl

lemma parseLoop_braces_cons (c d : Byte) :
    parseLoop .braces ⟨res, cur, b⟩ (c :: d :: s) =
      parseLoop (if d = rbrace then .tag else .braces) ⟨res, cur ++ [c], b⟩ (d :: s) := by
  rw [parseLoop]
  rfl

/-- The characters between the braces are collected, separators or not. -/
lemma parseLoop_braces (hne : w ≠ []) (hw : rbrace ∉ w) :
    parseLoop .braces ⟨res, cur, b⟩ (w ++ rbrace :: s) =
      parseLoop .tag ⟨res, cur ++ w, b⟩ (rbrace :: s) := by
  induction w generalizing cur with
  | nil => exact absurd rfl hne
  | cons c w ih =>
    rcases w with _ | ⟨d, w⟩
    · rw [List.singleton_append, parseLoop_braces_cons, if_pos rfl]
    · have hd : d ≠ rbrace := fun h => hw (by simp [h])
      rw [List.cons_append, List.cons_append, parseLoop_braces_cons, if_neg hd, ← List.cons_append,
        ih (by simp) fun h => hw (by simp [h]), List.append_assoc, List.singleton_append]

/-- At the end of a tag it is added. -/
lemma parseLoop_tag_end (hcur : cur ≠ []) (hs : IsEnd s) :
    parseLoop .tag ⟨res, cur, b⟩ s = parseLoop .sep (haveTag ⟨res, cur, b⟩) s := by
  rcases s with _ | ⟨c, s⟩
  · have hreset : (haveTag ⟨res, cur, b⟩).curTag = [] := by
      rw [haveTag]
      split_ifs <;> rfl
    simp [parseLoop, hcur, hreset]
  · rw [parseLoop, parseLoop, if_pos (hs c (by simp)), if_pos (hs c (by simp))]

end Collect

/-! ### Groups -/

lemma intercalate_alts {alts : List Str} (hne : alts ≠ []) (halts : ∀ a ∈ alts, a ≠ [] ∧ IsPart a) :
    [comma].intercalate alts ≠ [] ∧ rbrace ∉ [comma].intercalate alts := by
  induction alts with
  | nil => exact absurd rfl hne
  | cons a alts ih =>
    obtain ⟨ha, hpart⟩ := halts a (by simp)
    rcases alts with _ | ⟨b, alts⟩
    · rw [List.intercalate_singleton]
      exact ⟨ha, hpart.no_rbrace⟩
    · have hrest := (ih (by simp) fun c hc => halts c (List.mem_cons_of_mem _ hc)).2
      rw [List.intercalate_cons_cons]
      have hne' : rbrace ≠ comma := by decide
      simp [ha, hpart.no_rbrace, hrest, hne']

/-- The tags of a group are added to those read before it. -/
lemma Group.parseLoop_text (g : Group) (hs : IsEnd s) (res : StrSet) :
    ∃ res' : StrSet, parseLoop .sep ⟨res, [], false⟩ (g.text ++ s) =
      parseLoop .sep ⟨res', [], false⟩ s ∧ ∀ t, t ∈ res' ↔ t ∈ res ∨ t ∈ g.tags := by
  cases g with
  | plain tag h =>
    refine ⟨res.insert tag, ?_, fun t => ?_⟩
    · have hhead : ∀ c ∈ (tag ++ s).head?, isTagSep c = false := by
        obtain ⟨c, tag, rfl⟩ := List.exists_cons_of_ne_nil h.ne_nil
        rintro d ⟨⟩
        exact (Bool.or_eq_false_iff.mp h.no_sep).1
      rw [text, parseLoop_sep_tag (by simp [h.ne_nil]) hhead,
        parseLoop_tag h.no_sep h.no_lbrace, parseLoop_tag_end (by simp [h.ne_nil]) hs]
      rfl
    · rw [mem_insert_iff, tags, List.mem_singleton]
  | braces pre alts hpre hne halts =>
    obtain ⟨hinter, hclose⟩ : [comma].intercalate alts ≠ [] ∧ rbrace ∉ [comma].intercalate alts :=
      intercalate_alts hne halts
    have htext : (braces pre alts hpre hne halts).text ++ s =
        pre ++ lbrace :: ([comma].intercalate alts ++ rbrace :: s) := by simp [text]
    have hhead : ∀ c ∈ (pre ++ lbrace :: ([comma].intercalate alts ++ rbrace :: s)).head?,
        isTagSep c = false := by
      rcases pre with _ | ⟨c, pre⟩
      · rintro d ⟨⟩
        decide
      · rintro d ⟨⟩
        exact (Bool.or_eq_false_iff.mp hpre.no_sep).1
    have hrbrace : [rbrace].any isTagSep = false := by decide
    have hcollect : parseLoop .sep ⟨res, [], false⟩ ((braces pre alts hpre hne halts).text ++ s) =
        parseLoop .tag ⟨res, (braces pre alts hpre hne halts).text, true⟩ s := by
      rw [htext, parseLoop_sep_tag (by simp) hhead, parseLoop_tag hpre.no_sep hpre.no_lbrace,
        parseLoop_tag_lbrace, parseLoop_braces hinter hclose, ← List.singleton_append (l := s),
        parseLoop_tag hrbrace (by decide), text]
      simp only [List.nil_append, List.append_assoc, List.cons_append]
    refine ⟨_, hcollect.trans (parseLoop_tag_end (by simp [text]) hs), fun t => ?_⟩
    exact mem_expandTagBraces hpre.no_lbrace hne (by decide)
      fun a ha => no_comma (halts a ha).2.no_sep

/-! ### Lists of groups -/

lemma isEnd_append (hw : IsTagSeps w) (hne : w ≠ []) (s : Str) : IsEnd (w ++ s) := by
  obtain ⟨c, w, rfl⟩ := List.exists_cons_of_ne_nil hne
  rintro d ⟨⟩
  exact (Bool.and_eq_true_iff.mp hw).1

lemma isEnd_of_isTagSeps (hw : IsTagSeps w) : IsEnd w := fun c hc =>
  List.all_eq_true.mp hw c (List.mem_of_mem_head? hc)

/-- By induction on the groups that are left. -/
lemma Renders.parseLoop {groups : List Group} (h : Renders groups s) (res : StrSet) :
    ∃ p, parseLoop .sep ⟨res, [], false⟩ s = some p ∧
      ∀ t, t ∈ p.res ↔ t ∈ res ∨ ∃ g ∈ groups, t ∈ g.tags := by
  induction h generalizing res with
  | last g hw =>
    obtain ⟨res', hrun, hmem⟩ := g.parseLoop_text (isEnd_of_isTagSeps hw) res
    refine ⟨⟨res', [], false⟩, ?_, fun t => ?_⟩
    · have hend := @parseLoop_sep ⟨res', [], false⟩ [] _ hw
      rw [List.append_nil] at hend
      rw [hrun, hend, Tagparser.parseLoop]
      rfl
    · simp [hmem]
  | cons g hw hne hs ih =>
    obtain ⟨res', hrun, hmem⟩ := g.parseLoop_text (isEnd_append hw hne _) res
    obtain ⟨p, hp, hmem'⟩ := ih res'
    refine ⟨p, ?_, fun t => ?_⟩
    · rw [hrun, parseLoop_sep hw, hp]
    · rw [hmem', hmem, List.exists_mem_cons_iff, or_assoc]

lemma Renders.ne_nil {groups : List Group} (h : Renders groups s) : s ≠ [] := by
  have hne : ∀ g : Group, g.text ≠ [] := by
    rintro (⟨tag, htag⟩ | ⟨pre, alts, hpre, hne, halts⟩)
    · exact htag.ne_nil
    · simp [Group.text]
  cases h with
  | last g hw => simp [hne g]
  | cons g hw hne' hs => simp [hne g]

/-- Of groups that are written with separators between them, and perhaps in front of the first one
and behind the last one, exactly the tags are read. -/
theorem parseTags_of_renders (def_ : StrSet) {groups : List Group} (hw : IsTagSeps w)
    (h : Renders groups s) :
    ∃ res, parseTags def_ (w ++ s) = some res ∧ ∀ t, t ∈ res ↔ ∃ g ∈ groups, t ∈ g.tags := by
  obtain ⟨p, hp, hmem⟩ := h.parseLoop ∅
  refine ⟨p.res, ?_, fun t => by simp [hmem]⟩
  rw [parseTags, if_neg (by simp [h.ne_nil]), parse, parseLoop_sep hw]
  simp [resetTag, hp]

/-- A group of two alternatives and a tag. -/
def sampleGroups : List Group :=
  [.braces (str "a:") [str "b", str "c"] ⟨by decide, by decide, by decide⟩ (by decide)
      (by simp only [List.forall_mem_cons]; exact ⟨⟨by decide, by decide, by decide, by decide⟩,
        ⟨by decide, by decide, by decide, by decide⟩, by simp⟩),
    .plain (str "d") ⟨by decide, by decide, by decide⟩]

theorem parseTags_sample :
    ∃ res, parseTags ∅ (str " \na:{b,c}, d") = some res ∧
      str "a:c" ∈ res ∧ str "d" ∈ res ∧ str "a" ∉ res := by
  have hseps : ∀ w ∈ [str " \n", str ", ", []], IsTagSeps w := by
    unfold IsTagSeps
    decide
  have hrenders : Renders sampleGroups (str "a:{b,c}, d") :=
    .cons _ (hseps (str ", ") (by simp)) (by decide) (.last _ (hseps [] (by simp)))
  obtain ⟨res, hres, hmem⟩ := parseTags_of_renders ∅ (hseps (str " \n") (by simp)) hrenders
  refine ⟨res, hres, (hmem _).mpr (by decide), (hmem _).mpr (by decide), fun h => ?_⟩
  exact absurd ((hmem _).mp h) (by decide)

end Libept.PackageRecord
