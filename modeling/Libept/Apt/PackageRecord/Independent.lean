import Libept.Apt.PackageRecord.Closing

/-!
# Lists of tags one behind the other

The tags that are read behind a list of groups that close are those that would be read without it.
Where a group does not close, some tags behind it become part of it.
-/

namespace Libept.PackageRecord

open Std RecordParser Tagparser

variable {p : Tagparser} {tag pre s x : Str} {begin : ℕ} {res res' : StrSet} {m : Mode} {c : Byte}

/-! ### Tags that have been read before -/

lemma union_empty : res ∪ ∅ = res := by
  apply ExtTreeSet.ext_mem
  intro t
  rw [ExtTreeSet.mem_union_iff, or_iff_left ExtTreeSet.not_mem_empty]

lemma insert_union : (res ∪ res').insert x = res ∪ res'.insert x := by
  apply ExtTreeSet.ext_mem
  intro t
  rw [mem_insert_iff, ExtTreeSet.mem_union_iff, ExtTreeSet.mem_union_iff, mem_insert_iff, or_assoc]

/-- By induction on the length of what follows the offset. -/
lemma expandLoop_union :
    expandLoop tag pre begin (res ∪ res') = res ∪ expandLoop tag pre begin res' := by
  induction hn : tag.length - begin using Nat.strong_induction_on generalizing begin res' with
  | _ n ih =>
    cases hfind : find tag comma begin with
    | none => rw [expandLoop_of_find_none hfind, expandLoop_of_find_none hfind, insert_union]
    | some end_ =>
      have hend := le_of_find_eq_some hfind
      rw [expandLoop_of_find hfind, expandLoop_of_find hfind, insert_union]
      exact ih _ (by omega) rfl

/-- With the tags of `res` read before. -/
def Tagparser.join (res : StrSet) (p : Tagparser) : Tagparser := { p with res := res ∪ p.res }

lemma haveTag_join : (p.join res).haveTag = p.haveTag.join res := by
  obtain ⟨res', cur, braces⟩ := p
  cases braces with
  | false => simp [Tagparser.join, haveTag, resetTag, insert_union]
  | true =>
    cases hfind : find cur lbrace 0 with
    | none => simp [Tagparser.join, haveTag, resetTag, expandTagBraces, hfind]
    | some begin =>
      simp [Tagparser.join, haveTag, resetTag, expandTagBraces, hfind, expandLoop_union]

lemma step_join :
    step (m, p.join res) c = ((step (m, p) c).1, (step (m, p) c).2.join res) := by
  have hpush : (p.join res).push c = (p.push c).join res := rfl
  have hcollect : (p.join res).collect c = (p.collect c).join res := by
    unfold collect
    split_ifs <;> rfl
  cases m with
  | sep => cases hsep : isTagSep c <;> simp [step, Tagparser.take, hsep, hcollect]
  | tag => cases hsep : isTagSep c <;> simp [step, Tagparser.take, hsep, hcollect, haveTag_join]
  | opened => exact congrArg (Prod.mk _) hpush
  | inside => exact congrArg (Prod.mk _) hpush

lemma foldl_join :
    s.foldl step (m, p.join res) =
      ((s.foldl step (m, p)).1, (s.foldl step (m, p)).2.join res) := by
  induction s generalizing m p with
  | nil => rfl
  | cons c s ih => rw [List.foldl_cons, List.foldl_cons, step_join, ih]

lemma finish_join : (p.join res).finish = p.finish.join res := by
  have hcur : (p.join res).curTag = p.curTag := rfl
  rw [finish, finish, hcur]
  split_ifs
  · rfl
  · exact haveTag_join

/-! ### What is collected in each mode -/

/-- Between tags nothing is collected, and in a tag something is. A brace that has been opened is
part of it. -/
structure Tidy (x : Mode × Tagparser) : Prop where
  sep : x.1 = .sep → x.2.curTag = [] ∧ x.2.hasBraces = false
  ne_nil : x.1 ≠ .sep → x.2.curTag ≠ []
  opened : x.1 ≠ .sep → x.1 ≠ .tag → x.2.hasBraces = true
  lbrace : x.2.hasBraces = true → lbrace ∈ x.2.curTag

lemma tidy_start : Tidy (.sep, ⟨res, [], false⟩) where
  sep _ := ⟨rfl, rfl⟩
  ne_nil h := absurd rfl h
  opened h := absurd rfl h
  lbrace h := absurd h Bool.false_ne_true

lemma haveTag_eq : p.haveTag = ⟨p.haveTag.res, [], false⟩ := by
  rw [haveTag]
  split_ifs <;> rfl

lemma tidy_push (h : p.hasBraces = true → lbrace ∈ p.curTag) (hm : m ≠ .sep)
    (hopen : m ≠ .tag → p.hasBraces = true) : Tidy (m, p.push c) where
  sep hsep := absurd hsep hm
  ne_nil _ := by simp [push]
  opened _ := hopen
  lbrace hb := List.mem_append_left _ (h hb)

lemma tidy_collect (h : p.hasBraces = true → lbrace ∈ p.curTag) (hsep : isTagSep c = false) :
    Tidy (Mode.next .tag c, p.collect c) := by
  by_cases hc : c = lbrace
  · subst hc
    have hnext : Mode.next .tag lbrace = .opened := rfl
    have hcur : lbrace ∈ (p.collect lbrace).curTag := by simp [collect, push]
    rw [hnext]
    exact ⟨by simp, fun _ => List.ne_nil_of_mem hcur, fun _ _ => by simp [collect], fun _ => hcur⟩
  · have hnext : Mode.next .tag c = .tag := by simp [Mode.next, hsep, hc]
    rw [hnext, collect, if_neg hc]
    exact tidy_push h (by decide) fun hne => absurd rfl hne

lemma Tidy.step {x : Mode × Tagparser} (h : Tidy x) (c : Byte) : Tidy (step x c) := by
  obtain ⟨m, p⟩ := x
  have hpush : m ≠ .sep → m ≠ .tag → ∀ m' ≠ Mode.sep, Tidy (m', p.push c) :=
    fun h1 h2 m' hm' => tidy_push h.lbrace hm' fun _ => h.opened h1 h2
  cases m with
  | sep =>
    cases hsep : isTagSep c with
    | true => simpa [PackageRecord.step, Mode.next, Tagparser.take, hsep] using h
    | false =>
      have hcollect := tidy_collect h.lbrace hsep
      simpa [PackageRecord.step, Mode.next, Tagparser.take, hsep] using hcollect
  | tag =>
    cases hsep : isTagSep c with
    | true =>
      have hstart : Tidy (.sep, p.haveTag) := haveTag_eq ▸ tidy_start
      simpa [PackageRecord.step, Mode.next, Tagparser.take, hsep] using hstart
    | false =>
      have hcollect := tidy_collect h.lbrace hsep
      simpa [PackageRecord.step, Mode.next, Tagparser.take, hsep] using hcollect
  | opened => exact hpush (by decide) (by decide) .inside (by decide)
  | inside =>
    refine hpush (by decide) (by decide) _ ?_
    change (if c = rbrace then Mode.tag else .inside) ≠ .sep
    split_ifs <;> decide

lemma Tidy.foldl {x : Mode × Tagparser} (h : Tidy x) (s : Str) :
    Tidy (s.foldl PackageRecord.step x) := by
  induction s generalizing x with
  | nil => exact h
  | cons c s ih => exact ih (h.step c)

/-- A comma between groups ends the tag that has been collected. -/
lemma Tidy.step_comma {x : Mode × Tagparser} (h : Tidy x) (hout : x.1.Outside) :
    PackageRecord.step x comma = (.sep, ⟨x.2.finish.res, [], false⟩) := by
  obtain ⟨m, p⟩ := x
  rcases hout with rfl | rfl
  · obtain ⟨hcur, hbraces⟩ := h.sep rfl
    obtain ⟨res, cur, braces⟩ := p
    obtain rfl : cur = [] := hcur
    obtain rfl : braces = false := hbraces
    rfl
  · have hcur : p.curTag ≠ [] := h.ne_nil (by simp)
    have hp : p.finish = p.haveTag := by simp [finish, hcur]
    rw [hp, ← haveTag_eq]
    rfl

/-! ### Lists whose groups close -/

lemma parseTagsPast_eq (behind : Byte) (def_ : StrSet) (hs : s ≠ []) :
    parseTagsPast behind def_ s = (s.foldl step (.sep, ⟨∅, [], false⟩)).2.finish.res := by
  rw [parseTagsPast, if_neg hs, ← parsePast_eq behind .sep]
  rfl

/-- Every opening brace is followed by a closing one, somewhere. -/
def EveryLbraceFollowed (s : Str) : Prop := ∀ w r, s = w ++ lbrace :: r → rbrace ∈ r

/-- By induction on the groups, of which none is cut off. -/
lemma GroupsClose.outside (h : GroupsClose s) (hall : EveryLbraceFollowed s) (hm : m.Outside) :
    (s.foldl Mode.next m).Outside := by
  induction h generalizing m with
  | plain hs => exact hm.foldl hs
  | @cut w hw =>
    have hmem := hall w [] rfl
    cases hmem
  | @group w body s hw c hbody _ ih =>
    rw [foldl_group hm hw hbody]
    refine ih (fun w' r hr => ?_) (.inr rfl)
    exact hall (w ++ lbrace :: c :: (body ++ rbrace :: w')) r (by simp [hr])

/-- The tags before the comma are those of the first list, and those behind it of the second. -/
lemma parseTagsPast_append (behind : Byte) (def_ : StrSet) {s1 s2 : Str} (h1 : s1 ≠ [])
    (h2 : s2 ≠ []) (hall : EveryLbraceFollowed s1) (hclose : GroupsClose s1) :
    parseTagsPast behind def_ (s1 ++ comma :: s2) =
      parseTagsPast behind def_ s1 ∪ parseTagsPast behind def_ s2 := by
  have htidy : Tidy (s1.foldl step (.sep, ⟨∅, [], false⟩)) := tidy_start.foldl s1
  have hout : (s1.foldl step (.sep, ⟨∅, [], false⟩)).1.Outside := by
    rw [fst_foldl_step]
    exact hclose.outside hall (.inl rfl)
  have hjoin : (⟨parseTagsPast behind def_ s1, [], false⟩ : Tagparser) =
      Tagparser.join (parseTagsPast behind def_ s1) ⟨∅, [], false⟩ := by
    simp [Tagparser.join, union_empty]
  rw [parseTagsPast_eq behind def_ (by simp), List.foldl_append, List.foldl_cons,
    htidy.step_comma hout, ← parseTagsPast_eq behind def_ h1, hjoin, foldl_join, finish_join,
    parseTagsPast_eq behind def_ h2]
  rfl

/-! ### Lists with a group that does not close -/

/-- A list that can be read is read in the same way if one may look behind it. -/
lemma parseTagsPast_of_parseTags (behind : Byte) {def_ : StrSet} (h : parseTags def_ s = some res) :
    parseTagsPast behind def_ s = res := by
  rw [parseTags] at h
  rw [parseTagsPast]
  split_ifs at h ⊢ with hs
  · exact Option.some.inj h
  · rw [parse_eq behind] at h
    split_ifs at h with hinside
    · cases h
    · exact Option.some.inj h

lemma comma_not_mem_of_mem_splitOn (s : Str) : ∀ b ∈ s.splitOn comma, comma ∉ b := by
  induction s with
  | nil => simp
  | cons c s ih =>
    rw [List.splitOn_cons_eq_if_modifyHead]
    by_cases hc : c = comma
    · simpa [hc] using ih
    · obtain ⟨a, alts, halts⟩ := List.exists_cons_of_ne_nil (List.splitOn_ne_nil comma s)
      rw [halts, List.forall_mem_cons] at ih
      simpa [hc, halts, Ne.symm hc] using ih

/-- In a group that is open nothing but a closing brace ends a tag. -/
lemma foldl_step_inside (hs : rbrace ∉ s) :
    s.foldl step (.inside, p) = (.inside, { p with curTag := p.curTag ++ s }) := by
  induction s generalizing p with
  | nil => simp
  | cons c s ih =>
    rw [List.mem_cons, not_or] at hs
    have hstep : step (.inside, p) c = (.inside, p.push c) := by
      simp [step, Mode.next, Ne.symm hs.1, Tagparser.take]
    rw [List.foldl_cons, hstep, ih hs.2]
    simp [push]

lemma res_finish_braces (h : p.hasBraces = true) (hne : p.curTag ≠ []) :
    p.finish.res = (p.expandTagBraces p.curTag).res := by
  rw [finish, if_neg (by simpa using hne), haveTag, if_pos h]
  rfl

/-- A tag that is none of finitely many strings, and not what is left of it behind a prefix. -/
lemma exists_tag (q : Str) (l : List Str) :
    ∃ x : Str, IsPlain (x ++ [98]) ∧ rbrace ∉ x ++ [98] ∧ comma ∉ x ∧ x ++ [98] ∉ l ∧
      x ++ [98] ≠ q ++ x := by
  have hmem : ∀ n, ∀ c ∈ 97 :: (List.replicate n 98 ++ [98]), c = 97 ∨ c = (98 : Byte) := by
    intro n c hc
    rw [← List.replicate_succ', List.mem_cons] at hc
    exact hc.imp_right List.eq_of_mem_replicate
  generalize hn : (l.map List.length).sum = n
  refine ⟨97 :: List.replicate n 98, ⟨by simp, ?_, ?_⟩, ?_, ?_, ?_, ?_⟩
  · rw [List.any_eq_false]
    intro c hc
    rcases hmem n c hc with rfl | rfl <;> decide
  · intro h
    rcases hmem n _ h with h | h <;> exact absurd h (by decide)
  · intro h
    rcases hmem n _ h with h | h <;> exact absurd h (by decide)
  · intro h
    rcases hmem n _ (List.mem_append_left [98] h) with h | h <;> exact absurd h (by decide)
  · -- it is longer than all of them together
    intro h
    have hle : _ ≤ (l.map List.length).sum := List.le_sum_of_mem (List.mem_map_of_mem h)
    rw [hn] at hle
    simp at hle
  · -- the prefix would be one character, which the tag does not repeat
    intro h
    have hlength := congrArg List.length h
    simp only [List.length_append, List.length_cons, List.length_nil, List.length_replicate]
      at hlength
    obtain ⟨y, rfl⟩ := List.length_eq_one_iff.mp (by omega : q.length = 1)
    rw [List.cons_append, ← List.replicate_succ', List.replicate_succ] at h
    exact absurd (List.cons.inj (List.cons.inj h).2).1 (by decide)

/-- A tag behind a group that is open is not read. -/
lemma exists_swallowed (behind : Byte) (def_ : StrSet) {s1 : Str} (hopen : ¬GroupsClose s1) :
    ∃ s2 ≠ [], ∃ t ∈ parseTagsPast behind def_ s2,
      t ∉ parseTagsPast behind def_ (s1 ++ comma :: s2) := by
  have htidy : Tidy (s1.foldl step (.sep, ⟨∅, [], false⟩)) := tidy_start.foldl s1
  have hmode : (s1.foldl step (.sep, ⟨∅, [], false⟩)).1 = .inside := by
    rw [fst_foldl_step]
    by_contra hne
    exact hopen ((groupsClose_iff (.inl rfl)).mpr hne)
  generalize hx1 : s1.foldl step (.sep, ⟨∅, [], false⟩) = x1 at htidy hmode
  obtain ⟨m, p1⟩ := x1
  obtain rfl : m = .inside := hmode
  have hbraces : p1.hasBraces = true := htidy.opened (by simp) (by simp)
  obtain ⟨q, content, hcur, hq⟩ := List.eq_append_cons_of_mem (htidy.lbrace hbraces)
  obtain ⟨x, hplain, hclose, hcomma, hnew, hne⟩ :=
    exists_tag q (p1.res.toList ++ (content.splitOn comma).map (q ++ ·))
  refine ⟨x ++ [98], by simp, x ++ [98], ?_, fun hmem => ?_⟩
  · have hrenders : Renders [.plain (x ++ [98]) hplain] (x ++ [98] ++ []) := .last _ rfl
    obtain ⟨res, hres, hmem⟩ := parseTags_of_renders def_ (w := []) rfl hrenders
    rw [List.nil_append, List.append_nil] at hres
    rw [parseTagsPast_of_parseTags behind hres, hmem]
    exact ⟨_, List.mem_singleton_self _, List.mem_singleton_self _⟩
  · have hopen' : rbrace ∉ comma :: (x ++ [98]) := by
      rw [List.mem_cons, not_or]
      exact ⟨by decide, hclose⟩
    have hcommas : ∀ a ∈ content.splitOn comma ++ [x], comma ∉ a := by
      rw [List.forall_mem_append, List.forall_mem_singleton]
      exact ⟨comma_not_mem_of_mem_splitOn content, hcomma⟩
    have halts : content ++ comma :: x = [comma].intercalate (content.splitOn comma ++ [x]) := by
      rw [← List.splitOn_eq_singleton hcomma, ← List.splitOn_append_cons_self,
        List.intercalate_splitOn]
    have htag : p1.curTag ++ comma :: (x ++ [98]) =
        q ++ lbrace :: ([comma].intercalate (content.splitOn comma ++ [x]) ++ [98]) := by
      rw [hcur, ← halts]
      simp
    have hfinish := @res_finish_braces { p1 with curTag := p1.curTag ++ comma :: (x ++ [98]) }
      hbraces (by simp)
    rw [parseTagsPast_eq behind def_ (by simp), List.foldl_append, hx1,
      foldl_step_inside hopen'] at hmem
    simp only [hfinish] at hmem
    rw [htag, mem_expandTagBraces hq (by simp) (by decide) hcommas, List.map_append,
      List.mem_append, List.map_singleton, List.mem_singleton, ← or_assoc] at hmem
    rcases hmem with hmem | hmem
    · exact hnew (by simpa [ExtTreeSet.mem_toList] using hmem)
    · exact hne hmem

/-- Whatever list of tags stands behind a first one, both are read, exactly when the groups of the
first one close. -/
theorem groups_independent_iff (behind : Byte) (def_ : StrSet) {s1 : Str} (h1 : s1 ≠ [])
    (hall : EveryLbraceFollowed s1) :
    (∀ s2 ≠ [], parseTagsPast behind def_ (s1 ++ comma :: s2) =
        parseTagsPast behind def_ s1 ∪ parseTagsPast behind def_ s2) ↔ GroupsClose s1 := by
  constructor
  · intro h
    by_contra hopen
    obtain ⟨s2, h2, t, ht, hswallowed⟩ := exists_swallowed behind def_ hopen
    apply hswallowed
    rw [h s2 h2, ExtTreeSet.mem_union_iff]
    exact .inr ht
  · intro hclose s2 h2
    exact parseTagsPast_append behind def_ h1 h2 hall hclose

lemma everyLbraceFollowed_cons (hc : c = lbrace → rbrace ∈ s) (hs : EveryLbraceFollowed s) :
    EveryLbraceFollowed (c :: s) := by
  intro w r h
  rcases w with _ | ⟨d, w⟩
  · obtain ⟨rfl, rfl⟩ := List.cons.inj h
    exact hc rfl
  · exact hs w r (List.cons.inj h).2

lemma everyLbraceFollowed_nil : EveryLbraceFollowed [] := by
  intro w r h
  cases w <;> cases h

/-- A group that is closed, and a tag behind it. -/
theorem groups_independent_sample :
    GroupsClose (str "a\x7bb\x7d") ∧
      parseTagsPast 0 ∅ (str "a\x7bb\x7d" ++ comma :: str "c") =
        parseTagsPast 0 ∅ (str "a\x7bb\x7d") ∪ parseTagsPast 0 ∅ (str "c") := by
  have hclose : GroupsClose (str "a\x7bb\x7d") := (groupsClose_iff (.inl rfl)).mpr (by decide)
  have hall : EveryLbraceFollowed (str "a\x7bb\x7d") := by
    repeat' apply everyLbraceFollowed_cons (by decide)
    exact everyLbraceFollowed_nil
  refine ⟨hclose, ?_⟩
  exact (groups_independent_iff 0 ∅ (by decide) hall).mpr hclose (str "c") (by decide)

/-- A group with nothing in it does not close, and the tag behind it is not read. -/
theorem empty_group_swallows :
    EveryLbraceFollowed (str "a\x7b\x7d") ∧ str "b" ∈ parseTagsPast 0 ∅ (str "b") ∧
      str "b" ∉ parseTagsPast 0 ∅ (str "a\x7b\x7d" ++ comma :: str "b") := by
  refine ⟨?_, ?_, ?_⟩
  · repeat' apply everyLbraceFollowed_cons (by decide)
    exact everyLbraceFollowed_nil
  · have hread : (str "b").foldl step (.sep, ⟨∅, [], false⟩) = (.tag, ⟨∅, str "b", false⟩) := rfl
    rw [parseTagsPast_eq 0 ∅ (by decide), hread]
    exact mem_insert_iff.mpr (.inr rfl)
  · intro hmem
    have hread : (str "a\x7b\x7d" ++ comma :: str "b").foldl step (.sep, ⟨∅, [], false⟩) =
        (.inside, ⟨∅, str "a" ++ lbrace :: ([comma].intercalate [str "\x7d", []] ++ [98]), true⟩) :=
      rfl
    rw [parseTagsPast_eq 0 ∅ (by decide), hread, res_finish_braces rfl (by simp),
      mem_expandTagBraces (by decide) (by simp) (by decide) (by decide)] at hmem
    rcases hmem with hmem | hmem
    · exact ExtTreeSet.not_mem_empty hmem
    · exact absurd hmem (by decide)

end Libept.PackageRecord
