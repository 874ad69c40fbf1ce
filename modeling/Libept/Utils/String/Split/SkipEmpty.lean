import Libept.Utils.String.Split

/-!
# Skipping empty tokens

With `skip_empty` the iterator passes all the separators that stand at an offset. It does so for
ever when the separator is empty, or when its counter wraps in a separator that is too long. Where
it does not, the walk goes over the tokens that are not empty, unless there are none: a string of
separators alone still has an empty token.
-/

namespace Libept.Utils.Split

/-! ### Passing separators -/

/-- From here the separators are never passed: there is room for the separator, and it matches as
far as the counter goes, which is not less than its length only if it has no length. -/
def Stuck (sep r : Str) : Prop :=
  sep.length ≤ r.length ∧ sep.take (2 ^ 32) <+: r ∧ (sep = [] ∨ 2 ^ 32 ≤ sep.length)

instance (sep r : Str) : Decidable (Stuck sep r) := inferInstanceAs (Decidable (_ ∧ _ ∧ _))

lemma stuck_nil (r : Str) : Stuck [] r := ⟨Nat.zero_le _, List.nil_prefix, .inl rfl⟩

variable {split : Split} {s sep r t cur : Str} {ts : List Str} {e i : ℕ}

lemma not_stuck (hne : sep ≠ []) (hlen : sep.length < 2 ^ 32) (r : Str) : ¬ Stuck sep r := by
  rintro ⟨-, -, hempty | hlong⟩
  · exact hne hempty
  · exact Nat.not_lt.mpr hlong hlen

/-- A separator that can be passed is not too long. -/
lemma length_lt_of_not_stuck (h : ¬ Stuck sep (sep ++ s)) : sep.length < 2 ^ 32 := by
  by_contra hlong
  have hpre := (List.take_prefix (2 ^ 32) sep).trans (List.prefix_append sep s)
  exact h ⟨by simp, hpre, .inr (not_lt.mp hlong)⟩

section MatchTurn

variable (hdrop : split.str.drop e = r)

include hdrop

lemma getElem?_drop_eq (i : ℕ) : split.str[e + i]? = r[i]? := by
  rw [← hdrop, List.getElem?_drop]

/-- The counter wraps before the separator ends, and it matches up to there. -/
lemma loop_matchTurn_forever (hlong : 2 ^ 32 ≤ split.sep.length)
    (hpre : split.sep.take (2 ^ 32) <+: r) :
    (Comp.loop (split.matchTurn e) 0).Denotes none := by
  refine Comp.denotes_loop_forever (· < 2 ^ 32) ?_ (by decide)
  intro i hi
  obtain ⟨u, hu⟩ := hpre
  have heq : split.str[e + i]? = split.sep[i]? := by
    rw [getElem?_drop_eq hdrop, ← hu, List.getElem?_append_left (by simp; omega),
      List.getElem?_take_of_lt hi]
  have hturn : split.matchTurn e i = pure (.inl ((i + 1) % 2 ^ 32)) := by
    rw [matchTurn, if_pos (Nat.lt_of_lt_of_le hi hlong), if_neg (not_not.mpr heq)]
  exact ⟨_, Comp.returns_of_eq_pure hturn, Nat.mod_lt _ (by decide)⟩

/-- The loop counts up to the first difference, or to the end of the separator. By induction on
how much of the separator is left. -/
lemma loop_matchTurn (hroom : split.sep.length ≤ r.length)
    (h : split.sep.length < 2 ^ 32 ∨ ¬ split.sep.take (2 ^ 32) <+: r) (i : ℕ)
    (hi : i ≤ split.sep.length) (hlt : i < 2 ^ 32) (heq : split.sep.take i = r.take i) :
    ∃ j, (Comp.loop (split.matchTurn e) i).Returns j ∧
      (j < split.sep.length ↔ ¬ split.sep <+: r) := by
  induction hn : split.sep.length - i generalizing i with
  | zero =>
    have hend : i = split.sep.length := by omega
    subst hend
    have hstop : split.matchTurn e split.sep.length = pure (.inr split.sep.length) :=
      if_neg (Nat.lt_irrefl _)
    refine ⟨_, Comp.loop_stop (Comp.returns_of_eq_pure hstop), ?_⟩
    rw [List.take_length] at heq
    exact iff_of_false (Nat.lt_irrefl _) (not_not.mpr (List.prefix_iff_eq_take.mpr heq))
  | succ n ih =>
    have hless : i < split.sep.length := by omega
    by_cases hchar : split.str[e + i]? = split.sep[i]?
    · have hnext : split.sep.take (i + 1) = r.take (i + 1) := by
        rw [List.take_add_one, List.take_add_one, heq, ← hchar, getElem?_drop_eq hdrop]
      have hcount : i + 1 < 2 ^ 32 := by
        by_contra hge
        obtain rfl : i = 2 ^ 32 - 1 := by omega
        rcases h with hlen | hnot
        · omega
        · exact hnot (hnext ▸ List.take_prefix _ r)
      obtain ⟨j, hj, hiff⟩ := ih (i + 1) hless hcount hnext (by omega)
      have hturn : split.matchTurn e i = pure (.inl (i + 1)) := by
        rw [matchTurn, if_pos hless, if_neg (not_not.mpr hchar), Nat.mod_eq_of_lt hcount]
      exact ⟨j, (Comp.loop_next (Comp.returns_of_eq_pure hturn) j).mpr hj, hiff⟩
    · have hturn : split.matchTurn e i = pure (.inr i) := by
        rw [matchTurn, if_pos hless, if_pos hchar]
      have hdiffers : ¬ split.sep <+: r := by
        rintro ⟨u, rfl⟩
        exact hchar (by rw [getElem?_drop_eq hdrop, List.getElem?_append_left hless])
      exact ⟨i, Comp.loop_stop (Comp.returns_of_eq_pure hturn), iff_of_true hless hdiffers⟩

end MatchTurn

/-! ### Skipping at an offset -/

section SkipTurn

variable (hr : r <:+ split.str)

include hr

lemma skipTurn_room (hroom : split.sep.length ≤ r.length) :
    split.skipTurn (split.str.length - r.length) = (do
      let i ← Comp.loop (split.matchTurn (split.str.length - r.length)) 0
      if i < split.sep.length then pure (.inr (split.str.length - r.length))
      else pure (.inl (split.str.length - r.length + split.sep.length))) := by
  have hlen := hr.length_le
  rw [skipTurn, if_pos (by omega)]

lemma skipTurn_no_room (hroom : ¬ split.sep.length ≤ r.length) :
    split.skipTurn (split.str.length - r.length) =
      pure (.inr (split.str.length - r.length)) := by
  have hlen := hr.length_le
  rw [skipTurn, if_neg (by omega)]

lemma skipTurn_match (hroom : split.sep.length ≤ r.length)
    (h : split.sep.length < 2 ^ 32 ∨ ¬ split.sep.take (2 ^ 32) <+: r) :
    (split.skipTurn (split.str.length - r.length)).Returns
      (if split.sep <+: r then .inl (split.str.length - r.length + split.sep.length)
        else .inr (split.str.length - r.length)) := by
  have hdrop := (List.suffix_iff_eq_drop.mp hr).symm
  obtain ⟨j, hj, hiff⟩ :=
    loop_matchTurn hdrop hroom h 0 (Nat.zero_le _) (by decide) (by simp)
  rw [skipTurn_room hr hroom, Comp.returns_bind]
  refine ⟨j, hj, ?_⟩
  by_cases hpre : split.sep <+: r
  · rw [if_pos hpre, if_neg (by simpa [hpre] using hiff)]
    exact Comp.returns_pure.mpr rfl
  · rw [if_neg hpre, if_pos (hiff.mpr hpre)]
    exact Comp.returns_pure.mpr rfl

/-- An empty separator is passed again and again, and one that is too long is never passed. -/
lemma skipSeparators_stuck (h : Stuck split.sep r) :
    (split.skipSeparators (split.str.length - r.length)).Denotes none := by
  obtain ⟨hroom, hpre, hempty | hlong⟩ := h
  · refine Comp.denotes_loop_forever (· = split.str.length - r.length) ?_ rfl
    rintro _ rfl
    have hturn := skipTurn_match hr hroom (.inl (by simp [hempty]))
    rw [if_pos (hempty ▸ List.nil_prefix)] at hturn
    exact ⟨_, hturn, by simp [hempty]⟩
  · have hforever := loop_matchTurn_forever (List.suffix_iff_eq_drop.mp hr).symm hlong hpre
    refine (Comp.loop_same _ _).denotes (Comp.Denotes.bind_none ?_)
    rw [skipTurn_room hr hroom]
    exact hforever.bind_none

end SkipTurn

/-- The separators are passed. By induction on those that are there. -/
lemma skipSeparators_eq (hr : r <:+ split.str) (h : ¬ Stuck split.sep r) :
    (split.skipSeparators (split.str.length - r.length)).Returns
      (split.str.length - (Pieces.skip split.sep r).length) := by
  have hsep : split.sep ≠ [] := fun hempty => h (hempty ▸ stuck_nil r)
  induction r using Pieces.skip_induction hsep with
  | stop r hpre =>
    rw [Pieces.skip_eq_self hpre]
    by_cases hroom : split.sep.length ≤ r.length
    · have hshort : split.sep.length < 2 ^ 32 ∨ ¬ split.sep.take (2 ^ 32) <+: r := by
        by_contra hlong
        rw [not_or, not_lt, not_not] at hlong
        exact h ⟨hroom, hlong.2, .inr hlong.1⟩
      have hturn := skipTurn_match hr hroom hshort
      rw [if_neg hpre] at hturn
      exact Comp.loop_stop hturn
    · exact Comp.loop_stop (Comp.returns_of_eq_pure (skipTurn_no_room hr hroom))
  | next r ih =>
    have hroom : split.sep.length ≤ (split.sep ++ r).length := by simp
    have hpre := List.prefix_append split.sep r
    have hshort := length_lt_of_not_stuck h
    have hrest : r <:+ split.str := (List.suffix_append _ _).trans hr
    have hturn := skipTurn_match hr hroom (.inl hshort)
    have hend : split.str.length - (split.sep ++ r).length + split.sep.length =
        split.str.length - r.length := by
      have hlen := hr.length_le
      rw [List.length_append] at *
      omega
    rw [if_pos hpre, hend] at hturn
    rw [Pieces.skip_append hsep]
    exact (Comp.loop_next hturn _).mpr (ih hrest (not_stuck hsep hshort r))

/-! ### The tokens that are not empty -/

/-- The tokens that are not empty, if the separators can be passed wherever a token starts. -/
def nonEmpty (sep s : Str) : Option (List Str) :=
  if ∃ r ∈ Pieces.starts sep s, Stuck sep r then none
  else some ((Pieces.pieces sep s).filter (· ≠ []))

lemma nonEmpty_stuck (h : Stuck sep s) : nonEmpty sep s = none := by
  have hmem : s ∈ Pieces.starts sep s := List.mem_of_mem_head? (Pieces.head?_starts sep s)
  exact if_pos ⟨s, hmem, h⟩

lemma nonEmpty_last (h : ¬ Stuck sep s) (hcut : Pieces.cut sep s = none) :
    nonEmpty sep s = some ([s].filter (· ≠ [])) := by
  rw [nonEmpty, Pieces.starts_of_cut_eq_none hcut, Pieces.pieces_of_cut_eq_none hcut,
    if_neg (by simpa using h)]

lemma nonEmpty_cut (h : ¬ Stuck sep s) (hcut : Pieces.cut sep s = some (t, r)) :
    nonEmpty sep s = (nonEmpty sep r).map ([t].filter (· ≠ []) ++ ·) := by
  rw [nonEmpty, nonEmpty, Pieces.starts_of_cut hcut, Pieces.pieces_of_cut hcut]
  simp only [List.mem_cons, exists_eq_or_imp, h, false_or]
  split
  · rfl
  · rw [Option.map_some, ← List.filter_append]
    rfl

lemma not_stuck_skip (hsep : sep ≠ []) (h : ¬ Stuck sep s) : ¬ Stuck sep (Pieces.skip sep s) := by
  induction s using Pieces.skip_induction hsep with
  | stop s hpre => rwa [Pieces.skip_eq_self hpre]
  | next s ih =>
    rw [Pieces.skip_append hsep]
    exact ih (not_stuck hsep (length_lt_of_not_stuck h) s)

/-- The separators that are passed stand before empty tokens. -/
lemma nonEmpty_skip (hsep : sep ≠ []) (h : ¬ Stuck sep s) :
    nonEmpty sep (Pieces.skip sep s) = nonEmpty sep s := by
  induction s using Pieces.skip_induction hsep with
  | stop s hpre => rw [Pieces.skip_eq_self hpre]
  | next s ih =>
    rw [Pieces.skip_append hsep, nonEmpty_cut h (Pieces.cut_append hsep s),
      ih (not_stuck hsep (length_lt_of_not_stuck h) s)]
    simp

lemma nonEmpty_nil (h : ¬ Stuck sep []) : nonEmpty sep [] = some [] :=
  nonEmpty_last h (Pieces.cut_nil sep)

/-! ### The walk -/

section Skip

variable (hskip : split.skipEmpty = true)

include hskip

/-- Behind the separators the next tokens are the ones that are not empty. By induction on what is
left. -/
lemma collect_skip (hr : r <:+ split.str) (hne : r ≠ []) (hpre : ¬ split.sep <+: r)
    (h : ¬ Stuck split.sep r) (cur : Str) (ts : List Str) :
    ((ConstIterator.before split cur r).next >>= fun it => collect it ts).Denotes
      ((nonEmpty split.sep r).map (ts ++ ·)) := by
  have hsep : split.sep ≠ [] := fun hempty => h (hempty ▸ stuck_nil r)
  induction hn : r.length using Nat.strong_induction_on generalizing r cur ts with
  | _ n ih =>
    subst hn
    rw [ConstIterator.next_before hr]
    cases hcut : Pieces.cut split.sep r with
    | none =>
      rw [nonEmpty_last h hcut]
      simpa [hne] using (collect_last split r ts).denotes
    | some pair =>
      obtain ⟨t, r'⟩ := pair
      have ht : t ≠ [] := by
        rintro rfl
        exact hpre ⟨r', (Pieces.eq_append_of_cut hcut).symm⟩
      have hr' := (Pieces.suffix_of_cut hcut).trans hr
      simp only [hskip, if_true]
      rw [nonEmpty_cut h hcut, bind_assoc]
      by_cases hstuck : Stuck split.sep r'
      · rw [nonEmpty_stuck hstuck]
        exact (skipSeparators_stuck hr' hstuck).bind_none
      · refine ((skipSeparators_eq hr' hstuck).bind _).denotes ?_
        rw [← nonEmpty_skip hsep hstuck]
        have hq := (Pieces.suffix_skip hsep r').trans hr'
        have hlen := hq.length_le
        have hfree := not_stuck_skip hsep hstuck
        have hless := (Pieces.suffix_skip hsep r').length_le.trans_lt (Pieces.length_of_cut hcut)
        have hstart := Pieces.not_prefix_skip hsep r'
        generalize Pieces.skip split.sep r' = q at *
        by_cases hqne : q = []
        · subst hqne
          rw [nonEmpty_nil hfree, List.length_nil, Nat.sub_zero, if_pos rfl, pure_bind]
          simpa [ht] using (collect_last split t ts).denotes
        · have hpos := List.length_pos_iff.mpr hqne
          rw [if_neg (by omega), pure_bind]
          refine (collect_some t _ ts).denotes ?_
          have key := ih _ hless hq hqne hstart hfree t (ts ++ [t]) rfl
          have hmap : (nonEmpty split.sep q).map (ts ++ [t] ++ ·) =
              ((nonEmpty split.sep q).map ([t].filter (· ≠ []) ++ ·)).map (ts ++ ·) := by
            simp [ht, Function.comp_def]
          rwa [hmap] at key

/-- The whole walk. A string of separators alone has one empty token. -/
lemma tokens_skip :
    split.tokens.Denotes
      (if Stuck split.sep split.str then none
        else if Pieces.skip split.sep split.str = [] then some [[]]
        else nonEmpty split.sep split.str) := by
  have hself := List.suffix_refl split.str
  have htokens : split.tokens = split.skipSeparators (split.str.length - split.str.length) >>=
      fun end_ => ConstIterator.next ⟨some split, [], some end_⟩ >>= fun it => collect it [] := by
    rw [tokens, begin, hskip, Nat.sub_self]
    simp
  rw [htokens]
  split
  case isTrue hstuck => exact (skipSeparators_stuck hself hstuck).bind_none
  case isFalse hstuck =>
    have hsep : split.sep ≠ [] := fun hempty => hstuck (hempty ▸ stuck_nil _)
    have hq := Pieces.suffix_skip hsep split.str
    refine ((skipSeparators_eq hself hstuck).bind _).denotes ?_
    show ((ConstIterator.before split [] _).next >>= _).Denotes _
    split
    case isTrue hnil =>
      have hfirst := @ConstIterator.next_before split _ [] hq
      rw [hnil, Pieces.cut_nil] at hfirst
      rw [hnil, hfirst]
      exact (collect_last split [] []).denotes
    case isFalse hne =>
      rw [← nonEmpty_skip hsep hstuck]
      have key := collect_skip hskip hq hne (Pieces.not_prefix_skip hsep _)
        (not_stuck_skip hsep hstuck) [] []
      simpa using key

end Skip

/-! ### Where the walk ends -/

lemma nonEmpty_ne_none_iff :
    nonEmpty sep s ≠ none ↔ ∀ r ∈ Pieces.starts sep s, ¬ Stuck sep r := by
  rw [nonEmpty]
  split
  case isTrue h => simpa using h
  case isFalse h => simpa using h

/-- The walk ends when the separators can be passed wherever a token starts. -/
theorem tokens_halts_iff (s sep : Str) :
    (tokens ⟨s, sep, true⟩).Halts ↔ ∀ r ∈ Pieces.starts sep s, ¬ Stuck sep r := by
  have hdenotes := @tokens_skip ⟨s, sep, true⟩ rfl
  rw [hdenotes.halts_iff, ← nonEmpty_ne_none_iff]
  by_cases hstuck : Stuck sep s
  · simp [hstuck, nonEmpty_stuck hstuck]
  · have hsep : sep ≠ [] := fun hempty => hstuck (hempty ▸ stuck_nil s)
    by_cases hnil : Pieces.skip sep s = []
    · have hfree := not_stuck_skip hsep hstuck
      rw [hnil] at hfree
      rw [← nonEmpty_skip hsep hstuck, hnil, nonEmpty_nil hfree]
      simp [hstuck]
    · simp [hstuck, hnil]

/-- The empty separator, of which the source says that it divides a string into characters. -/
theorem tokens_empty_separator : ¬ (tokens ⟨Libept.str "ab", [], true⟩).Halts := by
  have hdenotes := @tokens_skip ⟨Libept.str "ab", [], true⟩ rfl
  rw [if_pos (stuck_nil _)] at hdenotes
  exact fun hhalts => hdenotes.halts_iff.mp hhalts rfl

/-! ### What the tokens are -/

lemma filter_ne_empty (ts : List Str) : ts.filter (· ≠ []) ≠ [[]] := by
  intro h
  have hmem : [] ∈ ts.filter (· ≠ []) := h ▸ List.mem_singleton_self []
  simp at hmem

/-- The tokens are the ones that are not empty, when there is one and the walk ends. -/
theorem tokens_skip_iff (s sep : Str) (hsep : sep ≠ []) :
    (∃ ts, (tokens ⟨s, sep, false⟩).Returns ts ∧
        (tokens ⟨s, sep, true⟩).Returns (ts.filter (· ≠ []))) ↔
      (¬ ∃ n, s = (List.replicate n sep).flatten) ∧
        ∀ r ∈ Pieces.starts sep s, ¬ Stuck sep r := by
  have hdenotes := @tokens_skip ⟨s, sep, true⟩ rfl
  have hplain := @tokens_plain ⟨s, sep, false⟩ rfl
  rw [← Pieces.skip_eq_nil_iff hsep, ← nonEmpty_ne_none_iff]
  constructor
  · rintro ⟨ts, hts, hskip⟩
    obtain rfl := hts.unique hplain
    have hresult := (hdenotes _).mp hskip
    split_ifs at hresult with hstuck hnil
    · exact absurd (Option.some.inj hresult).symm (filter_ne_empty _)
    · exact ⟨hnil, by simp [hresult]⟩
  · rintro ⟨hne, hfree⟩
    have hstuck : ¬ Stuck sep s := fun h => hfree (nonEmpty_stuck h)
    refine ⟨_, hplain, (hdenotes _).mpr ?_⟩
    rw [if_neg hstuck, if_neg hne]
    exact if_neg fun hex => hfree (if_pos hex)

/-- A list with a leading, a doubled and a trailing separator. -/
theorem tokens_skip_commas :
    ∃ ts, (tokens ⟨Libept.str ",a,,b,", Libept.str ",", false⟩).Returns ts ∧
      (tokens ⟨Libept.str ",a,,b,", Libept.str ",", true⟩).Returns (ts.filter (· ≠ [])) := by
  refine (tokens_skip_iff _ (Libept.str ",") (by decide)).mpr ⟨?_, ?_⟩
  · rintro ⟨n, hn⟩
    have hmem : (97 : Byte) ∈ Libept.str ",a,,b," := by decide
    rw [hn, List.mem_flatten] at hmem
    obtain ⟨l, hl, h97⟩ := hmem
    rw [List.eq_of_mem_replicate hl] at h97
    exact absurd h97 (by decide)
  · intro r _
    exact not_stuck (by decide) (by decide) r

/-- The empty string has an empty token. -/
theorem tokens_skip_empty :
    ¬ ∃ ts, (tokens ⟨[], Libept.str ",", false⟩).Returns ts ∧
      (tokens ⟨[], Libept.str ",", true⟩).Returns (ts.filter (· ≠ [])) := by
  rintro ⟨ts, -, hskip⟩
  have hdenotes := @tokens_skip ⟨[], Libept.str ",", true⟩ rfl
  have hstuck : ¬ Stuck (Libept.str ",") [] := not_stuck (by decide) (by decide) []
  rw [if_neg hstuck, if_pos (Pieces.skip_eq_self (by decide))] at hdenotes
  exact filter_ne_empty ts (Option.some.inj ((hdenotes _).mp hskip)).symm

end Libept.Utils.Split
