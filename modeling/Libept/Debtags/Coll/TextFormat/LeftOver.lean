import Libept.Debtags.Coll.TextFormat.Accepted

/-!
# Separators left over

A newline lets a colon pass behind the last element of a line. The format has one there behind the
items; more separator characters, or a colon behind the tags, are dropped without an error.
-/

namespace Libept.TextFormat

variable {l s w : Str} {is ts es : List Str} {c : Byte}

/-! ### Sound lines -/

/-- A line as the format has it, perhaps with a colon behind the items and no tags. -/
inductive IsSoundLine : Str → Prop
  | blank {b : Str} (hb : b.all isblank = true) : IsSoundLine b
  | items {a s b : Str} {is : List Str} (ha : a.all isblank = true) (hs : IsElements s is)
    (hb : b.all isblank = true) : IsSoundLine (a ++ (s ++ b))
  | colon {a s d b : Str} {is : List Str} (ha : a.all isblank = true) (hs : IsElements s is)
    (hd : d.all isblank = true) (hb : b.all isblank = true) :
    IsSoundLine (a ++ (s ++ (d ++ colon :: b)))
  | tagged {a s sep r b : Str} {is ts : List Str} (ha : a.all isblank = true)
    (hs : IsElements s is) (hsep : IsSeparator colon sep) (hr : IsElements r ts)
    (hb : b.all isblank = true) : IsSoundLine (a ++ (s ++ (sep ++ (r ++ b))))

/-- Behind the items there are a colon and more separator characters, or behind the tags there is
a colon. -/
inductive HasLeftOver : Str → Prop
  | items {a s w : Str} {is : List Str} (ha : a.all isblank = true) (hs : IsElements s is)
    (hne : w ≠ []) (hw : w.all isSep = true) : HasLeftOver (a ++ (s ++ colon :: w))
  | tags {a s sep r w : Str} {is ts : List Str} (ha : a.all isblank = true)
    (hs : IsElements s is) (hsep : IsSeparator colon sep) (hr : IsElements r ts)
    (hw : IsEnding colon w) : HasLeftOver (a ++ (s ++ (sep ++ (r ++ w))))

lemma HasLeftOver.isRead (h : HasLeftOver l) : IsRead colon l := by
  cases h with
  | items ha hs hne hw => exact .fields ha (.items hs) (.run (by decide) hw)
  | @tags a s sep r w is ts ha hs hsep hr hw =>
    have hread := IsRead.fields ha (.tagged hs hsep hr) hw
    rwa [List.append_assoc, List.append_assoc] at hread

/-- Without a comma left over, the line is as the format has it, or has another separator left
over. -/
lemma IsRead.sound_or_leftOver (h : IsRead c l) (hc : c ≠ comma) :
    IsSoundLine l ∨ HasLeftOver l := by
  cases h with
  | blank hb => exact .inl (.blank hb)
  | @fields a s w is ts c ha hs hw =>
    cases hs with
    | items hs =>
      cases hw with
      | blanks hw => exact .inl (.items ha hs hw)
      | @run c w hcsep hw =>
        obtain rfl := (isSep_iff.mp hcsep).resolve_right hc
        rcases eq_or_ne w [] with rfl | hne
        · exact .inl (.colon (d := []) ha hs rfl rfl)
        · exact .inr (.items ha hs hne hw)
      | separator hcsep hw =>
        obtain rfl := (isSep_iff.mp hcsep).resolve_right hc
        cases hw with
        | behind hne hb => exact .inl (.colon (d := []) ha hs rfl hb)
        | before hne ha' hb => exact .inl (.colon ha hs ha' hb)
    | @tagged s sep r is ts hs hsep hr =>
      rw [List.append_assoc, List.append_assoc]
      rcases hw.sepchar with rfl | rfl | rfl
      · cases hw with
        | blanks hw => exact .inl (.tagged ha hs hsep hr hw)
        | run hcsep hw => cases hcsep
        | separator hcsep hw => cases hcsep
      · exact .inr (.tags ha hs hsep hr hw)
      · exact absurd rfl hc

/-! ### Where the fields end -/

lemma IsElement.exists_last {e : Str} (he : IsElement e) :
    ∃ r d, e = r ++ [d] ∧ isblank d = false ∧ isSep d = false := by
  refine ⟨e.dropLast, e.getLast he.ne_nil, (List.dropLast_concat_getLast he.ne_nil).symm, ?_⟩
  exact he.stop _ (List.getLast_mem_getLast? he.ne_nil)

/-- Elements end with an ordinary character. -/
lemma IsElements.exists_last (hs : IsElements s es) :
    ∃ r d, s = r ++ [d] ∧ isblank d = false ∧ isSep d = false := by
  induction hs with
  | one he => exact he.exists_last
  | @cons e sep r es he hsep hr ih =>
    obtain ⟨r', d, rfl, hd⟩ := ih
    exact ⟨e ++ (sep ++ r'), d, by simp, hd⟩

lemma IsFields.exists_last (hs : IsFields s is ts) :
    ∃ r d, s = r ++ [d] ∧ isblank d = false ∧ isSep d = false := by
  cases hs with
  | items hs => exact hs.exists_last
  | @tagged s sep r is ts hs hsep hr =>
    obtain ⟨r', d, rfl, hd⟩ := hr.exists_last
    exact ⟨s ++ (sep ++ r'), d, by simp, hd⟩

/-- What is behind the last ordinary character of a line tells where its fields end. -/
lemma IsFields.split {a a' s' w' : Str} {is' ts' : List Str} (hs : IsFields s is ts)
    (hs' : IsFields s' is' ts') (hw : ∀ d ∈ w, isblank d = true ∨ isSep d = true)
    (hw' : ∀ d ∈ w', isblank d = true ∨ isSep d = true)
    (h : a ++ (s ++ w) = a' ++ (s' ++ w')) : a ++ s = a' ++ s' ∧ w = w' := by
  obtain ⟨r, d, rfl, hd⟩ := hs.exists_last
  obtain ⟨r', d', rfl, hd'⟩ := hs'.exists_last
  have hrev : w.reverse ++ d :: (a ++ r).reverse = w'.reverse ++ d' :: (a' ++ r').reverse := by
    simpa using congrArg List.reverse h
  obtain ⟨hww, rfl, hrest⟩ := Lines.append_cons_inj (fun d hd => hw d (List.mem_reverse.mp hd))
    (fun d hd => hw' d (List.mem_reverse.mp hd)) (by simp [hd]) (by simp [hd']) hrev
  rw [← List.append_assoc, ← List.append_assoc, List.reverse_injective hrest]
  exact ⟨rfl, List.reverse_injective hww⟩

lemma IsFields.isFormatLine {a : Str} (hs : IsFields s is ts) (ha : a.all isblank = true) :
    IsFormatLine (a ++ s) is ts := by
  cases hs with
  | items hs => simpa using IsFormatLine.items (b := []) ha hs rfl
  | tagged hs hsep hr => simpa using IsFormatLine.tagged (b := []) ha hs hsep hr rfl

/-- The fields of a line tell whether it has tags. -/
lemma IsFormatLine.tags_eq_nil {is' ts' : List Str} (hl : IsFormatLine l is [])
    (hl' : IsFormatLine l is' ts') : ts' = [] := by
  obtain ⟨line, hline, -, htags, -⟩ := readLine_format hl
  obtain ⟨line', hline', -, htags', -⟩ := readLine_format hl'
  obtain rfl := Except.ok.inj (hline.symm.trans hline')
  apply List.eq_nil_iff_forall_not_mem.mpr
  intro t ht
  exact List.not_mem_nil ((htags t).mp ((htags' t).mpr ht))

/-! ### Lines with a separator left over -/

/-- What a line with a separator left over has behind its fields. -/
lemma HasLeftOver.exists_fields (h : HasLeftOver l) :
    ∃ a s w is ts, l = a ++ (s ++ w) ∧ a.all isblank = true ∧ IsFields s is ts ∧
      IsEnding colon w ∧ (ts = [] → ∃ u, w = colon :: u ∧ u ≠ [] ∧ u.all isSep = true) := by
  cases h with
  | items ha hs hne hw =>
    exact ⟨_, _, _, _, _, rfl, ha, .items hs, .run (by decide) hw, fun _ => ⟨_, rfl, hne, hw⟩⟩
  | @tags a s sep r w is ts ha hs hsep hr hw =>
    exact ⟨a, s ++ (sep ++ r), w, is, ts, by simp, ha, .tagged hs hsep hr, hw,
      fun hnil => absurd hnil hr.ne_nil⟩

lemma IsEnding.colon_mem (hw : IsEnding colon w) : colon ∈ w := by
  cases hw with
  | run hc hw => simp
  | separator hc hw =>
    cases hw with
    | behind => simp
    | before => simp

lemma HasLeftOver.colon_mem (h : HasLeftOver l) : colon ∈ l := by
  obtain ⟨a, s, w, is, ts, rfl, -, -, hw, -⟩ := h.exists_fields
  simp [hw.colon_mem]

/-- A single separator character is an ending, with or without blanks on either side. -/
lemma isEnding_single {d b : Str} (hc : isSep c = true) (hd : d.all isblank = true)
    (hb : b.all isblank = true) : IsEnding c (d ++ c :: b) := by
  rcases d with _ | ⟨x, d⟩
  · rcases b with _ | ⟨y, b⟩
    · exact .run hc rfl
    · exact .separator hc (.behind (by simp) hb)
  · exact .separator hc (.before (by simp) hd hb)

/-- A line with a separator left over is not as the format has it. -/
lemma HasLeftOver.not_isSoundLine (h : HasLeftOver l) : ¬IsSoundLine l := by
  have hmem := h.colon_mem
  obtain ⟨a, s, w, is, ts, rfl, ha, hs, hw, hleft⟩ := h.exists_fields
  -- blanks alone cannot be what is left over
  have hblank : w.all isblank = true → False := by
    intro hb
    have := List.all_eq_true.mp hb colon hw.colon_mem
    simp at this
  intro hl
  generalize heq : a ++ (s ++ w) = l at hl
  cases hl with
  | blank hb =>
    have := List.all_eq_true.mp hb colon (heq ▸ hmem)
    simp at this
  | @items a' s' b is' ha' hs' hb =>
    obtain ⟨-, rfl⟩ := hs.split (.items hs') hw.all (IsEnding.blanks hb).all heq
    exact hblank hb
  | @tagged a' s' sep r b is' ts' ha' hs' hsep hr hb =>
    obtain ⟨-, rfl⟩ := hs.split (.tagged hs' hsep hr) hw.all (IsEnding.blanks hb).all
      (by simpa using heq)
    exact hblank hb
  | @colon a' s' d b is' ha' hs' hd hb =>
    obtain ⟨hfields, rfl⟩ := hs.split (.items hs') hw.all
      (isEnding_single (by decide) hd hb).all heq
    obtain rfl := IsFormatLine.tags_eq_nil ((IsFields.items hs').isFormatLine ha')
      (hfields ▸ hs.isFormatLine ha)
    obtain ⟨u, hu, hne, hsep⟩ := hleft rfl
    obtain ⟨x, u, rfl⟩ := List.exists_cons_of_ne_nil hne
    rcases d with _ | ⟨y, d⟩
    · obtain rfl := (List.cons.inj hu).2
      rw [List.all_cons, Bool.and_eq_true] at hb hsep
      rw [isblank_of_isSep hsep.1] at hb
      cases hb.1
    · obtain rfl := (List.cons.inj hu).1
      rw [List.all_cons, isblank_colon] at hd
      cases hd

/-- Every line that is accepted is as the format has it, exactly if no separator is left over. -/
theorem parse_sound_iff (hl : nl ∉ l) (out : Fast) :
    ((parse (l ++ [nl]) out).1 = .ok () → IsSoundLine l) ↔ ¬HasLeftOver l := by
  rw [parse_nl_ok_iff hl]
  constructor
  · intro hsound hleft
    exact hleft.not_isSoundLine (hsound ⟨colon, by decide, hleft.isRead⟩)
  · rintro hleft ⟨c, hc, hread⟩
    exact (hread.sound_or_leftOver hc).resolve_right hleft

theorem parse_sound_sample :
    (parse (str "a, b" ++ [nl]) Fast.empty).1 = .ok () ∧ IsSoundLine (str "a, b") := by
  have ha : IsElement (str "a") := isElement_singleton (by decide) (by decide) (by decide)
  have hb : IsElement (str "b") := isElement_singleton (by decide) (by decide) (by decide)
  have hcomma : IsSeparator comma (str ", ") := .behind (b := str " ") (by decide) (by decide)
  have hread : IsRead 0 (str "a, b") :=
    .fields (a := []) (w := []) rfl (.items (.cons ha hcomma (.one hb))) (.blanks rfl)
  have hok : (parse (str "a, b" ++ [nl]) Fast.empty).1 = .ok () :=
    (parse_nl_ok_iff (by decide) _).mpr ⟨0, by decide, hread⟩
  have hleft : ¬HasLeftOver (str "a, b") := fun h => absurd h.colon_mem (by decide)
  exact ⟨hok, (parse_sound_iff (by decide) Fast.empty).mpr hleft hok⟩

/-- A colon behind a tag, and two colons behind an item, are dropped. -/
theorem parse_drops_separators :
    ((parse (str "a: t:" ++ [nl]) Fast.empty).1 = .ok () ∧ ¬IsSoundLine (str "a: t:")) ∧
      (parse (str "a::" ++ [nl]) Fast.empty).1 = .ok () ∧ ¬IsSoundLine (str "a::") := by
  have ha : IsElements (str "a") [str "a"] :=
    .one (isElement_singleton (by decide) (by decide) (by decide))
  have ht : IsElements (str "t") [str "t"] :=
    .one (isElement_singleton (by decide) (by decide) (by decide))
  have hcolon : IsSeparator colon (str ": ") := .behind (b := str " ") (by decide) (by decide)
  have htags : HasLeftOver (str "a: t:") :=
    .tags (a := []) (w := [colon]) rfl ha hcolon ht (.run (by decide) rfl)
  have hitems : HasLeftOver (str "a::") :=
    .items (a := []) (w := [colon]) rfl ha (by decide) (by decide)
  refine ⟨⟨?_, htags.not_isSoundLine⟩, ?_, hitems.not_isSoundLine⟩
  · exact (parse_nl_ok_iff (by decide) _).mpr ⟨colon, by decide, htags.isRead⟩
  · exact (parse_nl_ok_iff (by decide) _).mpr ⟨colon, by decide, hitems.isRead⟩

end Libept.TextFormat
