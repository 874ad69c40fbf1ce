import Libept.Debtags.Coll.TextFormat.Accepted

/-!
# What an element looks like

Whatever is in the stream, the item that `parseElement` gives is an element of the format, or empty
at the end of a line. So `parse` has an item before it collects the first tag, and one of its error
messages cannot be seen.
-/

namespace Libept.TextFormat

open Std Operators

/-! ### The element that is read -/

namespace Scan

variable {x input rest item : Str} {s : Scan} {sep : Option Byte}

/-- From the first character of an element on. By induction on the input. -/
lemma Reads.run (h : Reads x s) (hrun : s.run input = .ok (sep, item, rest)) : IsElement item := by
  induction input generalizing x s with
  | nil =>
    cases hrun
    obtain ⟨-, -, he, -⟩ := h.ending
    exact he
  | cons c input ih =>
    rw [Scan.run] at hrun
    split_ifs at hrun with hnl
    · cases hrun
    · cases hrun
      obtain ⟨-, -, he, -⟩ := h.ending
      exact he
    · cases hturn : s.turn c with
      | error e =>
        rw [hturn] at hrun
        cases hrun
      | ok next =>
        rw [hturn] at hrun
        cases next with
        | none =>
          cases hrun
          obtain ⟨-, -, he, -⟩ := h.back hturn
          exact he
        | some s' => exact ih (h.turn hnl hturn) hrun

/-- There may be nothing on the line but blanks. -/
lemma run_start (hrun : start.run input = .ok (sep, item, rest)) :
    item = [] ∧ (sep = none ∨ sep = some nl) ∨ IsElement item := by
  induction input with
  | nil =>
    cases hrun
    exact .inl ⟨rfl, .inl rfl⟩
  | cons c input ih =>
    by_cases hnl : c = nl
    · subst hnl
      cases hrun
      exact .inl ⟨rfl, .inr rfl⟩
    cases hblank : isblank c with
    | true =>
      have hnext : start.turn c = .ok (some start) := by simp [turn, start, hblank]
      rw [run_next hnl hnext] at hrun
      exact ih hrun
    | false =>
      cases hsep : isSep c with
      | true =>
        simp [Scan.run, turn, start, hnl, hblank, hsep, thrown] at hrun
      | false =>
        rw [run_start_ordinary hnl hblank hsep] at hrun
        exact .inr ((Reads.item (isElement_singleton hnl hblank hsep)).run hrun)

/-- The texts of the exceptions. -/
lemma turn_error {c : Byte} {e : Failure} (h : s.turn c = .error e) :
    e = .runtimeError (str "element cannot start with a separation character") ∨
      e = .runtimeError (str "item is followed by more than one separator characters") := by
  simp only [turn, thrown] at h
  split at h
  · split_ifs at h
    cases h
    exact .inl rfl
  · split_ifs at h
  · split_ifs at h
  · split_ifs at h
    cases h
    exact .inr rfl
  · split_ifs at h

lemma run_error {e : Failure} (h : s.run input = .error e) :
    e ≠ .runtimeError (str "no elements before ':' separator") := by
  induction input generalizing s with
  | nil => cases h
  | cons c input ih =>
    rw [Scan.run] at h
    split_ifs at h
    · cases h
      decide
    · cases hturn : s.turn c with
      | error e' =>
        rw [hturn] at h
        cases h
        rcases turn_error hturn with rfl | rfl <;> decide
      | ok next =>
        rw [hturn] at h
        cases next with
        | none => cases h
        | some s' => exact ih h

end Scan

/-! ### The lines that are read -/

/-- The states in which the loop of `parse` calls `parseElement`. -/
inductive Reached (input : Str) (out : Fast) : Str → Line → Fast → Prop where
  | start : Reached input out input Line.start out
  | line {rest rest' item : Str} {line : Line} {out₁ out₂ : Fast}
      (h : Reached input out rest line out₁)
      (helement : parseElement rest = .ok (some nl, item, rest'))
      (hfinish : (line.add item).finish out₁ = (.ok (), out₂)) :
      Reached input out rest' Line.start out₂
  | tags {rest rest' item : Str} {line : Line} {out₁ : Fast}
      (h : Reached input out rest line out₁)
      (helement : parseElement rest = .ok (some colon, item, rest'))
      (htags : line.inTags = false) :
      Reached input out rest' { line.add item with inTags := true } out₁
  | element {rest rest' item : Str} {sep : Byte} {line : Line} {out₁ : Fast}
      (h : Reached input out rest line out₁)
      (helement : parseElement rest = .ok (some sep, item, rest'))
      (hnl : sep ≠ nl) (hcolon : sep ≠ colon) :
      Reached input out rest' (line.add item) out₁

variable {input rest item : Str} {out out' : Fast} {line : Line}

/-- From such a state on the loop does what it does from the start. -/
lemma Reached.parseLoop_eq (h : Reached input out rest line out') :
    parseLoop rest line out' = parse input out := by
  induction h with
  | start => rfl
  | line h helement hfinish ih =>
    rw [TextFormat.parseLoop_eq, helement] at ih
    simpa only [if_pos, hfinish] using ih
  | tags h helement htags ih =>
    rw [TextFormat.parseLoop_eq, helement] at ih
    simpa [htags, show colon ≠ nl by decide] using ih
  | element h helement hnl hcolon ih =>
    rw [TextFormat.parseLoop_eq, helement] at ih
    simpa only [if_neg hnl, if_neg hcolon] using ih

/-- What holds of a line while it is read: there is an item before the colon, and there are tags
behind it only. -/
structure Line.HasItems (line : Line) : Prop where
  items : line.inTags = true → line.itemset ≠ ∅
  tags : line.tagset ≠ ∅ → line.inTags = true

namespace Line

lemma orAssignItem_ne_empty (s : StrSet) (item : Str) : orAssignItem s item ≠ ∅ := by
  intro h
  have hmem : item ∈ orAssignItem s item := mem_orAssignItem.mpr (.inr rfl)
  rw [h] at hmem
  exact ExtTreeSet.not_mem_empty hmem

lemma hasItems_start : Line.start.HasItems :=
  ⟨fun h => absurd h Bool.false_ne_true, fun h => absurd rfl h⟩

/-- An element that is not empty is an item before the colon. -/
lemma itemset_add_ne_empty (hitem : item ≠ []) (h : line.inTags = false) :
    (line.add item).itemset ≠ ∅ := by
  simpa [add, hitem, h] using orAssignItem_ne_empty _ item

lemma HasItems.add (h : line.HasItems) (item : Str) : (line.add item).HasItems := by
  rw [Line.add]
  split_ifs with hempty htags
  · exact h
  · exact ⟨h.items, fun _ => htags⟩
  · exact ⟨fun hin => absurd hin htags, h.tags⟩

lemma HasItems.tags_items (h : line.HasItems) (htags : line.tagset ≠ ∅) : line.itemset ≠ ∅ :=
  h.items (h.tags htags)

end Line

/-- By induction on the elements that were read. -/
lemma Reached.hasItems (h : Reached input out rest line out') : line.HasItems := by
  induction h with
  | start => exact Line.hasItems_start
  | line => exact Line.hasItems_start
  | @tags rest rest' item line out₁ h helement htags ih =>
    have hitem : item ≠ [] := by
      rcases Scan.run_start helement with ⟨-, hsep⟩ | he
      · exact absurd hsep (by decide)
      · exact he.ne_nil
    exact ⟨fun _ => Line.itemset_add_ne_empty hitem htags, fun _ => rfl⟩
  | element h helement hnl hcolon ih => exact ih.add _

/-- The message is not one of the scanner, and the sets of a line do not give rise to it. By
induction on what is left in the stream. -/
lemma Reached.parseLoop_ne (h : Reached input out rest line out') :
    (parseLoop rest line out').1 ≠ thrown "no elements before ':' separator" := by
  induction hn : rest.length using Nat.strong_induction_on generalizing rest line out' with
  | _ n ih =>
    subst hn
    rw [TextFormat.parseLoop_eq]
    cases helement : parseElement rest with
    | error e =>
      intro herror
      cases herror
      exact Scan.run_error helement rfl
    | ok element =>
      obtain ⟨sep, item, rest'⟩ := element
      obtain ⟨out₂, hfinish⟩ := Line.finish_ok (h.hasItems.add item).tags_items out'
      cases sep with
      | none => simp [hfinish, thrown]
      | some sep =>
        have hlen := length_of_parseElement helement
        by_cases hnl : sep = nl
        · subst hnl
          simpa [hfinish] using ih _ hlen (h.line helement hfinish) rfl
        by_cases hcolon : sep = colon
        · subst hcolon
          cases htags : line.inTags with
          | true =>
            have hne :
                str "separator ':' appears twice" ≠ str "no elements before ':' separator" := by
              decide
            simpa [hnl, htags, thrown] using hne
          | false => simpa [hnl, htags] using ih _ hlen (h.tags helement htags) rfl
        · simpa [hnl, hcolon] using ih _ hlen (h.element helement hnl hcolon) rfl

/-- An element is shaped as in the format, wherever it is read, and empty at the end of a line
only. So no tag is collected before an item, and the error for that is never raised. -/
theorem parse_elements :
    (∀ input sep item rest, parseElement input = .ok (sep, item, rest) →
        (item = [] ∨ IsElement item) ∧ (sep = some colon ∨ sep = some comma → item ≠ [])) ∧
      (∀ input out rest line out', Reached input out rest line out' →
        parseLoop rest line out' = parse input out ∧
          ∀ sep item rest', parseElement rest = .ok (sep, item, rest') →
            (line.add item).tagset ≠ ∅ → (line.add item).itemset ≠ ∅) ∧
      ∀ input out, (parse input out).1 ≠ thrown "no elements before ':' separator" := by
  refine ⟨?_, ?_, fun input out => Reached.start.parseLoop_ne⟩
  · intro input sep item rest h
    rcases Scan.run_start h with ⟨hempty, rfl | rfl⟩ | he
    · exact ⟨.inl hempty, fun h => absurd h (by decide)⟩
    · exact ⟨.inl hempty, fun h => absurd h (by decide)⟩
    · exact ⟨.inr he, fun _ => he.ne_nil⟩
  · intro input out rest line out' h
    exact ⟨h.parseLoop_eq, fun _ item _ _ => (h.hasItems.add item).tags_items⟩

end Libept.TextFormat
