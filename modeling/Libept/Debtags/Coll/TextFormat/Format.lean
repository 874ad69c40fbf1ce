import Libept.Debtags.Coll.TextFormat.Lines

/-!
# The documented format

Lines such as `item1, item2: tag1, tag2`: elements, separators with blanks around them, and what
`parse` makes of a file of such lines. Separator characters may stand inside an element, so the
scanner finds the end of an element only by what follows a run of them.
-/

namespace Libept.TextFormat

open Std Fast Operators

/-! ### The format -/

/-- An element: no blank or separator character at its ends, and none next to each other. -/
structure IsElement (e : Str) : Prop where
  ne_nil : e ≠ []
  no_nl : nl ∉ e
  start : ∀ c ∈ e.head?, isblank c = false ∧ isSep c = false
  stop : ∀ c ∈ e.getLast?, isblank c = false ∧ isSep c = false
  apart : e.IsChain fun a b =>
    ¬(isSep a = true ∧ isblank b = true) ∧ ¬(isblank a = true ∧ isSep b = true)

/-- The character `c` with blanks behind it, or with blanks before it. -/
inductive IsSeparator (c : Byte) : Str → Prop
  | behind {b : Str} (hne : b ≠ []) (hb : b.all isblank = true) : IsSeparator c (c :: b)
  | before {a b : Str} (hne : a ≠ []) (ha : a.all isblank = true) (hb : b.all isblank = true) :
    IsSeparator c (a ++ c :: b)

/-- Elements divided by comma separators. -/
inductive IsElements : Str → List Str → Prop
  | one {e : Str} (he : IsElement e) : IsElements e [e]
  | cons {e s r : Str} {es : List Str} (he : IsElement e) (hs : IsSeparator comma s)
    (hr : IsElements r es) : IsElements (e ++ (s ++ r)) (e :: es)

/-- A line of the format, with the items and the tags on it. -/
inductive IsFormatLine : Str → List Str → List Str → Prop
  | blank {b : Str} (hb : b.all isblank = true) : IsFormatLine b [] []
  | items {a b s : Str} {is : List Str} (ha : a.all isblank = true) (hs : IsElements s is)
    (hb : b.all isblank = true) : IsFormatLine (a ++ (s ++ b)) is []
  | tagged {a b s sep r : Str} {is ts : List Str} (ha : a.all isblank = true)
    (hs : IsElements s is) (hsep : IsSeparator colon sep) (hr : IsElements r ts)
    (hb : b.all isblank = true) : IsFormatLine (a ++ (s ++ (sep ++ (r ++ b)))) is ts

/-! ### Scanning a character -/

lemma ne_nl_of_isSep {c : Byte} (h : isSep c = true) : c ≠ nl := by
  rintro rfl
  cases h

lemma isblank_of_isSep {c : Byte} (h : isSep c = true) : isblank c = false := by
  rcases (by simpa [isSep] using h : c = colon ∨ c = comma) with rfl | rfl <;> rfl

namespace Scan

variable {s s' : Scan} {c sepchar : Byte} {item sep : Str}

lemma run_next (hc : c ≠ nl) (h : s.turn c = .ok (some s')) (r : Str) :
    s.run (c :: r) = s'.run r := by
  rw [run, if_neg hc, h]

lemma run_back (hc : c ≠ nl) (h : s.turn c = .ok none) (r : Str) :
    s.run (c :: r) = .ok (some s.sepchar, s.item, c :: r) := by
  rw [run, if_neg hc, h]

section Blank

variable (hc : isblank c = true) (r : Str)

include hc

lemma run_item_blank :
    run ⟨.item, item, sep, sepchar⟩ (c :: r) = run ⟨.ispace, item, sep ++ [c], sepchar⟩ r :=
  run_next (ne_nl_of_isblank hc) (by simp [turn, hc]) r

lemma run_ispace_blank :
    run ⟨.ispace, item, sep, sepchar⟩ (c :: r) = run ⟨.ispace, item, sep ++ [c], sepchar⟩ r :=
  run_next (ne_nl_of_isblank hc) (by simp [turn, hc]) r

/-- A blank behind a single separator character. -/
lemma run_isep_blank (d : Byte) :
    run ⟨.isep, item, [d], sepchar⟩ (c :: r) = run ⟨.tspace, item, [d], sepchar⟩ r :=
  run_next (ne_nl_of_isblank hc) (by simp [turn, hc]) r

end Blank

section Separator

variable (hc : isSep c = true) (r : Str)

include hc

lemma run_item_sep :
    run ⟨.item, item, sep, sepchar⟩ (c :: r) = run ⟨.isep, item, sep ++ [c], c⟩ r :=
  run_next (ne_nl_of_isSep hc) (by simp [turn, hc, isblank_of_isSep hc]) r

lemma run_ispace_sep :
    run ⟨.ispace, item, sep, sepchar⟩ (c :: r) = run ⟨.tspace, item, sep, c⟩ r :=
  run_next (ne_nl_of_isSep hc) (by simp [turn, hc, isblank_of_isSep hc]) r

lemma run_isep_sep :
    run ⟨.isep, item, sep, sepchar⟩ (c :: r) = run ⟨.isep, item, sep ++ [c], sepchar⟩ r :=
  run_next (ne_nl_of_isSep hc) (by simp [turn, hc, isblank_of_isSep hc]) r

end Separator

section Ordinary

variable (hc : c ≠ nl) (hblank : isblank c = false) (hsep : isSep c = false) (r : Str)

include hc hblank hsep

lemma run_start_ordinary : start.run (c :: r) = run ⟨.item, [c], [], 0⟩ r :=
  run_next hc (by simp [turn, start, hblank, hsep]) r

lemma run_item_ordinary :
    run ⟨.item, item, sep, sepchar⟩ (c :: r) = run ⟨.item, item ++ [c], sep, sepchar⟩ r :=
  run_next hc (by simp [turn, hblank, hsep]) r

lemma run_ispace_ordinary :
    run ⟨.ispace, item, sep, sepchar⟩ (c :: r) = run ⟨.item, item ++ sep ++ [c], [], sepchar⟩ r :=
  run_next hc (by simp [turn, hblank, hsep]) r

lemma run_isep_ordinary :
    run ⟨.isep, item, sep, sepchar⟩ (c :: r) = run ⟨.item, item ++ sep ++ [c], [], 0⟩ r :=
  run_next hc (by simp [turn, hblank, hsep]) r

end Ordinary

/-! ### Scanning an element -/

/-- Blanks that leave the scanner in its state are skipped. -/
lemma run_skip {b : Str} (hb : b.all isblank = true)
    (hturn : ∀ c, isblank c = true → s.turn c = .ok (some s)) (r : Str) :
    s.run (b ++ r) = s.run r := by
  induction b with
  | nil => rfl
  | cons c b ih =>
    rw [List.all_cons, Bool.and_eq_true] at hb
    rw [List.cons_append, run_next (ne_nl_of_isblank hb.1) (hturn c hb.1), ih hb.2]

lemma run_lspace {b : Str} (hb : b.all isblank = true) (r : Str) :
    start.run (b ++ r) = start.run r :=
  run_skip hb (fun c hc => by simp [turn, start, hc]) r

lemma run_tspace {b : Str} (hb : b.all isblank = true) (r : Str) :
    run ⟨.tspace, item, sep, sepchar⟩ (b ++ r) = run ⟨.tspace, item, sep, sepchar⟩ r :=
  run_skip hb (fun c hc => by simp [turn, hc]) r

/-- Blanks behind an element are collected. -/
lemma run_ispace {b : Str} (hb : b.all isblank = true) (r : Str) :
    run ⟨.ispace, item, sep, sepchar⟩ (b ++ r) = run ⟨.ispace, item, sep ++ b, sepchar⟩ r := by
  induction b generalizing sep with
  | nil => simp
  | cons c b ih =>
    rw [List.all_cons, Bool.and_eq_true] at hb
    rw [List.cons_append, run_ispace_blank hb.1, ih hb.2]
    simp

/-- The rest of an element, from inside it: after an ordinary character, after blanks, and after
separator characters. By induction on the rest, which ends with an ordinary character. -/
lemma run_rest {e : Str} (hne : e ≠ []) (hnl : nl ∉ e)
    (hstop : ∀ c ∈ e.getLast?, isblank c = false ∧ isSep c = false)
    (hapart : e.IsChain fun a b =>
      ¬(isSep a = true ∧ isblank b = true) ∧ ¬(isblank a = true ∧ isSep b = true)) (r : Str) :
    (∀ item, run ⟨.item, item, [], 0⟩ (e ++ r) = run ⟨.item, item ++ e, [], 0⟩ r) ∧
      (∀ item w, (∀ c ∈ e.head?, isSep c = false) →
        run ⟨.ispace, item, w, 0⟩ (e ++ r) = run ⟨.item, item ++ w ++ e, [], 0⟩ r) ∧
      ∀ item w sepchar, (∀ c ∈ e.head?, isblank c = false) →
        run ⟨.isep, item, w, sepchar⟩ (e ++ r) = run ⟨.item, item ++ w ++ e, [], 0⟩ r := by
  induction e with
  | nil => exact absurd rfl hne
  | cons c e ih =>
    have hc : c ≠ nl := fun h => hnl (by simp [h])
    have hsplit : ∀ item : Str, item ++ c :: e = item ++ [c] ++ e := by simp
    cases hblank : isblank c with
    | true =>
      rcases e with _ | ⟨d, e⟩
      · simp [hblank] at hstop
      have hd : isSep d = false := by
        simpa [hblank] using (List.isChain_cons_cons.mp hapart).1.2
      obtain ⟨-, hspace, -⟩ := ih (by simp) (fun h => hnl (List.mem_cons_of_mem _ h))
        (by simpa using hstop) hapart.tail
      have hhead : ∀ x ∈ (d :: e).head?, isSep x = false := by simpa using hd
      refine ⟨fun item => ?_, fun item w _ => ?_, fun item w sepchar h => ?_⟩
      · rw [List.cons_append, run_item_blank hblank, hspace _ _ hhead, hsplit, List.nil_append]
      · rw [List.cons_append, run_ispace_blank hblank, hspace _ _ hhead]
        simp
      · exact absurd hblank (by simpa using h)
    | false =>
      cases hsep : isSep c with
      | false =>
        -- an ordinary character takes all that has been collected into the element
        have hitem : ∀ item : Str,
            run ⟨.item, item ++ [c], [], 0⟩ (e ++ r) = run ⟨.item, item ++ c :: e, [], 0⟩ r := by
          intro item
          rcases e with _ | ⟨d, e⟩
          · simp
          · obtain ⟨hrest, -, -⟩ := ih (by simp) (fun h => hnl (List.mem_cons_of_mem _ h))
              (by simpa using hstop) hapart.tail
            rw [hrest, hsplit]
        refine ⟨fun item => ?_, fun item w _ => ?_, fun item w sepchar _ => ?_⟩
        · rw [List.cons_append, run_item_ordinary hc hblank hsep, hitem]
        · rw [List.cons_append, run_ispace_ordinary hc hblank hsep, hitem]
        · rw [List.cons_append, run_isep_ordinary hc hblank hsep, hitem]
      | true =>
        rcases e with _ | ⟨d, e⟩
        · simp [hsep] at hstop
        have hd : isblank d = false := by
          simpa [hsep] using (List.isChain_cons_cons.mp hapart).1.1
        obtain ⟨-, -, hseps⟩ := ih (by simp) (fun h => hnl (List.mem_cons_of_mem _ h))
          (by simpa using hstop) hapart.tail
        have hhead : ∀ x ∈ (d :: e).head?, isblank x = false := by simpa using hd
        refine ⟨fun item => ?_, fun item w h => ?_, fun item w sepchar _ => ?_⟩
        · rw [List.cons_append, run_item_sep hsep, hseps _ _ _ hhead, hsplit, List.nil_append]
        · exact absurd hsep (by simpa using h)
        · rw [List.cons_append, run_isep_sep hsep, hseps _ _ _ hhead]
          simp

/-- An element with anything behind it. -/
lemma run_element {e : Str} (he : IsElement e) (r : Str) :
    start.run (e ++ r) = run ⟨.item, e, [], 0⟩ r := by
  obtain ⟨hne, hnl, hstart, hstop, hapart⟩ := he
  rcases e with _ | ⟨c, e⟩
  · exact absurd rfl hne
  have hc : c ≠ nl := fun h => hnl (by simp [h])
  obtain ⟨hblank, hsep⟩ : isblank c = false ∧ isSep c = false := by simpa using hstart
  rw [List.cons_append, run_start_ordinary hc hblank hsep]
  rcases e with _ | ⟨d, e⟩
  · rfl
  · exact (run_rest (by simp) (fun h => hnl (List.mem_cons_of_mem _ h)) (by simpa using hstop)
      hapart.tail r).1 [c]

/-- Behind a separator, the scanner stops at the next element. -/
lemma run_tspace_element {e : Str} (he : IsElement e) (r : Str) :
    run ⟨.tspace, item, sep, sepchar⟩ (e ++ r) = .ok (some sepchar, item, e ++ r) := by
  obtain ⟨hne, hnl, hstart, -, -⟩ := he
  rcases e with _ | ⟨c, e⟩
  · exact absurd rfl hne
  have hc : c ≠ nl := fun h => hnl (by simp [h])
  have hblank : isblank c = false := (hstart c rfl).1
  exact run_back hc (by simp [turn, hblank]) _

/-- A separator behind an element is skipped. -/
lemma run_isSeparator {w : Str} (hc : isSep c = true) (hw : IsSeparator c w) (e : Str) :
    ∃ sep, ∀ r, run ⟨.item, e, [], 0⟩ (w ++ r) = run ⟨.tspace, e, sep, c⟩ r := by
  cases hw with
  | @behind b hne hb =>
    obtain ⟨d, b, rfl⟩ := List.exists_cons_of_ne_nil hne
    rw [List.all_cons, Bool.and_eq_true] at hb
    refine ⟨[c], fun r => ?_⟩
    rw [List.cons_append, List.cons_append, run_item_sep hc, List.nil_append, run_isep_blank hb.1,
      run_tspace hb.2]
  | @before a b hne ha hb =>
    obtain ⟨d, a, rfl⟩ := List.exists_cons_of_ne_nil hne
    rw [List.all_cons, Bool.and_eq_true] at ha
    refine ⟨[d] ++ a, fun r => ?_⟩
    rw [List.append_assoc, List.cons_append, List.cons_append, run_item_blank ha.1,
      run_ispace ha.2, run_ispace_sep hc, run_tspace hb, List.nil_append]

/-- A separator behind an element ends it, when another element follows. -/
lemma run_separator {w : Str} (hc : isSep c = true) (hw : IsSeparator c w) (e : Str) {r : Str}
    (hr : IsElement r) (r' : Str) :
    run ⟨.item, e, [], 0⟩ (w ++ (r ++ r')) = .ok (some c, e, r ++ r') := by
  obtain ⟨sep, hrun⟩ := run_isSeparator hc hw e
  rw [hrun, run_tspace_element hr]

/-- Blanks behind an element leave it as it is. -/
lemma run_blanks {b : Str} (hb : b.all isblank = true) (e : Str) :
    ∃ s : Scan, s.item = e ∧ s.sepchar = 0 ∧
      ∀ r, run ⟨.item, e, [], 0⟩ (b ++ r) = s.run r := by
  rcases b with _ | ⟨d, b⟩
  · exact ⟨_, rfl, rfl, fun r => rfl⟩
  rw [List.all_cons, Bool.and_eq_true] at hb
  refine ⟨⟨.ispace, e, [d] ++ b, 0⟩, rfl, rfl, fun r => ?_⟩
  rw [List.cons_append, run_item_blank hb.1, run_ispace hb.2, List.nil_append]

end Scan

/-! ### Reading a line -/

variable {s : Str} {es : List Str}

lemma IsElements.ne_nil (hs : IsElements s es) : es ≠ [] := by
  cases hs <;> simp

lemma IsElements.isElement (hs : IsElements s es) : ∀ e ∈ es, IsElement e := by
  induction hs with
  | one he => simpa using he
  | cons he _ _ ih => simpa using ⟨he, ih⟩

/-- Elements start with an element. -/
lemma IsElements.exists_isElement (hs : IsElements s es) :
    ∃ e r, IsElement e ∧ s = e ++ r := by
  cases hs with
  | one he => exact ⟨_, [], he, by simp⟩
  | cons he _ _ => exact ⟨_, _, he, rfl⟩

lemma readLine_lspace {a : Str} (ha : a.all isblank = true) (r : Str) (line : Line) :
    readLine (a ++ r) line = readLine r line := by
  rw [readLine_eq, readLine_eq r, parseElement, parseElement, Scan.run_lspace ha]

/-- An element and the separator behind it. -/
lemma readLine_separator {c : Byte} {e sep r : Str} (he : IsElement e) (hc : isSep c = true)
    (hsep : IsSeparator c sep) (hr : IsElements r es) (r' : Str) (line : Line) :
    readLine (e ++ (sep ++ (r ++ r'))) line =
      if c = colon then
        if (line.add e).inTags then thrown "separator ':' appears twice"
        else readLine (r ++ r') { line.add e with inTags := true }
      else readLine (r ++ r') (line.add e) := by
  obtain ⟨e', r, he', rfl⟩ := hr.exists_isElement
  rw [List.append_assoc, readLine_eq, parseElement, Scan.run_element he,
    Scan.run_separator hc hsep e he']
  simp only [if_neg (ne_nl_of_isSep hc)]

/-- Elements divided by commas are added one after another, and what happens behind them depends on
the last one only. -/
lemma readLine_elements (hs : IsElements s es) {r : Str} {k : Line → Except Failure Line}
    (hr : ∀ e line, IsElement e → readLine (e ++ r) line = k (line.add e)) (line : Line) :
    readLine (s ++ r) line = k (es.foldl Line.add line) := by
  induction hs generalizing line with
  | one he => exact hr _ line he
  | cons he hsep hrest ih =>
    rw [List.append_assoc, List.append_assoc, readLine_separator he (by decide) hsep hrest,
      if_neg (by decide), ih, List.foldl_cons]

lemma readLine_line_end {b e : Str} (hb : b.all isblank = true) (he : IsElement e) (line : Line) :
    readLine (e ++ (b ++ [nl])) line = .ok (line.add e) := by
  obtain ⟨s, rfl, hc, hrun⟩ := Scan.run_blanks hb e
  rw [readLine_eq, parseElement, Scan.run_element he, hrun, Scan.run_nl, hc]
  rfl

/-- Elements before the colon are items. -/
lemma foldl_add_items (hes : ∀ e ∈ es, IsElement e) (line : Line) (hline : line.inTags = false) :
    (es.foldl Line.add line).inTags = false ∧ (es.foldl Line.add line).tagset = line.tagset ∧
      ∀ x, x ∈ (es.foldl Line.add line).itemset ↔ x ∈ line.itemset ∨ x ∈ es := by
  induction es generalizing line with
  | nil => simp [hline]
  | cons e es ih =>
    have hadd : line.add e = { line with itemset := orAssignItem line.itemset e } := by
      simp [Line.add, (hes e (by simp)).ne_nil, hline]
    obtain ⟨htags, htagset, hitems⟩ := ih (fun e he => hes e (List.mem_cons_of_mem _ he))
      (line.add e) (by rw [hadd]; exact hline)
    refine ⟨htags, htagset.trans (by rw [hadd]), fun x => (hitems x).trans ?_⟩
    rw [hadd, mem_orAssignItem, List.mem_cons]
    tauto

/-- Elements behind the colon are tags. -/
lemma foldl_add_tags (hes : ∀ e ∈ es, IsElement e) (line : Line) (hline : line.inTags = true) :
    (es.foldl Line.add line).itemset = line.itemset ∧
      ∀ x, x ∈ (es.foldl Line.add line).tagset ↔ x ∈ line.tagset ∨ x ∈ es := by
  induction es generalizing line with
  | nil => simp
  | cons e es ih =>
    have hadd : line.add e = { line with tagset := orAssignItem line.tagset e } := by
      simp [Line.add, (hes e (by simp)).ne_nil, hline]
    obtain ⟨hitemset, htags⟩ := ih (fun e he => hes e (List.mem_cons_of_mem _ he))
      (line.add e) (by rw [hadd]; exact hline)
    refine ⟨hitemset.trans (by rw [hadd]), fun x => (htags x).trans ?_⟩
    rw [hadd, mem_orAssignItem, List.mem_cons]
    tauto

/-- The elements of a line: items, or items and tags. -/
inductive IsFields : Str → List Str → List Str → Prop
  | items {s : Str} {is : List Str} (hs : IsElements s is) : IsFields s is []
  | tagged {s sep r : Str} {is ts : List Str} (hs : IsElements s is)
    (hsep : IsSeparator colon sep) (hr : IsElements r ts) : IsFields (s ++ (sep ++ r)) is ts

/-- The elements of a line are collected, and what happens behind them depends on the last one
only. -/
lemma readLine_fields {is ts : List Str} (hs : IsFields s is ts) :
    ∃ line : Line, (∀ (r : Str) (k : Line → Except Failure Line),
        (∀ e line, IsElement e → readLine (e ++ r) line = k (line.add e)) →
          readLine (s ++ r) Line.start = k line) ∧
      (∀ x, x ∈ line.itemset ↔ x ∈ is) ∧ (∀ x, x ∈ line.tagset ↔ x ∈ ts) ∧ is ≠ [] := by
  cases hs with
  | items hs =>
    obtain ⟨-, htags, hitems⟩ := foldl_add_items hs.isElement Line.start rfl
    refine ⟨is.foldl Line.add Line.start, fun r k hr => readLine_elements hs hr _, ?_, ?_,
      hs.ne_nil⟩
    · simpa [Line.start] using hitems
    · rw [htags]
      simp [Line.start]
  | @tagged s sep s' is ts hs hsep hs' =>
    obtain ⟨hcolon, htags, hitems⟩ := foldl_add_items hs.isElement Line.start rfl
    set items := is.foldl Line.add Line.start
    obtain ⟨hitemset, htagset⟩ := foldl_add_tags hs'.isElement
      ⟨items.itemset, items.tagset, true⟩ rfl
    refine ⟨ts.foldl Line.add ⟨items.itemset, items.tagset, true⟩, fun r k hr => ?_, ?_, ?_,
      hs.ne_nil⟩
    · -- what comes behind the items, as it depends on the sets read so far
      let k' (line : Line) : Except Failure Line :=
        if line.inTags then thrown "separator ':' appears twice"
        else readLine (s' ++ r) ⟨line.itemset, line.tagset, true⟩
      have hk : ∀ e line, IsElement e → readLine (e ++ (sep ++ (s' ++ r))) line =
          k' (line.add e) := fun e line he =>
        (readLine_separator he (by decide) hsep hs' _ line).trans (if_pos rfl)
      rw [List.append_assoc, List.append_assoc, readLine_elements hs hk]
      simp only [k', items, hcolon, Bool.false_eq_true, if_false]
      exact readLine_elements hs' hr _
    · simpa [hitemset, Line.start] using hitems
    · simpa [htags, Line.start] using htagset

/-- A line of the format is made of blanks, or of elements between blanks. -/
lemma IsFormatLine.cases_fields {l : Str} {is ts : List Str} (hl : IsFormatLine l is ts) :
    (l.all isblank = true ∧ is = [] ∧ ts = []) ∨ ∃ a s b, l = a ++ (s ++ b) ∧
      a.all isblank = true ∧ IsFields s is ts ∧ b.all isblank = true := by
  cases hl with
  | blank hb => exact .inl ⟨hb, rfl, rfl⟩
  | @items a b s is ha hs hb => exact .inr ⟨a, s, b, rfl, ha, .items hs, hb⟩
  | @tagged a b s sep r is ts ha hs hsep hr hb =>
    exact .inr ⟨a, s ++ (sep ++ r), b, by simp, ha, .tagged hs hsep hr, hb⟩

/-- A line of the format is read, and has items when it has tags. -/
lemma readLine_format {l : Str} {is ts : List Str} (hl : IsFormatLine l is ts) :
    ∃ line, readLine (l ++ [nl]) Line.start = .ok line ∧ (∀ x, x ∈ line.itemset ↔ x ∈ is) ∧
      (∀ x, x ∈ line.tagset ↔ x ∈ ts) ∧ (ts ≠ [] → is ≠ []) := by
  rcases hl.cases_fields with ⟨hb, rfl, rfl⟩ | ⟨a, s, b, rfl, ha, hs, hb⟩
  · refine ⟨Line.start, ?_, by simp [Line.start], by simp [Line.start], by simp⟩
    rw [readLine_lspace hb, readLine_eq]
    rfl
  · obtain ⟨line, hline, hitems, htags, hne⟩ := readLine_fields hs
    refine ⟨line, ?_, hitems, htags, fun _ => hne⟩
    rw [List.append_assoc, readLine_lspace ha, List.append_assoc]
    exact hline _ .ok fun e line he => readLine_line_end hb he line

/-! ### A file of the format -/

lemma not_mem_nl_of_blank {b : Str} (hb : b.all isblank = true) : nl ∉ b := fun h => by
  simpa using List.all_eq_true.mp hb nl h

lemma IsSeparator.not_mem_nl {c : Byte} {sep : Str} (hc : c ≠ nl) (h : IsSeparator c sep) :
    nl ∉ sep := by
  cases h with
  | behind _ hb => simpa [hc.symm] using not_mem_nl_of_blank hb
  | before _ ha hb => simpa [hc.symm] using ⟨not_mem_nl_of_blank ha, not_mem_nl_of_blank hb⟩

lemma IsElements.not_mem_nl (hs : IsElements s es) : nl ∉ s := by
  induction hs with
  | one he => exact he.no_nl
  | cons he hsep _ ih => simpa using ⟨he.no_nl, hsep.not_mem_nl (by decide), ih⟩

lemma IsFormatLine.not_mem_nl {l : Str} {is ts : List Str} (hl : IsFormatLine l is ts) :
    nl ∉ l := by
  cases hl with
  | blank hb => exact not_mem_nl_of_blank hb
  | items ha hs hb =>
    simpa using ⟨not_mem_nl_of_blank ha, hs.not_mem_nl, not_mem_nl_of_blank hb⟩
  | tagged ha hs hsep hr hb =>
    simpa using ⟨not_mem_nl_of_blank ha, hs.not_mem_nl, hsep.not_mem_nl (by decide),
      hr.not_mem_nl, not_mem_nl_of_blank hb⟩

/-- A line with tags only when it has items is stored. -/
lemma Line.finish_ok {line : Line} (h : line.tagset ≠ ∅ → line.itemset ≠ ∅) (out : Fast) :
    ∃ out', line.finish out = (.ok (), out') := by
  rw [finish]
  split_ifs with hempty hitems htags
  · rw [ExtTreeSet.isEmpty_iff] at hitems
    simp only [hitems, ExtTreeSet.isEmpty_empty, Bool.true_and, Bool.not_eq_true',
      ExtTreeSet.isEmpty_eq_false_iff] at hempty
    exact absurd hitems (h hempty)
  · exact ⟨_, rfl⟩
  · exact ⟨_, rfl⟩
  · exact ⟨_, rfl⟩

lemma parse_format_line {l : Str} {is ts : List Str} (hl : IsFormatLine l is ts) (out : Fast) :
    ∃ out', parse (l ++ [nl]) out = (.ok (), out') ∧
      Adds out out' fun i t => i ∈ is ∧ t ∈ ts := by
  obtain ⟨line, hline, hitems, htags, hne⟩ := readLine_format hl
  have hempty : line.tagset ≠ ∅ → line.itemset ≠ ∅ := by
    intro htagset hitemset
    rw [ne_eq, ExtTreeSet.eq_empty_iff_forall_not_mem] at htagset
    push Not at htagset
    obtain ⟨t, ht⟩ := htagset
    obtain ⟨i, hi⟩ := List.exists_mem_of_ne_nil is (hne (List.ne_nil_of_mem ((htags t).mp ht)))
    simpa [hitemset] using (hitems i).mpr hi
  obtain ⟨out', hout'⟩ := Line.finish_ok hempty out
  refine ⟨out', ?_, ?_⟩
  · rw [parse_whole_line hl.not_mem_nl, hline]
    exact hout'
  · obtain rfl := Line.finish_eq hout'
    exact (adds_insert out line.itemset line.tagset).congr fun i t => by rw [hitems, htags]

/-- A file of lines of the format is read, and adds exactly the pairs of an item and a tag on a
common line. By induction on the lines. -/
theorem parse_format (lines : List (Str × List Str × List Str))
    (h : ∀ x ∈ lines, IsFormatLine x.1 x.2.1 x.2.2) (out : Fast) :
    ∃ out', parse (wholeLines (lines.map Prod.fst)) out = (.ok (), out') ∧
      Adds out out' fun i t => ∃ x ∈ lines, i ∈ x.2.1 ∧ t ∈ x.2.2 := by
  induction lines generalizing out with
  | nil => exact ⟨out, parse_nil out, (Adds.refl out).congr fun i t => by simp⟩
  | cons x lines ih =>
    have hx := h x (by simp)
    obtain ⟨out₁, hparse, hadds⟩ := parse_format_line hx out
    obtain ⟨out', hrest, hpairs⟩ := ih (fun y hy => h y (List.mem_cons_of_mem _ hy)) out₁
    refine ⟨out', ?_, (hadds.trans hpairs).congr fun i t => by simp⟩
    have hsplit : wholeLines ((x :: lines).map Prod.fst) =
        x.1 ++ nl :: wholeLines (lines.map Prod.fst) := by simp [wholeLines]
    rw [hsplit, parse_line hx.not_mem_nl, hparse]
    exact hrest

/-- `a, b:c : d::e`, a line with the separator characters inside elements, and a line of blanks. -/
theorem parse_format_sample :
    ∃ out', parse (str "a, b:c : d::e\n \n") Fast.empty = (.ok (), out') ∧
      Adds Fast.empty out' fun i t => (i = str "a" ∨ i = str "b:c") ∧ t = str "d::e" := by
  have ha : IsElement (str "a") := ⟨by decide, by decide, by rintro _ ⟨⟩; decide,
    by rintro _ ⟨⟩; decide, by decide⟩
  have hb : IsElement (str "b:c") := ⟨by decide, by decide, by rintro _ ⟨⟩; decide,
    by rintro _ ⟨⟩; decide, by decide⟩
  have hd : IsElement (str "d::e") := ⟨by decide, by decide, by rintro _ ⟨⟩; decide,
    by rintro _ ⟨⟩; decide, by decide⟩
  have hcomma : IsSeparator comma (str ", ") := .behind (b := str " ") (by decide) (by decide)
  have hcolon : IsSeparator colon (str " : ") :=
    .before (a := str " ") (b := str " ") (by decide) (by decide) (by decide)
  have hline : IsFormatLine (str "a, b:c : d::e") [str "a", str "b:c"] [str "d::e"] :=
    .tagged (a := []) (b := []) rfl (.cons ha hcomma (.one hb)) hcolon (.one hd) rfl
  have hblank : IsFormatLine (str " ") [] [] := .blank (by decide)
  obtain ⟨out', hparse, hadds⟩ := parse_format
    [(str "a, b:c : d::e", [str "a", str "b:c"], [str "d::e"]), (str " ", [], [])]
    (List.forall_mem_cons.mpr ⟨hline, List.forall_mem_singleton.mpr hblank⟩) Fast.empty
  exact ⟨out', hparse, hadds.congr fun i t => by simp⟩

end Libept.TextFormat
