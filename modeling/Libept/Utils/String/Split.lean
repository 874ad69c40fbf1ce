import Libept.Lib.Comp
import Libept.Lib.Pieces
import Libept.Utils.Basic

/-!
# Splitting a string

`Split` walks over the tokens of a string between the places where a separator stands. Its
iterator holds the current token and the offset of the next one, which is `npos` behind the last
token. Some of its loops need not end, so the functions are computations.
-/

namespace Libept.Utils

/-! ### The source -/

/-- `std::string::find` of a string, from an offset on. -/
def find (s sep : Str) (pos : ℕ) : Option ℕ :=
  (Pieces.firstInfix sep (s.drop pos)).map (pos + ·)

def join (sep : Str) (items : List Str) : Str :=
  (items.foldl (fun (res, first) i => (if first then res ++ i else res ++ sep ++ i, false))
    ([], true)).1

structure Split where
  str : Str
  sep : Str
  skipEmpty : Bool
  deriving DecidableEq

namespace Split

/-- `const_iterator`, with no offset for `npos` -/
structure ConstIterator where
  split : Option Split
  cur : Str
  end_ : Option ℕ
  deriving DecidableEq

/-- `end()` -/
def «end» : ConstIterator := ⟨none, [], some 0⟩

/-- The body of the inner loop of `skip_separators`. The counter is an `unsigned int`. -/
def matchTurn (split : Split) (end_ i : ℕ) : Comp (ℕ ⊕ ℕ) :=
  if i < split.sep.length then
    if split.str[end_ + i]? ≠ split.sep[i]? then pure (.inr i)
    else pure (.inl ((i + 1) % 2 ^ 32))
  else pure (.inr i)

/-- The body of the outer loop: the offset goes over a separator, or the loop is left. -/
def skipTurn (split : Split) (end_ : ℕ) : Comp (ℕ ⊕ ℕ) :=
  if end_ + split.sep.length ≤ split.str.length then do
    let i ← Comp.loop (split.matchTurn end_) 0
    if i < split.sep.length then pure (.inr end_)
    else pure (.inl (end_ + split.sep.length))
  else pure (.inr end_)

/-- The offset behind all the separators at an offset. -/
def skipSeparators (split : Split) (end_ : ℕ) : Comp ℕ := Comp.loop split.skipTurn end_

namespace ConstIterator

def remainder (it : ConstIterator) : Str :=
  match it.split, it.end_ with
  | some split, some end_ => split.str.drop end_
  | _, _ => []

/-- `operator++` -/
def next (it : ConstIterator) : Comp ConstIterator :=
  match it.split with
  | none => pure it
  | some split =>
    match it.end_ with
    -- convert into an end iterator
    | none => pure { it with split := none }
    | some end_ =>
      -- the string ended with a separator
      if end_ = split.str.length then pure { it with cur := [], end_ := none }
      else
        let tokEnd :=
          if split.sep.isEmpty then some (end_ + 1) else find split.str split.sep end_
        match tokEnd with
        | none => pure { it with cur := split.str.drop end_, end_ := none }
        | some tokEnd =>
          let cur := (split.str.drop end_).take (tokEnd - end_)
          let end_ := tokEnd + split.sep.length
          if split.skipEmpty then do
            let end_ ← split.skipSeparators end_
            if end_ = split.str.length then pure ⟨some split, cur, none⟩
            else pure ⟨some split, cur, some end_⟩
          else pure ⟨some split, cur, some end_⟩

/-- `operator!=` -/
def ne (a b : ConstIterator) : Bool :=
  if a.split.isNone && b.split.isNone then false
  else if a.split ≠ b.split then true
  else a.end_ ≠ b.end_

end ConstIterator

/-- `begin()` -/
def begin (split : Split) : Comp ConstIterator := do
  let end_ ← if split.skipEmpty then split.skipSeparators 0 else pure 0
  ConstIterator.next ⟨some split, [], some end_⟩

/-- A turn of `for (const auto& i: split)`, with the tokens that it met before. -/
def turn (it : ConstIterator) (ts : List Str) : Comp (ConstIterator × List Str ⊕ List Str) :=
  if it.ne «end» then do
    let next ← it.next
    pure (.inl (next, ts ++ [it.cur]))
  else pure (.inr ts)

def collect (it : ConstIterator) (ts : List Str) : Comp (List Str) :=
  Comp.loop (fun (it, ts) => turn it ts) (it, ts)

/-- The tokens that `for (const auto& i: split)` goes over. -/
def tokens (split : Split) : Comp (List Str) := do
  let it ← split.begin
  collect it []

/-- The iterator after so many increments. -/
def advance (split : Split) : ℕ → Comp ConstIterator
  | 0 => split.begin
  | n + 1 => do
    let it ← split.advance n
    it.next

/-! ### One step -/

variable {split : Split} {s sep r t cur : Str} {ts : List Str}

lemma ConstIterator.ne_end (it : ConstIterator) : it.ne «end» = it.split.isSome := by
  obtain ⟨_ | split, cur, end_⟩ := it <;> rfl

/-- An iterator whose next token starts where `r` is left. -/
def ConstIterator.before (split : Split) (cur r : Str) : ConstIterator :=
  ⟨some split, cur, some (split.str.length - r.length)⟩

/-- An iterator on the last token. -/
def ConstIterator.last (split : Split) (cur : Str) : ConstIterator := ⟨some split, cur, none⟩

lemma ConstIterator.remainder_before (h : r <:+ split.str) :
    (before split cur r).remainder = r := (List.suffix_iff_eq_drop.mp h).symm

/-- What is behind a token. -/
lemma add_length_of_cut (hr : r <:+ split.str) {k : ℕ} (h : Pieces.cutAt sep r = some k) :
    split.str.length - r.length + k + sep.length =
      split.str.length - (r.drop (k + sep.length)).length := by
  have hk := Pieces.add_length_le_of_cutAt h
  have hlen := hr.length_le
  rw [List.length_drop]
  omega

/-- Where the token ends that starts where `r` is left. -/
lemma tokEnd_eq (hr : r <:+ split.str) (hne : r ≠ []) :
    (if split.sep.isEmpty then some (split.str.length - r.length + 1)
      else find split.str split.sep (split.str.length - r.length)) =
      (Pieces.cutAt split.sep r).map (split.str.length - r.length + ·) := by
  rw [Pieces.cutAt, find, ← List.suffix_iff_eq_drop.mp hr]
  cases split.sep with
  | nil => simp [hne]
  | cons => simp

/-- The next token is what is before the first separator that is left. -/
lemma ConstIterator.next_before (hr : r <:+ split.str) :
    (before split cur r).next = match Pieces.cut split.sep r with
      | none => pure (last split r)
      | some (t, r) =>
        if split.skipEmpty then do
          let end_ ← split.skipSeparators (split.str.length - r.length)
          if end_ = split.str.length then pure (last split t)
          else pure ⟨some split, t, some end_⟩
        else pure (before split t r) := by
  have hdrop := List.suffix_iff_eq_drop.mp hr
  have hlen := hr.length_le
  by_cases hne : r = []
  · subst hne
    rw [Pieces.cut_nil]
    simp [next, before, last]
  · have hpos := List.length_pos_iff.mpr hne
    have hinside : ¬ split.str.length - r.length = split.str.length := by omega
    simp only [next, before, if_neg hinside, tokEnd_eq hr hne, ← hdrop]
    cases hk : Pieces.cutAt split.sep r with
    | none => simp [Pieces.cut_eq_none.mpr hk, last]
    | some k =>
      rw [Pieces.cut_of_cutAt hk]
      simp only [Option.map_some, Nat.add_sub_cancel_left, add_length_of_cut hr hk, last]

/-! ### The walk -/

lemma collect_end (cur : Str) (end_ : Option ℕ) (ts : List Str) :
    (collect ⟨none, cur, end_⟩ ts).Returns ts :=
  Comp.loop_stop (Comp.returns_pure.mpr rfl)

/-- A token is taken, and the iterator goes to the next one. -/
lemma collect_some (cur : Str) (end_ : Option ℕ) (ts : List Str) :
    (collect ⟨some split, cur, end_⟩ ts).Same
      (ConstIterator.next ⟨some split, cur, end_⟩ >>= fun it => collect it (ts ++ [cur])) := by
  have hne : (ConstIterator.mk (some split) cur end_).ne «end» = true := ConstIterator.ne_end _
  refine (Comp.loop_same _ _).trans ?_
  show (turn ⟨some split, cur, end_⟩ ts >>= _).Same _
  rw [turn, if_pos hne, bind_assoc]
  exact Comp.Same.refl _

lemma collect_last (split : Split) (cur : Str) (ts : List Str) :
    (collect (.last split cur) ts).Returns (ts ++ [cur]) := by
  apply (collect_some cur none ts _).mpr
  exact collect_end cur none _

/-! ### Without skipping -/

section Plain

variable (hskip : split.skipEmpty = false)

include hskip

lemma collect_plain (hr : r <:+ split.str) (cur : Str) (ts : List Str) :
    ((ConstIterator.before split cur r).next >>= fun it => collect it ts).Returns
      (ts ++ Pieces.pieces split.sep r) := by
  induction r using Pieces.cut_induction split.sep generalizing cur ts with
  | last r hcut =>
    rw [ConstIterator.next_before hr, hcut, Pieces.pieces_of_cut_eq_none hcut]
    exact collect_last split r ts
  | next r t r' hcut ih =>
    rw [ConstIterator.next_before hr, hcut, Pieces.pieces_of_cut hcut]
    simp only [hskip, Bool.false_eq_true, if_false, pure_bind]
    have key := ih ((Pieces.suffix_of_cut hcut).trans hr) t (ts ++ [t])
    rw [List.append_assoc, List.singleton_append] at key
    exact (collect_some t _ ts _).mpr key

/-- The iterator at the token that starts where `r` is left. -/
def first (split : Split) (r : Str) : ConstIterator :=
  match Pieces.cut split.sep r with
  | none => .last split r
  | some (t, r) => .before split t r

lemma next_plain (hr : r <:+ split.str) (cur : Str) :
    (ConstIterator.before split cur r).next = pure (first split r) := by
  rw [ConstIterator.next_before hr, first]
  cases Pieces.cut split.sep r with
  | none => rfl
  | some pair => simp [hskip]

lemma begin_plain : split.begin = (ConstIterator.before split [] split.str).next := by
  rw [ConstIterator.before, Nat.sub_self, begin, hskip]
  rfl

lemma tokens_plain : split.tokens.Returns (Pieces.pieces split.sep split.str) := by
  have key := collect_plain hskip (List.suffix_refl split.str) [] []
  rwa [← begin_plain hskip] at key

/-- By induction on the increments. -/
lemma advance_plain {k : ℕ} (h : (Pieces.starts split.sep split.str)[k]? = some r) :
    split.advance k = pure (first split r) := by
  induction k generalizing r with
  | zero =>
    rw [← List.head?_eq_getElem?, Pieces.head?_starts] at h
    cases h
    rw [advance, begin_plain hskip]
    exact next_plain hskip (List.suffix_refl _) []
  | succ k ih =>
    obtain ⟨r₀, t, hr₀, hcut⟩ := Pieces.cut_of_start_succ h
    have hfirst : first split r₀ = .before split t r := by rw [first, hcut]
    rw [advance, ih hr₀, pure_bind, hfirst]
    exact next_plain hskip (Pieces.drop_of_start h).1 t

end Plain

/-! ### Joining -/

lemma foldl_join (sep res : Str) (ts : List Str) :
    (ts.foldl (fun (res, first) i => (if first then res ++ i else res ++ sep ++ i, false))
      (res, false)).1 = res ++ ts.flatMap (sep ++ ·) := by
  induction ts generalizing res with
  | nil => simp
  | cons t ts ih => simpa using ih (res ++ sep ++ t)

lemma intercalate_cons (sep t : Str) (ts : List Str) :
    sep.intercalate (t :: ts) = t ++ ts.flatMap (sep ++ ·) := by
  induction ts generalizing t with
  | nil => simp
  | cons t' ts ih => rw [List.intercalate_cons_cons, ih, List.flatMap_cons, List.append_assoc]; simp

lemma join_eq (sep : Str) (ts : List Str) : join sep ts = sep.intercalate ts := by
  cases ts with
  | nil => rfl
  | cons t ts =>
    rw [intercalate_cons]
    exact foldl_join sep t ts

/-- The token and the remainder at each place. -/
lemma first_of_start {k : ℕ} (h : (Pieces.starts split.sep split.str)[k]? = some r) :
    (Pieces.pieces split.sep split.str)[k]? = some (first split r).cur ∧
      split.sep.intercalate ((Pieces.pieces split.sep split.str).take (k + 1)) ++
        (if k + 1 = (Pieces.pieces split.sep split.str).length then []
          else split.sep ++ (first split r).remainder) = split.str := by
  obtain ⟨hsuffix, hpieces, hstarts⟩ := Pieces.drop_of_start h
  rw [← Nat.add_zero k, ← List.getElem?_drop, hpieces, Nat.add_zero, first]
  cases hcut : Pieces.cut split.sep r with
  | none =>
    rw [Pieces.pieces_of_cut_eq_none hcut] at hpieces ⊢
    have hlen : k + 1 = (Pieces.pieces split.sep split.str).length := by
      have h := congrArg List.length hpieces
      simp only [List.length_drop, List.length_singleton] at h
      omega
    refine ⟨rfl, ?_⟩
    rw [if_pos hlen, List.append_nil, List.take_of_length_le (Nat.le_of_eq hlen.symm),
      Pieces.intercalate_pieces]
  | some pair =>
    obtain ⟨t, r'⟩ := pair
    rw [Pieces.starts_of_cut hcut] at hstarts
    rw [Pieces.pieces_of_cut hcut]
    have hnext : (Pieces.starts split.sep split.str)[k + 1]? = some r' := by
      rw [← List.getElem?_drop, hstarts, List.getElem?_cons_succ, ← List.head?_eq_getElem?,
        Pieces.head?_starts]
    obtain ⟨hlt, -⟩ := List.getElem?_eq_some_iff.mp hnext
    rw [Pieces.length_starts] at hlt
    obtain ⟨r'', hr'', hjoin⟩ := Pieces.intercalate_take_pieces hlt
    obtain rfl : r' = r'' := Option.some.inj (hnext.symm.trans hr'')
    refine ⟨rfl, ?_⟩
    rw [if_neg (Nat.ne_of_lt hlt),
      ConstIterator.remainder_before (Pieces.drop_of_start hnext).1, hjoin]

/-- Without skipping the walk ends, the tokens are what is between the separators, and at each of
them the tokens so far and the remainder are the string. -/
theorem split_join (s sep : Str) :
    ∃ ts, (tokens ⟨s, sep, false⟩).Returns ts ∧ join sep ts = s ∧
      (sep ≠ [] → ∀ t ∈ ts, ¬ sep <:+: t) ∧
      ∀ k < ts.length, ∃ it, (advance ⟨s, sep, false⟩ k).Returns it ∧ ts[k]? = some it.cur ∧
        join sep (ts.take (k + 1)) ++
          (if k + 1 = ts.length then [] else sep ++ it.remainder) = s := by
  refine ⟨Pieces.pieces sep s, tokens_plain rfl, ?_, ?_, ?_⟩
  · rw [join_eq, Pieces.intercalate_pieces]
  · intro hsep t ht
    exact Pieces.not_infix_of_mem_pieces hsep ht
  · intro k hk
    obtain ⟨r, hr⟩ : ∃ r, (Pieces.starts sep s)[k]? = some r :=
      ⟨_, List.getElem?_eq_getElem (by rwa [Pieces.length_starts])⟩
    have hadvance : advance ⟨s, sep, false⟩ k = pure (first ⟨s, sep, false⟩ r) :=
      advance_plain rfl hr
    obtain ⟨hcur, hjoin⟩ := @first_of_start ⟨s, sep, false⟩ r k hr
    refine ⟨first ⟨s, sep, false⟩ r, Comp.returns_of_eq_pure hadvance, hcur, ?_⟩
    rw [join_eq]
    exact hjoin

end Split

end Libept.Utils
