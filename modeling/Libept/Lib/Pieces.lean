import Mathlib.Data.List.Infix
import Mathlib.Tactic.Common

/-!
# Cutting a list at a separator

A list is cut where a separator, which is a list itself, stands for the first time, and what is
behind it is cut again. An empty separator stands behind each element. Joining the pieces gives the
list back, and they do not have the separator in them.
-/

namespace Pieces

variable {α : Type*} [DecidableEq α] {sep s t r : List α} {k : ℕ}

/-! ### The first occurrence -/

/-- How far into a list another one stands for the first time. -/
def firstInfix (sep : List α) : List α → Option ℕ
  | [] => if sep = [] then some 0 else none
  | a :: s => if sep <+: a :: s then some 0 else (firstInfix sep s).map (· + 1)

lemma firstInfix_at_start (h : sep <+: s) : firstInfix sep s = some 0 := by
  cases s with
  | nil => rw [firstInfix, if_pos (List.prefix_nil.mp h)]
  | cons a s => rw [firstInfix, if_pos h]

lemma not_infix_of_firstInfix_eq_none (h : firstInfix sep s = none) : ¬ sep <:+: s := by
  induction s with
  | nil =>
    intro hinf
    simp [firstInfix, List.infix_nil.mp hinf] at h
  | cons a s ih =>
    rw [firstInfix] at h
    split_ifs at h with hpre
    rw [List.infix_cons_iff, not_or]
    exact ⟨hpre, ih (Option.map_eq_none_iff.mp h)⟩

lemma le_of_firstInfix (h : firstInfix sep s = some k) : k ≤ s.length := by
  induction s generalizing k with
  | nil =>
    rw [firstInfix] at h
    split_ifs at h
    cases h
    exact Nat.zero_le _
  | cons a s ih =>
    rw [firstInfix] at h
    split_ifs at h
    · cases h
      exact Nat.zero_le _
    · obtain ⟨j, hj, rfl⟩ := Option.map_eq_some_iff.mp h
      exact Nat.succ_le_succ (ih hj)

/-- The list is what is before, the other list and what is behind. -/
lemma eq_append_of_firstInfix (h : firstInfix sep s = some k) :
    s = s.take k ++ (sep ++ s.drop (k + sep.length)) := by
  induction s generalizing k with
  | nil =>
    rw [firstInfix] at h
    split_ifs at h with hsep
    simp [hsep]
  | cons a s ih =>
    rw [firstInfix] at h
    split_ifs at h with hpre
    · cases h
      simpa using (List.prefix_append_drop hpre)
    · obtain ⟨j, hj, rfl⟩ := Option.map_eq_some_iff.mp h
      rw [List.take_succ_cons, Nat.add_right_comm, List.drop_succ_cons, List.cons_append]
      exact congrArg (a :: ·) (ih hj)

/-- It does not stand before, but may reach into what is before. -/
lemma not_infix_take_of_firstInfix (hsep : sep ≠ []) (h : firstInfix sep s = some k) :
    ¬ sep <:+: s.take k := by
  induction s generalizing k with
  | nil =>
    rw [firstInfix, if_neg hsep] at h
    cases h
  | cons a s ih =>
    rw [firstInfix] at h
    split_ifs at h with hpre
    · cases h
      simpa using hsep
    · obtain ⟨j, hj, rfl⟩ := Option.map_eq_some_iff.mp h
      rw [List.take_succ_cons, List.infix_cons_iff, not_or]
      refine ⟨fun htake => hpre (htake.trans ?_), ih hj⟩
      rw [← List.take_succ_cons]
      exact List.take_prefix _ _

/-! ### Cutting once -/

/-- Where the separator to cut at stands. -/
def cutAt (sep s : List α) : Option ℕ :=
  if sep = [] then if s = [] then none else some 1 else firstInfix sep s

/-- What is before the separator and what is behind it, or nothing if it does not stand there. -/
def cut (sep s : List α) : Option (List α × List α) :=
  (cutAt sep s).map fun k => (s.take k, s.drop (k + sep.length))

lemma cut_of_cutAt (h : cutAt sep s = some k) :
    cut sep s = some (s.take k, s.drop (k + sep.length)) := by
  rw [cut, h]
  rfl

lemma cut_eq_none : cut sep s = none ↔ cutAt sep s = none := Option.map_eq_none_iff

@[simp] lemma cut_nil (sep : List α) : cut sep [] = none := by
  rw [cut_eq_none, cutAt]
  by_cases hsep : sep = []
  · simp [hsep]
  · simp [hsep, firstInfix]

lemma eq_append_of_cut (h : cut sep s = some (t, r)) : s = t ++ (sep ++ r) := by
  obtain ⟨k, hk, hpair⟩ := Option.map_eq_some_iff.mp h
  cases hpair
  rw [cutAt] at hk
  split_ifs at hk with hsep
  · cases hk
    subst hsep
    exact (List.take_append_drop 1 s).symm
  · exact eq_append_of_firstInfix hk

/-- The separator that is cut at ends in the list. -/
lemma add_length_le_of_cutAt (h : cutAt sep s = some k) : k + sep.length ≤ s.length := by
  have hle : k ≤ s.length := by
    rw [cutAt] at h
    split_ifs at h with hsep hs
    · cases h
      exact List.length_pos_iff.mpr hs
    · exact le_of_firstInfix h
  have happend := congrArg List.length (eq_append_of_cut (cut_of_cutAt h))
  simp only [List.length_append, List.length_take, List.length_drop] at happend
  omega

lemma length_of_cut (h : cut sep s = some (t, r)) : r.length < s.length := by
  have happend := congrArg List.length (eq_append_of_cut h)
  simp only [List.length_append] at happend
  rcases Nat.eq_zero_or_pos sep.length with hsep | hsep
  · rw [List.length_eq_zero_iff] at hsep
    subst hsep
    cases s with
    | nil => simp [cut, cutAt] at h
    | cons a s =>
      obtain ⟨rfl, rfl⟩ : [a] = t ∧ s = r := by simpa [cut, cutAt] using h
      simp
  · omega

lemma not_infix_of_cut (hsep : sep ≠ []) (h : cut sep s = some (t, r)) : ¬ sep <:+: t := by
  obtain ⟨k, hk, hpair⟩ := Option.map_eq_some_iff.mp h
  cases hpair
  rw [cutAt, if_neg hsep] at hk
  exact not_infix_take_of_firstInfix hsep hk

lemma not_infix_of_cut_eq_none (hsep : sep ≠ []) (h : cut sep s = none) : ¬ sep <:+: s := by
  rw [cut_eq_none, cutAt, if_neg hsep] at h
  exact not_infix_of_firstInfix_eq_none h

/-- A list that starts with the separator is cut there. -/
lemma cut_append (hsep : sep ≠ []) (r : List α) : cut sep (sep ++ r) = some ([], r) := by
  have hk : cutAt sep (sep ++ r) = some 0 := by
    rw [cutAt, if_neg hsep, firstInfix_at_start (List.prefix_append sep r)]
  rw [cut_of_cutAt hk, List.take_zero, Nat.zero_add, List.drop_left]

/-! ### Cutting everywhere -/

/-- The pieces between the separators. -/
def pieces (sep s : List α) : List (List α) :=
  match _h : cut sep s with
  | none => [s]
  | some (t, r) => t :: pieces sep r
termination_by s.length
decreasing_by exact length_of_cut ‹_›

/-- What is left of the list at the start of each piece. -/
def starts (sep s : List α) : List (List α) :=
  match _h : cut sep s with
  | none => [s]
  | some (_, r) => s :: starts sep r
termination_by s.length
decreasing_by exact length_of_cut ‹_›

lemma pieces_of_cut_eq_none (h : cut sep s = none) : pieces sep s = [s] := by
  rw [pieces]
  split
  · rfl
  · simp_all

lemma pieces_of_cut (h : cut sep s = some (t, r)) : pieces sep s = t :: pieces sep r := by
  rw [pieces]
  split <;> simp_all

lemma starts_of_cut_eq_none (h : cut sep s = none) : starts sep s = [s] := by
  rw [starts]
  split <;> simp_all

lemma starts_of_cut (h : cut sep s = some (t, r)) : starts sep s = s :: starts sep r := by
  rw [starts]
  split <;> simp_all

/-- Induction on the pieces of a list. -/
lemma cut_induction (sep : List α) {P : List α → Prop} (last : ∀ s, cut sep s = none → P s)
    (next : ∀ s t r, cut sep s = some (t, r) → P r → P s) (s : List α) : P s := by
  induction hn : s.length using Nat.strong_induction_on generalizing s with
  | _ n ih =>
    subst hn
    cases h : cut sep s with
    | none => exact last s h
    | some pair => exact next s pair.1 pair.2 h (ih _ (length_of_cut h) _ rfl)

lemma pieces_ne_nil (sep s : List α) : pieces sep s ≠ [] := by
  cases h : cut sep s with
  | none =>
    rw [pieces_of_cut_eq_none h]
    exact List.cons_ne_nil _ _
  | some pair =>
    rw [pieces_of_cut h]
    exact List.cons_ne_nil _ _

theorem intercalate_pieces (sep s : List α) : sep.intercalate (pieces sep s) = s := by
  induction s using cut_induction sep with
  | last s h => rw [pieces_of_cut_eq_none h, List.intercalate_singleton]
  | next s t r h ih =>
    rw [pieces_of_cut h, List.intercalate_cons_of_ne_nil (pieces_ne_nil sep r), ih,
      List.append_assoc, ← eq_append_of_cut h]

theorem not_infix_of_mem_pieces (hsep : sep ≠ []) (ht : t ∈ pieces sep s) : ¬ sep <:+: t := by
  induction s using cut_induction sep with
  | last s h =>
    rw [pieces_of_cut_eq_none h, List.mem_singleton] at ht
    exact ht ▸ not_infix_of_cut_eq_none hsep h
  | next s t' r h ih =>
    rw [pieces_of_cut h, List.mem_cons] at ht
    rcases ht with rfl | ht
    · exact not_infix_of_cut hsep h
    · exact ih ht

lemma length_starts (sep s : List α) : (starts sep s).length = (pieces sep s).length := by
  induction s using cut_induction sep with
  | last s h => rw [starts_of_cut_eq_none h, pieces_of_cut_eq_none h]
  | next s t r h ih => rw [starts_of_cut h, pieces_of_cut h, List.length_cons, List.length_cons, ih]

lemma head?_starts (sep s : List α) : (starts sep s).head? = some s := by
  cases h : cut sep s with
  | none =>
    rw [starts_of_cut_eq_none h]
    rfl
  | some pair =>
    rw [starts_of_cut h]
    rfl

lemma suffix_of_cut (h : cut sep s = some (t, r)) : r <:+ s :=
  ⟨t ++ sep, by rw [List.append_assoc, ← eq_append_of_cut h]⟩

/-- What is left at the start of a piece has that piece and those behind it. -/
lemma drop_of_start (h : (starts sep s)[k]? = some r) :
    r <:+ s ∧ (pieces sep s).drop k = pieces sep r ∧ (starts sep s).drop k = starts sep r := by
  induction s using cut_induction sep generalizing k with
  | last s hcut =>
    rw [starts_of_cut_eq_none hcut, List.getElem?_singleton] at h
    split_ifs at h with hk
    cases h
    subst hk
    exact ⟨List.suffix_refl _, rfl, rfl⟩
  | next s t r' hcut ih =>
    cases k with
    | zero =>
      rw [← List.head?_eq_getElem?, head?_starts] at h
      cases h
      exact ⟨List.suffix_refl _, rfl, rfl⟩
    | succ k =>
      rw [starts_of_cut hcut, List.getElem?_cons_succ] at h
      rw [starts_of_cut hcut, pieces_of_cut hcut, List.drop_succ_cons, List.drop_succ_cons]
      obtain ⟨hsuffix, hrest⟩ := ih h
      exact ⟨hsuffix.trans (suffix_of_cut hcut), hrest⟩

/-- What is left of the list comes from cutting what was left before. -/
lemma cut_of_start_succ (h : (starts sep s)[k + 1]? = some r) :
    ∃ r₀ t, (starts sep s)[k]? = some r₀ ∧ cut sep r₀ = some (t, r) := by
  obtain ⟨hlt, -⟩ := List.getElem?_eq_some_iff.mp h
  obtain ⟨r₀, hr₀⟩ : ∃ r₀, (starts sep s)[k]? = some r₀ :=
    ⟨_, List.getElem?_eq_getElem (Nat.lt_of_succ_lt hlt)⟩
  have hdrop := (drop_of_start hr₀).2.2
  rw [← List.getElem?_drop, hdrop] at h
  cases hcut : cut sep r₀ with
  | none => simp [starts_of_cut_eq_none hcut] at h
  | some pair =>
    obtain ⟨t, r'⟩ := pair
    rw [starts_of_cut hcut, List.getElem?_cons_succ, ← List.head?_eq_getElem?, head?_starts] at h
    cases h
    exact ⟨r₀, t, hr₀, hcut⟩

/-- The pieces up to one of them, and what is left behind it. -/
theorem intercalate_take_pieces (h : k + 1 < (pieces sep s).length) :
    ∃ r, (starts sep s)[k + 1]? = some r ∧
      sep.intercalate ((pieces sep s).take (k + 1)) ++ (sep ++ r) = s := by
  induction s using cut_induction sep generalizing k with
  | last s hcut => simp [pieces_of_cut_eq_none hcut] at h
  | next s t r hcut ih =>
    rw [pieces_of_cut hcut, List.length_cons] at h
    rw [starts_of_cut hcut, pieces_of_cut hcut, List.getElem?_cons_succ, List.take_succ_cons]
    cases k with
    | zero =>
      refine ⟨r, by rw [← List.head?_eq_getElem?, head?_starts], ?_⟩
      rw [List.take_zero, List.intercalate_singleton, ← eq_append_of_cut hcut]
    | succ k =>
      obtain ⟨r', hr', hjoin⟩ := ih (Nat.lt_of_succ_lt_succ h)
      have hne : (pieces sep r).take (k + 1) ≠ [] := by simp [pieces_ne_nil]
      refine ⟨r', hr', ?_⟩
      rw [List.intercalate_cons_of_ne_nil hne, List.append_assoc, hjoin, List.append_assoc,
        ← eq_append_of_cut hcut]

/-! ### A separator of one element -/

section Single

variable {c : α}

lemma cut_singleton_of_not_mem (h : c ∉ s) : cut [c] s = none := by
  cases hcut : cut [c] s with
  | none => rfl
  | some pair => exact absurd (by rw [eq_append_of_cut hcut]; simp) h

lemma firstInfix_singleton (h : c ∉ t) (r : List α) :
    firstInfix [c] (t ++ c :: r) = some t.length := by
  induction t with
  | nil => exact firstInfix_at_start (List.prefix_append [c] r)
  | cons a t ih =>
    rw [List.mem_cons, not_or] at h
    have hne : ¬ [c] <+: a :: (t ++ c :: r) := by simpa using h.1
    rw [List.cons_append, firstInfix, if_neg hne, ih h.2]
    rfl

lemma cut_singleton (h : c ∉ t) (r : List α) : cut [c] (t ++ c :: r) = some (t, r) := by
  have hk : cutAt [c] (t ++ c :: r) = some t.length := firstInfix_singleton h r
  rw [cut_of_cutAt hk, List.take_left]
  simp

lemma pieces_singleton (h : c ∉ s) : pieces [c] s = [s] :=
  pieces_of_cut_eq_none (cut_singleton_of_not_mem h)

/-- Any place where the element stands is between two pieces. -/
lemma pieces_append_cons (c : α) (s r : List α) :
    pieces [c] (s ++ c :: r) = pieces [c] s ++ pieces [c] r := by
  induction s using cut_induction [c] with
  | last s h =>
    have hmem : c ∉ s := fun hmem =>
      not_infix_of_cut_eq_none (List.cons_ne_nil _ _) h ((List.singleton_infix_iff _ _).mpr hmem)
    rw [pieces_of_cut (cut_singleton hmem r), pieces_singleton hmem]
    rfl
  | next s t r' h ih =>
    have hmem : c ∉ t := fun hmem =>
      not_infix_of_cut (List.cons_ne_nil _ _) h ((List.singleton_infix_iff _ _).mpr hmem)
    have happend : s ++ c :: r = t ++ c :: (r' ++ c :: r) := by
      rw [eq_append_of_cut h]
      simp
    rw [happend, pieces_of_cut (cut_singleton hmem _), ih, pieces_of_cut h]
    rfl

/-- Joined pieces are cut again into the same pieces. -/
lemma pieces_intercalate {ts : List (List α)} (hne : ts ≠ []) (h : ∀ t ∈ ts, c ∉ t) :
    pieces [c] ([c].intercalate ts) = ts := by
  induction ts with
  | nil => exact absurd rfl hne
  | cons t ts ih =>
    rw [List.forall_mem_cons] at h
    cases ts with
    | nil => rw [List.intercalate_singleton, pieces_singleton h.1]
    | cons t' ts =>
      rw [List.intercalate_cons_cons, List.append_assoc, List.singleton_append,
        pieces_append_cons, ih (List.cons_ne_nil _ _) h.2, pieces_singleton h.1]
      rfl

end Single

/-! ### Skipping separators -/

/-- What is left behind the separators that the list starts with. -/
def skip (sep s : List α) : List α :=
  if sep ≠ [] ∧ sep <+: s then skip sep (s.drop sep.length) else s
termination_by s.length
decreasing_by
  have hsep := List.length_pos_iff.mpr ‹_ ∧ _›.1
  have hlen := List.IsPrefix.length_le ‹_ ∧ _›.2
  rw [List.length_drop]
  omega

lemma skip_eq_self (h : ¬ sep <+: s) : skip sep s = s := by
  rw [skip, if_neg fun hand => h hand.2]

lemma skip_append (hsep : sep ≠ []) (s : List α) : skip sep (sep ++ s) = skip sep s := by
  rw [skip, if_pos ⟨hsep, List.prefix_append sep s⟩, List.drop_left]

/-- Induction on the separators that a list starts with. -/
lemma skip_induction (hsep : sep ≠ []) {P : List α → Prop} (stop : ∀ s, ¬ sep <+: s → P s)
    (next : ∀ s, P s → P (sep ++ s)) (s : List α) : P s := by
  induction hn : s.length using Nat.strong_induction_on generalizing s with
  | _ n ih =>
    subst hn
    by_cases hpre : sep <+: s
    · obtain ⟨r, rfl⟩ := hpre
      have hpos := List.length_pos_iff.mpr hsep
      exact next r (ih _ (by rw [List.length_append]; omega) r rfl)
    · exact stop s hpre

lemma suffix_skip (hsep : sep ≠ []) (s : List α) : skip sep s <:+ s := by
  induction s using skip_induction hsep with
  | stop s h => rw [skip_eq_self h]
  | next s ih =>
    rw [skip_append hsep]
    exact ih.trans (List.suffix_append sep s)

lemma not_prefix_skip (hsep : sep ≠ []) (s : List α) : ¬ sep <+: skip sep s := by
  induction s using skip_induction hsep with
  | stop s h => rwa [skip_eq_self h]
  | next s ih => rwa [skip_append hsep]

/-- Nothing is left of a repetition of the separator alone. -/
lemma skip_eq_nil_iff (hsep : sep ≠ []) :
    skip sep s = [] ↔ ∃ n, s = (List.replicate n sep).flatten := by
  constructor
  · intro h
    induction s using skip_induction hsep with
    | stop s hpre =>
      rw [skip_eq_self hpre] at h
      exact ⟨0, h⟩
    | next s ih =>
      rw [skip_append hsep] at h
      obtain ⟨n, rfl⟩ := ih h
      exact ⟨n + 1, by rw [List.replicate_succ, List.flatten_cons]⟩
  · rintro ⟨n, rfl⟩
    induction n with
    | zero => exact skip_eq_self fun h => hsep (List.prefix_nil.mp h)
    | succ n ih => rw [List.replicate_succ, List.flatten_cons, skip_append hsep, ih]

end Pieces
