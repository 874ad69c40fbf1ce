import Libept.Utils.String.Path
import Libept.Utils.String.Strip

/-!
# The directory of a pathname

`dirname` looks for the last name of a pathname from its end, and gives what stands in front of it.
It skips the slashes on both sides of the name with the loop of `rstrip`. What it should give is
stated for the pathname as a list of bytes, without positions.
-/

namespace Libept.Utils

/-! ### The source -/

/-- `s.rfind(c, pos)`: where the last `c` is that is not behind `pos`. -/
def rfind (s : Str) (c : Byte) : ℕ → Option ℕ
  | 0 => if s[0]? = some c then some 0 else none
  | pos + 1 => if s[pos + 1]? = some c then some (pos + 1) else rfind s c pos

def dirname (pathname : Str) : Option Str :=
  if pathname.isEmpty then pure (str ".") else do
    -- skip trailing separators
    let end_ ← skipBackward (· == slash) pathname pathname.length
    if end_ = 0 then pure (str "/")
    else
      match rfind pathname slash (end_ - 1) with
      | none => pure (str ".")
      | some pos => do
        let end_ ← skipBackward (· == slash) pathname pos
        if end_ = 0 then pure (str "/") else pure (pathname.take end_)

/-! ### The parent -/

/-- A directory without the slashes that separate it from a name. -/
def unslash (dir : Str) : Str :=
  let dir := dir.rdropWhile (· == slash)
  if dir = [] then str "/" else dir

/-- What `dirname` should give. -/
def parent (p : Str) : Str :=
  let p' := p.rdropWhile (· == slash)
  let dir := p'.rdropWhile (· != slash)
  if p = [] then str "." else if p' = [] then str "/" else if dir = [] then str "." else unslash dir

variable {p name dir : Str} {c : Byte}

lemma unslash_concat (dir : Str) : unslash (dir ++ [slash]) = unslash dir := by
  rw [unslash, unslash, List.rdropWhile_concat_pos _ _ _ rfl]

/-- What is in front of the last `c`, with it. -/
lemma rfind_eq (s : Str) (c : Byte) (n : ℕ) (h : n < s.length) :
    (rfind s c n = none ∧ (s.take (n + 1)).rdropWhile (· != c) = []) ∨
      ∃ pos, rfind s c n = some pos ∧ s[pos]? = some c ∧
        (s.take (n + 1)).rdropWhile (· != c) = s.take (pos + 1) := by
  induction n with
  | zero =>
    obtain ⟨d, hd⟩ : ∃ d, s[0]? = some d := ⟨_, List.getElem?_eq_getElem h⟩
    have htake : s.take (0 + 1) = [d] := take_succ_eq hd
    by_cases hdc : d = c
    · subst hdc
      exact .inr ⟨0, by simp [rfind, hd], hd, by simp [htake, List.rdropWhile_singleton]⟩
    · exact .inl ⟨by simp [rfind, hd, hdc], by simp [htake, List.rdropWhile_singleton, hdc]⟩
  | succ n ih =>
    obtain ⟨d, hd⟩ : ∃ d, s[n + 1]? = some d := ⟨_, List.getElem?_eq_getElem h⟩
    by_cases hdc : d = c
    · subst hdc
      refine .inr ⟨n + 1, by simp [rfind, hd], hd, ?_⟩
      rw [take_succ_eq hd]
      exact List.rdropWhile_concat_neg _ _ _ (by simp)
    · have hstep : rfind s c (n + 1) = rfind s c n := by simp [rfind, hd, hdc]
      rw [hstep, take_succ_eq hd, List.rdropWhile_concat_pos _ _ _ (by simpa using hdc)]
      exact ih (by omega)

/-- No access of `dirname` is outside of the pathname, and its result is the parent. -/
lemma dirname_eq (p : Str) : dirname p = some (parent p) := by
  rw [dirname]
  split
  case isTrue h =>
    obtain rfl := List.isEmpty_iff.mp h
    rfl
  case isFalse h =>
    have hp : p ≠ [] := by simpa using h
    have htake_nil (e : ℕ) : p.take e = [] ↔ e = 0 := by simp [List.take_eq_nil_iff, hp]
    obtain ⟨e, he, hp'⟩ := skipBackward_eq (· == slash) p p.length (Nat.le_refl _)
    have hle := le_of_skipBackward he
    rw [List.take_length] at hp'
    rw [he, Option.bind_eq_bind, Option.bind_some, parent, if_neg hp, ← hp']
    simp only [htake_nil]
    by_cases he0 : e = 0
    · rw [if_pos he0, if_pos he0]
      rfl
    · rw [if_neg he0, if_neg he0]
      have he1 : e - 1 + 1 = e := Nat.sub_add_cancel (Nat.pos_of_ne_zero he0)
      obtain ⟨hfind, hdir⟩ | ⟨pos, hfind, hslash, hdir⟩ := rfind_eq p slash (e - 1) (by omega)
      · rw [he1] at hdir
        rw [hfind, if_pos hdir]
        rfl
      · have hpos : pos ≤ p.length := Nat.le_of_lt (List.getElem?_eq_some_iff.mp hslash).1
        obtain ⟨e', he', hdir'⟩ := skipBackward_eq (· == slash) p pos hpos
        rw [he1] at hdir
        rw [hfind, hdir, if_neg (by simp [htake_nil]), take_succ_eq hslash, unslash_concat, unslash,
          ← hdir']
        simp only [htake_nil, he', Option.bind_some]
        split <;> rfl

lemma unslash_cases (dir : Str) :
    unslash dir = str "/" ∨ (unslash dir <+: dir ∧ (unslash dir).getLast? ≠ some slash) := by
  rw [unslash]
  split
  case isTrue => exact .inl rfl
  case isFalse h =>
    have hlast := List.rdropWhile_last_not (· == slash) dir h
    refine .inr ⟨List.rdropWhile_prefix _ dir, ?_⟩
    rw [List.getLast?_eq_some_getLast h]
    simpa using hlast

/-- Without its last name a pathname is shorter. -/
lemma length_rdropWhile_lt {p' : Str} (h : p' ≠ []) (hlast : p'.getLast h ≠ slash) :
    (p'.rdropWhile (· != slash)).length < p'.length := by
  have hpre : p'.rdropWhile (· != slash) <+: p' := List.rdropWhile_prefix _ p'
  refine Nat.lt_of_le_of_ne hpre.length_le fun hlength => ?_
  have hstay := List.rdropWhile_eq_self_iff.mp (hpre.eq_of_length hlength) h
  exact hstay (by simpa using hlast)

/-- The parent is the root, the current directory, or what is in front of the last name. -/
lemma parent_cases (p : Str) :
    parent p = str "/" ∨ parent p = str "." ∨
      (parent p <+: p ∧ (parent p).length < p.length ∧ (parent p).getLast? ≠ some slash) := by
  rw [parent]
  split_ifs with hp hp' hdir
  · exact .inr (.inl rfl)
  · exact .inl rfl
  · exact .inr (.inl rfl)
  · rcases unslash_cases ((p.rdropWhile (· == slash)).rdropWhile (· != slash)) with
      hroot | ⟨hunslash, hend⟩
    · exact .inl hroot
    · have hpre : p.rdropWhile (· == slash) <+: p := List.rdropWhile_prefix _ p
      have hlast := List.rdropWhile_last_not (· == slash) p hp'
      have hlt := length_rdropWhile_lt hp' (by simpa using hlast)
      refine .inr (.inr ⟨(hunslash.trans (List.rdropWhile_prefix _ _)).trans hpre, ?_, hend⟩)
      calc (unslash ((p.rdropWhile (· == slash)).rdropWhile (· != slash))).length
        _ ≤ ((p.rdropWhile (· == slash)).rdropWhile (· != slash)).length := hunslash.length_le
        _ < (p.rdropWhile (· == slash)).length := hlt
        _ ≤ p.length := hpre.length_le

/-! ### Names -/

lemma rdropWhile_append_stop {f : Byte → Bool} {s t : Str} (hs : s.rdropWhile f = s)
    (ht : ∀ c ∈ t, f c = true) : (s ++ t).rdropWhile f = s := by
  induction t using List.reverseRecOn with
  | nil => rwa [List.append_nil]
  | append_singleton t c ih =>
    rw [← List.append_assoc, List.rdropWhile_concat_pos _ _ _ (ht c (by simp))]
    exact ih fun d hd => ht d (by simp [hd])

/-- The parent of a name in a directory. Slashes at the end do not count. -/
lemma parent_append (hne : name ≠ []) (hname : slash ∉ name) (k : ℕ)
    (hdir : dir = [] ∨ dir.getLast? = some slash) :
    parent (dir ++ name ++ List.replicate k slash) =
      if dir = [] then str "." else unslash dir := by
  have hp' : (dir ++ name ++ List.replicate k slash).rdropWhile (· == slash) = dir ++ name := by
    refine rdropWhile_append_stop ?_ fun c hc => by simp [List.eq_of_mem_replicate hc]
    rw [List.rdropWhile_eq_self_iff]
    intro h hlast
    rw [List.getLast_append_of_ne_nil h hne] at hlast
    have hmem := List.getLast_mem hne
    rw [beq_iff_eq.mp hlast] at hmem
    exact hname hmem
  have hdir' : (dir ++ name).rdropWhile (· != slash) = dir := by
    refine rdropWhile_append_stop ?_ fun c hc => ?_
    · rw [List.rdropWhile_eq_self_iff]
      intro h
      rw [List.getLast?_eq_some_getLast h] at hdir
      simpa [h] using hdir
    · have hc' : c ≠ slash := fun heq => hname (heq ▸ hc)
      simpa using hc'
  rw [parent, hp', hdir']
  simp [hne]

end Libept.Utils
