import Libept.Utils.Sys.Directories

/-!
# Directory trees

The directories in the tree of a directory, and those that `rmtree` can get to: an entry whose type
is not reported is looked at through symbolic links, so that a link to a directory is taken for a
directory. A directory has to be empty to be removed, so that with it the whole tree is gone.
-/

namespace Libept.Sys

open Prog Utils

variable {files : Files}

/-! ### Trees -/

namespace Entries

/-- A directory stands in another. -/
def Child (E : Entries files) (d c : ℕ) : Prop := ∃ n, E.get d n = some c ∧ files.IsDir c

/-- `rmtree` goes from one directory into another: through an entry that is one or, if the type is
not reported, through one that leads to one. -/
def Descends (E : Entries files) (d c : ℕ) : Prop :=
  ∃ n i, E.get d n = some i ∧ E.Leads d n c ∧ files.IsDir c ∧ (c = i ∨ files.reports d = false)

/-- The directories of a tree. -/
def InTree (E : Entries files) : ℕ → ℕ → Prop := Relation.ReflTransGen E.Child

/-- The directories that `rmtree` can get to. -/
def Below (E : Entries files) : ℕ → ℕ → Prop := Relation.ReflTransGen E.Descends

variable {E E' E'' : Entries files} {d c e i j : ℕ} {n p : Str}

lemma leads_of_isDir (hn : E.get d n = some c) (hc : files.IsDir c) : E.Leads d n c := by
  have hname := E.isname _ _ _ hn
  refine ⟨hname.ne_nil, ?_⟩
  rw [components_name hname, start_name hname]
  exact .enter hn (not_symlink hc) .here

lemma Child.descends (h : E.Child d c) : E.Descends d c := by
  obtain ⟨n, hn, hc⟩ := h
  exact ⟨n, c, hn, leads_of_isDir hn hc, hc, .inl rfl⟩

lemma InTree.below (h : E.InTree d c) : E.Below d c :=
  Relation.ReflTransGen.mono (fun _ _ => Child.descends) _ _ h

/-- Where the types are reported, `rmtree` does not get out of the tree. -/
lemma Below.inTree (h : E.Below d c) (hreports : ∀ e, E.InTree d e → files.reports e = true) :
    E.InTree d c := by
  induction h with
  | refl => exact .refl
  | tail _ hstep ih =>
    obtain ⟨n, i, hn, -, hc, rfl | hreport⟩ := hstep
    · exact ih.tail ⟨n, hn, hc⟩
    · rw [hreports _ ih] at hreport
      cases hreport

/-- Only entries of a kind have been removed. -/
def Only (D : ℕ → Str → Prop) (E E' : Entries files) : Prop :=
  ∀ d n, E'.get d n = E.get d n ∨ E'.get d n = none ∧ D d n

variable {D D' : ℕ → Str → Prop}

lemma Only.refl (E : Entries files) : Only D E E := fun _ _ => .inl rfl

lemma Only.mono (h : Only D E E') (hD : ∀ d n, D d n → D' d n) : Only D' E E' :=
  fun d n => (h d n).imp_right (And.imp_right (hD d n))

lemma Only.le (h : Only D E E') : E' ≤ E := by
  intro d n i hi
  rcases h d n with hsame | ⟨hnone, -⟩
  · rw [← hsame, hi]
  · rw [hnone] at hi
    cases hi

lemma Only.trans (h : Only D E E') (h' : Only D E' E'') : Only D E E'' := by
  intro d n
  rcases h' d n with hsame | hnone
  · rw [hsame]
    exact h d n
  · exact .inr hnone

lemma only_remove (hD : D d n) : Only D E (E.remove d n) := by
  intro d' n'
  rw [get_remove]
  split_ifs with h
  · exact .inr ⟨rfl, h.1 ▸ h.2 ▸ hD⟩
  · exact .inl rfl

/-- The recursion of `rmtree` may be so deep, and its loops have so many turns. -/
def Enough (E : Entries files) : ℕ → ℕ → Prop
  | 0, _ => False
  | m + 1, e => (E.finite e).toFinset.card + 2 ≤ m ∧ ∀ c, E.Descends e c → E.Enough m c

/-- A directory without its entry is empty. -/
def Emptied (E E' : Entries files) : Prop :=
  E' ≤ E ∧ ∀ d n c, E.get d n = some c → files.IsDir c → E'.get d n = none →
    ∀ n', E'.get c n' = none

lemma Emptied.refl (E : Entries files) : Emptied E E := by
  refine ⟨le_refl E, fun d n c hc _ hnone => ?_⟩
  rw [hc] at hnone
  cases hnone

/-- The whole tree is gone with its entry. By induction on the way down. -/
lemma Emptied.inTree (h : Emptied E E') (hd : E.get d n = some e) (he : files.IsDir e)
    (hnone : E'.get d n = none) (hc : E.InTree e c) : ∀ n', E'.get c n' = none := by
  induction hc with
  | refl => exact h.2 _ _ _ hd he hnone
  | tail _ hchild ih =>
    obtain ⟨n', hn', hc⟩ := hchild
    exact h.2 _ _ _ hn' hc (ih n')

end Entries

open Entries

namespace Dirs

variable {s s' s₁ s₂ : Dirs files} {E : Entries files} {t : List ((c : PathCall) × c.Reply)}
  {x y : PathProg Unit}

lemma emptied_remove {d i : ℕ} {n : Str} (h : Emptied E s.entries) (hi : s.entries.get d n = some i)
    (hempty : files.IsDir i → ∀ n', s.entries.get i n' = none) :
    Emptied E (s.remove d n).entries := by
  refine ⟨fun d' n' j hj => h.1 _ _ _ (remove_le _ _ _ _ _ _ hj), ?_⟩
  intro d' n' c hc hdir hnone n''
  refine (?_ : s.entries.get c n'' = none → _) ?_
  · intro hnone'
    show (if _ then _ else _) = none
    rw [hnone', ite_self]
  · by_cases hsame : d' = d ∧ n' = n
    · obtain ⟨rfl, rfl⟩ := hsame
      have hE := h.1 _ _ _ hi
      rw [hc] at hE
      cases hE
      exact hempty hdir n''
    · have hnone' : (if d' = d ∧ n' = n then none else s.entries.get d' n') = none := hnone
      rw [if_neg hsame] at hnone'
      exact h.2 _ _ _ hc hdir hnone' n''

lemma step_emptied {c : PathCall} {r : c.Reply} (hstep : s.step c r s') (h : Emptied E s.entries) :
    Emptied E s'.entries := by
  rcases step_entries hstep with hsame | ⟨d, n, i, hi, hempty, hremove⟩
  · rwa [hsame]
  · rw [hremove]
    exact emptied_remove h hi hempty

lemma emptied_of_reaches (h : x.Reaches step s t y s') : Emptied s.entries s'.entries := by
  let nothing (_ : (c : PathCall) × c.Reply) : Prop := False
  have hshows : ∀ s₁ c r s₂, step s₁ c r s₂ → nothing ⟨c, r⟩ → Emptied s.entries s₂.entries :=
    fun _ _ _ _ _ h => h.elim
  exact h.holds_of_mem (K := fun s' => Emptied s.entries s'.entries) hshows
    (fun _ _ _ _ hstep h => step_emptied hstep h) (.inl (.refl _))

end Dirs

end Libept.Sys
