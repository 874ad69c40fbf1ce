import Libept.Lib.Concurrent
import Libept.Utils.Sys.Directories
import Libept.Utils.Sys.Makedirs

/-!
# Directories that are made

`mkdir` makes an entry for a new directory, which is empty. What a pathname led to before it leads
to afterwards. A pathname is clear when nothing is in the way of it: it leads to a directory, or to
one in which the next name is not there, and does not go up behind that. It stays clear while
directories are made by others, too.
-/

namespace Libept.Sys

open Utils

variable {files : Files}

namespace Entries

/-- The inode has not been removed. -/
def Linked (E : Entries files) (i : ℕ) : Prop := i = files.root ∨ ∃ d n, E.get d n = some i

/-- A new directory stands in another one, under a name that was free. -/
structure NewDir (E E' : Entries files) (d : ℕ) (n : Str) (j : ℕ) : Prop where
  linked : E.Linked d
  kind : files.kind j = .dir d
  free : E.get d n = none
  unused : ¬ E.Linked j
  empty : ∀ n', E.get j n' = none
  get : ∀ d' n', E'.get d' n' = if d' = d ∧ n' = n then some j else E.get d' n'

/-- Directories have been made. -/
def Grows : Entries files → Entries files → Prop :=
  Relation.ReflTransGen fun E E' => ∃ d n j, E.NewDir E' d n j

/-- The root and the directories above one that has not been removed have not been removed. -/
structure Whole (E : Entries files) : Prop where
  root : files.IsDir files.root
  parent : ∀ i parent, E.Linked i → files.kind i = .dir parent →
    files.IsDir parent ∧ E.Linked parent

/-- Nothing is in the way of the components. -/
inductive Clear (E : Entries files) : ℕ → List Str → Prop
  | here {d : ℕ} (hd : files.IsDir d) : Clear E d []
  | pass {d j : ℕ} {c : Str} {cs : List Str} (hc : E.Walk d [c] j) (h : Clear E j cs) :
    Clear E d (c :: cs)
  | free {d : ℕ} {c : Str} {cs : List Str} (hd : files.IsDir d) (hname : IsName c)
    (hc : E.get d c = none) (hcs : ∀ c ∈ cs, Plain c) : Clear E d (c :: cs)

variable {E E' : Entries files} {d i j k : ℕ} {c n p : Str} {cs cs' : List Str}

lemma NewDir.le (h : E.NewDir E' d n j) : E ≤ E' := by
  intro d' n' i hi
  rw [h.get, if_neg, hi]
  rintro ⟨rfl, rfl⟩
  rw [h.free] at hi
  cases hi

lemma NewDir.made (h : E.NewDir E' d n j) : E'.get d n = some j := by rw [h.get, if_pos ⟨rfl, rfl⟩]

lemma NewDir.ne (h : E.NewDir E' d n j) : j ≠ d := fun heq => h.unused (heq ▸ h.linked)

lemma Grows.le (h : E.Grows E') : E ≤ E' := by
  induction h with
  | refl => exact le_refl E
  | tail _ hstep ih =>
    obtain ⟨d, n, j, hnew⟩ := hstep
    exact le_trans ih hnew.le

/-- What is kept by a new directory is kept while directories are made. -/
lemma Grows.keeps {K : Entries files → Prop}
    (hK : ∀ E E' d n j, E.NewDir E' d n j → K E → K E') (h : E.Grows E') (hE : K E) : K E' := by
  induction h with
  | refl => exact hE
  | tail _ hstep ih =>
    obtain ⟨d, n, j, hnew⟩ := hstep
    exact hK _ _ d n j hnew ih

lemma Linked.mono (h : E.Linked i) (hle : E ≤ E') : E'.Linked i :=
  h.imp_right fun ⟨d, n, hi⟩ => ⟨d, n, hle _ _ _ hi⟩

lemma Whole.newDir (hnew : E.NewDir E' d n j) (h : E.Whole) : E'.Whole where
  root := h.root
  parent i parent hi hparent := by
    have hlinked : E.Linked i ∨ i = j := by
      rcases hi with hroot | ⟨d', n', hget⟩
      · exact .inl (.inl hroot)
      · rw [hnew.get] at hget
        split_ifs at hget with hsame
        · exact .inr (Option.some.inj hget).symm
        · exact .inl (.inr ⟨d', n', hget⟩)
    rcases hlinked with hi | rfl
    · exact (h.parent i parent hi hparent).imp_right (Linked.mono · hnew.le)
    · obtain rfl : d = parent := by simpa [hnew.kind] using hparent
      exact ⟨E'.isdir _ _ _ hnew.made, hnew.linked.mono hnew.le⟩

/-- From a directory that has not been removed the components lead to one. -/
lemma Walk.linked (hwhole : E.Whole) (h : E.Walk d cs i) (hd : E.Linked d) : E.Linked i := by
  induction h with
  | here => exact hd
  | stay _ _ _ ih => exact ih hd
  | up hparent _ ih => exact ih (hwhole.parent _ _ hd hparent).2
  | enter hc _ _ ih => exact ih (.inr ⟨_, _, hc⟩)
  | @follow d j k i c target cs hc _ _ _ ihtarget ih =>
    refine ih (ihtarget ?_)
    rw [start]
    split_ifs
    · exact .inl rfl
    · exact hd

/-! ### Walks, component by component -/

lemma walk_cons_iff (h : E.Walk d [c] j) : E.Walk d (c :: cs) i ↔ E.Walk j cs i := by
  refine ⟨fun hwalk => ?_, fun hwalk => h.append hwalk⟩
  have happend : E.Walk d ([c] ++ cs) i := hwalk
  obtain ⟨j', hj', hrest⟩ := happend.of_append
  rwa [h.unique hj']

lemma not_walk_of_none (hname : IsName c) (hc : E.get d c = none) : ¬ E.Walk d (c :: cs) i := by
  intro h
  cases h with
  | stay _ hskip => exact hskip.elim hname.ne_nil hname.ne_dot
  | up => exact hname.ne_dotdot rfl
  | enter hget => exact absurd (hc.symm.trans hget) (by simp)
  | follow hget => exact absurd (hc.symm.trans hget) (by simp)

lemma Walk.isDir_of_cons (h : E.Walk d (c :: cs) i) : files.IsDir d := by
  cases h with
  | stay hd => exact hd
  | up hd => exact ⟨_, hd⟩
  | enter hget => exact E.isdir _ _ _ hget
  | follow hget => exact E.isdir _ _ _ hget

/-! ### What is not there -/

/-- The components come to a name that is not there. -/
inductive Missing (E : Entries files) : ℕ → List Str → Prop
  | absent {d : ℕ} {c : Str} {cs : List Str} (hname : IsName c) (hc : E.get d c = none) :
    Missing E d (c :: cs)
  | pass {d j : ℕ} {c : Str} {cs : List Str} (hc : E.Walk d [c] j) (h : Missing E j cs) :
    Missing E d (c :: cs)
  | link {d j : ℕ} {c target : Str} {cs : List Str} (hc : E.get d c = some j)
    (hj : files.kind j = .symlink target)
    (h : Missing E (start files d target) (components target)) : Missing E d (c :: cs)

lemma Missing.not_walk (h : E.Missing d cs) : ¬ E.Walk d cs i := by
  induction h generalizing i with
  | absent hname hc => exact not_walk_of_none hname hc
  | pass hc _ ih => exact fun hwalk => ih ((walk_cons_iff hc).mp hwalk)
  | @link d j c target cs hc hj _ ih =>
    intro hwalk
    cases hwalk with
    | stay _ hskip => exact hskip.elim (ne_of_get hc).1 (ne_of_get hc).2.1
    | up => exact (ne_of_get hc).2.2 rfl
    | enter hc' hj' =>
      obtain rfl : j = _ := Option.some.inj (hc.symm.trans hc')
      exact hj' _ hj
    | follow hc' hj' htarget =>
      obtain rfl : j = _ := Option.some.inj (hc.symm.trans hc')
      rw [hj] at hj'
      cases hj'
      exact ih htarget

lemma LastName.ne_nil (h : E.LastName d p i n) : p ≠ [] := by
  obtain ⟨cs, k, hcs, hname, -⟩ := h
  rintro rfl
  have hnil : components [] = [[]] := Pieces.pieces_singleton List.not_mem_nil
  rw [hnil] at hcs
  have hmem : n ∈ [([] : Str)] := hcs ▸ by simp
  exact hname.ne_nil (List.mem_singleton.mp hmem)

/-- There is something under the last name, if only a link that leads nowhere. -/
def Stands (E : Entries files) (d : ℕ) (p : Str) : Prop :=
  (∃ i, E.Leads d p i) ∨ ∃ dir n, E.LastName d p dir n ∧ E.get dir n ≠ none

lemma Stands.ne_nil (h : E.Stands d p) : p ≠ [] := by
  rcases h with ⟨i, hleads⟩ | ⟨dir, n, hlast, -⟩
  · exact hleads.1
  · exact hlast.ne_nil

/-- All but the last component lead to a directory that has not been removed. -/
def HasPlace (E : Entries files) (d : ℕ) (p : Str) : Prop :=
  p ≠ [] ∧ ∃ cs c k dir, components p = cs ++ c :: List.replicate k [] ∧
    E.Walk (start files d p) cs dir ∧ files.IsDir dir ∧ E.Linked dir

lemma HasPlace.mono (h : E.HasPlace d p) (hle : E ≤ E') : E'.HasPlace d p := by
  obtain ⟨hp, cs, c, k, dir, hcs, hwalk, hdir, hlinked⟩ := h
  exact ⟨hp, cs, c, k, dir, hcs, hwalk.mono hle, hdir, hlinked.mono hle⟩

/-! ### Clear pathnames -/

lemma Clear.dir (h : E.Clear d cs) : files.IsDir d := by
  cases h with
  | here hd => exact hd
  | pass hc => exact hc.isDir_of_cons
  | free hd => exact hd

/-- If it leads anywhere, to a directory. -/
lemma Clear.isDir (h : E.Clear d cs) (hwalk : E.Walk d cs i) : files.IsDir i := by
  induction h with
  | here hd =>
    cases hwalk
    exact hd
  | pass hc _ ih => exact ih ((walk_cons_iff hc).mp hwalk)
  | free _ hname hc => exact absurd hwalk (not_walk_of_none hname hc)

lemma Clear.of_append (h : E.Clear d (cs ++ cs')) : E.Clear d cs := by
  induction cs generalizing d with
  | nil => exact .here h.dir
  | cons c cs ih =>
    cases h with
    | pass hc h => exact .pass hc (ih h)
    | free hd hname hc hcs =>
      exact .free hd hname hc fun c hmem => hcs c (List.mem_append_left _ hmem)

/-- What is left of a clear pathname behind its first components is clear. -/
lemma Clear.walked (h : E.Clear d (cs ++ cs')) (hwalk : E.Walk d cs j) : E.Clear j cs' := by
  induction cs generalizing d with
  | nil =>
    cases hwalk
    exact h
  | cons c cs ih =>
    cases h with
    | pass hc h => exact ih h ((walk_cons_iff hc).mp hwalk)
    | free _ hname hc => exact absurd hwalk (not_walk_of_none hname hc)

/-- Nothing is in the way in an empty directory. -/
lemma clear_of_empty (hj : files.IsDir j) (hempty : ∀ n, E.get j n = none)
    (hcs : ∀ c ∈ cs, Plain c) : E.Clear j cs := by
  induction cs with
  | nil => exact .here hj
  | cons c cs ih =>
    rw [List.forall_mem_cons] at hcs
    rcases hcs.1 with hname | hskip
    · exact .free hj hname (hempty c) hcs.2
    · exact .pass (.stay hj hskip.symm .here) (ih hcs.2)

/-- By induction on the components. The new directory may be one that was not there before. -/
lemma Clear.newDir (hnew : E.NewDir E' d n j) (h : E.Clear i cs) : E'.Clear i cs := by
  induction h with
  | here hd => exact .here hd
  | pass hc _ ih => exact .pass (hc.mono hnew.le) ih
  | @free i c cs hi hname hc hcs =>
    by_cases hsame : i = d ∧ c = n
    · obtain ⟨rfl, rfl⟩ := hsame
      have hj : files.IsDir j := ⟨_, hnew.kind⟩
      refine .pass (.enter hnew.made (not_symlink hj) .here) (clear_of_empty hj (fun n' => ?_) hcs)
      rw [hnew.get, if_neg fun h => hnew.ne h.1, hnew.empty]
    · refine .free hi hname ?_ hcs
      rw [hnew.get, if_neg hsame, hc]

/-- When the last name of a clear pathname is there, it leads to a directory. -/
lemma Clear.leads (h : E.Clear (start files d p) (components p)) (hlast : E.LastName d p j n)
    (hn : E.get j n ≠ none) : ∃ i, E.Leads d p i ∧ files.IsDir i := by
  have hp := hlast.ne_nil
  obtain ⟨cs, k, hcs, hname, hwalk⟩ := hlast
  rw [hcs] at h
  cases h.walked hwalk with
  | @pass _ i _ _ hc hrest =>
    refine ⟨i, ⟨hp, ?_⟩, hrest.dir⟩
    rw [hcs]
    exact hwalk.append (hc.append (Walk.stays hrest.dir k))
  | free _ _ hc => exact absurd hc hn

end Entries

/-! ### The kernel -/

def ENOTDIR : Errno := 20

/-- A failure that does not tell what is there and what is not. -/
def Denied (errno : Errno) : Prop :=
  errno ≠ EEXIST ∧ errno ≠ EISDIR ∧ errno ≠ ENOENT ∧ errno ≠ ENOTDIR

/-- The kernel may answer a call so that is made in a working directory, and go on in another
state. -/
def Dirs.makeStep (cwd : ℕ) (s : Dirs files) : (c : DirCall) → c.Reply → Dirs files → Prop
  | .mkdir pathname _, .ok _, s' =>
    (∃ dir n j, s.entries.LastName cwd pathname dir n ∧ s.entries.NewDir s'.entries dir n j) ∧
      s'.fds = s.fds ∧ s'.streams = s.streams
  | .mkdir pathname _, .error errno, s' =>
    s' = s ∧ ((errno = EEXIST ∨ errno = EISDIR) ∧ s.entries.Stands cwd pathname ∨
      (errno = ENOENT ∨ errno = ENOTDIR) ∧ ¬ s.entries.HasPlace cwd pathname ∨ Denied errno)
  | .stat pathname, .ok st, s' =>
    s' = s ∧ ∃ i, s.entries.Leads cwd pathname i ∧ S_IFMT st.st_mode = (files.kind i).ifmt
  | .stat pathname, .error errno, s' =>
    s' = s ∧ (errno = ENOENT ∧ (pathname = [] ∨
        s.entries.Missing (Entries.start files cwd pathname) (components pathname)) ∨
      errno = ENOTDIR ∧ (¬ ∃ i, s.entries.Leads cwd pathname i) ∨ Denied errno)

/-- What a pathname leads to must be a directory for `S_ISDIR`. -/
lemma isDir_iff_S_ISDIR {i : ℕ} {st : Stat} (h : S_IFMT st.st_mode = (files.kind i).ifmt) :
    S_ISDIR st.st_mode = true ↔ files.IsDir i := by
  rw [Files.isDir_iff_ifmt, ← h, S_ISDIR, S_IFMT, beq_iff_eq]

end Libept.Sys
