import Libept.Utils.Sys.Directories

/-!
# Where a normalised pathname leads

`normpath` looks at the text of a pathname alone, and takes back a name where a `..` follows it. In
the directories of a system this leads to the same place as long as the name is not that of a
symbolic link. The stack of `normpath` is the way from the start down to where the walk has got.
-/

namespace Libept.Sys

open Utils

variable {files : Files}

namespace Entries

/-- A directory stands in its parent and nowhere else, and the root is its own parent. -/
structure IsTree (E : Entries files) : Prop where
  parent : ∀ d n i, E.get d n = some i → files.IsDir i → files.kind i = .dir d
  root : files.kind files.root = .dir files.root

/-- The components lead from one inode to another, and no `..` comes behind a symbolic link. -/
inductive Straight (E : Entries files) : ℕ → List Str → ℕ → Prop
  | last {d i : ℕ} {cs : List Str} (h : E.Walk d cs i) (hup : str ".." ∉ cs) : Straight E d cs i
  | stay {d i : ℕ} {c : Str} {cs : List Str} (hd : files.IsDir d) (hc : c = [] ∨ c = str ".")
    (h : Straight E d cs i) : Straight E d (c :: cs) i
  | up {d parent i : ℕ} {cs : List Str} (hd : files.kind d = .dir parent)
    (h : Straight E parent cs i) : Straight E d (str ".." :: cs) i
  | enter {d j i : ℕ} {c : Str} {cs : List Str} (hc : E.get d c = some j)
    (hj : ∀ target, files.kind j ≠ .symlink target) (h : Straight E j cs i) :
    Straight E d (c :: cs) i

/-- The way down from the start, with the last name first. None of the names is that of a link. -/
inductive Way (E : Entries files) (start : ℕ) : List Str → ℕ → Prop
  | here : Way E start [] start
  | down {dir : List Str} {d j : ℕ} {c : Str} (h : Way E start dir d) (hc : E.get d c = some j)
    (hj : ∀ target, files.kind j ≠ .symlink target) : Way E start (c :: dir) j

variable {E : Entries files} {start d i : ℕ} {dir cs : List Str} {root : Bool} {p n : Str}

lemma Way.walk (h : E.Way start dir d) : E.Walk start dir.reverse d := by
  induction h with
  | here => exact .here
  | down _ hc hj ih =>
    rw [List.reverse_cons]
    exact ih.append (.enter hc hj .here)

lemma Straight.walk (h : E.Straight d cs i) : E.Walk d cs i := by
  induction h with
  | last h _ => exact h
  | stay hd hc _ ih => exact .stay hd hc ih
  | up hd _ ih => exact .up hd ih
  | enter hc hj _ ih => exact .enter hc hj ih

/-- Without `..` the names are pushed, whatever they lead through. -/
lemma Walk.normal (h : E.Walk d cs i) (hup : str ".." ∉ cs) (hdir : E.Walk start dir.reverse d) :
    E.Walk start (cs.foldl (Utils.enter root) dir).reverse i := by
  induction h generalizing dir with
  | here => exact hdir
  | stay _ hc _ ih =>
    rw [List.foldl_cons, enter_skip hc.symm]
    exact ih (fun h => hup (List.mem_cons_of_mem _ h)) hdir
  | up => exact absurd List.mem_cons_self hup
  | enter hc hj _ ih =>
    rw [List.foldl_cons, enter_name (E.isname _ _ _ hc)]
    refine ih (fun h => hup (List.mem_cons_of_mem _ h)) ?_
    rw [List.reverse_cons]
    exact hdir.append (.enter hc hj .here)
  | follow hc hj htarget _ _ ih =>
    rw [List.foldl_cons, enter_name (E.isname _ _ _ hc)]
    refine ih (fun h => hup (List.mem_cons_of_mem _ h)) ?_
    rw [List.reverse_cons]
    exact hdir.append (.follow hc hj htarget .here)

/-- What is left on the stack leads where all the components lead. By induction on the walk. -/
lemma Straight.normal (h : E.Straight d cs i) (htree : E.IsTree)
    (hroot : root = true → start = files.root) (hway : E.Way start dir d)
    (habove : ¬ Above root dir cs) :
    E.Walk start (cs.foldl (Utils.enter root) dir).reverse i := by
  induction h generalizing dir with
  | last h hup => exact h.normal hup hway.walk
  | stay _ hc _ ih =>
    rw [Above, not_or] at habove
    rw [List.foldl_cons]
    rw [enter_skip hc.symm] at habove ⊢
    exact ih hway habove.2
  | @up d parent i cs hd _ ih =>
    rw [Above, not_or] at habove
    rw [List.foldl_cons]
    cases hway with
    | here =>
      -- only the root can be left so
      have htop : root = true := by
        by_contra hrel
        exact habove.1 ⟨by simpa using hrel, rfl, rfl⟩
      subst htop
      obtain rfl := hroot rfl
      rw [htree.root] at hd
      cases hd
      exact ih .here habove.2
    | @down dir' e _ c hway hc _ =>
      have hname := E.isname _ _ _ hc
      have henter : Utils.enter root (c :: dir') (str "..") = dir' := by
        rw [enter.eq_def, if_neg (by decide), if_pos rfl]
        exact if_neg hname.ne_dotdot
      rw [henter] at habove ⊢
      rw [htree.parent _ _ _ hc ⟨_, hd⟩] at hd
      cases hd
      exact ih hway habove.2
  | enter hc hj _ ih =>
    rw [Above, not_or] at habove
    rw [List.foldl_cons]
    rw [enter_name (E.isname _ _ _ hc)] at habove ⊢
    exact ih (.down hway hc hj) habove.2

/-- The text of a stack leads where the names on it lead. -/
lemma leads_unstack (hdir : ∀ c ∈ dir, IsName c)
    (hstart : files.IsDir (if root then files.root else d))
    (h : E.Walk (if root then files.root else d) dir.reverse i) :
    E.Leads d (unstack (dir ++ bottom root)) i := by
  have hreverse : ∀ c ∈ dir.reverse, IsName c := by simpa using hdir
  have hstart' : Entries.start files d (unstack (dir ++ bottom root)) =
      if root then files.root else d := by
    rw [Entries.start, (unstack_leads root hdir).1]
  rw [Leads, hstart']
  cases root with
  | true =>
    rw [unstack_root hdir, components_slash]
    refine ⟨List.cons_ne_nil _ _, .stay hstart (.inl rfl) ?_⟩
    by_cases hne : dir = []
    · subst hne
      have hnil : components ([slash].intercalate [].reverse) = [[]] :=
        Pieces.pieces_singleton List.not_mem_nil
      rw [hnil]
      exact .stay hstart (.inl rfl) h
    · rwa [components_join hreverse (List.reverse_ne_nil_iff.mpr hne)]
  | false =>
    by_cases hne : dir = []
    · subst hne
      have hdot : components (unstack ([] ++ bottom false)) = [str "."] :=
        Pieces.pieces_singleton (by decide)
      rw [hdot]
      exact ⟨by decide, .stay hstart (.inr rfl) h⟩
    · have hreverse_ne := List.reverse_ne_nil_iff.mpr hne
      rw [unstack_relative hdir hne, components_join hreverse hreverse_ne]
      refine ⟨fun hnil => ?_, h⟩
      have hcomponents := components_join hreverse hreverse_ne
      rw [hnil] at hcomponents
      have hmem : [] ∈ dir.reverse := by
        rw [← hcomponents, components, Pieces.pieces_singleton List.not_mem_nil]
        exact List.mem_cons_self
      exact (hreverse _ hmem).ne_nil rfl

end Entries

open Entries

variable {E : Entries files} {d i : ℕ} {p n cwd : Str}

/-- A pathname that leads somewhere without a `..` behind a symbolic link, and stays below its start
if it is relative, is normalised and then leads there, too. -/
theorem normpath_leads (htree : E.IsTree) (hcwd : files.IsDir files.cwd)
    (hbelow : ¬ Above (isRoot p) [] (components p))
    (hp : E.Straight (start files files.cwd p) (components p) i) :
    ∃ n, (normpath p).Returns (some n) ∧ E.Leads files.cwd n i := by
  obtain ⟨hreturns, hnames⟩ := normpath_eq hbelow
  have hroot : isRoot p = true → start files files.cwd p = files.root := fun h => if_pos h
  refine ⟨_, hreturns, leads_unstack hnames ?_ (hp.normal htree hroot .here hbelow)⟩
  split_ifs
  · exact ⟨_, htree.root⟩
  · exact hcwd

/-! ### A tree with a link -/

/-- The root with a directory and a symbolic link, and a directory in the directory. -/
def linkedFiles (cwd : ℕ) : Files :=
  ⟨fun i => match i with
    | 0 => .dir 0
    | 1 => .dir 0
    | 2 => .dir 1
    | 3 => .symlink (str "a/b")
    | _ => .reg, 0, cwd, fun _ => true, False⟩

def linked (cwd : ℕ) : Entries (linkedFiles cwd) where
  get d n :=
    if d = 0 ∧ n = str "a" then some 1
    else if d = 1 ∧ n = str "b" then some 2
    else if d = 0 ∧ n = str "l" then some 3
    else none
  isdir d n i h := by
    split_ifs at h with ha hb hl
    · exact ha.1 ▸ ⟨0, rfl⟩
    · exact hb.1 ▸ ⟨0, rfl⟩
    · exact hl.1 ▸ ⟨0, rfl⟩
  isname d n i h := by
    split_ifs at h with ha hb hl
    · exact ha.2 ▸ ⟨by decide, by decide, by decide, by decide⟩
    · exact hb.2 ▸ ⟨by decide, by decide, by decide, by decide⟩
    · exact hl.2 ▸ ⟨by decide, by decide, by decide, by decide⟩
  finite d := by
    refine (Set.toFinite {str "a", str "b", str "l"}).subset fun n hn => ?_
    have hn : (if d = 0 ∧ n = str "a" then some 1
      else if d = 1 ∧ n = str "b" then some 2
      else if d = 0 ∧ n = str "l" then some 3
      else none) ≠ none := hn
    split_ifs at hn with ha hb hl
    · exact .inl ha.2
    · exact .inr (.inl hb.2)
    · exact .inr (.inr hl.2)
    · exact absurd rfl hn

lemma isTree_linked (cwd : ℕ) : (linked cwd).IsTree where
  parent d n i h hi := by
    change ite _ _ _ = _ at h
    split_ifs at h with ha hb hl
    · cases h
      rw [ha.1]
      rfl
    · cases h
      rw [hb.1]
      rfl
    · cases h
      obtain ⟨parent, hparent⟩ := hi
      cases hparent
  root := rfl

lemma components_two {a b : Str} (ha : slash ∉ a) (hb : slash ∉ b) :
    components (a ++ slash :: b) = [a, b] := by
  rw [components, Pieces.pieces_append_cons, Pieces.pieces_singleton ha,
    Pieces.pieces_singleton hb]
  rfl

lemma walk_l (cwd : ℕ) : (linked cwd).Walk 0 [str "l"] 2 := by
  refine .follow (j := 3) rfl rfl ?_ .here
  have hcomponents : components (str "a/b") = [str "a", str "b"] :=
    components_two (a := str "a") (b := str "b") (by decide) (by decide)
  rw [hcomponents]
  exact .enter rfl (not_symlink ⟨0, rfl⟩) (.enter rfl (not_symlink ⟨1, rfl⟩) .here)

/-- `a/..` is taken back, and the link is followed from where it stands. -/
theorem normpath_leads_linked :
    ∃ n, (normpath (str "a/../l")).Returns (some n) ∧ (linked 0).Leads 0 n 2 := by
  have hcomponents : components (str "a/../l") = [str "a", str "..", str "l"] := by
    have hsplit : str "a/../l" = str "a" ++ slash :: (str ".." ++ slash :: str "l") := by decide
    rw [hsplit, components, Pieces.pieces_append_cons, Pieces.pieces_singleton (by decide)]
    exact congrArg _ (components_two (by decide) (by decide))
  have hp : (linked 0).Straight 0 (components (str "a/../l")) 2 := by
    rw [hcomponents]
    exact .enter rfl (not_symlink ⟨0, rfl⟩) (.up rfl (.last (walk_l 0) (by decide)))
  have habove : ¬ Above (isRoot (str "a/../l")) [] (components (str "a/../l")) := by
    rw [hcomponents]
    simp [Above, Blocked, Utils.enter]
    decide
  exact normpath_leads (p := str "a/../l") (isTree_linked 0) ⟨0, rfl⟩ habove hp

/-- Behind the link `..` is the directory of the target, and `normpath` gives that of the link. -/
theorem normpath_behind_link :
    (linked 0).Leads 0 (str "l/..") 1 ∧
      ∃ n, (normpath (str "l/..")).Returns (some n) ∧ (linked 0).Leads 0 n 0 := by
  have hcomponents : components (str "l/..") = [str "l", str ".."] :=
    components_two (a := str "l") (b := str "..") (by decide) (by decide)
  have habove : ¬ Above (isRoot (str "l/..")) [] (components (str "l/..")) := by
    rw [hcomponents]
    simp [Above, Blocked, Utils.enter]
    decide
  have hdirectory : directory (str "l/..") = [] := by
    rw [directory, hcomponents]
    decide
  obtain ⟨hreturns, hnames⟩ := normpath_eq habove
  refine ⟨⟨by decide, ?_⟩, _, hreturns, leads_unstack hnames ⟨0, rfl⟩ ?_⟩
  · rw [hcomponents]
    exact (walk_l 0).append (.up rfl .here)
  · rw [hdirectory]
    exact .here

/-! ### Absolute pathnames -/

/-- What `getcwd` gives: an absolute pathname that leads to the working directory. There may be
symbolic links in it, as in the shell's `PWD`. -/
structure IsCwd (E : Entries files) (cwd : Str) : Prop where
  absolute : cwd.head? = some slash
  walk : E.Walk files.root (components cwd) files.cwd

/-- What `abspath` normalises. -/
def fullname (cwd p : Str) : Str := if p.head? = some slash then p else joinpath cwd p

lemma abspath_eq (cwd p : Str) : abspath cwd p = normpath (fullname cwd p) := by
  rw [fullname]
  split_ifs with hroot
  · exact if_pos hroot
  · exact abspath_relative cwd hroot

lemma isRoot_fullname (hcwd : IsCwd E cwd) (p : Str) : isRoot (fullname cwd p) = true := by
  rw [fullname]
  split_ifs with hroot
  · exact isRoot_iff.mpr hroot
  · exact isRoot_joinpath (isRoot_iff.mpr hcwd.absolute) p

lemma components_append (p q : Str) : components (p ++ slash :: q) = components p ++ components q :=
  Pieces.pieces_append_cons slash p q

/-- Behind the working directory a relative pathname leads where it leads from there. -/
lemma IsCwd.walk_joinpath (hcwd : IsCwd E cwd) (hroot : p.head? ≠ some slash)
    (hp : E.Walk files.cwd (components p) i) :
    E.Walk files.root (components (joinpath cwd p)) i := by
  rw [joinpath, appendpath]
  split_ifs with hnil hcwdnil hlast
  · rw [List.isEmpty_iff] at hnil
    subst hnil
    rw [components, Pieces.pieces_singleton List.not_mem_nil] at hp
    rw [hp.of_nil]
    exact hcwd.walk
  · rw [List.isEmpty_iff.mp hcwdnil] at hcwd
    cases hcwd.absolute
  · obtain ⟨q, rfl⟩ := List.getLast?_eq_some_iff.mp hlast
    have hwalk := hcwd.walk
    rw [components_append] at hwalk
    obtain ⟨j, hq, hslash⟩ := hwalk.of_append
    rw [components, Pieces.pieces_singleton List.not_mem_nil] at hslash
    rw [hslash.of_nil] at hp
    rw [List.append_assoc, List.singleton_append, components_append]
    exact hq.append hp
  · rw [List.append_assoc, List.singleton_append, components_append]
    exact hcwd.walk.append hp

lemma IsCwd.walk_fullname (hcwd : IsCwd E cwd)
    (hp : E.Walk (start files files.cwd p) (components p) i) :
    E.Walk files.root (components (fullname cwd p)) i := by
  rw [fullname]
  split_ifs with hroot
  · rwa [start, if_pos (isRoot_iff.mpr hroot)] at hp
  · rw [start, if_neg fun h => hroot (isRoot_iff.mp h)] at hp
    exact hcwd.walk_joinpath hroot hp

/-- The absolute pathname is normal and leads, from any directory, to where the pathname leads, if
in it, with what `getcwd` gives before it, no `..` comes behind a symbolic link. -/
theorem abspath_leads (htree : E.IsTree) (hcwd : IsCwd E cwd)
    (hp : E.Walk (start files files.cwd p) (components p) i)
    (hstraight : ∃ j, E.Straight files.root (components (fullname cwd p)) j) :
    ∃ n, (abspath cwd p).Returns (some n) ∧ IsNormal n ∧ ∀ d, E.Leads d n i := by
  have hroot := isRoot_fullname hcwd p
  obtain ⟨hreturns, hnames⟩ := normpath_root hroot
  obtain ⟨j, hj⟩ := hstraight
  obtain rfl := hj.walk.unique (hcwd.walk_fullname hp)
  have hwalk := hj.normal htree (fun _ => rfl) .here (not_above_root _ _)
  rw [← directory_root hroot] at hwalk
  rw [abspath_eq]
  exact ⟨_, hreturns, isNormal_unstack hnames,
    fun d => leads_unstack hnames ⟨_, htree.root⟩ hwalk⟩

/-- The working directory is known by the link to it. -/
theorem abspath_leads_linked :
    ∃ n, (abspath (str "/l") (str ".")).Returns (some n) ∧ (linked 2).Leads 1 n 2 := by
  have hcwd : IsCwd (linked 2) (str "/l") := by
    have hcomponents : components (str "/l") = [[], str "l"] :=
      components_two (a := []) (b := str "l") (by decide) (by decide)
    refine ⟨rfl, ?_⟩
    rw [hcomponents]
    exact .stay ⟨0, rfl⟩ (.inl rfl) (walk_l 2)
  have hp : (linked 2).Walk 2 (components (str ".")) 2 := by
    rw [components, Pieces.pieces_singleton (by decide)]
    exact .stay ⟨1, rfl⟩ (.inr rfl) .here
  have hstraight : (linked 2).Straight 0 (components (fullname (str "/l") (str "."))) 2 := by
    refine .last (hcwd.walk_fullname (p := str ".") hp) ?_
    have hjoin : fullname (str "/l") (str ".") = str "/l" ++ slash :: str "." := by decide
    have hcomponents : components (str "/l") = [[], str "l"] :=
      components_two (a := []) (b := str "l") (by decide) (by decide)
    rw [hjoin, components_append, hcomponents, components, Pieces.pieces_singleton (by decide)]
    decide
  obtain ⟨n, hn, -, hleads⟩ := abspath_leads (p := str ".") (isTree_linked 2) hcwd hp ⟨2, hstraight⟩
  exact ⟨n, hn, hleads 1⟩

end Libept.Sys
