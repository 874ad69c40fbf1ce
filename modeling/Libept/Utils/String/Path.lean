import Libept.Utils.String.Split

/-!
# Pathnames

`normpath` pushes the components of a pathname on a stack and puts the stack together again. It
takes the last component off for each `..`, and does not look whether there is one. What it should
do is stated for a list of names, the directory that was reached.
-/

namespace Libept.Utils

def slash : Byte := 47

/-! ### The source -/

def appendpath (dest path2 : Str) : Str :=
  if path2.isEmpty then dest
  else if dest.isEmpty then path2
  else if dest.getLast? = some slash then
    if path2.head? = some slash then dest ++ path2.tail else dest ++ path2
  else if path2.head? = some slash then dest ++ path2
  else dest ++ [slash] ++ path2

def joinpath (path1 path2 : Str) : Str := appendpath path1 path2

/-- The template `joinpath` of the header, for any number of components. -/
def joinpathAll (components : List Str) : Str := components.foldl appendpath []

/-- The body of the loop of `normpath`, on the stack from its back. There is no result when the
back of an empty stack is looked at. -/
def normTurn (st : List Str) (i : Str) : Option (List Str) :=
  if i = str "." ∨ i = [] then some st
  else if i = str ".." then
    match st with
    | [] => none
    | back :: st' =>
      if back = str ".." then some (i :: st)
      else if back = str "/" then some st
      else some st'
  else some (i :: st)

/-- The result of `normpath` for the stack. -/
def unstack (st : List Str) : Str :=
  if st.isEmpty then str "." else st.reverse.foldl appendpath []

def normpath (pathname : Str) : Comp (Option Str) := do
  let st := if pathname.head? = some slash then [str "/"] else []
  let split ← Split.tokens ⟨pathname, str "/", false⟩
  pure ((split.foldlM normTurn st).map unstack)

/-- `abspath`, with the result of `getcwd` -/
def abspath (cwd pathname : Str) : Comp (Option Str) :=
  if pathname.head? = some slash then normpath pathname
  else normpath (joinpathAll [cwd, pathname])

/-! ### Names -/

/-- A component that is entered. -/
structure IsName (c : Str) : Prop where
  ne_nil : c ≠ []
  ne_dot : c ≠ str "."
  ne_dotdot : c ≠ str ".."
  no_slash : slash ∉ c

/-- A component takes from one directory to another. A directory is the list of the names from the
root or from where the pathname starts, with the last one first; `..` is kept if it leads above
the start. -/
def enter (root : Bool) (dir : List Str) (c : Str) : List Str :=
  if c = str "." ∨ c = [] then dir
  else if c = str ".." then
    match dir with
    | [] => if root then [] else [c]
    | name :: dir' => if name = str ".." then c :: dir else dir'
  else c :: dir

/-- What the stack holds below the names. -/
def bottom (root : Bool) : List Str := if root then [str "/"] else []

/-- A component leads above where a relative pathname starts. -/
def Blocked (root : Bool) (dir : List Str) (c : Str) : Prop :=
  root = false ∧ dir = [] ∧ c = str ".."

instance (root : Bool) (dir : List Str) (c : Str) : Decidable (Blocked root dir c) :=
  inferInstanceAs (Decidable (_ ∧ _ ∧ _))

variable {root : Bool} {dir : List Str} {c p q : Str}

lemma ne_dotdot_of_skip (h : c = str "." ∨ c = []) : c ≠ str ".." := by
  rcases h with rfl | rfl <;> decide

lemma not_blocked_of_ne (h : c ≠ str "..") : ¬ Blocked root dir c := fun hblocked =>
  h hblocked.2.2

lemma not_blocked_cons (d : Str) : ¬ Blocked root (d :: dir) c := fun hblocked =>
  List.cons_ne_nil _ _ hblocked.2.1

lemma IsName.ne_slash (h : IsName c) : c ≠ str "/" := by
  rintro rfl
  exact h.no_slash (by decide)

lemma IsName.head? (h : IsName c) : c.head? ≠ some slash := by
  intro hhead
  exact h.no_slash (List.mem_of_mem_head? hhead)

lemma IsName.getLast? (h : IsName c) : c.getLast? ≠ some slash := by
  intro hlast
  exact h.no_slash (List.mem_of_mem_getLast? hlast)

/-- The loop body does to the stack what it should do, unless it looks at an empty stack. -/
lemma normTurn_eq (hdir : ∀ d ∈ dir, IsName d) (c : Str) :
    normTurn (dir ++ bottom root) c =
      if Blocked root dir c then none else some (enter root dir c ++ bottom root) := by
  rw [normTurn.eq_def, enter.eq_def]
  by_cases hskip : c = str "." ∨ c = []
  · have hblocked : ¬ Blocked root dir c := not_blocked_of_ne (ne_dotdot_of_skip hskip)
    rw [if_pos hskip, if_pos hskip, if_neg hblocked]
  rw [if_neg hskip, if_neg hskip]
  by_cases hup : c = str ".."
  · subst hup
    rw [if_pos rfl, if_pos rfl]
    cases dir with
    | nil => cases root <;> rfl
    | cons d dir =>
      have hd := hdir d List.mem_cons_self
      simp only [List.cons_append, if_neg hd.ne_dotdot, if_neg hd.ne_slash,
        if_neg (not_blocked_cons d)]
  · rw [if_neg hup, if_neg hup, if_neg (not_blocked_of_ne hup)]
    rfl

/-- Names are entered only. -/
lemma isName_enter (hdir : ∀ d ∈ dir, IsName d) (hc : slash ∉ c) (h : ¬ Blocked root dir c) :
    ∀ d ∈ enter root dir c, IsName d := by
  rw [enter.eq_def]
  split
  case isTrue => exact hdir
  case isFalse hskip =>
    rw [not_or] at hskip
    split
    case isTrue hup =>
      cases dir with
      | nil =>
        cases root with
        | true => simp
        | false => exact absurd ⟨rfl, rfl, hup⟩ h
      | cons d dir =>
        rw [List.forall_mem_cons] at hdir
        simpa only [if_neg hdir.1.ne_dotdot] using hdir.2
    case isFalse hup =>
      rw [List.forall_mem_cons]
      exact ⟨⟨hskip.2, hskip.1, hup, hc⟩, hdir⟩

/-! ### The components of a pathname -/

/-- The components, as they are walked over. -/
def components (p : Str) : List Str := Pieces.pieces [slash] p

def isRoot (p : Str) : Bool := p.head? = some slash

lemma isRoot_iff : isRoot p = true ↔ p.head? = some slash := decide_eq_true_iff

/-- A relative pathname leads above where it starts. -/
def Above (root : Bool) (dir : List Str) : List Str → Prop
  | [] => False
  | c :: cs => Blocked root dir c ∨ Above root (enter root dir c) cs

/-- The directory that a pathname leads to. -/
def directory (p : Str) : List Str := (components p).foldl (enter (isRoot p)) []

/-- What `normpath` should give. -/
def normal (p : Str) : Str := unstack (directory p ++ bottom (isRoot p))

lemma foldlM_normTurn {cs : List Str} (hdir : ∀ d ∈ dir, IsName d) (hcs : ∀ c ∈ cs, slash ∉ c)
    (h : ¬ Above root dir cs) :
    cs.foldlM normTurn (dir ++ bottom root) = some (cs.foldl (enter root) dir ++ bottom root) ∧
      ∀ d ∈ cs.foldl (enter root) dir, IsName d := by
  induction cs generalizing dir with
  | nil => exact ⟨rfl, hdir⟩
  | cons c cs ih =>
    rw [List.forall_mem_cons] at hcs
    rw [Above, not_or] at h
    rw [List.foldlM_cons, normTurn_eq hdir, if_neg h.1]
    exact ih (isName_enter hdir hcs.1 h.1) hcs.2 h.2

lemma foldlM_normTurn_above {cs : List Str} (hdir : ∀ d ∈ dir, IsName d)
    (hcs : ∀ c ∈ cs, slash ∉ c) (h : Above root dir cs) :
    cs.foldlM normTurn (dir ++ bottom root) = none := by
  induction cs generalizing dir with
  | nil => exact h.elim
  | cons c cs ih =>
    rw [List.forall_mem_cons] at hcs
    rw [List.foldlM_cons, normTurn_eq hdir]
    by_cases hblocked : Blocked root dir c
    · rw [if_pos hblocked]
      rfl
    · rw [if_neg hblocked]
      exact ih (isName_enter hdir hcs.1 hblocked) hcs.2 (h.resolve_left hblocked)

lemma not_mem_of_mem_components (h : c ∈ components p) : slash ∉ c := fun hmem =>
  Pieces.not_infix_of_mem_pieces (List.cons_ne_nil _ _) h
    ((List.singleton_infix_iff _ _).mpr hmem)

lemma normpath_returns {res : Option Str} :
    (normpath p).Returns res ↔
      ((components p).foldlM normTurn ([] ++ bottom (isRoot p))).map unstack = res := by
  have htokens : (Split.tokens ⟨p, str "/", false⟩).Returns (components p) :=
    Split.tokens_plain rfl
  have hbottom : (if p.head? = some slash then [str "/"] else []) = [] ++ bottom (isRoot p) := by
    simp [bottom, isRoot]
  rw [normpath, hbottom, Comp.returns_bind]
  constructor
  · rintro ⟨ts, hts, h⟩
    rw [hts.unique htokens] at h
    exact Comp.returns_pure.mp h
  · intro h
    exact ⟨_, htokens, Comp.returns_pure.mpr h⟩

/-- A pathname that does not lead above its start gets its normal form. -/
lemma normpath_eq (h : ¬ Above (isRoot p) [] (components p)) :
    (normpath p).Returns (some (normal p)) ∧ ∀ d ∈ directory p, IsName d := by
  obtain ⟨hfold, hnames⟩ :=
    foldlM_normTurn (by simp) (fun _ => not_mem_of_mem_components) h
  refine ⟨normpath_returns.mpr ?_, hnames⟩
  rw [hfold]
  rfl

lemma normpath_above (h : Above (isRoot p) [] (components p)) : (normpath p).Returns none := by
  refine normpath_returns.mpr ?_
  rw [foldlM_normTurn_above (by simp) (fun _ => not_mem_of_mem_components) h]
  rfl

lemma not_above_root (dir cs : List Str) : ¬ Above true dir cs := by
  induction cs generalizing dir with
  | nil => exact id
  | cons c cs ih =>
    rintro (h | h)
    · exact Bool.noConfusion h.1
    · exact ih _ h

/-! ### The text of a normal form -/

lemma appendpath_nil (p : Str) : appendpath [] p = p := by
  cases p <;> rfl

lemma appendpath_name {a : Str} (ha : a ≠ []) (hlast : a.getLast? ≠ some slash) (hc : IsName c) :
    appendpath a c = a ++ ([slash] ++ c) := by
  rw [appendpath, if_neg (by simpa using hc.ne_nil), if_neg (by simpa using ha), if_neg hlast,
    if_neg hc.head?, List.append_assoc]

lemma foldl_appendpath {a : Str} (ha : a ≠ []) (hlast : a.getLast? ≠ some slash) {cs : List Str}
    (hcs : ∀ c ∈ cs, IsName c) :
    cs.foldl appendpath a = a ++ cs.flatMap ([slash] ++ ·) := by
  induction cs generalizing a with
  | nil => simp
  | cons c cs ih =>
    rw [List.forall_mem_cons] at hcs
    have hlast' : (a ++ ([slash] ++ c)).getLast? ≠ some slash := by
      rw [← List.append_assoc, List.getLast?_append_of_ne_nil _ hcs.1.ne_nil]
      exact hcs.1.getLast?
    rw [List.foldl_cons, appendpath_name ha hlast hcs.1, ih (by simp [ha]) hlast' hcs.2,
      List.flatMap_cons, List.append_assoc]

lemma unstack_root (hdir : ∀ d ∈ dir, IsName d) :
    unstack (dir ++ bottom true) = slash :: [slash].intercalate dir.reverse := by
  have hunstack : unstack (dir ++ bottom true) = dir.reverse.foldl appendpath [slash] := by
    show (if (dir ++ [str "/"]).isEmpty then _ else (dir ++ [str "/"]).reverse.foldl _ _) = _
    rw [if_neg (by simp), List.reverse_append]
    rfl
  have hnames : ∀ c ∈ dir.reverse, IsName c := by simpa using hdir
  rw [hunstack]
  cases hrev : dir.reverse with
  | nil => rfl
  | cons c cs =>
    rw [hrev, List.forall_mem_cons] at hnames
    have hfirst : appendpath [slash] c = slash :: c := by
      simp [appendpath, hnames.1.ne_nil, hnames.1.head?]
    have hlast : (slash :: c).getLast? ≠ some slash := by
      rw [List.getLast?_cons_of_ne_nil hnames.1.ne_nil]
      exact hnames.1.getLast?
    rw [List.foldl_cons, hfirst, foldl_appendpath (List.cons_ne_nil _ _) hlast hnames.2,
      Split.intercalate_cons]
    rfl

lemma unstack_relative (hdir : ∀ d ∈ dir, IsName d) (hne : dir ≠ []) :
    unstack (dir ++ bottom false) = [slash].intercalate dir.reverse := by
  have hunstack : unstack (dir ++ bottom false) = dir.reverse.foldl appendpath [] := by
    simp [unstack, bottom, hne]
  have hnames : ∀ c ∈ dir.reverse, IsName c := by simpa using hdir
  rw [hunstack]
  obtain ⟨c, cs, hrev⟩ := List.exists_cons_of_ne_nil (List.reverse_ne_nil_iff.mpr hne)
  rw [hrev, List.forall_mem_cons] at hnames
  rw [hrev, List.foldl_cons, appendpath_nil,
    foldl_appendpath hnames.1.ne_nil hnames.1.getLast? hnames.2, Split.intercalate_cons]

/-! ### The components of a normal form -/

/-- Nothing but names, `.` and empty components. -/
def Plain (c : Str) : Prop := IsName c ∨ c = str "." ∨ c = []

lemma components_slash (p : Str) : components (slash :: p) = [] :: components p := by
  have key := Pieces.pieces_append_cons slash [] p
  rwa [Pieces.pieces_singleton List.not_mem_nil] at key

lemma components_join {names : List Str} (h : ∀ c ∈ names, IsName c) (hne : names ≠ []) :
    components ([slash].intercalate names) = names :=
  Pieces.pieces_intercalate hne fun c hc => (h c hc).no_slash

lemma enter_skip (h : c = str "." ∨ c = []) : enter root dir c = dir := if_pos h

lemma enter_name (h : IsName c) : enter root dir c = c :: dir := by
  rw [enter.eq_def, if_neg (not_or.mpr ⟨h.ne_dot, h.ne_nil⟩), if_neg h.ne_dotdot]

lemma foldl_enter_names {names : List Str} (h : ∀ c ∈ names, IsName c) :
    names.foldl (enter root) dir = names.reverse ++ dir := by
  induction names generalizing dir with
  | nil => rfl
  | cons c names ih =>
    rw [List.forall_mem_cons] at h
    rw [List.foldl_cons, enter_name h.1, ih h.2, List.reverse_cons, List.append_assoc]
    rfl

/-- Such components do not lead up. -/
lemma not_above_plain {cs : List Str} (h : ∀ c ∈ cs, Plain c) : ¬ Above root dir cs := by
  induction cs generalizing dir with
  | nil => exact id
  | cons c cs ih =>
    rw [List.forall_mem_cons] at h
    rintro (hblocked | habove)
    · rcases h.1 with hname | hskip
      · exact not_blocked_of_ne hname.ne_dotdot hblocked
      · exact not_blocked_of_ne (ne_dotdot_of_skip hskip) hblocked
    · exact ih h.2 habove

lemma plain_names (hdir : ∀ d ∈ dir, IsName d) : ∀ c ∈ dir.reverse, Plain c :=
  fun c hc => .inl (hdir c (List.mem_reverse.mp hc))

lemma foldl_enter_reverse (hdir : ∀ d ∈ dir, IsName d) :
    dir.reverse.foldl (enter root) [] = dir := by
  rw [foldl_enter_names (by simpa using hdir), List.reverse_reverse, List.append_nil]

/-- The normal form of a directory leads to this directory. -/
lemma unstack_leads (root : Bool) (hdir : ∀ d ∈ dir, IsName d) :
    isRoot (unstack (dir ++ bottom root)) = root ∧
      (∀ c ∈ components (unstack (dir ++ bottom root)), Plain c) ∧
      (components (unstack (dir ++ bottom root))).foldl (enter root) [] = dir := by
  have hreverse : ∀ c ∈ dir.reverse, IsName c := by simpa using hdir
  cases root with
  | true =>
    rw [unstack_root hdir, components_slash]
    by_cases hne : dir = []
    · subst hne
      have hnil : components ([slash].intercalate [].reverse) = [[]] :=
        Pieces.pieces_singleton List.not_mem_nil
      rw [hnil]
      exact ⟨rfl, by simp [Plain], rfl⟩
    · rw [components_join hreverse (List.reverse_ne_nil_iff.mpr hne), List.foldl_cons,
        enter_skip (.inr rfl)]
      refine ⟨rfl, ?_, foldl_enter_reverse hdir⟩
      rw [List.forall_mem_cons]
      exact ⟨.inr (.inr rfl), plain_names hdir⟩
  | false =>
    by_cases hne : dir = []
    · subst hne
      have hdot : components (unstack ([] ++ bottom false)) = [str "."] :=
        Pieces.pieces_singleton (by decide)
      rw [hdot]
      exact ⟨rfl, by simp [Plain], rfl⟩
    · rw [unstack_relative hdir hne, components_join hreverse (List.reverse_ne_nil_iff.mpr hne)]
      refine ⟨?_, plain_names hdir, foldl_enter_reverse hdir⟩
      obtain ⟨c, cs, hrev⟩ := List.exists_cons_of_ne_nil (List.reverse_ne_nil_iff.mpr hne)
      rw [hrev, List.forall_mem_cons] at hreverse
      rw [hrev, Split.intercalate_cons, isRoot, List.head?_append_of_ne_nil _ hreverse.1.ne_nil]
      simpa using hreverse.1.head?

/-- A normal form is its own normal form. -/
lemma normpath_unstack (root : Bool) (hdir : ∀ d ∈ dir, IsName d) :
    (normpath (unstack (dir ++ bottom root))).Returns (some (unstack (dir ++ bottom root))) := by
  obtain ⟨hroot, hplain, hfold⟩ := unstack_leads root hdir
  have hreturns := (normpath_eq (not_above_plain hplain)).1
  rwa [normal, directory, hroot, hfold] at hreturns

/-! ### Joining -/

lemma foldl_components_append (root : Bool) (dir : List Str) (p q : Str) :
    (components (p ++ slash :: q)).foldl (enter root) dir =
      (components q).foldl (enter root) ((components p).foldl (enter root) dir) := by
  rw [components, Pieces.pieces_append_cons, List.foldl_append]
  rfl

lemma foldl_components_nil (root : Bool) (dir : List Str) :
    (components []).foldl (enter root) dir = dir := by
  have hnil : components [] = [[]] := Pieces.pieces_singleton List.not_mem_nil
  rw [hnil]
  rfl

/-- A slash at an end does not matter. -/
lemma foldl_components_slash (root : Bool) (dir : List Str) (p : Str) :
    (components (p ++ [slash])).foldl (enter root) dir = (components p).foldl (enter root) dir ∧
      (components (slash :: p)).foldl (enter root) dir =
        (components p).foldl (enter root) dir := by
  constructor
  · rw [foldl_components_append, foldl_components_nil]
  · rw [← List.nil_append (slash :: p), foldl_components_append, foldl_components_nil]

/-- A joined pathname leads where its second part leads from where the first one does. -/
lemma foldl_components_joinpath (root : Bool) (dir : List Str) (p q : Str) :
    (components (joinpath p q)).foldl (enter root) dir =
      (components q).foldl (enter root) ((components p).foldl (enter root) dir) := by
  rw [joinpath, appendpath]
  split_ifs with hq hp hlast hhead hhead
  · rw [List.isEmpty_iff.mp hq, foldl_components_nil]
  · rw [List.isEmpty_iff.mp hp, foldl_components_nil]
  · obtain ⟨p', rfl⟩ := List.getLast?_eq_some_iff.mp hlast
    obtain ⟨q', rfl⟩ := List.head?_eq_some_iff.mp hhead
    rw [List.append_assoc, List.singleton_append, List.tail_cons, foldl_components_append,
      (foldl_components_slash _ _ _).1, (foldl_components_slash _ _ _).2]
  · obtain ⟨p', rfl⟩ := List.getLast?_eq_some_iff.mp hlast
    rw [List.append_assoc, List.singleton_append, foldl_components_append,
      (foldl_components_slash _ _ _).1]
  · obtain ⟨q', rfl⟩ := List.head?_eq_some_iff.mp hhead
    rw [foldl_components_append, (foldl_components_slash _ _ _).2]
  · rw [List.append_assoc, List.singleton_append, foldl_components_append]

lemma isRoot_joinpath (hp : isRoot p = true) (q : Str) : isRoot (joinpath p q) = true := by
  obtain ⟨p', rfl⟩ : ∃ p', p = slash :: p' := List.head?_eq_some_iff.mp (isRoot_iff.mp hp)
  rw [joinpath, appendpath]
  split_ifs
  · rfl
  · contradiction
  all_goals rfl

/-! ### Absolute pathnames -/

/-- The form of an absolute pathname that is normalised. -/
structure IsNormal (n : Str) : Prop where
  root : n.head? = some slash
  components : n ≠ [slash] → ∀ c ∈ components n.tail, c ≠ [] ∧ c ≠ str "." ∧ c ≠ str ".."
  last : n ≠ [slash] → n.getLast? ≠ some slash

lemma isNormal_unstack (hdir : ∀ d ∈ dir, IsName d) : IsNormal (unstack (dir ++ bottom true)) := by
  rw [unstack_root hdir]
  have hnames : slash :: [slash].intercalate dir.reverse ≠ [slash] →
      ∀ c ∈ Utils.components ([slash].intercalate dir.reverse), IsName c := by
    intro hne
    have hdirne : dir.reverse ≠ [] := by
      intro hnil
      exact hne (by rw [hnil]; rfl)
    rw [components_join (by simpa using hdir) hdirne]
    simpa using hdir
  refine ⟨rfl, ?_, ?_⟩
  · intro hne c hc
    have hname := hnames hne c hc
    exact ⟨hname.ne_nil, hname.ne_dot, hname.ne_dotdot⟩
  · intro hne hlast
    have hrest : [slash].intercalate dir.reverse ≠ [] := fun hnil => hne (by rw [hnil])
    rw [List.getLast?_cons_of_ne_nil hrest] at hlast
    obtain ⟨x, hx⟩ := List.getLast?_eq_some_iff.mp hlast
    have hempty : [] ∈ Utils.components ([slash].intercalate dir.reverse) := by
      rw [hx, Utils.components, Pieces.pieces_append_cons, Pieces.pieces_singleton List.not_mem_nil]
      simp
    exact (hnames hne [] hempty).ne_nil rfl

lemma directory_root (hp : isRoot p = true) :
    directory p = (components p).foldl (enter true) [] := by
  rw [directory, hp]

lemma directory_joinpath (hp : isRoot p = true) (q : Str) :
    directory (joinpath p q) = (components q).foldl (enter true) (directory p) := by
  rw [directory_root (isRoot_joinpath hp q), foldl_components_joinpath, directory_root hp]

lemma normpath_root (hp : isRoot p = true) :
    (normpath p).Returns (some (unstack (directory p ++ bottom true))) ∧
      ∀ d ∈ directory p, IsName d := by
  have h := @normpath_eq p
  rw [normal, hp] at h
  exact h (not_above_root _ _)

/-- Joining to a pathname or to its normal form makes no difference. -/
lemma normpath_joinpath {n : Str} (hp : isRoot p = true) (hn : (normpath p).Returns (some n))
    (q : Str) : ∃ m, (normpath (joinpath p q)).Returns (some m) ∧
      (normpath (joinpath n q)).Returns (some m) := by
  obtain ⟨hreturns, hnames⟩ := normpath_root hp
  obtain ⟨hroot, -, hfold⟩ := unstack_leads true hnames
  obtain rfl := Option.some.inj (hn.unique hreturns)
  have hjoin := (normpath_root (isRoot_joinpath hroot q)).1
  rw [directory_joinpath hroot, directory_root hroot, hfold, ← directory_joinpath hp] at hjoin
  exact ⟨_, (normpath_root (isRoot_joinpath hp q)).1, hjoin⟩

lemma abspath_relative (cwd : Str) (hq : q.head? ≠ some slash) :
    abspath cwd q = normpath (joinpath cwd q) := by
  rw [abspath, if_neg hq, joinpathAll, List.foldl_cons, List.foldl_cons, appendpath_nil]
  rfl

/-- An absolute pathname has a normal form, which is one for good, and what is joined to it leads
to the same place. So the working directory matters for `abspath` by its normal form alone. -/
theorem normpath_absolute (p : Str) (hp : p.head? = some slash) :
    ∃ n, (normpath p).Returns (some n) ∧ IsNormal n ∧ (normpath n).Returns (some n) ∧
      (∀ q, ∃ m, (normpath (joinpath p q)).Returns (some m) ∧
        (normpath (joinpath n q)).Returns (some m)) ∧
      ∀ cwd, cwd.head? = some slash → (normpath cwd).Returns (some n) →
        ∀ q, q.head? ≠ some slash →
          ∃ m, (abspath p q).Returns (some m) ∧ (abspath cwd q).Returns (some m) := by
  have hroot : isRoot p = true := isRoot_iff.mpr hp
  obtain ⟨hreturns, hnames⟩ := normpath_root hroot
  refine ⟨_, hreturns, isNormal_unstack hnames, normpath_unstack true hnames, ?_, ?_⟩
  · exact normpath_joinpath hroot hreturns
  · intro cwd hcwd hsame q hq
    obtain ⟨m, hm, hnm⟩ := normpath_joinpath hroot hreturns q
    obtain ⟨m', hm', hnm'⟩ := normpath_joinpath (isRoot_iff.mpr hcwd) hsame q
    obtain rfl := Option.some.inj (hnm.unique hnm')
    rw [abspath_relative p hq, abspath_relative cwd hq]
    exact ⟨m, hm, hm'⟩

theorem normpath_absolute_up :
    ∃ n, (normpath (str "/a//./b/../../..")).Returns (some n) ∧ IsNormal n ∧
      (normpath n).Returns (some n) := by
  obtain ⟨n, hn, hnormal, hagain, -⟩ := normpath_absolute (str "/a//./b/../../..") rfl
  exact ⟨n, hn, hnormal, hagain⟩

/-! ### Relative pathnames -/

/-- The names among the components. -/
def names (cs : List Str) : List Str := cs.filter fun c => c ≠ [] ∧ c ≠ str "." ∧ c ≠ str ".."

/-- Before each `..` there are more names than there are `..`. -/
def StaysBelow (cs : List Str) : Prop :=
  ∀ before, before ++ [str ".."] <+: cs → before.count (str "..") < (names before).length

/-- What holds before each `..` holds before the first component, and behind it. -/
lemma forall_before_cons {P : List Str → Prop} {cs : List Str} :
    (∀ before, before ++ [str ".."] <+: c :: cs → P before) ↔
      (c = str ".." → P []) ∧ ∀ before, before ++ [str ".."] <+: cs → P (c :: before) := by
  constructor
  · intro h
    constructor
    · rintro rfl
      exact h [] (List.prefix_append _ _)
    · intro before hbefore
      exact h (c :: before) (List.cons_prefix_cons.mpr ⟨rfl, hbefore⟩)
  · rintro ⟨hfirst, hrest⟩ before hbefore
    cases before with
    | nil =>
      rw [List.nil_append, List.cons_prefix_cons] at hbefore
      exact hfirst hbefore.1.symm
    | cons d before =>
      rw [List.cons_append, List.cons_prefix_cons] at hbefore
      obtain ⟨rfl, hbefore⟩ := hbefore
      exact hrest before hbefore

lemma enter_up (hdir : ∀ d ∈ dir, IsName d) (hne : dir ≠ []) :
    enter root dir (str "..") = dir.tail := by
  cases dir with
  | nil => exact absurd rfl hne
  | cons d dir =>
    rw [enter.eq_def, if_neg (by decide), if_pos rfl]
    exact if_neg (hdir d List.mem_cons_self).ne_dotdot

/-- From some way down, a walk leads above the start when it has gone up for each name. By
induction on the components. -/
lemma not_above_iff {cs : List Str} (hdir : ∀ d ∈ dir, IsName d) (hcs : ∀ c ∈ cs, slash ∉ c) :
    ¬ Above false dir cs ↔ ∀ before, before ++ [str ".."] <+: cs →
      before.count (str "..") < dir.length + (names before).length := by
  induction cs generalizing dir with
  | nil => simp [Above]
  | cons c cs ih =>
    rw [List.forall_mem_cons] at hcs
    rw [forall_before_cons, Above, not_or]
    by_cases hskip : c = str "." ∨ c = []
    · have hup := ne_dotdot_of_skip hskip
      have hblocked : ¬ Blocked false dir c := not_blocked_of_ne hup
      have hnames (before : List Str) : names (c :: before) = names before := by
        rcases hskip with rfl | rfl <;> rfl
      rw [enter_skip hskip, ih hdir hcs.2]
      simp [hblocked, hup, hnames]
    rw [not_or] at hskip
    by_cases hup : c = str ".."
    · subst hup
      cases dir with
      | nil =>
        have hblocked : Blocked false [] (str "..") := ⟨rfl, rfl, rfl⟩
        simp [hblocked, names]
      | cons d dir =>
        have hblocked : ¬ Blocked false (d :: dir) (str "..") := not_blocked_cons d
        have hnames (before : List Str) : names (str ".." :: before) = names before := rfl
        rw [enter_up hdir (List.cons_ne_nil _ _), List.tail_cons,
          ih (List.forall_mem_cons.mp hdir).2 hcs.2]
        simp [hblocked, hnames, Nat.add_right_comm _ 1]
    · have hname : IsName c := ⟨hskip.2, hskip.1, hup, hcs.1⟩
      have hblocked : ¬ Blocked false dir c := not_blocked_of_ne hup
      have hnames (before : List Str) : names (c :: before) = c :: names before := by
        simp [names, hskip, hup]
      rw [enter_name hname, ih (List.forall_mem_cons.mpr ⟨hname, hdir⟩) hcs.2]
      simp [hblocked, hup, hnames, Nat.add_assoc, Nat.add_comm 1]

/-- A relative pathname is normalised when it does not lead above where it starts, and then as it
should be. -/
theorem normpath_total_iff (p : Str) :
    (∃ n, (normpath p).Returns (some n) ∧ n = normal p ∧ (normpath n).Returns (some n)) ↔
      p.head? = some slash ∨ StaysBelow (components p) := by
  have hcomponents : ∀ c ∈ components p, slash ∉ c := fun _ => not_mem_of_mem_components
  have hbelow : StaysBelow (components p) ↔ ¬ Above false [] (components p) := by
    rw [not_above_iff (by simp) hcomponents]
    simp [StaysBelow]
  have habove : (p.head? = some slash ∨ StaysBelow (components p)) ↔
      ¬ Above (isRoot p) [] (components p) := by
    rw [hbelow]
    cases hroot : isRoot p with
    | true => exact iff_of_true (.inl (isRoot_iff.mp hroot)) (not_above_root _ _)
    | false =>
      have hhead : p.head? ≠ some slash := by simpa [isRoot] using hroot
      simp [hhead]
  rw [habove]
  constructor
  · rintro ⟨n, hn, -, -⟩ h
    cases hn.unique (normpath_above h)
  · intro h
    obtain ⟨hreturns, hnames⟩ := normpath_eq h
    exact ⟨_, hreturns, rfl, normpath_unstack _ hnames⟩

/-- The parent of the current directory. -/
theorem normpath_dotdot : ¬ ∃ n, (normpath (str "..")).Returns (some n) := by
  rintro ⟨n, hn⟩
  have hcomponents : components (str "..") = [str ".."] := Pieces.pieces_singleton (by decide)
  have habove : Above (isRoot (str "..")) [] (components (str "..")) := by
    rw [hcomponents]
    exact .inl ⟨rfl, rfl, rfl⟩
  cases hn.unique (normpath_above habove)

end Libept.Utils
