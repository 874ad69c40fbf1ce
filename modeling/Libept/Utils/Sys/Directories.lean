import Libept.Utils.Sys.Kernel
import Libept.Utils.Sys.Path

/-!
# The directories of a system

A directory has entries, which lead to files: directories, symbolic links and others. A pathname
leads through the directories, and where it comes to a symbolic link it goes on with the text of the
link. The kernel answers a call with a success or a failure; a failure leaves everything as it is,
except that what a call has failed to give back may be gone. No one else changes the directories,
and none of the calls makes an entry.
-/

namespace Libept.Sys

open Utils

/-- What an inode is. -/
inductive FileKind where
  | dir (parent : ℕ)
  | symlink (target : Str)
  | fifo
  | chr
  | blk
  | reg
  | sock
  deriving DecidableEq, Repr

def FileKind.d_type : FileKind → DType
  | dir _ => .DT_DIR
  | symlink _ => .DT_LNK
  | fifo => .DT_FIFO
  | chr => .DT_CHR
  | blk => .DT_BLK
  | reg => .DT_REG
  | sock => .DT_SOCK

/-- The file type of `st_mode` -/
def FileKind.ifmt : FileKind → Mode
  | dir _ => 0o040000
  | symlink _ => 0o120000
  | fifo => 0o010000
  | chr => 0o020000
  | blk => 0o060000
  | reg => 0o100000
  | sock => 0o140000

def S_IFMT (mode : Mode) : Mode := mode &&& 0o170000

/-- What stays as it is when entries are removed. -/
structure Files where
  kind : ℕ → FileKind
  root : ℕ
  /-- the working directory -/
  cwd : ℕ
  /-- the directories whose file system tells the types of their entries -/
  reports : ℕ → Bool
  /-- The kernel may keep what a call has failed to give back. -/
  keeps : Prop

def Files.IsDir (files : Files) (i : ℕ) : Prop := ∃ parent, files.kind i = .dir parent

lemma Files.isDir_iff_d_type {files : Files} {i : ℕ} :
    files.IsDir i ↔ (files.kind i).d_type = .DT_DIR := by
  rw [IsDir]
  cases files.kind i <;> simp [FileKind.d_type]

lemma Files.isDir_iff_ifmt {files : Files} {i : ℕ} :
    files.IsDir i ↔ (files.kind i).ifmt = 0o040000 := by
  rw [IsDir]
  cases files.kind i <;> simp [FileKind.ifmt]

/-- The entries of the directories, but for `.` and `..`, which are not stored. -/
@[ext] structure Entries (files : Files) where
  get : ℕ → Str → Option ℕ
  isdir : ∀ d n i, get d n = some i → files.IsDir d
  isname : ∀ d n i, get d n = some i → IsName n
  finite : ∀ d, {n | get d n ≠ none}.Finite

variable {files : Files}

namespace Entries

/-- Without one of the entries. -/
def remove (E : Entries files) (d : ℕ) (n : Str) : Entries files where
  get d' n' := if d' = d ∧ n' = n then none else E.get d' n'
  isdir d' n' i h := by
    split_ifs at h
    exact E.isdir d' n' i h
  isname d' n' i h := by
    split_ifs at h
    exact E.isname d' n' i h
  finite d' := by
    refine (E.finite d').subset fun n' (h : ite _ _ _ ≠ none) => ?_
    split_ifs at h
    · exact absurd rfl h
    · exact h

@[simp] lemma get_remove (E : Entries files) (d d' : ℕ) (n n' : Str) :
    (E.remove d n).get d' n' = if d' = d ∧ n' = n then none else E.get d' n' := rfl

/-- No entry but of the others. -/
instance : LE (Entries files) where
  le E E' := ∀ d n i, E.get d n = some i → E'.get d n = some i

/-- Where a walk starts. -/
def start (files : Files) (d : ℕ) (pathname : Str) : ℕ := if isRoot pathname then files.root else d

/-- The components of a pathname lead from one inode to another, through all symbolic links. -/
inductive Walk (E : Entries files) : ℕ → List Str → ℕ → Prop
  | here {i : ℕ} : Walk E i [] i
  | stay {d i : ℕ} {c : Str} {cs : List Str} (hd : files.IsDir d) (hc : c = [] ∨ c = str ".")
    (h : Walk E d cs i) : Walk E d (c :: cs) i
  | up {d parent i : ℕ} {cs : List Str} (hd : files.kind d = .dir parent) (h : Walk E parent cs i) :
    Walk E d (str ".." :: cs) i
  | enter {d j i : ℕ} {c : Str} {cs : List Str} (hc : E.get d c = some j)
    (hj : ∀ target, files.kind j ≠ .symlink target) (h : Walk E j cs i) : Walk E d (c :: cs) i
  | follow {d j k i : ℕ} {c target : Str} {cs : List Str} (hc : E.get d c = some j)
    (hj : files.kind j = .symlink target)
    (htarget : Walk E (start files d target) (components target) k) (h : Walk E k cs i) :
    Walk E d (c :: cs) i

/-- A pathname leads from a directory to an inode. -/
def Leads (E : Entries files) (d : ℕ) (pathname : Str) (i : ℕ) : Prop :=
  pathname ≠ [] ∧ E.Walk (start files d pathname) (components pathname) i

/-- The last name of a pathname stands in a directory. -/
def LastName (E : Entries files) (d : ℕ) (pathname : Str) (dir : ℕ) (name : Str) : Prop :=
  ∃ cs k, components pathname = cs ++ name :: List.replicate k [] ∧ IsName name ∧
    E.Walk (start files d pathname) cs dir

variable {E E' : Entries files} {d i j k : ℕ} {c n p : Str} {cs cs' : List Str}

lemma remove_le (E : Entries files) (d : ℕ) (n : Str) : E.remove d n ≤ E := by
  intro d' n' i h
  rw [get_remove] at h
  split_ifs at h
  exact h

lemma le_refl (E : Entries files) : E ≤ E := fun _ _ _ h => h

lemma le_trans {E'' : Entries files} (h : E ≤ E') (h' : E' ≤ E'') : E ≤ E'' :=
  fun d n i hi => h' d n i (h d n i hi)

/-- With fewer entries a walk leads nowhere else. -/
lemma Walk.mono (h : E.Walk d cs i) (hle : E ≤ E') : E'.Walk d cs i := by
  induction h with
  | here => exact .here
  | stay hd hc _ ih => exact .stay hd hc ih
  | up hd _ ih => exact .up hd ih
  | enter hc hj _ ih => exact .enter (hle _ _ _ hc) hj ih
  | follow hc hj _ _ ihtarget ih => exact .follow (hle _ _ _ hc) hj ihtarget ih

lemma ne_of_get (h : E.get d c = some j) : c ≠ [] ∧ c ≠ str "." ∧ c ≠ str ".." :=
  have hname := E.isname _ _ _ h
  ⟨hname.ne_nil, hname.ne_dot, hname.ne_dotdot⟩

lemma Walk.unique (h : E.Walk d cs i) (h' : E.Walk d cs j) : i = j := by
  induction h generalizing j with
  | here =>
    cases h'
    rfl
  | stay hd hc _ ih =>
    cases h' with
    | stay _ _ h' => exact ih h'
    | up => rcases hc with hc | hc <;> exact absurd hc (by decide)
    | enter hc' => grind [ne_of_get hc']
    | follow hc' => grind [ne_of_get hc']
  | up hd _ ih =>
    cases h' with
    | stay _ hc => rcases hc with hc | hc <;> exact absurd hc (by decide)
    | up hd' h' =>
      rw [hd] at hd'
      cases hd'
      exact ih h'
    | enter hc' => exact absurd rfl (ne_of_get hc').2.2
    | follow hc' => exact absurd rfl (ne_of_get hc').2.2
  | enter hc hj _ ih =>
    cases h' with
    | stay _ hc' => grind [ne_of_get hc]
    | up => exact absurd rfl (ne_of_get hc).2.2
    | enter hc' _ h' =>
      rw [hc] at hc'
      cases hc'
      exact ih h'
    | follow hc' hj' =>
      rw [hc] at hc'
      cases hc'
      exact absurd hj' (hj _)
  | follow hc hj _ _ ihtarget ih =>
    cases h' with
    | stay _ hc' => grind [ne_of_get hc]
    | up => exact absurd rfl (ne_of_get hc).2.2
    | enter hc' hj' =>
      rw [hc] at hc'
      cases hc'
      exact absurd hj (hj' _)
    | follow hc' hj' htarget' h' =>
      rw [hc] at hc'
      cases hc'
      rw [hj] at hj'
      cases hj'
      obtain rfl := ihtarget htarget'
      exact ih h'

lemma Walk.append (h : E.Walk d cs j) (h' : E.Walk j cs' i) : E.Walk d (cs ++ cs') i := by
  induction h with
  | here => exact h'
  | stay hd hc _ ih => exact .stay hd hc (ih h')
  | up hd _ ih => exact .up hd (ih h')
  | enter hc hj _ ih => exact .enter hc hj (ih h')
  | follow hc hj htarget _ _ ih => exact .follow hc hj htarget (ih h')

lemma Walk.of_append (h : E.Walk d (cs ++ cs') i) : ∃ j, E.Walk d cs j ∧ E.Walk j cs' i := by
  induction cs generalizing d with
  | nil => exact ⟨d, .here, h⟩
  | cons c cs ih =>
    cases h with
    | stay hd hc h =>
      obtain ⟨j, hj, h'⟩ := ih h
      exact ⟨j, .stay hd hc hj, h'⟩
    | up hd h =>
      obtain ⟨j, hj, h'⟩ := ih h
      exact ⟨j, .up hd hj, h'⟩
    | enter hc hk h =>
      obtain ⟨j, hj, h'⟩ := ih h
      exact ⟨j, .enter hc hk hj, h'⟩
    | follow hc hk htarget h =>
      obtain ⟨j, hj, h'⟩ := ih h
      exact ⟨j, .follow hc hk htarget hj, h'⟩

/-- An empty component leads nowhere. -/
lemma Walk.of_nil (h : E.Walk d [[]] i) : i = d := by
  cases h with
  | stay _ _ h =>
    cases h
    rfl
  | enter hc => exact absurd rfl (ne_of_get hc).1
  | follow hc => exact absurd rfl (ne_of_get hc).1

lemma components_name (hn : IsName n) : components n = [n] := Pieces.pieces_singleton hn.no_slash

lemma start_name (hn : IsName n) (d : ℕ) : start files d n = d :=
  if_neg fun hroot => hn.head? (isRoot_iff.mp hroot)

/-- A joined pathname has the components of the first part, but for an empty one at their end, and
then the name. -/
lemma components_joinpath (hp : p ≠ []) (hn : IsName n) :
    ∃ cs, components (joinpath p n) = cs ++ [n] ∧
      (components p = cs ∨ components p = cs ++ [[]]) := by
  have happend (q : Str) : components (q ++ slash :: n) = components q ++ [n] := by
    rw [components, Pieces.pieces_append_cons]
    exact congrArg (components q ++ ·) (components_name hn)
  rw [joinpath, appendpath, if_neg (by simpa using hn.ne_nil), if_neg (by simpa using hp),
    if_neg hn.head?, if_neg hn.head?]
  split_ifs with hlast
  · obtain ⟨q, rfl⟩ := List.getLast?_eq_some_iff.mp hlast
    refine ⟨components q, ?_, .inr ?_⟩
    · rw [List.append_assoc, List.singleton_append, happend]
    · rw [components, Pieces.pieces_append_cons, Pieces.pieces_singleton List.not_mem_nil]
      rfl
  · refine ⟨components p, ?_, .inl rfl⟩
    rw [List.append_assoc, List.singleton_append, happend]

lemma start_joinpath (hp : p ≠ []) (d : ℕ) : start files d (joinpath p n) = start files d p := by
  have hhead : (joinpath p n).head? = p.head? := by
    obtain ⟨b, q, rfl⟩ := List.exists_cons_of_ne_nil hp
    rw [joinpath, appendpath]
    split_ifs <;> simp_all
  rw [start, start, isRoot, isRoot, hhead]

lemma Leads.mono (h : E.Leads d p i) (hle : E ≤ E') : E'.Leads d p i := ⟨h.1, h.2.mono hle⟩

lemma LastName.mono (h : E.LastName d p i n) (hle : E ≤ E') : E'.LastName d p i n := by
  obtain ⟨cs, k, hcs, hn, hwalk⟩ := h
  exact ⟨cs, k, hcs, hn, hwalk.mono hle⟩

lemma Leads.unique (h : E.Leads d p i) (h' : E.Leads d p j) : i = j := h.2.unique h'.2

lemma leads_dot (h : E.Leads d (str ".") i) : i = d := by
  obtain ⟨-, hwalk⟩ := h
  have hcomponents : components (str ".") = [str "."] := Pieces.pieces_singleton (by decide)
  rw [hcomponents] at hwalk
  have hstart : start files d (str ".") = d := rfl
  rw [hstart] at hwalk
  cases hwalk with
  | stay _ _ h =>
    cases h
    rfl
  | enter hc => exact absurd rfl (ne_of_get hc).2.1
  | follow hc => exact absurd rfl (ne_of_get hc).2.1

lemma not_symlink (h : files.IsDir i) (target : Str) : files.kind i ≠ .symlink target := by
  obtain ⟨parent, hparent⟩ := h
  rw [hparent]
  exact FileKind.noConfusion

/-- The name of a directory leads to the directory. -/
lemma Leads.eq_of_isDir (h : E.Leads d n i) (hn : E.get d n = some j) (hj : files.IsDir j) :
    i = j := by
  obtain ⟨-, hwalk⟩ := h
  have hname := E.isname _ _ _ hn
  rw [components_name hname, start_name hname] at hwalk
  exact hwalk.unique (.enter hn (not_symlink hj) .here)

lemma Walk.stays (h : files.IsDir i) (k : ℕ) : E.Walk i (List.replicate k []) i := by
  induction k with
  | zero => exact .here
  | succ k ih => exact .stay h (.inl rfl) ih

/-- A pathname whose last name is that of a directory leads to the directory. -/
lemma LastName.leads (h : E.LastName d p j n) (hn : E.get j n = some i) (hi : files.IsDir i) :
    E.Leads d p i := by
  obtain ⟨cs, k, hcs, hname, hwalk⟩ := h
  constructor
  · rintro rfl
    have hnil : components [] = [[]] := Pieces.pieces_singleton List.not_mem_nil
    rw [hnil] at hcs
    have hmem : n ∈ [([] : Str)] := hcs ▸ by simp
    exact hname.ne_nil (List.mem_singleton.mp hmem)
  · rw [hcs]
    exact hwalk.append (.enter hn (not_symlink hi) (.stays hi k))

lemma rdropWhile_last (cs : List Str) (hn : n ≠ []) (k : ℕ) :
    (cs ++ n :: List.replicate k []).rdropWhile List.isEmpty = cs ++ [n] := by
  induction k with
  | zero => exact List.rdropWhile_concat_neg _ _ _ (by simpa using hn)
  | succ k ih =>
    rw [List.replicate_succ', ← List.cons_append, ← List.append_assoc,
      List.rdropWhile_concat_pos _ _ _ rfl, ih]

/-- There is only one last name. -/
lemma LastName.unique (h : E.LastName d p i n) (h' : E.LastName d p j c) : i = j ∧ n = c := by
  obtain ⟨cs, k, hcs, hn, hwalk⟩ := h
  obtain ⟨cs', k', hcs', hc, hwalk'⟩ := h'
  have hlast := rdropWhile_last cs hn.ne_nil k
  rw [← hcs, hcs', rdropWhile_last cs' hc.ne_nil k'] at hlast
  obtain ⟨rfl, hname⟩ := List.append_inj' hlast rfl
  exact ⟨hwalk.unique hwalk', (List.singleton_inj.mp hname).symm⟩

/-- Where a joined pathname leads. -/
lemma Leads.joinpath (hp : E.Leads d p i) (hn : IsName n) (h : E.Leads i n j) :
    E.Leads d (joinpath p n) j := by
  obtain ⟨hne, hwalk⟩ := hp
  obtain ⟨-, hlast⟩ := h
  obtain ⟨cs, hjoin, hcs⟩ := components_joinpath hne hn
  rw [components_name hn, start_name hn] at hlast
  have hwalk' : E.Walk (start files d p) cs i := by
    rcases hcs with rfl | hcs
    · exact hwalk
    · rw [hcs] at hwalk
      obtain ⟨k, hk, hend⟩ := hwalk.of_append
      obtain rfl := hend.of_nil
      exact hk
  refine ⟨fun hnil => ?_, ?_⟩
  · have hcomponents := hjoin
    rw [hnil, components, Pieces.pieces_singleton List.not_mem_nil] at hcomponents
    have hend := congrArg List.getLast? hcomponents
    simp only [List.getLast?_singleton, List.getLast?_append, Option.some_or,
      Option.some.injEq] at hend
    exact hn.ne_nil hend.symm
  · rw [start_joinpath hne, hjoin]
    exact hwalk'.append hlast

/-- The last name of a joined pathname stands where its first part leads. -/
lemma LastName.joinpath (hp : E.Leads d p i) (hn : IsName n)
    (h : E.LastName d (joinpath p n) j c) : j = i ∧ c = n := by
  obtain ⟨hne, hwalk⟩ := hp
  obtain ⟨cs', k, hcs', hc, hwalk'⟩ := h
  obtain ⟨cs, hjoin, hcs⟩ := components_joinpath hne hn
  rw [start_joinpath hne] at hwalk'
  rw [hjoin] at hcs'
  -- nothing stands behind the name
  have hk : k = 0 := by
    by_contra hk
    obtain ⟨k, rfl⟩ := Nat.exists_eq_succ_of_ne_zero hk
    rw [List.replicate_succ', ← List.cons_append, ← List.append_assoc] at hcs'
    exact hn.ne_nil (List.singleton_inj.mp (List.append_inj_right' hcs' rfl))
  subst hk
  obtain ⟨rfl, hcn⟩ := List.append_inj' hcs' rfl
  obtain rfl : n = c := by simpa using hcn
  refine ⟨?_, rfl⟩
  rcases hcs with rfl | hcs
  · exact hwalk'.unique hwalk
  · rw [hcs] at hwalk
    obtain ⟨m, hm, hend⟩ := hwalk.of_append
    obtain rfl := hend.of_nil
    exact hwalk'.unique hm

end Entries

/-! ### The kernel -/

/-- An open directory, with the descriptor that belongs to it and what has not been read yet. -/
structure DirStream where
  fd : Fd
  ino : ℕ
  rest : List (Str × ℕ)

structure Dirs (files : Files) where
  entries : Entries files
  fds : Fd → Option ℕ
  streams : Dir → Option DirStream

namespace Dirs

def setFd (s : Dirs files) (fd : Fd) (i : Option ℕ) : Dirs files :=
  { s with fds := Function.update s.fds fd i }

def setStream (s : Dirs files) (dirp : Dir) (stream : Option DirStream) : Dirs files :=
  { s with streams := Function.update s.streams dirp stream }

def remove (s : Dirs files) (d : ℕ) (n : Str) : Dirs files :=
  { s with entries := s.entries.remove d n }

/-- The entries of a directory, in any order. Not every file system stores `.` and `..`. -/
structure Listing (E : Entries files) (d : ℕ) (rest : List (Str × ℕ)) : Prop where
  isdir : files.IsDir d
  nodup : (rest.map Prod.fst).Nodup
  all : ∀ n i, E.get d n = some i → (n, i) ∈ rest
  only : ∀ n i, (n, i) ∈ rest → n = str "." ∨ n = str ".." ∨ E.get d n = some i

/-- The type that is read with an entry of the directory. -/
def Typed (files : Files) (d i : ℕ) (type : DType) : Prop :=
  type = (files.kind i).d_type ∨ files.reports d = false ∧ type = .DT_UNKNOWN

/-- The kernel may answer a call so, and go on in another state. Any call may fail. -/
def step (s : Dirs files) : (c : PathCall) → c.Reply → Dirs files → Prop
  | .openPath pathname flags, .ok fd, s' =>
    s.fds fd = none ∧ ∃ i, s.entries.Leads files.cwd pathname i ∧
      (.O_DIRECTORY ∈ flags → files.IsDir i) ∧ s' = s.setFd fd (some i)
  | .openPath _ _, .error _, s' => s' = s
  | .openat dirfd pathname flags, .ok fd, s' =>
    s.fds fd = none ∧ ∃ d i, s.fds dirfd = some d ∧ s.entries.Leads d pathname i ∧
      (.O_DIRECTORY ∈ flags → files.IsDir i) ∧ s' = s.setFd fd (some i)
  | .openat _ _ _, .error _, s' => s' = s
  | .fdopendir fd, .ok dirp, s' =>
    s.streams dirp = none ∧ ∃ d rest, s.fds fd = some d ∧ Listing s.entries d rest ∧
      s' = s.setStream dirp (some ⟨fd, d, rest⟩)
  | .fdopendir _, .error _, s' => s' = s
  | .fpathconf _, _, s' => s' = s
  | .malloc _, _, s' => s' = s
  | .readdir_r dirp, .ok (some entry), s' =>
    ∃ stream i, s.streams dirp = some stream ∧ (entry.d_name, i) ∈ stream.rest ∧
      Typed files stream.ino i entry.d_type ∧
      s' = s.setStream dirp (some { stream with rest := stream.rest.erase (entry.d_name, i) })
  -- an entry that has been removed since need not be read
  | .readdir_r dirp, .ok none, s' =>
    ∃ stream, s.streams dirp = some stream ∧
      (∀ n i, (n, i) ∈ stream.rest → s.entries.get stream.ino n = none) ∧ s' = s
  | .readdir_r _, .error _, s' => s' = s
  | .closedir dirp, res, s' =>
    ∃ stream, s.streams dirp = some stream ∧
      GivesBack files.keeps res s ((s.setStream dirp none).setFd stream.fd none) s'
  | .close fd, res, s' => GivesBack files.keeps res s (s.setFd fd none) s'
  | .fstatat dirfd pathname, .ok st, s' =>
    (∃ d i, s.fds dirfd = some d ∧ s.entries.Leads d pathname i ∧
      S_IFMT st.st_mode = (files.kind i).ifmt) ∧ s' = s
  | .fstatat _ _, .error _, s' => s' = s
  | .unlinkat dirfd pathname, .ok _, s' =>
    ∃ d dir n i, s.fds dirfd = some d ∧ s.entries.LastName d pathname dir n ∧
      s.entries.get dir n = some i ∧ ¬ files.IsDir i ∧ s' = s.remove dir n
  | .unlinkat _ _, .error _, s' => s' = s
  | .rmdir pathname, .ok _, s' =>
    ∃ dir n i, s.entries.LastName files.cwd pathname dir n ∧ s.entries.get dir n = some i ∧
      files.IsDir i ∧ (∀ n', s.entries.get i n' = none) ∧ s' = s.remove dir n
  | .rmdir _, .error _, s' => s' = s

/-- No call makes an entry, and none takes the entry of a directory that is not empty. -/
lemma step_entries {s s' : Dirs files} {c : PathCall} {r : c.Reply} (h : s.step c r s') :
    s'.entries = s.entries ∨ ∃ d n i, s.entries.get d n = some i ∧
      (files.IsDir i → ∀ n', s.entries.get i n' = none) ∧ s'.entries = s.entries.remove d n := by
  cases c with
  | openPath =>
    cases r with
    | error => exact .inl (h ▸ rfl)
    | ok =>
      obtain ⟨-, -, -, -, rfl⟩ := h
      exact .inl rfl
  | openat =>
    cases r with
    | error => exact .inl (h ▸ rfl)
    | ok =>
      obtain ⟨-, -, -, -, -, -, rfl⟩ := h
      exact .inl rfl
  | fdopendir =>
    cases r with
    | error => exact .inl (h ▸ rfl)
    | ok =>
      obtain ⟨-, -, -, -, -, rfl⟩ := h
      exact .inl rfl
  | fpathconf => exact .inl (h ▸ rfl)
  | malloc => exact .inl (h ▸ rfl)
  | readdir_r =>
    rcases r with _ | _ | _
    · exact .inl (h ▸ rfl)
    · obtain ⟨-, -, -, rfl⟩ := h
      exact .inl rfl
    · obtain ⟨-, -, -, -, -, rfl⟩ := h
      exact .inl rfl
  | closedir =>
    obtain ⟨_, -, hgives⟩ := h
    exact .inl (GivesBack.same hgives entries rfl)
  | close => exact .inl (GivesBack.same h entries rfl)
  | fstatat =>
    cases r with
    | error => exact .inl (h ▸ rfl)
    | ok => exact .inl (h.2 ▸ rfl)
  | unlinkat =>
    cases r with
    | error => exact .inl (h ▸ rfl)
    | ok =>
      obtain ⟨-, dir, n, i, -, -, hi, hdir, rfl⟩ := h
      exact .inr ⟨dir, n, i, hi, fun hdir' => absurd hdir' hdir, rfl⟩
  | rmdir =>
    cases r with
    | error => exact .inl (h ▸ rfl)
    | ok =>
      obtain ⟨dir, n, i, -, hi, -, hempty, rfl⟩ := h
      exact .inr ⟨dir, n, i, hi, fun _ => hempty, rfl⟩

end Dirs

end Libept.Sys
