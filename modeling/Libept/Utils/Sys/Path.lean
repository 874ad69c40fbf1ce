import Libept.Utils.Sys.Makedirs

/-!
# Directories as they are read

`Path` is a path on the file system that is opened for being looked at, and `Path::iterator` reads
its entries. An iterator at the end is `none`, and any other one has a stream of entries and the
entry that it has read last. An object is destroyed at the end of its block, also when an exception
leaves it: what a destructor does stands in `scope`. The mode of the `open` calls is for a file that
they create, which none of these does.
-/

namespace Libept.Sys

open Utils

/-! ### System calls -/

inductive PathFlag where
  | O_PATH
  | O_DIRECTORY
  deriving DecidableEq, Repr

/-- `DIR *` -/
abbrev Dir := ℕ

/-- The values of `d_type` -/
inductive DType where
  | DT_UNKNOWN
  | DT_FIFO
  | DT_CHR
  | DT_DIR
  | DT_BLK
  | DT_REG
  | DT_LNK
  | DT_SOCK
  deriving DecidableEq, Repr

structure Dirent where
  d_name : Str
  d_type : DType
  deriving DecidableEq, Repr

inductive PathCall where
  /-- `open` -/
  | openPath (pathname : Str) (flags : List PathFlag)
  | openat (dirfd : Fd) (pathname : Str) (flags : List PathFlag)
  | fdopendir (fd : Fd)
  /-- `fpathconf` for `_PC_NAME_MAX` -/
  | fpathconf (fd : Fd)
  | malloc (size : ℕ)
  | readdir_r (dirp : Dir)
  | closedir (dirp : Dir)
  | close (fd : Fd)
  | fstatat (dirfd : Fd) (pathname : Str)
  | unlinkat (dirfd : Fd) (pathname : Str)
  | rmdir (pathname : Str)
  deriving DecidableEq, Repr

abbrev PathCall.Reply : PathCall → Type
  | openPath _ _ => Except Errno Fd
  | openat _ _ _ => Except Errno Fd
  | fdopendir _ => Except Errno Dir
  | fpathconf _ => Option ℕ
  -- whether there was memory
  | malloc _ => Bool
  -- nothing at the end of the stream
  | readdir_r _ => Except Errno (Option Dirent)
  | closedir _ => Except Errno Unit
  | close _ => Except Errno Unit
  | fstatat _ _ => Except Errno Stat
  | unlinkat _ _ => Except Errno Unit
  | rmdir _ => Except Errno Unit

inductive PathError where
  | systemError (error : SystemError)
  | bad_alloc
  deriving DecidableEq, Repr

/-- What is thrown is an exception of the source, or else `none` when a bound on the steps has been
reached. -/
abbrev PathProg := Prog PathCall PathCall.Reply (Option PathError)

variable {α : Type}

/-! ### Paths -/

structure Path where
  fd : Fd
  pathname : Str
  deriving DecidableEq, Repr

namespace Path

def ask (c : PathCall) : PathProg c.Reply := Prog.ask c

/-- The value, or an exception that tells what could not be done. -/
def checkCall (what_arg : Str) : Except Errno α → PathProg α
  | .ok a => pure a
  | .error code => .throw (some (.systemError ⟨code, what_arg⟩))

/-- `throw_error`, for a call that may have failed. -/
def check (path : Path) (desc : Str) : Except Errno α → PathProg α :=
  checkCall (path.pathname ++ str ": " ++ desc)

/-- The constructor that opens the pathname. -/
def openNew (pathname : Str) (flags : List PathFlag) : PathProg Path := do
  let res ← ask (.openPath pathname (flags ++ [.O_PATH]))
  let fd ← checkCall (pathname ++ str ": " ++ str "cannot open path") res
  pure ⟨fd, pathname⟩

def openat (path : Path) (pathname : Str) (flags : List PathFlag) : PathProg Fd := do
  let res ← ask (.openat path.fd pathname flags)
  path.check (str "cannot openat") res

/-- The constructor that opens a pathname in a parent. -/
def openIn (parent : Path) (pathname : Str) (flags : List PathFlag) : PathProg Path := do
  let fd ← parent.openat pathname (flags ++ [.O_PATH])
  pure ⟨fd, joinpath parent.pathname pathname⟩

/-- The block of a path, which its destructor closes at the end. -/
def scope (path : Path) (x : PathProg α) : PathProg α :=
  x.andFinally do
    let _ ← ask (.close path.fd)

def fdopendir (path : Path) : PathProg Dir := do
  let res ← ask (.openat path.fd (str ".") [.O_DIRECTORY])
  let fd1 ← path.check (str "cannot open directory") res
  let res ← ask (.fdopendir fd1)
  path.check (str "cannot fdopendir") res

def fstatat (path : Path) (pathname : Str) : PathProg Stat := do
  let res ← ask (.fstatat path.fd pathname)
  path.check (str "cannot fstatat") res

def unlinkat (path : Path) (pathname : Str) : PathProg Unit := do
  let res ← ask (.unlinkat path.fd pathname)
  path.check (str "cannot unlinkat") res

/-! ### Entries -/

/-- An iterator that is not at the end. -/
structure iterator where
  path : Path
  dir : Dir
  cur_entry : Dirent

namespace iterator

/-- What `operator++` makes of an iterator. -/
def next (path : Path) (dir : Dir) : PathProg (Option iterator) := do
  let res ← ask (.readdir_r dir)
  let result ← path.check (str "cannot readdir_r") res
  match result with
  | some cur_entry => pure (some ⟨path, dir, cur_entry⟩)
  | none => do
    -- turn into an end iterator
    let _ ← ask (.closedir dir)
    pure none

/-- `offsetof(dirent, d_name)` -/
def offsetof_d_name : ℕ := 19

/-- The constructor that starts the iteration. It is not finished when an exception leaves it, so
that no destructor runs. -/
def new (dir : Path) : PathProg (Option iterator) := do
  let dirp ← dir.fdopendir
  let name_max ← ask (.fpathconf dir.fd)
  -- limit not defined, or error: take a guess
  let name_max := name_max.getD 255
  let allocated ← ask (.malloc (offsetof_d_name + name_max + 1))
  if !allocated then .throw (some .bad_alloc) else next dir dirp

/-- What is done with an iterator. If an exception leaves its block, the destructor closes the
directory. -/
def scope (i : iterator) (x : PathProg α) : PathProg α :=
  x.onThrow do
    let _ ← ask (.closedir i.dir)

def isdir (i : iterator) : PathProg Bool :=
  if i.cur_entry.d_type = .DT_DIR then pure true
  else if i.cur_entry.d_type ≠ .DT_UNKNOWN then pure false
  else do
    -- no `d_type`, we'll need to stat
    let st ← i.path.fstatat i.cur_entry.d_name
    pure (S_ISDIR st.st_mode)

end iterator

/-! ### Removing a directory -/

/-- What the loop of `rmtree` does with an entry. `rmtree` is what is called for a directory in
this one. -/
def rmtreeEntry (rmtree : Path → PathProg Unit) (path : Path) (i : iterator) : PathProg Unit :=
  let d_name := i.cur_entry.d_name
  if d_name = str "." ∨ d_name = str ".." then pure ()
  else do
    let isdir ← i.isdir
    if isdir then do
      let sub ← path.openIn d_name []
      sub.scope (rmtree sub)
    else path.unlinkat d_name

/-- The loop of `rmtree`, with the turns that are left. -/
def rmtreeLoop (rmtree : Path → PathProg Unit) (path : Path) : ℕ → Option iterator → PathProg Unit
  | _, none => pure ()
  | 0, some _ => .throw none
  | n + 1, some i => do
    let next ← i.scope do
      rmtreeEntry rmtree path i
      iterator.next path i.dir
    rmtreeLoop rmtree path n next

/-- `rmdir`, of the header for system functions -/
def rmdir (pathname : Str) : PathProg Unit := do
  let res ← ask (.rmdir pathname)
  checkCall (str "cannot rmdir " ++ pathname) res

/-- `rmtree`, as far as it calls itself less than so many times, and its loops have as many
turns. -/
def rmtree : ℕ → Path → PathProg Unit
  | 0, _ => .throw none
  | n + 1, path => do
    let i ← iterator.new path
    rmtreeLoop (rmtree n) path n i
    rmdir path.pathname

end Path

/-- Delete the directory and all its contents. -/
def rmtree (n : ℕ) (pathname : Str) : PathProg Unit := do
  let path ← Path.openNew pathname []
  path.scope (path.rmtree n)

end Libept.Sys
