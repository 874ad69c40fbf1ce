import Libept.Utils.Sys

/-!
# Reading files

`read_file`, and what is read through a stream of the C library. A stream goes by its descriptor.
Its bytes are got one after the other until there are no more; reading does not fail. What the
parsers do with the bytes is what they do with all of them at once.
-/

namespace Libept.Sys

/-! ### System calls -/

/-- `time_t` -/
abbrev Time := ℤ

/-- An address of the memory of the process. -/
abbrev Addr := ℕ

/-- What is asked of a `struct stat`. -/
structure FileStat where
  st_size : ℕ
  st_mtime : Time
  deriving DecidableEq, Repr

inductive ReadCall where
  /-- `access` for `F_OK` -/
  | access (pathname : Str)
  /-- `open` for `O_RDONLY` -/
  | openFile (pathname : Str)
  | fopen (pathname mode : Str)
  /-- the bytes that are got next from a stream -/
  | read (stream : Fd)
  | fclose (stream : Fd)
  | close (fd : Fd)
  | fstat (fd : Fd)
  | stat (pathname : Str)
  /-- `mmap` for `PROT_READ` and `MAP_SHARED`, from the start of the file -/
  | mmap (fd : Fd) (length : ℕ)
  /-- the bytes at an address -/
  | load (addr : Addr) (length : ℕ)
  | munmap (addr : Addr) (length : ℕ)
  deriving DecidableEq, Repr

abbrev ReadCall.Reply : ReadCall → Type
  | access _ => Bool
  | openFile _ => Except Errno Fd
  | fopen _ _ => Except Errno Fd
  -- nothing at the end of the file
  | read _ => Str
  | fclose _ => Except Errno Unit
  | close _ => Except Errno Unit
  | fstat _ => Except Errno FileStat
  | stat _ => Except Errno FileStat
  | mmap _ _ => Except Errno Addr
  | load _ _ => Str
  | munmap _ _ => Except Errno Unit

/-- An error of a call, or of what is done with the bytes. -/
inductive ReadError where
  | systemError (error : SystemError)
  | failure (error : Failure)
  deriving DecidableEq, Repr

/-- What is thrown is an exception of the source, or else `none` when a bound on the steps has been
reached. -/
abbrev ReadProg := Prog ReadCall ReadCall.Reply (Option ReadError)

variable {α : Type}

def askRead (c : ReadCall) : ReadProg c.Reply := Prog.ask c

/-- The value, or an exception that tells what could not be done. -/
def checkRead (what_arg : Str) : Except Errno α → ReadProg α
  | .ok a => pure a
  | .error code => .throw (some (.systemError ⟨code, what_arg⟩))

/-- `std::errc::no_such_file_or_directory` -/
def noent : Errno := 2

def exists_ (file : Str) : ReadProg Bool := askRead (.access file)

/-- The `stat` that gives nothing if there is no such file. -/
def statFile (pathname : Str) : ReadProg (Option FileStat) := do
  let res ← askRead (.stat pathname)
  match res with
  | .ok st => pure (some st)
  | .error errno =>
    if errno = noent then pure none
    else .throw (some (.systemError ⟨errno, str "cannot stat " ++ pathname⟩))

/-- File mtime, or `def_` if the file does not exist. -/
def timestamp (file : Str) (def_ : Time) : ReadProg Time := do
  let st ← statFile file
  pure (match st with
    | some st => st.st_mtime
    | none => def_)

/-! ### Whole files -/

/-- A memory area, which is unmapped on destruction. -/
structure MMap where
  addr : Addr
  length : ℕ
  deriving DecidableEq, Repr

namespace File

/-- The constructor that opens the file for reading. -/
def openRead (pathname : Str) : ReadProg File := do
  let res ← askRead (.openFile pathname)
  let fd ← checkRead (str "cannot open file " ++ pathname) res
  pure ⟨fd, pathname⟩

/-- The block of a file, which its destructor closes at the end. -/
def readScope (in_ : File) (x : ReadProg α) : ReadProg α :=
  x.andFinally do
    let _ ← askRead (.close in_.fd)

def fstat (in_ : File) : ReadProg FileStat := do
  let res ← askRead (.fstat in_.fd)
  checkRead (in_.pathname ++ str ": " ++ str "cannot stat") res

def mmap (in_ : File) (length : ℕ) : ReadProg MMap := do
  let res ← askRead (.mmap in_.fd length)
  let addr ← checkRead (in_.pathname ++ str ": " ++ str "cannot mmap") res
  pure ⟨addr, length⟩

end File

/-- The block of a memory area. -/
def MMap.scope (src : MMap) (x : ReadProg α) : ReadProg α :=
  x.andFinally do
    let _ ← askRead (.munmap src.addr src.length)

/-- Read whole file into memory. -/
def read_file (file : Str) : ReadProg Str := do
  let in_ ← File.openRead file
  in_.readScope do
    -- get the file size
    let st ← in_.fstat
    -- mmap the input file
    let src ← in_.mmap st.st_size
    src.scope (askRead (.load src.addr st.st_size))

/-! ### Streams -/

/-- All bytes of a stream, got so many times at most. -/
def readAll : ℕ → Fd → Str → ReadProg Str
  | 0, _, _ => .throw none
  | n + 1, stream, bytes => do
    let more ← askRead (.read stream)
    if more = [] then pure bytes else readAll n stream (bytes ++ more)

/-- The outcome of a parser. -/
def outcome : Option (Except Failure Unit × α) → ReadProg α
  | none => .throw none
  | some (.error e, _) => .throw (some (.failure e))
  | some (.ok (), a) => pure a

/-- A file is opened, parsed and closed. If the parser throws, the file is closed as well. -/
def parseFile (n : ℕ) (pathname : Str) (parse : Str → Option (Except Failure Unit × α)) :
    ReadProg α := do
  let res ← askRead (.fopen pathname (str "rt"))
  let in_ ← checkRead (str "cannot open " ++ pathname) res
  Prog.andFinally (do
    let input ← readAll n in_ []
    outcome (parse input)) do
      let _ ← askRead (.fclose in_)

/-- What is read of a file, with the time at which the file has been changed. -/
def loadFile (n : ℕ) (pathname : Str) (parse : Str → Option (Except Failure Unit × α)) :
    ReadProg (α × Time) := do
  let a ← parseFile n pathname parse
  let m_timestamp ← timestamp pathname 0
  pure (a, m_timestamp)

end Libept.Sys
