import Libept.Lib.Prog
import Libept.Utils.Basic

/-!
# Writing files

`write_file` and `write_file_atomically`, with the system calls that they make. A path name holds
no NUL, so that what `c_str` gives is the whole of it. An object of class `File` is moved or
returned by value only, so it is a value here, and a file that has been closed is not used again.
-/

namespace Libept.Sys

/-! ### System calls -/

/-- `mode_t` -/
abbrev Mode := UInt32

abbrev Errno := ℕ

abbrev Fd := ℕ

inductive OpenFlag where
  | O_WRONLY
  | O_CREAT
  | O_TRUNC
  deriving DecidableEq, Repr

inductive Call where
  /-- `open` -/
  | openFile (pathname : Str) (flags : List OpenFlag) (mode : Mode)
  | mkstemp (template : Str)
  | umask (mask : Mode)
  | fchmod (fd : Fd) (mode : Mode)
  | write (fd : Fd) (buf : Str)
  | close (fd : Fd)
  | rename (oldpath newpath : Str)
  deriving DecidableEq, Repr

/-- How many bytes of a buffer have been written: one at least, if there is one. -/
structure Stored (buf : Str) where
  count : ℕ
  le_length : count ≤ buf.length
  pos : buf ≠ [] → 0 < count

/-- What a call answers. A call that fails sets `errno`. -/
abbrev Call.Reply : Call → Type
  | openFile _ _ _ => Except Errno Fd
  -- with what the template has been overwritten with
  | mkstemp _ => Except Errno Fd × Str
  | umask _ => Mode
  | fchmod _ _ => Except Errno Unit
  | write _ buf => Except Errno (Stored buf)
  | close _ => Except Errno Unit
  | rename _ _ => Except Errno Unit

def Call.failed : (c : Call) × c.Reply → Bool
  | ⟨openFile _ _ _, r⟩ => !r.isOk
  | ⟨mkstemp _, r⟩ => !r.1.isOk
  | ⟨umask _, _⟩ => false
  | ⟨fchmod _ _, r⟩ => !r.isOk
  | ⟨write _ _, r⟩ => !r.isOk
  | ⟨close _, r⟩ => !r.isOk
  | ⟨rename _ _, r⟩ => !r.isOk

/-- `std::system_error`, of the system category. -/
structure SystemError where
  code : Errno
  what_arg : Str
  deriving DecidableEq, Repr

abbrev SysProg := Prog Call Call.Reply SystemError

def ask (c : Call) : SysProg c.Reply := Prog.ask c

variable {α : Type}

/-- The value, or an exception that tells what could not be done. -/
def check (what_arg : Str) : Except Errno α → SysProg α
  | .ok a => pure a
  | .error code => .throw ⟨code, what_arg⟩

def umask (mask : Mode) : SysProg Mode := ask (.umask mask)

/-! ### Files -/

structure File where
  fd : Fd
  pathname : Str
  deriving DecidableEq, Repr

namespace File

/-- The constructor that opens the file. -/
def openNew (pathname : Str) (flags : List OpenFlag) (mode : Mode) : SysProg File := do
  let res ← ask (.openFile pathname flags mode)
  let fd ← check (str "cannot open file " ++ pathname) res
  pure ⟨fd, pathname⟩

def mkstemp (stem : Str) : SysProg File := do
  let (res, fbuf) ← ask (.mkstemp (stem ++ str "XXXXXX"))
  let fd ← check (str "cannot create temporary file " ++ fbuf) res
  pure ⟨fd, fbuf⟩

/-- `throw_error`, for a call that may have failed. -/
def checkNamed (out : File) (desc : Str) : Except Errno α → SysProg α :=
  check (out.pathname ++ str ": " ++ desc)

def close (out : File) : SysProg Unit := do
  let res ← ask (.close out.fd)
  out.checkNamed (str "cannot close") res

def fchmod (out : File) (mode : Mode) : SysProg Unit := do
  let res ← ask (.fchmod out.fd mode)
  out.checkNamed (str "cannot fchmod") res

def write (out : File) (buf : Str) : SysProg (Stored buf) := do
  let res ← ask (.write out.fd buf)
  out.checkNamed (str "cannot write") res

/-- The loop of `write_all`. -/
def writeLoop (out : File) (buf : Str) (written : ℕ) : SysProg Unit :=
  if written < buf.length then do
    let n ← out.write (buf.drop written)
    out.writeLoop buf (written + n.count)
  else pure ()
termination_by buf.length - written
decreasing_by
  have hpos := n.pos (by simpa using ‹written < buf.length›)
  omega

/-- Write all the data in `buf`, retrying partial writes. -/
def write_all (out : File) (buf : Str) : SysProg Unit := out.writeLoop buf 0

/-- What is done up to `close`, after which the destructor has nothing left to do. If an exception
leaves the scope before, the destructor closes the file, and does not check for errors. -/
def scope (out : File) (x : SysProg α) : SysProg α :=
  x.onThrow do
    let _ ← ask (.close out.fd)

end File

/-! ### Writing a file -/

def write_file (file data : Str) (mode : Mode) : SysProg Unit := do
  let out ← File.openNew file [.O_WRONLY, .O_CREAT] mode
  out.scope do
    out.write_all data
    out.close

def write_file_atomically (file data : Str) (mode : Mode) : SysProg Unit := do
  let out ← File.mkstemp file
  out.scope do
    -- read the umask
    let mask ← umask 0o777
    let _ ← umask mask
    -- set the file permissions, honoring umask
    out.fchmod (mode &&& ~~~mask)
    out.write_all data
    out.close
  let res ← ask (.rename out.pathname file)
  check (str "cannot rename " ++ out.pathname ++ str " to " ++ file) res

end Libept.Sys
