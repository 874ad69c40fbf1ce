import Libept.Utils.Basic

/-!
# What libapt provides

The package cache, as far as `apt/apt.cc` looks into it, and `FileFd`, with which it reads package
files. How the system answers is an input: a file may be out of date or fail to open, and seeking
and reading may fail and leave the file anywhere.
-/

namespace Libept.Apt

/-- The exceptions that are thrown, by the message they are made with. The messages pending in
libapt, which the constructor appends, are left out. -/
structure Exception where
  message : Str
  deriving DecidableEq

/-! ### The package cache -/

structure PkgCache.PackageFile where
  FileName : Str
  /-- `Flags & Flag::NotSource` -/
  NotSource : Bool

/-- Where a record is: the package file, and the bytes in it, which are not beyond what an `off_t`
can tell. -/
structure PkgCache.VerFile where
  File : ℕ
  Offset : UInt64
  Size : UInt64
  fits : Offset.toNat + Size.toNat < 2 ^ 63
  deriving DecidableEq

structure PkgCache.Version where
  VerStr : Option Str
  FileList : List PkgCache.VerFile

structure PkgCache.Package where
  Name : Str
  VersionList : List PkgCache.Version
  CurrentVer : Option PkgCache.Version

open PkgCache

structure PkgCache where
  /-- The packages in the order in which a `PkgIterator` visits them. -/
  packages : List Package
  /-- What the field `File` of a location designates. -/
  packageFile : ℕ → PackageFile

/-! ### Files -/

/-- What is in a file, which is not longer than an `off_t` can tell. -/
structure Contents where
  bytes : Str
  length_lt : bytes.length < 2 ^ 63

/-- How the system answers the calls that are made for one record. -/
structure Env where
  disk : Str → Contents
  /-- `PkgFileIterator::IsOk` -/
  isOk : Bool
  opens : Bool
  /-- Where the file is left if a `Seek` fails. -/
  seekFails : Option ℕ
  /-- Where the file is left if a `Read` fails. -/
  readFails : Option ℕ

/-- A system on which no call fails. -/
def Env.working (disk : Str → Contents) : Env := ⟨disk, true, true, none, none⟩

/-- Where the file is left if a `Read` of `n` bytes fails, which it also does at the end of the
file. -/
def Env.readFailure (env : Env) (name : Str) (pos n : ℕ) : Option ℕ :=
  match env.readFails with
  | some p => some p
  | none => if pos + n ≤ (env.disk name).bytes.length then none
    else some (env.disk name).bytes.length

inductive FileFd where
  | closed
  | onFile (name : Str) (pos : ℕ)
  deriving DecidableEq

namespace FileFd

def IsOpen : FileFd → Bool
  | closed => false
  | onFile _ _ => true

def Close (_ : FileFd) : FileFd := closed

def Open (env : Env) (name : Str) : Bool × FileFd :=
  if env.opens then (true, onFile name 0) else (false, closed)

def Seek (env : Env) (offset : ℕ) : FileFd → Bool × FileFd
  | closed => (false, closed)
  | onFile name _ =>
    match env.seekFails with
    | some p => (false, onFile name p)
    | none => (true, onFile name offset)

def Read (env : Env) (n : ℕ) : FileFd → Option Str × FileFd
  | closed => (none, closed)
  | onFile name pos =>
    match env.readFailure name pos n with
    | some p => (none, onFile name p)
    | none => (some (((env.disk name).bytes.drop pos).take n), onFile name (pos + n))

end FileFd

end Libept.Apt
