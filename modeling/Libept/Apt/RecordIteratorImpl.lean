import Libept.Apt.AptImplementation
import Libept.Lib.CInt
import Libept.Lib.Sorter

/-!
# Reading the records of the packages

`RecordIteratorImpl` collects where the record of each package is, and reads the records. It keeps
the last file open and remembers where in it the last record ended, so that records that follow
each other are read without seeking.
-/

namespace Libept.Apt

open PkgCache

/-- The reference `apt` is what it refers to. -/
structure RecordIteratorImpl where
  _ref : ℤ
  apt : AptImplementation
  vflist : List VerFile
  lastFile : Option ℕ
  file : FileFd
  lastOffset : UInt64

/-- The comparison that sorts the locations. None of the pointers to them is null. -/
def localityCompare (a b : VerFile) : Bool :=
  if a.File = b.File then a.Offset < b.Offset else a.File < b.File

namespace RecordIteratorImpl

/-! ### Collecting the locations -/

def isSource (apt : AptImplementation) (vf : VerFile) : Bool :=
  !(apt.m_cache.packageFile vf.File).NotSource

/-- The loop over all versions of a package none of whose files for the version `vi` is from an
archive: what is left of the files of `vi` if some version has such a file. -/
def searchVersions (apt : AptImplementation) (vi : Version) : List Version → List VerFile
  | [] => []
  | cur :: versions =>
    let vfi := if cur.FileList.any (isSource apt) then vi.FileList else []
    if vfi.isEmpty then searchVersions apt vi versions else vfi

/-- The location that is chosen for a package, if there is one. -/
def locate (apt : AptImplementation) (pi : Package) : Option VerFile :=
  if pi.VersionList.isEmpty then none
  else
    -- the candidate version, or else the installed one
    match (apt.m_policy pi).or pi.CurrentVer with
    | none => none
    | some vi =>
      let vfi := vi.FileList.dropWhile (!isSource apt ·)
      let vfi := if vfi.isEmpty then searchVersions apt vi pi.VersionList else vfi
      vfi.head?

/-- An object with the given locations. The member `lastOffset` is not initialised. -/
def ofList (apt : AptImplementation) (vflist : List VerFile) (lastOffset : UInt64) :
    RecordIteratorImpl :=
  ⟨0, apt, vflist, none, .closed, lastOffset⟩

/-- The constructor. -/
def make (sorter : Sorter VerFile) (apt : AptImplementation) (lastOffset : UInt64) :
    RecordIteratorImpl :=
  ofList apt (sorter.sort localityCompare (apt.m_cache.packages.filterMap (locate apt))) lastOffset

def size (r : RecordIteratorImpl) : ℕ := r.vflist.length

/-! ### Counting the references -/

def ref : Exec Exception RecordIteratorImpl Unit := do
  let r ← Exec.get
  let n ← Exec.ofOption (CInt.add r._ref 1)
  Exec.modify fun r => { r with _ref := n }

def unref : Exec Exception RecordIteratorImpl Bool := do
  let r ← Exec.get
  let n ← Exec.ofOption (CInt.sub r._ref 1)
  Exec.modify fun r => { r with _ref := n }
  return n = 0

/-! ### Reading a record -/

/-- The name of a package file. -/
def fileName (r : RecordIteratorImpl) (file : ℕ) : Str := (r.apt.m_cache.packageFile file).FileName

/-- Open the file of a location, unless it is the one that is already open. -/
def openFile (env : Env) (vf : VerFile) : Exec Exception RecordIteratorImpl Unit := do
  let r ← Exec.get
  if r.lastFile = none ∨ r.lastFile ≠ some vf.File then do
    Exec.modify fun r => { r with lastFile := some vf.File }
    if env.isOk = false then
      Exec.throw ⟨str "Reading the data record for a package from file " ++ r.fileName vf.File⟩
    Exec.modify fun r => { r with file := if r.file.IsOpen then r.file.Close else r.file }
    Exec.modify fun r => { r with file := (FileFd.Open env (r.fileName vf.File)).2 }
    if (FileFd.Open env (r.fileName vf.File)).1 = false then
      Exec.throw ⟨str "Opening file " ++ r.fileName vf.File⟩
    Exec.modify fun r => { r with lastOffset := 0 }

/-- If the record starts near where the last one ended, the bytes between them are read too.
Otherwise seek to it. -/
def startNear (env : Env) (vf : VerFile) : Exec Exception RecordIteratorImpl UInt64 := do
  let r ← Exec.get
  let slack := vf.Offset - r.lastOffset
  if slack > 8 then do
    let (sought, file) := r.file.Seek env vf.Offset.toNat
    Exec.modify fun r => { r with file := file }
    if sought = false then
      Exec.throw ⟨str "Cannot seek to package record in file " ++ r.fileName vf.File⟩
    return 0
  else return slack

def readBytes (env : Env) (vf : VerFile) (slack : UInt64) :
    Exec Exception RecordIteratorImpl Str := do
  let r ← Exec.get
  let (buffer, file) := r.file.Read env (vf.Size + slack).toNat
  Exec.modify fun r => { r with file := file }
  match buffer with
  | none => Exec.throw ⟨str "Cannot read package record in file " ++ r.fileName vf.File⟩
  | some buffer => do
    Exec.modify fun r => { r with lastOffset := vf.Offset + vf.Size }
    return (buffer.drop slack.toNat).take vf.Size.toNat

def record (env : Env) (idx : ℕ) : Exec Exception RecordIteratorImpl Str := do
  let r ← Exec.get
  let vf ← Exec.ofOption r.vflist[idx]?
  openFile env vf
  let slack ← startNear env vf
  readBytes env vf slack

end RecordIteratorImpl

end Libept.Apt
