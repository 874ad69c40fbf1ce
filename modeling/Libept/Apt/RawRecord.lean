import Libept.Apt.RecordIteratorImpl.Record

/-!
# Reading the record of one package

`Apt::rawRecord` finds a package by its name and a version by its string, and reads the record of
that version. A package is found by libapt, whose function is a parameter here.
-/

namespace Libept.Apt.RawRecord

open RecordIteratorImpl

/-- A package with one of its versions, or neither of them. -/
structure Version where
  name : Str
  version : Str
  deriving DecidableEq

/-- `Version()` -/
def Version.invalid : Version := ⟨[], []⟩

/-- What the functions of `Apt` use of libapt to look up packages. -/
abbrev FindPkg := Str → Option PkgCache.Package

/-- There is no result where a version has no string. -/
def anyVersion (findPkg : FindPkg) (apt : AptImplementation) (pkg : Str) : Option Version :=
  match findPkg pkg with
  | none => some .invalid
  | some pi =>
    match apt.m_policy pi with
    | some vi => vi.VerStr.map fun version => ⟨pkg, version⟩
    | none =>
      match pi.CurrentVer with
      | none => some .invalid
      | some vi => vi.VerStr.map fun version => ⟨pkg, version⟩

/-- The file for the record of a version: the first one that is a source, or else the first one. -/
def appropriateFile (apt : AptImplementation) (vi : PkgCache.Version) : Option PkgCache.VerFile :=
  let vfi := vi.FileList.dropWhile (!isSource apt ·)
  let vfi := if vfi.isEmpty then vi.FileList else vfi
  vfi.head?

/-- Check and load the package list file. Here `pendingError` tells whether an error is pending in
libapt before the file is opened. -/
def load (env : Env) (pendingError : Bool) (apt : AptImplementation) (vf : PkgCache.VerFile) :
    Except Exception Str :=
  let fileName := (apt.m_cache.packageFile vf.File).FileName
  if env.isOk = false then
    .error ⟨str "Reading the data record for a package version from file " ++ fileName⟩
  else
    let (opened, pkgf) := FileFd.Open env fileName
    if pendingError || !opened then .ok []
    else
      let (sought, pkgf) := pkgf.Seek env vf.Offset.toNat
      if sought = false then .ok []
      else
        match (pkgf.Read env vf.Size.toNat).1 with
        | none => .ok []
        | some buffer => .ok buffer

/-- `rawRecord(const Version&)`. There is no result where a version has no file. -/
def rawRecordOf (findPkg : FindPkg) (env : Env) (pendingError : Bool) (apt : AptImplementation)
    (ver : Version) : Option (Except Exception Str) :=
  match findPkg ver.name with
  | none => some (.ok [])
  | some pi =>
    match pi.VersionList.find? (·.VerStr = some ver.version) with
    | none => some (.ok [])
    | some vi => (appropriateFile apt vi).map (load env pendingError apt)

/-- `rawRecord(const std::string&)` -/
def rawRecord (findPkg : FindPkg) (env : Env) (pendingError : Bool) (apt : AptImplementation)
    (ver : Str) : Option (Except Exception Str) :=
  (anyVersion findPkg apt ver).bind (rawRecordOf findPkg env pendingError apt)

end Libept.Apt.RawRecord
