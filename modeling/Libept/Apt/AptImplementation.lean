import Libept.Apt.Libapt
import Libept.Lib.Heap
import Libept.Utils.Sys.Makedirs

/-!
# The implementation behind `Apt`

How an `AptImplementation` is constructed, and how an `Apt` object replaces its own when the files
of libapt have changed. The object keeps a pointer to its implementation, which is an address on a
heap.
-/

namespace Libept.Apt

open PkgCache Sys

/-- What is thrown: an exception of its own, or a `std::system_error`. -/
inductive Error where
  | exception (e : Exception)
  | systemError (error : SystemError)
  deriving DecidableEq

/-- `pkgCacheFile`, after the call of its `Open`. -/
structure PkgCacheFile where
  opened : Bool
  deriving DecidableEq

structure AptImplementation where
  m_cache : PkgCache
  /-- `pkgPolicy::GetCandidateVer` -/
  m_policy : Package → Option Version
  m_depcache : Option PkgCacheFile
  m_open_timestamp : ℤ

/-! ### Timestamps -/

/-- A file, and what `stat` answers for it: the time of its last modification. -/
structure StatFile where
  name : Str
  st_mtime : Except Errno ℤ

/-- `sys::timestamp`, with a default for a file that is not there -/
def timestamp (file : StatFile) (default : ℤ) : Except SystemError ℤ :=
  match file.st_mtime with
  | .ok st_mtime => .ok st_mtime
  | .error errno =>
    if errno = ENOENT then .ok default
    else .error ⟨errno, str "cannot stat " ++ file.name⟩

/-- The files that `aptTimestamp` looks at. -/
structure Timestamps where
  /-- `Dir::Cache::pkgcache` -/
  pkgcache : StatFile
  /-- `Dir::State::status` -/
  status : StatFile

def aptTimestamp (times : Timestamps) : Except SystemError ℤ := do
  let t1 ← timestamp times.pkgcache 0
  let t2 ← timestamp times.status 0
  return if t1 > t2 then t1 else t2

/-! ### The constructor -/

/-- How libapt and the system answer while an implementation is constructed. -/
structure AptEnv where
  /-- Whether libapt has been initialised before. -/
  initialized : Bool
  initConfig : Bool
  initSystem : Bool
  times : Timestamps
  readMainList : Bool
  makeStatusCache : Bool
  readPinFile : Bool
  cache : PkgCache
  policy : Package → Option Version

def aptInit (env : AptEnv) : Except Exception Unit :=
  if env.initialized then .ok ()
  else if !env.initConfig then .error ⟨str "initialising apt configuration"⟩
  else if !env.initSystem then .error ⟨str "initialising apt system"⟩
  else .ok ()

namespace AptImplementation

/-- The constructor. -/
def make (env : AptEnv) : Except Error AptImplementation := do
  (aptInit env).mapError .exception
  let m_open_timestamp ← (aptTimestamp env.times).mapError .systemError
  unless env.readMainList do throw (.exception ⟨str "reading list of sources"⟩)
  unless env.makeStatusCache do
    throw (.exception ⟨str "Reading the package lists or status file"⟩)
  unless env.readPinFile do throw (.exception ⟨str "Reading the policy pin file"⟩)
  return {
    m_cache := env.cache
    m_policy := env.policy
    m_depcache := none
    m_open_timestamp := m_open_timestamp }

/-- The dependency cache is made when it is first asked for, and stays when it does not open. -/
def depcache (opens : Bool) : Exec Error AptImplementation PkgCacheFile := do
  let i ← Exec.get
  match i.m_depcache with
  | some m_depcache => pure m_depcache
  | none => do
    Exec.modify fun i => { i with m_depcache := some ⟨opens⟩ }
    if opens then pure ⟨opens⟩ else Exec.throw (.exception ⟨str "Opening the cache file"⟩)

end AptImplementation

/-! ### The functions of `Apt` -/

/-- `new AptImplementation`: there is no object when the constructor throws. -/
def newImplementation (env : AptEnv) : Exec Error (Heap AptImplementation) ℕ :=
  match AptImplementation.make env with
  | .ok i => Heap.new i
  | .error e => Exec.throw e

/-- A function of `Apt` that is given the pointer `impl` and returns what it is afterwards. The
constructor looks at the timestamps once more. -/
def checkCacheUpdates (times : Timestamps) (env : AptEnv) (impl : ℕ) :
    Exec Error (Heap AptImplementation) ℕ := do
  let i ← Heap.call impl Exec.get
  match aptTimestamp times with
  | .error error => Exec.throw (.systemError error)
  | .ok now =>
    if i.m_open_timestamp < now then do
      -- crudely reopen everything
      Heap.delete impl
      newImplementation env
    else return impl

def invalidateTimestamp (impl : ℕ) : Exec Error (Heap AptImplementation) Unit :=
  Heap.call impl (Exec.modify fun i => { i with m_open_timestamp := 0 })

/-- The destructor. -/
def destroy (impl : ℕ) : Exec Error (Heap AptImplementation) Unit := Heap.delete impl

end Libept.Apt
