import Libept.Apt.RawRecord

/-!
# Both ways to a record

A record iterator chooses a version and a file when it is constructed, and `rawRecord` when it is
called. For a cache as libapt makes them, both choose the same.
-/

namespace Libept.Apt.RawRecord

open RecordIteratorImpl

/-! ### What libapt guarantees -/

/-- Packages are told apart by their names, and the versions of a package by their strings. The
candidate and the installed version are versions of the package. -/
structure WellFormed (apt : AptImplementation) : Prop where
  names : (apt.m_cache.packages.map (·.Name)).Nodup
  strings : ∀ pi ∈ apt.m_cache.packages, (pi.VersionList.map (·.VerStr)).Nodup
  not_null : ∀ pi ∈ apt.m_cache.packages, ∀ vi ∈ pi.VersionList, vi.VerStr ≠ none
  candidate : ∀ pi ∈ apt.m_cache.packages, ∀ vi, apt.m_policy pi = some vi → vi ∈ pi.VersionList
  current : ∀ pi ∈ apt.m_cache.packages, ∀ vi, pi.CurrentVer = some vi → vi ∈ pi.VersionList

/-- The name of a package finds a package with that name. -/
structure Finds (findPkg : FindPkg) (cache : PkgCache) : Prop where
  sound : ∀ name pi, findPkg name = some pi → pi ∈ cache.packages ∧ pi.Name = name
  complete : ∀ pi ∈ cache.packages, findPkg pi.Name ≠ none

variable {apt : AptImplementation} {findPkg : FindPkg} {pi : PkgCache.Package}
  {vi : PkgCache.Version} {vf : PkgCache.VerFile} {disk : Str → Contents}

lemma WellFormed.findPkg_eq (h : WellFormed apt) (hfind : Finds findPkg apt.m_cache)
    (hpi : pi ∈ apt.m_cache.packages) : findPkg pi.Name = some pi := by
  obtain ⟨pi', hpi'⟩ := Option.ne_none_iff_exists'.mp (hfind.complete pi hpi)
  obtain ⟨hmem, hname⟩ := hfind.sound _ _ hpi'
  rw [hpi', List.inj_on_of_nodup_map h.names hmem hpi hname]

lemma WellFormed.find?_eq (h : WellFormed apt) (hpi : pi ∈ apt.m_cache.packages)
    (hvi : vi ∈ pi.VersionList) {version : Str} (hversion : vi.VerStr = some version) :
    pi.VersionList.find? (·.VerStr = some version) = some vi := by
  have hsome : (pi.VersionList.find? (·.VerStr = some version)).isSome := by
    rw [List.find?_isSome]
    exact ⟨vi, hvi, by simpa using hversion⟩
  obtain ⟨vi', hvi'⟩ := Option.isSome_iff_exists.mp hsome
  have hstring : vi'.VerStr = some version := by simpa using List.find?_some hvi'
  rw [hvi', List.inj_on_of_nodup_map (h.strings pi hpi) (List.mem_of_find?_eq_some hvi') hvi
    (hstring.trans hversion.symm)]

/-! ### The choice of the version and of the file -/

/-- The version that is chosen for a package: the candidate, or else the installed one. -/
def chosen (apt : AptImplementation) (pi : PkgCache.Package) : Option PkgCache.Version :=
  (apt.m_policy pi).or pi.CurrentVer

lemma WellFormed.mem_of_chosen (h : WellFormed apt) (hpi : pi ∈ apt.m_cache.packages)
    (hvi : chosen apt pi = some vi) : vi ∈ pi.VersionList := by
  rcases Option.or_eq_some_iff.mp hvi with hcandidate | ⟨-, hcurrent⟩
  · exact h.candidate pi hpi vi hcandidate
  · exact h.current pi hpi vi hcurrent

lemma anyVersion_eq (hfind : findPkg pi.Name = some pi) (hvi : chosen apt pi = some vi)
    {version : Str} (hversion : vi.VerStr = some version) :
    anyVersion findPkg apt pi.Name = some ⟨pi.Name, version⟩ := by
  rcases Option.or_eq_some_iff.mp hvi with hcandidate | ⟨hnone, hcurrent⟩
  · simp [anyVersion, hfind, hcandidate, hversion]
  · simp [anyVersion, hfind, hnone, hcurrent, hversion]

/-- The search through all versions leads back to the files of the chosen one. -/
lemma searchVersions_eq (versions : List PkgCache.Version) :
    searchVersions apt vi versions = [] ∨ searchVersions apt vi versions = vi.FileList := by
  induction versions with
  | nil => exact .inl rfl
  | cons cur versions ih =>
    rw [searchVersions]
    split_ifs with hsource hempty hempty
    · exact ih
    · exact .inr rfl
    · exact ih
    · exact .inl rfl

/-- A record iterator collects the file that `rawRecord` reads. -/
lemma appropriateFile_of_locate (hvf : locate apt pi = some vf) :
    ∃ vi, chosen apt pi = some vi ∧ appropriateFile apt vi = some vf := by
  rw [locate] at hvf
  split_ifs at hvf with hnone
  cases hvi : chosen apt pi with
  | none => simp [show (apt.m_policy pi).or pi.CurrentVer = none from hvi] at hvf
  | some vi =>
    refine ⟨vi, rfl, ?_⟩
    simp only [show (apt.m_policy pi).or pi.CurrentVer = some vi from hvi] at hvf
    simp only [appropriateFile]
    split_ifs at hvf ⊢ with hempty
    · rcases @searchVersions_eq apt vi pi.VersionList with hsearch | hsearch
      · rw [hsearch] at hvf
        cases hvf
      · rwa [hsearch] at hvf
    · exact hvf

/-! ### Reading the bytes -/

/-- On a working system the bytes of the location are read. -/
lemma load_eq (hwithin : Within apt disk vf) :
    load (Env.working disk) false apt vf =
      .ok (((disk (apt.m_cache.packageFile vf.File).FileName).bytes.drop vf.Offset.toNat).take
        vf.Size.toNat) := by
  have hread : (Env.working disk).readFailure (apt.m_cache.packageFile vf.File).FileName
      vf.Offset.toNat vf.Size.toNat = none := readFailure_eq_none.mpr ⟨rfl, hwithin⟩
  simp only [load, Env.working, FileFd.Open, FileFd.Seek, FileFd.Read] at hread ⊢
  simp [hread]

/-- The comparison of two locations is a comparison by file and offset. -/
lemma localityCompare_iff {a b : PkgCache.VerFile} :
    localityCompare a b = true ↔
      a.File < b.File ∨ a.File = b.File ∧ a.Offset.toNat < b.Offset.toNat := by
  rw [localityCompare]
  split_ifs with hfile
  · simp [hfile, UInt64.lt_iff_toNat_lt]
  · simp [hfile]

lemma localityCompare_strictWeak :
    IsStrictWeakOrder PkgCache.VerFile fun a b => localityCompare a b = true where
  irrefl a h := by
    rw [localityCompare_iff] at h
    omega
  trans a b c hab hbc := by
    rw [localityCompare_iff] at *
    omega
  incomp_trans a b c hab hbc := by
    simp only [localityCompare_iff] at *
    omega

lemma mem_vflist (sorter : Sorter PkgCache.VerFile) (lastOffset : UInt64) :
    vf ∈ (make sorter apt lastOffset).vflist ↔
      ∃ pi ∈ apt.m_cache.packages, locate apt pi = some vf := by
  rw [← List.mem_filterMap]
  exact (sorter.perm _ _ localityCompare_strictWeak).mem_iff

/-- If a record iterator has collected a location for a package, then after any calls that do not
fail it returns the same record as `rawRecord` does for the name of the package. -/
theorem record_eq_rawRecord (sorter : Sorter PkgCache.VerFile) (lastOffset : UInt64)
    (disk : Str → Contents) (h : WellFormed apt) (hfind : Finds findPkg apt.m_cache)
    (hpi : pi ∈ apt.m_cache.packages) (hvf : locate apt pi = some vf)
    (hwithin : Within apt disk vf)
    (before : List (Fin (make sorter apt lastOffset).vflist.length))
    (hbefore : ∀ idx ∈ before, Within apt disk (make sorter apt lastOffset).vflist[idx]) :
    (∃ idx : Fin _, (make sorter apt lastOffset).vflist[idx] = vf) ∧
      ∃ buffers r, (before.mapM fun idx : Fin _ => record (Env.working disk) idx).run
          (make sorter apt lastOffset) = .ok buffers r ∧
        ∀ idx : Fin _, (make sorter apt lastOffset).vflist[idx] = vf →
          ∃ buffer r', (record (Env.working disk) idx).run r = .ok buffer r' ∧
            rawRecord findPkg (Env.working disk) false apt pi.Name = some (.ok buffer) := by
  have hmem : vf ∈ (make sorter apt lastOffset).vflist :=
    (mem_vflist sorter lastOffset).mpr ⟨pi, hpi, hvf⟩
  have hready : (make sorter apt lastOffset).Ready := ready_ofList apt _ lastOffset
  obtain ⟨r, hrun, hready, happ, hlist⟩ := hready.records before hbefore
  refine ⟨?_, _, r, hrun, fun idx hidx => ?_⟩
  · obtain ⟨i, hi, heq⟩ := List.mem_iff_getElem.mp hmem
    exact ⟨⟨i, hi⟩, heq⟩
  · have hget : r.vflist[(idx : ℕ)]? = some vf := by
      rw [hlist, ← hidx]
      exact List.getElem?_eq_getElem idx.isLt
    have happ' : r.apt = apt := happ
    have hlength := hwithin
    rw [Within, ← happ'] at hlength
    obtain ⟨buffer, r', hrecord, rfl, -⟩ := (hready.record_ensures hget hlength).returns
    refine ⟨_, r', hrecord, ?_⟩
    obtain ⟨vi, hvi, hfile⟩ := appropriateFile_of_locate hvf
    have hversion := h.mem_of_chosen hpi hvi
    obtain ⟨version, hstring⟩ := Option.ne_none_iff_exists'.mp (h.not_null pi hpi vi hversion)
    have hname := h.findPkg_eq hfind hpi
    rw [rawRecord, anyVersion_eq hname hvi hstring, Option.bind_some, rawRecordOf]
    simp only [hname, h.find?_eq hpi hversion hstring, hfile, Option.map_some, load_eq hwithin,
      bytesAt, fileName, happ']

lemma fits_five_three : (5 : UInt64).toNat + (3 : UInt64).toNat < 2 ^ 63 := by decide

lemma fits_one_two : (1 : UInt64).toNat + (2 : UInt64).toNat < 2 ^ 63 := by decide

/-- A version from an archive, and one that was installed from elsewhere. -/
def sampleVersions : List PkgCache.Version :=
  [⟨some (str "1"), [⟨1, 5, 3, fits_five_three⟩]⟩, ⟨some (str "2"), [⟨0, 1, 2, fits_one_two⟩]⟩]

def samplePackages : List PkgCache.Package :=
  [⟨str "p", sampleVersions, none⟩, ⟨str "q", [], none⟩]

/-- The candidate of each package is its last version. -/
def samplePolicy : AptImplementation :=
  ⟨⟨samplePackages, fun file => ⟨str "f", file = 0⟩⟩, fun pi => pi.VersionList.getLast?, none, 0⟩

def sampleFind (name : Str) : Option PkgCache.Package := samplePackages.find? (·.Name = name)

lemma sample_wellFormed : WellFormed samplePolicy where
  names := by decide
  strings pi hpi := by
    have hall : ∀ pi ∈ samplePackages, (pi.VersionList.map (·.VerStr)).Nodup := by decide
    exact hall pi hpi
  not_null pi hpi := by
    have hall : ∀ pi ∈ samplePackages, ∀ vi ∈ pi.VersionList, vi.VerStr ≠ none := by decide
    exact hall pi hpi
  candidate pi _ vi hvi := List.mem_of_getLast? hvi
  current pi hpi vi hvi := by
    have hall : ∀ pi ∈ samplePackages, pi.CurrentVer.isNone := by decide
    simp [Option.isNone_iff_eq_none.mp (hall pi hpi)] at hvi

lemma sample_finds : Finds sampleFind samplePolicy.m_cache where
  sound name pi h := ⟨List.mem_of_find?_eq_some h, by simpa using List.find?_some h⟩
  complete pi hpi h := by
    have hne := List.find?_eq_none.mp h pi hpi
    simp at hne

theorem record_eq_rawRecord_sample :
    ∃ idx buffer r', (record (Env.working sampleDisk) idx).run (make .merge samplePolicy 0) =
        .ok buffer r' ∧
      rawRecord sampleFind (Env.working sampleDisk) false samplePolicy (str "p") =
        some (.ok buffer) := by
  have hpi : ⟨str "p", sampleVersions, none⟩ ∈ samplePolicy.m_cache.packages := List.mem_cons_self
  have hlocate : locate samplePolicy ⟨str "p", sampleVersions, none⟩ =
      some ⟨0, 1, 2, fits_one_two⟩ := rfl
  have hwithin : Within samplePolicy sampleDisk ⟨0, 1, 2, fits_one_two⟩ := by
    rw [Within]
    decide
  obtain ⟨⟨idx, hidx⟩, buffers, r, hrun, hagree⟩ := record_eq_rawRecord .merge 0 sampleDisk
    sample_wellFormed sample_finds hpi hlocate hwithin [] (by simp)
  cases hrun
  exact ⟨(idx : ℕ), hagree idx hidx⟩

end Libept.Apt.RawRecord
