import Libept.Apt.Iterator
import Libept.Apt.PackageState
import Libept.Apt.RawRecord.Agrees

/-!
# The queries of `Apt`

Packages and versions are validated, and the versions and the state of a package are looked up,
each by a search of its own in the cache. For a cache as libapt makes them the answers fit together.
The state also needs the dependency cache, which may not open.
-/

namespace Libept.Apt.RawRecord

deriving instance DecidableEq for PkgCache.Version

/-! ### Versions -/

/-- `Version::isValid` -/
def Version.isValid (ver : Version) : Bool := !ver.name.isEmpty && !ver.version.isEmpty

/-- `isValid(const std::string&)` -/
def isValid (findPkg : FindPkg) (pkg : Str) : Bool := (findPkg pkg).isSome

/-- `validate(const std::string&)` -/
def validateName (findPkg : FindPkg) (pkg : Str) : Str := if isValid findPkg pkg then pkg else []

/-- `validate(const Version&)` -/
def validate (findPkg : FindPkg) (ver : Version) : Version :=
  match findPkg ver.name with
  | none => .invalid
  | some pi =>
    match pi.VersionList.find? (·.VerStr = some ver.version) with
    | none => .invalid
    | some _ => ver

/-- The version that an iterator designates. There is no result where it has no string. -/
def versionOf (pkg : Str) : Option PkgCache.Version → Option Version
  | none => some .invalid
  | some vi => vi.VerStr.map fun version => ⟨pkg, version⟩

def candidateVersion (findPkg : FindPkg) (apt : AptImplementation) (pkg : Str) : Option Version :=
  match findPkg pkg with
  | none => some .invalid
  | some pi => versionOf pkg (apt.m_policy pi)

def installedVersion (findPkg : FindPkg) (pkg : Str) : Option Version :=
  match findPkg pkg with
  | none => some .invalid
  | some pi => versionOf pkg pi.CurrentVer

/-! ### States -/

/-- `pkgCache::State::PkgCurrentState` -/
inductive CurrentState where
  | NotInstalled
  | UnPacked
  | HalfConfigured
  | HalfInstalled
  | ConfigFiles
  | Installed
  | TriggersAwaited
  | TriggersPending
  deriving DecidableEq

/-- The modes that are looked at, among those that libapt knows. -/
structure ModeList (μ : Type) where
  ModeDelete : μ
  ModeKeep : μ
  ModeInstall : μ
  distinct : [ModeDelete, ModeKeep, ModeInstall].Nodup

/-- What the dependency cache knows of a package. -/
structure StateCache (μ : Type) where
  Mode : μ
  reInstall : Bool
  purge : Bool
  nowBroken : Bool
  instBroken : Bool

/-- What is asked of libapt about a package, besides its versions. -/
structure Depends (μ : Type) where
  modes : ModeList μ
  currentState : PkgCache.Package → CurrentState
  stateCache : PkgCache.Package → StateCache μ

variable {μ : Type}

open PackageState

/-- Check if the package is installed, and then if it is upgradable. -/
def installedFlags (apt : AptImplementation) (dep : Depends μ) (pi : PkgCache.Package)
    (flags : ℕ) : ℕ :=
  if dep.currentState pi ≠ .ConfigFiles ∧ dep.currentState pi ≠ .NotInstalled then
    match pi.CurrentVer with
    | none => flags
    | some inst =>
      let flags := flags ||| Query.Installed.mask
      match apt.m_policy pi with
      | none => flags
      | some cand => orIf (inst != cand) .Upgradable flags
  else flags

/-- The flags of a package, when the dependency cache has been asked. -/
def stateOf [DecidableEq μ] (apt : AptImplementation) (dep : Depends μ) (pi : PkgCache.Package) :
    PackageState :=
  let sc := dep.stateCache pi
  let flags := Query.Valid.mask
  let flags := installedFlags apt dep pi flags
  let flags := orIf (sc.Mode = dep.modes.ModeInstall) .Install flags
  let flags := orIf sc.reInstall .ReInstall flags
  let flags := orIf (sc.Mode = dep.modes.ModeKeep) .Keep flags
  let flags := orIf (sc.Mode = dep.modes.ModeDelete) .Remove flags
  let flags := orIf sc.purge .Purge flags
  let flags := orIf sc.nowBroken .NowBroken flags
  let flags := orIf sc.instBroken .WillBreak flags
  ⟨flags⟩

/-- Here `opens` tells whether the dependency cache opens when it is made. One that has not been
opened cannot be asked for a package. -/
def state [DecidableEq μ] (findPkg : FindPkg) (dep : Depends μ) (opens : Bool) (pkg : Str) :
    Exec Error AptImplementation PackageState := do
  match findPkg pkg with
  | none => return ⟨0⟩
  | some pi =>
    let depcache ← AptImplementation.depcache opens
    Exec.ofOption (if depcache.opened then some () else none)
    let apt ← Exec.get
    return stateOf apt dep pi

/-! ### What the versions are -/

/-- No name and no version is empty. -/
structure Filled (apt : AptImplementation) : Prop extends WellFormed apt where
  name_ne : ∀ pi ∈ apt.m_cache.packages, pi.Name ≠ []
  string_ne : ∀ pi ∈ apt.m_cache.packages, ∀ vi ∈ pi.VersionList, vi.VerStr ≠ some []

variable {apt : AptImplementation} {findPkg : FindPkg} {pi : PkgCache.Package}
  {vi : PkgCache.Version} {vi? : Option PkgCache.Version} {pkg : Str} {v ver : Version}

/-- What names a version of a package, or none. -/
inductive Names (pi : PkgCache.Package) : Option PkgCache.Version → Version → Prop
  | nothing : Names pi none .invalid
  | version {vi : PkgCache.Version} {version : Str} (hmem : vi ∈ pi.VersionList)
    (hstring : vi.VerStr = some version) : Names pi (some vi) ⟨pi.Name, version⟩

lemma isValid_invalid : Version.invalid.isValid = false := rfl

lemma WellFormed.names_versionOf (h : WellFormed apt) (hpi : pi ∈ apt.m_cache.packages)
    (hvi : ∀ vi, vi? = some vi → vi ∈ pi.VersionList) :
    ∃ v, versionOf pi.Name vi? = some v ∧ Names pi vi? v := by
  cases vi? with
  | none => exact ⟨_, rfl, .nothing⟩
  | some vi =>
    obtain ⟨version, hversion⟩ := Option.ne_none_iff_exists'.mp (h.not_null pi hpi vi (hvi vi rfl))
    refine ⟨⟨pi.Name, version⟩, ?_, .version (hvi vi rfl) hversion⟩
    rw [versionOf, hversion, Option.map_some]

lemma Filled.isValid_iff (h : Filled apt) (hpi : pi ∈ apt.m_cache.packages)
    (hv : Names pi vi? v) : v.isValid = true ↔ vi?.isSome = true := by
  cases hv with
  | nothing => simp [isValid_invalid]
  | @version vi version hmem hstring =>
    have hname := h.name_ne pi hpi
    have hversion : version ≠ [] := fun hempty => h.string_ne pi hpi _ hmem (hempty ▸ hstring)
    simp [Version.isValid, hname, hversion]

/-- Versions of one package with the same name are the same. -/
lemma WellFormed.names_inj (h : WellFormed apt) (hpi : pi ∈ apt.m_cache.packages)
    {a b : PkgCache.Version} {v w : Version} (hv : Names pi (some a) v) (hw : Names pi (some b) w) :
    v = w ↔ a = b := by
  cases hv with
  | @version _ version hmem hstring =>
    cases hw with
    | @version _ version' hmem' hstring' =>
      constructor
      · intro heq
        obtain rfl : version = version' := by simpa using heq
        exact List.inj_on_of_nodup_map (h.strings pi hpi) hmem hmem'
          (hstring.trans hstring'.symm)
      · rintro rfl
        rw [Option.some.inj (hstring.symm.trans hstring')]

lemma WellFormed.validate_eq (h : WellFormed apt) (hfind : Finds findPkg apt.m_cache)
    (hpi : pi ∈ apt.m_cache.packages) (hv : Names pi (some vi) v) : validate findPkg v = v := by
  cases hv with
  | version hmem hstring =>
    rw [validate]
    simp only [h.findPkg_eq hfind hpi, h.find?_eq hpi hmem hstring]

lemma anyVersion_eq_versionOf (hpi : findPkg pkg = some pi) :
    anyVersion findPkg apt pkg = versionOf pkg (chosen apt pi) := by
  rw [anyVersion]
  simp only [hpi, chosen]
  cases apt.m_policy pi with
  | some vi => rfl
  | none => cases pi.CurrentVer <;> rfl

/-- The cache has a package and a version with these names. -/
def Known (apt : AptImplementation) (ver : Version) : Prop :=
  ∃ pi ∈ apt.m_cache.packages, pi.Name = ver.name ∧
    ∃ vi ∈ pi.VersionList, vi.VerStr = some ver.version

lemma Names.known (hpi : pi ∈ apt.m_cache.packages) (hv : Names pi (some vi) v) : Known apt v := by
  cases hv with
  | version hmem hstring => exact ⟨pi, hpi, rfl, vi, hmem, hstring⟩

lemma Filled.names_cases (h : Filled apt) (hpi : pi ∈ apt.m_cache.packages)
    (hv : Names pi vi? v) :
    vi? = none ∧ v = .invalid ∨
      ∃ vi, vi? = some vi ∧ v.isValid = true ∧ v.name = pi.Name ∧ Known apt v := by
  have hvalid := h.isValid_iff hpi hv
  cases vi? with
  | none =>
    cases hv
    exact .inl ⟨rfl, rfl⟩
  | some vi =>
    refine .inr ⟨vi, rfl, hvalid.mpr rfl, ?_, hv.known hpi⟩
    cases hv
    rfl

/-- The versions that are known are valid and accepted, and no others. -/
lemma Filled.validate_cases (h : Filled apt) (hfind : Finds findPkg apt.m_cache) (ver : Version) :
    Known apt ver ∧ ver.isValid = true ∧ validate findPkg ver = ver ∨
      ¬ Known apt ver ∧ validate findPkg ver = .invalid := by
  by_cases hknown : Known apt ver
  · obtain ⟨pi, hpi, hname, vi, hvi, hstring⟩ := hknown
    have hv : Names pi (some vi) ver := by
      have hnames := Names.version hvi hstring
      rwa [hname] at hnames
    exact .inl ⟨hv.known hpi, (h.isValid_iff hpi hv).mpr rfl, h.validate_eq hfind hpi hv⟩
  · refine .inr ⟨hknown, ?_⟩
    rw [validate]
    cases hpi : findPkg ver.name with
    | none => rfl
    | some pi =>
      obtain ⟨hmem, hname⟩ := hfind.sound _ _ hpi
      have hnone : pi.VersionList.find? (·.VerStr = some ver.version) = none := by
        rw [List.find?_eq_none]
        intro vi hvi hstring
        exact hknown ⟨pi, hmem, hname, vi, hvi, by simpa using hstring⟩
      simp only [hnone]

/-! ### How the answers fit together -/

/-- The versions of a package that is there. -/
lemma Filled.found (h : Filled apt) (hpkg : findPkg pkg = some pi)
    (hfind : Finds findPkg apt.m_cache) :
    ∃ c i, candidateVersion findPkg apt pkg = some c ∧ installedVersion findPkg pkg = some i ∧
      anyVersion findPkg apt pkg = some (if c.isValid then c else i) ∧
      Names pi (apt.m_policy pi) c ∧ Names pi pi.CurrentVer i := by
  obtain ⟨hpi, rfl⟩ := hfind.sound _ _ hpkg
  obtain ⟨c, hc, hcnames⟩ := h.names_versionOf hpi (h.candidate pi hpi)
  obtain ⟨i, hi, hinames⟩ := h.names_versionOf hpi (h.current pi hpi)
  refine ⟨c, i, ?_, ?_, ?_, hcnames, hinames⟩
  · simp only [candidateVersion, hpkg, hc]
  · simp only [installedVersion, hpkg, hi]
  · rw [anyVersion_eq_versionOf hpkg, chosen]
    cases hpolicy : apt.m_policy pi with
    | none =>
      rw [hpolicy] at hcnames
      cases hcnames
      simpa [isValid_invalid] using hi
    | some vi =>
      have hvalid : c.isValid = true := (h.isValid_iff hpi hcnames).mpr (by rw [hpolicy]; rfl)
      rw [hvalid, if_pos rfl, Option.some_or, ← hpolicy, hc]

/-- The names that an iterator yields. -/
lemma names_of_walk {names : List Str} (hwalk : (walk apt.m_cache).Returns (some names)) :
    ∃ package rest, apt.m_cache.packages = package :: rest ∧
      names = (package :: rest.filter hasVersions).map (·.Name) := by
  rcases hpackages : apt.m_cache.packages with _ | ⟨package, rest⟩
  · have hderef : Iterator.deref apt.m_cache begin = none := by
      simp [Iterator.deref, begin, PkgIterator.deref, hpackages]
    have hundefined : (walk apt.m_cache).Returns none := by
      apply Comp.loop_stop
      simp only [walkTurn, hderef]
      exact Comp.returns_pure.mpr rfl
    cases hundefined.unique hwalk
  · have hreturns := walk_returns [] (n := 0) (by rw [List.drop_zero, hpackages])
    exact ⟨package, rest, rfl, Option.some.inj (hwalk.unique hreturns)⟩

/-- The walk yields the name of every package with versions, and only names of packages. -/
lemma mem_walk {names : List Str} (hwalk : (walk apt.m_cache).Returns (some names)) :
    (∀ pi ∈ apt.m_cache.packages, pi.VersionList ≠ [] → pi.Name ∈ names) ∧
      ∀ name ∈ names, ∃ pi ∈ apt.m_cache.packages, pi.Name = name := by
  obtain ⟨package, rest, hpackages, rfl⟩ := names_of_walk hwalk
  rw [hpackages]
  refine ⟨fun pi hpi hne => List.mem_map_of_mem ?_, fun name hname => ?_⟩
  · rcases List.mem_cons.mp hpi with rfl | hrest
    · exact List.mem_cons_self
    · exact List.mem_cons_of_mem _ (List.mem_filter.mpr ⟨hrest, by simpa [hasVersions] using hne⟩)
  · obtain ⟨pi, hpi, rfl⟩ := List.mem_map.mp hname
    rcases List.mem_cons.mp hpi with rfl | hrest
    · exact ⟨_, List.mem_cons_self, rfl⟩
    · exact ⟨pi, List.mem_cons_of_mem _ (List.mem_filter.mp hrest).1, rfl⟩

/-- What is found for a name: versions that are known, or none. -/
lemma Filled.versions (h : Filled apt) (hfind : Finds findPkg apt.m_cache) (pkg : Str) :
    ∃ c i, candidateVersion findPkg apt pkg = some c ∧ installedVersion findPkg pkg = some i ∧
      anyVersion findPkg apt pkg = some (if c.isValid then c else i) ∧
      ∀ v, v = c ∨ v = i → v = .invalid ∨ v.isValid = true ∧ v.name = pkg ∧ Known apt v := by
  cases hpkg : findPkg pkg with
  | none =>
    refine ⟨.invalid, .invalid, ?_, ?_, ?_, ?_⟩
    · simp only [candidateVersion, hpkg]
    · simp only [installedVersion, hpkg]
    · simp only [anyVersion, hpkg, ite_self]
    · rintro v (rfl | rfl) <;> exact .inl rfl
  | some pi =>
    obtain ⟨hpi, rfl⟩ := hfind.sound _ _ hpkg
    obtain ⟨c, i, hc, hi, hany, hcnames, hinames⟩ := h.found hpkg hfind
    have hcases : ∀ {vi? v}, Names pi vi? v →
        v = .invalid ∨ v.isValid = true ∧ v.name = pi.Name ∧ Known apt v := by
      intro vi? v hv
      rcases h.names_cases hpi hv with ⟨-, heq⟩ | ⟨vi, -, hknown⟩
      · exact .inl heq
      · exact .inr hknown
    refine ⟨c, i, hc, hi, hany, ?_⟩
    rintro v (rfl | rfl)
    · exact hcases hcnames
    · exact hcases hinames

/-- The name of a version that is known is yielded by an iterator. -/
lemma Known.mem_walk {names : List Str} (hknown : Known apt v)
    (hwalk : (walk apt.m_cache).Returns (some names)) : v.name ∈ names := by
  obtain ⟨pi, hpi, hname, vi, hvi, -⟩ := hknown
  exact hname ▸ (RawRecord.mem_walk hwalk).1 pi hpi (List.ne_nil_of_mem hvi)

/-- The name of a version that is known is valid. -/
lemma Known.validateName_eq (h : WellFormed apt) (hfind : Finds findPkg apt.m_cache)
    (hknown : Known apt v) : validateName findPkg v.name = v.name := by
  obtain ⟨pi, hpi, hname, -⟩ := hknown
  rw [validateName, isValid, ← hname, h.findPkg_eq hfind hpi]
  rfl

lemma Filled.rawRecord_invalid (h : Filled apt) (hfind : Finds findPkg apt.m_cache)
    (hany : anyVersion findPkg apt pkg = some .invalid) (env : Env) (pendingError : Bool) :
    rawRecord findPkg env pendingError apt pkg = some (.ok []) := by
  have hempty : findPkg [] = none := by
    by_contra hne
    obtain ⟨pi, hpi⟩ := Option.ne_none_iff_exists'.mp hne
    obtain ⟨hmem, hname⟩ := hfind.sound _ _ hpi
    exact h.name_ne pi hmem hname
  rw [rawRecord, hany, Option.bind_some, rawRecordOf]
  simp only [Version.invalid, hempty]

/-- Every version that is returned for a name is accepted by `validate`, unless it is invalid. The
candidate is preferred to the installed version. If there is either of them, the name is valid and
is yielded by an iterator; if not, the record is empty. All names that are yielded are valid. -/
theorem versions_agree (h : Filled apt) (hfind : Finds findPkg apt.m_cache) (pkg : Str) :
    (∀ ver, (validate findPkg ver = ver ∧ ver.isValid = true ∧ Known apt ver) ∨
      validate findPkg ver = .invalid ∧ ¬ Known apt ver) ∧
    (∃ c i, candidateVersion findPkg apt pkg = some c ∧ installedVersion findPkg pkg = some i ∧
      anyVersion findPkg apt pkg = some (if c.isValid then c else i) ∧
      (∀ v, v = c ∨ v = i → v = .invalid ∨ v.name = pkg ∧ Known apt v) ∧
      ((c.isValid || i.isValid) = true → validateName findPkg pkg = pkg ∧
        ∀ names, (walk apt.m_cache).Returns (some names) → pkg ∈ names) ∧
      ((c.isValid || i.isValid) = false → ∀ env pendingError,
        rawRecord findPkg env pendingError apt pkg = some (.ok []))) ∧
    ∀ names, (walk apt.m_cache).Returns (some names) →
      ∀ name ∈ names, isValid findPkg name = true := by
  refine ⟨fun ver => ?_, ?_, fun names hwalk name hname => ?_⟩
  · rcases h.validate_cases hfind ver with ⟨hknown, hvalid, heq⟩ | ⟨hnot, heq⟩
    · exact .inl ⟨heq, hvalid, hknown⟩
    · exact .inr ⟨heq, hnot⟩
  · obtain ⟨c, i, hc, hi, hany, hcases⟩ := h.versions hfind pkg
    refine ⟨c, i, hc, hi, hany, fun v hv => (hcases v hv).imp_right And.right, fun hvalid => ?_,
      fun hnot => h.rawRecord_invalid hfind ?_⟩
    · obtain ⟨v, hname, hknown⟩ : ∃ v : Version, v.name = pkg ∧ Known apt v := by
        rcases hcases c (.inl rfl) with rfl | ⟨-, hknown⟩
        · rcases hcases i (.inr rfl) with rfl | ⟨-, hknown⟩
          · cases hvalid
          · exact ⟨i, hknown⟩
        · exact ⟨c, hknown⟩
      subst hname
      exact ⟨hknown.validateName_eq h.toWellFormed hfind, fun names => hknown.mem_walk⟩
    · obtain ⟨hcnot, hinot⟩ := Bool.or_eq_false_iff.mp hnot
      rcases hcases i (.inr rfl) with rfl | ⟨hivalid, -⟩
      · rw [hany, hcnot]
        rfl
      · rw [hivalid] at hinot
        cases hinot
  · obtain ⟨pi, hpi, rfl⟩ := (mem_walk hwalk).2 name hname
    rw [isValid, h.findPkg_eq hfind hpi]
    rfl

/-- A package of which the first version is installed and the second one is the candidate. -/
def samplePackage : PkgCache.Package := ⟨str "p", sampleVersions, sampleVersions.head?⟩

def sampleUpgrade : AptImplementation :=
  ⟨⟨[samplePackage], fun file => ⟨str "f", file = 0⟩⟩, fun pi => pi.VersionList.getLast?, none, 0⟩

def findUpgrade (name : Str) : Option PkgCache.Package :=
  if name = str "p" then some samplePackage else none

lemma filled_sampleUpgrade : Filled sampleUpgrade where
  names := by decide
  strings pi hpi := by
    obtain rfl := List.mem_singleton.mp hpi
    decide
  not_null pi hpi := by
    obtain rfl := List.mem_singleton.mp hpi
    decide
  candidate pi _ vi hvi := List.mem_of_getLast? hvi
  current pi hpi vi hvi := by
    obtain rfl := List.mem_singleton.mp hpi
    exact List.mem_of_head? hvi
  name_ne pi hpi := by
    obtain rfl := List.mem_singleton.mp hpi
    decide
  string_ne pi hpi := by
    obtain rfl := List.mem_singleton.mp hpi
    decide

lemma finds_sampleUpgrade : Finds findUpgrade sampleUpgrade.m_cache where
  sound name pi h := by
    rw [findUpgrade] at h
    split_ifs at h with hname
    obtain rfl := Option.some.inj h
    exact ⟨List.mem_singleton_self _, hname.symm⟩
  complete pi hpi := by
    obtain rfl := List.mem_singleton.mp hpi
    decide

theorem versions_agree_sampleUpgrade :
    ∃ c i, candidateVersion findUpgrade sampleUpgrade (str "p") = some c ∧
      installedVersion findUpgrade (str "p") = some i ∧ c = ⟨str "p", str "2"⟩ ∧
      anyVersion findUpgrade sampleUpgrade (str "p") = some c ∧ Known sampleUpgrade c := by
  obtain ⟨-, ⟨c, i, hc, hi, hany, hknown, -⟩, -⟩ :=
    versions_agree filled_sampleUpgrade finds_sampleUpgrade (str "p")
  have hcandidate : c = ⟨str "p", str "2"⟩ :=
    (Option.some.inj (show some ⟨str "p", str "2"⟩ = some c from hc)).symm
  refine ⟨c, i, hc, hi, hcandidate, ?_, ?_⟩
  · rw [hany, hcandidate]
    rfl
  · exact ((hknown c (.inl rfl)).resolve_left (by rw [hcandidate]; decide)).2

/-! ### What the state is -/

variable {apt' : AptImplementation} {dep : Depends μ} {flags : ℕ} {q : Query}

/-- The package is unpacked, or further. -/
def present (dep : Depends μ) (pi : PkgCache.Package) : Bool :=
  dep.currentState pi != .ConfigFiles && dep.currentState pi != .NotInstalled

lemma has_installedFlags :
    has ⟨installedFlags apt dep pi flags⟩ q = (has ⟨flags⟩ q ||
      present dep pi && pi.CurrentVer.any fun inst =>
        decide (.Installed = q) ||
          (apt.m_policy pi).any (inst != ·) && decide (.Upgradable = q)) := by
  rw [installedFlags]
  split_ifs with hpresent
  · have htrue : present dep pi = true := by simpa [present] using hpresent
    rw [htrue, Bool.true_and]
    cases pi.CurrentVer with
    | none => simp
    | some inst => cases apt.m_policy pi <;> simp [Bool.or_assoc]
  · have hfalse : present dep pi = false := by
      rw [Bool.eq_false_iff]
      simpa [present] using hpresent
    rw [hfalse, Bool.false_and, Bool.or_false]

/-- What the bits of a state say about the versions. -/
structure Agrees (findPkg : FindPkg) (dep : Depends μ) (pkg : Str) (c i : Version)
    (s : PackageState) : Prop where
  isValid : s.isValid = isValid findPkg pkg
  installed : s.installed = true ↔ i.isValid = true ∧ (findPkg pkg).all (present dep) = true
  hasNewVersion : s.hasNewVersion = true ↔ s.installed = true ∧ c.isValid = true ∧ c ≠ i
  upgradable : s.upgradable = s.hasNewVersion
  held : s.held = false
  /-- No two actions are chosen. -/
  action : (s.install && s.remove) = false ∧ (s.keep && s.modify) = false
  /-- One is chosen exactly if the mode of the package is one of those that are looked at. -/
  chosen : (s.keep || s.modify) = true ↔ ∃ pi, findPkg pkg = some pi ∧
    ((dep.stateCache pi).Mode = dep.modes.ModeInstall ∨
      (dep.stateCache pi).Mode = dep.modes.ModeKeep ∨
      (dep.stateCache pi).Mode = dep.modes.ModeDelete)
  unknown : s.isValid = false → s = ⟨0⟩

lemma agrees_none (hpkg : findPkg pkg = none) : Agrees findPkg dep pkg .invalid .invalid ⟨0⟩ := by
  constructor <;>
    simp [PackageState.isValid, PackageState.installed, PackageState.hasNewVersion,
      PackageState.upgradable, PackageState.held, install, remove, keep, PackageState.modify,
      isValid, isValid_invalid, hpkg]

/-- The dependency cache has been opened, or opens now. -/
def Opens (apt : AptImplementation) (opens : Bool) : Prop :=
  apt.m_depcache = some ⟨true⟩ ∨ apt.m_depcache = none ∧ opens = true

variable [DecidableEq μ]

/-- The answers to all queries for a package that is there. -/
lemma has_stateOf :
    (stateOf apt dep pi).has q =
      match q with
      | .Install => (dep.stateCache pi).Mode = dep.modes.ModeInstall
      | .Upgrade => false
      | .Keep => (dep.stateCache pi).Mode = dep.modes.ModeKeep
      | .Remove => (dep.stateCache pi).Mode = dep.modes.ModeDelete
      | .Installed => present dep pi && pi.CurrentVer.isSome
      | .Upgradable => present dep pi && pi.CurrentVer.any fun inst =>
          (apt.m_policy pi).any (inst != ·)
      | .NowBroken => (dep.stateCache pi).nowBroken
      | .WillBreak => (dep.stateCache pi).instBroken
      | .ReInstall => (dep.stateCache pi).reInstall
      | .Purge => (dep.stateCache pi).purge
      | .Hold => false
      | .Valid => true := by
  simp only [stateOf]
  cases q <;> simp [has_installedFlags]

/-- How the state of a package is asked for: it is answered if the dependency cache is open or
opens now. If it does not open there is an exception, and from then on there is no result. -/
lemma run_state (hpkg : findPkg pkg = some pi) (opens : Bool) :
    (state findPkg dep opens pkg).run apt =
      match apt.m_depcache with
      | some ⟨true⟩ => .ok (stateOf apt dep pi) apt
      | some ⟨false⟩ => .undefined
      | none =>
        if opens then .ok (stateOf apt dep pi) { apt with m_depcache := some ⟨true⟩ }
        else .threw (.exception ⟨str "Opening the cache file"⟩)
          { apt with m_depcache := some ⟨false⟩ } := by
  obtain ⟨cache, policy, m_depcache, timestamp⟩ := apt
  rw [state, hpkg]
  rcases m_depcache with _ | ⟨_ | _⟩
  · cases opens <;> rfl
  · rfl
  · rfl

lemma Filled.agrees_stateOf (h : Filled apt) (hpkg : findPkg pkg = some pi)
    (hpi : pi ∈ apt.m_cache.packages) {c i : Version} (hc : Names pi (apt.m_policy pi) c)
    (hi : Names pi pi.CurrentVer i) : Agrees findPkg dep pkg c i (stateOf apt dep pi) := by
  have hivalid := h.isValid_iff hpi hi
  have hcvalid := h.isValid_iff hpi hc
  have hnew : (pi.CurrentVer.any fun inst => (apt.m_policy pi).any (inst != ·)) = true ↔
      pi.CurrentVer.isSome = true ∧ c.isValid = true ∧ c ≠ i := by
    cases hcur : pi.CurrentVer with
    | none => simp
    | some inst =>
      rw [hcvalid]
      cases hcand : apt.m_policy pi with
      | none => simp
      | some cand =>
        rw [hcur] at hi
        rw [hcand] at hc
        have hinj := h.names_inj hpi hc hi
        simp only [Option.any_some, bne_iff_ne, ne_eq, hinj, Option.isSome_some, true_and]
        exact not_congr eq_comm
  have hdistinct := dep.modes.distinct
  simp only [List.nodup_cons, List.mem_cons, List.not_mem_nil, or_false, not_or] at hdistinct
  obtain ⟨⟨hdk, hdi⟩, hki, -⟩ := hdistinct
  constructor
  · simp [PackageState.isValid, isValid, has_stateOf, hpkg]
  · simp only [installed, has_stateOf, hpkg, Option.all_some, hivalid, Bool.and_eq_true]
    exact and_comm
  · simp only [installed, hasNewVersion, has_stateOf, Bool.and_eq_true, hnew, and_assoc]
  · simp [upgradable, hold, has_stateOf]
  · simp [held, hold, has_stateOf]
  · simp only [install, remove, keep, PackageState.modify, has_stateOf]
    grind
  · simp only [install, remove, keep, PackageState.modify, has_stateOf, hpkg]
    grind
  · intro hnot
    simp [PackageState.isValid, has_stateOf] at hnot

/-- As libapt numbers them. -/
def sampleModes : ModeList ℕ := ⟨0, 1, 2, by decide⟩

/-- The package is installed, and is kept as it is. -/
def sampleDepends : Depends ℕ :=
  ⟨sampleModes, fun _ => .Installed, fun _ => ⟨1, false, false, false, false⟩⟩

end Libept.Apt.RawRecord
