import Libept.Apt.RecordIteratorImpl
import Libept.Lib.Runs

/-!
# The open file and its position

What `record` does without seeking is right as long as `lastFile` is the file that is open and
`lastOffset` is the position in it. A call that returns leaves it so, and a call that throws may
not.
-/

namespace Libept.Apt.RecordIteratorImpl

open PkgCache

variable {r r' : RecordIteratorImpl} {env : Env} {vf : VerFile} {idx : ℕ}

/-- The open file is the last one, at the position `lastOffset`. -/
def Coherent (r : RecordIteratorImpl) : Prop :=
  ∀ f, r.lastFile = some f → r.file = .onFile (r.fileName f) r.lastOffset.toNat

/-- No file is open as long as there is no last one. -/
def Unopened (r : RecordIteratorImpl) : Prop := r.lastFile = none → r.file = .closed

/-- The position from which the record of a location is reached. -/
def start (r : RecordIteratorImpl) (vf : VerFile) : UInt64 :=
  if r.lastFile = some vf.File then r.lastOffset else 0

/-- The object with the file of a location open at a position. -/
def standing (r : RecordIteratorImpl) (vf : VerFile) (lastOffset : UInt64) (pos : ℕ) :
    RecordIteratorImpl :=
  { r with lastFile := some vf.File, file := .onFile (r.fileName vf.File) pos,
           lastOffset := lastOffset }

/-- The object after the record of a location has been read. -/
def after (r : RecordIteratorImpl) (vf : VerFile) : RecordIteratorImpl :=
  r.standing vf (vf.Offset + vf.Size) (vf.Offset + vf.Size).toNat

/-- The bytes of a location. -/
def bytesAt (r : RecordIteratorImpl) (disk : Str → Contents) (vf : VerFile) : Str :=
  ((disk (r.fileName vf.File)).bytes.drop vf.Offset.toNat).take vf.Size.toNat

/-! ### How a call goes -/

/-- The file of the location is open, or it is up to date and opens. -/
def Opens (r : RecordIteratorImpl) (env : Env) (vf : VerFile) : Prop :=
  r.lastFile = some vf.File ∨ env.isOk = true ∧ env.opens = true

/-- The file of the location is out of date, but it has the name of the one that is open. -/
def Renamed (r : RecordIteratorImpl) (env : Env) (vf : VerFile) : Prop :=
  env.isOk = false ∧ ∃ f, r.lastFile = some f ∧ r.fileName f = r.fileName vf.File

/-- Where the open file is left if a seek or a read fails on the way to the end of a record. -/
def failure (r : RecordIteratorImpl) (env : Env) (vf : VerFile) : Option ℕ :=
  if vf.Offset - r.start vf > 8 then
    env.seekFails.or (env.readFailure (r.fileName vf.File) vf.Offset.toNat vf.Size.toNat)
  else
    env.readFailure (r.fileName vf.File) (r.start vf).toNat
      (vf.Size + (vf.Offset - r.start vf)).toNat

/-- A failing call does not matter if it leaves the open file where it was. -/
def Harmless (r : RecordIteratorImpl) (env : Env) (vf : VerFile) : Prop :=
  r.Opens env vf ∧ (∀ p, r.failure env vf = some p → p = (r.start vf).toNat) ∨
    ¬r.Opens env vf ∧ r.Renamed env vf

lemma unopened_of_some {f : ℕ} (hf : r.lastFile = some f) : r.Unopened := by
  intro hnone
  cases hf.symm.trans hnone

lemma coherent_of_none (hnone : r.lastFile = none) : r.Coherent := by
  intro f hf
  cases hf.symm.trans hnone

lemma standing_coherent_iff {lastOffset : UInt64} {pos : ℕ} :
    (r.standing vf lastOffset pos).Coherent ↔ pos = lastOffset.toNat := by
  constructor
  · intro h
    exact (FileFd.onFile.inj (h vf.File rfl)).2
  · rintro rfl f hf
    obtain rfl := Option.some.inj hf
    rfl

lemma Coherent.eq_standing (h : r.Coherent) (hf : r.lastFile = some vf.File) :
    r = r.standing vf r.lastOffset r.lastOffset.toNat := by
  have hfile := h _ hf
  cases r
  simp only [standing, mk.injEq, true_and] at hf hfile ⊢
  exact ⟨hf, hfile, trivial⟩

/-- When only `lastFile` is replaced, the open file must have the name of the new one. -/
lemma Coherent.relabel_iff (h : r.Coherent) (hclosed : r.Unopened) {g : ℕ} :
    Coherent { r with lastFile := some g } ↔
      ∃ f, r.lastFile = some f ∧ r.fileName f = r.fileName g := by
  constructor
  · intro h'
    have hopen : r.file = .onFile (r.fileName g) r.lastOffset.toNat := h' g rfl
    cases hf : r.lastFile with
    | none => cases (hclosed hf).symm.trans hopen
    | some f => exact ⟨f, rfl, (FileFd.onFile.inj ((h f hf).symm.trans hopen)).1⟩
  · rintro ⟨f, hf, hname⟩ g' hg
    obtain rfl := Option.some.inj hg
    exact (h f hf).trans (congrArg (FileFd.onFile · _) hname)

lemma harmless_iff_failure {p : ℕ} (hopens : r.Opens env vf) (hfail : r.failure env vf = some p) :
    r.Harmless env vf ↔ p = (r.start vf).toNat := by
  simp [Harmless, hopens, hfail]

lemma harmless_iff_renamed (hopens : ¬r.Opens env vf) : r.Harmless env vf ↔ r.Renamed env vf := by
  simp [Harmless, hopens]

lemma readFailure_eq_none {name : Str} {pos n : ℕ} :
    env.readFailure name pos n = none ↔
      env.readFails = none ∧ pos + n ≤ (env.disk name).bytes.length := by
  rw [Env.readFailure]
  cases env.readFails <;> simp

/-- The bytes that are read too when there is no seek end where the location begins. -/
lemma start_add_slack {pos : UInt64} (hpos : pos.toNat < 2 ^ 63) (hnear : ¬vf.Offset - pos > 8) :
    pos.toNat + (vf.Offset - pos).toNat = vf.Offset.toNat ∧
      (vf.Size + (vf.Offset - pos)).toNat = (vf.Offset - pos).toNat + vf.Size.toNat := by
  have hfits := vf.fits
  have hsub := UInt64.toNat_sub vf.Offset pos
  have hadd := UInt64.toNat_add vf.Size (vf.Offset - pos)
  have hoffset := vf.Offset.toNat_lt
  rw [gt_iff_lt, UInt64.lt_iff_toNat_lt, show (8 : UInt64).toNat = 8 from rfl] at hnear
  omega

lemma toNat_end : (vf.Offset + vf.Size).toNat = vf.Offset.toNat + vf.Size.toNat := by
  have hfits := vf.fits
  have hadd := UInt64.toNat_add vf.Offset vf.Size
  omega

lemma take_skipped (bytes : Str) (pos slack size : ℕ) :
    (((bytes.drop pos).take (slack + size)).drop slack).take size =
      (bytes.drop (pos + slack)).take size := by
  rw [List.drop_take, List.drop_drop, List.take_take]
  congr 1
  omega

/-! ### The steps of a call -/

/-- From a coherent state the file of the location is opened, unless it is already open. -/
lemma openFile_ensures (h : r.Coherent) (hclosed : r.Unopened) :
    (openFile env vf).Ensures r
      (fun _ r' => r.Opens env vf ∧ r' = r.standing vf (r.start vf) (r.start vf).toNat)
      fun _ r' => ¬r.Opens env vf ∧ r'.Unopened ∧ (r'.Coherent ↔ r.Renamed env vf) := by
  by_cases hf : r.lastFile = some vf.File
  · have hsame : ¬(r.lastFile = none ∨ r.lastFile ≠ some vf.File) := by simp [hf]
    simp only [openFile, Exec.ensures_bind, Exec.ensures_get, if_neg hsame, Exec.ensures_pure]
    refine ⟨.inl hf, ?_⟩
    rw [start, if_pos hf]
    exact h.eq_standing hf
  · have hopen : r.lastFile = none ∨ r.lastFile ≠ some vf.File := .inr hf
    simp only [openFile, Exec.ensures_bind, Exec.ensures_get, Exec.ensures_modify,
      Exec.ensures_ite, Exec.ensures_throw, Exec.ensures_pure]
    refine ⟨fun _ => ⟨fun hold => ?_, fun hok => ⟨fun hshut => ?_, fun hon => ?_⟩⟩,
      fun hsame => absurd hopen hsame⟩
    · refine ⟨by simp [Opens, hf, hold], unopened_of_some rfl, ?_⟩
      rw [h.relabel_iff hclosed, Renamed, and_iff_right hold]
    · have hopens : env.opens = false := by
        cases ho : env.opens with
        | false => rfl
        | true => simp [FileFd.Open, ho] at hshut
      refine ⟨by simp [Opens, hf, hopens], unopened_of_some rfl, ?_⟩
      refine iff_of_false (fun hc => ?_) fun hr => hok hr.1
      have hfile := hc vf.File rfl
      simp [FileFd.Open, hopens] at hfile
    · have hopens : env.opens = true := by
        cases ho : env.opens with
        | false => simp [FileFd.Open, ho] at hon
        | true => rfl
      refine ⟨.inr ⟨by simpa using hok, hopens⟩, ?_⟩
      simp [standing, start, hf, FileFd.Open, hopens, fileName]

/-- Either the bytes up to the location are few and will be read, or there is a seek. -/
lemma startNear_ensures {lastOffset : UInt64} {pos : ℕ} :
    (startNear env vf).Ensures (r.standing vf lastOffset pos)
      (fun slack r' =>
        (¬vf.Offset - lastOffset > 8 ∧ slack = vf.Offset - lastOffset ∧
          r' = r.standing vf lastOffset pos) ∨
        (vf.Offset - lastOffset > 8 ∧ env.seekFails = none ∧ slack = 0 ∧
          r' = r.standing vf lastOffset vf.Offset.toNat))
      fun _ r' => vf.Offset - lastOffset > 8 ∧
        ∃ p, env.seekFails = some p ∧ r' = r.standing vf lastOffset p := by
  by_cases hfar : vf.Offset - (r.standing vf lastOffset pos).lastOffset > 8
  · cases hseek : env.seekFails with
    | none =>
      have hsought : (r.standing vf lastOffset pos).file.Seek env vf.Offset.toNat =
          (true, .onFile (r.fileName vf.File) vf.Offset.toNat) := by
        simp only [standing, FileFd.Seek, hseek]
      simp only [startNear, Exec.ensures_bind, Exec.ensures_get]
      rw [if_pos hfar, hsought]
      exact .inr ⟨hfar, trivial, rfl, rfl⟩
    | some p =>
      have hsought : (r.standing vf lastOffset pos).file.Seek env vf.Offset.toNat =
          (false, .onFile (r.fileName vf.File) p) := by
        simp only [standing, FileFd.Seek, hseek]
      simp only [startNear, Exec.ensures_bind, Exec.ensures_get]
      rw [if_pos hfar, hsought]
      exact ⟨hfar, p, rfl, rfl⟩
  · simp only [startNear, Exec.ensures_bind, Exec.ensures_get]
    rw [if_neg hfar]
    exact .inl ⟨hfar, rfl, rfl⟩

lemma readBytes_ensures {lastOffset slack : UInt64} {pos : ℕ} :
    (readBytes env vf slack).Ensures (r.standing vf lastOffset pos)
      (fun buffer r' =>
        env.readFailure (r.fileName vf.File) pos (vf.Size + slack).toNat = none ∧
        buffer = ((((env.disk (r.fileName vf.File)).bytes.drop pos).take
          (vf.Size + slack).toNat).drop slack.toNat).take vf.Size.toNat ∧
        r' = r.standing vf (vf.Offset + vf.Size) (pos + (vf.Size + slack).toNat))
      fun _ r' =>
        ∃ p, env.readFailure (r.fileName vf.File) pos (vf.Size + slack).toNat = some p ∧
          r' = r.standing vf lastOffset p := by
  cases hfail : env.readFailure (r.fileName vf.File) pos (vf.Size + slack).toNat with
  | none =>
    have hread : (r.standing vf lastOffset pos).file.Read env (vf.Size + slack).toNat =
        (some (((env.disk (r.fileName vf.File)).bytes.drop pos).take (vf.Size + slack).toNat),
          .onFile (r.fileName vf.File) (pos + (vf.Size + slack).toNat)) := by
      simp only [standing, FileFd.Read, hfail]
    simp only [readBytes, Exec.ensures_bind, Exec.ensures_get, hread]
    exact ⟨trivial, rfl, rfl⟩
  | some p =>
    have hread : (r.standing vf lastOffset pos).file.Read env (vf.Size + slack).toNat =
        (none, .onFile (r.fileName vf.File) p) := by
      simp only [standing, FileFd.Read, hfail]
    simp only [readBytes, Exec.ensures_bind, Exec.ensures_get, hread]
    exact ⟨p, rfl, rfl⟩

/-- There is no location with the index. -/
lemma record_undefined (hvf : r.vflist[idx]? = none) : (record env idx).run r = .undefined := by
  simp only [record, Exec.run_bind, Exec.get, hvf, Exec.ofOption]

/-- A seek or a read that fails leaves the file open where the failure leaves it. -/
lemma standing_of_failure {p : ℕ} (hopens : r.Opens env vf) (hfail : r.failure env vf = some p) :
    ¬(r.Opens env vf ∧ r.failure env vf = none) ∧
      (r.standing vf (r.start vf) p).Unopened ∧
        ((r.standing vf (r.start vf) p).Coherent ↔ r.Harmless env vf) := by
  refine ⟨by simp [hfail], unopened_of_some rfl, ?_⟩
  rw [standing_coherent_iff, harmless_iff_failure hopens hfail]

/-- A call from a coherent state returns the bytes of the location unless a call that it makes
fails, and leaves the state coherent unless that call does harm. -/
lemma record_ensures (env : Env) (h : r.Coherent) (hclosed : r.Unopened)
    (hvf : r.vflist[idx]? = some vf) :
    (record env idx).Ensures r
      (fun buffer r' => (r.Opens env vf ∧ r.failure env vf = none) ∧
        buffer = r.bytesAt env.disk vf ∧ r' = r.after vf)
      fun _ r' => ¬(r.Opens env vf ∧ r.failure env vf = none) ∧ r'.Unopened ∧
        (r'.Coherent ↔ r.Harmless env vf) := by
  simp only [record, Exec.ensures_bind, Exec.ensures_get, hvf, Exec.ensures_ofOption_some]
  refine (openFile_ensures h hclosed).mono ?_ ?_
  · rintro _ _ ⟨hopens, rfl⟩
    refine startNear_ensures.mono ?_ ?_
    · rintro slack _ (⟨hnear, rfl, rfl⟩ | ⟨hfar, hseek, rfl, rfl⟩)
      · have hfailure : r.failure env vf = env.readFailure (r.fileName vf.File) (r.start vf).toNat
            (vf.Size + (vf.Offset - r.start vf)).toNat := if_neg hnear
        refine readBytes_ensures.mono ?_ ?_
        · rintro buffer _ ⟨hread, rfl, rfl⟩
          have hlength := (readFailure_eq_none.mp hread).2
          have hpos : (r.start vf).toNat < 2 ^ 63 :=
            lt_of_le_of_lt (by omega) (env.disk (r.fileName vf.File)).length_lt
          obtain ⟨hstart, hsize⟩ := start_add_slack hpos hnear
          refine ⟨⟨hopens, hfailure.trans hread⟩, ?_, ?_⟩
          · rw [hsize, take_skipped, hstart]
            rfl
          · rw [after, toNat_end, hsize, ← add_assoc, hstart]
        · rintro _ _ ⟨p, hread, rfl⟩
          exact standing_of_failure hopens (hfailure.trans hread)
      · have hfailure : r.failure env vf =
            env.readFailure (r.fileName vf.File) vf.Offset.toNat vf.Size.toNat := by
          rw [failure, if_pos hfar, hseek, Option.none_or]
        refine readBytes_ensures.mono ?_ ?_
        · rintro buffer _ ⟨hread, rfl, rfl⟩
          rw [UInt64.add_zero] at hread ⊢
          refine ⟨⟨hopens, hfailure.trans hread⟩, ?_, by rw [after, toNat_end]⟩
          have hbytes := take_skipped (env.disk (r.fileName vf.File)).bytes vf.Offset.toNat 0
            vf.Size.toNat
          rwa [Nat.zero_add] at hbytes
        · rintro _ _ ⟨p, hread, rfl⟩
          rw [UInt64.add_zero] at hread
          exact standing_of_failure hopens (hfailure.trans hread)
    · rintro _ _ ⟨hfar, p, hseek, rfl⟩
      have hfailure : r.failure env vf = some p := by
        rw [failure, if_pos hfar, hseek, Option.some_or]
      exact standing_of_failure hopens hfailure
  · rintro _ r' ⟨hopens, hunopened, hcoherent⟩
    refine ⟨fun hall => hopens hall.1, hunopened, ?_⟩
    exact hcoherent.trans (harmless_iff_renamed hopens).symm

/-! ### Calls that succeed -/

/-- Calls on a working system can go on from such a state. -/
structure Ready (r : RecordIteratorImpl) : Prop where
  coherent : r.Coherent
  unopened : r.Unopened
  lastOffset_lt : r.lastFile ≠ none → r.lastOffset.toNat < 2 ^ 63

lemma ready_ofList (apt : AptImplementation) (vflist : List VerFile) (lastOffset : UInt64) :
    (ofList apt vflist lastOffset).Ready :=
  ⟨coherent_of_none rfl, fun _ => rfl, fun h => absurd rfl h⟩

lemma ready_after : (r.after vf).Ready := by
  refine ⟨standing_coherent_iff.mpr rfl, unopened_of_some rfl, fun _ => ?_⟩
  have hfits := vf.fits
  rw [← toNat_end] at hfits
  exact hfits

variable {disk : Str → Contents}

/-- On a working system no call fails on the way to the end of a location within its file. -/
lemma Ready.failure_working (h : r.Ready)
    (hwithin : vf.Offset.toNat + vf.Size.toNat ≤ (disk (r.fileName vf.File)).bytes.length) :
    r.failure (Env.working disk) vf = none := by
  have hread {pos n : ℕ} (hpos : pos + n = vf.Offset.toNat + vf.Size.toNat) :
      (Env.working disk).readFailure (r.fileName vf.File) pos n = none :=
    readFailure_eq_none.mpr ⟨rfl, le_of_eq_of_le hpos hwithin⟩
  rw [failure]
  split_ifs with hnear
  · rw [hread rfl]
    rfl
  · have hstart : (r.start vf).toNat < 2 ^ 63 := by
      rw [start]
      split_ifs with hf
      · exact h.lastOffset_lt (by simp [hf])
      · decide
    obtain ⟨hoffset, hsize⟩ := start_add_slack hstart hnear
    exact hread (by omega)

lemma Ready.record_ensures (h : r.Ready) (hvf : r.vflist[idx]? = some vf)
    (hwithin : vf.Offset.toNat + vf.Size.toNat ≤ (disk (r.fileName vf.File)).bytes.length) :
    (record (Env.working disk) idx).Ensures r
      (fun buffer r' => buffer = r.bytesAt disk vf ∧ r' = r.after vf) fun _ _ => False := by
  refine (RecordIteratorImpl.record_ensures _ h.coherent h.unopened hvf).mono ?_ ?_
  · exact fun _ _ hok => hok.2
  · exact fun _ _ hthrew => hthrew.1 ⟨.inr ⟨rfl, rfl⟩, h.failure_working hwithin⟩

/-- The bytes of a location are in its file. -/
def Within (apt : AptImplementation) (disk : Str → Contents) (vf : VerFile) : Prop :=
  vf.Offset.toNat + vf.Size.toNat ≤ (disk (apt.m_cache.packageFile vf.File).FileName).bytes.length

/-- Calls that are made one after the other return the bytes of their locations, and the next call
can go on. -/
lemma Ready.records (h : r.Ready) (idxs : List (Fin r.vflist.length))
    (hwithin : ∀ idx ∈ idxs, Within r.apt disk r.vflist[idx]) :
    ∃ r', (idxs.mapM fun idx : Fin r.vflist.length => record (Env.working disk) idx).run r =
        .ok (idxs.map fun idx => r.bytesAt disk r.vflist[idx]) r' ∧
      r'.Ready ∧ r'.apt = r.apt ∧ r'.vflist = r.vflist := by
  have hcall : ∀ idx ∈ idxs, ∀ r', r'.Ready ∧ r'.apt = r.apt ∧ r'.vflist = r.vflist →
      (record (Env.working disk) idx).Ensures r'
        (fun buffer r'' => buffer = r.bytesAt disk r.vflist[idx] ∧
          r''.Ready ∧ r''.apt = r.apt ∧ r''.vflist = r.vflist) fun _ _ => False := by
    rintro idx hidx r' ⟨hready, happ, hlist⟩
    have hvf : r'.vflist[(idx : ℕ)]? = some r.vflist[idx] := by
      rw [hlist]
      exact List.getElem?_eq_getElem idx.isLt
    have hbytes : r'.bytesAt disk r.vflist[idx] = r.bytesAt disk r.vflist[idx] := by
      simp only [bytesAt, fileName, happ]
    have hlength := hwithin idx hidx
    rw [Within, ← happ] at hlength
    refine (hready.record_ensures hvf hlength).mono ?_ fun _ _ h => h
    rintro buffer _ ⟨rfl, rfl⟩
    exact ⟨hbytes, ready_after, happ, hlist⟩
  exact Exec.run_mapM hcall ⟨h, rfl, rfl⟩

/-- Any calls in any order return the bytes of the locations that they are made for. -/
theorem records_exact (apt : AptImplementation) (vflist : List VerFile) (lastOffset : UInt64)
    (disk : Str → Contents)
    (hwithin : ∀ vf ∈ vflist, vf.Offset.toNat + vf.Size.toNat ≤
      (disk (apt.m_cache.packageFile vf.File).FileName).bytes.length)
    (idxs : List (Fin vflist.length)) :
    ∃ r', (idxs.mapM fun idx : Fin vflist.length => record (Env.working disk) idx).run
      (ofList apt vflist lastOffset) =
        .ok (idxs.map fun idx =>
          ((disk (apt.m_cache.packageFile vflist[idx].File).FileName).bytes.drop
            vflist[idx].Offset.toNat).take vflist[idx].Size.toNat) r' := by
  obtain ⟨r', hrun, -⟩ := (ready_ofList apt vflist lastOffset).records idxs
    fun idx _ => hwithin vflist[idx] (List.getElem_mem _)
  exact ⟨r', hrun⟩

/-- A file of twelve bytes. -/
def sampleDisk (_ : Str) : Contents := ⟨str "abcdefghijkl", by decide⟩

def sampleApt : AptImplementation := ⟨⟨[], fun _ => ⟨str "f", false⟩⟩, fun _ => none, none, 0⟩

def sampleLocation : VerFile := ⟨0, 1, 2, by decide⟩

def sampleList : List VerFile := [sampleLocation, ⟨0, 5, 3, by decide⟩]

def sampleIdxs : List (Fin sampleList.length) := [⟨1, by decide⟩, ⟨0, by decide⟩, ⟨1, by decide⟩]

theorem records_exact_sample :
    ∃ r', (sampleIdxs.mapM fun idx : Fin sampleList.length =>
        record (Env.working sampleDisk) idx).run (ofList sampleApt sampleList 0) =
      .ok [str "fgh", str "bc", str "fgh"] r' :=
  records_exact sampleApt sampleList 0 sampleDisk (by decide) sampleIdxs

/-! ### Calls that may fail -/

/-- An object that has been constructed, and calls of `record`, each with the answers of the
system. A call returns or throws. -/
def recordCalls : Transitions RecordIteratorImpl (Env × ℕ) where
  init r := ∃ apt vflist lastOffset, r = ofList apt vflist lastOffset
  step r call r' := (∃ buffer, (record call.1 call.2).run r = .ok buffer r') ∨
    ∃ e, (record call.1 call.2).run r = .threw e r'

/-- A call makes no call that does harm when it fails. -/
def HarmlessCall (r : RecordIteratorImpl) (call : Env × ℕ) : Prop :=
  ∀ vf, r.vflist[call.2]? = some vf → r.Harmless call.1 vf

/-- The open file is the last one, at the position `lastOffset`, after every call of a run exactly
when no call fails harmfully. -/
theorem coherent_iff_harmless :
    ∀ steps r, recordCalls.Run steps r →
      (Transitions.Always Coherent steps r ↔ ∀ x ∈ steps, HarmlessCall x.1 x.2) := by
  intro steps r hrun
  refine hrun.always_iff (J := Unopened) ?_ ?_
  · rintro _ ⟨apt, vflist, lastOffset, rfl⟩
    exact ⟨fun _ => rfl, coherent_of_none rfl⟩
  · rintro r ⟨env, idx⟩ r' hclosed hcoherent hstep
    cases hvf : r.vflist[idx]? with
    | none =>
      simp [recordCalls, record_undefined hvf] at hstep
    | some vf =>
      have hcall : HarmlessCall r (env, idx) ↔ r.Harmless env vf := by
        simp [HarmlessCall, hvf]
      have hensures := record_ensures env hcoherent hclosed hvf
      rcases hstep with ⟨buffer, hok⟩ | ⟨e, hthrew⟩
      · obtain ⟨⟨hopens, hfailure⟩, -, rfl⟩ := hensures.of_ok hok
        refine ⟨unopened_of_some rfl, ?_⟩
        refine iff_of_true (standing_coherent_iff.mpr rfl) (hcall.mpr ?_)
        exact .inl ⟨hopens, by simp [hfailure]⟩
      · obtain ⟨-, hunopened, hiff⟩ := hensures.of_threw hthrew
        exact ⟨hunopened, hiff.trans hcall.symm⟩

lemma init_ofList : recordCalls.init (ofList sampleApt sampleList 0) := ⟨_, _, _, rfl⟩

theorem coherent_iff_harmless_sample :
    Transitions.Always Coherent [(ofList sampleApt sampleList 0, (Env.working sampleDisk, 0))]
      ((ofList sampleApt sampleList 0).after sampleLocation) := by
  have hstep : recordCalls.step (ofList sampleApt sampleList 0) (Env.working sampleDisk, 0)
      ((ofList sampleApt sampleList 0).after sampleLocation) := .inl ⟨str "bc", rfl⟩
  apply (coherent_iff_harmless _ _ (.step (.init init_ofList) hstep)).mpr
  refine List.forall_mem_singleton.mpr fun vf hvf => ?_
  obtain rfl := Option.some.inj hvf
  refine .inl ⟨.inr ⟨rfl, rfl⟩, fun p hp => ?_⟩
  cases hp

/-- The file does not open: it is the last file all the same, and the next call reads from a file
that is closed. -/
theorem open_fails :
    ∃ r, recordCalls.Run
        [(ofList sampleApt sampleList 0, ({ Env.working sampleDisk with opens := false }, 0))] r ∧
      r.lastFile = some 0 ∧ r.file = .closed ∧ ¬r.Coherent ∧
      (record (Env.working sampleDisk) 0).run r =
        .threw ⟨str "Cannot read package record in file f"⟩ r := by
  have hstep : recordCalls.step (ofList sampleApt sampleList 0)
      ({ Env.working sampleDisk with opens := false }, 0)
      { ofList sampleApt sampleList 0 with lastFile := some 0 } :=
    .inr ⟨⟨str "Opening file f"⟩, rfl⟩
  refine ⟨_, .step (.init init_ofList) hstep, rfl, rfl, fun hcoherent => ?_, rfl⟩
  cases hcoherent 0 rfl

end Libept.Apt.RecordIteratorImpl
