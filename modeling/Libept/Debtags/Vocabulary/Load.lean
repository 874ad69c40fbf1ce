import Libept.Debtags.Vocabulary.RoundTrip
import Libept.Debtags.Vocabulary.Save
import Libept.Utils.Sys.Sharing.Reader

/-!
# Loading the vocabulary

`load` and the constructor, with the calls that they make, while another process writes the
vocabulary. The timestamp goes with the vocabulary. What an exception leaves of a vocabulary that
is being loaded is not given.
-/

namespace Libept.Vocabulary

open Prog Sys Voc

variable {v : Vocabulary} {getenv : Str → Option Str} {n : ℕ} {A : Set Str} {w w' : World}
  {keeps : Prop}

/-- `load(pathname)`, with so many steps for the reading. -/
def load (n : ℕ) (v : Vocabulary) (m_timestamp : Time) (pathname : Str) :
    ReadProg (Vocabulary × Time) := do
  let found ← exists_ pathname
  if !found then pure (v, m_timestamp)
  else loadFile n pathname fun input => (v.read input).run n

/-- The constructor. -/
def new (n : ℕ) (getenv : Str → Option Str) (empty : Bool) : ReadProg (Vocabulary × Time) :=
  if empty then pure (.empty, 0) else load n .empty 0 (pathname getenv)

/-- Each of these vocabularies is written in turn. A failure of one does not stop the others. -/
def writeEach (getenv : Str → Option Str) (vs : List Vocabulary) : SysProg Unit :=
  vs.forM fun v => (v.writeSystem getenv).handle fun _ => pure ()

lemma careful_writeEach {vs : List Vocabulary} (hvs : ∀ v ∈ vs, v.write ∈ A) :
    Careful (pathname getenv) A (writeEach getenv vs) := by
  refine Careful.forM fun v hv => Careful.handle ?_ fun _ => careful_pure ()
  refine (careful_umask _).bind fun prev_umask => ?_
  exact (careful_write_file_atomically (hvs v hv)).bind fun _ =>
    (careful_umask _).bind fun _ => careful_pure ()

/-- Nothing is loaded, or else one of the versions is read. -/
lemma safe_load {m_timestamp : Time} {file : Str} (h : Versions file A w) :
    (v.load n m_timestamp file).Safe (WriterMay file A) (readStep keeps) (ReaderMay file) w
      (fun a w' => GivenBack keeps w.reader w'.reader ∧ (a = (v, m_timestamp) ∨
        ∃ c ∈ A, (v.read c).run n = some (.ok (), a.1)))
      fun err w' => GivenBack keeps w.reader w'.reader ∧
        GivenUp A n (fun c => (v.read c).run n) err := by
  refine Safe.bind ((safe_exists h).mono ?_ fun _ _ h => h)
  rintro found w₁ ⟨h₁, hversions⟩
  cases found with
  | false => exact fun w₂ h₂ => ⟨.of_eq (h₂.reader.trans h₁), .inl rfl⟩
  | true =>
    rw [← h₁]
    exact (safe_loadFile n _ hversions).mono (fun _ _ h => ⟨h.1, .inr h.2⟩) fun _ _ h => h

/-! ### Saved vocabularies -/

/-- A vocabulary that has been read from a file, and survives being written. -/
def Savable (v : Vocabulary) : Prop :=
  v.Rereadable ∧ ∃ input, (empty.read input).Returns (.ok (), v)

/-- Its text is read, and gives it back. -/
lemma Savable.read_write (h : v.Savable) :
    ∃ v', (empty.read v.write).Returns (.ok (), v') ∧ v.Same v' := by
  obtain ⟨hv, input, hinput⟩ := h
  have hwf := wf_empty.read hinput
  have hp := parsed_of_read hinput
  exact (exists_same_iff hwf hp).mpr (has_iff_of_rereadable hwf hp hv)

/-- So many steps are enough for the text of the vocabulary. -/
def Enough (n : ℕ) (v : Vocabulary) : Prop :=
  v.write.length < n ∧ ∃ v', (empty.read v.write).run n = some (.ok (), v') ∧ v.Same v'

lemma Savable.exists_enough (h : v.Savable) : ∃ n₀, ∀ n ≥ n₀, Enough n v := by
  obtain ⟨v', ⟨n₀, hrun⟩, hsame⟩ := h.read_write
  refine ⟨max n₀ (v.write.length + 1), fun n hn => ⟨by omega, v', ?_, hsame⟩⟩
  exact (empty.read v.write).mono (le_trans (Nat.le_max_left _ _) hn) hrun

lemma exists_enough {vs : List Vocabulary} (h : ∀ v ∈ vs, v.Savable) :
    ∃ n₀, ∀ n ≥ n₀, ∀ v ∈ vs, Enough n v := by
  induction vs with
  | nil => exact ⟨0, fun _ _ _ hv => by cases hv⟩
  | cons v vs ih =>
    rw [List.forall_mem_cons] at h
    obtain ⟨n₁, h₁⟩ := h.1.exists_enough
    obtain ⟨n₂, h₂⟩ := ih h.2
    refine ⟨max n₁ n₂, fun n hn => List.forall_mem_cons.mpr ⟨h₁ n ?_, h₂ n ?_⟩⟩
    · exact le_trans (Nat.le_max_left _ _) hn
    · exact le_trans (Nat.le_max_right _ _) hn

/-- While another process writes vocabularies that survive being written, one that is constructed
is empty, or has the same content as one that the file held at the beginning or that is written,
and no version of the file makes the parser fail. The number of steps is bounded by the
vocabularies alone. -/
theorem new_while_written (keeps : Prop) (getenv : Str → Option Str) (all : List Vocabulary)
    (hall : ∀ v ∈ all, v.Savable) :
    ∃ n₀, ∀ n ≥ n₀, ∀ (vs : List Vocabulary) (w w' : World) (x : SysProg Unit)
      (y : ReadProg (Vocabulary × Time)),
      (∀ v ∈ vs, v ∈ all) →
      (∀ c, w.kernel.content (pathname getenv) = some c → ∃ v ∈ all, c = v.write) →
      Interleaves writeStep (readStep keeps) (writeEach getenv vs) (new n getenv false) w x y w' →
      (∀ v m_timestamp, y = .ret (v, m_timestamp) → GivenBack keeps w.reader w'.reader ∧
        (v = empty ∧ m_timestamp = 0 ∨ ∃ v' ∈ all, v'.Same v)) ∧
        ∀ err, y = .throw err → GivenBack keeps w.reader w'.reader ∧ SystemFailure err := by
  obtain ⟨n₀, henough⟩ := exists_enough hall
  refine ⟨n₀, fun n hn vs w w' x y hvs hold hrun => ?_⟩
  let A : Set Str := {c | ∃ v ∈ all, c = v.write}
  have hversions : Versions (pathname getenv) A w := hold
  have hwriter : Careful (pathname getenv) A (writeEach getenv vs) :=
    careful_writeEach fun v hv => ⟨v, hvs v hv, rfl⟩
  obtain ⟨-, hsafe⟩ := hrun.safe (fun _ _ h => h) (fun _ _ h => h) (hwriter w)
    (safe_load hversions)
  refine ⟨?_, ?_⟩
  · rintro v m_timestamp rfl
    obtain ⟨hreader, hloaded⟩ := hsafe w' (IsRely.refl _)
    refine ⟨hreader, hloaded.imp (fun h => Prod.mk.inj h) ?_⟩
    rintro ⟨_, ⟨v', hv', rfl⟩, hread⟩
    obtain ⟨-, v'', hread', hsame⟩ := henough n hn v' hv'
    obtain rfl : v'' = v := by simpa using hread'.symm.trans hread
    exact ⟨v', hv', hsame⟩
  · rintro err rfl
    obtain ⟨hreader, hgiven⟩ := hsafe w' (IsRely.refl _)
    refine ⟨hreader, hgiven.systemFailure ?_⟩
    rintro _ ⟨v', hv', rfl⟩
    obtain ⟨hlength, v'', hread, -⟩ := henough n hn v' hv'
    exact ⟨hlength, v'', hread⟩

/-- A facet without fields. -/
def oneFacet : Vocabulary := empty.mergeAll [(∅ : Record).insertIfNew (str "Facet") (str "a")]

lemma savable_oneFacet : oneFacet.Savable := by
  have hhas : ∀ a, oneFacet.Has a → a = .facet (str "a") := by
    intro a ha
    obtain ⟨record, hrecord, hstates⟩ :=
      (has_of_has_mergeAll wf_empty ha).resolve_left (not_has_empty a)
    obtain rfl := List.mem_singleton.mp hrecord
    refine ((states_facet_iff (by decide)).mp hstates).resolve_right ?_
    rintro ⟨k, x, hk, hx, rfl⟩
    rcases getElem?_insertIfNew_cases hx with hx | ⟨rfl, -⟩
    · simp at hx
    · exact absurd rfl hk
  have hplain : reread (str "a") = str "a" := by decide
  refine ⟨⟨fun a ha => ?_, fun f k x hx => ?_, fun f hf => ?_, fun f hf => ?_⟩,
    str "Facet: a\n", ?_⟩
  · rintro x hx
    rw [hhas a ha] at hx
    cases hx
  · cases hhas _ hx
  · cases hhas _ hf
    rwa [hplain]
  · cases hhas _ hf
    exact .inr ⟨_, hf, hplain⟩
  · rw [read_denotes]
    rfl

/-- It is loaded after another attempt to write it has failed. -/
theorem new_while_written_oneFacet :
    ∃ n w w' v, Interleaves writeStep (readStep False) (writeEach (fun _ => none) [oneFacet])
        (new n (fun _ => none) false) w (.ret ()) (.ret (v, 1)) w' ∧
      w'.reader = w.reader ∧ oneFacet.Same v := by
  have hall : ∀ v ∈ [oneFacet], v.Savable := List.forall_mem_singleton.mpr savable_oneFacet
  obtain ⟨n₀, h⟩ := new_while_written False (fun _ => none) [oneFacet] hall
  obtain ⟨n₁, henough⟩ := exists_enough hall
  let n := max n₀ n₁ + 2
  obtain ⟨-, v, hread, -⟩ := henough n (by omega) oneFacet List.mem_cons_self
  let file := str "/var/lib/debtags/vocabulary"
  let k := Kernel.single file oneFacet.write (.of 0o022)
  have hrun : Interleaves writeStep (readStep False) (writeEach (fun _ => none) [oneFacet])
      (new n (fun _ => none) false) ⟨k, .idle⟩ (.ret ()) (.ret (v, 1))
      ⟨{ k with umask := .of 0o022 }, .idle⟩ := by
    apply Interleaves.right true ⟨_, _⟩ ⟨⟨fun _ => ⟨0, rfl⟩, rfl⟩, rfl⟩
    apply Interleaves.left _ ⟨_, _⟩ ⟨⟨rfl, rfl⟩, rfl, fun _ _ h => h⟩
    apply Interleaves.left ((.error 13, []) : Except Errno Fd × Str) ⟨_, _⟩
      ⟨rfl, rfl, fun _ _ h => h⟩
    exact interleaves_loadFile (max n₀ n₁) rfl (by decide) hread 1
  have hold (c : Str) (hc : k.content file = some c) : ∃ v ∈ [oneFacet], c = v.write := by
    rw [Kernel.content_single] at hc
    exact ⟨oneFacet, List.mem_cons_self, (Option.some.inj hc).symm⟩
  obtain ⟨hreader, ⟨-, hzero⟩ | ⟨v', hv', hsame⟩⟩ :=
    (h n (by omega) _ _ _ _ _ (fun _ hv => hv) hold hrun).1 v 1 rfl
  · cases hzero
  · obtain rfl := List.mem_singleton.mp hv'
    exact ⟨n, _, _, v, hrun, hreader.eq id, hsame⟩

end Libept.Vocabulary
