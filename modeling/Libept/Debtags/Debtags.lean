import Libept.Debtags.Coll.TextFormat.Format
import Libept.Utils.Sys.Sharing.ReadFile

/-!
# The tag database

The class `Debtags`, which is a `Fast` collection and is constructed from a file, with the calls
that this makes. What an exception leaves of a database that is being loaded is not given.
-/

namespace Libept

open Prog Sys Fast

/-! ### What a file says -/

namespace TextFormat

/-- The item and the tag stand on one line of a file. -/
inductive FilePairs (i t : Str) : Str → Prop
  | last {l : Str} (hl : nl ∉ l) (h : LinePairs l i t) : FilePairs i t l
  | line {l : Str} (r : Str) (hl : nl ∉ l) (h : LinePairs (l ++ [nl]) i t) :
    FilePairs i t (l ++ nl :: r)
  | later {l r : Str} (hl : nl ∉ l) (h : FilePairs i t r) : FilePairs i t (l ++ nl :: r)

variable {i t l r s : Str} {out out' : Fast}

lemma filePairs_last (hl : nl ∉ l) : FilePairs i t l ↔ LinePairs l i t := by
  refine ⟨fun h => ?_, .last hl⟩
  cases h with
  | last _ h => exact h
  | line r _ _ => simp at hl
  | later _ _ => simp at hl

lemma filePairs_line (hl : nl ∉ l) :
    FilePairs i t (l ++ nl :: r) ↔ LinePairs (l ++ [nl]) i t ∨ FilePairs i t r := by
  constructor
  · intro h
    generalize hs : l ++ nl :: r = s at h
    have hinj {l' r' : Str} (hl' : nl ∉ l') (h : l ++ nl :: r = l' ++ nl :: r') :
        l = l' ∧ r = r' := by
      obtain ⟨hll, -, hrr⟩ := Lines.append_cons_inj (P := (· ≠ nl))
        (fun z hz hnl => hl (hnl ▸ hz)) (fun z hz hnl => hl' (hnl ▸ hz)) (by simp) (by simp) h
      exact ⟨hll, hrr⟩
    cases h with
    | last hs' _ =>
      subst hs
      simp at hs'
    | line r' hl' h =>
      obtain ⟨rfl, -⟩ := hinj hl' hs
      exact .inl h
    | later hl' h =>
      obtain ⟨-, rfl⟩ := hinj hl' hs
      exact .inr h
  · rintro (h | h)
    · exact .line r hl h
    · exact .later hl h

/-- A file that is parsed adds the pairs of its lines. By induction on the lines. -/
lemma adds_of_parse (h : parse s out = (.ok (), out')) :
    Adds out out' fun i t => FilePairs i t s := by
  induction s using Lines.induction nl generalizing out with
  | last l hl =>
    obtain ⟨e, he⟩ | ⟨out₁, hok, hadds⟩ := parse_of_isLine ⟨l, hl, .inl rfl⟩ out
    · cases he.symm.trans h
    · cases hok.symm.trans h
      exact hadds.congr fun i t => (filePairs_last hl).symm
  | line l r hl ih =>
    rw [parse_line hl] at h
    obtain ⟨e, he⟩ | ⟨out₁, hok, hadds⟩ := parse_of_isLine ⟨l, hl, .inr rfl⟩ out
    · rw [he] at h
      cases h
    · rw [hok] at h
      exact (hadds.trans (ih h)).congr fun i t => (filePairs_line hl).symm

end TextFormat

open TextFormat

/-! ### The class -/

structure Debtags extends Fast where
  m_timestamp : Time

namespace Debtags

/-- The default pathname, in an environment. -/
def pathname (getenv : Str → Option Str) : Str :=
  match getenv (str "DEBTAGS_TAGS") with
  | none => str "/var/lib/debtags/package-tags"
  | some res => res

/-- `load(pathname)`, with so many steps for the reading. -/
def load (n : ℕ) (d : Debtags) (pathname : Str) : ReadProg Debtags := do
  let (out, m_timestamp) ← loadFile n pathname fun input => some (parse input d.toFast)
  pure ⟨out, m_timestamp⟩

/-- The constructor for a given file. -/
def ofFile (n : ℕ) (pathname : Str) : ReadProg Debtags := load n ⟨.empty, 0⟩ pathname

/-- The constructor for the system database. -/
def new (n : ℕ) (getenv : Str → Option Str) : ReadProg Debtags := do
  let src := pathname getenv
  let found ← exists_ src
  if !found then pure ⟨.empty, 0⟩ else load n ⟨.empty, 0⟩ src

/-! ### Loading -/

variable {n : ℕ} {file : Str} {A : Set Str} {w w' : World} {d : Debtags}
  {keeps : Prop}

/-- The collection is a text that has been parsed. -/
def ParsedFrom (A : Set Str) (d : Debtags) : Prop :=
  ∃ c ∈ A, parse c .empty = (.ok (), d.toFast)

lemma safe_ofFile (h : Versions file A w) :
    (ofFile n file).Safe (WriterMay file A) (readStep keeps) (ReaderMay file) w
      (fun d w' => GivenBack keeps w.reader w'.reader ∧ ParsedFrom A d)
      fun err w' => GivenBack keeps w.reader w'.reader ∧
        GivenUp A n (fun c => some (parse c .empty)) err := by
  refine Safe.bind ((safe_loadFile n _ h).mono ?_ fun _ _ h => h)
  rintro ⟨out, m_timestamp⟩ w₁ ⟨h₁, c, hc, hparse⟩ w₂ h₂
  exact ⟨h₁.same h₂.reader, c, hc, Option.some.inj hparse⟩

lemma safe_new {getenv : Str → Option Str} (h : Versions (pathname getenv) A w) :
    (new n getenv).Safe (WriterMay (pathname getenv) A) (readStep keeps)
      (ReaderMay (pathname getenv)) w
      (fun d w' => GivenBack keeps w.reader w'.reader ∧ (d = ⟨.empty, 0⟩ ∨ ParsedFrom A d))
      fun err w' => GivenBack keeps w.reader w'.reader ∧
        GivenUp A n (fun c => some (parse c .empty)) err := by
  refine Safe.bind ((safe_exists h).mono ?_ fun _ _ h => h)
  rintro found w₁ ⟨h₁, hversions⟩
  cases found with
  | false => exact fun w₂ h₂ => ⟨.of_eq (h₂.reader.trans h₁), .inl rfl⟩
  | true =>
    rw [← h₁]
    exact (safe_ofFile hversions).mono (fun _ _ h => ⟨h.1, .inr h.2⟩) fun _ _ h => h

/-- While another process replaces the file, a database that is constructed is empty, or says of
every item and tag what one version of the file says, in both directions. An exception tells of a
call that has failed or of a version that cannot be parsed, and all files are closed. -/
theorem new_while_replaced (keeps : Prop) (getenv : Str → Option Str) (datas : List Str)
    (mode : Mode) (n : ℕ) (w w' : World) (x : SysProg Unit) (y : ReadProg Debtags)
    (hn : ∀ c ∈ contents (pathname getenv) datas w, c.length < n)
    (hrun : Interleaves writeStep (readStep keeps) (writeEach (pathname getenv) datas mode)
      (new n getenv) w x y w') :
    (∀ d, y = .ret d → GivenBack keeps w.reader w'.reader ∧ (d = ⟨.empty, 0⟩ ∨
      ∃ c ∈ contents (pathname getenv) datas w, ∀ i t,
        (t ∈ d.getTagsOfItem i ↔ FilePairs i t c) ∧
          (i ∈ d.getItemsHavingTag t ↔ FilePairs i t c))) ∧
      ∀ err, y = .throw err → GivenBack keeps w.reader w'.reader ∧ (SystemFailure err ∨
        ∃ c ∈ contents (pathname getenv) datas w, ∃ e out,
          err = some (.failure e) ∧ parse c .empty = (.error e, out)) := by
  have hversions : Versions (pathname getenv) (contents (pathname getenv) datas w) w :=
    fun c hc => .inl hc
  obtain ⟨-, hsafe⟩ := hrun.safe (fun _ _ h => h) (fun _ _ h => h)
    (careful_writeEach (fun data hdata => .inr hdata) w) (safe_new hversions)
  refine ⟨?_, ?_⟩
  · rintro d rfl
    obtain ⟨hreader, hloaded⟩ := hsafe w' (IsRely.refl _)
    refine ⟨hreader, hloaded.imp_right ?_⟩
    rintro ⟨c, hc, hparse⟩
    have hrep := represents_empty.adds (adds_of_parse hparse)
    refine ⟨c, hc, fun i t => ⟨?_, ?_⟩⟩
    · rw [hrep.mem_getTagsOfItem, false_or]
    · rw [hrep.mem_getItemsHavingTag, false_or]
  · rintro err rfl
    obtain ⟨hreader, hgiven⟩ := hsafe w' (IsRely.refl _)
    refine ⟨hreader, ?_⟩
    match err, hgiven with
    | none, ⟨c, hc, hbound⟩ =>
      have hlength := hn c hc
      rcases hbound with hle | hnone
      · omega
      · cases hnone
    | some (.failure e), ⟨c, hc, out, hfailed⟩ =>
      exact .inr ⟨c, hc, e, out, rfl, Option.some.inj hfailed⟩
    | some (.systemError e), _ => exact .inl ⟨e, rfl⟩

lemma parse_oneLine :
    ∃ out, parse (str "a: t\n") .empty = (.ok (), out) ∧
      Adds .empty out fun i t => i = str "a" ∧ t = str "t" := by
  have ha : IsElement (str "a") := ⟨by decide, by decide, by rintro _ ⟨⟩; decide,
    by rintro _ ⟨⟩; decide, by decide⟩
  have ht : IsElement (str "t") := ⟨by decide, by decide, by rintro _ ⟨⟩; decide,
    by rintro _ ⟨⟩; decide, by decide⟩
  have hcolon : IsSeparator colon (str ": ") := .behind (b := str " ") (by decide) (by decide)
  have hline : IsFormatLine (str "a: t") [str "a"] [str "t"] :=
    .tagged (a := []) (b := []) rfl (.one ha) hcolon (.one ht) rfl
  obtain ⟨out, hparse, hadds⟩ := parse_format_line hline .empty
  exact ⟨out, hparse, hadds.congr fun i t => by simp⟩

/-- The old file is loaded after an attempt to replace it has failed. -/
theorem new_while_replaced_oneLine :
    ∃ w w' d, Interleaves writeStep (readStep False)
        (writeEach (pathname fun _ => none) [str "b: u\n"] 0o644) (new 7 fun _ => none) w (.ret ())
        (.ret d) w' ∧
      w'.reader = w.reader ∧ ∃ c, FilePairs (str "a") (str "t") c := by
  obtain ⟨out, hparse, hadds⟩ := parse_oneLine
  let file := str "/var/lib/debtags/package-tags"
  let k := Kernel.single file (str "a: t\n") (.of 0o022)
  have hrun : Interleaves writeStep (readStep False)
      (writeEach (pathname fun _ => none) [str "b: u\n"] 0o644) (new 7 fun _ => none) ⟨k, .idle⟩
      (.ret ()) (.ret ⟨out, 1⟩) ⟨k, .idle⟩ := by
    apply Interleaves.right true ⟨_, _⟩ ⟨⟨fun _ => ⟨0, rfl⟩, rfl⟩, rfl⟩
    apply Interleaves.left ((.error 13, []) : Except Errno Fd × Str) ⟨_, _⟩
      ⟨rfl, rfl, fun _ _ h => h⟩
    exact (interleaves_loadFile 5 rfl (by decide) (congrArg some hparse) 1).bind_right _
  have hn : ∀ c ∈ contents (pathname fun _ => none) [str "b: u\n"] ⟨k, .idle⟩, c.length < 7 := by
    rintro c (hc | hc)
    · have hcontent : k.content file = some c := hc
      rw [Kernel.content_single] at hcontent
      obtain rfl := Option.some.inj hcontent
      decide
    · obtain rfl := List.mem_singleton.mp hc
      decide
  obtain ⟨hreader, hempty | ⟨c, -, hpairs⟩⟩ :=
    (new_while_replaced _ _ _ _ _ _ _ _ _ hn hrun).1 _ rfl
  · cases hempty
  · refine ⟨_, _, _, hrun, hreader.eq id, c, (hpairs _ _).1.mp ?_⟩
    have hrep := represents_empty.adds hadds
    rw [hrep.mem_getTagsOfItem]
    exact .inr ⟨rfl, rfl⟩

end Debtags

end Libept
