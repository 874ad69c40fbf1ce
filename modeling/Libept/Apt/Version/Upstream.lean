import Libept.Apt.RecordParser
import Libept.Apt.Version
import Libept.Utils.String.Dirname

/-!
# The upstream part of a version

`upstreamVersion` cuts a version at its first colon and at its last dash, and computes with the
offsets in `size_t`. Any string is a version with parts that can be told from it.
-/

namespace Libept.Apt.RawRecord

open RecordParser Utils

/-! ### The source -/

/-- `a - b` in `size_t` -/
def sizeSub (a b : ℕ) : ℕ := (a + 2 ^ 64 - b) % 2 ^ 64

def Version.upstreamVersion (ver : Version) : Str :=
  -- skip the epoch, if it is there
  let start :=
    match find ver.version colon 0 with
    | none => 0
    | some start => start + 1
  -- skip everything after the trailing '-', if it is there
  let end_ :=
    match rfind ver.version dash (ver.version.length - 1) with
    | none => ver.version.length
    | some end_ => end_
  substr ver.version start (sizeSub end_ start)

/-! ### The parts of a version -/

/-- A version as `[epoch:]upstream[-revision]`. -/
structure Parts where
  epoch : Option Str
  upstream : Str
  revision : Option Str

namespace Parts

/-- The epoch with its colon. -/
def front (p : Parts) : Str := p.epoch.elim [] (· ++ [colon])

/-- The revision with its dash. -/
def back (p : Parts) : Str := p.revision.elim [] (dash :: ·)

def text (p : Parts) : Str := p.front ++ (p.upstream ++ p.back)

/-- The first colon ends the epoch, and the last dash behind it starts the revision. -/
structure Valid (p : Parts) : Prop where
  epoch : ∀ e, p.epoch = some e → colon ∉ e
  no_epoch : p.epoch = none → colon ∉ p.upstream ++ p.back
  revision : ∀ r, p.revision = some r → dash ∉ r
  no_revision : p.revision = none → dash ∉ p.upstream

end Parts

variable {p : Parts} {s : Str} {c : Byte} {n start end_ : ℕ}

/-! ### Cutting a string -/

lemma sizeSub_of_le (h : start ≤ end_) (hend : end_ < 2 ^ 64) :
    sizeSub end_ start = end_ - start := by
  rw [sizeSub, show end_ + 2 ^ 64 - start = end_ - start + 2 ^ 64 by omega, Nat.add_mod_right,
    Nat.mod_eq_of_lt (by omega)]

/-- A difference that wraps around reaches behind the end of any string. -/
lemma le_sizeSub_of_lt (h : end_ < start) (hn : start + n < 2 ^ 64) : n ≤ sizeSub end_ start := by
  rw [sizeSub, Nat.mod_eq_of_lt (by omega)]
  omega

lemma rdropWhile_last {f r : Str} (hr : c ∉ r) : (f ++ c :: r).rdropWhile (· != c) = f ++ [c] := by
  have hskip : ∀ d ∈ r.reverse, (d != c) = true := fun d hd =>
    bne_iff_ne.mpr fun h => hr (h ▸ List.mem_reverse.mp hd)
  rw [List.append_cons, List.rdropWhile, List.reverse_append, List.dropWhile_append_of_pos hskip,
    List.reverse_concat, List.dropWhile_cons_of_neg (by simp), List.reverse_cons,
    List.reverse_reverse]

/-- Where the last `c` is. -/
lemma rfind_last {f r : Str} (hr : c ∉ r) :
    rfind (f ++ c :: r) c ((f ++ c :: r).length - 1) = some f.length := by
  have hlen : (f ++ c :: r).length = f.length + r.length + 1 := by
    simp only [List.length_append, List.length_cons, Nat.add_assoc]
  have hcases := rfind_eq (f ++ c :: r) c ((f ++ c :: r).length - 1) (by omega)
  rw [List.take_of_length_le (by omega), rdropWhile_last hr] at hcases
  rcases hcases with ⟨-, hnil⟩ | ⟨pos, hpos, hget, heq⟩
  · simp at hnil
  · obtain ⟨hlt, -⟩ := List.getElem?_eq_some_iff.mp hget
    have hlength := congrArg List.length heq
    rw [List.length_take_of_le hlt, List.length_append, List.length_singleton] at hlength
    rw [hpos, Nat.add_right_cancel hlength]

/-- What is found is in the string. -/
lemma mem_of_rfind {pos : ℕ} (h : rfind s c n = some pos) : s[pos]? = some c := by
  induction n with
  | zero =>
    rw [rfind] at h
    split_ifs at h with hzero
    exact Option.some.inj h ▸ hzero
  | succ n ih =>
    rw [rfind] at h
    split_ifs at h with hsucc
    · exact Option.some.inj h ▸ hsucc
    · exact ih h

lemma find_colon_text (hp : p.Valid) :
    (match find p.text colon 0 with
    | none => 0
    | some start => start + 1) = p.front.length := by
  cases hepoch : p.epoch with
  | none =>
    have hfront : p.front = [] := by rw [Parts.front, hepoch]; rfl
    have hfind : find p.text colon 0 = none := by
      rw [Parts.text, hfront]
      exact @find_of_not_mem colon [] _ (hp.no_epoch hepoch)
    rw [hfind, hfront]
    rfl
  | some e =>
    have hfront : p.front = e ++ [colon] := by rw [Parts.front, hepoch]; rfl
    have htext : p.text = [] ++ (e ++ colon :: (p.upstream ++ p.back)) := by
      rw [Parts.text, hfront, List.append_assoc]
      rfl
    rw [htext]
    have hfind := @find_append colon [] e (hp.epoch e hepoch) (p.upstream ++ p.back)
    rw [List.length_nil, Nat.zero_add] at hfind
    rw [hfind, hfront, List.length_append, List.length_singleton]

/-- What stands between the two places is the upstream part, also where the last dash is in the
epoch and the difference of the offsets wraps around. -/
lemma upstreamVersion_text (hp : p.Valid) (hlen : p.text.length < 2 ^ 64) (name : Str) :
    Version.upstreamVersion ⟨name, p.text⟩ = p.upstream := by
  have hlength : p.text.length = p.front.length + p.upstream.length + p.back.length := by
    simp only [Parts.text, List.length_append, Nat.add_assoc]
  rw [Version.upstreamVersion]
  simp only [find_colon_text hp]
  rw [substr, Parts.text, List.drop_left, ← Parts.text]
  cases hrevision : p.revision with
  | none =>
    have hback : p.back = [] := by rw [Parts.back, hrevision]; rfl
    rw [hback, List.append_nil]
    rw [hback, List.length_nil, Nat.add_zero] at hlength
    apply List.take_of_length_le
    cases hdash : rfind p.text dash (p.text.length - 1) with
    | none =>
      rw [sizeSub_of_le (by omega) hlen]
      omega
    | some pos =>
      have hget := mem_of_rfind hdash
      have hpos : pos < p.front.length := by
        by_contra hle
        rw [Parts.text, hback, List.append_nil,
          List.getElem?_append_right (not_lt.mp hle)] at hget
        exact hp.no_revision hrevision (List.mem_of_getElem? hget)
      exact le_sizeSub_of_lt hpos (by omega)
  | some r =>
    have hback : p.back = dash :: r := by rw [Parts.back, hrevision]; rfl
    have htext : p.text = (p.front ++ p.upstream) ++ dash :: r := by
      rw [Parts.text, hback, List.append_assoc]
    have hrfind := rfind_last (f := p.front ++ p.upstream) (hp.revision r hrevision)
    rw [← htext, List.length_append] at hrfind
    simp only [hrfind]
    have hend : p.front.length + p.upstream.length < 2 ^ 64 := by omega
    rw [sizeSub_of_le (Nat.le_add_right _ _) hend, Nat.add_sub_cancel_left, List.take_left]

/-! ### Any string is a version -/

/-- A string is cut at its last `c`. -/
lemma exists_last (s : Str) (hc : c ∈ s) : ∃ f r, s = f ++ c :: r ∧ c ∉ r := by
  obtain ⟨r, f, hrev, hr⟩ := List.eq_append_cons_of_mem (List.mem_reverse.mpr hc)
  refine ⟨f.reverse, r.reverse, ?_, fun h => hr (List.mem_reverse.mp h)⟩
  rw [← List.reverse_reverse s, hrev, List.reverse_append, List.reverse_cons, List.append_assoc]
  rfl

lemma last_inj {f f' r r' : Str} (hr : c ∉ r) (hr' : c ∉ r') (h : f ++ c :: r = f' ++ c :: r') :
    f = f' ∧ r = r' := by
  have hdrop := congrArg (List.rdropWhile (· != c)) h
  rw [rdropWhile_last hr, rdropWhile_last hr'] at hdrop
  obtain rfl := List.append_cancel_right hdrop
  exact ⟨rfl, List.tail_eq_of_cons_eq (List.append_cancel_left h)⟩

lemma first_inj {f f' r r' : Str} (hf : c ∉ f) (hf' : c ∉ f') (h : f ++ c :: r = f' ++ c :: r') :
    f = f' ∧ r = r' := by
  have hreverse : r.reverse ++ c :: f.reverse = r'.reverse ++ c :: f'.reverse := by
    simpa using congrArg List.reverse h
  obtain ⟨hr, hfs⟩ := last_inj (mt List.mem_reverse.mp hf) (mt List.mem_reverse.mp hf') hreverse
  exact ⟨List.reverse_injective hfs, List.reverse_injective hr⟩

lemma exists_parts (s : Str) : ∃ p : Parts, p.Valid ∧ p.text = s := by
  -- what is behind the epoch is cut at its last dash
  have hrest : ∀ epoch rest, (∀ e, epoch = some e → colon ∉ e) → (epoch = none → colon ∉ rest) →
      ∃ p : Parts, p.Valid ∧ p.epoch = epoch ∧ p.text = p.front ++ rest := by
    intro epoch rest hepoch hnone
    by_cases hdash : dash ∈ rest
    · obtain ⟨upstream, r, rfl, hr⟩ := exists_last rest hdash
      refine ⟨⟨epoch, upstream, some r⟩, ⟨hepoch, hnone, fun _ h => ?_, fun h => ?_⟩, rfl, rfl⟩
      · exact Option.some.inj h ▸ hr
      · cases h
    · refine ⟨⟨epoch, rest, none⟩, ⟨hepoch, fun h => ?_, fun _ h => ?_, fun _ => hdash⟩, rfl, ?_⟩
      · simpa [Parts.back] using hnone h
      · cases h
      · simp [Parts.text, Parts.back]
  by_cases hcolon : colon ∈ s
  · obtain ⟨e, rest, rfl, he⟩ := List.eq_append_cons_of_mem hcolon
    obtain ⟨p, hp, hpe, htext⟩ := hrest (some e) rest (fun _ h => Option.some.inj h ▸ he)
      fun h => by cases h
    refine ⟨p, hp, ?_⟩
    rw [htext, Parts.front, hpe, Option.elim_some, List.append_assoc]
    rfl
  · obtain ⟨p, hp, hpe, htext⟩ := hrest none s (fun _ h => by cases h) fun _ => hcolon
    refine ⟨p, hp, ?_⟩
    rw [htext, Parts.front, hpe, Option.elim_none, List.nil_append]

lemma Parts.Valid.epoch_eq {q : Parts} (hp : p.Valid) (hq : q.Valid) (h : p.text = q.text) :
    p.epoch = q.epoch ∧ p.upstream ++ p.back = q.upstream ++ q.back := by
  simp only [Parts.text, Parts.front] at h
  cases hpe : p.epoch with
  | none =>
    rw [hpe, Option.elim_none, List.nil_append] at h
    cases hqe : q.epoch with
    | none =>
      rw [hqe] at h
      exact ⟨rfl, h⟩
    | some e =>
      have hnot := hp.no_epoch hpe
      rw [h, hqe] at hnot
      simp at hnot
  | some e =>
    rw [hpe] at h
    cases hqe : q.epoch with
    | none =>
      have hnot := hq.no_epoch hqe
      rw [hqe, Option.elim_none, List.nil_append] at h
      rw [← h] at hnot
      simp at hnot
    | some e' =>
      rw [hqe, Option.elim_some, Option.elim_some, List.append_assoc, List.append_assoc] at h
      obtain ⟨rfl, hrest⟩ := first_inj (hp.epoch e hpe) (hq.epoch e' hqe) h
      exact ⟨rfl, hrest⟩

lemma Parts.Valid.revision_eq {q : Parts} (hp : p.Valid) (hq : q.Valid)
    (h : p.upstream ++ p.back = q.upstream ++ q.back) :
    p.upstream = q.upstream ∧ p.revision = q.revision := by
  simp only [Parts.back] at h
  cases hpr : p.revision with
  | none =>
    rw [hpr, Option.elim_none, List.append_nil] at h
    cases hqr : q.revision with
    | none =>
      rw [hqr, Option.elim_none, List.append_nil] at h
      exact ⟨h, rfl⟩
    | some r =>
      have hnot := hp.no_revision hpr
      rw [h, hqr] at hnot
      simp at hnot
  | some r =>
    rw [hpr] at h
    cases hqr : q.revision with
    | none =>
      have hnot := hq.no_revision hqr
      rw [hqr, Option.elim_none, List.append_nil] at h
      rw [← h] at hnot
      simp at hnot
    | some r' =>
      rw [hqr] at h
      obtain ⟨hupstream, rfl⟩ := last_inj (hp.revision r hpr) (hq.revision r' hqr) h
      exact ⟨hupstream, rfl⟩

/-- Every string can be read as a version in exactly one way, and `upstreamVersion` gives the
upstream part of it. -/
theorem upstreamVersion_parts (ver : Version) (hlen : ver.version.length < 2 ^ 64) :
    ∃ p : Parts, p.Valid ∧ p.text = ver.version ∧
      (∀ q : Parts, q.Valid → q.text = ver.version → q = p) ∧ ver.upstreamVersion = p.upstream := by
  obtain ⟨p, hp, htext⟩ := exists_parts ver.version
  refine ⟨p, hp, htext, fun q hq hqtext => ?_, ?_⟩
  · obtain ⟨hepoch, hrest⟩ := hq.epoch_eq hp (hqtext.trans htext.symm)
    obtain ⟨hupstream, hrevision⟩ := hq.revision_eq hp hrest
    cases p
    cases q
    simp only at hepoch hupstream hrevision
    rw [hepoch, hupstream, hrevision]
  · have hversion := upstreamVersion_text hp (htext ▸ hlen) ver.name
    rwa [htext] at hversion

/-- The last dash is in the epoch. -/
theorem upstreamVersion_parts_epoch :
    Version.upstreamVersion ⟨str "a", str "1-2:3.4"⟩ = str "3.4" ∧
      ∃ p : Parts, p.Valid ∧ p.text = str "1-2:3.4" ∧ p.upstream = str "3.4" := by
  obtain ⟨p, hp, htext, -, hversion⟩ :=
    upstreamVersion_parts ⟨str "a", str "1-2:3.4"⟩ (by decide)
  have heq : Version.upstreamVersion ⟨str "a", str "1-2:3.4"⟩ = str "3.4" := by decide
  exact ⟨heq, p, hp, htext, hversion.symm.trans heq⟩

end Libept.Apt.RawRecord
