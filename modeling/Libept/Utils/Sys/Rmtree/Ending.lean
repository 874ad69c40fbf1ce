import Libept.Utils.Sys.Rmtree

/-!
# `rmtree` ends

From a directory below which there is no endless way down, `rmtree` gets to an end, and when none of
its calls fails it returns.
-/

namespace Libept.Sys

open Prog Utils

variable {files : Files}

namespace Entries

variable {E : Entries files} {e m m' : ℕ}

lemma Enough.mono (h : E.Enough m e) (hm : m ≤ m') : E.Enough m' e := by
  induction m generalizing e m' with
  | zero => exact h.elim
  | succ m ih =>
    obtain ⟨m', rfl⟩ : ∃ k, m' = k + 1 := ⟨m' - 1, by omega⟩
    obtain ⟨hcard, hbelow⟩ := h
    exact ⟨by omega, fun c hc => ih (hbelow c hc) (by omega)⟩

/-- An entry leads to one place only. -/
lemma finite_descends (E : Entries files) (e : ℕ) : {c | E.Descends e c}.Finite := by
  have hsub : {c | E.Descends e c} ⊆ ⋃ n ∈ {n | E.get e n ≠ none}, {c | E.Leads e n c} := by
    rintro c ⟨n, i, hget, hleads, -⟩
    refine Set.mem_biUnion (x := n) ?_ hleads
    show E.get e n ≠ none
    rw [hget]
    exact Option.some_ne_none _
  refine Set.Finite.subset ((E.finite e).biUnion fun n _ => ?_) hsub
  exact Set.Subsingleton.finite fun c hc c' hc' => hc.unique hc'

/-- By induction on the way down. -/
lemma exists_enough (h : Acc (fun c d => E.Descends d c) e) : ∃ m, E.Enough m e := by
  induction h with
  | intro e _ ih =>
    choose! f hf using ih
    obtain ⟨M, hM⟩ := ((E.finite_descends e).image f).bddAbove
    refine ⟨max M ((E.finite e).toFinset.card + 2) + 1, le_max_right _ _, fun c hc => ?_⟩
    exact (hf c hc).mono ((hM (Set.mem_image_of_mem f hc)).trans (le_max_left _ _))

end Entries

/-! ### Runs without a failure -/

/-- A call has failed and is checked for it. The destructors do not check for errors. -/
def PathCall.failed : (c : PathCall) × c.Reply → Bool
  | ⟨openPath _ _, r⟩ => !r.isOk
  | ⟨openat _ _ _, r⟩ => !r.isOk
  | ⟨fdopendir _, r⟩ => !r.isOk
  | ⟨fpathconf _, _⟩ => false
  | ⟨malloc _, r⟩ => !r
  | ⟨readdir_r _, r⟩ => !r.isOk
  | ⟨closedir _, _⟩ => false
  | ⟨close _, _⟩ => false
  | ⟨fstatat _ _, r⟩ => !r.isOk
  | ⟨unlinkat _ _, r⟩ => !r.isOk
  | ⟨rmdir _, r⟩ => !r.isOk

/-- The calls are answered without a failure. -/
def Smooth (_ : Unit) (c : PathCall) (r : c.Reply) (_ : Unit) : Prop := ¬ PathCall.failed ⟨c, r⟩

/-- Without a failure nothing is thrown, but a bound may be reached. -/
def Runs {α : Type} (x : PathProg α) : Prop :=
  x.Ensures Smooth (fun _ => True) () (fun _ _ => True) fun err _ => err = none

section Runs

variable {α β : Type} {x : PathProg α} {f : α → PathProg β} {path : Path}
  {rm : Path → PathProg Unit}

lemma runs_pure (a : α) : Runs (pure a : PathProg α) := ⟨trivial, trivial⟩

lemma Runs.bind (hx : Runs x) (hf : ∀ a, Runs (f a)) : Runs (x >>= f) :=
  ensures_bind.mpr (Ensures.mono hx (fun a _ _ => hf a) fun _ _ h => h)

lemma Runs.onThrow {cleanup : PathProg Unit} (hx : Runs x) (hcleanup : Runs cleanup) :
    Runs (x.onThrow cleanup) :=
  ensures_onThrow.mpr (Ensures.mono hx (fun _ _ h => h) fun _ _ he =>
    Ensures.mono hcleanup (fun _ _ _ => ⟨trivial, he⟩) fun _ _ h => h)

lemma runs_ask {c : PathCall} {f : c.Reply → PathProg α}
    (hf : ∀ r, ¬ PathCall.failed ⟨c, r⟩ → Runs (f r)) : Runs (Path.ask c >>= f) :=
  ⟨trivial, fun r _ hr => hf r hr⟩

lemma runs_checkCall {what : Str} {res : Except Errno α} (hres : ¬ !res.isOk) :
    Runs (Path.checkCall what res) := by
  cases res with
  | error => exact absurd rfl hres
  | ok a => exact runs_pure a

lemma runs_close (path : Path) : Runs (do let _ ← Path.ask (.close path.fd)) :=
  runs_ask fun _ _ => runs_pure ()

lemma Runs.scope (hx : Runs x) (path : Path) : Runs (path.scope x) :=
  (hx.onThrow (runs_close path)).bind fun a => (runs_close path).bind fun _ => runs_pure a

lemma runs_openat (path : Path) (pathname : Str) (flags : List PathFlag) :
    Runs (path.openat pathname flags) := runs_ask fun _ => runs_checkCall

lemma runs_unlinkat (path : Path) (pathname : Str) : Runs (path.unlinkat pathname) :=
  runs_ask fun _ => runs_checkCall

lemma runs_next (path : Path) (dirp : Dir) : Runs (Path.iterator.next path dirp) :=
  runs_ask fun _ hres => (runs_checkCall hres).bind fun result => by
    cases result with
    | none => exact runs_ask fun _ _ => runs_pure none
    | some entry => exact runs_pure _

lemma runs_new (path : Path) : Runs (Path.iterator.new path) := by
  have hopen : Runs path.fdopendir := runs_ask fun _ hres =>
    (runs_checkCall hres).bind fun _ => runs_ask fun _ => runs_checkCall
  refine hopen.bind fun dirp => runs_ask fun _ _ => runs_ask fun allocated hallocated => ?_
  cases allocated with
  | false => exact absurd rfl hallocated
  | true => exact runs_next path dirp

lemma runs_isdir (i : Path.iterator) : Runs i.isdir := by
  rw [Path.iterator.isdir]
  split_ifs
  · exact runs_pure _
  · exact runs_pure _
  · exact Runs.bind (runs_ask fun _ => runs_checkCall) fun _ => runs_pure _

lemma runs_rmtreeEntry (hrm : ∀ path, Runs (rm path)) (path : Path) (i : Path.iterator) :
    Runs (Path.rmtreeEntry rm path i) := by
  rw [Path.rmtreeEntry]
  split_ifs
  · exact runs_pure ()
  · refine (runs_isdir i).bind fun isdir => ?_
    cases isdir with
    | false => exact runs_unlinkat path _
    | true =>
      have hsub : Runs (path.openIn i.cur_entry.d_name []) :=
        (runs_openat path _ _).bind fun _ => runs_pure _
      exact hsub.bind fun sub => (hrm sub).scope sub

lemma runs_rmtreeLoop (hrm : ∀ path, Runs (rm path)) (path : Path) (n : ℕ)
    (i? : Option Path.iterator) : Runs (Path.rmtreeLoop rm path n i?) := by
  induction n generalizing i? with
  | zero =>
    cases i? with
    | none => exact runs_pure ()
    | some i => exact ⟨trivial, rfl⟩
  | succ n ih =>
    cases i? with
    | none => exact runs_pure ()
    | some i =>
      have hturn : Runs (Path.rmtreeEntry rm path i >>= fun _ => Path.iterator.next path i.dir) :=
        (runs_rmtreeEntry hrm path i).bind fun _ => runs_next path i.dir
      exact (hturn.onThrow (runs_ask fun _ _ => runs_pure ())).bind ih

lemma runs_path_rmtree (m : ℕ) (path : Path) : Runs (path.rmtree m) := by
  induction m generalizing path with
  | zero => exact ⟨trivial, rfl⟩
  | succ m ih =>
    exact (runs_new path).bind fun i? => (runs_rmtreeLoop ih path m i?).bind fun _ =>
      runs_ask fun _ => runs_checkCall

lemma runs_rmtree (m : ℕ) (p : Str) : Runs (rmtree m p) := by
  have hopen : Runs (Path.openNew p []) :=
    runs_ask fun _ hres => (runs_checkCall hres).bind fun _ => runs_pure _
  exact hopen.bind fun path => (runs_path_rmtree m path).scope path

end Runs

namespace Dirs

variable {s s' : Dirs files} {t : List ((c : PathCall) × c.Reply)} {p : Str} {y : PathProg Unit}

/-- Below the directory there is no endless way down: then `rmtree` ends within a bound, and unless
a call fails it returns. -/
theorem rmtree_ends (s : Dirs files) (p : Str)
    (hacc : ∀ e, s.entries.Leads files.cwd p e → Acc (fun c d => s.entries.Descends d c) e) :
    ∃ m₀, ∀ m ≥ m₀, ∀ t y s', (rmtree m p).Reaches step s t y s' → y.Ended →
      y ≠ .throw none ∧ ((∀ i ∈ t, ¬ PathCall.failed i) → y = .ret ()) := by
  obtain ⟨m₀, hm₀⟩ : ∃ m, ∀ e, s.entries.Leads files.cwd p e → s.entries.Enough m e := by
    by_cases hleads : ∃ e, s.entries.Leads files.cwd p e
    · obtain ⟨e, he⟩ := hleads
      obtain ⟨m, hm⟩ := Entries.exists_enough (hacc e he)
      exact ⟨m, fun e' he' => he'.unique he ▸ hm⟩
    · exact ⟨0, fun e he => absurd ⟨e, he⟩ hleads⟩
  refine ⟨m₀, fun m hm t y s' hrun hended => ?_⟩
  have hbound : y ≠ .throw none := by
    rintro rfl
    obtain ⟨-, e, he, hnot⟩ := (ensures_rmtree s m p).reaches hrun
    exact hnot ((hm₀ e he).mono hm)
  refine ⟨hbound, fun hok => ?_⟩
  cases y with
  | ret => rfl
  | call => exact hended.elim
  | throw err =>
    obtain ⟨-, rfl⟩ := Ensures.reaches (runs_rmtree m p) (hrun.answered hok)
    exact absurd rfl hbound

theorem rmtree_ends_oneDir : ∃ m₀, ∀ m ≥ m₀, ∀ t y s',
    (rmtree m (str "d")).Reaches step oneDir t y s' → y.Ended →
      y ≠ .throw none ∧ ((∀ i ∈ t, ¬ PathCall.failed i) → y = .ret ()) := by
  refine rmtree_ends oneDir (str "d") fun e hleads => ?_
  have hdir : oneEntry.Leads 0 (str "d") 1 := Entries.leads_of_isDir rfl ⟨0, rfl⟩
  obtain rfl : e = 1 := hleads.unique hdir
  -- the file in the directory is not one
  refine ⟨_, ?_⟩
  rintro c ⟨n, i, hget, -, hc, rfl | hreports⟩
  · obtain ⟨parent, hparent⟩ := hc
    change ite _ _ _ = _ at hget
    split_ifs at hget
    cases hget
    cases hparent
  · cases hreports

end Dirs

end Libept.Sys
