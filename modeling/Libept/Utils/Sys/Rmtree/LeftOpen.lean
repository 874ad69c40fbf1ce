import Libept.Lib.Table
import Libept.Utils.Sys.Rmtree.Trees

/-!
# Descriptors and streams that are left open

What is open behind a part of `rmtree`, compared with what was open before it. A kernel that keeps
what a call has failed to give back may leave more open.
-/

namespace Libept.Sys

open Prog Utils

variable {files : Files}

namespace Dirs

variable {s s' s₁ s₂ : Dirs files}

/-- All descriptors and streams are as before, but perhaps for a new one of each. What was not open
may be left open by a kernel that keeps it. -/
structure Kept (fd? : Option Fd) (dirp? : Option Dir) (s s' : Dirs files) : Prop where
  fds : Table.Same files.keeps fd? s.fds s'.fds
  streams : Table.Same files.keeps dirp? s.streams s'.streams

/-- What is left open when an error is thrown: a descriptor for which there is no stream, or the
stream of an iterator that was not finished, with its descriptor. -/
inductive Leaks : PathError → Option Fd → Option Dir → Prop
  | none (err : PathError) : Leaks err .none .none
  | fdopendir (code : Errno) (pathname : Str) (fd : Fd) :
    Leaks (.systemError ⟨code, pathname ++ str ": " ++ str "cannot fdopendir"⟩) (some fd) .none
  | readdir (code : Errno) (pathname : Str) (fd : Fd) (dirp : Dir) :
    Leaks (.systemError ⟨code, pathname ++ str ": " ++ str "cannot readdir_r"⟩) (some fd)
      (some dirp)
  | malloc (fd : Fd) (dirp : Dir) : Leaks .bad_alloc (some fd) (some dirp)

/-- Nothing is left open but what the error tells. -/
def Left (s : Dirs files) (err : PathError) (s' : Dirs files) : Prop :=
  ∃ fd? dirp?, Leaks err fd? dirp? ∧ Kept fd? dirp? s s'

/-- An error is thrown, or a bound is reached, for which there is a reason. -/
def Stopped (s : Dirs files) (reason : Prop) : Option PathError → Dirs files → Prop
  | none, _ => reason
  | some err, s' => Left s err s'

variable {fd? : Option Fd} {dirp? : Option Dir} {err : PathError} {fd : Fd} {dirp : Dir}
  {i : ℕ}

lemma Kept.of_eq (hfds : s'.fds = s.fds) (hstreams : s'.streams = s.streams) :
    Kept none none s s' := ⟨.of_eq hfds, .of_eq hstreams⟩

lemma Kept.refl (s : Dirs files) : Kept none none s s := .of_eq rfl rfl

lemma Kept.left (h : Kept none none s s') (err : PathError) : Left s err s' :=
  ⟨none, none, .none err, h⟩

lemma Kept.trans (h : Kept none none s s₁) (h' : Kept fd? dirp? s₁ s') : Kept fd? dirp? s s' :=
  ⟨h.fds.trans h'.fds, h.streams.trans h'.streams⟩

lemma Stopped.imp {reason reason' : Prop} {err? : Option PathError}
    (h : Stopped s₁ reason err? s₂) (hreason : reason → reason')
    (hleft : ∀ err, Left s₁ err s₂ → Left s err s') : Stopped s reason' err? s' := by
  cases err? with
  | none => exact hreason h
  | some err => exact hleft err h

/-- A descriptor is closed that was open in between only. -/
lemma Kept.close (h : Kept fd? dirp? (s.setFd fd (some i)) s₂) (hfd : s.fds fd = none)
    {res : Except Errno Unit} (hclose : GivesBack files.keeps res s₂ (s₂.setFd fd none) s') :
    Kept fd? dirp? s s' := by
  rcases hclose with rfl | ⟨hkeeps, -, rfl⟩
  · exact ⟨h.fds.giveBack hfd, h.streams⟩
  · exact ⟨h.fds.keep hfd hkeeps, h.streams⟩

/-- A directory is being read, through a descriptor and a stream that are open in addition. -/
structure Reading (s : Dirs files) (fd : Fd) (dirp : Dir) (stream : DirStream) (s' : Dirs files) :
    Prop where
  fd_new : s.fds fd = none
  dirp_new : s.streams dirp = none
  stream_fd : stream.fd = fd
  opened : Kept none none ((s.setFd fd (some stream.ino)).setStream dirp (some stream)) s'

namespace Reading

variable {stream : DirStream}

lemma kept (h : Reading s fd dirp stream s₁) (hkept : Kept none none s₁ s₂) :
    Reading s fd dirp stream s₂ :=
  ⟨h.fd_new, h.dirp_new, h.stream_fd, h.opened.trans hkept⟩

lemma stream_eq (h : Reading s fd dirp stream s₁) : s₁.streams dirp = some stream :=
  h.opened.streams.old (Function.update_self _ _ _)

lemma fds_of_some (h : Reading s fd dirp stream s₁) {fd' : Fd} (hfd : s.fds fd' = some i) :
    s₁.fds fd' = some i := by
  have hne : fd' ≠ fd := by
    rintro rfl
    rw [h.fd_new] at hfd
    cases hfd
  exact h.opened.fds.old ((Function.update_of_ne hne _ _).trans hfd)

/-- Some entries have been read. -/
lemma read (h : Reading s fd dirp stream s₁) (rest : List (Str × ℕ)) :
    Reading s fd dirp { stream with rest := rest }
      (s₁.setStream dirp (some { stream with rest := rest })) := by
  have hstreams := h.opened.streams.update dirp (some { stream with rest := rest })
  rw [setStream, Function.update_idem] at hstreams
  exact ⟨h.fd_new, h.dirp_new, h.stream_fd, h.opened.fds, hstreams⟩

/-- The stream and its descriptor are left open. -/
lemma leave (h : Reading s fd dirp stream s₁) : Kept (some fd) (some dirp) s s₁ :=
  ⟨h.opened.fds.take h.fd_new, h.opened.streams.take h.dirp_new⟩

/-- The stream is closed, after what has been done while it was open. -/
lemma closedir (h : Reading s fd dirp stream s₁) (hkept : Kept fd? dirp? s₁ s₂)
    {res : Except Errno Unit} (hstep : s₂.step (.closedir dirp) res s') :
    s'.entries = s₂.entries ∧ Kept fd? dirp? s s' := by
  have hstream := hkept.streams.old h.stream_eq
  have hopened := h.opened.trans hkept
  obtain ⟨stream', hstream', hgives⟩ := hstep
  obtain rfl : stream = stream' := Option.some.inj (hstream.symm.trans hstream')
  rw [h.stream_fd] at hgives
  refine ⟨hgives.same Dirs.entries rfl, ?_⟩
  rcases hgives with rfl | ⟨hkeeps, -, rfl⟩
  · exact ⟨hopened.fds.giveBack h.fd_new, hopened.streams.giveBack h.dirp_new⟩
  · exact ⟨hopened.fds.keep h.fd_new hkeeps, hopened.streams.keep h.dirp_new hkeeps⟩

end Reading

end Dirs

end Libept.Sys
