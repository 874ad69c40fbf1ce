import Libept.Utils.Basic

/-!
# The state of a package

`PackageState` keeps the answers to all questions about the state of a package in the bits of one
number.
-/

namespace Libept.Apt

inductive PackageState.Query where
  | Install
  | Upgrade
  | Keep
  | Remove
  | Installed
  | Upgradable
  | NowBroken
  | WillBreak
  | ReInstall
  | Purge
  | Hold
  | Valid
  deriving DecidableEq

namespace PackageState.Query

def bit : Query → ℕ
  | Install => 0
  | Upgrade => 1
  | Keep => 2
  | Remove => 3
  | Installed => 4
  | Upgradable => 5
  | NowBroken => 6
  | WillBreak => 7
  | ReInstall => 8
  | Purge => 9
  | Hold => 10
  | Valid => 11

def mask (q : Query) : ℕ := 1 <<< q.bit

lemma bit_injective : Function.Injective bit := by
  intro p q h
  cases p <;> cases q <;> first | rfl | cases h

end PackageState.Query

structure PackageState where
  m_state : ℕ
  deriving DecidableEq

namespace PackageState

/-- What all the queries have in common: they look at one bit. -/
def has (s : PackageState) (q : Query) : Bool := s.m_state &&& q.mask != 0

def isValid (s : PackageState) : Bool := s.has .Valid

def install (s : PackageState) : Bool := s.has .Install

def remove (s : PackageState) : Bool := s.has .Remove

def keep (s : PackageState) : Bool := s.has .Keep

def hold (s : PackageState) : Bool := s.has .Hold

def installed (s : PackageState) : Bool := s.has .Installed

def hasNewVersion (s : PackageState) : Bool := s.has .Upgradable

def upgradable (s : PackageState) : Bool := s.hasNewVersion && !s.hold

def held (s : PackageState) : Bool := s.hasNewVersion && s.hold

def modify (s : PackageState) : Bool := s.install || s.remove

/-- `if (b) flags |= q` -/
def orIf (b : Bool) (q : Query) (flags : ℕ) : ℕ := if b then flags ||| q.mask else flags

variable {b : Bool} {p q : Query} {flags : ℕ}

lemma has_eq_testBit (s : PackageState) (q : Query) : s.has q = s.m_state.testBit q.bit := by
  rw [has, Query.mask, Nat.one_shiftLeft, Nat.and_two_pow]
  cases s.m_state.testBit q.bit with
  | false => simp
  | true => simp

lemma testBit_mask (p q : Query) : p.mask.testBit q.bit = decide (p = q) := by
  rw [Query.mask, Nat.one_shiftLeft, Nat.testBit_two_pow, decide_eq_decide]
  exact Query.bit_injective.eq_iff

@[simp] lemma has_zero : has ⟨0⟩ q = false := by simp [has]

@[simp] lemma has_mask : has ⟨p.mask⟩ q = decide (p = q) := by
  rw [has_eq_testBit, testBit_mask]

@[simp] lemma has_or : has ⟨flags ||| p.mask⟩ q = (has ⟨flags⟩ q || decide (p = q)) := by
  rw [has_eq_testBit, has_eq_testBit, Nat.testBit_or, testBit_mask]

@[simp] lemma has_orIf : has ⟨orIf b p flags⟩ q = (has ⟨flags⟩ q || b && decide (p = q)) := by
  rw [orIf]
  cases b with
  | false => simp
  | true => rw [if_pos rfl, has_or, Bool.true_and]

end PackageState

end Libept.Apt
