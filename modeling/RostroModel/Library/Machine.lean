import Mathlib

-- Arithmetic of unsigned machine integers: numbers below `2 ^ w`, with the ways an operation can
-- treat a result that does not fit.
namespace Machine

variable {w a b c : Nat}

def maxValue (w : Nat) : Nat :=
  2 ^ w - 1

def wrappingAdd (w a b : Nat) : Nat :=
  (a + b) % 2 ^ w

def saturatingAdd (w a b : Nat) : Nat :=
  min (a + b) (maxValue w)

def checkedAdd (w a b : Nat) : Option Nat :=
  if a + b ≤ maxValue w then some (a + b) else none

def checkedMul (w a b : Nat) : Option Nat :=
  if a * b ≤ maxValue w then some (a * b) else none

def checkedSub (a b : Nat) : Option Nat :=
  if b ≤ a then some (a - b) else none

theorem wrappingAdd_of_lt (h : a + b ≤ maxValue w) : wrappingAdd w a b = a + b := by
  apply Nat.mod_eq_of_lt
  have hp := Nat.two_pow_pos w
  rw [maxValue] at h
  omega

theorem saturatingAdd_of_le (h : a + b ≤ maxValue w) : saturatingAdd w a b = a + b :=
  min_eq_left h

theorem saturatingAdd_of_lt (h : saturatingAdd w a b < maxValue w) :
    saturatingAdd w a b = a + b := by
  rw [saturatingAdd] at h ⊢
  omega

theorem checkedAdd_eq_some : checkedAdd w a b = some c ↔ a + b ≤ maxValue w ∧ a + b = c := by
  simp [checkedAdd]

theorem checkedSub_of_le (h : b ≤ a) : checkedSub a b = some (a - b) :=
  if_pos h

theorem checkedSub_add_left : checkedSub (a + b) a = some b := by
  rw [checkedSub_of_le (Nat.le_add_right a b), Nat.add_sub_cancel_left]

theorem checkedSub_of_lt (h : a < b) : checkedSub a b = none :=
  if_neg (by omega)

end Machine
