import Mathlib

-- Fractions of a whole with a fixed denominator, and products with them that round down or up.
namespace PerThing

variable {accuracy part x y n : Nat}

-- The product is taken of the quotient and of the remainder by the denominator separately,
-- so that it does not overflow.
def mulFloor (accuracy part x : Nat) : Nat :=
  x / accuracy * part + x % accuracy * part / accuracy

def mulCeil (accuracy part x : Nat) : Nat :=
  x / accuracy * part +
    (x % accuracy * part / accuracy + if x % accuracy * part % accuracy > 0 then 1 else 0)

def mulNearest (accuracy part x : Nat) : Nat :=
  x / accuracy * part +
    (x % accuracy * part / accuracy + if x % accuracy * part % accuracy >
      accuracy / 2 then 1 else 0)

-- The fraction closest to `p / q` from below, and the whole if that is not a fraction.
def fromRational (accuracy p q : Nat) : Nat :=
  if q = 0 ∨ p > q then accuracy else accuracy * p / q

theorem mul_eq (accuracy part x : Nat) :
    x * part = accuracy * (x / accuracy * part) + x % accuracy * part := by
  conv_lhs => rw [← Nat.div_add_mod x accuracy]
  ring

theorem mulFloor_eq (h : 0 < accuracy) : mulFloor accuracy part x = x * part / accuracy := by
  rw [mul_eq accuracy part x, Nat.mul_add_div h, mulFloor]

theorem mulFloor_le (h : part ≤ accuracy) (hx : 0 < accuracy) : mulFloor accuracy part x ≤ x := by
  rw [mulFloor_eq hx]
  apply Nat.div_le_of_le_mul
  rw [Nat.mul_comm]
  exact Nat.mul_le_mul_right x h

theorem fromRational_le : fromRational accuracy p q ≤ accuracy := by
  rw [fromRational]
  split_ifs with h
  · exact le_rfl
  · apply Nat.div_le_of_le_mul
    rw [Nat.mul_comm]
    exact Nat.mul_le_mul_right accuracy (by omega)

theorem mulCeil_le_iff (h : 0 < accuracy) :
    mulCeil accuracy part x ≤ n ↔ x * part ≤ accuracy * n := by
  have hr := Nat.div_add_mod (x % accuracy * part) accuracy
  have hl := Nat.mod_lt (x % accuracy * part) h
  have he : x * part = accuracy * (x / accuracy * part + x % accuracy * part / accuracy) +
      x % accuracy * part % accuracy := by
    rw [mul_eq accuracy part x, Nat.mul_add, Nat.add_assoc, hr]
  rw [mulCeil, ← Nat.add_assoc, he]
  split_ifs with hm
  · constructor
    · intro hn
      have := Nat.mul_le_mul_left accuracy hn
      rw [Nat.mul_add accuracy _ 1] at this
      omega
    · intro hn
      apply Nat.lt_of_mul_lt_mul_left (a := accuracy)
      omega
  · rw [Nat.eq_zero_of_not_pos hm]
    exact (Nat.mul_le_mul_left_iff h).symm

theorem mulCeil_le (h : part ≤ accuracy) (hx : 0 < accuracy) : mulCeil accuracy part x ≤ x := by
  rw [mulCeil_le_iff hx, Nat.mul_comm]
  exact Nat.mul_le_mul_right x h

theorem mulCeil_add_le (h : 0 < accuracy) :
    mulCeil accuracy part (x + y) ≤ mulCeil accuracy part x + mulCeil accuracy part y := by
  have hx := (mulCeil_le_iff h).mp (le_refl (mulCeil accuracy part x))
  have hy := (mulCeil_le_iff h).mp (le_refl (mulCeil accuracy part y))
  rw [mulCeil_le_iff h, Nat.add_mul, Nat.mul_add]
  exact Nat.add_le_add hx hy

theorem sub_mulCeil_add_le (h : part ≤ accuracy) (hx : 0 < accuracy) :
    (x - mulCeil accuracy part x) + (y - mulCeil accuracy part y) ≤
      x + y - mulCeil accuracy part (x + y) := by
  have h1 := mulCeil_le (x := x) h hx
  have h2 := mulCeil_le (x := y) h hx
  have h3 : mulCeil accuracy part (x + y) ≤ mulCeil accuracy part x + mulCeil accuracy part y :=
    mulCeil_add_le hx
  omega

end PerThing
