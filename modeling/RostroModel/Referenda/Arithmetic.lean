import Mathlib.Order.MinMax
import Mathlib.Order.Lattice
import RostroModel.Library.Rounding

namespace Referenda

def accuracy : Nat := 1000000000

-- A fraction in parts per billion.
structure Perbill where
  parts : Nat
  le : parts ≤ accuracy
  deriving DecidableEq

-- `a * n / d`, if it fits into `w` bits.
def multiplyRational (w a n d : Nat) (r : Rounding) : Option Nat :=
  if d = 0 then none
  else if r.div (a * n) d < 2 ^ w then some (r.div (a * n) d) else none

namespace Perbill

instance : LinearOrder Perbill :=
  LinearOrder.lift' parts fun a b h => by
    cases a
    cases b
    cases h
    rfl

def fromParts (n : Nat) : Perbill := ⟨min n accuracy, min_le_right n accuracy⟩

def zero : Perbill := fromParts 0

def one : Perbill := fromParts accuracy

-- The quotient of `p` and `q`, which have `w` bits each. It is at most one if there is one.
def fromRationalWithRounding (w p q : Nat) (r : Rounding) : Option Perbill :=
  if q = 0 then none
  else if p > q then none
  else (multiplyRational w accuracy p q r).map fromParts

def fromRational (w p q : Nat) : Perbill := (fromRationalWithRounding w p q .down).getD one

def saturatingDiv (a b : Perbill) (r : Rounding) : Perbill :=
  (fromRationalWithRounding 32 a.parts b.parts r).getD one

def mul (a b : Perbill) : Perbill := fromParts (a.parts * b.parts / accuracy)

-- The parts have 32 bits.
def intMul (a : Perbill) (n : Nat) : Perbill := fromParts (min (a.parts * n) (2 ^ 32 - 1))

def intDiv (a b : Perbill) : Nat := a.parts / b.parts

def sub (a b : Perbill) : Perbill := fromParts ((2 ^ 32 + a.parts - b.parts) % 2 ^ 32)

def add (a b : Perbill) : Perbill := fromParts (a.parts + b.parts)

def lessEpsilon (a : Perbill) : Perbill :=
  if a.parts = 0 then a else fromParts (a.parts - 1)

variable {a b : Perbill} {n : Nat}

theorem fromParts_parts (h : n ≤ accuracy) : (fromParts n).parts = n := min_eq_left h

@[simp]
theorem one_parts : one.parts = accuracy := rfl

theorem parts_inj (h : a.parts = b.parts) : a = b := by
  cases a
  cases h
  rfl

theorem le_iff : a ≤ b ↔ a.parts ≤ b.parts := Iff.rfl

theorem min_parts : (min a b).parts = min a.parts b.parts := by
  rcases le_total a b with h | h
  · rw [min_eq_left h, min_eq_left (le_iff.mp h)]
  · rw [min_eq_right h, min_eq_right (le_iff.mp h)]

theorem max_parts : (max a b).parts = max a.parts b.parts := by
  rcases le_total a b with h | h
  · rw [max_eq_right h, max_eq_right (le_iff.mp h)]
  · rw [max_eq_left h, max_eq_left (le_iff.mp h)]

theorem sub_parts (h : b.parts ≤ a.parts) : (a.sub b).parts = a.parts - b.parts := by
  have hle := a.le
  rw [accuracy] at hle
  have hmod : (2 ^ 32 + a.parts - b.parts) % 2 ^ 32 = a.parts - b.parts := by omega
  rw [sub, hmod]
  exact fromParts_parts ((Nat.sub_le _ _).trans a.le)

theorem add_parts : (a.add b).parts = min (a.parts + b.parts) accuracy := rfl

theorem mul_parts : (a.mul b).parts = a.parts * b.parts / accuracy := by
  refine fromParts_parts (Nat.div_le_of_le_mul ?_)
  exact Nat.mul_le_mul a.le b.le

theorem intMul_parts : (a.intMul n).parts = min (a.parts * n) accuracy := by
  have hacc : accuracy = 1000000000 := rfl
  change min (min (a.parts * n) (2 ^ 32 - 1)) accuracy = min (a.parts * n) accuracy
  omega

theorem lessEpsilon_parts (h : 0 < a.parts) : (lessEpsilon a).parts = a.parts - 1 := by
  rw [lessEpsilon, if_neg h.ne']
  exact fromParts_parts ((Nat.sub_le _ _).trans a.le)

theorem fromRational_parts (hq : 0 < q) (h : p ≤ q) (hr : r = .down ∨ r = .up)
    (hw : 30 ≤ w) : ((fromRationalWithRounding w p q r).getD one).parts =
      r.div (accuracy * p) q := by
  have hle : r.div (accuracy * p) q ≤ accuracy := by
    rcases hr with rfl | rfl
    · refine Nat.div_le_of_le_mul ?_
      rw [Nat.mul_comm q]
      exact Nat.mul_le_mul_left accuracy h
    · rw [Rounding.up_div_le_iff hq, Nat.mul_comm q]
      exact Nat.mul_le_mul_left accuracy h
  have hlt : r.div (accuracy * p) q < 2 ^ w := by
    refine lt_of_le_of_lt hle (lt_of_lt_of_le ?_ (Nat.pow_le_pow_right Nat.zero_lt_two hw))
    decide
  rw [fromRationalWithRounding, if_neg hq.ne', if_neg (Nat.not_lt.mpr h), multiplyRational,
    if_neg hq.ne', if_pos hlt]
  exact fromParts_parts hle

theorem saturatingDiv_parts (hb : 0 < b.parts) (h : a.parts ≤ b.parts) (hr : r = .down ∨ r = .up) :
    (a.saturatingDiv b r).parts = r.div (accuracy * a.parts) b.parts :=
  fromRational_parts hb h hr (by decide)

end Perbill

inductive SignedRounding
  | high
  | low
  | nearestPrefHigh
  | nearestPrefLow
  | major
  | minor
  | nearestPrefMajor
  | nearestPrefMinor

def fromSigned : SignedRounding → Bool → Rounding
  | .low, true => .up
  | .major, _ => .up
  | .high, false => .up
  | .high, true => .down
  | .minor, _ => .down
  | .low, false => .down
  | .nearestPrefMajor, _ => .nearestPrefUp
  | .nearestPrefHigh, false => .nearestPrefUp
  | .nearestPrefLow, true => .nearestPrefUp
  | .nearestPrefMinor, _ => .nearestPrefDown
  | .nearestPrefLow, false => .nearestPrefDown
  | .nearestPrefHigh, true => .nearestPrefDown

def InRange (n : Int) : Prop := -2 ^ 63 ≤ n ∧ n < 2 ^ 63

-- A fixed point number of 64 bits with nine decimal digits.
structure FixedI64 where
  inner : Int
  range : InRange inner
  deriving DecidableEq

namespace FixedI64

def div : Nat := 1000000000

theorem wrap_range (n : Int) : InRange (n.bmod (2 ^ 64)) := by
  have h1 := Int.le_bmod (x := n) (m := 2 ^ 64) (by decide)
  have h2 := Int.bmod_lt (x := n) (m := 2 ^ 64) (by decide)
  constructor
  · exact le_trans (by decide) h1
  · exact lt_of_lt_of_le h2 (by decide)

def wrap (n : Int) : FixedI64 := ⟨n.bmod (2 ^ 64), wrap_range n⟩

def add (a b : FixedI64) : FixedI64 := wrap (a.inner + b.inner)

def sub (a b : FixedI64) : FixedI64 := wrap (a.inner - b.inner)

def zero : FixedI64 := wrap 0

def one : FixedI64 := wrap div

def fromPerbill (p : Perbill) : FixedI64 := wrap (Rounding.down.div (p.parts * div) accuracy)

def fromI129 (value : Nat) (negative : Bool) : Option FixedI64 :=
  if negative ∧ value = 2 ^ 63 then some (wrap (-2 ^ 63))
  else if value < 2 ^ 63 then some (wrap (if negative then -value else value)) else none

def checkedRoundingDiv (a b : FixedI64) (rounding : SignedRounding) : Option FixedI64 :=
  if b.inner = 0 then none
  else
    let negative := (decide (a.inner < 0)) != decide (b.inner < 0)
    (multiplyRational 128 a.inner.natAbs div b.inner.natAbs (fromSigned rounding negative)).bind
      (fromI129 · negative)

def tryIntoPerthing (a : FixedI64) : Except Perbill Perbill :=
  if a.inner < zero.inner then .error .zero
  else if a.inner > one.inner then .error .one
  else .ok (.fromRational 128 a.inner.toNat div)

def intoClampedPerthing (a : FixedI64) : Perbill :=
  if a.inner < zero.inner then .zero
  else if a.inner > one.inner then .one
  else .fromRational 128 a.inner.toNat div

variable {a b v : FixedI64} {n : Int}

theorem wrap_inner (h : InRange n) : (wrap n).inner = n := by
  refine Int.bmod_eq_of_le (le_trans ?_ h.1) (lt_of_lt_of_le h.2 ?_)
  · decide
  · decide

theorem add_inner (h : InRange (a.inner + b.inner)) : (a.add b).inner = a.inner + b.inner :=
  wrap_inner h

theorem sub_inner (h : InRange (a.inner - b.inner)) : (a.sub b).inner = a.inner - b.inner :=
  wrap_inner h

theorem zero_inner : zero.inner = 0 := by decide

theorem one_inner : one.inner = accuracy := by decide

theorem fromPerbill_inner : (fromPerbill p).inner = p.parts := by
  have hacc : accuracy = 1000000000 := rfl
  have hle := p.le
  have hparts : Rounding.down.div (p.parts * div) accuracy = p.parts := by
    rw [Rounding.down_div, hacc, div]
    omega
  rw [fromPerbill, hparts]
  exact wrap_inner ⟨by omega, by omega⟩

theorem fromI129_inner (h : fromI129 value negative = some v) :
    v.inner = if negative then -(value : Int) else value := by
  rw [fromI129] at h
  by_cases hmin : negative ∧ value = 2 ^ 63
  · rw [if_pos hmin] at h
    obtain rfl := Option.some.inj h
    rw [if_pos hmin.1, hmin.2]
    decide
  · rw [if_neg hmin] at h
    by_cases hlt : value < 2 ^ 63
    · rw [if_pos hlt] at h
      obtain rfl := Option.some.inj h
      refine wrap_inner ?_
      split_ifs
      · constructor <;> omega
      · constructor <;> omega
    · rw [if_neg hlt] at h
      cases h

theorem multiplyRational_eq (h : multiplyRational w m k d r = some value) :
    value = r.div (m * k) d := by
  rw [multiplyRational] at h
  split_ifs at h
  exact (Option.some.inj h).symm

theorem checkedRoundingDiv_inner (ha : 0 ≤ a.inner) (hb : 0 < b.inner)
    (h : checkedRoundingDiv a b rounding = some v) :
    v.inner = ((fromSigned rounding false).div (a.inner.toNat * div) b.inner.toNat : Nat) := by
  have hsign : (decide (a.inner < 0) != decide (b.inner < 0)) = false := by
    rw [decide_eq_false (Int.not_lt.mpr ha), decide_eq_false (Int.not_lt.mpr hb.le)]
    rfl
  rw [checkedRoundingDiv, if_neg hb.ne'] at h
  rw [hsign] at h
  obtain ⟨value, hvalue, hv⟩ := Option.bind_eq_some_iff.mp h
  have heq := multiplyRational_eq hvalue
  have htoNat : a.inner.natAbs = a.inner.toNat ∧ b.inner.natAbs = b.inner.toNat := by omega
  rw [htoNat.1, htoNat.2] at heq
  rw [fromI129_inner hv, heq]
  rfl

theorem checkedRoundingDiv_isSome (ha : 0 ≤ a.inner) (hb : 0 < b.inner)
    (h : (fromSigned rounding false).div (a.inner.toNat * div) b.inner.toNat < 2 ^ 63) :
    ∃ v, checkedRoundingDiv a b rounding = some v := by
  have hsign : (decide (a.inner < 0) != decide (b.inner < 0)) = false := by
    rw [decide_eq_false (Int.not_lt.mpr ha), decide_eq_false (Int.not_lt.mpr hb.le)]
    rfl
  have htoNat : a.inner.natAbs = a.inner.toNat ∧ b.inner.natAbs = b.inner.toNat := by omega
  have hzero : b.inner.toNat ≠ 0 := by omega
  have hmul : multiplyRational 128 a.inner.toNat div b.inner.toNat (fromSigned rounding false) =
      some ((fromSigned rounding false).div (a.inner.toNat * div) b.inner.toNat) := by
    rw [multiplyRational, if_neg hzero, if_pos (lt_trans h (by decide))]
  rw [checkedRoundingDiv, if_neg hb.ne']
  dsimp only
  rw [hsign, htoNat.1, htoNat.2, hmul, Option.bind_some, fromI129,
    if_neg (fun hneg => Bool.noConfusion hneg.1), if_pos h]
  exact ⟨_, rfl⟩

theorem checkedRoundingDiv_nonpos (ha : 0 ≤ a.inner) (hb : b.inner < 0)
    (h : checkedRoundingDiv a b rounding = some v) : v.inner ≤ 0 := by
  have hsign : (decide (a.inner < 0) != decide (b.inner < 0)) = true := by
    rw [decide_eq_false (Int.not_lt.mpr ha), decide_eq_true hb]
    rfl
  rw [checkedRoundingDiv, if_neg hb.ne] at h
  rw [hsign] at h
  obtain ⟨value, _, hv⟩ := Option.bind_eq_some_iff.mp h
  rw [fromI129_inner hv, if_pos rfl]
  omega

theorem fromRational_inner (h0 : 0 ≤ a.inner) (h1 : a.inner ≤ accuracy) :
    ((Perbill.fromRational 128 a.inner.toNat div).parts : Int) = a.inner := by
  have hparts : (Perbill.fromRational 128 a.inner.toNat div).parts =
      Rounding.down.div (accuracy * a.inner.toNat) div :=
    Perbill.fromRational_parts (by decide) (by rw [accuracy] at h1; rw [div]; omega)
      (.inl rfl) (by decide)
  have hdiv : Rounding.down.div (accuracy * a.inner.toNat) div = a.inner.toNat :=
    Nat.mul_div_cancel_left a.inner.toNat (by decide)
  omega

theorem intoClampedPerthing_parts : (a.intoClampedPerthing.parts : Int) =
      if a.inner < 0 then 0 else if a.inner > accuracy then (accuracy : Int) else a.inner := by
  rw [intoClampedPerthing, zero_inner, one_inner]
  split_ifs with h0 h1
  · rfl
  · rfl
  · exact fromRational_inner (Int.not_lt.mp h0) (Int.not_lt.mp h1)

theorem tryIntoPerthing_parts : ((a.tryIntoPerthing.toOption.getD .one).parts : Int) =
      if 0 ≤ a.inner ∧ a.inner ≤ accuracy then a.inner else (accuracy : Int) := by
  rw [tryIntoPerthing, one_inner]
  split
  case isTrue h0 =>
    rw [if_neg (fun h => absurd h.1 (Int.not_le.mpr h0))]
    rfl
  case isFalse h0 =>
    by_cases h1 : a.inner > accuracy
    · rw [if_pos h1, if_neg (fun h => absurd h.2 (Int.not_le.mpr h1))]
      rfl
    · rw [if_neg h1, if_pos ⟨Int.not_lt.mp h0, Int.not_lt.mp h1⟩]
      exact fromRational_inner (Int.not_lt.mp h0) (Int.not_lt.mp h1)

end FixedI64

end Referenda
