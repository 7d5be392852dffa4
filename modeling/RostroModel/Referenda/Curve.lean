import RostroModel.Referenda.Arithmetic

namespace Referenda

open Perbill (intMul_parts le_iff min_parts mul_parts sub_parts)
open FixedI64 (add_inner checkedRoundingDiv_inner fromPerbill fromPerbill_inner sub_inner)

inductive Curve
  | linearDecreasing (length floor ceil : Perbill)
  | steppedDecreasing (start «end» step period : Perbill)
  | reciprocal (factor xOffset yOffset : FixedI64)

namespace Curve

open Perbill (one zero)

-- The `y` value for an `x` value.
def threshold (x : Perbill) : Curve → Perbill
  | linearDecreasing length floor ceil =>
    ceil.sub (((min x length).saturatingDiv length .down).mul (ceil.sub floor))
  | steppedDecreasing start «end» step period =>
    max (start.sub (min (step.intMul (x.intDiv period)) start)) «end»
  | reciprocal factor xOffset yOffset =>
    ((factor.checkedRoundingDiv ((fromPerbill x).add xOffset) .low).map
      fun yp => (yp.add yOffset).intoClampedPerthing).getD one

-- Meant to be the smallest `x` value that passes with the given `y` value.
def delay (y : Perbill) : Curve → Perbill
  | linearDecreasing length floor ceil =>
    if y < floor then one
    else if y > ceil then zero
    else ((ceil.sub y).saturatingDiv (ceil.sub floor) .up).mul length
  | steppedDecreasing start «end» step period =>
    if y < «end» then one
    else period.intMul (((start.sub (min y start)).add step.lessEpsilon).intDiv step)
  | reciprocal factor xOffset yOffset =>
    ((factor.checkedRoundingDiv ((fromPerbill y).sub yOffset) .high).bind
      fun term => (term.sub xOffset).tryIntoPerthing.toOption).getD one

def Passing (c : Curve) (x y : Perbill) : Prop := y ≥ c.threshold x

instance {c : Curve} {x y : Perbill} : Decidable (c.Passing x y) :=
  inferInstanceAs (Decidable (_ ≤ _))

def Sensible : Curve → Prop
  | linearDecreasing length floor ceil => floor < ceil ∧ zero < length
  | steppedDecreasing start «end» step period => «end» ≤ start ∧ zero < step ∧ zero < period
  | reciprocal factor xOffset _ => 0 ≤ factor.inner ∧ 0 < xOffset.inner

-- No operation of the curve overflows.
def Fits : Curve → Prop
  | reciprocal factor xOffset yOffset =>
    ∀ x : Perbill, InRange (x.parts + xOffset.inner) ∧
      ∃ yp, factor.checkedRoundingDiv ((fromPerbill x).add xOffset) .low = some yp ∧
        InRange (yp.inner + yOffset.inner)
  | _ => True

def FitsAt (y : Perbill) : Curve → Prop
  | reciprocal factor xOffset yOffset =>
    InRange (y.parts - yOffset.inner) ∧ (y.parts ≠ yOffset.inner →
      ∃ term, factor.checkedRoundingDiv ((fromPerbill y).sub yOffset) .high = some term ∧
        InRange (term.inner - xOffset.inner))
  | _ => True

-- The delay is the smallest `x` value that passes.
def ExactAt (c : Curve) (y : Perbill) : Prop :=
  c.Passing (c.delay y) y ∧ ∀ x < c.delay y, ¬ c.Passing x y

variable {c : Curve} {x y : Perbill}

theorem exactAt_iff {m : Nat} (hp : c.Passing one y) (h : ∀ x, c.Passing x y ↔ m ≤ x.parts) :
    c.ExactAt y ↔ (c.delay y).parts = m := by
  have hm : m ≤ accuracy := (h one).mp hp
  rw [ExactAt, h]
  constructor
  · rintro ⟨hd, hbefore⟩
    refine le_antisymm (not_lt.mp fun hlt => ?_) hd
    exact hbefore ⟨m, hm⟩ hlt ((h _).mpr (le_refl m))
  · rintro rfl
    exact ⟨le_refl _, fun x hx hp => absurd ((h x).mp hp) (not_le.mpr hx)⟩

section Linear

variable {length floor ceil : Perbill}

theorem linear_threshold (hf : floor < ceil) (hl : zero < length) :
    ((linearDecreasing length floor ceil).threshold x).parts = ceil.parts -
      accuracy * min x.parts length.parts / length.parts *
        (ceil.parts - floor.parts) / accuracy := by
  have hf' : floor.parts ≤ ceil.parts := Nat.le_of_lt hf
  have hdiv : ((min x length).saturatingDiv length .down).parts =
      accuracy * min x.parts length.parts / length.parts := by
    rw [Perbill.saturatingDiv_parts hl (by rw [min_parts]; exact min_le_right _ _) (.inl rfl),
      min_parts]
    rfl
  have hmul : (((min x length).saturatingDiv length .down).mul (ceil.sub floor)).parts =
      accuracy * min x.parts length.parts / length.parts *
        (ceil.parts - floor.parts) / accuracy := by
    rw [mul_parts, hdiv, sub_parts hf']
  have hle : (((min x length).saturatingDiv length .down).mul (ceil.sub floor)).parts ≤
      ceil.parts := by
    rw [mul_parts, sub_parts hf']
    refine (Nat.div_le_of_le_mul ?_).trans (Nat.sub_le ceil.parts floor.parts)
    exact Nat.mul_le_mul_right _ (Perbill.le _)
  rw [threshold, sub_parts hle, hmul]

-- How much of the way down has to be gone for a `y` value.
def linearSteps (floor ceil y : Perbill) : Nat :=
  Rounding.up.div (accuracy * (ceil.parts - y.parts)) (ceil.parts - floor.parts)

variable (hf : floor < ceil)
include hf

theorem linearSteps_le (hy : floor ≤ y) : linearSteps floor ceil y ≤ accuracy := by
  have hpos : 0 < ceil.parts - floor.parts := Nat.sub_pos_of_lt hf
  rw [linearSteps, Rounding.up_div_le_iff hpos, Nat.mul_comm]
  exact Nat.mul_le_mul_right accuracy (Nat.sub_le_sub_left (le_iff.mp hy) _)

theorem linear_passing (hl : zero < length) (hy : floor ≤ y) :
    (linearDecreasing length floor ceil).Passing x y ↔
      Rounding.up.div (linearSteps floor ceil y * length.parts) accuracy ≤ x.parts := by
  have hpos : 0 < ceil.parts - floor.parts := Nat.sub_pos_of_lt hf
  have hacc : 0 < accuracy := by decide
  have hsteps := linearSteps_le hf hy
  rw [Passing, ge_iff_le, le_iff, linear_threshold hf hl]
  calc
    _ ↔ ceil.parts - y.parts ≤
          accuracy * min x.parts length.parts / length.parts *
            (ceil.parts - floor.parts) / accuracy := by
        rw [Nat.sub_le_iff_le_add, Nat.sub_le_iff_le_add, Nat.add_comm]
    _ ↔ (ceil.parts - y.parts) * accuracy ≤
          accuracy * min x.parts length.parts / length.parts * (ceil.parts - floor.parts) :=
        Nat.le_div_iff_mul_le hacc
    _ ↔ linearSteps floor ceil y ≤ accuracy * min x.parts length.parts / length.parts := by
        generalize accuracy * min x.parts length.parts / length.parts = w
        rw [linearSteps, Rounding.up_div_le_iff hpos, Nat.mul_comm accuracy, Nat.mul_comm w]
    _ ↔ linearSteps floor ceil y * length.parts ≤ accuracy * min x.parts length.parts :=
        Nat.le_div_iff_mul_le hl
    _ ↔ linearSteps floor ceil y * length.parts ≤ accuracy * x.parts := by
        rcases Nat.le_total x.parts length.parts with hx | hx
        · rw [Nat.min_eq_left hx]
        · rw [Nat.min_eq_right hx]
          have hle : linearSteps floor ceil y * length.parts ≤ accuracy * length.parts :=
            Nat.mul_le_mul_right _ hsteps
          exact ⟨fun _ => hle.trans (Nat.mul_le_mul_left accuracy hx), fun _ => hle⟩
    _ ↔ _ := (Rounding.up_div_le_iff hacc).symm

theorem linear_delay (hy : floor ≤ y) (hc : y ≤ ceil) :
    ((linearDecreasing length floor ceil).delay y).parts =
      linearSteps floor ceil y * length.parts / accuracy := by
  have hf' : floor.parts < ceil.parts := hf
  have hy' : floor.parts ≤ y.parts := hy
  have hc' : y.parts ≤ ceil.parts := hc
  rw [delay, if_neg (not_lt.mpr hy), if_neg (not_lt.mpr hc), mul_parts, Perbill.saturatingDiv_parts,
    sub_parts hc', sub_parts hf'.le]
  · rfl
  · rw [sub_parts hf'.le]
    omega
  · rw [sub_parts hc', sub_parts hf'.le]
    omega
  · exact .inr rfl

-- The last rounding loses the exact value unless it is not needed.
theorem linear_exact (hl : zero < length)
    (hp : (linearDecreasing length floor ceil).Passing one y) :
    (linearDecreasing length floor ceil).ExactAt y ↔
      ceil < y ∨ accuracy ∣ linearSteps floor ceil y * length.parts := by
  have hacc : 0 < accuracy := by decide
  have hy : floor ≤ y := by
    refine le_trans (le_iff.mpr ?_) hp
    rw [linear_threshold hf hl, Perbill.one_parts, Nat.min_eq_right length.le,
      Nat.mul_div_cancel _ hl, Nat.mul_div_cancel_left _ hacc]
    have hf' : floor.parts < ceil.parts := hf
    omega
  rw [exactAt_iff hp fun x => linear_passing hf hl hy]
  by_cases hc : ceil < y
  · have hzero : linearSteps floor ceil y = 0 := by
      have hsub : ceil.parts - y.parts = 0 := Nat.sub_eq_zero_of_le (Nat.le_of_lt hc)
      rw [linearSteps, hsub, Nat.mul_zero, Rounding.up_div_of_dvd (Nat.dvd_zero _), Nat.zero_div]
    refine iff_of_true ?_ (.inl hc)
    rw [delay, if_neg (not_lt.mpr hy), if_pos hc, hzero, Nat.zero_mul,
      Rounding.up_div_of_dvd (Nat.dvd_zero _), Nat.zero_div]
    rfl
  · have hdelay := @linear_delay y length floor ceil hf hy (not_lt.mp hc)
    rw [← Rounding.div_eq_up_div_iff, ← hdelay, or_iff_right hc]

theorem linear_antitone (hl : zero < length) (h : x ≤ x') :
    (linearDecreasing length floor ceil).threshold x' ≤
      (linearDecreasing length floor ceil).threshold x := by
  rw [le_iff, linear_threshold hf hl, linear_threshold hf hl]
  refine Nat.sub_le_sub_left (Nat.div_le_div_right (Nat.mul_le_mul_right _ ?_)) _
  refine Nat.div_le_div_right (Nat.mul_le_mul_left _ ?_)
  exact min_le_min_right _ (le_iff.mp h)

end Linear

section Stepped

variable {start «end» step period : Perbill}

theorem stepped_threshold : ((steppedDecreasing start «end» step period).threshold x).parts =
    max (start.parts - min (step.parts * (x.parts / period.parts)) start.parts) «end».parts := by
  have hmin : (min (step.intMul (x.intDiv period)) start).parts =
      min (step.parts * (x.parts / period.parts)) start.parts := by
    rw [min_parts, intMul_parts, Perbill.intDiv, min_assoc, min_eq_right start.le]
  rw [threshold, Perbill.max_parts, sub_parts, hmin]
  rw [hmin]
  exact min_le_right _ _

theorem stepped_antitone (h : x ≤ x') : (steppedDecreasing start «end» step period).threshold x' ≤
      (steppedDecreasing start «end» step period).threshold x := by
  rw [le_iff, stepped_threshold, stepped_threshold]
  refine max_le_max_right _ (Nat.sub_le_sub_left (min_le_min_right _ (Nat.mul_le_mul_left _ ?_)) _)
  exact Nat.div_le_div_right (le_iff.mp h)

theorem stepped_passing (hs : zero < step) (hd : zero < period) (hy : «end» ≤ y) :
    (steppedDecreasing start «end» step period).Passing x y ↔
      period.parts * Rounding.up.div (start.parts - y.parts) step.parts ≤ x.parts := by
  have hy' : «end».parts ≤ y.parts := hy
  rw [Passing, ge_iff_le, le_iff, stepped_threshold]
  calc
    _ ↔ start.parts - y.parts ≤ step.parts * (x.parts / period.parts) := by omega
    _ ↔ Rounding.up.div (start.parts - y.parts) step.parts ≤ x.parts / period.parts :=
        (Rounding.up_div_le_iff hs).symm
    _ ↔ _ := by rw [Nat.le_div_iff_mul_le hd, Nat.mul_comm]

theorem stepped_delay (hs : zero < step) (hy : «end» ≤ y) :
    ((steppedDecreasing start «end» step period).delay y).parts = min (period.parts *
      min (Rounding.up.div (start.parts - y.parts) step.parts)
        (accuracy / step.parts)) accuracy := by
  have hsub : (start.sub (min y start)).parts = start.parts - y.parts := by
    rw [sub_parts, min_parts]
    · omega
    · rw [min_parts]
      exact min_le_right _ _
  have hadd : (((start.sub (min y start)).add step.lessEpsilon).intDiv step) =
      min (Rounding.up.div (start.parts - y.parts) step.parts) (accuracy / step.parts) := by
    rw [Perbill.intDiv, Perbill.add_parts, hsub, Perbill.lessEpsilon_parts hs,
      Rounding.up_div_eq hs]
    rcases Nat.le_total (start.parts - y.parts + (step.parts - 1)) accuracy with h | h
    · rw [min_eq_left h, min_eq_left (Nat.div_le_div_right h)]
    · rw [min_eq_right h, min_eq_right (Nat.div_le_div_right h)]
  rw [delay, if_neg (not_lt.mpr hy), intMul_parts, hadd]

theorem stepped_exact (hs : zero < step) (hd : zero < period)
    (hp : (steppedDecreasing start «end» step period).Passing one y) :
    (steppedDecreasing start «end» step period).ExactAt y ↔
      start.parts - y.parts ≤ step.parts * (accuracy / step.parts) := by
  have hy : «end» ≤ y := by
    refine le_trans (le_iff.mpr ?_) hp
    rw [stepped_threshold]
    exact le_max_right _ _
  have hle : period.parts * Rounding.up.div (start.parts - y.parts) step.parts ≤ accuracy :=
    (stepped_passing hs hd hy).mp hp
  rw [exactAt_iff hp fun x => stepped_passing hs hd hy, ← Rounding.up_div_le_iff hs,
    stepped_delay hs hy]
  constructor
  · intro heq
    have hmin : period.parts * Rounding.up.div (start.parts - y.parts) step.parts ≤
        period.parts * (accuracy / step.parts) := by
      rw [← heq]
      exact (min_le_left _ _).trans (Nat.mul_le_mul_left _ (min_le_right _ _))
    exact Nat.le_of_mul_le_mul_left hmin hd
  · intro hsteps
    rw [min_eq_left hsteps]
    exact min_eq_left hle

end Stepped

section Reciprocal

variable {factor xOffset yOffset : FixedI64}

def dividend (factor : FixedI64) : Nat := factor.inner.toNat * FixedI64.div

theorem fromPerbill_add (h : InRange (x.parts + xOffset.inner)) :
    ((fromPerbill x).add xOffset).inner = x.parts + xOffset.inner := by
  rw [← fromPerbill_inner] at h ⊢
  exact add_inner h

section

variable (hf : 0 ≤ factor.inner) (hx : 0 < xOffset.inner)
  (hfits : (reciprocal factor xOffset yOffset).Fits)
include hf hx hfits

theorem reciprocal_threshold : (((reciprocal factor xOffset yOffset).threshold x).parts : Int) =
      max 0 (min (accuracy : Int)
        ((dividend factor / (x.parts + xOffset.inner.toNat) : Nat) + yOffset.inner)) := by
  obtain ⟨hrange, yp, hyp, hrange'⟩ := hfits x
  have hsum := fromPerbill_add hrange
  have hpos : 0 < ((fromPerbill x).add xOffset).inner := by
    omega
  have hinner := checkedRoundingDiv_inner hf hpos hyp
  have htoNat : (x.parts + xOffset.inner).toNat = x.parts + xOffset.inner.toNat := by omega
  rw [hsum, htoNat] at hinner
  have hval : yp.inner = (dividend factor / (x.parts + xOffset.inner.toNat) : Nat) := hinner
  have hthr : (reciprocal factor xOffset yOffset).threshold x =
      (yp.add yOffset).intoClampedPerthing := by
    rw [threshold, hyp]
    rfl
  rw [hthr, FixedI64.intoClampedPerthing_parts, add_inner hrange']
  split_ifs with h0 h1
  · omega
  · omega
  · omega

theorem reciprocal_antitone (h : x ≤ x') :
    (reciprocal factor xOffset yOffset).threshold x' ≤
      (reciprocal factor xOffset yOffset).threshold x := by
  have hle : x.parts ≤ x'.parts := h
  have hdiv : dividend factor / (x'.parts + xOffset.inner.toNat) ≤
      dividend factor / (x.parts + xOffset.inner.toNat) :=
    Nat.div_le_div_left (by omega) (by omega)
  have hcast := Int.ofNat_le.mpr hdiv
  rw [le_iff, ← Int.ofNat_le, reciprocal_threshold hf hx hfits, reciprocal_threshold hf hx hfits]
  exact max_le_max_left _ (min_le_min_left _ (Int.add_le_add_right hcast _))

theorem reciprocal_passing : (reciprocal factor xOffset yOffset).Passing x y ↔
      y = one ∨ ((dividend factor / (x.parts + xOffset.inner.toNat) : Nat) : Int) ≤
        y.parts - yOffset.inner := by
  have hone : y = one ↔ y.parts = accuracy :=
    ⟨fun h => by rw [h]; rfl, fun h => Perbill.parts_inj h⟩
  have hle := y.le
  rw [Passing, ge_iff_le, le_iff, ← Int.ofNat_le, reciprocal_threshold hf hx hfits, hone]
  omega

end

-- It is enough that nothing overflows at the left end.
theorem reciprocal_fits (hf : 0 ≤ factor.inner) (hx : 0 < xOffset.inner)
    (hrange : xOffset.inner + accuracy < 2 ^ 63)
    (hdiv : dividend factor / xOffset.inner.toNat < 2 ^ 63)
    (hsum : (dividend factor / xOffset.inner.toNat : Nat) + yOffset.inner < 2 ^ 63) :
    (reciprocal factor xOffset yOffset).Fits := by
  intro x
  have hle := x.le
  have hin : InRange (x.parts + xOffset.inner) := ⟨by omega, by omega⟩
  have hinner := fromPerbill_add hin
  have hquot : dividend factor / (x.parts + xOffset.inner).toNat ≤
      dividend factor / xOffset.inner.toNat :=
    Nat.div_le_div_left (by omega) (by omega)
  have hpos : 0 < ((fromPerbill x).add xOffset).inner := by
    omega
  have hlt : (fromSigned .low false).div (factor.inner.toNat * FixedI64.div)
      ((fromPerbill x).add xOffset).inner.toNat < 2 ^ 63 := by
    rw [hinner]
    exact lt_of_le_of_lt hquot hdiv
  obtain ⟨yp, hyp⟩ := FixedI64.checkedRoundingDiv_isSome hf hpos hlt
  have hval := checkedRoundingDiv_inner hf hpos hyp
  rw [hinner] at hval
  have hval' : yp.inner = (dividend factor / (x.parts + xOffset.inner).toNat : Nat) := hval
  have hcast := Int.ofNat_le.mpr hquot
  have hy := yOffset.range.1
  refine ⟨hin, yp, hyp, ?_⟩
  rw [hval']
  constructor
  · exact le_trans hy (by omega)
  · exact lt_of_le_of_lt (Int.add_le_add_right hcast _) hsum

-- The first denominator with which a `y` value passes.
def firstDenominator (factor yOffset : FixedI64) (y : Perbill) : Nat :=
  dividend factor / ((y.parts - yOffset.inner).toNat + 1) + 1

theorem reciprocal_passing_below (hf : 0 ≤ factor.inner) (hx : 0 < xOffset.inner)
    (hfits : (reciprocal factor xOffset yOffset).Fits) (hy : y < one)
    (hz : yOffset.inner ≤ y.parts) :
    (reciprocal factor xOffset yOffset).Passing x y ↔
      firstDenominator factor yOffset y - xOffset.inner.toNat ≤ x.parts := by
  have hpos : 0 < x.parts + xOffset.inner.toNat := by omega
  rw [reciprocal_passing hf hx hfits, or_iff_right hy.ne]
  calc
    _ ↔ dividend factor / (x.parts + xOffset.inner.toNat) <
      (y.parts - yOffset.inner).toNat + 1 := by
        omega
    _ ↔ dividend factor < ((y.parts - yOffset.inner).toNat + 1) * (x.parts + xOffset.inner.toNat) :=
        Nat.div_lt_iff_lt_mul hpos
    _ ↔ dividend factor / ((y.parts - yOffset.inner).toNat + 1) <
      x.parts + xOffset.inner.toNat := by
        rw [Nat.div_lt_iff_lt_mul (Nat.succ_pos _), Nat.mul_comm]
    _ ↔ _ := by
        rw [firstDenominator]
        omega

-- The denominator that the delay is computed from.
def term (factor yOffset : FixedI64) (y : Perbill) : Nat :=
  Rounding.up.div (dividend factor) (y.parts - yOffset.inner).toNat

theorem first_le_term (hz : yOffset.inner < y.parts) :
    firstDenominator factor yOffset y ≤ term factor yOffset y ∨
    term factor yOffset y = 0 ∧ firstDenominator factor yOffset y = 1 := by
  have hpos : 0 < (y.parts - yOffset.inner).toNat := by omega
  rw [firstDenominator, term]
  generalize (y.parts - yOffset.inner).toNat = z at hpos
  rcases Nat.eq_zero_or_pos (dividend factor) with h0 | hn
  · right
    rw [h0, Nat.zero_div, Rounding.up_div_of_dvd (Nat.dvd_zero z), Nat.zero_div]
    exact ⟨rfl, rfl⟩
  · left
    have hle : dividend factor ≤ z * Rounding.up.div (dividend factor) z :=
      (Rounding.up_div_le_iff hpos).mp (le_refl _)
    have hterm : 0 < Rounding.up.div (dividend factor) z :=
      Nat.pos_of_mul_pos_left (lt_of_lt_of_le hn hle)
    refine Nat.succ_le_of_lt ((Nat.div_lt_iff_lt_mul (Nat.succ_pos z)).mpr ?_)
    rw [Nat.mul_succ, Nat.mul_comm]
    omega

theorem reciprocal_delay (hf : 0 ≤ factor.inner) (hx : 0 < xOffset.inner)
    (hfits : (reciprocal factor xOffset yOffset).FitsAt y) :
    (((reciprocal factor xOffset yOffset).delay y).parts : Int) =
      if yOffset.inner < y.parts ∧ xOffset.inner ≤ term factor yOffset y ∧
          term factor yOffset y ≤ xOffset.inner + accuracy then
        term factor yOffset y - xOffset.inner
      else (accuracy : Int) := by
  obtain ⟨hrange, hterm⟩ := hfits
  have hsub : ((fromPerbill y).sub yOffset).inner = y.parts - yOffset.inner := by
    rw [sub_inner, fromPerbill_inner]
    rw [fromPerbill_inner]
    exact hrange
  by_cases hzero : (y.parts : Int) = yOffset.inner
  · have hnone : factor.checkedRoundingDiv ((fromPerbill y).sub yOffset) .high = none := by
      rw [FixedI64.checkedRoundingDiv, if_pos]
      omega
    rw [delay, hnone, if_neg fun h => absurd h.1 (by omega)]
    rfl
  · obtain ⟨t, ht, htrange⟩ := hterm hzero
    have hdelay : (reciprocal factor xOffset yOffset).delay y =
        ((t.sub xOffset).tryIntoPerthing.toOption).getD one := by
      rw [delay, ht]
      rfl
    rw [hdelay, FixedI64.tryIntoPerthing_parts, sub_inner htrange]
    rcases Int.lt_or_gt_of_ne hzero with hneg | hpos
    · have hle := FixedI64.checkedRoundingDiv_nonpos hf (by rw [hsub]; omega) ht
      rw [if_neg fun h => absurd h.1 (by omega), if_neg fun h => absurd h.1 (by omega)]
    · have hval := checkedRoundingDiv_inner hf (by rw [hsub]; omega) ht
      rw [hsub] at hval
      have hval' : t.inner = (term factor yOffset y : Int) := hval
      rw [hval']
      split
      case isTrue => rw [if_pos ⟨hpos, by omega, by omega⟩]
      case isFalse hin => rw [if_neg fun h => hin ⟨by omega, by omega⟩]

-- The delay is right if the two roundings agree, or if the curve is met at one end.
def ReciprocalMeets (factor xOffset yOffset : FixedI64) (y : Perbill) : Prop :=
  yOffset.inner < y.parts ∧ term factor yOffset y = xOffset.inner ∨
  y < one ∧ (firstDenominator factor yOffset y = xOffset.inner + accuracy ∨
    yOffset.inner < y.parts ∧ xOffset.inner ≤ term factor yOffset y ∧
      term factor yOffset y = firstDenominator factor yOffset y)

theorem reciprocal_exact (hf : 0 ≤ factor.inner) (hx : 0 < xOffset.inner)
    (hfits : (reciprocal factor xOffset yOffset).Fits)
    (hat : (reciprocal factor xOffset yOffset).FitsAt y)
    (hp : (reciprocal factor xOffset yOffset).Passing one y) :
    (reciprocal factor xOffset yOffset).ExactAt y ↔ ReciprocalMeets factor xOffset yOffset y := by
  have hacc : (0 : Int) < accuracy := by decide
  have hdelay := reciprocal_delay hf hx hat
  rw [ReciprocalMeets]
  by_cases hy : y = one
  · -- Everything passes, so that the smallest value is zero.
    have hpass (x) : (reciprocal factor xOffset yOffset).Passing x y ↔ 0 ≤ x.parts :=
      iff_of_true ((reciprocal_passing hf hx hfits).mpr (.inl hy)) (Nat.zero_le _)
    have hnot : ¬ y < one := by rw [hy]; exact lt_irrefl one
    rw [exactAt_iff hp hpass, ← Int.ofNat_inj, hdelay]
    split_ifs with hin
    · constructor
      · intro h
        exact .inl ⟨hin.1, by omega⟩
      · rintro (h | h)
        · omega
        · exact absurd h.1 hnot
    · constructor
      · intro h
        omega
      · rintro (h | h)
        · exact absurd ⟨h.1, by omega, by omega⟩ hin
        · exact absurd h.1 hnot
  · have hlt : y < one := lt_of_le_of_ne y.le hy
    have hz : yOffset.inner ≤ y.parts := by
      rcases (reciprocal_passing hf hx hfits).mp hp with h | h
      · exact absurd h hy
      · have hnonneg := (Int.natCast_nonneg _).trans h
        omega
    have hle : firstDenominator factor yOffset y - xOffset.inner.toNat ≤ accuracy :=
      (reciprocal_passing_below hf hx hfits hlt hz).mp hp
    rw [exactAt_iff hp fun x =>
      reciprocal_passing_below hf hx hfits hlt hz, ← Int.ofNat_inj, hdelay]
    have hfirst := @first_le_term y factor yOffset
    generalize term factor yOffset y = t at *
    split_ifs with hin
    · have := hfirst hin.1
      constructor
      · intro h
        by_cases heq : (t : Int) = xOffset.inner
        · exact .inl ⟨hin.1, heq⟩
        · exact .inr ⟨hlt, .inr ⟨hin.1, hin.2.1, by omega⟩⟩
      · rintro (h | ⟨_, h | h⟩)
        · omega
        · omega
        · omega
    · constructor
      · intro h
        exact .inr ⟨hlt, .inl (by omega)⟩
      · rintro (h | ⟨_, h | h⟩)
        · exact absurd ⟨h.1, by omega, by omega⟩ hin
        · omega
        · exact absurd ⟨h.1, by omega, by omega⟩ hin

end Reciprocal

-- When the delay is the smallest value that passes.
def Meets (y : Perbill) : Curve → Prop
  | linearDecreasing length floor ceil =>
    ceil < y ∨ accuracy ∣ linearSteps floor ceil y * length.parts
  | steppedDecreasing start _ step _ => start.parts - y.parts ≤ step.parts * (accuracy / step.parts)
  | reciprocal factor xOffset yOffset => ReciprocalMeets factor xOffset yOffset y

theorem delay_exact_iff (c : Curve) (hs : c.Sensible) (hf : c.Fits) :
    (∀ x x', x ≤ x' → c.threshold x' ≤ c.threshold x) ∧
      ∀ y, c.FitsAt y → c.Passing one y → (c.ExactAt y ↔ c.Meets y) := by
  cases c with
  | linearDecreasing length floor ceil =>
    exact ⟨fun x x' h => linear_antitone hs.1 hs.2 h, fun y _ hp => linear_exact hs.1 hs.2 hp⟩
  | steppedDecreasing start «end» step period =>
    exact ⟨fun x x' h => stepped_antitone h, fun y _ hp => stepped_exact hs.2.1 hs.2.2 hp⟩
  | reciprocal factor xOffset yOffset =>
    exact ⟨fun x x' h => reciprocal_antitone hs.1 hs.2 hf h,
      fun y hat hp => reciprocal_exact hs.1 hs.2 hf hat hp⟩

section Samples

def tipApp : Curve :=
  linearDecreasing (.fromParts 357142857) (.fromParts 500000000) (.fromParts 1000000000)

def fewSteps : Curve :=
  steppedDecreasing (.fromParts 1000000000) zero (.fromParts 400000000) (.fromParts 200000000)

def translated : Curve := reciprocal (.wrap 31250000) (.wrap 36330683) (.wrap 139845532)

theorem translated_fits : translated.Fits :=
  reciprocal_fits (by decide +kernel) (by decide +kernel) (by decide +kernel) (by decide +kernel)
    (by decide +kernel)

theorem translated_fitsAt : translated.FitsAt (.fromParts 400000000) := by
  refine ⟨⟨by decide +kernel, by decide +kernel⟩, fun _ => ⟨.wrap 120120943, by decide +kernel, ?_⟩⟩
  exact ⟨by decide +kernel, by decide +kernel⟩

theorem sampleCurves_exact : tipApp.ExactAt one ∧ fewSteps.ExactAt (.fromParts 300000000) ∧
    translated.ExactAt (.fromParts 400000000) := by
  refine ⟨?_, ?_, ?_⟩
  · refine ((delay_exact_iff tipApp ⟨?_, ?_⟩ trivial).2 one trivial ?_).mpr (.inr ?_)
    all_goals decide +kernel
  · refine ((delay_exact_iff fewSteps ⟨?_, ?_, ?_⟩ trivial).2 _ trivial ?_).mpr ?_
    · decide +kernel
    · decide +kernel
    · decide +kernel
    · decide +kernel
    · change 1000000000 - 300000000 ≤ 400000000 * (accuracy / 400000000)
      decide +kernel
  · refine ((delay_exact_iff translated ⟨?_, ?_⟩ translated_fits).2 _ translated_fitsAt ?_).mpr
      (.inr ⟨?_, .inr ⟨?_, ?_, ?_⟩⟩)
    all_goals decide +kernel

-- A linear curve that does not pass at its delay, a stepped one that does not either, and a
-- reciprocal one that passes before its delay.
theorem sampleCurves_inexact :
    (tipApp.Sensible ∧ tipApp.Passing one (.fromParts 900000000) ∧
      ¬ tipApp.Passing (tipApp.delay (.fromParts 900000000)) (.fromParts 900000000)) ∧
    (fewSteps.Sensible ∧ fewSteps.Passing one zero ∧
      ¬ fewSteps.Passing (fewSteps.delay zero) zero) ∧
    (translated.Sensible ∧ translated.delay (.fromParts 500000000) = .fromParts 50437643 ∧
      translated.Passing (.fromParts 50437642) (.fromParts 500000000)) := by
  refine ⟨⟨⟨?_, ?_⟩, ?_, ?_⟩, ⟨⟨?_, ?_, ?_⟩, ?_, ?_⟩, ⟨?_, ?_⟩, ?_, ?_⟩
  all_goals decide +kernel

end Samples

end Curve

end Referenda
