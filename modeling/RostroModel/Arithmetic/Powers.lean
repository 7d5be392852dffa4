import RostroModel.Arithmetic.FixedPoint

namespace Arithmetic

open Referenda (SignedRounding)
open FixedPointType (fixedU128)

variable {t : FixedPointType}

namespace Fixed

-- The result and the square after a number of bits of the exponent.
def powLoop (x : Fixed t) (exp : Nat) : Nat → Fixed t × Fixed t
  | 0 => (saturatingFromInteger t 1, x)
  | i + 1 =>
    let s := powLoop x exp i
    (if exp.testBit i then s.1.saturatingMul s.2 else s.1, s.2.saturatingMul s.2)

-- The exponent is narrowed to 32 bits after it has been compared with zero.
def saturatingPow (x : Fixed t) (exp : Nat) : Fixed t :=
  if exp = 0 then saturatingFromInteger t 1
  else
    let exp := exp % 2 ^ 32
    let msbPos := exp.size
    (powLoop x exp msbPos).1

end Fixed

section Powers

variable {x y z w : Fixed t} {k exp e f i j : Nat}

theorem fromInteger_one : (Fixed.saturatingFromInteger t 1).inner = t.div := by
  obtain ⟨k, _, _, _, hk⟩ := t.bounds
  have h := fromInteger_inner (t := t) (n := 1) ⟨by omega, by omega⟩ (by decide)
  rwa [one_mul] at h

theorem inner_le_max (x : Fixed t) : x.inner ≤ t.max := x.range.2

theorem div_le_max (t : FixedPointType) : (t.div : Int) ≤ t.max := by
  obtain ⟨k, _, _, _, hk⟩ := t.bounds
  omega

theorem saturatingMul_inner (hx : 0 ≤ x.inner) (hy : 0 ≤ y.inner) :
    (x.saturatingMul y).inner = min (x.inner * y.inner / t.div) t.max := by
  obtain ⟨k, _, _, _, hk⟩ := t.bounds
  have hpos : (0 : ℚ) ≤ (x.inner : ℚ) * y.inner / t.div := by
    positivity
  have hexact : SignedRounding.minor.exact ((x.inner : ℚ) * y.inner / t.div) =
      x.inner * y.inner / t.div := by
    rw [SignedRounding.exact, if_neg (not_lt.mpr hpos), ← Int.cast_mul]
    exact Rat.floor_intCast_div_natCast _ _
  have hq : 0 ≤ x.inner * y.inner / t.div := Int.ediv_nonneg (Int.mul_nonneg hx hy) (by omega)
  rw [Fixed.saturatingMul, checkedMul_eq, hexact]
  by_cases hr : t.InRange (x.inner * y.inner / t.div)
  · rw [represent, dif_pos hr]
    exact (min_eq_left hr.2).symm
  · rw [represent_eq_none hr, Option.getD_none, Fixed.toBound, decide_eq_false hx.not_gt,
      decide_eq_false hy.not_gt, if_neg (by simp), saturate_inner ⟨by omega, by omega⟩]
    rw [FixedPointType.InRange] at hr
    omega

theorem saturatingMul_mono (hx : 0 ≤ x.inner) (hz : 0 ≤ z.inner) (hxy : x.inner ≤ y.inner)
    (hzw : z.inner ≤ w.inner) :
    (x.saturatingMul z).inner ≤ (y.saturatingMul w).inner := by
  rw [saturatingMul_inner hx hz, saturatingMul_inner (hx.trans hxy) (hz.trans hzw)]
  apply min_le_min_right
  apply Int.ediv_le_ediv (by exact_mod_cast t.div_pos)
  exact Int.mul_le_mul hxy hzw hz (hx.trans hxy)

-- A factor of at least one does not make a product smaller.
theorem le_saturatingMul (hx : 0 ≤ x.inner) (hy : t.div ≤ y.inner) :
    x.inner ≤ (x.saturatingMul y).inner ∧ x.inner ≤ (y.saturatingMul x).inner := by
  have hd : (0 : Int) < t.div := by exact_mod_cast t.div_pos
  have hle : x.inner ≤ min (x.inner * y.inner / t.div) t.max :=
    le_min ((Int.le_ediv_iff_mul_le hd).mpr (Int.mul_le_mul_of_nonneg_left hy hx)) (inner_le_max x)
  rw [saturatingMul_inner hx (by omega), saturatingMul_inner (by omega) hx, Int.mul_comm y.inner]
  exact ⟨hle, hle⟩

theorem powLoop_snd : (x.powLoop e i).2 = (x.powLoop f i).2 := by
  induction i with
  | zero => rfl
  | succ i hi => exact congrArg₂ Fixed.saturatingMul hi hi

-- The squares bound the result.
theorem powLoop_bounds (hx : t.div ≤ x.inner) (e i : Nat) :
    t.div ≤ (x.powLoop e i).1.inner ∧ (x.powLoop e i).1.inner ≤ (x.powLoop e i).2.inner := by
  induction i with
  | zero => exact ⟨fromInteger_one.ge, fromInteger_one.trans_le hx⟩
  | succ i hi =>
    have ⟨hr, hp⟩ := hi
    have hsq := (le_saturatingMul (x := (x.powLoop e i).2) (by omega) (hr.trans hp)).1
    rw [Fixed.powLoop]
    by_cases hb : e.testBit i
    · have hm := (le_saturatingMul (x := (x.powLoop e i).1) (by omega) (hr.trans hp)).1
      rw [if_pos hb]
      exact ⟨hr.trans hm, saturatingMul_mono (by omega) (by omega) hp le_rfl⟩
    · rw [if_neg hb]
      exact ⟨hr, hp.trans hsq⟩

theorem mod_two_pow_succ (e i : Nat) :
    e % 2 ^ (i + 1) = e % 2 ^ i + 2 ^ i * (e.testBit i).toNat := by
  rw [Nat.mod_pow_succ, Nat.toNat_testBit]

-- The highest bit in which two exponents differ decides.
theorem powLoop_mono (hx : t.div ≤ x.inner) (h : e % 2 ^ i ≤ f % 2 ^ i) :
    (x.powLoop e i).1.inner ≤ (x.powLoop f i).1.inner := by
  induction i with
  | zero => exact le_rfl
  | succ i hi =>
    have ⟨hre, hpe⟩ := powLoop_bounds hx e i
    have ⟨hrf, hpf⟩ := powLoop_bounds hx f i
    rw [mod_two_pow_succ, mod_two_pow_succ] at h
    rw [Fixed.powLoop, Fixed.powLoop, powLoop_snd (e := f) (f := e)]
    cases he : e.testBit i <;> cases hf : f.testBit i <;>
      simp only [he, hf, Bool.toNat_true, Bool.toNat_false] at h
    case false.false => exact hi (by omega)
    case false.true => exact hpe.trans (le_saturatingMul (by omega) hrf).2
    case true.false => omega
    case true.true => exact saturatingMul_mono (by omega) (by omega) (hi (by omega)) le_rfl

theorem powLoop_stop (he : e < 2 ^ i) (hij : i ≤ j) : (x.powLoop e j).1 = (x.powLoop e i).1 := by
  induction j, hij using Nat.le_induction with
  | base => rfl
  | succ j hij hj =>
    have hb : e.testBit j = false :=
      Nat.testBit_lt_two_pow (he.trans_le (Nat.pow_le_pow_right two_pos hij))
    rw [Fixed.powLoop, hb]
    exact hj

theorem saturatingPow_eq (he : e < 2 ^ 32) : x.saturatingPow e = (x.powLoop e 32).1 := by
  rw [Fixed.saturatingPow]
  by_cases hz : e = 0
  · rw [if_pos hz, hz, powLoop_stop (i := 0) (by decide) (by decide)]
    rfl
  · rw [if_neg hz, Nat.mod_eq_of_lt he]
    exact (powLoop_stop (Nat.lt_size_self e) (Nat.size_le.mpr he)).symm

theorem saturatingMul_integral {a b : Nat} (hx : x.inner = min ((a : Int) * t.div) t.max)
    (hy : y.inner = min ((b : Int) * t.div) t.max) :
    (x.saturatingMul y).inner = min (((a * b : Nat) : Int) * t.div) t.max := by
  have hd : (0 : Int) < t.div := by exact_mod_cast t.div_pos
  have hmax := div_le_max t
  have hxy := inner_le_max (x.saturatingMul y)
  rcases Nat.eq_zero_or_pos a with rfl | ha
  · rw [Nat.cast_zero, Int.zero_mul, min_eq_left (by omega)] at hx
    have hb : 0 ≤ (b : Int) * t.div := by positivity
    rw [saturatingMul_inner (by omega) (by omega), hx, Nat.zero_mul, Int.zero_mul, Int.zero_ediv,
      Nat.cast_zero, Int.zero_mul]
  rcases Nat.eq_zero_or_pos b with rfl | hb
  · rw [Nat.cast_zero, Int.zero_mul, min_eq_left (by omega)] at hy
    have hb : 0 ≤ (a : Int) * t.div := by positivity
    rw [saturatingMul_inner (by omega) (by omega), hy, Nat.mul_zero, Int.mul_zero, Int.zero_ediv,
      Nat.cast_zero, Int.zero_mul]
  have hda : (t.div : Int) ≤ a * t.div := le_mul_of_one_le_left hd.le (by exact_mod_cast ha)
  have hdb : (t.div : Int) ≤ b * t.div := le_mul_of_one_le_left hd.le (by exact_mod_cast hb)
  have hab : (a : Int) * t.div ≤ (a * b : Nat) * t.div := by
    exact_mod_cast Nat.mul_le_mul_right _ (Nat.le_mul_of_pos_right a hb)
  have hba : (b : Int) * t.div ≤ (a * b : Nat) * t.div := by
    exact_mod_cast Nat.mul_le_mul_right _ (Nat.le_mul_of_pos_left b ha)
  have hsx := (@le_saturatingMul t x y (by omega) (by omega)).1
  have hsy := (@le_saturatingMul t y x (by omega) (by omega)).2
  by_cases hle : (a : Int) * t.div ≤ t.max ∧ (b : Int) * t.div ≤ t.max
  · have hprod : (a : Int) * t.div * (b * t.div) = (a * b : Nat) * t.div * t.div := by
      push_cast
      ring
    rw [saturatingMul_inner (by omega) (by omega), hx, hy, min_eq_left hle.1,
      min_eq_left hle.2, hprod, Int.mul_ediv_cancel _ hd.ne']
  · omega

theorem powLoop_integral (hx : x.inner = k * t.div) (e i : Nat) :
    (x.powLoop e i).1.inner = min (((k ^ (e % 2 ^ i) : Nat) : Int) * t.div) t.max ∧
    (x.powLoop e i).2.inner = min (((k ^ 2 ^ i : Nat) : Int) * t.div) t.max := by
  induction i with
  | zero =>
    have hd := div_le_max t
    have hm := inner_le_max x
    constructor
    · rw [Nat.pow_zero, Nat.mod_one, Nat.pow_zero, Nat.cast_one, Int.one_mul, min_eq_left hd]
      exact fromInteger_one
    · rw [Nat.pow_zero, Nat.pow_one, ← hx, min_eq_left hm]
      rfl
  | succ i hi =>
    have ⟨hr, hp⟩ := hi
    rw [mod_two_pow_succ, Nat.pow_add, Nat.two_pow_succ, Nat.pow_add, Fixed.powLoop]
    refine ⟨?_, saturatingMul_integral hp hp⟩
    cases he : e.testBit i
    · simpa using hr
    · simpa using saturatingMul_integral hr hp

theorem saturatingPow_mono (hx : t.div ≤ x.inner) (hef : e ≤ f) (hf : f < 2 ^ 32) :
    (x.saturatingPow e).inner ≤ (x.saturatingPow f).inner := by
  rw [saturatingPow_eq hf, saturatingPow_eq (hef.trans_lt hf)]
  apply powLoop_mono hx
  rwa [Nat.mod_eq_of_lt hf, Nat.mod_eq_of_lt (hef.trans_lt hf)]

theorem saturatingPow_integral (hx : x.inner = k * t.div) (he : e < 2 ^ 32) :
    (x.saturatingPow e).inner = min ((k : Int) ^ e * t.div) t.max := by
  rw [saturatingPow_eq he, (powLoop_integral hx e 32).1, Nat.mod_eq_of_lt he, Nat.cast_pow]

theorem saturatingPow_narrowed : (x.saturatingPow (2 ^ 32)).inner = t.div := by
  exact fromInteger_one

-- The powers are monotone, and exact if the base is integral, as long as the
-- exponents fit into 32 bits.
theorem saturating_pow_iff (n : Nat) :
    ((∀ x : Fixed .fixedU128, fixedU128.div ≤ x.inner →
        ∀ e₁ e₂, e₁ ≤ e₂ → e₂ < n → (x.saturatingPow e₁).inner ≤ (x.saturatingPow e₂).inner) ∧
      ∀ (x : Fixed .fixedU128) (k : Nat), x.inner = k * fixedU128.div →
        ∀ e < n, (x.saturatingPow e).inner =
          min ((k : Int) ^ e * fixedU128.div) fixedU128.max) ↔ n ≤ 2 ^ 32 := by
  constructor
  · intro h
    by_contra hn
    have hle := h.1 (.saturate .fixedU128 (2 * fixedU128.div)) (by decide) 1 (2 ^ 32) (by decide)
      (by omega)
    exact absurd hle (by decide)
  · intro hn
    exact ⟨fun x hx e f hef hf => saturatingPow_mono hx hef (by omega),
      fun x k hx e he => saturatingPow_integral hx (by omega)⟩

theorem two_pow_narrowed :
    let two : Fixed .fixedU128 := .saturate .fixedU128 (2 * fixedU128.div)
    (two.saturatingPow (2 ^ 32)).inner = fixedU128.div ∧
      (two.saturatingPow 1).inner = 2 * fixedU128.div :=
  ⟨saturatingPow_narrowed, by decide +kernel⟩

end Powers

end Arithmetic
