import RostroModel.Arithmetic.Double128
import RostroModel.Referenda.Arithmetic

namespace Referenda.SignedRounding

-- What each way of rounding makes of a rational number.
def exact (r : SignedRounding) (q : ℚ) : ℤ :=
  match r with
  | high => ⌈q⌉
  | low => ⌊q⌋
  | nearestPrefHigh => ⌊q + 1 / 2⌋
  | nearestPrefLow => ⌈q - 1 / 2⌉
  | major => if q < 0 then ⌊q⌋ else ⌈q⌉
  | minor => if q < 0 then ⌈q⌉ else ⌊q⌋
  | nearestPrefMajor => if q < 0 then ⌈q - 1 / 2⌉ else ⌊q + 1 / 2⌋
  | nearestPrefMinor => if q < 0 then ⌊q + 1 / 2⌋ else ⌈q - 1 / 2⌉

theorem exact_of_nonneg {r : SignedRounding} (h : 0 ≤ q) :
    r.exact q = (fromSigned r false).exact q := by
  cases r <;> simp [exact, fromSigned, Rounding.exact, not_lt.mpr h]

theorem exact_neg {r : SignedRounding} (h : 0 ≤ q) :
    r.exact (-q) = -(fromSigned r true).exact q := by
  have hceil : ⌈-q - 1 / 2⌉ = -⌊q + 1 / 2⌋ := by rw [← Int.ceil_neg, neg_add']
  have hfloor : ⌊-q + 1 / 2⌋ = -⌈q - 1 / 2⌉ := by rw [← Int.floor_neg, neg_sub, sub_eq_neg_add]
  rcases h.eq_or_lt with rfl | h
  · cases r <;> norm_num [exact, fromSigned, Rounding.exact]
  · cases r <;> simp only [exact, fromSigned, Rounding.exact, Left.neg_neg_iff.mpr h,
      if_true, Int.ceil_neg, Int.floor_neg, hceil, hfloor]

end Referenda.SignedRounding

namespace Arithmetic

open Referenda (SignedRounding fromSigned)

-- What the macro for fixed point numbers is used with. Rounding multiplies by ten.
structure FixedPointType where
  bits : Nat
  signed : Bool
  div : Nat
  bits_le : bits ≤ 128
  div_pos : 0 < div
  ten_le : 10 * div < 2 ^ (bits - 1)

namespace FixedPointType

def fixedI64 : FixedPointType := ⟨64, true, 10 ^ 9, by decide, by decide, by decide⟩

def fixedU64 : FixedPointType := ⟨64, false, 10 ^ 9, by decide, by decide, by decide⟩

def fixedI128 : FixedPointType := ⟨128, true, 10 ^ 18, by decide, by decide, by decide⟩

def fixedU128 : FixedPointType := ⟨128, false, 10 ^ 18, by decide, by decide, by decide⟩

variable (t : FixedPointType)

def min : Int := if t.signed then -2 ^ (t.bits - 1) else 0

def max : Int := if t.signed then 2 ^ (t.bits - 1) - 1 else 2 ^ t.bits - 1

def InRange (n : Int) : Prop := t.min ≤ n ∧ n ≤ t.max

instance (n : Int) : Decidable (t.InRange n) := inferInstanceAs (Decidable (_ ∧ _))

-- A number of 128 bits as a number of the inner type.
def cast (n : Nat) : Int := if t.signed then (n : Int).bmod (2 ^ t.bits) else (n % 2 ^ t.bits : Nat)

-- The range in terms of half of the numbers of the type.
theorem bounds : ∃ h : Nat, 10 * t.div < h ∧ h ≤ 2 ^ 127 ∧ 2 ^ t.bits = 2 * h ∧
    (t.signed = true ∧ t.min = -h ∧ t.max = h - 1 ∨ t.signed = false ∧ t.min = 0 ∧
      t.max = 2 * h - 1) := by
  have hle := t.bits_le
  have hbits : 2 ^ t.bits = 2 * 2 ^ (t.bits - 1) := by
    rw [← pow_succ', Nat.sub_add_cancel (Nat.pos_of_ne_zero fun h => ?_)]
    have := t.ten_le
    have := t.div_pos
    rw [h] at *
    omega
  refine ⟨2 ^ (t.bits - 1), t.ten_le, Nat.pow_le_pow_right two_pos (by omega), hbits, ?_⟩
  rw [min, max]
  have hcast : (2 : Int) ^ t.bits = 2 * 2 ^ (t.bits - 1) := by exact_mod_cast hbits
  cases t.signed <;> simp [hcast]

end FixedPointType

-- A fixed point number.
structure Fixed (t : FixedPointType) where
  inner : Int
  range : t.InRange inner

structure I129 where
  value : Nat
  negative : Bool

variable {t : FixedPointType}

def represent (t : FixedPointType) (n : Int) : Option (Fixed t) :=
  if h : t.InRange n then some ⟨n, h⟩ else none

def maxPlusOne (t : FixedPointType) : Nat := min (t.max.toNat + 1) (2 ^ 128 - 1)

-- The conversion of the inner type, which is written a second time for fixed point numbers.
def intoI129 (x : Fixed t) : I129 :=
  if x.inner < 0 then ⟨((represent t (-x.inner)).map (·.inner.toNat)).getD (maxPlusOne t), true⟩
  else ⟨x.inner.toNat, false⟩

def fromI129 (t : FixedPointType) (n : I129) : Option (Fixed t) :=
  if n.negative ∧ t.min < 0 ∧ n.value = maxPlusOne t then represent t t.min
  else do
    let unsignedInner ← represent t n.value
    if n.negative then represent t (-unsignedInner.inner) else return unsignedInner

-- The second version is constant: it uses casts.
def Fixed.fromI129 (t : FixedPointType) (n : I129) : Option (Fixed t) :=
  if n.negative ∧ t.min < 0 ∧ n.value = maxPlusOne t then represent t t.min
  else
    let unsignedInner := t.cast n.value
    if unsignedInner % 2 ^ 128 ≠ n.value ∨
      decide (unsignedInner > 0) ≠ decide (n.value > 0) then none
    else if n.negative then represent t (-unsignedInner) else represent t unsignedInner

def Fixed.constCheckedMulWithRounding (x y : Fixed t) (rounding : SignedRounding) :
    Option (Fixed t) :=
  let lhs := intoI129 x
  let rhs := intoI129 y
  let negative := lhs.negative != rhs.negative
  (multiplyByRationalWithRounding lhs.value rhs.value t.div (fromSigned rounding negative)).bind
    fun value => Fixed.fromI129 t { value, negative }

def Fixed.checkedRoundingDiv (x y : Fixed t) (rounding : SignedRounding) : Option (Fixed t) :=
  if y.inner = 0 then none
  else
    let lhs := intoI129 x
    let rhs := intoI129 y
    let negative := lhs.negative != rhs.negative
    (multiplyByRationalWithRounding lhs.value t.div rhs.value (fromSigned rounding negative)).bind
      fun value => Fixed.fromI129 t { value, negative }

def Fixed.checkedMul (x y : Fixed t) : Option (Fixed t) :=
  let lhs := intoI129 x
  let rhs := intoI129 y
  let negative := lhs.negative != rhs.negative
  (multiplyByRationalWithRounding lhs.value rhs.value t.div (fromSigned .minor negative)).bind
    fun value => Arithmetic.fromI129 t { value, negative }

section Exact

variable {x y : Fixed t} {v : Nat} {s : Bool} {n : Int}

def signedValue (s : Bool) (v : Nat) : Int := if s then -v else v

theorem represent_eq_none (h : ¬t.InRange n) : represent t n = none := dif_neg h

theorem maxPlusOne_eq (h : t.min < 0) : (maxPlusOne t : Int) = -t.min := by
  obtain ⟨k, _, _, _, hk⟩ := t.bounds
  rw [maxPlusOne]
  omega

theorem intoI129_eq : intoI129 x = ⟨x.inner.natAbs, decide (x.inner < 0)⟩ := by
  obtain ⟨k, _, _, _, hk⟩ := t.bounds
  have ⟨_, _⟩ := x.range
  rw [intoI129]
  split
  case isTrue hn =>
    rw [decide_eq_true hn]
    congr 1
    by_cases hr : t.InRange (-x.inner)
    · rw [represent, dif_pos hr]
      simp only [Option.map_some, Option.getD_some]
      omega
    · have := maxPlusOne_eq (t := t) (by omega)
      rw [represent_eq_none hr]
      rw [FixedPointType.InRange] at hr
      simp only [Option.map_none, Option.getD_none]
      omega
  case isFalse hn =>
    rw [decide_eq_false hn]
    congr 1
    omega

theorem natAbs_lt (x : Fixed t) : x.inner.natAbs < 2 ^ 128 := by
  obtain ⟨k, _, _, _, hk⟩ := t.bounds
  have ⟨_, _⟩ := x.range
  omega

theorem fromI129_eq : fromI129 t ⟨v, s⟩ = represent t (signedValue s v) := by
  obtain ⟨k, _, _, _, hk⟩ := t.bounds
  rw [fromI129, signedValue]
  by_cases hmin : s = true ∧ t.min < 0 ∧ v = maxPlusOne t
  · have := maxPlusOne_eq hmin.2.1
    rw [if_pos hmin, if_pos hmin.1]
    congr 1
    omega
  · rw [if_neg hmin]
    by_cases hr : t.InRange v
    · rw [represent, dif_pos hr]
      cases s
      · exact (dif_pos hr : represent t v = _).symm
      · rfl
    · rw [represent_eq_none hr]
      refine (represent_eq_none fun hs => hr ?_).symm
      cases s
      · exact hs
      · have := maxPlusOne_eq (t := t)
        have hv : t.min < 0 → v ≠ maxPlusOne t := fun h1 h2 => hmin ⟨rfl, h1, h2⟩
        rw [FixedPointType.InRange] at hs ⊢
        omega

theorem constFromI129_eq (h : v < 2 ^ 128) : Fixed.fromI129 t ⟨v, s⟩ = fromI129 t ⟨v, s⟩ := by
  obtain ⟨k, _, _, hbits, hk⟩ := t.bounds
  have hcast : t.InRange v ∧ t.cast v = v ∨
      ¬t.InRange v ∧ (t.cast v % 2 ^ 128 ≠ v ∨ decide (t.cast v > 0) ≠ decide (v > 0)) := by
    rw [FixedPointType.cast, FixedPointType.InRange, hbits]
    rcases hk with ⟨hs, _, _⟩ | ⟨hs, _, _⟩
    · rw [if_pos hs]
      by_cases hv : v < k
      · exact .inl ⟨by omega, Int.bmod_eq_of_le (by omega) (by push_cast; omega)⟩
      · have h1 := Int.bmod_lt (x := v) (m := 2 * k) (by omega)
        refine .inr ⟨by omega, ?_⟩
        by_cases hb : (v : Int).bmod (2 * k) > 0
        · exact .inl (by push_cast at h1; omega)
        · exact .inr (by simp; omega)
    · rw [if_neg (by simp [hs])]
      by_cases hv : v < 2 * k
      · exact .inl ⟨by omega, by rw [Nat.mod_eq_of_lt hv]⟩
      · have := Nat.mod_lt v (y := 2 * k) (by omega)
        exact .inr ⟨by omega, .inl (by omega)⟩
  rw [Fixed.fromI129]
  congr 1
  rcases hcast with ⟨hr, he⟩ | ⟨hr, he⟩
  · rw [represent, dif_pos hr]
    simp only [he]
    rw [if_neg (by rw [not_or, not_not, not_not]; constructor <;> [omega; simp])]
    cases s
    · exact dif_pos hr
    · rfl
  · rw [represent_eq_none hr]
    exact if_pos he

-- A product of magnitudes that is divided, rounded and given a sign.
theorem multiply_bind_eq {a b c : Nat} {r : SignedRounding} {f : Nat → Option (Fixed t)}
    (ha : a < 2 ^ 128) (hb : b < 2 ^ 128) (hc : c < 2 ^ 128) (hpos : 0 < c)
    (hf : ∀ value < 2 ^ 128, f value = fromI129 t { value, negative := s }) :
    (multiplyByRationalWithRounding a b c (fromSigned r s)).bind f =
      represent t (r.exact (if s then -((a * b : ℚ) / c) else (a * b : ℚ) / c)) := by
  have hq : (0 : ℚ) ≤ (a * b : ℚ) / c := by positivity
  have hexact : r.exact (if s then -((a * b : ℚ) / c) else (a * b : ℚ) / c) =
      signedValue s ((fromSigned r s).div (a * b) c) := by
    rw [signedValue, Rounding.div_eq_exact hpos, Nat.cast_mul]
    cases s
    · exact SignedRounding.exact_of_nonneg hq
    · exact SignedRounding.exact_neg hq
  rw [hexact, multiplyByRationalWithRounding_eq ha hb hc]
  by_cases hle : 2 ^ 128 ≤ (fromSigned r s).div (a * b) c
  · obtain ⟨k, _, _, _, hk⟩ := t.bounds
    rw [if_pos (.inr hle)]
    refine (represent_eq_none fun hr => ?_).symm
    rw [FixedPointType.InRange, signedValue] at hr
    split_ifs at hr <;> omega
  · rw [if_neg (by omega)]
    exact (hf _ (Nat.not_le.mp hle)).trans fromI129_eq

theorem mul_sign (x y : Int) (c : ℚ) : (if (decide (x < 0) != decide (y < 0)) = true then
    -((x.natAbs * y.natAbs : ℚ) / c) else (x.natAbs * y.natAbs : ℚ) / c) = x * y / c := by
  by_cases hx : x < 0 <;> by_cases hy : y < 0 <;>
    simp [hx, hy, abs_of_neg, abs_of_nonneg, not_lt.mp, neg_div]

theorem div_sign (x y : Int) (c : ℚ) : (if (decide (x < 0) != decide (y < 0)) = true then
    -((x.natAbs * c : ℚ) / y.natAbs) else (x.natAbs * c : ℚ) / y.natAbs) = x * c / y := by
  by_cases hx : x < 0 <;> by_cases hy : y < 0 <;>
    simp [hx, hy, abs_of_neg, abs_of_nonneg, not_lt.mp, neg_div, div_neg]

theorem div_lt (t : FixedPointType) : t.div < 2 ^ 128 := by
  obtain ⟨k, _, _, _, _⟩ := t.bounds
  omega

theorem checkedMul_eq :
    x.checkedMul y = represent t
      (SignedRounding.minor.exact ((x.inner : ℚ) * y.inner / t.div)) := by
  rw [Fixed.checkedMul, intoI129_eq, intoI129_eq, ← mul_sign]
  exact multiply_bind_eq (natAbs_lt x) (natAbs_lt y) (div_lt t) t.div_pos fun _ _ => rfl

-- Products and quotients are rounded as told, and there is none if it is out of range.
theorem checked_mul_div_exact (x y : Fixed t) (r : SignedRounding) :
    x.constCheckedMulWithRounding y r = represent t (r.exact ((x.inner : ℚ) * y.inner / t.div)) ∧
    x.checkedRoundingDiv y r = if y.inner = 0 then none
      else represent t (r.exact ((x.inner : ℚ) * t.div / y.inner)) := by
  constructor
  · rw [Fixed.constCheckedMulWithRounding, intoI129_eq, intoI129_eq, ← mul_sign]
    exact multiply_bind_eq (natAbs_lt x) (natAbs_lt y) (div_lt t) t.div_pos fun _ =>
      constFromI129_eq
  · rw [Fixed.checkedRoundingDiv, intoI129_eq, intoI129_eq, ← div_sign]
    by_cases hy : y.inner = 0
    · rw [if_pos hy, if_pos hy]
    · rw [if_neg hy, if_neg hy]
      exact multiply_bind_eq (natAbs_lt x) (div_lt t) (natAbs_lt y) (Int.natAbs_pos.mpr hy)
        fun _ => constFromI129_eq

end Exact

def Fixed.saturate (t : FixedPointType) (n : Int) : Fixed t where
  inner := max t.min (min n t.max)
  range := by
    obtain ⟨k, _, _, _, hk⟩ := t.bounds
    rw [FixedPointType.InRange]
    omega

def Fixed.toBound (t : FixedPointType) (n m : Int) : Fixed t :=
  if decide (n < 0) ≠ decide (m < 0) then saturate t t.min else saturate t t.max

def Fixed.saturatingMul (x y : Fixed t) : Fixed t :=
  (x.checkedMul y).getD (toBound t x.inner y.inner)

def Fixed.saturatingFromInteger (t : FixedPointType) (int : Int) : Fixed t :=
  (Arithmetic.fromI129 t ⟨min (int.natAbs * t.div) (2 ^ 128 - 1), decide (int < 0)⟩).getD
    (toBound t int 0)

section Saturating

variable {n : Int}

theorem saturate_inner (h : t.InRange n) : (Fixed.saturate t n).inner = n := by
  rw [FixedPointType.InRange] at h
  change max t.min (min n t.max) = n
  omega

theorem fromInteger_inner (h : t.InRange (n * t.div)) (hn : 0 ≤ n) :
    (Fixed.saturatingFromInteger t n).inner = n * t.div := by
  obtain ⟨k, _, _, _, hk⟩ := t.bounds
  have habs : ((n.natAbs * t.div : Nat) : Int) = n * t.div := by
    rw [Nat.cast_mul, Int.natAbs_of_nonneg hn]
  have hmin : min (n.natAbs * t.div) (2 ^ 128 - 1) = n.natAbs * t.div := by
    rw [FixedPointType.InRange] at h
    omega
  rw [Fixed.saturatingFromInteger, fromI129_eq, hmin, signedValue, if_neg (by simpa using hn),
    habs, represent, dif_pos h]
  rfl

end Saturating

end Arithmetic
