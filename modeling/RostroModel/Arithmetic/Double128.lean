import Mathlib.Tactic.Ring
import RostroModel.Library.Machine
import RostroModel.Library.Rounding

namespace Arithmetic

-- Computations with numbers of 128 bits. The flag tells whether a result did not fit so far, and
-- nothing is returned if a loop runs out of rounds.
abbrev Flagged := StateT Bool Option

def wrapped (n : Nat) : Flagged Nat := fun overflow =>
  some (n % 2 ^ 128, overflow || decide (2 ^ 128 ≤ n))

def low64 (a : Nat) : Nat := a % 2 ^ 64

def high64 (a : Nat) : Nat := a / 2 ^ 64

def neg128 (a : Nat) : Flagged Nat := wrapped (2 ^ 128 - 1 - a + 1)

def div128 (a : Nat) : Flagged Nat := do wrapped ((← neg128 a) / a + 1)

def mod128 (a : Nat) : Flagged Nat := do return (← neg128 a) % a

structure Double128 where
  high : Nat
  low : Nat

namespace Double128

def tryIntoU128 (a : Double128) : Option Nat :=
  if a.high = 0 then some a.low else none

def leftShift64 (scaledValue : Nat) : Double128 :=
  ⟨scaledValue / 2 ^ 64, scaledValue * 2 ^ 64 % 2 ^ 128⟩

-- The lower halves are meant to overflow into the carry.
def add (a b : Double128) : Flagged Double128 := do
  let carry := (a.low + b.low) / 2 ^ 128
  let high ← wrapped (a.high + b.high)
  return ⟨← wrapped (high + carry), (a.low + b.low) % 2 ^ 128⟩

def productOf (a b : Nat) : Flagged Double128 := do
  let f ← wrapped (low64 a * low64 b)
  let o ← wrapped (low64 a * high64 b)
  let i ← wrapped (high64 a * low64 b)
  let l ← wrapped (high64 a * high64 b)
  let fl ← add ⟨l, f⟩ (leftShift64 i)
  add fl (leftShift64 o)

def divLoop (q r : Nat) : Nat → Double128 → Double128 → Flagged (Double128 × Double128)
  | 0, _, _ => failure
  | rounds + 1, x, a =>
    if a.high = 0 then return (x, a)
    else do
      let x ← add x (← productOf a.high q)
      let a ← add (← productOf a.high r) ⟨0, a.low⟩
      divLoop q r rounds x a

-- Each round makes the number smaller.
def div (a : Double128) (rhs : Nat) : Flagged (Double128 × Nat) :=
  if rhs = 1 then return (a, 0)
  else do
    let q ← div128 rhs
    let r ← mod128 rhs
    let (x, a) ← divLoop q r (a.high * 2 ^ 128 + a.low + 1) ⟨0, 0⟩ a
    return (← add x ⟨0, a.low / rhs⟩, a.low % rhs)

end Double128

open Double128

-- `multiply_by_rational_with_rounding` with the flag.
def multiplyFlagged (a b c : Nat) (r : Rounding) : Flagged (Option Nat) :=
  if c = 0 then return none
  else do
    let (result, remainder) ← div (← productOf a b) c
    match tryIntoU128 result with
    | none => return none
    | some v => return if r.roundsUp remainder c then Machine.checkedAdd 128 v 1 else some v

def multiplyByRationalWithRounding (a b c : Nat) (r : Rounding) : Option Nat :=
  (multiplyFlagged a b c r false).bind Prod.fst

section Exact

variable {a b c m n k q r : Nat} {o : Bool}

theorem bind_eq {x : Flagged α} {f : α → Flagged β} (h : x o = some (v, o)) :
    (x >>= f) o = f v o := by
  change (x o).bind (fun p => f p.1 p.2) = f v o
  rw [h]
  rfl

theorem wrapped_eq (h : n < 2 ^ 128) : wrapped n o = some (n, o) := by
  rw [wrapped, Nat.mod_eq_of_lt h, decide_eq_false (by omega), Bool.or_false]

theorem neg128_eq (h : 0 < a) (ha : a < 2 ^ 128) : neg128 a o = some (2 ^ 128 - a, o) := by
  rw [neg128, wrapped_eq (by omega)]
  congr 2
  omega

theorem div128_eq (h : 1 < a) (ha : a < 2 ^ 128) : div128 a o = some (2 ^ 128 / a, o) := by
  have hdiv : (2 ^ 128 - a) / a + 1 = 2 ^ 128 / a := by
    rw [← Nat.add_div_right _ (by omega), Nat.sub_add_cancel ha.le]
  have hlt : 2 ^ 128 / a < 2 ^ 128 := Nat.div_lt_self (by decide) h
  rw [div128, bind_eq (neg128_eq (by omega) ha), hdiv, wrapped_eq hlt]

theorem mod128_eq (h : 0 < a) (ha : a < 2 ^ 128) : mod128 a o = some (2 ^ 128 % a, o) := by
  rw [mod128, bind_eq (neg128_eq h ha), Nat.mod_eq_sub_mod ha.le]
  rfl

def halves (n : Nat) : Double128 := ⟨n / 2 ^ 128, n % 2 ^ 128⟩

@[simp]
theorem halves_high : (halves n).high = n / 2 ^ 128 := rfl

@[simp]
theorem halves_low : (halves n).low = n % 2 ^ 128 := rfl

theorem halves_mk (h : n < 2 ^ 128) : halves (m * 2 ^ 128 + n) = ⟨m, n⟩ := by
  rw [halves]
  congr 1 <;> omega

theorem halves_of_lt (h : n < 2 ^ 128) : halves n = ⟨0, n⟩ := by
  rw [← halves_mk h, Nat.zero_mul, Nat.zero_add]

theorem tryIntoU128_halves : (halves n).tryIntoU128 = if n < 2 ^ 128 then some n else none := by
  by_cases h : n < 2 ^ 128
  · rw [halves_of_lt h, if_pos h]
    rfl
  · rw [if_neg h, tryIntoU128, if_neg (by rw [halves_high]; omega)]

theorem add_halves (h : m + n < 2 ^ 256) :
    add (halves m) (halves n) o = some (halves (m + n), o) := by
  have hhigh : m / 2 ^ 128 + n / 2 ^ 128 + (m % 2 ^ 128 + n % 2 ^ 128) / 2 ^ 128 =
      (m + n) / 2 ^ 128 := by omega
  have hlt : (m + n) / 2 ^ 128 < 2 ^ 128 := by omega
  rw [add, bind_eq (wrapped_eq (by simp only [halves]; omega))]
  simp only [halves]
  rw [hhigh, bind_eq (wrapped_eq hlt), ← Nat.add_mod]
  rfl

theorem leftShift64_eq : leftShift64 n = halves (n * 2 ^ 64) := by
  rw [leftShift64]
  congr 1
  omega

theorem product_lt (ha : a < 2 ^ 128) (hb : b < 2 ^ 128) : a * b < 2 ^ 256 :=
  (Nat.mul_lt_mul'' ha hb).trans_eq (by decide)

theorem productOf_eq (ha : a < 2 ^ 128) (hb : b < 2 ^ 128) :
    productOf a b o = some (halves (a * b), o) := by
  have hfit {x y : Nat} (hx : x < 2 ^ 64) (hy : y < 2 ^ 64) : x * y < 2 ^ 128 :=
    (Nat.mul_lt_mul'' hx hy).trans_eq (by decide)
  have hsum : high64 a * high64 b * 2 ^ 128 + low64 a * low64 b + high64 a * low64 b * 2 ^ 64 +
      low64 a * high64 b * 2 ^ 64 = a * b := by
    conv_rhs => rw [← Nat.div_add_mod a (2 ^ 64), ← Nat.div_add_mod b (2 ^ 64)]
    rw [high64, high64, low64, low64]
    ring
  have hlt : a * b < 2 ^ 256 := product_lt ha hb
  have hla : low64 a < 2 ^ 64 := Nat.mod_lt _ (by decide)
  have hlb : low64 b < 2 ^ 64 := Nat.mod_lt _ (by decide)
  have hha : high64 a < 2 ^ 64 := Nat.div_lt_of_lt_mul ha
  have hhb : high64 b < 2 ^ 64 := Nat.div_lt_of_lt_mul hb
  rw [productOf, bind_eq (wrapped_eq (hfit hla hlb)), bind_eq (wrapped_eq (hfit hla hhb)),
    bind_eq (wrapped_eq (hfit hha hlb)), bind_eq (wrapped_eq (hfit hha hhb)),
    ← halves_mk (hfit hla hlb), leftShift64_eq, leftShift64_eq, bind_eq (add_halves (by omega)),
    add_halves (by omega), hsum]

-- Every round replaces `2 ^ 128` by its quotient and remainder, which keeps the sum.
theorem divLoop_eq {rounds : Nat} (hq : q < 2 ^ 128) (hr : r < 2 ^ 128) (hc : q * c + r = 2 ^ 128)
    (hn : n < rounds) (hlt : m * c + n < 2 ^ 256) (hpos : 0 < c) :
    ∃ m' n', divLoop q r rounds (halves m) (halves n) o = some ((halves m', halves n'), o) ∧
      n' < 2 ^ 128 ∧ m' * c + n' = m * c + n := by
  induction rounds generalizing m n
  case zero => exact absurd hn (Nat.not_lt_zero n)
  case succ rounds hi =>
    rw [divLoop, halves_high, halves_low]
    have hsplit := Nat.div_add_mod' n (2 ^ 128)
    have hl : n % 2 ^ 128 < 2 ^ 128 := Nat.mod_lt _ (by decide)
    have hh : n / 2 ^ 128 < 2 ^ 128 := by omega
    generalize n / 2 ^ 128 = h at hsplit hh ⊢
    generalize n % 2 ^ 128 = l at hsplit hl ⊢
    by_cases hz : h = 0
    case pos =>
      rw [if_pos hz]
      exact ⟨m, n, rfl, by omega, rfl⟩
    case neg =>
      have hsum : (m + h * q) * c + (h * r + l) = m * c + n := by
        rw [← hsplit, ← hc]
        ring
      have hless : h * r + l < n := by
        have := Nat.mul_lt_mul_of_pos_left hr (Nat.pos_of_ne_zero hz)
        omega
      have hm : m + h * q ≤ (m + h * q) * c := Nat.le_mul_of_pos_right _ hpos
      obtain ⟨m', n', hloop, hn', heq⟩ := hi (hless.trans_le (Nat.le_of_lt_succ hn)) (hsum ▸ hlt)
      refine ⟨m', n', ?_, hn', heq.trans hsum⟩
      rw [if_neg hz, bind_eq (productOf_eq hh hq), bind_eq (add_halves (by omega)),
        bind_eq (productOf_eq hh hr), ← halves_of_lt hl, bind_eq (add_halves (by omega))]
      exact hloop

theorem div_eq (hc : 0 < c) (hlt : c < 2 ^ 128) (hn : n < 2 ^ 256) :
    div (halves n) c o = some ((halves (n / c), n % c), o) := by
  rw [div]
  by_cases hone : c = 1
  case pos =>
    subst hone
    rw [Nat.div_one, Nat.mod_one]
    rfl
  case neg =>
    have hq : 2 ^ 128 / c < 2 ^ 128 := Nat.div_lt_self (by decide) (by omega)
    have hr : 2 ^ 128 % c < 2 ^ 128 := (Nat.mod_lt _ hc).trans hlt
    have hround : n < (halves n).high * 2 ^ 128 + (halves n).low + 1 := by
      rw [halves_high, halves_low]; omega
    obtain ⟨m', n', hloop, hn', heq⟩ :=
      divLoop_eq (m := 0) (o := o) hq hr (Nat.div_add_mod' _ c) hround
      (by omega) hc
    have hdiv : m' + n' / c = n / c := by
      rw [← Nat.mul_add_div hc, Nat.mul_comm, heq, Nat.zero_mul, Nat.zero_add]
    have hmod : n' % c = n % c := by
      rw [← Nat.mul_add_mod c m', Nat.mul_comm, heq, Nat.zero_mul, Nat.zero_add]
    have hlow : (halves n').low = n' := Nat.mod_eq_of_lt hn'
    have hsmall : n' / c < 2 ^ 128 := (Nat.div_le_self n' c).trans_lt hn'
    have hle := Nat.div_le_self n c
    rw [if_neg hone, bind_eq (div128_eq (by omega) hlt),
      bind_eq (mod128_eq hc hlt), ← halves_of_lt (n := 0) (by decide), bind_eq hloop]
    simp only [hlow]
    rw [← halves_of_lt hsmall, bind_eq (add_halves (by omega)), hdiv, hmod]
    rfl

theorem multiplyFlagged_eq (ha : a < 2 ^ 128) (hb : b < 2 ^ 128) (hc : c < 2 ^ 128) {r : Rounding} :
    multiplyFlagged a b c r o = some (if c = 0 ∨ 2 ^ 128 ≤ r.div (a * b) c then none
      else some (r.div (a * b) c), o) := by
  rw [multiplyFlagged]
  by_cases hz : c = 0
  case pos =>
    rw [if_pos hz, if_pos (.inl hz)]
    rfl
  case neg =>
    rw [if_neg hz, bind_eq (productOf_eq ha hb),
      bind_eq (div_eq (Nat.pos_of_ne_zero hz) hc (product_lt ha hb)), Rounding.div]
    simp only [hz, false_or, tryIntoU128_halves]
    generalize a * b / c = k
    generalize r.roundsUp (a * b % c) c = up
    split
    case isTrue hk =>
      cases up
      case false =>
        rw [if_neg (by simpa using hk)]
        rfl
      case true =>
        change some (Machine.checkedAdd 128 k 1, o) = _
        rw [Machine.checkedAdd, Machine.maxValue, if_pos rfl]
        split_ifs <;> first | rfl | omega
    case isFalse hk =>
      rw [if_pos (le_add_right (Nat.not_lt.mp hk))]
      rfl

theorem multiplyByRationalWithRounding_eq (ha : a < 2 ^ 128) (hb : b < 2 ^ 128) (hc : c < 2 ^ 128)
    {r : Rounding} :
    multiplyByRationalWithRounding a b c r = if c = 0 ∨ 2 ^ 128 ≤ r.div (a * b) c then none
      else some (r.div (a * b) c) := by
  rw [multiplyByRationalWithRounding, multiplyFlagged_eq ha hb hc]
  rfl

-- The loop ends, nothing overflows, and the result is the rounded quotient if that fits.
theorem multiply_rational_exact (a b c : Fin (2 ^ 128)) (r : Rounding) :
    multiplyFlagged a b c r false = some (multiplyByRationalWithRounding a b c r, false) ∧
    (multiplyByRationalWithRounding a b c r = none ↔
      c = 0 ∨ 2 ^ 128 ≤ r.exact ((a.val : ℚ) * b.val / c.val)) ∧
    ∀ v, multiplyByRationalWithRounding a b c r = some v →
      (v : ℤ) = r.exact ((a.val : ℚ) * b.val / c.val) := by
  have hexact (hc : c.val ≠ 0) : (r.div (a * b) c : ℤ) = r.exact ((a.val : ℚ) * b.val / c.val) := by
    rw [Rounding.div_eq_exact (Nat.pos_of_ne_zero hc), Nat.cast_mul]
  have hzero : c = 0 ↔ c.val = 0 := Fin.ext_iff
  rw [multiplyByRationalWithRounding_eq a.isLt b.isLt c.isLt,
    multiplyFlagged_eq a.isLt b.isLt c.isLt, hzero]
  refine ⟨rfl, ?_, fun v hv => ?_⟩
  · by_cases hc : c.val = 0
    · simp [hc]
    · rw [← hexact hc]
      simp only [ite_eq_left_iff, reduceCtorEq, imp_false, not_not]
      exact_mod_cast Iff.rfl
  · split_ifs at hv with h
    cases hv
    exact hexact fun hc => h (.inl hc)

end Exact

end Arithmetic
