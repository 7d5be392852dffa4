import Mathlib.Data.Rat.Floor
import Mathlib.Tactic.Linarith
import Mathlib.Tactic.Positivity

-- Quotients of natural numbers that are rounded one way or the other.
inductive Rounding
  | up
  | down
  | nearestPrefDown
  | nearestPrefUp

namespace Rounding

variable {n d k : Nat}

def roundsUp (r : Rounding) (remainder d : Nat) : Bool :=
  match r with
  | up => remainder > 0
  | nearestPrefUp => remainder ≥ d / 2 + d % 2
  | nearestPrefDown => remainder > d / 2
  | down => false

def div (r : Rounding) (n d : Nat) : Nat :=
  n / d + if r.roundsUp (n % d) d then 1 else 0

theorem down_div : down.div n d = n / d := rfl

theorem up_div_of_dvd (h : d ∣ n) : up.div n d = n / d := by
  rw [div, Nat.mod_eq_zero_of_dvd h]
  rfl

theorem up_div_of_not_dvd (h : ¬ d ∣ n) : up.div n d = n / d + 1 := by
  have hpos : 0 < n % d := Nat.pos_of_ne_zero fun h0 => h (Nat.dvd_of_mod_eq_zero h0)
  rw [div, roundsUp, if_pos (decide_eq_true hpos)]

theorem up_div_le_iff (hd : 0 < d) : up.div n d ≤ k ↔ n ≤ d * k := by
  by_cases h : d ∣ n
  · rw [up_div_of_dvd h]
    obtain ⟨m, rfl⟩ := h
    rw [Nat.mul_div_cancel_left m hd]
    exact (Nat.mul_le_mul_left_iff hd).symm
  · rw [up_div_of_not_dvd h, Nat.succ_le_iff, Nat.div_lt_iff_lt_mul hd, Nat.mul_comm]
    constructor
    · exact Nat.le_of_lt
    · intro hle
      refine lt_of_le_of_ne hle ?_
      rintro rfl
      exact h (Nat.dvd_mul_right d k)

theorem up_div_eq (hd : 0 < d) : up.div n d = (n + (d - 1)) / d := by
  refine le_antisymm ?_ ?_
  · rw [up_div_le_iff hd]
    have hmod := Nat.mod_lt (n + (d - 1)) hd
    have hdiv := Nat.div_add_mod (n + (d - 1)) d
    omega
  · refine Nat.le_of_lt_succ ((Nat.div_lt_iff_lt_mul hd).mpr ?_)
    have hle := (up_div_le_iff hd).mp (le_refl (up.div n d))
    rw [Nat.succ_mul, Nat.mul_comm]
    omega

theorem div_eq_up_div_iff : n / d = up.div n d ↔ d ∣ n := by
  by_cases h : d ∣ n
  · rw [up_div_of_dvd h]
    exact ⟨fun _ => h, fun _ => rfl⟩
  · rw [up_div_of_not_dvd h]
    exact ⟨fun heq => absurd heq (Nat.ne_of_lt (Nat.lt_succ_self _)), fun hd => absurd hd h⟩

-- What each way of rounding makes of a rational number.
def exact (r : Rounding) (q : ℚ) : ℤ :=
  match r with
  | up => ⌈q⌉
  | down => ⌊q⌋
  | nearestPrefUp => ⌊q + 1 / 2⌋
  | nearestPrefDown => ⌈q - 1 / 2⌉

theorem div_eq_exact {r : Rounding} (hd : 0 < d) : (r.div n d : ℤ) = r.exact (n / d) := by
  have hpos : (0 : ℚ) < d := by exact_mod_cast hd
  have hq : (n : ℚ) / d = ↑(n / d) + ↑(n % d) / d := by
    rw [← sub_eq_iff_eq_add', div_sub' hpos.ne']
    congr 1
    rw [sub_eq_iff_eq_add']
    exact_mod_cast (Nat.div_add_mod n d).symm
  have hlt : ((n % d : ℕ) : ℚ) / d < 1 := (div_lt_one hpos).mpr (by exact_mod_cast Nat.mod_lt n hd)
  have hle : (0 : ℚ) ≤ ↑(n % d) / d := by positivity
  -- The fraction compared with zero and with a half.
  have hzero : ((n % d : ℕ) : ℚ) / d ≤ 0 ↔ n % d ≤ 0 := by
    rw [div_le_iff₀ hpos, zero_mul]
    exact_mod_cast Iff.rfl
  have hup : (1 / 2 : ℚ) ≤ ↑(n % d) / d ↔ d ≤ n % d * 2 := by
    rw [div_le_div_iff₀ two_pos hpos, one_mul]
    exact_mod_cast Iff.rfl
  have hdown : ((n % d : ℕ) : ℚ) / d ≤ 1 / 2 ↔ n % d * 2 ≤ d := by
    rw [div_le_div_iff₀ hpos two_pos, one_mul]
    exact_mod_cast Iff.rfl
  rw [div, eq_comm, hq]
  generalize n / d = k
  cases r <;> simp only [exact, roundsUp, Int.ceil_eq_iff, Int.floor_eq_iff, decide_eq_true_eq,
    Bool.false_eq_true]
  case down =>
    rw [if_neg not_false]
    constructor <;> push_cast <;> linarith
  all_goals split_ifs with h
  · have := mt hzero.mp (by omega)
    constructor <;> push_cast <;> linarith
  · have := hzero.mpr (by omega)
    constructor <;> push_cast <;> linarith
  · have := mt hdown.mp (by omega)
    constructor <;> push_cast <;> linarith
  · have := hdown.mpr (by omega)
    constructor <;> push_cast <;> linarith
  · have := hup.mpr (by omega)
    constructor <;> push_cast <;> linarith
  · have := mt hup.mp (by omega)
    constructor <;> push_cast <;> linarith

end Rounding
