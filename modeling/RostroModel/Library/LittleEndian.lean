import Mathlib

abbrev Bytes := List UInt8

namespace LittleEndian

-- The `width` least significant bytes of `n`, the least significant one first.
def bytes : (width : Nat) → (n : Nat) → Bytes
  | 0, _ => []
  | width + 1, n => UInt8.ofNat (n % 256) :: bytes width (n / 256)

def value : Bytes → Nat
  | [] => 0
  | b :: bs => b.toNat + 256 * value bs

@[simp]
theorem bytes_length (width n : Nat) : (bytes width n).length = width := by
  induction width generalizing n <;> simp [bytes, *]

theorem value_bytes (h : n < 256 ^ width) : value (bytes width n) = n := by
  induction width generalizing n
  case zero => simp at h; simp [bytes, value, h]
  case succ width hi =>
    have hd : n / 256 < 256 ^ width := by
      apply Nat.div_lt_of_lt_mul
      rw [Nat.pow_succ] at h
      linarith
    simp only [bytes, value, hi hd]
    have hb : (UInt8.ofNat (n % 256)).toNat = n % 256 := by simp
    omega

theorem bytes_value (bs : Bytes) : bytes bs.length (value bs) = bs := by
  induction bs
  case nil => rfl
  case cons b bs hi =>
    have hb := b.toNat_lt
    have hm : (b.toNat + 256 * value bs) % 256 = b.toNat := by omega
    have hq : (b.toNat + 256 * value bs) / 256 = value bs := by omega
    simp only [List.length_cons, bytes, value, hm, hq, hi, UInt8.ofNat_toNat]

end LittleEndian
