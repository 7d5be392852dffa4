import Mathlib

-- Bit vectors as sets of positions.
namespace BitMask

variable {w : Nat} {x y z : BitVec w}

def ones (x : BitVec w) : Finset (Fin w) :=
  Finset.univ.filter fun i => x.getLsbD i

def countOnes (x : BitVec w) : Nat :=
  (List.finRange w).countP fun i : Fin w => x.getLsbD i

@[simp]
theorem mem_ones : i ∈ ones x ↔ x.getLsbD i = true := by
  simp [ones]

theorem countOnes_eq_card : countOnes x = (ones x).card := by
  rw [countOnes, List.countP_eq_length_filter, ones, ← List.toFinset_finRange,
    ← List.toFinset_filter, List.toFinset_card_of_nodup ((List.nodup_finRange w).filter _)]

theorem ones_injective : Function.Injective (ones (w := w)) := by
  intro x y h
  apply BitVec.eq_of_getLsbD_eq
  intro i hi
  have he := Finset.ext_iff.mp h ⟨i, hi⟩
  rwa [mem_ones, mem_ones, Bool.coe_iff_coe] at he

@[simp]
theorem ones_zero : ones 0#w = ∅ := by
  ext i
  simp

theorem ones_eq_empty : ones x = ∅ ↔ x = 0#w := by
  rw [← ones_zero, ones_injective.eq_iff]

theorem ones_nonempty : (ones x).Nonempty ↔ x ≠ 0#w := by
  rw [Finset.nonempty_iff_ne_empty, Ne, ones_eq_empty]

theorem ones_and : ones (x &&& y) = ones x ∩ ones y := by
  ext i
  simp

theorem ones_or : ones (x ||| y) = ones x ∪ ones y := by
  ext i
  simp

theorem and_eq_zero_iff : x &&& y = 0#w ↔ Disjoint (ones x) (ones y) := by
  rw [← ones_eq_empty, ones_and, Finset.disjoint_iff_inter_eq_empty]

theorem and_not_eq_zero_iff : x &&& ~~~y = 0#w ↔ ones x ⊆ ones y := by
  rw [← ones_eq_empty, Finset.eq_empty_iff_forall_notMem]
  simp only [mem_ones, BitVec.getLsbD_and, BitVec.getLsbD_not, Finset.subset_iff, Bool.and_eq_true,
    Bool.not_eq_true', decide_eq_true_eq, not_and, Bool.not_eq_false]
  constructor <;> intro h i hi
  · exact h i hi i.2
  · intro _
    exact h hi

theorem ones_xor : ones (x ^^^ y) = (ones x \ ones y) ∪ (ones y \ ones x) := by
  ext i
  simp only [mem_ones, BitVec.getLsbD_xor, Finset.mem_union, Finset.mem_sdiff]
  cases x.getLsbD i <;> cases y.getLsbD i <;> simp

theorem ones_xor_of_subset (h : ones y ⊆ ones x) : ones (x ^^^ y) = ones x \ ones y := by
  rw [ones_xor, Finset.sdiff_eq_empty_iff_subset.mpr h, Finset.union_empty]

theorem countOnes_pos : 0 < countOnes x ↔ x ≠ 0#w := by
  rw [countOnes_eq_card, Finset.card_pos, ones_nonempty]

theorem countOnes_le : countOnes x ≤ w := by
  rw [countOnes_eq_card]
  exact (Finset.card_le_univ _).trans_eq (Fintype.card_fin w)

theorem countOnes_or (h : x &&& y = 0#w) : countOnes (x ||| y) = countOnes x + countOnes y := by
  simp only [countOnes_eq_card, ones_or]
  exact Finset.card_union_of_disjoint (and_eq_zero_iff.mp h)

theorem and_or_eq_zero : x &&& (y ||| z) = 0#w ↔ x &&& y = 0#w ∧ x &&& z = 0#w := by
  simp only [and_eq_zero_iff, ones_or, Finset.disjoint_union_right]

-- What a list of masks covers.
def union (l : List (BitVec w)) : BitVec w :=
  l.foldl (· ||| ·) 0#w

theorem foldl_or (l : List (BitVec w)) (x : BitVec w) : l.foldl (· ||| ·) x = x ||| union l := by
  induction l generalizing x
  case nil => simp [union]
  case cons y l hi =>
    have he : union (y :: l) = y ||| union l := by
      rw [union, List.foldl_cons, hi, BitVec.zero_or]
    rw [List.foldl_cons, hi, he, BitVec.or_assoc]

@[simp]
theorem union_nil : union ([] : List (BitVec w)) = 0#w :=
  rfl

theorem union_cons (l : List (BitVec w)) : union (x :: l) = x ||| union l := by
  rw [union, List.foldl_cons, foldl_or, BitVec.zero_or]

theorem and_union_eq_zero : x &&& union l = 0#w ↔ ∀ y ∈ l, x &&& y = 0#w := by
  induction l
  case nil => simp
  case cons y l hi => simp [union_cons, and_or_eq_zero, hi]

def Disjoints (l : List (BitVec w)) : Prop :=
  l.Pairwise fun x y => x &&& y = 0#w

theorem Disjoints.sum_countOnes (h : Disjoints l) :
    (l.map countOnes).sum = countOnes (union l) := by
  induction l
  case nil => simp [countOnes]
  case cons y l hi =>
    rw [Disjoints, List.pairwise_cons] at h
    rw [List.map_cons, List.sum_cons, hi h.2, union_cons, countOnes_or (and_union_eq_zero.mpr h.1)]

theorem Disjoints.sum_le {l : List (BitVec w)} (h : Disjoints l) : (l.map countOnes).sum ≤ w :=
  h.sum_countOnes.trans_le countOnes_le

theorem Disjoints.length_le (h : Disjoints l) (hn : ∀ x ∈ l, x ≠ 0#w) : l.length ≤ w := by
  have hl : (l.map countOnes).length • 1 ≤ (l.map countOnes).sum := by
    apply List.card_nsmul_le_sum
    intro n hx
    obtain ⟨x, hm, rfl⟩ := List.mem_map.mp hx
    exact countOnes_pos.mpr (hn x hm)
  rw [List.length_map, smul_eq_mul, Nat.mul_one] at hl
  exact hl.trans h.sum_le

end BitMask
