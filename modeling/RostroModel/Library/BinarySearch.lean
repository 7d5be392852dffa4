import Mathlib

-- Binary search in a list of `size` elements, where `cmp i` compares the element at `i` with
-- the one that is looked for.
namespace BinarySearch

-- The loop halves the range that starts at `base` until one element is left.
def base (cmp : Nat → Ordering) : Nat → Nat → Nat → Nat
  | 0, _, start => start
  | fuel + 1, size, start =>
    if 1 < size then
      base cmp fuel (size - size / 2)
        (if cmp (start + size / 2) = .gt then start else start + size / 2)
    else
      start

-- The position of a match, or the position at which the element can be inserted.
def search (cmp : Nat → Ordering) (size : Nat) : Except Nat Nat :=
  if size = 0 then
    .error 0
  else
    let i := base cmp size size 0
    match cmp i with
    | .eq => .ok i
    | .lt => .error (i + 1)
    | .gt => .error i

-- `unwrap_or_else(|i| i)`
def position (cmp : Nat → Ordering) (size : Nat) : Nat :=
  match search cmp size with
  | .ok i => i
  | .error i => i

section Ordered

-- The elements are ordered: what is less comes before what is equal, and what is greater after it.
variable {cmp : Nat → Ordering} {size : Nat}

structure Ordered (cmp : Nat → Ordering) (size : Nat) : Prop where
  lt_of_lt : ∀ i j, i ≤ j → j < size → cmp j = .lt → cmp i = .lt
  gt_of_gt : ∀ i j, i ≤ j → j < size → cmp i = .gt → cmp j = .gt

-- The loop keeps that nothing after the range is looked for, and that its start is not greater
-- unless it is the first element.
theorem base_spec (h : Ordered cmp size) : ∀ (fuel len start : Nat), len ≤ fuel → 0 < len →
    start + len ≤ size → (∀ j, start + len ≤ j → j < size → cmp j = .gt) →
    (start = 0 ∨ cmp start ≠ .gt) →
    base cmp fuel len start < size ∧ (∀ j, base cmp fuel len start < j → j < size → cmp j = .gt) ∧
      (base cmp fuel len start = 0 ∨ cmp (base cmp fuel len start) ≠ .gt) := by
  intro fuel
  induction fuel
  case zero => intros; omega
  case succ fuel hi =>
    intro len start hf hl hs ha hb
    rw [base]
    split
    case isFalse => exact ⟨by omega, fun j hj => ha j (by omega), hb⟩
    case isTrue =>
      by_cases hm : cmp (start + len / 2) = .gt
      case pos =>
        rw [if_pos hm]
        apply hi _ _ (by omega) (by omega) (by omega)
        · intro j hj hjs
          exact h.gt_of_gt (start + len / 2) j (by omega) hjs hm
        · exact hb
      case neg =>
        rw [if_neg hm]
        apply hi _ _ (by omega) (by omega) (by omega)
        · intro j hj hjs
          exact ha j (by omega) hjs
        · exact .inr hm

-- A match is the last one. Without a match, the position separates what
-- is less from what is greater.
theorem search_spec (h : Ordered cmp size) : match search cmp size with
    | .ok i => i < size ∧ cmp i = .eq ∧ ∀ j, i < j → j < size → cmp j = .gt
    | .error i => i ≤ size ∧ (∀ j < i, cmp j = .lt) ∧ ∀ j, i ≤ j → j < size → cmp j = .gt := by
  rw [search]
  by_cases hz : size = 0
  case pos => simp [hz]
  case neg =>
    obtain ⟨hb, ha, hs⟩ := base_spec h size size 0 (le_refl _) (by omega) (by omega)
      (by omega) (.inl rfl)
    rw [if_neg hz]
    simp only
    generalize base cmp size size 0 = i at hb ha hs
    cases hc : cmp i
    case lt =>
      exact ⟨hb, fun j hj => h.lt_of_lt j i (Nat.le_of_lt_succ hj) hb hc, fun j hj => ha j hj⟩
    case eq => exact ⟨hb, hc, ha⟩
    case gt =>
      cases hs.resolve_right (by simp [hc])
      refine ⟨Nat.zero_le _, by simp, fun j hj hjs => ?_⟩
      rcases Nat.eq_or_lt_of_le hj with rfl | hj
      · exact hc
      · exact ha j hj hjs

-- What is before the position is less, and what is from it on is not, if nothing is repeated.
theorem position_spec (h : Ordered cmp size)
    (hu : ∀ i j, i < j → j < size → cmp j = .eq → cmp i = .lt) :
    position cmp size ≤ size ∧ (∀ j < position cmp size, cmp j = .lt) ∧
      ∀ j, position cmp size ≤ j → j < size → cmp j ≠ .lt := by
  have hs := search_spec h
  rw [position]
  cases hr : search cmp size
  all_goals
    rw [hr] at hs
    dsimp only at hs ⊢
  case ok i =>
    obtain ⟨hi, hc, ha⟩ := hs
    refine ⟨hi.le, fun j hj => hu j i hj hi hc, fun j hj hjs => ?_⟩
    rcases Nat.eq_or_lt_of_le hj with rfl | hj
    · simp [hc]
    · simp [ha j hj hjs]
  case error i =>
    obtain ⟨hi, hb, ha⟩ := hs
    exact ⟨hi, hb, fun j hj hjs => by simp [ha j hj hjs]⟩

end Ordered
end BinarySearch
