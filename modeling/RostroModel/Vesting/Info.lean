import RostroModel.Library.Machine

namespace Vesting

open Machine

-- The amount that a schedule locks, and how much of it gets unlocked in
-- every block from the start on.
structure VestingInfo where
  locked : Nat
  rawPerBlock : Nat
  startingBlock : Nat
  deriving DecidableEq

namespace VestingInfo

def isValid (s : VestingInfo) : Prop :=
  s.locked ≠ 0 ∧ s.rawPerBlock ≠ 0

instance {s : VestingInfo} : Decidable s.isValid :=
  inferInstanceAs (Decidable (_ ∧ _))

def perBlock (s : VestingInfo) : Nat :=
  max s.rawPerBlock 1

-- Balances are `w` bits wide.
def lockedAt (w : Nat) (s : VestingInfo) (n : Nat) : Nat :=
  match checkedMul w (n - s.startingBlock) s.perBlock with
  | some toUnlock => s.locked - toUnlock
  | none => 0

def duration (s : VestingInfo) : Nat :=
  if s.perBlock ≥ s.locked then
    1
  else
    s.locked / s.perBlock + if s.locked % s.perBlock = 0 then 0 else 1

def endingBlockAsBalance (w : Nat) (s : VestingInfo) : Nat :=
  saturatingAdd w s.startingBlock s.duration

end VestingInfo

def mergeVestingInfo (w now : Nat) (schedule₁ schedule₂ : VestingInfo) : Option VestingInfo :=
  let end₁ := schedule₁.endingBlockAsBalance w
  let end₂ := schedule₂.endingBlockAsBalance w
  if end₁ ≤ now ∧ end₂ ≤ now then
    none
  else if end₁ ≤ now then
    some schedule₂
  else if end₂ ≤ now then
    some schedule₁
  else
    let locked := saturatingAdd w (schedule₁.lockedAt w now) (schedule₂.lockedAt w now)
    let endingBlock := max end₁ end₂
    let startingBlock := max (max now schedule₁.startingBlock) schedule₂.startingBlock
    let duration := max (endingBlock - startingBlock) 1
    some ⟨locked, max (locked / duration) 1, startingBlock⟩

namespace VestingInfo

variable {w n now t : Nat} {s s₁ s₂ m : VestingInfo}

theorem perBlock_pos : 0 < s.perBlock :=
  Nat.lt_of_lt_of_le Nat.one_pos (le_max_right _ _)

-- A product that does not fit is more than what is locked.
theorem lockedAt_eq (h : s.locked ≤ maxValue w) :
    s.lockedAt w n = s.locked - (n - s.startingBlock) * s.perBlock := by
  rw [lockedAt, checkedMul]
  split_ifs with hm
  · rfl
  · exact (Nat.sub_eq_zero_of_le (by omega)).symm

theorem lockedAt_anti (h : s.locked ≤ maxValue w) (ht : n ≤ t) :
    s.lockedAt w t ≤ s.lockedAt w n := by
  rw [lockedAt_eq h, lockedAt_eq h]
  apply Nat.sub_le_sub_left
  exact Nat.mul_le_mul_right _ (Nat.sub_le_sub_right ht _)

theorem lockedAt_le (h : s.locked ≤ maxValue w) : s.lockedAt w n ≤ s.locked := by
  rw [lockedAt_eq h]
  exact Nat.sub_le _ _

theorem le_duration_mul : s.locked ≤ s.duration * s.perBlock := by
  unfold duration
  have hd := Nat.div_add_mod' s.locked s.perBlock
  have hm := Nat.mod_lt s.locked (@perBlock_pos s)
  split_ifs with hp h0
  · rw [Nat.one_mul]
    exact hp
  · rw [Nat.add_zero]
    omega
  · rw [Nat.add_mul]
    omega

theorem pred_duration_mul_lt (h : 0 < s.locked) : (s.duration - 1) * s.perBlock < s.locked := by
  unfold duration
  have hd := Nat.div_add_mod' s.locked s.perBlock
  have hp := @perBlock_pos s
  split_ifs with hle h0
  · rw [Nat.zero_mul]
    exact h
  · rw [Nat.add_zero, Nat.sub_mul]
    omega
  · rw [Nat.add_sub_cancel]
    omega

theorem duration_pos : 0 < s.duration := by
  unfold duration
  split_ifs with hle h0
  · exact Nat.one_pos
  · rw [Nat.add_zero]
    exact Nat.div_pos (by omega) perBlock_pos
  · exact Nat.succ_pos _

theorem duration_le : s.duration ≤ max s.locked 1 := by
  unfold duration
  have hd := Nat.div_add_mod' s.locked s.perBlock
  have hp := @perBlock_pos s
  have hq : s.locked / s.perBlock ≤ s.locked / s.perBlock * s.perBlock :=
    Nat.le_mul_of_pos_right _ hp
  split_ifs with hle h0
  · exact le_max_right _ _
  · omega
  · omega

variable (h : s.locked ≤ maxValue w)
include h

theorem lockedAt_from (hn : s.startingBlock ≤ n) (ht : n ≤ t) :
    s.lockedAt w t = s.lockedAt w n - (t - n) * s.perBlock := by
  have hsum : t - s.startingBlock = n - s.startingBlock + (t - n) := by omega
  rw [lockedAt_eq h, lockedAt_eq h, Nat.sub_sub, ← Nat.add_mul, hsum]

theorem lockedAt_le_mul (hn : s.startingBlock ≤ n)
    (hf : s.startingBlock + s.duration ≤ fin) : s.lockedAt w n ≤ (fin - n) * s.perBlock := by
  rw [lockedAt_eq h]
  apply Nat.sub_le_of_le_add
  rw [← Nat.add_mul]
  apply le_duration_mul.trans
  exact Nat.mul_le_mul_right _ (by omega)

theorem remaining_le (hl : 0 < s.locked) (hn : s.startingBlock ≤ n)
    (hf : n < s.startingBlock + s.duration) :
    s.startingBlock + s.duration - n ≤ s.lockedAt w n := by
  obtain ⟨r, hr⟩ : ∃ r, s.duration - 1 = n - s.startingBlock + r :=
    ⟨s.startingBlock + s.duration - n - 1, by omega⟩
  have hlt := @pred_duration_mul_lt s hl
  rw [hr, Nat.add_mul] at hlt
  have hp : r ≤ r * s.perBlock := Nat.le_mul_of_pos_right r perBlock_pos
  rw [lockedAt_eq h]
  omega

end VestingInfo

-- A line that is steep enough to be unlocked within `d` blocks lies below the chord.
theorem mul_line_le {d u l p : Nat} (h : l ≤ d * p) : d * (l - u * p) ≤ (d - u) * l := by
  rw [Nat.mul_sub, Nat.sub_mul]
  apply Nat.sub_le_sub_left
  calc u * l ≤ u * (d * p) := Nat.mul_le_mul_left u h
    _ = d * (u * p) := Nat.mul_left_comm u d p

-- Two lines that end within `d` blocks lie below one that ends no earlier.
theorem lines_le_line {d u l l1 l2 p1 p2 q : Nat} (h1 : l1 ≤ d * p1) (h2 : l2 ≤ d * p2)
    (hl : l1 + l2 ≤ l) (hq : q * d ≤ l) : (l1 - u * p1) + (l2 - u * p2) ≤ l - u * q := by
  by_cases hu : u < d
  · apply Nat.le_of_mul_le_mul_left _ (Nat.zero_lt_of_lt hu)
    calc d * ((l1 - u * p1) + (l2 - u * p2))
        = d * (l1 - u * p1) + d * (l2 - u * p2) := Nat.mul_add _ _ _
      _ ≤ (d - u) * l1 + (d - u) * l2 := Nat.add_le_add (mul_line_le h1) (mul_line_le h2)
      _ = (d - u) * (l1 + l2) := (Nat.mul_add _ _ _).symm
      _ ≤ (d - u) * l := Nat.mul_le_mul_left _ hl
      _ = d * l - u * l := Nat.sub_mul _ _ _
      _ ≤ d * l - d * (u * q) := by
        apply Nat.sub_le_sub_left
        calc d * (u * q) = u * (q * d) := by ring
          _ ≤ u * l := Nat.mul_le_mul_left u hq
      _ = d * (l - u * q) := (Nat.mul_sub _ _ _).symm
  · have hdu : d ≤ u := Nat.le_of_not_lt hu
    rw [Nat.sub_eq_zero_of_le (h1.trans (Nat.mul_le_mul_right p1 hdu)),
      Nat.sub_eq_zero_of_le (h2.trans (Nat.mul_le_mul_right p2 hdu))]
    exact Nat.zero_le _

section Merge

variable {w now : Nat} {s s₁ s₂ : VestingInfo}

-- Nothing overflows when the end of the schedule is computed.
structure VestingInfo.Fits (w : Nat) (s : VestingInfo) : Prop where
  locked : s.locked ≤ maxValue w
  ending : s.startingBlock + s.duration ≤ maxValue w

theorem VestingInfo.Fits.endingBlock (h : s.Fits w) :
    s.endingBlockAsBalance w = s.startingBlock + s.duration :=
  saturatingAdd_of_le h.ending

theorem mergeVestingInfo_of_running (h1 : now < s₁.endingBlockAsBalance w)
    (h2 : now < s₂.endingBlockAsBalance w)
    (hs : s₁.lockedAt w now + s₂.lockedAt w now ≤ maxValue w) :
    mergeVestingInfo w now s₁ s₂ = some
      ⟨s₁.lockedAt w now + s₂.lockedAt w now, max ((s₁.lockedAt w now + s₂.lockedAt w now) /
        max (max (s₁.endingBlockAsBalance w) (s₂.endingBlockAsBalance w) -
          max (max now s₁.startingBlock) s₂.startingBlock) 1) 1,
       max (max now s₁.startingBlock) s₂.startingBlock⟩ := by
  have hn1 : ¬ s₁.endingBlockAsBalance w ≤ now := Nat.not_le_of_lt h1
  have hn2 : ¬ s₂.endingBlockAsBalance w ≤ now := Nat.not_le_of_lt h2
  rw [mergeVestingInfo]
  rw [if_neg (fun h => hn1 h.1), if_neg hn1, if_neg hn2, saturatingAdd_of_le hs]

variable (hf1 : s₁.Fits w) (hf2 : s₂.Fits w) (hv1 : s₁.isValid) (hv2 : s₂.isValid)
include hf1 hf2 hv1 hv2

theorem remaining_le_sum (hs1 : s₁.startingBlock ≤ start) (hs2 : s₂.startingBlock ≤ start)
    (hlt : start < max (s₁.startingBlock + s₁.duration) (s₂.startingBlock + s₂.duration)) :
    max (s₁.startingBlock + s₁.duration) (s₂.startingBlock + s₂.duration) - start ≤
      s₁.lockedAt w start + s₂.lockedAt w start := by
  rcases max_cases (s₁.startingBlock + s₁.duration) (s₂.startingBlock + s₂.duration) with ⟨he, _⟩ |
    ⟨he, _⟩
  · rw [he] at hlt ⊢
    exact (VestingInfo.remaining_le hf1.locked (Nat.pos_of_ne_zero hv1.1) hs1 hlt).trans
      (Nat.le_add_right _ _)
  · rw [he] at hlt ⊢
    exact (VestingInfo.remaining_le hf2.locked (Nat.pos_of_ne_zero hv2.1) hs2 hlt).trans
      (Nat.le_add_left _ _)

-- Merging two schedules that have not ended keeps what is locked now, and locks no less later.
theorem merge_running (hs : s₁.lockedAt w now + s₂.lockedAt w now ≤ maxValue w)
    (h1 : now < s₁.endingBlockAsBalance w) (h2 : now < s₂.endingBlockAsBalance w) :
    ∃ m, mergeVestingInfo w now s₁ s₂ = some m ∧ m.isValid ∧
      m.locked = s₁.lockedAt w now + s₂.lockedAt w now ∧
      m.startingBlock = max (max now s₁.startingBlock) s₂.startingBlock ∧
      m.lockedAt w now = s₁.lockedAt w now + s₂.lockedAt w now ∧
      ∀ t, now ≤ t → s₁.lockedAt w t + s₂.lockedAt w t ≤ m.lockedAt w t := by
  refine ⟨_, mergeVestingInfo_of_running h1 h2 hs, ?_⟩
  rw [hf1.endingBlock] at h1 ⊢
  rw [hf2.endingBlock] at h2 ⊢
  generalize hstart : max (max now s₁.startingBlock) s₂.startingBlock = start
  generalize hfin : max (s₁.startingBlock + s₁.duration) (s₂.startingBlock + s₂.duration) = fin
  generalize hl : s₁.lockedAt w now + s₂.lockedAt w now = l at hs ⊢
  have hd1 := @VestingInfo.duration_pos s₁
  have hd2 := @VestingInfo.duration_pos s₂
  have hlt : start < fin := by omega
  have hanti : s₁.lockedAt w start + s₂.lockedAt w start ≤ l := by
    rw [← hl]
    exact Nat.add_le_add (VestingInfo.lockedAt_anti hf1.locked (by omega))
      (VestingInfo.lockedAt_anti hf2.locked (by omega))
  have hrem : fin - start ≤ l := by
    rw [← hfin] at hlt ⊢
    exact (remaining_le_sum hf1 hf2 hv1 hv2 (by omega) (by omega) hlt).trans hanti
  have hdur : max (fin - start) 1 = fin - start := max_eq_left (by omega)
  have hq : 1 ≤ l / (fin - start) := Nat.div_pos hrem (by omega)
  rw [hdur, max_eq_left hq]
  have hrate : VestingInfo.perBlock ⟨l, l / (fin - start), start⟩ = l / (fin - start) :=
    max_eq_left hq
  have heq : ∀ t, VestingInfo.lockedAt w ⟨l, l / (fin - start), start⟩ t =
      l - (t - start) * (l / (fin - start)) := by
    intro t
    rw [VestingInfo.lockedAt_eq hs, hrate]
  refine ⟨⟨?_, ?_⟩, rfl, rfl, ?_, fun t ht => ?_⟩
  · change l ≠ 0
    omega
  · exact Nat.ne_of_gt hq
  · rw [heq, Nat.sub_eq_zero_of_le (show now ≤ start by omega), Nat.zero_mul, Nat.sub_zero]
  · rw [heq]
    by_cases hts : t ≤ start
    · -- The merged schedule has not started yet.
      rw [Nat.sub_eq_zero_of_le hts, Nat.zero_mul, ← hl]
      exact Nat.add_le_add (VestingInfo.lockedAt_anti hf1.locked ht)
        (VestingInfo.lockedAt_anti hf2.locked ht)
    · have hst : start ≤ t := Nat.le_of_not_le hts
      rw [VestingInfo.lockedAt_from hf1.locked (show s₁.startingBlock ≤ start by omega) hst,
        VestingInfo.lockedAt_from hf2.locked (show s₂.startingBlock ≤ start by omega) hst]
      exact lines_le_line (VestingInfo.lockedAt_le_mul hf1.locked (by omega) (by omega))
        (VestingInfo.lockedAt_le_mul hf2.locked (by omega) (by omega)) hanti
          (Nat.div_mul_le_self _ _)

end Merge

end Vesting
