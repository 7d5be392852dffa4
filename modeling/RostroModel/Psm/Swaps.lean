import RostroModel.Psm.Basic

namespace Psm

open Assets
open Except (bind_eq_ok ensure_eq_ok mapError_eq_ok okOr_eq_ok pure_eq_ok)

section Conversion

variable {amount amount' value value' d d' : Nat}

theorem rescale_eq_ok : rescale amount d d' = .ok value ↔ (d = d' ∧ value = amount) ∨
    (d < d' ∧ 10 ^ (d' - d) ≤ maxBalance ∧ amount * 10 ^ (d' - d) ≤ maxBalance ∧
      value = amount * 10 ^ (d' - d)) ∨
    (d' < d ∧ 10 ^ (d - d') ≤ maxBalance ∧ value = amount / 10 ^ (d - d')) := by
  rw [rescale]
  split_ifs with h1 h2
  · subst h1
    simp [eq_comm]
  · simp only [pow10, bind_eq_ok, ensure_eq_ok, pure_eq_ok, Except.ok.injEq]
    constructor
    · rintro ⟨_, ⟨_, hp, rfl⟩, _, ha, rfl⟩
      exact .inr (.inl ⟨h2, hp, ha, rfl⟩)
    · rintro (⟨h, -⟩ | ⟨-, hp, ha, rfl⟩ | ⟨h, -⟩)
      · exact absurd h h1
      · exact ⟨_, ⟨(), hp, rfl⟩, (), ha, rfl⟩
      · omega
  · simp only [pow10, bind_eq_ok, ensure_eq_ok, pure_eq_ok, Except.ok.injEq]
    constructor
    · rintro ⟨_, ⟨_, hp, rfl⟩, rfl⟩
      exact .inr (.inr ⟨by omega, hp, rfl⟩)
    · rintro (⟨h, -⟩ | ⟨h, -⟩ | ⟨-, hp, rfl⟩)
      · exact absurd h h1
      · omega
      · exact ⟨_, ⟨(), hp, rfl⟩, rfl⟩

-- Amounts that are converted to each other without a rest.
def Par (d d' amount value : Nat) : Prop :=
  rescale amount d d' = .ok value ∧ rescale value d' d = .ok amount

theorem Par.symm (h : Par d d' amount value) : Par d' d value amount :=
  ⟨h.2, h.1⟩

theorem par_of_rescale (h1 : rescale amount d d' = .ok value)
    (h2 : rescale value d' d = .ok amount') :
    Par d d' amount' value := by
  refine ⟨?_, h2⟩
  rw [rescale_eq_ok] at h1 h2 ⊢
  have hp : 0 < 10 ^ (d' - d) := by positivity
  obtain ⟨rfl, rfl⟩ | ⟨hd, hf, ha, rfl⟩ | ⟨hd, hf, rfl⟩ := h1
  · obtain ⟨-, rfl⟩ | ⟨hd, -⟩ | ⟨hd, -⟩ := h2
    · exact .inl ⟨rfl, rfl⟩
    all_goals exact absurd hd (lt_irrefl _)
  · obtain ⟨rfl, -⟩ | ⟨hd', -⟩ | ⟨-, -, rfl⟩ := h2
    · exact absurd hd (lt_irrefl _)
    · omega
    · rw [Nat.mul_div_cancel _ hp]
      exact .inr (.inl ⟨hd, hf, ha, rfl⟩)
  · obtain ⟨rfl, -⟩ | ⟨-, -, -, rfl⟩ | ⟨hd', -⟩ := h2
    · exact absurd hd (lt_irrefl _)
    · refine .inr (.inr ⟨hd, hf, ?_⟩)
      rw [Nat.mul_div_cancel _ (by positivity)]
    · omega

theorem rescale_add (h : rescale amount d d' = .ok value) (hp : Par d d' amount' value')
    (hm : value + value' ≤ maxBalance) :
    rescale (amount + amount') d d' = .ok (value + value') := by
  obtain ⟨h1, h2⟩ := hp
  rw [rescale_eq_ok] at h h1 h2 ⊢
  obtain ⟨rfl, rfl⟩ | ⟨hd, hf, ha, rfl⟩ | ⟨hd, hf, rfl⟩ := h
  · have : value' = amount' := by omega
    exact .inl ⟨rfl, by omega⟩
  · have : value' = amount' * 10 ^ (d' - d) := by omega
    subst this
    rw [← Nat.add_mul] at hm ⊢
    exact .inr (.inl ⟨hd, hf, hm, rfl⟩)
  · have : amount' = value' * 10 ^ (d - d') := by omega
    subst this
    rw [Nat.add_mul_div_right _ _ (by positivity)]
    exact .inr (.inr ⟨hd, hf, rfl⟩)

theorem rescale_sub (h : rescale amount d d' = .ok value) (hp : Par d d' amount' value')
    (hle : amount' ≤ amount) :
    value' ≤ value ∧ rescale (amount - amount') d d' = .ok (value - value') := by
  obtain ⟨h1, h2⟩ := hp
  rw [rescale_eq_ok] at h h1 h2 ⊢
  obtain ⟨rfl, rfl⟩ | ⟨hd, hf, ha, rfl⟩ | ⟨hd, hf, rfl⟩ := h
  · have : value' = amount' := by omega
    exact ⟨by omega, .inl ⟨rfl, by omega⟩⟩
  · have : value' = amount' * 10 ^ (d' - d) := by omega
    subst this
    rw [← Nat.sub_mul]
    refine ⟨Nat.mul_le_mul_right _ hle, .inr (.inl ⟨hd, hf, ?_, rfl⟩)⟩
    exact (Nat.mul_le_mul_right _ (Nat.sub_le _ _)).trans ha
  · have : amount' = value' * 10 ^ (d - d') := by omega
    subst this
    have hp : 0 < 10 ^ (d - d') := by positivity
    refine ⟨(Nat.le_div_iff_mul_le hp).mpr hle, .inr (.inr ⟨hd, hf, ?_⟩)⟩
    rw [Nat.mul_comm, Nat.sub_mul_div]

theorem rescale_zero (h : Nat.dist d d' ≤ maxDecimalsDiff) : rescale 0 d d' = .ok 0 := by
  have hmax : 10 ^ maxDecimalsDiff ≤ maxBalance := by decide
  rw [rescale_eq_ok]
  rw [Nat.dist] at h
  obtain hd | hd | hd := Nat.lt_trichotomy d d'
  · refine .inr (.inl ⟨hd, ?_, by simp, by simp⟩)
    exact (Nat.pow_le_pow_right (by decide) (by omega)).trans hmax
  · exact .inl ⟨hd, rfl⟩
  · refine .inr (.inr ⟨hd, ?_, by simp⟩)
    exact (Nat.pow_le_pow_right (by decide) (by omega)).trans hmax

end Conversion

section Amounts

variable {minSwapAmount ext int amount : Nat} {fee : Permill}

theorem Permill.mulCeil_le (p : Permill) (b : Nat) : p.mulCeil b ≤ b :=
  PerThing.mulCeil_le p.le (by decide)

-- The external amount that enters the reserve is the one that the user is
-- given the internal value of.
structure MintAmounts.Exact (a : MintAmounts) (fee : Permill) (ext int amount : Nat) : Prop where
  fee : a.fee = fee.mulCeil a.internalEquivalent
  split : a.internalToUser + a.fee = a.internalEquivalent
  par : Par ext int a.effectiveExternal a.internalEquivalent
  value : externalToInternal amount ext int = .ok a.internalEquivalent

theorem mintAmounts_eq_ok (h : mintAmounts minSwapAmount fee ext int amount = .ok a) :
    a.Exact fee ext int amount := by
  simp only [mintAmounts, bind_eq_ok, pure_eq_ok, Except.ok.injEq] at h
  obtain ⟨value, h1, -, -, -, -, effective, h2, rfl⟩ := h
  exact ⟨rfl, Nat.sub_add_cancel (fee.mulCeil_le _), par_of_rescale h1 h2, h1⟩

structure RedeemAmounts.Exact (a : RedeemAmounts) (fee : Permill) (ext int amount : Nat) :
    Prop where
  fee : a.fee = fee.mulCeil amount
  net : a.internalNet = amount - a.fee
  par : Par int ext a.effectiveInternalNet a.externalOut
  value : internalToExternal a.internalNet ext int = .ok a.externalOut

theorem redeemAmounts_eq_ok
    (h : redeemAmounts minSwapAmount fee ext int amount = .ok a) : a.Exact fee ext int amount := by
  simp only [redeemAmounts, bind_eq_ok, pure_eq_ok, Except.ok.injEq] at h
  obtain ⟨-, -, out, h1, -, -, effective, h2, rfl⟩ := h
  exact ⟨rfl, rfl, par_of_rescale h1 h2, h1⟩

end Amounts

variable {AssetId AccountId : Type} [LinearOrder AssetId] [DecidableEq AccountId]
variable {c : Config AssetId AccountId} {s s' : State AssetId AccountId}
variable {who : AccountId} {asset : AssetId} {amount : Nat}

namespace State

-- The asset is approved, and its decimals and those of the internal asset
-- are the ones that were stored.
structure Swappable (c : Config AssetId AccountId) (s : State AssetId AccountId) (asset : AssetId)
    (ext int : Nat) : Prop where
  approved : asset ∈ s.externalAssets
  external : s.externalDecimals[asset]? = some ext
  internal : s.internalDecimals = some int
  liveExternal : s.ledger.decimals asset = ext
  liveInternal : s.ledger.decimals c.internalAsset = int

omit [DecidableEq AccountId] in
theorem swappable_of_ok {ext int : Nat} (ha : s.externalAssets[asset]? = some status)
    (hd : s.ensureDecimalsMatch c asset = .ok (ext, int)) : s.Swappable c asset ext int := by
  simp only [ensureDecimalsMatch, bind_eq_ok, okOr_eq_ok, ensure_eq_ok,
    pure_eq_ok, Except.ok.injEq, Prod.mk.injEq] at hd
  obtain ⟨_, h1, _, h2, _, h3, _, h4, rfl, rfl⟩ := hd
  exact ⟨Std.ExtTreeMap.mem_iff_isSome_getElem?.mpr (ha ▸ rfl), h1, h3, h2, h4⟩

-- What a mint does to the ledger and to the debt.
structure Mints (c : Config AssetId AccountId) (s s' : State AssetId AccountId) (who : AccountId)
    (asset : AssetId) (amount : Nat) (a : MintAmounts) (ext int : Nat)
    (l₁ l₂ l₃ : Ledger AssetId AccountId) : Prop where
  swappable : s.Swappable c asset ext int
  exact : a.Exact (s.mintingFeeOf asset) ext int amount
  ceiling : Machine.saturatingAdd 128 (s.debtOf asset) a.internalEquivalent ≤ s.maxAssetDebt c asset
  paid : s.ledger.Transfers l₁ asset who c.psmAccount a.effectiveExternal
  received : l₁.Issues l₂ c.internalAsset who
    (l₁.balance c.internalAsset who + a.internalToUser)
    (l₁.totalIssuance c.internalAsset + a.internalToUser)
  charged : l₂.Issues l₃ c.internalAsset c.feeDestination
    (l₂.balance c.internalAsset c.feeDestination + a.fee)
    (l₂.totalIssuance c.internalAsset + a.fee)
  state : s' = { s with
    ledger := l₃,
    psmDebt := s.psmDebt.insert asset
      (Machine.saturatingAdd 128 (s.debtOf asset) a.internalEquivalent) }

theorem mint_eq_ok (h : s.mint c who asset amount = .ok (s', a))
    (hv : s.ledger.Valid) : ∃ ext int l1 l2 l3,
      Mints c s s' who asset amount a ext int l1 l2 l3 := by
  simp only [mint, bind_eq_ok, okOr_eq_ok, ensure_eq_ok, mapError_eq_ok,
    pure_eq_ok, Except.ok.injEq, Prod.mk.injEq] at h
  obtain ⟨status, hs, -, -, ⟨ext, int⟩, hd, a', ha, -, -, -, -, -, hc, l1, h1, l2, h2, l3, h3,
      rfl, rfl⟩ := h
  have ht := Ledger.transfer_eq_ok h1 hv
  have hi := Ledger.mintInto_eq_ok h2 ht.valid
  refine ⟨ext, int, l1, l2, l3, swappable_of_ok hs hd, mintAmounts_eq_ok ha, hc, ht, hi, ?_, rfl⟩
  split_ifs at h3 with hf
  · exact Ledger.mintInto_eq_ok (mapError_eq_ok.mp h3) hi.valid
  · cases h3
    rw [not_not.mp hf]
    exact .refl hi.valid

-- What a redemption does to the ledger and to the debt.
structure Redeems (c : Config AssetId AccountId) (s s' : State AssetId AccountId) (who : AccountId)
    (asset : AssetId) (amount : Nat) (a : RedeemAmounts) (ext int : Nat)
    (l₁ l₂ l₃ : Ledger AssetId AccountId) : Prop where
  swappable : s.Swappable c asset ext int
  amounts : redeemAmounts c.minSwapAmount (s.redemptionFeeOf asset) ext int amount = .ok a
  covered : a.effectiveInternalNet ≤ s.debtOf asset
  charged : s.ledger.Transfers l₁ c.internalAsset who c.feeDestination a.fee
  burned : l₁.Burns l₂ c.internalAsset who a.effectiveInternalNet
  received : l₂.Transfers l₃ asset c.psmAccount who a.externalOut
  state : s' = { s with
    ledger := l₃,
    psmDebt := s.psmDebt.insert asset (s.debtOf asset - a.effectiveInternalNet) }

omit [DecidableEq AccountId] in
theorem Redeems.exact {ext int : Nat} (h : Redeems c s s' who asset amount a ext int l1 l2 l3) :
    a.Exact (s.redemptionFeeOf asset) ext int amount :=
  redeemAmounts_eq_ok h.amounts

theorem redeem_eq_ok (h : s.redeem c who asset amount = .ok (s', a))
    (hv : s.ledger.Valid) : ∃ ext int l1 l2 l3,
      Redeems c s s' who asset amount a ext int l1 l2 l3 := by
  simp only [redeem, bind_eq_ok, okOr_eq_ok, ensure_eq_ok, pure_eq_ok, Except.ok.injEq,
    Prod.mk.injEq] at h
  obtain ⟨status, hs, -, -, ⟨ext, int⟩, hd, a', ha, -, hdebt, -, -, l1, h1, l2, h2, l3, h3,
      rfl, rfl⟩ := h
  have hf : s.ledger.Transfers l1 c.internalAsset who c.feeDestination a'.fee := by
    split_ifs at h1 with hf
    · exact Ledger.transfer_eq_ok (mapError_eq_ok.mp h1) hv
    · cases h1
      rw [not_not.mp hf]
      exact .refl hv
  have hb : l1.Burns l2 c.internalAsset who a'.effectiveInternalNet := by
    split_ifs at h2 with hz
    · exact Ledger.burnFrom_eq_ok (mapError_eq_ok.mp h2) hf.valid
    · cases h2
      rw [not_not.mp hz]
      exact .refl hf.valid
  refine ⟨ext, int, l1, l2, l3, swappable_of_ok hs hd, ha, hdebt, hf, hb, ?_, rfl⟩
  split_ifs at h3 with ho
  · exact Ledger.transfer_eq_ok (mapError_eq_ok.mp h3) hb.issues.valid
  · cases h3
    rw [not_not.mp ho]
    exact .refl hb.issues.valid

end State
end Psm
