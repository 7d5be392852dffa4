import RostroModel.Psm.Swaps

namespace Psm

open Assets
open Std.ExtTreeMap (mem_erase mem_insert total_insert)
open Except (bind_eq_ok bind_ne_error ensure_eq_error ensure_eq_ok map_eq_ok
  okOr_eq_error okOr_eq_ok)

variable {AssetId AccountId : Type} [LinearOrder AssetId]

section Runs

variable [DecidableEq AccountId]

inductive Call (AssetId AccountId : Type)
  | mint (who : AccountId) (asset : AssetId) (externalAmount : Nat)
  | redeem (who : AccountId) (asset : AssetId) (amount : Nat)
  | setMintingFee (level : PsmManagerLevel) (asset : AssetId) (fee : Permill)
  | setRedemptionFee (level : PsmManagerLevel) (asset : AssetId) (fee : Permill)
  | setMaxPsmDebt (level : PsmManagerLevel) (ratio : Permill)
  | setAssetStatus (level : PsmManagerLevel) (asset : AssetId) (status : CircuitBreakerLevel)
  | setAssetCeilingWeight (level : PsmManagerLevel) (asset : AssetId) (weight : Permill)
  | addExternalAsset (level : PsmManagerLevel) (asset : AssetId)
  | removeExternalAsset (level : PsmManagerLevel) (asset : AssetId)

def Call.signer : Call AssetId AccountId → Option AccountId
  | .mint who _ _ => some who
  | .redeem who _ _ => some who
  | _ => none

def State.dispatch (c : Config AssetId AccountId) (s : State AssetId AccountId) :
    Call AssetId AccountId → Except Error (State AssetId AccountId)
  | .mint who asset amount => (s.mint c who asset amount).map (·.1)
  | .redeem who asset amount => (s.redeem c who asset amount).map (·.1)
  | .setMintingFee level asset fee => s.setMintingFee level asset fee
  | .setRedemptionFee level asset fee => s.setRedemptionFee level asset fee
  | .setMaxPsmDebt level ratio => s.setMaxPsmDebt level ratio
  | .setAssetStatus level asset status => s.setAssetStatus level asset status
  | .setAssetCeilingWeight level asset weight => s.setAssetCeilingWeight level asset weight
  | .addExternalAsset level asset => s.addExternalAsset c level asset
  | .removeExternalAsset level asset => s.removeExternalAsset level asset

-- What others do to the ledger: nobody but the PSM takes from its account,
-- and decimals do not change.
structure Outside (c : Config AssetId AccountId) (l l' : Ledger AssetId AccountId) : Prop where
  valid : l'.Valid
  decimals : l'.decimals = l.decimals
  reserve : ∀ asset, l.balance asset c.psmAccount ≤ l'.balance asset c.psmAccount

-- Runs from genesis in which each call satisfies a condition on the state that it is made in. The
-- number is by how much the calls have changed the issuance of the internal asset. The account of
-- the PSM is derived from the id of the pallet and signs nothing.
inductive Run (c : Config AssetId AccountId)
    (P : State AssetId AccountId → Call AssetId AccountId → Prop) :
    State AssetId AccountId → Int → Prop
  | genesis {ledger ratio configs s} :
    ledger.Valid → State.genesis c ledger ratio configs = some s → Run c P s 0
  | call {s s' n call} :
    Run c P s n → P s call → call.signer ≠ some c.psmAccount → s.dispatch c call = .ok s' →
    Run c P s' (n + (s'.internalIssuance c - s.internalIssuance c))
  | outside {s n l} :
    Run c P s n → Outside c s.ledger l → Run c P { s with ledger := l } n

end Runs

variable {c : Config AssetId AccountId} {s s' : State AssetId AccountId}
variable {who : AccountId} {asset : AssetId} {amount : Nat}

-- The reserve of each approved asset is worth at least its debt.
def Solvent (c : Config AssetId AccountId) (s : State AssetId AccountId) : Prop :=
  ∃ int, s.internalDecimals = some int ∧ ∀ asset ∈ s.externalAssets,
    ∃ ext debtAsExternal, s.externalDecimals[asset]? = some ext ∧
      internalToExternal (s.debtOf asset) ext int = .ok debtAsExternal ∧
      debtAsExternal ≤ s.getReserve c asset

-- Taking the amount from the balance leaves nothing or at least the minimum.
def LeavesMinimum (minBalance balance amount : Nat) : Prop :=
  amount = 0 ∨ balance = amount ∨ amount + minBalance ≤ balance

-- The supply of the asset that is paid with has room for the amount, or no dust is left of the
-- reserve and of the balance that is burned from.
def Call.Covered [DecidableEq AccountId] (c : Config AssetId AccountId)
    (s : State AssetId AccountId) :
    Call AssetId AccountId → Prop
  | .mint _ asset externalAmount => s.ledger.totalIssuance asset + externalAmount ≤ maxBalance
  | .redeem who asset amount =>
    ∀ ext int a, s.Swappable c asset ext int →
      redeemAmounts c.minSwapAmount (s.redemptionFeeOf asset) ext int amount = .ok a →
      LeavesMinimum (s.ledger.minimumBalance asset) (s.getReserve c asset) a.externalOut ∧
      LeavesMinimum (s.ledger.minimumBalance c.internalAsset)
        (s.ledger.balance c.internalAsset who - if who = c.feeDestination then 0 else a.fee)
        a.effectiveInternalNet
  | _ => True

-- The debt has grown by the internal value of the external amount that was moved in.
structure Minted (c : Config AssetId AccountId) (s s' : State AssetId AccountId) (asset : AssetId)
    (a : MintAmounts) : Prop where
  value : ∃ ext int, s.externalDecimals[asset]? = some ext ∧ s.internalDecimals = some int ∧
    externalToInternal a.effectiveExternal ext int = .ok a.internalEquivalent
  debt : s'.debtOf asset = s.debtOf asset + a.internalEquivalent
  debts : ∀ other, other ≠ asset → s'.debtOf other = s.debtOf other
  reserve : (asset = c.internalAsset → c.feeDestination ≠ c.psmAccount) →
    s'.getReserve c asset = s.getReserve c asset + a.effectiveExternal

-- The debt has shrunk by the internal value of the external amount that was moved out.
structure Redeemed (c : Config AssetId AccountId) (s s' : State AssetId AccountId) (asset : AssetId)
    (a : RedeemAmounts) : Prop where
  value : ∃ ext int, s.externalDecimals[asset]? = some ext ∧ s.internalDecimals = some int ∧
    externalToInternal a.externalOut ext int = .ok a.effectiveInternalNet
  debt : s'.debtOf asset + a.effectiveInternalNet = s.debtOf asset
  debts : ∀ other, other ≠ asset → s'.debtOf other = s.debtOf other
  reserve : (asset = c.internalAsset → c.feeDestination ≠ c.psmAccount) →
    s'.getReserve c asset + a.externalOut = s.getReserve c asset

section Bounds

theorem leftOver_of_leavesMinimum {m b a : Nat} (h : LeavesMinimum m b a) :
    Ledger.leftOver m b a = b - a := by
  rw [LeavesMinimum] at h
  rw [Ledger.leftOver]
  split_ifs <;> omega

theorem le_leftOver_of_leavesMinimum {m b b' a : Nat} (h : LeavesMinimum m b a) (hb : b ≤ b') :
    b - a ≤ Ledger.leftOver m b' a := by
  rw [LeavesMinimum] at h
  rw [Ledger.leftOver]
  split_ifs <;> omega

theorem State.maxAssetDebt_le : s.maxAssetDebt c asset ≤ c.maximumIssuance := by
  rw [maxAssetDebt]
  dsimp only
  split_ifs
  · exact Nat.zero_le _
  · exact Nat.zero_le _
  · have h1 : s.maxPsmDebt c ≤ c.maximumIssuance :=
      PerThing.mulFloor_le s.maxPsmDebtOfTotal.le (by decide)
    exact (PerThing.mulFloor_le (PerThing.fromRational_le) (by decide)).trans h1

theorem rescale_rescale_le {amount value amount' d d' : Nat} (h1 : rescale amount d d' = .ok value)
    (h2 : rescale value d' d = .ok amount') : amount' ≤ amount := by
  rw [rescale_eq_ok] at h1 h2
  obtain ⟨rfl, rfl⟩ | ⟨hd, -, -, rfl⟩ | ⟨hd, -, rfl⟩ := h1
  · omega
  · have : amount' = amount * 10 ^ (d' - d) / 10 ^ (d' - d) := by omega
    rw [this, Nat.mul_div_cancel _ (by positivity)]
  · have : amount' = amount / 10 ^ (d - d') * 10 ^ (d - d') := by omega
    rw [this]
    exact Nat.div_mul_le_self _ _

theorem rescale_ne_unexpected : rescale amount d d' ≠ .error .unexpected := by
  rw [rescale]
  split_ifs
  · simp
  all_goals
    rw [pow10, Except.ensure]
    split_ifs <;> simp [Except.ensure]
  split_ifs <;> simp

theorem redeemAmounts_ne_unexpected {minSwapAmount ext int : Nat} :
    redeemAmounts minSwapAmount fee ext int amount ≠ .error .unexpected := by
  refine bind_ne_error (by simp [ensure_eq_error]) fun _ _ => ?_
  refine bind_ne_error rescale_ne_unexpected fun _ _ => ?_
  refine bind_ne_error (by simp [ensure_eq_error]) fun _ _ => ?_
  exact bind_ne_error rescale_ne_unexpected fun _ _ => by simp

end Bounds

namespace State

theorem debtOf_insert (hs : s'.psmDebt = s.psmDebt.insert asset debt) :
    s'.debtOf asset = debt ∧ ∀ other, other ≠ asset → s'.debtOf other = s.debtOf other := by
  constructor
  · rw [debtOf, hs, Std.ExtTreeMap.getElem?_insert_self]
    rfl
  · intro other ho
    rw [debtOf, debtOf, hs, Std.ExtTreeMap.lookup_insert_ne ho]

section Mint

variable {a : MintAmounts} {ext int : Nat} {l₁ l₂ l₃ : Ledger AssetId AccountId}

namespace Mints

variable (h : Mints c s s' who asset amount a ext int l₁ l₂ l₃)
include h

theorem valid : s'.ledger.Valid := by
  rw [h.state]
  exact h.charged.valid

-- The ceiling is below the largest balance, so that the new debt is the sum.
theorem debt (hc : c.maximumIssuance < maxBalance) :
    s'.psmDebt = s.psmDebt.insert asset (s.debtOf asset + a.internalEquivalent) := by
  rw [h.state]
  rw [Machine.saturatingAdd_of_lt]
  exact (h.ceiling.trans maxAssetDebt_le).trans_lt hc

theorem effective_le : a.effectiveExternal ≤ amount :=
  rescale_rescale_le h.exact.value h.exact.par.2

theorem reserve_paid (hw : who ≠ c.psmAccount)
    (hr : s.ledger.totalIssuance asset + amount ≤ maxBalance) :
    l₁.balance asset c.psmAccount = s.getReserve c asset + a.effectiveExternal := by
  have hle := h.effective_le
  exact h.paid.credited hw (by omega)

theorem reserve_le [DecidableEq AccountId] (id : AssetId) :
    l₁.balance id c.psmAccount ≤ s'.getReserve c id := by
  rw [h.state]
  exact h.received.mono.trans h.charged.mono

theorem reserve_mono [DecidableEq AccountId] (hw : who ≠ c.psmAccount) (id : AssetId) :
    s.getReserve c id ≤ s'.getReserve c id :=
  (h.paid.mono hw.symm).trans (h.reserve_le id)

theorem reserve_eq (hw : who ≠ c.psmAccount)
    (hf : asset = c.internalAsset → c.feeDestination ≠ c.psmAccount) :
    s'.getReserve c asset = l₁.balance asset c.psmAccount := by
  rw [h.state]
  exact (h.charged.other _ _ fun he => hf he.1 he.2.symm).trans
    (h.received.other _ _ fun he => hw he.2.symm)

theorem issuance : s'.internalIssuance c = s.internalIssuance c + a.internalEquivalent := by
  have hs := h.exact.split
  have h1 : l₁.totalIssuance c.internalAsset = s.internalIssuance c := h.paid.issuance
  have h2 := h.received.supply
  have h3 := h.charged.supply
  rw [h.state]
  change l₃.totalIssuance c.internalAsset = _
  omega

theorem minted (hc : c.maximumIssuance < maxBalance)
    (hw : who ≠ c.psmAccount) (hr : s.ledger.totalIssuance asset + amount ≤ maxBalance) :
    Minted c s s' asset a where
  value := ⟨ext, int, h.swappable.external, h.swappable.internal, h.exact.par.1⟩
  debt := (debtOf_insert (h.debt hc)).1
  debts := (debtOf_insert (h.debt hc)).2
  reserve hf := (h.reserve_eq hw hf).trans (h.reserve_paid hw hr)

end Mints
end Mint

section Redeem

variable {a : RedeemAmounts} {ext int : Nat} {l₁ l₂ l₃ : Ledger AssetId AccountId}

namespace Redeems

variable (h : Redeems c s s' who asset amount a ext int l₁ l₂ l₃)
include h

theorem valid : s'.ledger.Valid := by
  rw [h.state]
  exact h.received.valid

theorem debt : s'.psmDebt = s.psmDebt.insert asset (s.debtOf asset - a.effectiveInternalNet) := by
  rw [h.state]

theorem reserve_mono [DecidableEq AccountId] (hw : who ≠ c.psmAccount)
    (id : AssetId) : s.getReserve c id ≤ l₂.balance id c.psmAccount := by
  rw [h.burned.issues.other _ _ fun he => hw he.2.symm]
  exact h.charged.mono hw.symm

theorem reserve_ne [DecidableEq AccountId] (hw : who ≠ c.psmAccount)
    {id : AssetId} (hid : id ≠ asset) : s.getReserve c id ≤ s'.getReserve c id := by
  rw [h.state]
  exact (h.reserve_mono hw id).trans (h.received.other _ _ fun he => hid he.1).ge

theorem minimum (id : AssetId) : l₂.minimumBalance id = s.ledger.minimumBalance id :=
  (h.burned.issues.minimum id).trans h.charged.minimum

theorem reserve_left (hw : who ≠ c.psmAccount) :
    s'.getReserve c asset = Ledger.leftOver (s.ledger.minimumBalance asset)
      (l₂.balance asset c.psmAccount) a.externalOut := by
  rw [h.state, ← h.minimum]
  exact h.received.debited hw.symm

theorem reserve_ge [DecidableEq AccountId] (hw : who ≠ c.psmAccount)
    (hl : LeavesMinimum (s.ledger.minimumBalance asset) (s.getReserve c asset) a.externalOut) :
    s.getReserve c asset - a.externalOut ≤ s'.getReserve c asset := by
  rw [h.reserve_left hw]
  exact le_leftOver_of_leavesMinimum hl (h.reserve_mono hw asset)

theorem reserve_eq (hw : who ≠ c.psmAccount)
    (hf : asset = c.internalAsset → c.feeDestination ≠ c.psmAccount)
    (hl : LeavesMinimum (s.ledger.minimumBalance asset) (s.getReserve c asset) a.externalOut) :
    s'.getReserve c asset = s.getReserve c asset - a.externalOut := by
  have h1 : l₁.balance asset c.psmAccount = s.getReserve c asset := by
    apply h.charged.other
    rintro ⟨he, hs | hd⟩
    · exact hw hs.symm
    · exact hf he hd.symm
  have h2 : l₂.balance asset c.psmAccount = l₁.balance asset c.psmAccount :=
    h.burned.issues.other _ _ fun he => hw he.2.symm
  rw [h.reserve_left hw, h2, h1]
  exact leftOver_of_leavesMinimum hl

theorem balance_charged [DecidableEq AccountId] (hz : a.effectiveInternalNet ≠ 0) :
    l₁.balance c.internalAsset who =
      s.ledger.balance c.internalAsset who - if who = c.feeDestination then 0 else a.fee := by
  have hb := h.burned.le
  split_ifs with hw
  · rw [h.charged.same hw]
    rfl
  · have hd := h.charged.debited hw
    rw [hd] at hb ⊢
    rw [Ledger.leftOver] at hb ⊢
    split_ifs at hb ⊢ <;> omega

theorem issuance [DecidableEq AccountId]
    (hl : LeavesMinimum (s.ledger.minimumBalance c.internalAsset)
      (s.ledger.balance c.internalAsset who - if who = c.feeDestination then 0 else a.fee)
      a.effectiveInternalNet) :
    s'.internalIssuance c + a.effectiveInternalNet = s.internalIssuance c := by
  have h1 : l₁.totalIssuance c.internalAsset = s.internalIssuance c := h.charged.issuance
  have h2 := h.burned.issues.supply
  have h3 : s'.internalIssuance c = l₂.totalIssuance c.internalAsset := by
    rw [h.state]
    exact h.received.issuance
  have hb := h.burned.le
  have hs := h.burned.supply
  by_cases hz : a.effectiveInternalNet = 0
  case pos =>
    rw [hz, Ledger.leftOver, if_pos rfl] at h2
    omega
  case neg =>
    rw [h.charged.minimum, h.balance_charged hz, leftOver_of_leavesMinimum hl] at h2
    rw [h.balance_charged hz] at hb
    omega

theorem redeemed (hw : who ≠ c.psmAccount) (ho : a.externalOut ≤ s.getReserve c asset)
    (hl : LeavesMinimum (s.ledger.minimumBalance asset) (s.getReserve c asset) a.externalOut) :
    Redeemed c s s' asset a where
  value := ⟨ext, int, h.swappable.external, h.swappable.internal, h.exact.par.2⟩
  debt := by rw [(debtOf_insert h.debt).1, Nat.sub_add_cancel h.covered]
  debts := (debtOf_insert h.debt).2
  reserve hf := by rw [h.reserve_eq hw hf hl, Nat.sub_add_cancel ho]

end Redeems
end Redeem
end State

-- What every call keeps: an asset that is not approved has no debt.
structure Inv (c : Config AssetId AccountId) (s : State AssetId AccountId) : Prop where
  valid : s.ledger.Valid
  solvent : Solvent c s
  unapproved : ∀ asset, asset ∉ s.externalAssets → s.debtOf asset = 0

namespace Inv

theorem swap {ext int debt debtAsExternal : Nat} (h : Inv c s) (hv : s'.ledger.Valid)
    (hs : s.Swappable c asset ext int) (ha : s'.externalAssets = s.externalAssets)
    (hd : s'.externalDecimals = s.externalDecimals) (hi : s'.internalDecimals = s.internalDecimals)
    (hdebt : s'.psmDebt = s.psmDebt.insert asset debt)
    (hc : internalToExternal debt ext int = .ok debtAsExternal)
    (hr : debtAsExternal ≤ s'.getReserve c asset)
    (hm : ∀ id, id ≠ asset → s.getReserve c id ≤ s'.getReserve c id) : Inv c s' := by
  obtain ⟨h1, h2⟩ := State.debtOf_insert hdebt
  refine ⟨hv, ⟨int, hi ▸ hs.internal, ?_⟩, ?_⟩
  · intro id hid
    obtain ⟨int', hint, hsol⟩ := h.solvent
    cases hint.symm.trans hs.internal
    rw [hd]
    by_cases he : id = asset
    case pos =>
      subst he
      exact ⟨ext, debtAsExternal, hs.external, h1 ▸ hc, hr⟩
    case neg =>
      obtain ⟨ext', x, hx, hcx, hle⟩ := hsol id (ha ▸ hid)
      exact ⟨ext', x, hx, h2 id he ▸ hcx, hle.trans (hm id he)⟩
  · intro id hid
    rw [ha] at hid
    have he : id ≠ asset := by
      rintro rfl
      exact hid hs.approved
    rw [h2 id he]
    exact h.unapproved id hid

variable {ext int : Nat}

variable (h : Inv c s)
include h

theorem reserve (hs : s.Swappable c asset ext int) :
    ∃ debtAsExternal, internalToExternal (s.debtOf asset) ext int = .ok debtAsExternal ∧
      debtAsExternal ≤ s.getReserve c asset := by
  obtain ⟨int', hint, hsol⟩ := h.solvent
  obtain ⟨ext', x, hx, hc, hle⟩ := hsol asset hs.approved
  cases hint.symm.trans hs.internal
  cases hx.symm.trans hs.external
  exact ⟨x, hc, hle⟩

theorem out_le {a : RedeemAmounts} (hs : s.Swappable c asset ext int)
    (ha : a.Exact fee ext int amount) (hd : a.effectiveInternalNet ≤ s.debtOf asset) :
    a.externalOut ≤ s.getReserve c asset := by
  obtain ⟨x, hx, hle⟩ := h.reserve hs
  exact (rescale_sub hx ha.par hd).1.trans hle

theorem mint [DecidableEq AccountId] {a : MintAmounts} {l₁ l₂ l₃ : Ledger AssetId AccountId}
    (hm : s.Mints c s' who asset amount a ext int l₁ l₂ l₃) (hc : c.maximumIssuance < maxBalance)
    (hw : who ≠ c.psmAccount) (hr : s.ledger.totalIssuance asset + amount ≤ maxBalance) :
    Inv c s' := by
  obtain ⟨x, hx, hle⟩ := h.reserve hm.swappable
  have hres := hm.reserve_paid hw hr
  have hmax := hm.paid.valid asset c.psmAccount
  have hadd := rescale_add hx hm.exact.par.symm (by omega)
  apply h.swap hm.valid hm.swappable _ _ _ (hm.debt hc) hadd
  · exact (by omega : _ ≤ l₁.balance asset c.psmAccount).trans (hm.reserve_le asset)
  · exact fun id _ => hm.reserve_mono hw id
  all_goals rw [hm.state]

theorem redeem [DecidableEq AccountId] {a : RedeemAmounts} {l₁ l₂ l₃ : Ledger AssetId AccountId}
    (hr : s.Redeems c s' who asset amount a ext int l₁ l₂ l₃) (hw : who ≠ c.psmAccount)
    (hl : LeavesMinimum (s.ledger.minimumBalance asset) (s.getReserve c asset) a.externalOut) :
    Inv c s' := by
  obtain ⟨x, hx, hle⟩ := h.reserve hr.swappable
  obtain ⟨-, hsub⟩ := rescale_sub hx hr.exact.par hr.covered
  apply h.swap hr.valid hr.swappable _ _ _ hr.debt hsub
  · exact (Nat.sub_le_sub_right hle _).trans (hr.reserve_ge hw hl)
  · exact fun id hid => hr.reserve_ne hw hid
  all_goals rw [hr.state]

section

variable (hl : s'.ledger = s.ledger) (hdebt : s'.psmDebt = s.psmDebt)
  (hi : s'.internalDecimals = s.internalDecimals)
include hl hdebt hi

theorem approve (hint : s.internalDecimals = some int)
    (ha : s'.externalAssets = s.externalAssets.insert asset level)
    (hd : s'.externalDecimals = s.externalDecimals.insert asset ext)
    (hz : s.debtOf asset = 0) (hdist : Nat.dist ext int ≤ maxDecimalsDiff) : Inv c s' := by
  have hdebt (id : AssetId) : s'.debtOf id = s.debtOf id := by
    rw [State.debtOf, State.debtOf, hdebt]
  refine ⟨hl ▸ h.valid, ⟨int, hi ▸ hint, ?_⟩, ?_⟩
  · intro id hid
    obtain ⟨int', hint', hsol⟩ := h.solvent
    cases hint'.symm.trans hint
    rw [hdebt, hd, Std.ExtTreeMap.lookup_insert]
    by_cases he : id = asset
    case pos =>
      subst he
      rw [hz, if_pos rfl]
      exact ⟨ext, 0, rfl, rescale_zero (Nat.dist_comm ext int ▸ hdist), Nat.zero_le _⟩
    case neg =>
      rw [if_neg he, State.getReserve, hl]
      apply hsol
      rw [ha, mem_insert] at hid
      exact hid.resolve_left fun hc => he (Std.LawfulEqCmp.eq_of_compare hc).symm
  · intro id hid
    rw [hdebt]
    apply h.unapproved
    intro hm
    exact hid (ha ▸ mem_insert.mpr (.inr hm))

theorem of_eq (hd : s'.externalDecimals = s.externalDecimals)
    (ha : ∀ id, id ∈ s'.externalAssets ↔ id ∈ s.externalAssets) : Inv c s' := by
  obtain ⟨hv, ⟨int, hint, hsol⟩, hu⟩ := h
  have hdebt (id : AssetId) : s'.debtOf id = s.debtOf id := by
    rw [State.debtOf, State.debtOf, hdebt]
  refine ⟨hl ▸ hv, ⟨int, hi ▸ hint, ?_⟩, ?_⟩
  · intro id hid
    rw [hdebt, hd, State.getReserve, hl]
    exact hsol id ((ha id).mp hid)
  · intro id hid
    rw [hdebt]
    exact hu id fun h => hid ((ha id).mpr h)

end

theorem remove {level : PsmManagerLevel} (he : s.removeExternalAsset level asset = .ok s') :
    Inv c s' ∧ s'.ledger = s.ledger ∧ s'.psmDebt.total = s.psmDebt.total := by
  simp only [State.removeExternalAsset, bind_eq_ok, ensure_eq_ok] at he
  obtain ⟨-, -, -, -, -, hz, he⟩ := he
  cases he
  have hdebt (id : AssetId) : ((s.psmDebt.erase asset)[id]?).getD 0 = s.debtOf id := by
    rw [Std.ExtTreeMap.lookup_erase]
    split_ifs with hid
    · rw [hid, hz]
      rfl
    · rfl
  obtain ⟨hv, ⟨int, hint, hsol⟩, hu⟩ := h
  refine ⟨⟨hv, ⟨int, hint, ?_⟩, ?_⟩, rfl, ?_⟩
  · intro id hid
    obtain ⟨hne, hid⟩ := mem_erase.mp hid
    have hne : id ≠ asset := by
      rintro rfl
      simp at hne
    rw [State.debtOf, hdebt, Std.ExtTreeMap.lookup_erase_ne hne]
    exact hsol id hid
  · intro id hid
    rw [State.debtOf, hdebt]
    by_cases he : id = asset
    case pos => rw [he, hz]
    case neg =>
      apply hu
      intro hm
      refine hid (mem_erase.mpr ⟨?_, hm⟩)
      simpa using Ne.symm he
  · have ht := Std.ExtTreeMap.total_erase (t := s.psmDebt) (k := asset)
    rw [State.debtOf] at hz
    change (s.psmDebt.erase asset).total = _
    omega

end Inv

theorem State.setForAsset_eq_ok {update : State AssetId AccountId → State AssetId AccountId}
    (h : s.setForAsset allowed asset update = .ok s') :
    asset ∈ s.externalAssets ∧ s' = update s := by
  simp only [setForAsset, bind_eq_ok, ensure_eq_ok] at h
  obtain ⟨-, -, -, ha, h⟩ := h
  cases h
  exact ⟨ha, rfl⟩

theorem Inv.buildAssets {int : Nat} (h : Inv c s) (hint : s.internalDecimals = some int)
    (hz : s.psmDebt = ∅) (he : State.buildAssets ledger int configs s = some s') :
    Inv c s' ∧ s'.psmDebt = ∅ := by
  induction configs generalizing s
  case nil =>
    cases he
    exact ⟨h, hz⟩
  case cons config configs hi =>
    rw [State.buildAssets] at he
    split_ifs at he with hd
    have hz' : s.debtOf config.1 = 0 := by
      rw [State.debtOf, hz]
      rfl
    refine hi ?_ ?_ ?_ he
    · exact h.approve rfl rfl rfl hint rfl rfl hz' hd
    · exact hint
    · exact hz

theorem Inv.genesis {ledger : Ledger AssetId AccountId} (hv : ledger.Valid)
    (h : State.genesis c ledger ratio configs = some s) : Inv c s ∧ s.psmDebt = ∅ := by
  simp only [State.genesis] at h
  split_ifs at h
  refine Inv.buildAssets ?_ rfl rfl h
  refine ⟨hv, ⟨_, rfl, ?_⟩, fun _ _ => rfl⟩
  intro asset ha
  simp at ha

section Runs

variable [DecidableEq AccountId]

-- A call keeps the invariant, and changes the issuance by as much as the debts together.
theorem Inv.dispatch {call : Call AssetId AccountId} (h : Inv c s)
    (hc : c.maximumIssuance < maxBalance) (hcov : call.Covered c s)
    (hw : call.signer ≠ some c.psmAccount) (he : s.dispatch c call = .ok s') :
    Inv c s' ∧ s'.internalIssuance c + s.psmDebt.total =
      s.internalIssuance c + s'.psmDebt.total := by
  have admin (hi : Inv c s') (hl : s'.ledger = s.ledger) (hd : s'.psmDebt.total = s.psmDebt.total) :
    Inv c s' ∧
        s'.internalIssuance c + s.psmDebt.total = s.internalIssuance c + s'.psmDebt.total :=
    ⟨hi, by rw [State.internalIssuance, State.internalIssuance, hl, hd]⟩
  cases call <;> simp only [State.dispatch] at he
  case mint who asset amount =>
    have hw : who ≠ c.psmAccount := fun h => hw (congrArg some h)
    obtain ⟨⟨s', a⟩, hm, rfl⟩ := map_eq_ok.mp he
    obtain ⟨ext, int, l₁, l₂, l₃, hm⟩ := State.mint_eq_ok hm h.valid
    refine ⟨h.mint hm hc hw hcov, ?_⟩
    have hi := hm.issuance
    have ht := total_insert (t := s.psmDebt) (k := asset)
        (v := s.debtOf asset + a.internalEquivalent)
    rw [← hm.debt hc] at ht
    change _ + s.debtOf asset = _ at ht
    dsimp only
    omega
  case redeem who asset amount =>
    have hw : who ≠ c.psmAccount := fun h => hw (congrArg some h)
    obtain ⟨⟨s', a⟩, hm, rfl⟩ := map_eq_ok.mp he
    obtain ⟨ext, int, l₁, l₂, l₃, hm⟩ := State.redeem_eq_ok hm h.valid
    obtain ⟨h1, h2⟩ := hcov ext int a hm.swappable hm.amounts
    refine ⟨h.redeem hm hw h1, ?_⟩
    have hi := hm.issuance h2
    have hle := hm.covered
    have ht := total_insert (t := s.psmDebt) (k := asset)
        (v := s.debtOf asset - a.effectiveInternalNet)
    rw [← hm.debt] at ht
    change _ + s.debtOf asset = _ at ht
    dsimp only
    omega
  case setMintingFee | setRedemptionFee | setAssetCeilingWeight =>
    obtain ⟨-, rfl⟩ := State.setForAsset_eq_ok he
    exact admin (h.of_eq rfl rfl rfl rfl fun _ => Iff.rfl) rfl rfl
  case setAssetStatus level asset status =>
    obtain ⟨ha, rfl⟩ := State.setForAsset_eq_ok he
    refine admin (h.of_eq rfl rfl rfl rfl fun id => ?_) rfl rfl
    rw [mem_insert]
    constructor
    · rintro (hid | hid)
      · exact Std.LawfulEqCmp.eq_of_compare hid ▸ ha
      · exact hid
    · exact .inr
  case setMaxPsmDebt level ratio =>
    simp only [State.setMaxPsmDebt, bind_eq_ok] at he
    obtain ⟨-, -, he⟩ := he
    cases he
    exact admin (h.of_eq rfl rfl rfl rfl fun _ => Iff.rfl) rfl rfl
  case addExternalAsset level asset =>
    simp only [State.addExternalAsset, bind_eq_ok, ensure_eq_ok, okOr_eq_ok] at he
    obtain ⟨-, -, -, ha, -, -, -, -, int, hint, -, -, -, hd, he⟩ := he
    cases he
    exact admin (h.approve rfl rfl rfl hint rfl rfl (h.unapproved asset ha) hd) rfl rfl
  case removeExternalAsset level asset =>
    obtain ⟨hi, hl, hd⟩ := h.remove he
    exact admin hi hl hd

theorem Run.inv (hc : c.maximumIssuance < maxBalance) (h : Run c (Call.Covered c) s n) :
    Inv c s ∧ n = s.psmDebt.total := by
  induction h
  case genesis hv h =>
    obtain ⟨hi, hz⟩ := Inv.genesis hv h
    refine ⟨hi, ?_⟩
    rw [hz]
    rfl
  case call s s' n call _ hcov hw he hi =>
    obtain ⟨h, ht⟩ := hi.1.dispatch hc hcov hw he
    refine ⟨h, ?_⟩
    omega
  case outside s n l _ ho hi =>
    obtain ⟨⟨hv, ⟨int, hint, hsol⟩, hu⟩, hn⟩ := hi
    refine ⟨⟨ho.valid, ⟨int, hint, ?_⟩, hu⟩, hn⟩
    intro asset ha
    obtain ⟨ext, x, hx, hc, hle⟩ := hsol asset ha
    exact ⟨ext, x, hx, hc, hle.trans (ho.reserve asset)⟩

theorem Inv.redeem_ne_unexpected (h : Inv c s) :
    s.redeem c who asset amount ≠ .error .unexpected := by
  have ledger {x : Except DispatchError (Ledger AssetId AccountId)} :
      x.mapError Error.dispatch ≠ .error .unexpected := by
    simp [Except.mapError_eq_error]
  refine bind_ne_error (by simp [okOr_eq_error]) fun status ha => ?_
  refine bind_ne_error (by simp [ensure_eq_error]) fun _ _ => ?_
  refine bind_ne_error ?_ fun d hd => ?_
  · obtain ⟨int, hint, -⟩ := h.solvent
    refine bind_ne_error (by simp [okOr_eq_error]) fun _ _ => ?_
    refine bind_ne_error (by simp [ensure_eq_error]) fun _ _ => ?_
    refine bind_ne_error (by simp [okOr_eq_error, hint]) fun _ _ => ?_
    exact bind_ne_error (by simp [ensure_eq_error]) fun _ _ => by simp
  have hs := State.swappable_of_ok (okOr_eq_ok.mp ha) hd
  refine bind_ne_error redeemAmounts_ne_unexpected fun a ha => ?_
  refine bind_ne_error (by simp [ensure_eq_error]) fun _ hdebt => ?_
  have hle := h.out_le hs (redeemAmounts_eq_ok ha) (ensure_eq_ok.mp hdebt)
  refine bind_ne_error (by simp [ensure_eq_error, hle]) fun _ _ => ?_
  refine bind_ne_error ?_ fun _ _ => ?_
  · split_ifs <;> simp [ledger]
  refine bind_ne_error ?_ fun _ _ => ?_
  · split_ifs <;> simp [ledger]
  refine bind_ne_error ?_ fun _ _ => by simp
  split_ifs <;> simp [ledger]

theorem psm_solvent_of_covered {n : Int} (hc : c.maximumIssuance < maxBalance)
    (h : Run c (Call.Covered c) s n) :
    Solvent c s ∧ n = s.psmDebt.total ∧
    (∀ who asset amount, s.redeem c who asset amount ≠ .error .unexpected) ∧
    (∀ who asset amount s' a, who ≠ c.psmAccount → Call.Covered c s (.mint who asset amount) →
      s.mint c who asset amount = .ok (s', a) → Minted c s s' asset a) ∧
    (∀ who asset amount s' a, who ≠ c.psmAccount → Call.Covered c s (.redeem who asset amount) →
      s.redeem c who asset amount = .ok (s', a) → Redeemed c s s' asset a) := by
  obtain ⟨hi, hn⟩ := h.inv hc
  refine ⟨hi.solvent, hn, fun _ _ _ => hi.redeem_ne_unexpected, ?_, ?_⟩
  · intro who asset amount s' a hw hcov hm
    obtain ⟨ext, int, l₁, l₂, l₃, hm⟩ := State.mint_eq_ok hm hi.valid
    exact hm.minted hc hw hcov
  · intro who asset amount s' a hw hcov hr
    obtain ⟨ext, int, l₁, l₂, l₃, hr⟩ := State.redeem_eq_ok hr hi.valid
    exact hr.redeemed hw (hi.out_le hr.swappable hr.exact hr.covered)
      (hcov ext int a hr.swappable hr.amounts).1

end Runs

section Samples

-- Two assets of which an account holds nothing or at least ten, and an account with a thousand.
def sampleConfig : Config Nat Nat where
  internalAsset := 0
  psmAccount := 0
  feeDestination := 1
  maximumIssuance := 1000000
  minSwapAmount := 1
  maxExternalAssets := 10

def sampleLedger : Ledger Nat Nat where
  assets id := if id = 0 then some ⟨0, 10, true, .live⟩
    else if id = 1 then some ⟨1000, 10, true, .live⟩ else none
  accounts id who := if id = 1 ∧ who = 2 then some { balance := 1000 } else none
  decimals _ := 6
  canAccrueConsumers := fun _ => true

def whole : Permill :=
  ⟨1000000, le_rfl⟩

def sampleAssets : Std.ExtTreeMap Nat (Permill × Permill × Permill) :=
  (∅ : Std.ExtTreeMap Nat (Permill × Permill × Permill)).insert 1 (.zero, .zero, whole)

def sampleGenesis : State Nat Nat :=
  (State.genesis sampleConfig sampleLedger whole sampleAssets).getD { ledger := sampleLedger }

def afterMint : State Nat Nat :=
  ((sampleGenesis.mint sampleConfig 2 1 100).toOption.map (·.1)).getD sampleGenesis

def afterRedeem (amount : Nat) : State Nat Nat :=
  ((afterMint.redeem sampleConfig 2 1 amount).toOption.map (·.1)).getD sampleGenesis

theorem sampleLedger_valid : sampleLedger.Valid := by
  intro id who
  rw [Ledger.balance]
  dsimp only [sampleLedger]
  split_ifs
  · decide
  · decide

theorem run_afterRedeem {P : State Nat Nat → Call Nat Nat → Prop} (amount : Nat)
    (h1 : P sampleGenesis (.mint 2 1 100)) (h2 : P afterMint (.redeem 2 1 amount))
    (h : afterMint.dispatch sampleConfig (.redeem 2 1 amount) = .ok (afterRedeem amount)) :
    Run sampleConfig P (afterRedeem amount)
      (0 + (afterMint.internalIssuance sampleConfig - sampleGenesis.internalIssuance sampleConfig) +
        ((afterRedeem amount).internalIssuance sampleConfig - afterMint.internalIssuance
          sampleConfig)) := by
  have hg : State.genesis sampleConfig sampleLedger whole sampleAssets = some sampleGenesis := rfl
  have hm : sampleGenesis.dispatch sampleConfig (.mint 2 1 100) = .ok afterMint := rfl
  exact ((Run.genesis sampleLedger_valid hg).call h1 (by decide) hm).call h2
    (by simp [Call.signer, sampleConfig]) h

theorem psm_solvent_of_covered_swaps :
    Run sampleConfig (Call.Covered sampleConfig) (afterRedeem 50) 50 ∧
    Solvent sampleConfig (afterRedeem 50) ∧ (50 : Int) = (afterRedeem 50).psmDebt.total := by
  have h : Run sampleConfig (Call.Covered sampleConfig) (afterRedeem 50) 50 := by
    apply run_afterRedeem 50
    · change _ ≤ _
      decide
    · intro ext int a hs ha
      cases hs.liveExternal
      cases hs.liveInternal
      cases ha
      constructor
      · exact .inr (.inr (by decide))
      · exact .inr (.inr (by decide))
    · rfl
  have hs := psm_solvent_of_covered (by decide) h
  exact ⟨h, hs.1, hs.2.1⟩

-- Less than the minimum would be left of the reserve and of the internal balance, so that both are
-- taken whole: nothing of the reserve is left for a debt of five.
theorem redeem_takes_reserve :
    Run sampleConfig (fun _ _ => True) (afterRedeem 95) 0 ∧
      sampleConfig.maximumIssuance < maxBalance ∧
    (afterRedeem 95).psmDebt.total = 5 ∧ (afterRedeem 95).getReserve sampleConfig 1 = 0 ∧
    ¬Solvent sampleConfig (afterRedeem 95) ∧
    (afterRedeem 95).redeem sampleConfig 2 1 5 = .error .unexpected := by
  refine ⟨run_afterRedeem 95 trivial trivial rfl, by decide, rfl, rfl, ?_, rfl⟩
  rintro ⟨int, hint, h⟩
  obtain ⟨ext, x, hx, hc, hle⟩ := h 1 (by decide)
  cases hint
  cases hx
  cases hc
  exact absurd hle (by decide)

end Samples
end Psm
