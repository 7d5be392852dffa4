import RostroModel.Library.PerThing
import RostroModel.Library.TreeMap
import RostroModel.Assets.Balances

namespace Psm

open Assets
open Except (ensure okOr)

structure Permill where
  parts : Nat
  le : parts ≤ 1000000

namespace Permill

def zero : Permill :=
  ⟨0, Nat.zero_le _⟩

def mulCeil (p : Permill) (b : Nat) : Nat :=
  PerThing.mulCeil 1000000 p.parts b

def mulFloor (p : Permill) (b : Nat) : Nat :=
  PerThing.mulFloor 1000000 p.parts b

end Permill

def defaultFee : Permill :=
  ⟨5000, by decide⟩

def maxDecimalsDiff : Nat :=
  24

inductive CircuitBreakerLevel
  | allEnabled
  | mintingDisabled
  | allDisabled
  deriving DecidableEq, Repr

def CircuitBreakerLevel.allowsMinting : CircuitBreakerLevel → Bool
  | .allEnabled => true
  | _ => false

def CircuitBreakerLevel.allowsRedemption : CircuitBreakerLevel → Bool
  | .allDisabled => false
  | _ => true

inductive PsmManagerLevel
  | full
  | emergency
  deriving DecidableEq, Repr

namespace PsmManagerLevel

def isFull : PsmManagerLevel → Bool
  | .full => true
  | .emergency => false

def canSetFees (level : PsmManagerLevel) : Bool :=
  level.isFull

def canSetMaxPsmDebt (level : PsmManagerLevel) : Bool :=
  level.isFull

def canSetAssetCeiling (_ : PsmManagerLevel) : Bool :=
  true

def canManageAssets (level : PsmManagerLevel) : Bool :=
  level.isFull

end PsmManagerLevel

inductive Error
  | insufficientReserve
  | exceedsMaxPsmDebt
  | belowMinimumSwap
  | mintingStopped
  | allSwapsStopped
  | unsupportedAsset
  | exceedsMaxIssuance
  | assetAlreadyApproved
  | assetDoesNotExist
  | assetNotApproved
  | assetHasDebt
  | insufficientPrivilege
  | tooManyAssets
  | decimalsMismatch
  | decimalsRangeExceeded
  | conversionOverflow
  | amountTooSmallAfterConversion
  | unexpected
  | dispatch (error : DispatchError)
  deriving DecidableEq, Repr

section Conversion

def pow10 (exp : Nat) : Except Error Nat := do
  ensure (10 ^ exp ≤ maxBalance) .conversionOverflow
  return 10 ^ exp

-- An amount with some decimals as an amount with others, rounded down.
def rescale (amount decimals decimals' : Nat) : Except Error Nat :=
  if decimals = decimals' then .ok amount
  else if decimals < decimals' then do
    let factor ← pow10 (decimals' - decimals)
    ensure (amount * factor ≤ maxBalance) .conversionOverflow
    return amount * factor
  else do
    let factor ← pow10 (decimals - decimals')
    return amount / factor

def externalToInternal (amount extDecimals internalDecimals : Nat) : Except Error Nat :=
  rescale amount extDecimals internalDecimals

def internalToExternal (amount extDecimals internalDecimals : Nat) : Except Error Nat :=
  rescale amount internalDecimals extDecimals

-- The amounts of a swap from the external to the internal asset.
structure MintAmounts where
  internalEquivalent : Nat
  effectiveExternal : Nat
  fee : Nat
  internalToUser : Nat

def mintAmounts (minSwapAmount : Nat) (mintingFee : Permill)
    (extDecimals internalDecimals externalAmount : Nat) : Except Error MintAmounts := do
  let internalEquivalent ← externalToInternal externalAmount extDecimals internalDecimals
  ensure (internalEquivalent ≠ 0) .amountTooSmallAfterConversion
  ensure (minSwapAmount ≤ internalEquivalent) .belowMinimumSwap
  let effectiveExternal ← internalToExternal internalEquivalent extDecimals internalDecimals
  let fee := mintingFee.mulCeil internalEquivalent
  return { internalEquivalent, effectiveExternal, fee, internalToUser := internalEquivalent - fee }

-- The amounts of a swap from the internal to the external asset.
structure RedeemAmounts where
  fee : Nat
  internalNet : Nat
  externalOut : Nat
  effectiveInternalNet : Nat

def redeemAmounts (minSwapAmount : Nat) (redemptionFee : Permill)
    (extDecimals internalDecimals amount : Nat) : Except Error RedeemAmounts := do
  ensure (minSwapAmount ≤ amount) .belowMinimumSwap
  let fee := redemptionFee.mulCeil amount
  let internalNet := amount - fee
  let externalOut ← internalToExternal internalNet extDecimals internalDecimals
  ensure (internalNet = 0 ∨ externalOut ≠ 0) .amountTooSmallAfterConversion
  let effectiveInternalNet ← externalToInternal externalOut extDecimals internalDecimals
  return { fee, internalNet, externalOut, effectiveInternalNet }

end Conversion

variable {AssetId AccountId : Type}

structure Config (AssetId AccountId : Type) where
  internalAsset : AssetId
  psmAccount : AccountId
  feeDestination : AccountId
  maximumIssuance : Nat
  minSwapAmount : Nat
  maxExternalAssets : Nat

structure State (AssetId AccountId : Type) [LinearOrder AssetId] where
  ledger : Ledger AssetId AccountId
  psmDebt : Std.ExtTreeMap AssetId Nat := ∅
  mintingFee : Std.ExtTreeMap AssetId Permill := ∅
  redemptionFee : Std.ExtTreeMap AssetId Permill := ∅
  maxPsmDebtOfTotal : Permill := .zero
  assetCeilingWeight : Std.ExtTreeMap AssetId Permill := ∅
  externalAssets : Std.ExtTreeMap AssetId CircuitBreakerLevel := ∅
  externalDecimals : Std.ExtTreeMap AssetId Nat := ∅
  internalDecimals : Option Nat := none

variable [LinearOrder AssetId] [DecidableEq AccountId]

namespace State

def debtOf (s : State AssetId AccountId) (asset : AssetId) : Nat :=
  (s.psmDebt[asset]?).getD 0

def mintingFeeOf (s : State AssetId AccountId) (asset : AssetId) : Permill :=
  (s.mintingFee[asset]?).getD defaultFee

def redemptionFeeOf (s : State AssetId AccountId) (asset : AssetId) : Permill :=
  (s.redemptionFee[asset]?).getD defaultFee

def maxPsmDebt (c : Config AssetId AccountId) (s : State AssetId AccountId) : Nat :=
  s.maxPsmDebtOfTotal.mulFloor c.maximumIssuance

def maxAssetDebt (c : Config AssetId AccountId) (s : State AssetId AccountId) (asset : AssetId) :
    Nat :=
  let assetWeight := ((s.assetCeilingWeight[asset]?).getD .zero).parts
  if assetWeight = 0 then 0
  else
    let totalWeightSum :=
      s.assetCeilingWeight.toList.foldl (fun acc e => Machine.saturatingAdd 32 acc e.2.parts) 0
    if totalWeightSum = 0 then 0
    else
      PerThing.mulFloor 1000000000 (PerThing.fromRational 1000000000 assetWeight totalWeightSum)
        (s.maxPsmDebt c)

def totalPsmDebt (s : State AssetId AccountId) : Nat :=
  s.psmDebt.toList.foldl (fun acc e => Machine.saturatingAdd 128 acc e.2) 0

def getReserve (c : Config AssetId AccountId) (s : State AssetId AccountId) (asset : AssetId) :
    Nat :=
  s.ledger.balance asset c.psmAccount

def internalIssuance (c : Config AssetId AccountId) (s : State AssetId AccountId) : Nat :=
  s.ledger.totalIssuance c.internalAsset

def ensureDecimalsMatch (c : Config AssetId AccountId) (s : State AssetId AccountId)
    (asset : AssetId) :
    Except Error (Nat × Nat) := do
  let extDecimals ← okOr s.externalDecimals[asset]? .unsupportedAsset
  ensure (s.ledger.decimals asset = extDecimals) .decimalsMismatch
  let internalDecimals ← okOr s.internalDecimals .unexpected
  ensure (s.ledger.decimals c.internalAsset = internalDecimals) .decimalsMismatch
  return (extDecimals, internalDecimals)

def mint (c : Config AssetId AccountId) (s : State AssetId AccountId) (who : AccountId)
    (asset : AssetId) (externalAmount : Nat) :
    Except Error (State AssetId AccountId × MintAmounts) := do
  let assetStatus ← okOr s.externalAssets[asset]? .unsupportedAsset
  ensure assetStatus.allowsMinting .mintingStopped
  let (extDecimals, internalDecimals) ← s.ensureDecimalsMatch c asset
  let a ← mintAmounts c.minSwapAmount (s.mintingFeeOf asset) extDecimals internalDecimals
    externalAmount
  ensure
    (Machine.saturatingAdd 128 (s.internalIssuance c) a.internalEquivalent ≤ c.maximumIssuance)
    .exceedsMaxIssuance
  ensure (Machine.saturatingAdd 128 s.totalPsmDebt a.internalEquivalent ≤ s.maxPsmDebt c)
    .exceedsMaxPsmDebt
  let newDebt := Machine.saturatingAdd 128 (s.debtOf asset) a.internalEquivalent
  ensure (newDebt ≤ s.maxAssetDebt c asset) .exceedsMaxPsmDebt
  let l ← (s.ledger.transfer asset who c.psmAccount a.effectiveExternal).mapError Error.dispatch
  let l ← (l.mintInto c.internalAsset who a.internalToUser).mapError Error.dispatch
  let l ← (if a.fee ≠ 0 then
      (l.mintInto c.internalAsset c.feeDestination a.fee).mapError Error.dispatch
    else .ok l)
  return ({ s with ledger := l, psmDebt := s.psmDebt.insert asset newDebt }, a)

def redeem (c : Config AssetId AccountId) (s : State AssetId AccountId) (who : AccountId)
    (asset : AssetId) (amount : Nat) : Except Error (State AssetId AccountId × RedeemAmounts) := do
  let assetStatus ← okOr s.externalAssets[asset]? .unsupportedAsset
  ensure assetStatus.allowsRedemption .allSwapsStopped
  let (extDecimals, internalDecimals) ← s.ensureDecimalsMatch c asset
  let a ← redeemAmounts c.minSwapAmount (s.redemptionFeeOf asset) extDecimals
    internalDecimals amount
  ensure (a.effectiveInternalNet ≤ s.debtOf asset) .insufficientReserve
  -- The branch that the source calls unexpected.
  ensure (a.externalOut ≤ s.getReserve c asset) .unexpected
  let l ← (if a.fee ≠ 0 then
      (s.ledger.transfer c.internalAsset who c.feeDestination a.fee).mapError Error.dispatch
    else .ok s.ledger)
  let l ← (if a.effectiveInternalNet ≠ 0 then
      (l.burnFrom c.internalAsset who a.effectiveInternalNet).mapError Error.dispatch
    else .ok l)
  let l ← (if a.externalOut ≠ 0 then
      (l.transfer asset c.psmAccount who a.externalOut).mapError Error.dispatch
    else .ok l)
  let newDebt := s.debtOf asset - a.effectiveInternalNet
  return ({ s with ledger := l, psmDebt := s.psmDebt.insert asset newDebt }, a)

def setForAsset (s : State AssetId AccountId) (allowed : Bool) (asset : AssetId)
    (update : State AssetId AccountId → State AssetId AccountId) :
    Except Error (State AssetId AccountId) := do
  ensure allowed .insufficientPrivilege
  ensure (asset ∈ s.externalAssets) .assetNotApproved
  return update s

def setMintingFee (s : State AssetId AccountId) (level : PsmManagerLevel) (asset : AssetId)
    (fee : Permill) : Except Error (State AssetId AccountId) :=
  s.setForAsset level.canSetFees asset fun s =>
    { s with mintingFee := s.mintingFee.insert asset fee }

def setRedemptionFee (s : State AssetId AccountId) (level : PsmManagerLevel) (asset : AssetId)
    (fee : Permill) : Except Error (State AssetId AccountId) :=
  s.setForAsset level.canSetFees asset fun s =>
    { s with redemptionFee := s.redemptionFee.insert asset fee }

def setAssetCeilingWeight (s : State AssetId AccountId) (level : PsmManagerLevel) (asset : AssetId)
    (weight : Permill) : Except Error (State AssetId AccountId) :=
  s.setForAsset level.canSetAssetCeiling asset fun s =>
    { s with assetCeilingWeight := s.assetCeilingWeight.insert asset weight }

-- Every manager may do this.
def setAssetStatus (s : State AssetId AccountId) (_ : PsmManagerLevel) (asset : AssetId)
    (status : CircuitBreakerLevel) : Except Error (State AssetId AccountId) :=
  s.setForAsset true asset fun s =>
    { s with externalAssets := s.externalAssets.insert asset status }

def setMaxPsmDebt (s : State AssetId AccountId) (level : PsmManagerLevel) (ratio : Permill) :
    Except Error (State AssetId AccountId) := do
  ensure level.canSetMaxPsmDebt .insufficientPrivilege
  return { s with maxPsmDebtOfTotal := ratio }

def addExternalAsset (c : Config AssetId AccountId) (s : State AssetId AccountId)
    (level : PsmManagerLevel) (asset : AssetId) : Except Error (State AssetId AccountId) := do
  ensure level.canManageAssets .insufficientPrivilege
  ensure (asset ∉ s.externalAssets) .assetAlreadyApproved
  ensure (s.ledger.assets asset).isSome .assetDoesNotExist
  ensure (s.externalAssets.size < c.maxExternalAssets) .tooManyAssets
  let assetDecimals := s.ledger.decimals asset
  let internalDecimals ← okOr s.internalDecimals .unexpected
  ensure (s.ledger.decimals c.internalAsset = internalDecimals) .decimalsMismatch
  ensure (Nat.dist assetDecimals internalDecimals ≤ maxDecimalsDiff) .decimalsRangeExceeded
  return { s with
    externalAssets := s.externalAssets.insert asset .allEnabled,
    externalDecimals := s.externalDecimals.insert asset assetDecimals }

def removeExternalAsset (s : State AssetId AccountId) (level : PsmManagerLevel) (asset : AssetId) :
    Except Error (State AssetId AccountId) := do
  ensure level.canManageAssets .insufficientPrivilege
  ensure (asset ∈ s.externalAssets) .assetNotApproved
  ensure (s.debtOf asset = 0) .assetHasDebt
  return { s with
    externalAssets := s.externalAssets.erase asset,
    mintingFee := s.mintingFee.erase asset,
    redemptionFee := s.redemptionFee.erase asset,
    assetCeilingWeight := s.assetCeilingWeight.erase asset,
    externalDecimals := s.externalDecimals.erase asset,
    psmDebt := s.psmDebt.erase asset }

-- The assets of the genesis configuration, one after the other. Nothing
-- if the genesis build panics.
def buildAssets (ledger : Ledger AssetId AccountId) (internalDecimals : Nat) :
    List (AssetId × Permill × Permill × Permill) → State AssetId AccountId →
      Option (State AssetId AccountId)
  | [], s => some s
  | (asset, mintingFee, redemptionFee, ceilingWeight) :: configs, s =>
    if Nat.dist (ledger.decimals asset) internalDecimals ≤ maxDecimalsDiff then
      buildAssets ledger internalDecimals configs { s with
        externalAssets := s.externalAssets.insert asset .allEnabled,
        externalDecimals := s.externalDecimals.insert asset (ledger.decimals asset),
        mintingFee := s.mintingFee.insert asset mintingFee,
        redemptionFee := s.redemptionFee.insert asset redemptionFee,
        assetCeilingWeight := s.assetCeilingWeight.insert asset ceilingWeight }
    else none

def genesis (c : Config AssetId AccountId) (ledger : Ledger AssetId AccountId)
    (maxPsmDebtOfTotal : Permill)
    (assetConfigs : Std.ExtTreeMap AssetId (Permill × Permill × Permill)) :
    Option (State AssetId AccountId) :=
  let internalDecimals := ledger.decimals c.internalAsset
  if assetConfigs.size ≤ c.maxExternalAssets then
    buildAssets ledger internalDecimals assetConfigs.toList
      { ledger, maxPsmDebtOfTotal, internalDecimals := some internalDecimals }
  else none

end State
end Psm
