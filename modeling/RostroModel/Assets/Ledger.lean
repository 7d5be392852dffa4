import RostroModel.Library.Except
import RostroModel.Library.Machine

namespace Assets

-- Balances are of type `u128`.
def maxBalance : Nat :=
  Machine.maxValue 128

inductive AssetStatus
  | live
  | frozen
  | destroying
  deriving DecidableEq, Repr

inductive AccountStatus
  | liquid
  | frozen
  | blocked
  deriving DecidableEq, Repr

def AccountStatus.isFrozen : AccountStatus → Bool
  | .liquid => false
  | _ => true

def AccountStatus.isBlocked : AccountStatus → Bool
  | .blocked => true
  | _ => false

structure AssetDetails where
  supply : Nat
  minBalance : Nat
  isSufficient : Bool
  status : AssetStatus

structure AssetAccount where
  balance : Nat
  status : AccountStatus := .liquid
  depositHeld : Bool := false

inductive DispatchError
  | fundsUnavailable
  | unknownAsset
  | underflow
  | overflow
  | frozen
  | belowMinimum
  | cannotCreate
  | blocked
  | assetNotLive
  | noAccount
  deriving DecidableEq, Repr

-- What withdrawing an amount does. The balance of an account that is reduced to zero is the amount
-- that is lost on top of the one withdrawn.
inductive WithdrawConsequence
  | balanceLow
  | unknownAsset
  | underflow
  | frozen
  | reducedToZero (dust : Nat)
  | success

def WithdrawConsequence.intoResult : WithdrawConsequence → Except DispatchError Nat
  | .balanceLow => .error .fundsUnavailable
  | .unknownAsset => .error .unknownAsset
  | .underflow => .error .underflow
  | .frozen => .error .frozen
  | .reducedToZero dust => .ok dust
  | .success => .ok 0

inductive DepositConsequence
  | belowMinimum
  | cannotCreate
  | unknownAsset
  | overflow
  | blocked
  | success

def DepositConsequence.intoResult : DepositConsequence → Except DispatchError Unit
  | .belowMinimum => .error .belowMinimum
  | .cannotCreate => .error .cannotCreate
  | .unknownAsset => .error .unknownAsset
  | .overflow => .error .overflow
  | .blocked => .error .blocked
  | .success => .ok ()

-- The assets with their accounts. Whether the system lets an account have
-- another asset is not decided here.
structure Ledger (AssetId AccountId : Type) where
  assets : AssetId → Option AssetDetails
  accounts : AssetId → AccountId → Option AssetAccount
  decimals : AssetId → Nat
  canAccrueConsumers : AccountId → Bool

namespace Ledger

variable {AssetId AccountId : Type} [DecidableEq AssetId] [DecidableEq AccountId]

def setAccount (l : Ledger AssetId AccountId) (id : AssetId) (who : AccountId)
    (account : Option AssetAccount) : Ledger AssetId AccountId :=
  { l with accounts := Function.update l.accounts id (Function.update (l.accounts id) who account) }

def setTotalIssuance (l : Ledger AssetId AccountId) (id : AssetId) (amount : Nat) :
    Ledger AssetId AccountId :=
  { l with assets := Function.update l.assets id ((l.assets id).map ({ · with supply := amount })) }

def balance (l : Ledger AssetId AccountId) (id : AssetId) (who : AccountId) : Nat :=
  ((l.accounts id who).map (·.balance)).getD 0

def totalIssuance (l : Ledger AssetId AccountId) (id : AssetId) : Nat :=
  ((l.assets id).map (·.supply)).getD 0

def minimumBalance (l : Ledger AssetId AccountId) (id : AssetId) : Nat :=
  ((l.assets id).map (·.minBalance)).getD 0

def canIncrease (l : Ledger AssetId AccountId) (id : AssetId) (who : AccountId) (amount : Nat)
    (increaseSupply : Bool) : DepositConsequence :=
  match l.assets id with
  | none => .unknownAsset
  | some details =>
    if details.status = .destroying then .unknownAsset
    else if increaseSupply ∧ maxBalance < details.supply + amount then .overflow
    else
      match l.accounts id who with
      | some account =>
        if account.status.isBlocked then .blocked
        else if maxBalance < account.balance + amount then .overflow
        else .success
      | none =>
        if amount < details.minBalance then .belowMinimum
        else if ¬details.isSufficient ∧ ¬l.canAccrueConsumers who then .cannotCreate
        else .success

-- For accounts that may be used up, and on which nothing is held or frozen.
def canDecrease (l : Ledger AssetId AccountId) (id : AssetId) (who : AccountId) (amount : Nat) :
    WithdrawConsequence :=
  match l.assets id with
  | none => .unknownAsset
  | some details =>
    if details.supply < amount then .underflow
    else if details.status = .frozen then .frozen
    else if details.status = .destroying then .unknownAsset
    else if amount = 0 then .success
    else
      match l.accounts id who with
      | none => .balanceLow
      | some account =>
        if account.status.isFrozen then .frozen
        else if account.balance < amount then .balanceLow
        else if account.balance - amount < details.minBalance then
          .reducedToZero (account.balance - amount)
        else .success

def reducibleBalance (l : Ledger AssetId AccountId) (id : AssetId) (who : AccountId) :
    Except DispatchError Nat := do
  let details ← Except.okOr (l.assets id) .unknownAsset
  Except.ensure (details.status = .live) .assetNotLive
  let account ← Except.okOr (l.accounts id who) .noAccount
  Except.ensure (¬account.status.isFrozen) .frozen
  return min account.balance details.supply

-- The amount that is taken from an account when it is asked for an amount, at best effort.
def prepDebit (l : Ledger AssetId AccountId) (id : AssetId) (target : AccountId) (amount : Nat) :
    Except DispatchError Nat := do
  let reducible ← l.reducibleBalance id target
  let actual := min reducible amount
  let dust ← (l.canDecrease id target actual).intoResult
  return Machine.saturatingAdd 128 actual dust

def decreaseBalance (l : Ledger AssetId AccountId) (id : AssetId) (target : AccountId)
    (amount : Nat) :
    Except DispatchError (Ledger AssetId AccountId × Nat) :=
  if amount = 0 then .ok (l, amount)
  else do
    let details ← Except.okOr (l.assets id) .unknownAsset
    Except.ensure (details.status = .live) .assetNotLive
    let actual ← l.prepDebit id target amount
    let account ← Except.okOr (l.accounts id target) .noAccount
    let account := { account with balance := account.balance - actual }
    if account.balance < details.minBalance ∧ ¬account.depositHeld then
      return (l.setAccount id target none, actual)
    else return (l.setAccount id target (some account), actual)

def increaseBalance (l : Ledger AssetId AccountId) (id : AssetId) (beneficiary : AccountId)
    (amount : Nat) : Except DispatchError (Ledger AssetId AccountId) :=
  if amount = 0 then .ok l
  else do
    (l.canIncrease id beneficiary amount true).intoResult
    let details ← Except.okOr (l.assets id) .unknownAsset
    Except.ensure (details.status = .live) .assetNotLive
    match l.accounts id beneficiary with
    | some account =>
      return l.setAccount id beneficiary
        (some { account with balance := Machine.saturatingAdd 128 account.balance amount })
    | none => do
      Except.ensure (details.minBalance ≤ amount) .belowMinimum
      return l.setAccount id beneficiary (some { balance := amount })

-- A failure to credit the destination is ignored.
def transfer (l : Ledger AssetId AccountId) (id : AssetId) (source dest : AccountId)
    (amount : Nat) :
    Except DispatchError (Ledger AssetId AccountId) := do
  let _extra ← (l.canDecrease id source amount).intoResult
  (l.canIncrease id dest amount false).intoResult
  if source = dest then return l
  else do
    let (l, _) ← l.decreaseBalance id source amount
    match l.increaseBalance id dest amount with
    | .ok l' => return l'
    | .error _ => return l

def mintInto (l : Ledger AssetId AccountId) (id : AssetId) (who : AccountId) (amount : Nat) :
    Except DispatchError (Ledger AssetId AccountId) := do
  Except.ensure (l.totalIssuance id + amount ≤ maxBalance) .overflow
  let l ← l.increaseBalance id who amount
  return l.setTotalIssuance id (Machine.saturatingAdd 128 (l.totalIssuance id) amount)

def burnFrom (l : Ledger AssetId AccountId) (id : AssetId) (who : AccountId) (amount : Nat) :
    Except DispatchError (Ledger AssetId AccountId) := do
  let actual := min ((l.reducibleBalance id who).toOption.getD 0) amount
  Except.ensure (actual = amount) .fundsUnavailable
  Except.ensure (actual ≤ l.totalIssuance id) .overflow
  let (l, actual) ← l.decreaseBalance id who actual
  return l.setTotalIssuance id (l.totalIssuance id - actual)

end Ledger
end Assets
