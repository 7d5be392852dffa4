import RostroModel.Broker.Storage
import RostroModel.Library.BinarySearch

namespace Broker

open Except (ensure okOr)
open Function (update)

variable {Account Ledger : Type} [DecidableEq Account] (c : Config Account Ledger)

def doConfigure (config : ConfigRecord) (s : State Account Ledger) :
    Except Error (State Account Ledger) := do
  ensure (config.leadinLength ≠ 0) .invalidConfig
  return { s with configuration := some config }

def doNotifyCoreCount (coreCount : Nat) (s : State Account Ledger) : State Account Ledger :=
  { s with coreCountInbox := some coreCount }

def doNotifyRevenue (revenue : OnDemandRevenueRecord) (s : State Account Ledger) :
    State Account Ledger :=
  { s with revenueInbox := some revenue }

def doReserve (workload : Schedule) (s : State Account Ledger) :
    Except Error (State Account Ledger) := do
  ensure (s.reservations.length < c.maxReservedCores) .tooManyReservations
  return { s with reservations := s.reservations ++ [workload] }

def doUnreserve (index : Nat) (s : State Account Ledger) : Except Error (State Account Ledger) := do
  ensure (index < s.reservations.length) .unknownReservation
  return { s with reservations := s.reservations.eraseIdx index }

def doForceReserve (workload : Schedule) (core : Nat) (s : State Account Ledger) :
    Except Error (State Account Ledger) := do
  let sale ← okOr s.saleInfo .noSales
  let s ← doReserve c workload s
  ensure (s.forceReservations.length < c.maxReservedCores) .tooManyReservations
  let s := { s with forceReservations := s.forceReservations ++ [workload] }
  let status ← okOr s.status .uninitialized
  let timeslice := status.lastCommittedTimeslice + 1
  let workplan :=
    if timeslice < sale.regionBegin then
      update s.workplan (timeslice, core) (some workload)
    else
      s.workplan
  return { s with workplan }

def doSetLease (now task «until» : Nat) (s : State Account Ledger) :
    Except Error (State Account Ledger) := do
  ensure («until» > currentTimeslice c now) .alreadyExpired
  ensure (s.leases.length < c.maxLeasedCores) .tooManyLeases
  return { s with leases := s.leases ++ [⟨«until», task⟩] }

def doRemoveLease (task : Nat) (s : State Account Ledger) :
    Except Error (State Account Ledger) := do
  let i ← okOr (s.leases.findIdx? fun lease => lease.task = task) .leaseNotFound
  return { s with leases := s.leases.eraseIdx i }

def doSwapLeases (id other : Nat) (s : State Account Ledger) : State Account Ledger :=
  let swap (lease : LeaseRecordItem) : LeaseRecordItem :=
    if lease.task = id then { lease with task := other }
    else if lease.task = other then { lease with task := id }
    else lease
  { s with leases := s.leases.map swap }

def ensureCoresForSale (status : StatusRecord) (sale : SaleInfoRecord) : Except Error Unit := do
  ensure (sale.firstCore < status.coreCount) .unavailable
  ensure (sale.coresSold < sale.coresOffered) .soldOut

def doPurchase (now : Nat) (who : Account) (priceLimit : Nat) (s : State Account Ledger) :
    Except Error (State Account Ledger) := do
  let status ← okOr s.status .uninitialized
  let sale ← okOr s.saleInfo .noSales
  ensureCoresForSale status sale
  ensure (now > sale.saleStart) .tooEarly
  let price := salePrice c sale now
  ensure (priceLimit ≥ price) .overpriced
  let (ledger, sale, core) ← purchaseCore c s.ledger who price sale
  let s := { s with ledger, saleInfo := some sale }
  return issue s core sale.regionBegin .complete sale.regionEnd (some who) (some price)

def renewalPrice (now : Nat) (config : ConfigRecord) (sale : SaleInfoRecord) (price : Nat) : Nat :=
  let priceCap :=
    max (price + PerThing.mulNearest 1000000000 config.renewalBump price) sale.endPrice
  min (salePrice c sale now) priceCap

def doRenew (now : Nat) (who : Account) (core : Nat) (s : State Account Ledger) :
    Except Error (State Account Ledger × Nat) := do
  let config ← okOr s.configuration .uninitialized
  let status ← okOr s.status .uninitialized
  let sale ← okOr s.saleInfo .noSales
  ensureCoresForSale status sale
  let renewalId : PotentialRenewalId := ⟨core, sale.regionBegin⟩
  let record ← okOr (s.potentialRenewals renewalId) .notAllowed
  let workload ← okOr record.completion.drainComplete .incompleteAssignment
  let (ledger, sale, core) ← purchaseCore c s.ledger who record.price sale
  let workplan := update s.workplan (sale.regionBegin, core) (some workload)
  let newRecord := ⟨renewalPrice c now config sale record.price, .complete workload⟩
  let potentialRenewals :=
    update (update s.potentialRenewals renewalId none) ⟨core, sale.regionEnd⟩
      (some newRecord)
  return ({ s with ledger, workplan, potentialRenewals, saleInfo := some sale }, core)

def doTransfer (regionId : RegionId) (maybeCheckOwner : Option Account) (newOwner : Account)
    (s : State Account Ledger) : Except Error (State Account Ledger) := do
  let region ← okOr (s.regions regionId) .unknownRegion
  checkOwner maybeCheckOwner region
  let regions := update s.regions regionId (some { region with owner := some newOwner })
  return { s with regions }

def doPartition (regionId : RegionId) (maybeCheckOwner : Option Account) (pivotOffset : Nat)
    (s : State Account Ledger) : Except Error (State Account Ledger) := do
  let status ← okOr s.status .uninitialized
  let region ← okOr (s.regions regionId) .unknownRegion
  checkOwner maybeCheckOwner region
  let pivot := regionId.begin + pivotOffset
  ensure (pivot < region.end) .pivotTooLate
  ensure (pivot > regionId.begin) .pivotTooEarly
  let region := { region with paid := none }
  let s := forceUnpoolRegion s regionId region status
  let regions := update s.regions regionId (some { region with «end» := pivot })
  let regions := update regions { regionId with begin := pivot } (some region)
  return { s with regions }

def doInterlace (regionId : RegionId) (maybeCheckOwner : Option Account) (pivot : CoreMask)
    (s : State Account Ledger) : Except Error (State Account Ledger) := do
  let status ← okOr s.status .uninitialized
  let region ← okOr (s.regions regionId) .unknownRegion
  checkOwner maybeCheckOwner region
  ensure ((pivot &&& ~~~regionId.mask).isVoid) .exteriorPivot
  ensure (¬pivot.isVoid) .voidPivot
  ensure (pivot ≠ regionId.mask) .completePivot
  let s := forceUnpoolRegion s regionId region status
  let regions := update s.regions regionId none
  let regions := update regions { regionId with mask := pivot } (some region)
  let regions := update regions { regionId with mask := regionId.mask ^^^ pivot } (some region)
  return { s with regions }

-- The parts of the core that were assigned at the same price before, with those of the region.
def assignedParts (s : State Account Ledger) (renewalId : PotentialRenewalId) (price : Nat)
    (mask : CoreMask) : CoreMask :=
  match s.potentialRenewals renewalId with
  | some ⟨p, .partially w⟩ => (if price = p then w else .void) ||| mask
  | _ => .void ||| mask

-- A region that was assigned for the whole of its sale's length can be renewed once all
-- parts of the core have been.
def recordRenewal (s : State Account Ledger) (regionId : RegionId) (region : RegionRecord Account)
    (workplan : Schedule) : State Account Ledger :=
  match region.paid with
  | none => s
  | some price =>
    let renewalId : PotentialRenewalId := ⟨regionId.core, region.end⟩
    let assigned := assignedParts s renewalId price regionId.mask
    let workload := if assigned.isComplete then .complete workplan else .partially assigned
    { s with
      potentialRenewals := update s.potentialRenewals renewalId (some ⟨price, workload⟩) }

-- Writes the schedule with the item added, if there is room for it.
def pushWorkplan (s : State Account Ledger) (key : Nat × Nat) (plan : Schedule)
    (item : ScheduleItem) :
    State Account Ledger × Schedule :=
  match plan.tryPush item with
  | some plan => ({ s with workplan := update s.workplan key (some plan) }, plan)
  | none => ({ s with dropped := s.dropped + 1 }, plan)

-- The region is taken out of the pool, and what was planned for its parts of the core is replaced.
def assignRegion (config : ConfigRecord) (status : StatusRecord) (target : Nat)
    (finality : Finality) (regionId : RegionId) (region : RegionRecord Account)
    (s : State Account Ledger) :
    State Account Ledger :=
  let key := (regionId.begin, regionId.core)
  let plan := Schedule.outside ((s.workplan key).getD .empty) regionId.mask
  let unpooled := forceUnpoolRegion s regionId region status
  let pushed := pushWorkplan unpooled key plan ⟨regionId.mask, .task target⟩
  let duration := region.end - regionId.begin
  if duration = config.regionLength ∧ finality = .final then
    recordRenewal pushed.1 regionId region pushed.2
  else
    pushed.1

def doAssign (regionId : RegionId) (maybeCheckOwner : Option Account) (target : Nat)
    (finality : Finality) (s : State Account Ledger) : Except Error (State Account Ledger) := do
  let config ← okOr s.configuration .uninitialized
  let status ← okOr s.status .uninitialized
  let (s, utilized) ← utilize s regionId maybeCheckOwner finality
  match utilized with
  | none => return s
  | some (regionId, region) => return assignRegion config status target finality regionId region s

def doRemoveAssignment (regionId : RegionId) (s : State Account Ledger) :
    Except Error (State Account Ledger) := do
  ensure ((s.workplan (regionId.begin, regionId.core)).isSome) .assignmentNotFound
  return { s with workplan := update s.workplan (regionId.begin, regionId.core) none }

def poolRegion (payee : Account) (regionId : RegionId) (region : RegionRecord Account)
    (s : State Account Ledger) : State Account Ledger :=
  let key := (regionId.begin, regionId.core)
  let plan := (s.workplan key).getD .empty
  let duration := region.end - regionId.begin
  match plan.tryPush ⟨regionId.mask, .pool⟩ with
  | none => { s with dropped := s.dropped + 1 }
  | some plan =>
    let size : Int := regionId.mask.countOnes
    let io := accruePrivate s.instaPoolIo regionId.begin size
    { s with
      workplan := update s.workplan key (some plan)
      instaPoolIo := accruePrivate io region.end (-size)
      instaPoolContribution := update s.instaPoolContribution regionId (some ⟨duration, payee⟩) }

def doPool (regionId : RegionId) (maybeCheckOwner : Option Account) (payee : Account)
    (finality : Finality) (s : State Account Ledger) : Except Error (State Account Ledger) := do
  let (s, utilized) ← utilize s regionId maybeCheckOwner finality
  match utilized with
  | none => return s
  | some (regionId, region) => return poolRegion payee regionId region s

-- The loop of a claim. `items` are its events, one for each timeslice that something is paid for.
structure Claim where
  begin : Nat
  length : Nat
  payout : Nat
  history : Nat → Option InstaPoolHistoryRecord
  items : List (Nat × Nat)

-- The share of a contribution in what is left of the payout of a timeslice.
def share (contributedParts totalPayout privateContributions : Nat) : Nat :=
  totalPayout * contributedParts / privateContributions

-- What is left of the record once a contribution has taken its share.
def afterShare (contributedParts totalPayout : Nat) (record : InstaPoolHistoryRecord) :
    Option InstaPoolHistoryRecord :=
  let p := share contributedParts totalPayout record.privateContributions
  let privateContributions := record.privateContributions - contributedParts
  let remainingPayout := totalPayout - p
  if remainingPayout ≠ 0 ∧ privateContributions > 0 then
    some { record with privateContributions, maybePayout := some remainingPayout }
  else
    none

-- The cursor is moved past a timeslice.
def Claim.passed (claim : Claim) : Claim :=
  { claim with begin := claim.begin + 1, length := claim.length - 1 }

-- The contribution takes its share of the timeslice at the cursor.
def Claim.taken (contributedParts totalPayout : Nat) (record : InstaPoolHistoryRecord)
    (claim : Claim) :
    Claim :=
  let p := share contributedParts totalPayout record.privateContributions
  { claim.passed with
    payout := claim.payout + p
    history := update claim.history claim.begin (afterShare contributedParts totalPayout record)
    items := if p ≠ 0 then claim.items ++ [(claim.begin, p)] else claim.items }

-- The cursor is moved on before the record of the timeslice is looked up.
def claimLoop (contributedParts : Nat) : Nat → Claim → Claim
  | 0, claim => claim
  | n + 1, claim =>
    match claim.history claim.begin with
    | none => claimLoop contributedParts n claim.passed
    | some record =>
      match record.maybePayout with
      | none => claim.passed
      | some totalPayout =>
        claimLoop contributedParts n (claim.taken contributedParts totalPayout record)

def claimed (s : State Account Ledger) (region : RegionId) (length maxTimeslices : Nat) : Claim :=
  claimLoop region.mask.countOnes (min length maxTimeslices)
    ⟨region.begin, length, 0, s.instaPoolHistory, []⟩

-- The events of a claim: what is paid to whom, what is left to be claimed, and the items.
structure RevenueClaimPaid (Account : Type) where
  who : Account
  amount : Nat
  next : Option RegionId
  items : List (Nat × Nat)

def doClaimRevenue (region : RegionId) (maxTimeslices : Nat) (s : State Account Ledger) :
    Except Error (State Account Ledger × RevenueClaimPaid Account) := do
  ensure (maxTimeslices > 0) .noClaimTimeslices
  let contribution ← okOr (s.instaPoolContribution region) .unknownContribution
  let contributions := update s.instaPoolContribution region none
  let last := region.begin + min contribution.length maxTimeslices
  let claim := claimed s region contribution.length maxTimeslices
  let region := { region with begin := claim.begin }
  let contributions :=
    if claim.length > 0 then
      update contributions region (some { contribution with length := claim.length })
    else
      contributions
  -- a transfer that fails is reported and ignored
  let ledger := (c.transfer s.ledger c.accountId contribution.payee claim.payout).getD s.ledger
  let next := if last < claim.begin + claim.length then some region else none
  return ({ s with
    ledger, instaPoolContribution := contributions, instaPoolHistory :=
      claim.history }, { who := contribution.payee, amount := claim.payout, next,
                         items := claim.items })

def doDropRegion (regionId : RegionId) (s : State Account Ledger) :
    Except Error (State Account Ledger) := do
  let status ← okOr s.status .uninitialized
  let region ← okOr (s.regions regionId) .unknownRegion
  ensure (status.lastCommittedTimeslice ≥ region.end) .stillValid
  return { s with regions := update s.regions regionId none }

def doDropContribution (regionId : RegionId) (s : State Account Ledger) :
    Except Error (State Account Ledger) := do
  let config ← okOr s.configuration .uninitialized
  let status ← okOr s.status .uninitialized
  let contrib ← okOr (s.instaPoolContribution regionId) .unknownContribution
  let «end» := regionId.begin + contrib.length
  ensure (status.lastTimeslice ≥ «end» + config.contributionTimeout) .stillValid
  return { s with instaPoolContribution := update s.instaPoolContribution regionId none }

def doDropHistory (when : Nat) (s : State Account Ledger) :
    Except Error (State Account Ledger) := do
  let config ← okOr s.configuration .uninitialized
  let status ← okOr s.status .uninitialized
  ensure (status.lastTimeslice > when + config.contributionTimeout) .stillValid
  let record ← okOr (s.instaPoolHistory when) .noHistory
  let ledger :=
    match record.maybePayout with
    | some payout => (charge c s.ledger c.accountId payout).toOption.getD s.ledger
    | none => s.ledger
  return { s with ledger, instaPoolHistory := update s.instaPoolHistory when none }

def doDropRenewal (core when : Nat) (s : State Account Ledger) :
    Except Error (State Account Ledger) := do
  let status ← okOr s.status .uninitialized
  ensure (status.lastCommittedTimeslice ≥ when) .stillValid
  ensure ((s.potentialRenewals ⟨core, when⟩).isSome) .unknownRenewal
  return { s with potentialRenewals := update s.potentialRenewals ⟨core, when⟩ none }

def doRemovePotentialRenewal (core when : Nat) (s : State Account Ledger) :
    Except Error (State Account Ledger) := do
  ensure ((s.potentialRenewals ⟨core, when⟩).isSome) .unknownRenewal
  return { s with potentialRenewals := update s.potentialRenewals ⟨core, when⟩ none }

def searchRenewal (renewals : List AutoRenewalRecord) (core : Nat) : Except Nat Nat :=
  BinarySearch.search (fun i => (renewals[i]?).elim .gt fun r =>
    compare r.core core) renewals.length

-- A core that is expiring in the next bulk period is renewed now.
def renewIfExpiring (now : Nat) (sale : SaleInfoRecord) (who : Account) (core : Nat)
    (workloadEndHint : Option Nat) (s : State Account Ledger) :
    Except Error (State Account Ledger × Nat) :=
  if (s.potentialRenewals ⟨core, sale.regionBegin⟩).isSome then
    doRenew c now who core s
  else
    match workloadEndHint with
    | none => .error .notAllowed
    | some workloadEnd =>
      if (s.potentialRenewals ⟨core, workloadEnd⟩).isSome then .ok (s, core) else .error .notAllowed

-- Only the sovereign account of a task can enable or disable auto renewal.
def ensureSovereign (who : Account) (task : Nat) : Except Error Unit := do
  let sovereign ← okOr (c.sovereignAccountOf task) .sovereignAccountNotFound
  ensure (who = sovereign) .noPermission

def doEnableAutoRenew (now : Nat) (who : Account) (core task : Nat) (workloadEndHint : Option Nat)
    (s : State Account Ledger) : Except Error (State Account Ledger) := do
  ensureSovereign c who task
  let sale ← okOr s.saleInfo .noSales
  let (s, core) ← renewIfExpiring c now sale who core workloadEndHint s
  let pos :=
    match searchRenewal s.autoRenewals core with
    | .ok pos => pos
    | .error pos => pos
  ensure (s.autoRenewals.length < c.maxAutoRenewals) .tooManyAutoRenewals
  let record : AutoRenewalRecord := ⟨core, task, workloadEndHint.getD sale.regionEnd⟩
  return { s with autoRenewals := s.autoRenewals.insertIdx pos record }

def doDisableAutoRenew (who : Account) (core task : Nat) (s : State Account Ledger) :
    Except Error (State Account Ledger) := do
  ensureSovereign c who task
  let pos ← (searchRenewal s.autoRenewals core).mapError fun _ => Error.autoRenewalNotEnabled
  let record ← okOr s.autoRenewals[pos]? .autoRenewalNotEnabled
  ensure (record.core = core ∧ record.task = task) .noPermission
  return { s with autoRenewals := s.autoRenewals.eraseIdx pos }

end Broker
