import RostroModel.Library.BitMask
import RostroModel.Library.BoundedVec
import RostroModel.Library.Except
import RostroModel.Library.Machine
import RostroModel.Library.PerThing

namespace Broker

abbrev CoreMask := BitVec 80

namespace CoreMask

def void : CoreMask :=
  0#80

def complete : CoreMask :=
  BitVec.allOnes 80

def isVoid (m : CoreMask) : Bool :=
  m = void

def isComplete (m : CoreMask) : Bool :=
  m = complete

def countOnes (m : CoreMask) : Nat :=
  BitMask.countOnes m

end CoreMask

inductive CoreAssignment
  | idle
  | pool
  | task (id : Nat)
  deriving DecidableEq, Repr

namespace CoreAssignment

-- The derived order of the enumeration: by constructor first, then by the task.
def rank : CoreAssignment → Nat
  | idle => 0
  | pool => 1
  | task n => n + 2

theorem rank_injective : Function.Injective rank := by
  intro a b h
  cases a <;> cases b <;> simp_all [rank]

end CoreAssignment

structure ScheduleItem where
  mask : CoreMask
  assignment : CoreAssignment
  deriving DecidableEq

abbrev Schedule := BoundedVec 80 ScheduleItem

inductive Finality
  | provisional
  | final
  deriving DecidableEq

structure RegionId where
  begin : Nat
  core : Nat
  mask : CoreMask
  deriving DecidableEq

structure RegionRecord (Account : Type) where
  «end» : Nat
  owner : Option Account
  paid : Option Nat

structure ContributionRecord (Account : Type) where
  length : Nat
  payee : Account
  deriving DecidableEq

structure InstaPoolHistoryRecord where
  privateContributions : Nat := 0
  systemContributions : Nat := 0
  maybePayout : Option Nat := none
  deriving DecidableEq

inductive CompletionStatus
  | partially (assigned : CoreMask)
  | complete (schedule : Schedule)

def CompletionStatus.drainComplete : CompletionStatus → Option Schedule
  | complete schedule => some schedule
  | partially _ => none

structure PotentialRenewalId where
  core : Nat
  when : Nat
  deriving DecidableEq

structure PotentialRenewalRecord where
  price : Nat
  completion : CompletionStatus

structure StatusRecord where
  coreCount : Nat
  privatePoolSize : Nat
  systemPoolSize : Nat
  lastCommittedTimeslice : Nat
  lastTimeslice : Nat
  deriving DecidableEq

structure PoolIoRecord where
  «private» : Int := 0
  system : Int := 0
  deriving DecidableEq

structure SaleInfoRecord where
  saleStart : Nat
  leadinLength : Nat
  endPrice : Nat
  regionBegin : Nat
  regionEnd : Nat
  idealCoresSold : Nat
  coresOffered : Nat
  firstCore : Nat
  selloutPrice : Option Nat
  coresSold : Nat
  deriving DecidableEq

structure LeaseRecordItem where
  «until» : Nat
  task : Nat

structure OnDemandRevenueRecord where
  «until» : Nat
  amount : Nat

structure ConfigRecord where
  advanceNotice : Nat
  interludeLength : Nat
  leadinLength : Nat
  regionLength : Nat
  idealBulkProportion : Nat
  limitCoresOffered : Option Nat
  renewalBump : Nat
  contributionTimeout : Nat

structure AutoRenewalRecord where
  core : Nat
  task : Nat
  nextRenewal : Nat

inductive Error
  | unknownRegion | notOwner | pivotTooLate | pivotTooEarly | exteriorPivot | voidPivot
  | completePivot | noSales | overpriced | unavailable | soldOut | notAllowed | uninitialized
  | tooEarly | tooManyReservations | tooManyLeases | leaseNotFound | unknownContribution
  | incompleteAssignment | stillValid | noHistory | unknownReservation | unknownRenewal
  | alreadyExpired | invalidConfig | noClaimTimeslices | noPermission | tooManyAutoRenewals
  | sovereignAccountNotFound | autoRenewalNotEnabled | assignmentNotFound
  -- the currency refused
  | token
  deriving DecidableEq, Repr

structure AdaptedPrices where
  endPrice : Nat
  targetPrice : Nat

-- The items of the pallet's configuration: the constants, and the currency, the price adapter and
-- the conversions it is instantiated with.
structure Config (Account Ledger : Type) where
  timeslicePeriod : Nat
  maxReservedCores : Nat
  maxLeasedCores : Nat
  maxAutoRenewals : Nat
  accountId : Account
  sovereignAccountOf : Nat → Option Account
  leadinFactorAt : Nat → Nat
  adaptPrice : SaleInfoRecord → AdaptedPrices
  convertBack : Nat → Nat
  withdraw : Ledger → Account → Nat → Option Ledger
  onRevenue : Ledger → Nat → Ledger
  transfer : Ledger → Account → Account → Nat → Option Ledger

-- An instruction to the relay chain.
structure AssignCore where
  core : Nat
  begin : Nat
  assignment : List (CoreAssignment × Nat)
  deriving DecidableEq

-- The storage of the pallet. Next to it stand the instructions it has given to the relay chain, and
-- how many schedule items have been dropped because a schedule had no room for them.
structure State (Account Ledger : Type) where
  configuration : Option ConfigRecord := none
  reservations : List Schedule := []
  forceReservations : List Schedule := []
  leases : List LeaseRecordItem := []
  status : Option StatusRecord := none
  saleInfo : Option SaleInfoRecord := none
  potentialRenewals : PotentialRenewalId → Option PotentialRenewalRecord := fun _ => none
  regions : RegionId → Option (RegionRecord Account) := fun _ => none
  workplan : Nat × Nat → Option Schedule := fun _ => none
  workload : Nat → Schedule := fun _ => .empty
  instaPoolContribution : RegionId → Option (ContributionRecord Account) := fun _ => none
  instaPoolIo : Nat → PoolIoRecord := fun _ => {}
  instaPoolHistory : Nat → Option InstaPoolHistoryRecord := fun _ => none
  coreCountInbox : Option Nat := none
  autoRenewals : List AutoRenewalRecord := []
  revenueInbox : Option OnDemandRevenueRecord := none
  ledger : Ledger
  assigned : List AssignCore := []
  dropped : Nat := 0

variable {Account Ledger : Type} [DecidableEq Account]

-- Saturating arithmetic of 32-bit signed integers.
def saturatingAddI32 (a b : Int) : Int :=
  max (-2 ^ 31) (min (a + b) (2 ^ 31 - 1))

def asU32 (a : Int) : Nat :=
  (a % 2 ^ 32).toNat

def asI32 (n : Nat) : Int :=
  if n < 2 ^ 31 then n else n - 2 ^ 32

def currentTimeslice (c : Config Account Ledger) (now : Nat) : Nat :=
  now / c.timeslicePeriod

def latestTimesliceReadyToCommit (c : Config Account Ledger) (now : Nat) (config : ConfigRecord) :
    Nat :=
  (now + config.advanceNotice) / c.timeslicePeriod

def nextTimesliceToCommit (c : Config Account Ledger) (now : Nat) (config : ConfigRecord)
    (status : StatusRecord) : Option Nat :=
  if status.lastCommittedTimeslice < latestTimesliceReadyToCommit c now config then
    some (status.lastCommittedTimeslice + 1)
  else
    none

def fixedAccuracy : Nat :=
  1000000000

def salePrice (c : Config Account Ledger) (sale : SaleInfoRecord) (now : Nat) : Nat :=
  let num := min (now - sale.saleStart) sale.leadinLength
  let through := num * fixedAccuracy / sale.leadinLength
  c.leadinFactorAt through * sale.endPrice / fixedAccuracy

def charge (c : Config Account Ledger) (ledger : Ledger) (who : Account) (amount : Nat) :
    Except Error Ledger := do
  let ledger ← Except.okOr (c.withdraw ledger who amount) .token
  return c.onRevenue ledger amount

def purchaseCore (c : Config Account Ledger) (ledger : Ledger) (who : Account) (price : Nat)
    (sale : SaleInfoRecord) : Except Error (Ledger × SaleInfoRecord × Nat) := do
  let ledger ← charge c ledger who price
  let core := sale.firstCore + sale.coresSold
  let coresSold := sale.coresSold + 1
  let selloutPrice :=
    if coresSold ≤ sale.idealCoresSold ∨ sale.selloutPrice = none then some price
    else sale.selloutPrice
  return (ledger, { sale with coresSold, selloutPrice }, core)

def issue (s : State Account Ledger) (core begin : Nat) (mask : CoreMask) («end» : Nat)
    (owner : Option Account) (paid : Option Nat) : State Account Ledger :=
  { s with regions := Function.update s.regions ⟨begin, core, mask⟩ (some ⟨«end», owner, paid⟩) }

def checkOwner (maybeCheckOwner : Option Account) (region : RegionRecord Account) :
    Except Error Unit :=
  match maybeCheckOwner with
  | none => .ok ()
  | some owner => Except.ensure (some owner = region.owner) .notOwner

-- The items of a schedule that do not use any of the parts of a mask.
def Schedule.outside (schedule : Schedule) (mask : CoreMask) : Schedule :=
  schedule.retain fun i => (i.mask &&& mask).isVoid

-- A region that has begun by the last committed timeslice is utilized from the next one on,
-- the others from their begin.
def utilizedFrom (lastCommittedTimeslice : Nat) (regionId : RegionId) : RegionId :=
  if regionId.begin ≤ lastCommittedTimeslice then
    { regionId with begin := lastCommittedTimeslice + 1 }
  else
    regionId

-- The workplan once a region that has not begun has been cleared from it.
def clearedWorkplan (lastCommittedTimeslice : Nat) (regionId : RegionId)
    (workplan : Nat × Nat → Option Schedule) : Nat × Nat → Option Schedule :=
  if regionId.begin ≤ lastCommittedTimeslice then
    workplan
  else
    Function.update workplan (regionId.begin, regionId.core)
      ((workplan (regionId.begin, regionId.core)).map (Schedule.outside · regionId.mask))

-- The regions once one has been utilized, which stays under its new name if that was provisional.
def utilizedRegions (finality : Finality) (regionId newId : RegionId)
    (region : RegionRecord Account) (regions : RegionId → Option (RegionRecord Account)) :
    RegionId → Option (RegionRecord Account) :=
  if finality = .provisional then
    Function.update (Function.update regions regionId none) newId (some region)
  else
    Function.update regions regionId none

def utilize (s : State Account Ledger) (regionId : RegionId) (maybeCheckOwner : Option Account)
    (finality : Finality) :
    Except Error (State Account Ledger × Option (RegionId × RegionRecord Account)) := do
  let status ← Except.okOr s.status .uninitialized
  let region ← Except.okOr (s.regions regionId) .unknownRegion
  checkOwner maybeCheckOwner region
  let n := status.lastCommittedTimeslice
  let newId := utilizedFrom n regionId
  if regionId.begin ≤ n ∧ newId.begin ≥ region.end then
    return ({ s with regions := Function.update s.regions regionId none }, none)
  else
    return ({ s with
      regions := utilizedRegions finality regionId newId region s.regions
      workplan := clearedWorkplan n regionId s.workplan }, some (newId, region))

-- Adds to what enters the pool from private regions at a timeslice.
def accruePrivate (io : Nat → PoolIoRecord) (when : Nat) (size : Int) : Nat → PoolIoRecord :=
  Function.update io when { io when with «private» := saturatingAddI32 (io when).private size }

def accrueSystem (io : Nat → PoolIoRecord) (when : Nat) (size : Int) : Nat → PoolIoRecord :=
  Function.update io when { io when with system := saturatingAddI32 (io when).system size }

def forceUnpoolRegion (s : State Account Ledger) (regionId : RegionId)
    (region : RegionRecord Account) (status : StatusRecord) : State Account Ledger :=
  match s.instaPoolContribution regionId with
  | none => s
  | some _ =>
    let s := { s with
      instaPoolContribution := Function.update s.instaPoolContribution regionId none }
    let endTimeslice := status.lastCommittedTimeslice + 1
    if region.end ≤ endTimeslice then
      s
    else
      let size : Int := regionId.mask.countOnes
      let unpooledAt := max endTimeslice regionId.begin
      let io := accruePrivate s.instaPoolIo unpooledAt (-size)
      { s with instaPoolIo := accruePrivate io region.end size }

end Broker
