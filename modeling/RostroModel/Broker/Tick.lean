import RostroModel.Broker.Dispatch

namespace Broker

variable {Account Ledger : Type} [DecidableEq Account] (c : Config Account Ledger)

def processCoreCount (s : State Account Ledger) (status : StatusRecord) :
    State Account Ledger × StatusRecord :=
  match s.coreCountInbox with
  | some coreCount => ({ s with coreCountInbox := none }, { status with coreCount })
  | none => (s, status)

-- The part of the revenue of a timeslice that goes to the system's cores is charged at once.
def systemPayout (record : InstaPoolHistoryRecord) (revenue : Nat) : Nat :=
  let totalContrib := record.systemContributions + record.privateContributions
  if totalContrib ≠ 0 then revenue * record.systemContributions / totalContrib else 0

def recordRevenue (s : State Account Ledger) (when revenue : Nat) : State Account Ledger :=
  if revenue = 0 then
    { s with instaPoolHistory := Function.update s.instaPoolHistory when none }
  else
    let r := (s.instaPoolHistory when).getD {}
    if r.maybePayout.isSome then
      s
    else
      let payout := systemPayout r revenue
      let ledger :=
        if r.systemContributions + r.privateContributions ≠ 0 then
          (charge c s.ledger c.accountId payout).toOption.getD s.ledger
        else
          s.ledger
      let revenue := revenue - payout
      let record :=
        if revenue ≠ 0 ∧ r.privateContributions > 0 then
          some { r with maybePayout := some revenue }
        else
          none
      { s with ledger, instaPoolHistory := Function.update s.instaPoolHistory when record }

def processRevenue (s : State Account Ledger) : State Account Ledger :=
  match s.revenueInbox with
  | none => s
  | some ⟨«until», amount⟩ =>
    recordRevenue c { s with revenueInbox := none } («until» / c.timeslicePeriod - 1)
      (c.convertBack amount)

def planCores (workplan : Nat × Nat → Option Schedule) (when : Nat) :
    Nat → List Schedule → (Nat × Nat → Option Schedule)
  | _, [] => workplan
  | core, schedule :: schedules =>
    planCores (Function.update workplan (when, core) (some schedule)) when (core + 1) schedules

-- Writes schedules for consecutive cores as long as there are cores.
def planForced (workplan : Nat × Nat → Option Schedule) (when coreCount : Nat) :
    Nat → List Schedule → (Nat × Nat → Option Schedule)
  | _, [] => workplan
  | core, schedule :: schedules =>
    if core ≥ coreCount then
      planForced workplan when coreCount core schedules
    else
      planForced (Function.update workplan (when, core) (some schedule)) when coreCount
        (core + 1) schedules

def justPool : Schedule :=
  .truncateFrom [⟨.complete, .pool⟩]

def leaseSchedule (lease : LeaseRecordItem) : Schedule :=
  .truncateFrom [⟨.complete, .task lease.task⟩]

-- The leases that end within the period can be renewed in the next sale.
def renewLeases (targetPrice regionEnd : Nat)
    (renewals : PotentialRenewalId → Option PotentialRenewalRecord) :
    Nat → List LeaseRecordItem → (PotentialRenewalId → Option PotentialRenewalRecord)
  | _, [] => renewals
  | core, lease :: leases =>
    let renewals :=
      if lease.until < regionEnd then
        Function.update renewals ⟨core, regionEnd⟩
          (some ⟨targetPrice, .complete (leaseSchedule lease)⟩)
      else
        renewals
    renewLeases targetPrice regionEnd renewals (core + 1) leases

def pooledParts (schedule : Schedule) : Nat :=
  ((schedule.toList.filter fun i => i.assignment = .pool).map fun i => i.mask.countOnes).sum

-- The sale of the regions that begin where those of the old sale end.
def newSale (now : Nat) (oldSale : SaleInfoRecord) (config : ConfigRecord) (status : StatusRecord)
    (firstCore endPrice : Nat) : SaleInfoRecord :=
  let maxPossibleSales := status.coreCount - firstCore
  let coresOffered := min (config.limitCoresOffered.getD (Machine.maxValue 16)) maxPossibleSales
  { saleStart := now + config.interludeLength
    leadinLength := config.leadinLength
    endPrice
    regionBegin := oldSale.regionEnd
    regionEnd := oldSale.regionEnd + config.regionLength
    idealCoresSold := PerThing.mulNearest 1000000000 config.idealBulkProportion coresOffered
    coresOffered
    firstCore
    selloutPrice := if coresOffered > 0 then some endPrice else none
    coresSold := 0 }

def renewCore (now : Nat) (sale : SaleInfoRecord) (record : AutoRenewalRecord)
    (s : State Account Ledger) : State Account Ledger × Option AutoRenewalRecord :=
  if sale.regionBegin < record.nextRenewal then
    (s, some record)
  else
    match c.sovereignAccountOf record.task with
    | none => (s, none)
    | some payer =>
      match doRenew c now payer record.core s with
      | .ok (s, core) => (s, some ⟨core, record.task, sale.regionEnd⟩)
      | .error _ => (s, none)

def renewAll (now : Nat) (sale : SaleInfoRecord) :
    List AutoRenewalRecord → State Account Ledger → State Account Ledger × List AutoRenewalRecord
  | [], s => (s, [])
  | record :: records, s =>
    let (s, renewed) := renewCore c now sale record s
    let (s, rest) := renewAll now sale records s
    (s, renewed.toList ++ rest)

def renewCores (now : Nat) (sale : SaleInfoRecord) (s : State Account Ledger) :
    State Account Ledger :=
  let (s, autoRenewals) := renewAll c now sale s.autoRenewals s
  if autoRenewals.length ≤ c.maxAutoRenewals then { s with autoRenewals } else s

-- The unsold cores of the old sale go to the pool; the cores of the new period start with the
-- reservations and the leases.
def rotatedWorkplan (oldSale : SaleInfoRecord) (status : StatusRecord) (s : State Account Ledger) :
    Nat × Nat → Option Schedule :=
  let unsold := List.replicate (oldSale.coresOffered - oldSale.coresSold) justPool
  let firstUnsold := oldSale.firstCore + oldSale.coresSold
  let workplan := planCores s.workplan oldSale.regionBegin firstUnsold unsold
  let workplan := planCores workplan oldSale.regionEnd 0 s.reservations
  let workplan :=
    planForced workplan oldSale.regionBegin status.coreCount firstUnsold s.forceReservations
  planCores workplan oldSale.regionEnd s.reservations.length (s.leases.map leaseSchedule)

def rotatedIo (oldSale : SaleInfoRecord) (config : ConfigRecord) (s : State Account Ledger) :
    Nat → PoolIoRecord :=
  let oldPooled : Int := 80 * (oldSale.coresOffered - oldSale.coresSold : Nat)
  let io := accrueSystem s.instaPoolIo oldSale.regionBegin oldPooled
  let io := accrueSystem io oldSale.regionEnd (-oldPooled)
  let totalPooled : Int := (s.reservations.map pooledParts).sum
  let io := accrueSystem io oldSale.regionEnd totalPooled
  accrueSystem io (oldSale.regionEnd + config.regionLength) (-totalPooled)

-- The storage of the new period, before the renewals.
def rotated (now : Nat) (oldSale : SaleInfoRecord) (config : ConfigRecord) (status : StatusRecord)
    (s : State Account Ledger) : State Account Ledger :=
  let prices := c.adaptPrice oldSale
  let regionEnd := oldSale.regionEnd + config.regionLength
  let firstCore := s.reservations.length + s.leases.length
  { s with
    workplan := rotatedWorkplan oldSale status s
    instaPoolIo := rotatedIo oldSale config s
    forceReservations := []
    potentialRenewals :=
      renewLeases prices.targetPrice regionEnd s.potentialRenewals s.reservations.length s.leases
    leases := s.leases.filter fun lease => ¬lease.until < regionEnd
    saleInfo := some (newSale now oldSale config status firstCore prices.endPrice) }

def rotateSale (now : Nat) (oldSale : SaleInfoRecord) (config : ConfigRecord)
    (status : StatusRecord) (s : State Account Ledger) : State Account Ledger :=
  let firstCore := s.reservations.length + s.leases.length
  let sale := newSale now oldSale config status firstCore (c.adaptPrice oldSale).endPrice
  renewCores c now sale (rotated c now oldSale config status s)

-- The sale is rotated when its regions begin.
def rotateIfDue (now when : Nat) (config : ConfigRecord) (status : StatusRecord)
    (s : State Account Ledger) : State Account Ledger :=
  match s.saleInfo with
  | some sale => if when ≥ sale.regionBegin then rotateSale c now sale config status s else s
  | none => s

def processPool (when : Nat) (s : State Account Ledger) (status : StatusRecord) :
    State Account Ledger × StatusRecord :=
  let io := s.instaPoolIo when
  let privatePoolSize := asU32 (saturatingAddI32 (asI32 status.privatePoolSize) io.private)
  let systemPoolSize := asU32 (saturatingAddI32 (asI32 status.systemPoolSize) io.system)
  ({ s with
    instaPoolIo := Function.update s.instaPoolIo when {}
    instaPoolHistory :=
      Function.update s.instaPoolHistory when (some ⟨privatePoolSize, systemPoolSize, none⟩) },
   { status with privatePoolSize, systemPoolSize })

-- The workplan of a core with the items of its workload that use none of the same parts.
def mergedWorkload (workplan workload : Schedule) : List ScheduleItem :=
  let partsUsed : CoreMask := BitMask.union (workplan.toList.map (·.mask))
  workplan.toList ++ workload.toList.filter fun i => (i.mask &&& partsUsed).isVoid

def partsOf57600 (i : ScheduleItem) : CoreAssignment × Nat :=
  (i.assignment, i.mask.countOnes * 720)

def totalUsed (l : List (CoreAssignment × Nat)) : Nat :=
  l.foldl (fun total i => Machine.saturatingAdd 16 total i.2) 0

def withIdle (l : List (CoreAssignment × Nat)) : List (CoreAssignment × Nat) :=
  if totalUsed l < 57600 then l ++ [(.idle, 57600 - totalUsed l)] else l

def assignmentLe (a b : CoreAssignment × Nat) : Prop :=
  a.1.rank < b.1.rank ∨ a.1 = b.1 ∧ a.2 ≤ b.2

instance : DecidableRel assignmentLe := by
  intro a b
  unfold assignmentLe
  infer_instance

-- Adds an assignment at the end, to the last one if that is for the same.
def pushAssignment (l : List (CoreAssignment × Nat)) (i : CoreAssignment × Nat) :
    List (CoreAssignment × Nat) :=
  match l.getLast? with
  | some last =>
    if last.1 = i.1 then l.dropLast ++ [(last.1, Machine.wrappingAdd 16 last.2 i.2)] else l ++ [i]
  | none => l ++ [i]

def assignmentOf (schedule : Schedule) : List (CoreAssignment × Nat) :=
  let intermediate := (withIdle (schedule.toList.map partsOf57600)).insertionSort assignmentLe
  intermediate.foldl pushAssignment []

def processCoreSchedule (timeslice rcBegin : Nat) (s : State Account Ledger) (core : Nat) :
    State Account Ledger :=
  match s.workplan (timeslice, core) with
  | none => s
  | some workplan =>
    let merged := mergedWorkload workplan (s.workload core)
    let schedule : Schedule := .truncateFrom merged
    { s with
      dropped := s.dropped + (merged.length - 80)
      workplan := Function.update s.workplan (timeslice, core) none
      workload := Function.update s.workload core schedule
      assigned := s.assigned ++ [⟨core, rcBegin, assignmentOf schedule⟩] }

def commitTimeslice (now when : Nat) (config : ConfigRecord) (status : StatusRecord)
    (s : State Account Ledger) : State Account Ledger × StatusRecord :=
  let status := { status with lastCommittedTimeslice := when }
  let pool := processPool when (rotateIfDue c now when config status s) status
  let rcBegin := when * c.timeslicePeriod
  ((List.range pool.2.coreCount).foldl (processCoreSchedule when rcBegin) pool.1, pool.2)

def commitNext (now : Nat) (config : ConfigRecord) (status : StatusRecord)
    (s : State Account Ledger) :
    State Account Ledger × StatusRecord :=
  match nextTimesliceToCommit c now config status with
  | some when => commitTimeslice c now when config status s
  | none => (s, status)

-- One timeslice at a time, until the current one is reached.
def advanceTimeslice (now : Nat) (status : StatusRecord) : StatusRecord :=
  if status.lastTimeslice < currentTimeslice c now then
    { status with lastTimeslice := status.lastTimeslice + 1 }
  else
    status

def doTick (now : Nat) (s : State Account Ledger) : State Account Ledger :=
  match s.status, s.configuration with
  | some status, some config =>
    let counted := processCoreCount s status
    let committed := commitNext c now config counted.2 (processRevenue c counted.1)
    { committed.1 with status := some (advanceTimeslice c now committed.2) }
  | _, _ => s

def imaginarySale (now endPrice commitTimeslice : Nat) (config : ConfigRecord) :
    SaleInfoRecord where
  saleStart := now
  leadinLength := 0
  endPrice
  regionBegin := commitTimeslice
  regionEnd := commitTimeslice + config.regionLength
  idealCoresSold := 0
  coresOffered := 0
  firstCore := 0
  selloutPrice := none
  coresSold := 0

def doStartSales (now endPrice extraCores : Nat) (s : State Account Ledger) :
    Except Error (State Account Ledger) := do
  let config ← Except.okOr s.configuration .uninitialized
  let coreCount := s.leases.length + s.reservations.length + extraCores
  let commitTimeslice := latestTimesliceReadyToCommit c now config
  let status : StatusRecord := ⟨coreCount, 0, 0, commitTimeslice - 1, currentTimeslice c now⟩
  let s := rotateSale c now (imaginarySale now endPrice commitTimeslice config) config status s
  return { s with status := some status }

-- The calls of the pallet, with their origin where it is an account, and the tick of every block.
-- The origin of the others is the administrator.
inductive Call (Account : Type)
  | configure (config : ConfigRecord)
  | reserve (workload : Schedule)
  | unreserve (index : Nat)
  | setLease (task «until» : Nat)
  | startSales (endPrice extraCores : Nat)
  | purchase (who : Account) (priceLimit : Nat)
  | renew (who : Account) (core : Nat)
  | transfer (who : Account) (regionId : RegionId) (newOwner : Account)
  | partition (who : Account) (regionId : RegionId) (pivot : Nat)
  | interlace (who : Account) (regionId : RegionId) (pivot : CoreMask)
  | assign (who : Account) (regionId : RegionId) (task : Nat) (finality : Finality)
  | pool (who : Account) (regionId : RegionId) (payee : Account) (finality : Finality)
  | claimRevenue (regionId : RegionId) (maxTimeslices : Nat)
  | dropRegion (regionId : RegionId)
  | dropContribution (regionId : RegionId)
  | dropHistory (when : Nat)
  | dropRenewal (core when : Nat)
  | notifyCoreCount (coreCount : Nat)
  | notifyRevenue (revenue : OnDemandRevenueRecord)
  | enableAutoRenew (who : Account) (core task : Nat) (workloadEndHint : Option Nat)
  | disableAutoRenew (who : Account) (core task : Nat)
  | forceReserve (workload : Schedule) (core : Nat)
  | removeLease (task : Nat)
  | removeAssignment (regionId : RegionId)
  | removePotentialRenewal (core when : Nat)
  | forceTransfer (regionId : RegionId) (newOwner : Account)
  | swapLeases (id other : Nat)
  | tick

def dispatch (now : Nat) (s : State Account Ledger) :
    Call Account → Except Error (State Account Ledger)
  | .configure config => doConfigure config s
  | .reserve workload => doReserve c workload s
  | .unreserve index => doUnreserve index s
  | .setLease task «until» => doSetLease c now task «until» s
  | .startSales endPrice extraCores => doStartSales c now endPrice extraCores s
  | .purchase who priceLimit => doPurchase c now who priceLimit s
  | .renew who core => (doRenew c now who core s).map Prod.fst
  | .transfer who regionId newOwner => doTransfer regionId (some who) newOwner s
  | .partition who regionId pivot => doPartition regionId (some who) pivot s
  | .interlace who regionId pivot => doInterlace regionId (some who) pivot s
  | .assign who regionId task finality => doAssign regionId (some who) task finality s
  | .pool who regionId payee finality => doPool regionId (some who) payee finality s
  | .claimRevenue regionId maxTimeslices => (doClaimRevenue c regionId maxTimeslices s).map Prod.fst
  | .dropRegion regionId => doDropRegion regionId s
  | .dropContribution regionId => doDropContribution regionId s
  | .dropHistory when => doDropHistory c when s
  | .dropRenewal core when => doDropRenewal core when s
  | .notifyCoreCount coreCount => .ok (doNotifyCoreCount coreCount s)
  | .notifyRevenue revenue => .ok (doNotifyRevenue revenue s)
  | .enableAutoRenew who core task hint => doEnableAutoRenew c now who core task hint s
  | .disableAutoRenew who core task => doDisableAutoRenew c who core task s
  | .forceReserve workload core => doForceReserve c workload core s
  | .removeLease task => doRemoveLease task s
  | .removeAssignment regionId => doRemoveAssignment regionId s
  | .removePotentialRenewal core when => doRemovePotentialRenewal core when s
  | .forceTransfer regionId newOwner => doTransfer regionId none newOwner s
  | .swapLeases id other => .ok (doSwapLeases id other s)
  | .tick => .ok (doTick c now s)

-- A call that fails changes nothing.
def step (s : State Account Ledger) (e : Nat × Call Account) : State Account Ledger :=
  match dispatch c e.1 s e.2 with
  | .ok s => s
  | .error _ => s

def run (s : State Account Ledger) (es : List (Nat × Call Account)) : State Account Ledger :=
  es.foldl (step c) s

def sampleConfig : Config Nat Unit where
  timeslicePeriod := 1
  maxReservedCores := 5
  maxLeasedCores := 5
  maxAutoRenewals := 5
  accountId := 0
  sovereignAccountOf := some
  leadinFactorAt _ := fixedAccuracy
  adaptPrice sale := ⟨sale.endPrice, sale.endPrice⟩
  convertBack amount := amount
  withdraw _ _ _ := some ()
  onRevenue _ _ := ()
  transfer _ _ _ _ := some ()

-- Sales of regions of six timeslices, started at the first one with two cores on offer.
def sampleStart : List (Nat × Call Nat) :=
  [(1, .configure ⟨0, 0, 1, 6, 0, none, 0, 100⟩), (1, .startSales 10 2)]

def sampleStarted : State Nat Unit :=
  run sampleConfig { ledger := () } sampleStart

def lowerHalf : CoreMask :=
  0xffffffffff#80

def upperHalf : CoreMask :=
  0xffffffffff0000000000#80

end Broker
