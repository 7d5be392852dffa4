import RostroModel.Broker.Assignment
import RostroModel.Broker.Effects

namespace Broker

open Except (bind_eq_ok okOr_eq_ok)
open Function (update update_of_ne update_self)

variable {Account Ledger : Type} {c : Config Account Ledger} {s s' : State Account Ledger}
  {id : RegionId} {now : Nat} {finality : Finality}

-- Every plan and every workload is exact, every instruction to the relay chain is about the whole
-- core, and no item was dropped.
structure SchedulesExact (s : State Account Ledger) : Prop where
  workplan (key : Nat × Nat) (plan : Schedule) : s.workplan key = some plan → Exact plan.toList
  workload (core : Nat) : Exact (s.workload core).toList
  assigned : ∀ a ∈ s.assigned, Whole a.assignment
  dropped : s.dropped = 0

-- The schedules that will be planned are exact too, and no region is void.
structure Exactly (s : State Account Ledger) : Prop extends SchedulesExact s where
  regions (id : RegionId) (r : RegionRecord Account) : s.regions id = some r → id.mask ≠ 0#80
  reservations : ∀ w ∈ s.reservations, Exact w.toList
  forceReservations : ∀ w ∈ s.forceReservations, Exact w.toList
  renewals (id : PotentialRenewalId) (record : PotentialRenewalRecord) : s.potentialRenewals
    id = some record →
    ∀ w, record.completion = .complete w → Exact w.toList

theorem forall_update {α β : Type} [DecidableEq α] {f : α → Option β} {k : α} {v : Option β}
    {P : β → Prop} (hf : ∀ k b, f k = some b → P b) (hv : ∀ b, v = some b → P b) (k' : α) (b : β)
    (h : update f k v k' = some b) : P b := by
  by_cases hk : k' = k
  · rw [hk, update_self] at h
    exact hv b h
  · rw [update_of_ne hk] at h
    exact hf k' b h

theorem forall_update_key {α β : Type} [DecidableEq α] {f : α → Option β} {k : α} {v : Option β}
    {P : α → Prop} (hf : ∀ k b, f k = some b → P k) (hv : ∀ b, v = some b → P k) (k' : α) (b : β)
    (h : update f k v k' = some b) : P k' := by
  by_cases hk : k' = k
  · subst hk
    rw [update_self] at h
    exact hv b h
  · rw [update_of_ne hk] at h
    exact hf k' b h

theorem justPool_exact : Exact justPool.toList :=
  Exact.singleton complete_ne_zero

theorem leaseSchedule_exact (lease : LeaseRecordItem) : Exact (leaseSchedule lease).toList :=
  Exact.singleton complete_ne_zero

abbrev PlansExact (workplan : Nat × Nat → Option Schedule) : Prop :=
  ∀ key plan, workplan key = some plan → Exact plan.toList

variable {workplan : Nat × Nat → Option Schedule}

theorem PlansExact.update {key : Nat × Nat} {plan : Schedule}
    (h : PlansExact workplan) (hp : Exact plan.toList) :
    PlansExact (update workplan key (some plan)) :=
  forall_update h fun _ he => Option.some.inj he ▸ hp

theorem planCores_exact (h : PlansExact workplan) (when : Nat) :
    ∀ (core : Nat) (schedules : List Schedule), (∀ w ∈ schedules, Exact w.toList) →
      PlansExact (planCores workplan when core schedules) := by
  intro core schedules hs
  induction schedules generalizing workplan core
  case nil => exact h
  case cons w ws hi =>
    rw [List.forall_mem_cons] at hs
    exact hi (h.update hs.1) (core + 1) hs.2

theorem planForced_exact (h : PlansExact workplan) (when coreCount : Nat) :
    ∀ (core : Nat) (schedules : List Schedule), (∀ w ∈ schedules, Exact w.toList) →
      PlansExact (planForced workplan when coreCount core schedules) := by
  intro core schedules hs
  induction schedules generalizing workplan core
  case nil => exact h
  case cons w ws hi =>
    rw [List.forall_mem_cons] at hs
    rw [planForced]
    split_ifs
    · exact hi h core hs.2
    · exact hi (h.update hs.1) (core + 1) hs.2

abbrev RenewalsExact (renewals : PotentialRenewalId → Option PotentialRenewalRecord) : Prop :=
  ∀ id record, renewals id = some record → ∀ w, record.completion = .complete w → Exact w.toList

theorem renewLeases_exact {renewals : PotentialRenewalId → Option PotentialRenewalRecord}
    (h : RenewalsExact renewals) (targetPrice regionEnd : Nat) :
    ∀ (core : Nat) (leases : List LeaseRecordItem),
      RenewalsExact (renewLeases targetPrice regionEnd renewals core leases) := by
  intro core leases
  induction leases generalizing renewals core
  case nil => exact h
  case cons lease leases hi =>
    apply hi
    split_ifs
    · apply forall_update h
      rintro _ he w hw
      cases he
      cases hw
      exact leaseSchedule_exact lease
    · exact h

namespace Exactly

theorem initial (ledger : Ledger) : Exactly ({ ledger } : State Account Ledger) := by
  constructor
  case toSchedulesExact => constructor <;> simp [Exact.nil]
  all_goals simp

theorem renew {who : Account} {core core' : Nat} (h : Exactly s)
    (hr : doRenew c now who core s = .ok (s', core')) : Exactly s' := by
  obtain ⟨sale, sellout, record, workload, ledger, price, _, _, hp, hc, rfl⟩ := doRenew_eq_ok hr
  have hw := h.renewals _ record hp workload hc
  refine { h with workplan := PlansExact.update h.workplan hw, renewals := ?_ }
  apply forall_update
  · apply forall_update h.renewals
    simp
  · rintro _ he w hw'
    cases he
    cases hw'
    exact hw

theorem renewCores (sale : SaleInfoRecord) (h : Exactly s) : Exactly (renewCores c now sale s) := by
  apply renewCores_induction h
  · intro _ _ _ _ _ h hr
    exact h.renew hr
  · intro _ _ h
    exact { h with }

section

variable (h : Exactly s)
include h

theorem rotatedWorkplan : PlansExact (Broker.rotatedWorkplan sale status s) := by
  apply planCores_exact
  · apply planForced_exact _ _ _ _ _ h.forceReservations
    apply planCores_exact _ _ _ _ h.reservations
    apply planCores_exact h.workplan
    intro w hw
    rw [(List.mem_replicate.mp hw).2]
    exact justPool_exact
  · intro w hw
    obtain ⟨lease, _, rfl⟩ := List.mem_map.mp hw
    exact leaseSchedule_exact lease

theorem rotateSale : Exactly (rotateSale c now sale config status s) := by
  apply Exactly.renewCores
  exact { h with
    workplan := h.rotatedWorkplan
    forceReservations := by simp [rotated]
    renewals := renewLeases_exact h.renewals _ _ _ _ }

theorem processCoreSchedule {when rcBegin core : Nat} :
    Exactly (processCoreSchedule when rcBegin s core) := by
  rw [Broker.processCoreSchedule]
  split
  case h_1 => exact h
  case h_2 plan hp =>
    have hm := mergedWorkload_exact (h.workplan _ plan hp) (h.workload core)
    have ht := BoundedVec.toList_truncateFrom hm.length_le
    refine { h with workplan := ?_, workload := ?_, assigned := ?_, dropped := ?_ }
    · apply forall_update h.workplan
      simp
    · intro core'
      by_cases hc : core' = core
      · rw [hc]
        simp only [update_self, ht]
        exact hm
      · simp only [update_of_ne hc]
        exact h.workload core'
    · intro a ha
      rcases List.mem_append.mp ha with ha | ha
      · exact h.assigned a ha
      · rw [List.mem_singleton.mp ha]
        apply assignmentOf_whole
        rw [ht]
        exact hm
    · have hl := hm.length_le
      have hd := h.dropped
      dsimp only
      omega

theorem commitNext : Exactly (commitNext c now config status s).1 := by
  rw [Broker.commitNext]
  split
  case h_1 when _ =>
    apply processCoreSchedule_induction
    · intro _ _ h
      exact h.processCoreSchedule
    · have hr : Exactly (rotateIfDue c now when config
          { status with lastCommittedTimeslice := when } s) := by
        rw [rotateIfDue]
        split
        · split_ifs
          · exact h.rotateSale
          · exact h
        · exact h
      exact { hr with }
  case h_2 => exact h

theorem processRevenue : Exactly (processRevenue c s) := by
  rw [Broker.processRevenue]
  split
  · exact h
  · rw [recordRevenue]
    dsimp only
    split_ifs <;> exact { h with }

theorem tick : Exactly (doTick c now s) := by
  rw [doTick]
  split
  case h_1 status config _ _ =>
    have h1 : Exactly (processCoreCount s status).1 := by
      rw [processCoreCount]
      split
      · exact { h with }
      · exact h
    exact { h1.processRevenue.commitNext with }
  case h_2 => exact h

theorem eraseRegion (id : RegionId) : Exactly { s with regions := update s.regions id none } :=
  { h with regions := forall_update_key h.regions (by simp) }

theorem clearedWorkplan {n : Nat} : PlansExact (Broker.clearedWorkplan n id s.workplan) := by
  rw [Broker.clearedWorkplan]
  split_ifs
  · exact h.workplan
  · apply forall_update h.workplan
    intro plan hp
    obtain ⟨plan', hp', rfl⟩ := Option.map_eq_some_iff.mp hp
    exact (h.workplan _ plan' hp').outside id.mask

theorem utilize [DecidableEq Account] {owner : Option Account}
    {u : Option (RegionId × RegionRecord Account)}
    (hu : utilize s id owner finality = .ok (s', u)) :
    Exactly s' ∧ ∀ id' r, u = some (id', r) → id'.mask ≠ 0#80 := by
  obtain ⟨status, r, _, hr, _, ⟨rfl, rfl⟩ | ⟨_, rfl, rfl⟩⟩ := utilize_eq_ok hu
  · exact ⟨h.eraseRegion id, by simp⟩
  · have hm : (utilizedFrom status.lastCommittedTimeslice id).mask ≠ 0#80 := by
      rw [utilizedFrom_mask]
      exact h.regions id r hr
    refine ⟨{ h with regions := ?_, workplan := h.clearedWorkplan }, ?_⟩
    · dsimp only [utilizedRegions]
      have he := forall_update_key (k := id) (v := none) (P := fun k => k.mask ≠ 0#80)
        h.regions (by simp)
      split_ifs
      · exact forall_update_key he fun _ _ => hm
      · exact he
    · rintro _ _ he
      cases he
      exact hm

end

theorem pushWorkplan (key : Nat × Nat) {plan : Schedule} (item : ScheduleItem) (h : Exactly s)
    (hp : Exact plan.toList) (hi : item.mask ≠ 0#80)
    (hd : ∀ j ∈ plan.toList, j.mask &&& item.mask = 0#80) :
    Exactly (pushWorkplan s key plan item).1 ∧ Exact (pushWorkplan s key plan item).2.toList := by
  obtain ⟨plan', hp'⟩ := BoundedVec.exists_tryPush (a := item) (hp.length_lt hi hd)
  have he : Exact plan'.toList := by
    rw [(BoundedVec.tryPush_eq_some.mp hp').2]
    exact hp.push hi hd
  rw [Broker.pushWorkplan, hp']
  exact ⟨{ h with workplan := PlansExact.update h.workplan he }, he⟩

theorem planned (h : Exactly s) (key : Nat × Nat) :
    Exact ((s.workplan key).getD .empty).toList := by
  cases hp : s.workplan key
  case none => exact Exact.nil
  case some plan => exact h.workplan key plan hp

theorem assignRegion {config : ConfigRecord} {status : StatusRecord} {task : Nat}
    {r : RegionRecord Account} (h : Exactly s) (hm : id.mask ≠ 0#80) :
    Exactly (assignRegion config status task finality id r s) := by
  have h1 : Exactly (forceUnpoolRegion s id r status) := by
    obtain ⟨_, _, hu⟩ := forceUnpoolRegion_eq s id r status
    rw [hu]
    exact { h with }
  obtain ⟨h2, hp⟩ := h1.pushWorkplan (id.begin, id.core) ⟨id.mask, .task task⟩
    ((h.planned (id.begin, id.core)).outside id.mask) hm fun _ => mem_outside
  rw [Broker.assignRegion]
  split_ifs
  · rw [recordRenewal]
    split
    · exact h2
    · refine { h2 with renewals := forall_update h2.renewals ?_ }
      rintro _ he w hw
      cases he
      split_ifs at hw
      cases hw
      exact hp
  · exact h2

theorem poolRegion (h : Exactly s) (hm : id.mask ≠ 0#80)
    (hd : ∀ plan, s.workplan (id.begin, id.core) = some plan →
      ∀ j ∈ plan.toList, j.mask &&& id.mask = 0#80) : Exactly (poolRegion payee id r s) := by
  have hf : ∀ j ∈ ((s.workplan (id.begin, id.core)).getD .empty).toList,
      j.mask &&& id.mask = 0#80 := by
    cases hp : s.workplan (id.begin, id.core)
    case none => simp
    case some plan => exact hd plan hp
  obtain ⟨plan, hp⟩ := BoundedVec.exists_tryPush (a := ⟨id.mask, .pool⟩)
    ((h.planned (id.begin, id.core)).length_lt (i := ⟨id.mask, .pool⟩) hm hf)
  have he : Exact plan.toList := by
    rw [(BoundedVec.tryPush_eq_some.mp hp).2]
    exact (h.planned (id.begin, id.core)).push hm hf
  rw [Broker.poolRegion]
  simp only [hp]
  exact { h with workplan := PlansExact.update h.workplan he }

end Exactly

theorem clear_of_poolRegion (h : SchedulesExact (poolRegion payee id r s)) (plan : Schedule)
    (hp : s.workplan (id.begin, id.core) = some plan) :
    ∀ j ∈ plan.toList, j.mask &&& id.mask = 0#80 := by
  rw [poolRegion, hp] at h
  split at h
  · exact absurd h.dropped (Nat.succ_ne_zero _)
  case h_2 plan' hp' =>
    have he := h.workplan (id.begin, id.core) plan' (update_self ..)
    rw [(BoundedVec.tryPush_eq_some.mp hp').2] at he
    exact he.of_append

-- A region that has begun can be pooled only if nothing is planned for its parts of the
-- core at the next timeslice.
def Clear (s : State Account Ledger) : Call Account → Prop
  | .pool who id _ _ =>
    ∀ status r, s.status = some status → s.regions id = some r → r.owner = some who →
      id.begin ≤ status.lastCommittedTimeslice → status.lastCommittedTimeslice + 1 < r.end →
      ∀ plan, s.workplan (status.lastCommittedTimeslice + 1, id.core) = some plan →
        ∀ i ∈ plan.toList, i.mask &&& id.mask = 0#80
  | _ => True

theorem clear_pool {who payee : Account}
    (h : ∀ status ∈ s.status, ∀ r ∈ s.regions id, r.owner = some who →
      id.begin ≤ status.lastCommittedTimeslice → status.lastCommittedTimeslice + 1 < r.end →
      ∀ plan ∈ s.workplan (status.lastCommittedTimeslice + 1, id.core),
        ∀ i ∈ plan.toList, i.mask &&& id.mask = 0#80) : Clear s (.pool who id payee finality) :=
  fun status r hs hr => h status hs r hr

def Supplied : Call Account → Prop
  | .reserve workload => Exact workload.toList
  | .forceReserve workload _ => Exact workload.toList
  | _ => True

variable [DecidableEq Account]

theorem doAssign_exactly (h : Exactly s) (ha : doAssign id owner task finality s = .ok s') :
    Exactly s' := by
  obtain ⟨config, status, s1, u, _, hu, ⟨_, rfl⟩ | ⟨id', r, he, rfl⟩⟩ := doAssign_eq_ok ha
  · exact (h.utilize hu).1
  · obtain ⟨h1, hm⟩ := h.utilize hu
    exact h1.assignRegion (hm id' r he)

theorem doPool_exactly (h : Exactly s) (hc : Clear s (.pool who id payee finality))
    (hp : doPool id (some who) payee finality s = .ok s') : Exactly s' := by
  obtain ⟨s1, u, hu, ⟨_, rfl⟩ | ⟨id', r, he, rfl⟩⟩ := doPool_eq_ok hp
  · exact (h.utilize hu).1
  · obtain ⟨h1, hm⟩ := h.utilize hu
    apply h1.poolRegion (hm id' r he)
    intro plan hplan
    obtain ⟨status, r', hs, hr, ho, ⟨hn, _⟩ | ⟨hl, hi, rfl⟩⟩ := utilize_eq_ok hu
    · rw [hn] at he
      cases he
    rw [hi] at he
    cases he
    dsimp only at hplan
    rw [utilizedFrom_mask]
    -- a region that has begun is not cleared from the plan, the others are
    by_cases hb : id.begin ≤ status.lastCommittedTimeslice
    · have hl' := hl hb
      rw [clearedWorkplan, if_pos hb, utilizedFrom, if_pos hb] at hplan
      rw [utilizedFrom, if_pos hb] at hl'
      exact hc status r hs hr (Except.ensure_eq_ok.mp ho).symm hb hl' plan hplan
    · rw [clearedWorkplan, if_neg hb, utilizedFrom, if_neg hb, update_self] at hplan
      obtain ⟨plan', _, rfl⟩ := Option.map_eq_some_iff.mp hplan
      intro j
      exact mem_outside

omit [DecidableEq Account] in
theorem doForceReserve_exactly {workload : Schedule} (h : Exactly s)
    (hw : Exact workload.toList) (hf : doForceReserve c workload core s = .ok s') : Exactly s' := by
  simp only [doForceReserve, doReserve, bind_eq_ok] at hf
  obtain ⟨_, _, _, ⟨_, _, he⟩, _, _, _, _, hf⟩ := hf
  cases he
  cases hf
  have hm : ∀ {l : List Schedule}, (∀ w ∈ l, Exact w.toList) →
      ∀ w ∈ l ++ [workload], Exact w.toList := by
    intro l hl w hm
    rcases List.mem_append.mp hm with hm | hm
    · exact hl w hm
    · rw [List.mem_singleton.mp hm]
      exact hw
  refine { h with reservations := hm h.reservations, forceReservations := hm h.forceReservations,
                  workplan := ?_ }
  split_ifs
  · exact PlansExact.update h.workplan hw
  · exact h.workplan

theorem doEnableAutoRenew_exactly (h : Exactly s)
    (he : doEnableAutoRenew c now who core task hint s = .ok s') : Exactly s' := by
  simp only [doEnableAutoRenew, bind_eq_ok] at he
  obtain ⟨_, _, sale, _, ⟨s1, core'⟩, hr, _, _, he⟩ := he
  cases he
  unfold renewIfExpiring at hr
  split_ifs at hr
  · exact { h.renew hr with }
  · split at hr
    · cases hr
    · split_ifs at hr
      cases hr
      exact { h with }

theorem doPartition_exactly {owner : Option Account} {pivot : Nat} (h : Exactly s)
    (hp : doPartition id owner pivot s = .ok s') : Exactly s' := by
  simp only [doPartition, bind_eq_ok, okOr_eq_ok] at hp
  obtain ⟨status, _, r, hr, _, _, _, _, _, _, hp⟩ := hp
  obtain ⟨_, _, he⟩ := forceUnpoolRegion_eq s id { r with paid := none } status
  rw [he] at hp
  cases hp
  have hm := h.regions id r hr
  exact { h with
    regions := forall_update_key (forall_update_key h.regions fun _ _ => hm) fun _ _ => hm }

theorem doInterlace_exactly {owner : Option Account} {pivot : CoreMask} (h : Exactly s)
    (hi : doInterlace id owner pivot s = .ok s') : Exactly s' := by
  simp only [doInterlace, bind_eq_ok, Except.ensure_eq_ok] at hi
  obtain ⟨status, _, r, hr, _, _, _, _, _, hv, _, hc, hi⟩ := hi
  obtain ⟨_, _, he⟩ := forceUnpoolRegion_eq s id r status
  rw [he] at hi
  cases hi
  have hp : pivot ≠ 0#80 := by
    rintro rfl
    exact hv (decide_eq_true rfl)
  have hx : id.mask ^^^ pivot ≠ 0#80 := by
    intro hx
    exact hc (BitVec.xor_eq_zero_iff.mp hx).symm
  have h1 := forall_update_key (k := id) (v := none) (P := fun k => k.mask ≠ 0#80)
    h.regions (by simp)
  exact { h with regions := forall_update_key (forall_update_key h1 fun _ _ => hp) fun _ _ => hx }

theorem dispatch_exactly {call : Call Account} (h : Exactly s) (hs : Supplied call)
    (hc : Clear s call) (hd : dispatch c now s call = .ok s') : Exactly s' := by
  cases call
  case assign => exact doAssign_exactly h hd
  case pool => exact doPool_exactly h hc hd
  case partition => exact doPartition_exactly h hd
  case interlace => exact doInterlace_exactly h hd
  case forceReserve => exact doForceReserve_exactly h hs hd
  case enableAutoRenew => exact doEnableAutoRenew_exactly h hd
  case tick => cases hd; exact h.tick
  case notifyCoreCount => cases hd; exact { h with }
  case notifyRevenue => cases hd; exact { h with }
  case swapLeases => cases hd; exact { h with }
  all_goals
    simp only [dispatch, doConfigure, doReserve, doUnreserve, doSetLease, doStartSales,
      doPurchase, doTransfer, doClaimRevenue, doDropRegion, doDropContribution, doDropHistory,
      doDropRenewal, doDisableAutoRenew, doRemoveLease, doRemoveAssignment,
      doRemovePotentialRenewal, bind_eq_ok, Except.map_eq_ok,
      okOr_eq_ok] at hd
  case renew =>
    obtain ⟨⟨s1, _⟩, hr, rfl⟩ := hd
    exact h.renew hr
  case claimRevenue =>
    obtain ⟨_, ⟨_, _, _, _, he⟩, hd⟩ := hd
    cases he
    cases hd
    exact { h with }
  case startSales =>
    obtain ⟨config, _, hd⟩ := hd
    cases hd
    exact { h.rotateSale with }
  case purchase =>
    obtain ⟨_, _, sale, _, _, _, _, _, _, _, ⟨ledger, new, core⟩, _, hd⟩ := hd
    cases hd
    exact { h with regions := forall_update_key h.regions fun _ _ => complete_ne_zero }
  case transfer | forceTransfer =>
    obtain ⟨r, hr, _, _, hd⟩ := hd
    cases hd
    exact { h with regions := forall_update_key h.regions fun _ _ => h.regions _ r hr }
  case dropRegion =>
    obtain ⟨_, _, _, _, _, _, hd⟩ := hd
    cases hd
    exact h.eraseRegion _
  case reserve workload =>
    obtain ⟨_, _, hd⟩ := hd
    cases hd
    refine { h with reservations := ?_ }
    intro w hw
    rcases List.mem_append.mp hw with hw | hw
    · exact h.reservations w hw
    · rw [List.mem_singleton.mp hw]
      exact hs
  case unreserve =>
    obtain ⟨_, _, hd⟩ := hd
    cases hd
    exact { h with reservations := fun w hw => h.reservations w (List.mem_of_mem_eraseIdx hw) }
  case removeAssignment =>
    obtain ⟨_, _, hd⟩ := hd
    cases hd
    exact { h with workplan := forall_update h.workplan (by simp) }
  case removePotentialRenewal =>
    obtain ⟨_, _, hd⟩ := hd
    cases hd
    exact { h with renewals := forall_update h.renewals (by simp) }
  case dropRenewal =>
    obtain ⟨_, _, _, _, _, _, hd⟩ := hd
    cases hd
    exact { h with renewals := forall_update h.renewals (by simp) }
  case configure | removeLease =>
    obtain ⟨_, _, hd⟩ := hd
    cases hd
    exact { h with }
  case setLease =>
    obtain ⟨_, _, _, _, hd⟩ := hd
    cases hd
    exact { h with }
  all_goals
    obtain ⟨_, _, _, _, _, _, _, _, hd⟩ := hd
    cases hd
    exact { h with }

theorem clear_of_step (h : SchedulesExact (step c s (now, call))) : Clear s call := by
  cases call
  case pool who id payee finality =>
    intro status r hs hr ho hb he plan hp
    have hu : utilizedFrom status.lastCommittedTimeslice id =
        { id with begin := status.lastCommittedTimeslice + 1 } := if_pos hb
    have hn : ¬(id.begin ≤ status.lastCommittedTimeslice ∧
        (utilizedFrom status.lastCommittedTimeslice id).begin ≥ r.end) := by
      rw [hu]
      rintro ⟨_, hg⟩
      exact absurd he (Nat.not_lt.mpr hg)
    have hd : dispatch c now s (.pool who id payee finality) =
        .ok (poolRegion payee (utilizedFrom status.lastCommittedTimeslice id) r { s with
          regions :=
            utilizedRegions finality id (utilizedFrom status.lastCommittedTimeslice id) r s.regions
          workplan := clearedWorkplan status.lastCommittedTimeslice id s.workplan }) := by
      simp only [dispatch, doPool, utilize, hs, hr, Except.okOr, checkOwner, ho,
        Except.ensure, if_true, Except.ok_bind, if_neg hn, Except.pure_eq_ok]
    rw [step, hd] at h
    have hc := clear_of_poolRegion h plan
    rw [hu, clearedWorkplan, if_pos hb] at hc
    exact hc hp
  all_goals trivial

theorem step_exactly {e : Nat × Call Account} (h : Exactly s) (hs : Supplied e.2)
    (hc : Clear s e.2) :
    Exactly (step c s e) := by
  rw [step]
  split
  case h_1 hd => exact dispatch_exactly h hs hc hd
  case h_2 => exact h

-- Every pool call of the run is made on a region that has not begun, or with
-- its parts of the core free.
def ClearRun (c : Config Account Ledger) : State Account Ledger → List (Nat × Call Account) → Prop
  | _, [] => True
  | s, e :: es => Clear s e.2 ∧ ClearRun c (step c s e) es

theorem forall_take_iff (h : Exactly s) (hs : ∀ e ∈ es, Supplied e.2) :
    (∀ n, SchedulesExact (run c s (es.take n))) ↔ ClearRun c s es := by
  induction es generalizing s
  case nil =>
    simp only [List.take_nil, ClearRun, iff_true]
    exact fun _ => h.toSchedulesExact
  case cons e es hi =>
    rw [List.forall_mem_cons] at hs
    have hn : (∀ n, SchedulesExact (run c s ((e :: es).take n))) ↔
        ∀ n, SchedulesExact (run c (step c s e) (es.take n)) := by
      constructor
      · intro hr n
        exact hr (n + 1)
      · intro hr n
        cases n
        case zero => exact h.toSchedulesExact
        case succ n => exact hr n
    rw [hn]
    constructor
    · intro hr
      have hc : Clear s e.2 := clear_of_step (hr 0)
      exact ⟨hc, (hi (step_exactly h hs.1 hc) hs.2).mp hr⟩
    · rintro ⟨hc, hr⟩
      exact (hi (step_exactly h hs.1 hc) hs.2).mpr hr

-- In a run from genesis whose supplied schedules are exact, the schedules are exact in every state
-- reached if and only if no region that has begun is pooled over a plan.
theorem schedules_exact_iff (c : Config Account Ledger) (ledger : Ledger)
    (es : List (Nat × Call Account)) (h : ∀ e ∈ es, Supplied e.2) :
    (∀ n, SchedulesExact (run c { ledger } (es.take n))) ↔ ClearRun c { ledger } es :=
  forall_take_iff (Exactly.initial ledger) h

-- A core is reserved by halves. A region is bought and its halves are assigned and pooled; both
-- halves are pooled once more when the region has begun, each next to the plan of the other.
def samplePooled : List (Nat × Call Nat) :=
  [(1, .configure ⟨0, 0, 1, 6, 0, none, 0, 100⟩),
   (1, .reserve (.truncateFrom [⟨lowerHalf, .task 1000⟩, ⟨upperHalf, .pool⟩])),
   (1, .startSales 10 2), (2, .purchase 1 100), (2, .interlace 1 ⟨7, 1, .complete⟩ lowerHalf),
   (2, .assign 1 ⟨7, 1, lowerHalf⟩ 2000 .provisional),
   (2, .pool 1 ⟨7, 1, upperHalf⟩ 1 .provisional)] ++
  List.replicate 7 (8, .tick) ++
  [(8, .pool 1 ⟨7, 1, lowerHalf⟩ 1 .provisional),
   (8, .pool 1 ⟨7, 1, upperHalf⟩ 1 .provisional), (9, .tick)]

theorem samplePooled_exact :
    ClearRun sampleConfig { ledger := () } samplePooled ∧
      (∀ n, SchedulesExact (run sampleConfig { ledger := () } (samplePooled.take n))) ∧
      (run sampleConfig { ledger := () } samplePooled).assigned =
        [⟨0, 7, [(.pool, 28800), (.task 1000, 28800)]⟩,
          ⟨1, 7, [(.pool, 28800), (.task 2000, 28800)]⟩, ⟨2, 7, [(.pool, 57600)]⟩,
          ⟨1, 8, [(.pool, 57600)]⟩] := by
  have hhalves :
      Exact (.truncateFrom [⟨lowerHalf, .task 1000⟩, ⟨upperHalf, .pool⟩] : Schedule).toList :=
    ⟨by decide, List.pairwise_pair.mpr (by decide)⟩
  have hs : ∀ e ∈ samplePooled, Supplied e.2 := by
    simpa [samplePooled, Supplied] using hhalves
  have hc : ClearRun sampleConfig { ledger := () } samplePooled := by
    refine ⟨trivial, trivial, trivial, trivial, trivial, trivial, ?_, trivial, trivial, trivial,
      trivial, trivial, trivial, trivial, ?_, ?_, trivial, trivial⟩
    all_goals exact clear_pool (by decide +kernel)
  exact ⟨hc, (schedules_exact_iff sampleConfig () samplePooled hs).mpr hc, by decide +kernel⟩

-- A region is bought. When it has begun, its core is reserved by force from the next timeslice on,
-- and the region is pooled at the same timeslice.
def sampleLatePool : List (Nat × Call Nat) :=
  sampleStart ++ (2, .purchase 1 100) :: List.replicate 8 (8, .tick) ++
    [(8, .forceReserve (.truncateFrom [⟨.complete, .task 1000⟩]) 0),
     (8, .pool 1 ⟨7, 0, .complete⟩ 1 .provisional)]

-- The core is planned twice, and the next timeslice gives it away twice.
theorem sampleLatePool_not_exact :
    (run sampleConfig { ledger := () } sampleLatePool).workplan (9, 0) =
        some (.truncateFrom [⟨.complete, .task 1000⟩, ⟨.complete, .pool⟩]) ∧
      ((run sampleConfig { ledger := () } (sampleLatePool ++ [(9, .tick)])).assigned.getLast?.map
        AssignCore.assignment) = some [(.pool, 57600), (.task 1000, 57600)] ∧
      ¬SchedulesExact (run sampleConfig { ledger := () } sampleLatePool) := by
  have hp : (run sampleConfig { ledger := () } sampleLatePool).workplan (9, 0) =
      some (.truncateFrom [⟨.complete, .task 1000⟩, ⟨.complete, .pool⟩]) := by
    decide +kernel
  refine ⟨hp, by decide +kernel, ?_⟩
  intro h
  have hd := (h.workplan (9, 0) _ hp).of_append (l := [⟨.complete, .task 1000⟩])
    (i := ⟨.complete, .pool⟩)
  exact absurd (hd _ List.mem_cons_self) (by decide)

end Broker
