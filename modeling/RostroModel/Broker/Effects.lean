import RostroModel.Broker.Tick

-- What the parts of the calls read and write.
namespace Broker

open Except (bind_eq_ok okOr_eq_ok)

variable {Account Ledger : Type} {c : Config Account Ledger}
  {s s' : State Account Ledger} {id id' : RegionId} {r : RegionRecord Account} {now : Nat}
  {owner : Option Account} {finality : Finality}

theorem utilizedFrom_core (n : Nat) (id : RegionId) : (utilizedFrom n id).core = id.core := by
  rw [utilizedFrom]
  split_ifs <;> rfl

theorem utilizedFrom_mask (n : Nat) (id : RegionId) : (utilizedFrom n id).mask = id.mask := by
  rw [utilizedFrom]
  split_ifs <;> rfl

theorem le_utilizedFrom_begin (n : Nat) (id : RegionId) : id.begin ≤ (utilizedFrom n id).begin := by
  rw [utilizedFrom]
  split_ifs with h
  · exact h.trans (Nat.le_succ n)
  · exact le_rfl

theorem utilize_eq_ok [DecidableEq Account] (h : utilize s id owner finality = .ok (s', u)) :
    ∃ status r, s.status = some status ∧ s.regions id = some r ∧ checkOwner owner r = .ok () ∧
      (u = none ∧ s' = { s with regions := Function.update s.regions id none } ∨
        (id.begin ≤ status.lastCommittedTimeslice →
          (utilizedFrom status.lastCommittedTimeslice id).begin < r.end) ∧
        u = some (utilizedFrom status.lastCommittedTimeslice id, r) ∧
        s' = { s with
          regions :=
            utilizedRegions finality id (utilizedFrom status.lastCommittedTimeslice id) r s.regions
          workplan := clearedWorkplan status.lastCommittedTimeslice id s.workplan }) := by
  simp only [utilize, bind_eq_ok, okOr_eq_ok] at h
  obtain ⟨status, hs, r, hr, _, ho, h⟩ := h
  refine ⟨status, r, hs, hr, ho, ?_⟩
  split_ifs at h with hl
  · cases h
    exact .inl ⟨rfl, rfl⟩
  · cases h
    refine .inr ⟨?_, rfl, rfl⟩
    intro hb
    exact Nat.lt_of_not_le fun he => hl ⟨hb, he⟩

theorem forceUnpoolRegion_eq (s : State Account Ledger) (id : RegionId) (r : RegionRecord Account)
    (status : StatusRecord) : ∃ contributions io, forceUnpoolRegion s id r status =
      { s with instaPoolContribution := contributions, instaPoolIo := io } := by
  rw [forceUnpoolRegion]
  split
  · exact ⟨_, _, rfl⟩
  · dsimp only
    split_ifs
    · exact ⟨_, _, rfl⟩
    · exact ⟨_, _, rfl⟩

theorem pushWorkplan_eq (s : State Account Ledger) (key : Nat × Nat) (plan : Schedule)
    (item : ScheduleItem) : ∃ workplan dropped, (pushWorkplan s key plan item).1 =
      { s with workplan, dropped } := by
  rw [pushWorkplan]
  split
  · exact ⟨_, _, rfl⟩
  · exact ⟨_, _, rfl⟩

theorem recordRenewal_eq (s : State Account Ledger) (id : RegionId) (r : RegionRecord Account)
    (plan : Schedule) :
    ∃ renewals, recordRenewal s id r plan = { s with potentialRenewals := renewals } := by
  rw [recordRenewal]
  split
  · exact ⟨_, rfl⟩
  · exact ⟨_, rfl⟩

theorem assignRegion_eq (config : ConfigRecord) (status : StatusRecord) (task : Nat)
    (finality : Finality) (id : RegionId) (r : RegionRecord Account) (s : State Account Ledger) :
    ∃ workplan dropped contributions io renewals, assignRegion config status task finality id r s =
      { s with
        workplan, dropped, instaPoolContribution := contributions, instaPoolIo := io,
        potentialRenewals := renewals } := by
  obtain ⟨_, _, hu⟩ := forceUnpoolRegion_eq s id r status
  rw [assignRegion, hu]
  obtain ⟨_, _, hp⟩ := pushWorkplan_eq
    { s with instaPoolContribution := _, instaPoolIo := _ } (id.begin, id.core)
    (Schedule.outside ((s.workplan (id.begin, id.core)).getD .empty) id.mask) ⟨id.mask, .task task⟩
  split_ifs
  · obtain ⟨_, hr⟩ := recordRenewal_eq _ id r _
    rw [hr, hp]
    exact ⟨_, _, _, _, _, rfl⟩
  · rw [hp]
    exact ⟨_, _, _, _, _, rfl⟩

theorem poolRegion_eq (payee : Account) (id : RegionId) (r : RegionRecord Account)
    (s : State Account Ledger) :
    ∃ workplan dropped contributions io, poolRegion payee id r s =
      { s with workplan, dropped, instaPoolContribution := contributions, instaPoolIo := io } := by
  rw [poolRegion]
  split
  · exact ⟨_, _, _, _, rfl⟩
  · exact ⟨_, _, _, _, rfl⟩

theorem doAssign_eq_ok [DecidableEq Account] (h : doAssign id owner task finality s = .ok s') :
    ∃ config status s1 u, s.status = some status ∧ utilize s id owner finality = .ok (s1, u) ∧
      (u = none ∧ s' = s1 ∨
        ∃ id' r, u = some (id', r) ∧ s' = assignRegion config status task finality id' r s1) := by
  simp only [doAssign, bind_eq_ok, okOr_eq_ok] at h
  obtain ⟨config, _, status, hs, ⟨s1, u⟩, hu, h⟩ := h
  refine ⟨config, status, s1, u, hs, hu, ?_⟩
  cases u
  case none => cases h; exact .inl ⟨rfl, rfl⟩
  case some u => cases h; exact .inr ⟨_, _, rfl, rfl⟩

theorem doPool_eq_ok [DecidableEq Account] (h : doPool id owner payee finality s = .ok s') :
    ∃ s1 u, utilize s id owner finality = .ok (s1, u) ∧
      (u = none ∧ s' = s1 ∨ ∃ id' r, u = some (id', r) ∧ s' = poolRegion payee id' r s1) := by
  simp only [doPool, bind_eq_ok] at h
  obtain ⟨⟨s1, u⟩, hu, h⟩ := h
  refine ⟨s1, u, hu, ?_⟩
  cases u
  case none => cases h; exact .inl ⟨rfl, rfl⟩
  case some u => cases h; exact .inr ⟨_, _, rfl, rfl⟩

theorem purchaseCore_eq_ok (h : purchaseCore c ledger who price sale = .ok (ledger', sale', core)) :
    core = sale.firstCore + sale.coresSold ∧
      ∃ sellout, sale' = { sale with
        coresSold := sale.coresSold + 1, selloutPrice := sellout } := by
  simp only [purchaseCore, bind_eq_ok] at h
  obtain ⟨_, _, h⟩ := h
  cases h
  exact ⟨rfl, _, rfl⟩

theorem doRenew_eq_ok (h : doRenew c now who core s = .ok (s', core')) :
    ∃ sale sellout record workload ledger price,
      s.saleInfo = some sale ∧ core' = sale.firstCore + sale.coresSold ∧
      s.potentialRenewals ⟨core, sale.regionBegin⟩ = some record ∧
      record.completion = .complete workload ∧
      s' = { s with
        ledger
        workplan := Function.update s.workplan (sale.regionBegin, core') (some workload)
        potentialRenewals :=
          Function.update (Function.update s.potentialRenewals ⟨core, sale.regionBegin⟩ none)
            ⟨core', sale.regionEnd⟩ (some ⟨price, .complete workload⟩)
        saleInfo := some
          { sale with coresSold := sale.coresSold + 1, selloutPrice := sellout } } := by
  simp only [doRenew, bind_eq_ok, okOr_eq_ok] at h
  obtain ⟨config, _, status, _, sale, hs, _, _, record, hr, workload, hw,
      ⟨ledger, sale', core⟩, hp, h⟩ := h
  obtain ⟨hc, sellout, rfl⟩ := purchaseCore_eq_ok hp
  cases h
  refine ⟨sale, sellout, record, workload, ledger, _, hs, hc, hr, ?_, rfl⟩
  revert hw
  cases record.completion <;> simp [CompletionStatus.drainComplete]

variable {P : State Account Ledger → Prop}

theorem renewCore_induction (h : P s)
    (hr : ∀ s s' who core core', P s → doRenew c now who core s = .ok (s', core') → P s') :
    P (renewCore c now sale record s).1 := by
  rw [renewCore]
  split_ifs
  · exact h
  · split
    · exact h
    · split
      case h_1 he => exact hr _ _ _ _ _ h he
      case h_2 => exact h

theorem renewAll_induction (sale : SaleInfoRecord)
    (hr : ∀ s s' who core core', P s → doRenew c now who core s = .ok (s', core') → P s')
    (records : List AutoRenewalRecord) (h : P s) : P (renewAll c now sale records s).1 := by
  induction records generalizing s
  case nil => exact h
  case cons record _ hi => exact hi (renewCore_induction h hr)

theorem renewCores_induction (h : P s)
    (hr : ∀ s s' who core core', P s → doRenew c now who core s = .ok (s', core') → P s')
    (ha : ∀ s autoRenewals, P s → P { s with autoRenewals }) : P (renewCores c now sale s) := by
  rw [renewCores]
  have h' := renewAll_induction sale hr s.autoRenewals h
  split
  rename_i he
  rw [he] at h'
  split_ifs
  · exact ha _ _ h'
  · exact h'

theorem processCoreSchedule_induction
    (hp : ∀ s core, P s → P (processCoreSchedule when rcBegin s core))
    (cores : List Nat) (h : P s) :
    P (cores.foldl (processCoreSchedule when rcBegin) s) := by
  induction cores generalizing s
  case nil => exact h
  case cons core _ hi => exact hi (hp s core h)

theorem processCoreCount_contribution (s : State Account Ledger) (status : StatusRecord) :
    (processCoreCount s status).1.instaPoolContribution = s.instaPoolContribution := by
  rw [processCoreCount]
  split <;> rfl

theorem processRevenue_contribution (c : Config Account Ledger) (s : State Account Ledger) :
    (processRevenue c s).instaPoolContribution = s.instaPoolContribution := by
  rw [processRevenue]
  split
  · rfl
  · rw [recordRevenue]
    dsimp only
    split_ifs <;> rfl

theorem rotateIfDue_contribution (c : Config Account Ledger) (now when : Nat)
    (config : ConfigRecord) (status : StatusRecord) (s : State Account Ledger) :
    (rotateIfDue c now when config status s).instaPoolContribution = s.instaPoolContribution := by
  rw [rotateIfDue]
  split
  · split_ifs
    · rw [rotateSale]
      apply renewCores_induction (P := fun s' => s'.instaPoolContribution = s.instaPoolContribution)
      · rfl
      · intro s₁ s₂ who core core' h hr
        obtain ⟨_, _, _, _, _, _, _, _, _, _, rfl⟩ := doRenew_eq_ok hr
        exact h
      · exact fun _ _ h => h
    · rfl
  · rfl

theorem commitTimeslice_contribution (c : Config Account Ledger) (now when : Nat)
    (config : ConfigRecord) (status : StatusRecord) (s : State Account Ledger) :
    (commitTimeslice c now when config status s).1.instaPoolContribution =
      s.instaPoolContribution := by
  rw [commitTimeslice]
  apply processCoreSchedule_induction (P := fun s' =>
    s'.instaPoolContribution = s.instaPoolContribution)
  · intro s₁ core h
    rw [processCoreSchedule]
    split <;> exact h
  · exact rotateIfDue_contribution ..

-- A tick takes no contribution away and changes none.
theorem doTick_contribution (c : Config Account Ledger) (now : Nat) (s : State Account Ledger) :
    (doTick c now s).instaPoolContribution = s.instaPoolContribution := by
  rw [doTick]
  split
  · dsimp only
    rw [commitNext]
    split
    · rw [commitTimeslice_contribution, processRevenue_contribution, processCoreCount_contribution]
    · rw [processRevenue_contribution, processCoreCount_contribution]
  · rfl

end Broker
