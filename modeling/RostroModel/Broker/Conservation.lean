import RostroModel.Broker.Effects
import RostroModel.Broker.Regions

namespace Broker

open Except (bind_eq_ok ensure_eq_ok map_eq_ok okOr_eq_ok)
open Function (update_of_ne update_self)

variable {Account Ledger : Type} {c : Config Account Ledger}
  {s s' : State Account Ledger} {id : RegionId} {now : Nat} {owner : Option Account}
  {finality : Finality} {title : Cell → Option Account}

-- The regions are left alone, and what was issued stays issued.
structure Kept (s s' : State Account Ledger) : Prop where
  regions : s'.regions = s.regions
  issued : issued s.saleInfo ⊆ issued s'.saleInfo

namespace Kept

theorem refl (s : State Account Ledger) : Kept s s :=
  ⟨rfl, subset_rfl⟩

theorem of_eq (hr : s'.regions = s.regions) (hs : s'.saleInfo = s.saleInfo) : Kept s s' :=
  ⟨hr, by rw [hs]⟩

theorem trans (h : Kept s s') (h' : Kept s' s'') : Kept s s'' :=
  ⟨h'.regions.trans h.regions, h.issued.trans h'.issued⟩

theorem sound (h : Kept s s') (hs : Sound s.regions title (Broker.issued s.saleInfo)) :
    Sound s'.regions title (Broker.issued s'.saleInfo) := by
  rw [h.regions]
  exact hs.mono h.issued

end Kept

theorem issued_purchase (sale : SaleInfoRecord) (sellout : Option Nat) : issued (some sale) ⊆
      issued (some { sale with coresSold := sale.coresSold + 1, selloutPrice := sellout }) := by
  rintro x ⟨_, hs, he, h⟩
  cases hs
  refine ⟨_, rfl, he, h.imp_right ?_⟩
  intro h
  exact Nat.lt_succ_of_lt h

theorem issued_newSale (sale : SaleInfoRecord) (config : ConfigRecord) (status : StatusRecord)
    (firstCore endPrice : Nat) :
    issued (some sale) ⊆ issued (some (newSale now sale config status firstCore endPrice)) := by
  rintro x ⟨_, hs, he, _⟩
  cases hs
  exact ⟨_, rfl, Nat.lt_add_right _ he, .inl he⟩

theorem doRenew_kept (h : doRenew c now who core s = .ok (s', core')) : Kept s s' := by
  obtain ⟨sale, sellout, _, _, _, _, hs, _, _, _, rfl⟩ := doRenew_eq_ok h
  refine ⟨rfl, ?_⟩
  rw [hs]
  exact issued_purchase sale sellout

theorem renewCores_kept (sale : SaleInfoRecord) (s : State Account Ledger) :
    Kept s (renewCores c now sale s) := by
  apply renewCores_induction (P := Kept s) (Kept.refl s)
  · intro _ _ _ _ _ h hr
    exact h.trans (doRenew_kept hr)
  · intro _ _ h
    exact h.trans (Kept.of_eq rfl rfl)

theorem rotateSale_kept (config : ConfigRecord) (status : StatusRecord)
    (h : s.saleInfo = some sale) : Kept s (rotateSale c now sale config status s) := by
  have hr : Kept s (rotated c now sale config status s) := by
    refine ⟨rfl, ?_⟩
    rw [h]
    exact issued_newSale sale config status _ _
  exact hr.trans (renewCores_kept _ _)

theorem rotateIfDue_kept (when : Nat) (config : ConfigRecord) (status : StatusRecord)
    (s : State Account Ledger) : Kept s (rotateIfDue c now when config status s) := by
  rw [rotateIfDue]
  split
  case h_1 sale hs =>
    split_ifs
    · exact rotateSale_kept config status hs
    · exact Kept.refl s
  case h_2 => exact Kept.refl s

theorem processCoreSchedule_kept (when rcBegin : Nat) (s : State Account Ledger) (core : Nat) :
    Kept s (processCoreSchedule when rcBegin s core) := by
  rw [processCoreSchedule]
  split
  · exact Kept.refl s
  · exact Kept.of_eq rfl rfl

theorem commitTimeslice_kept (when : Nat) (config : ConfigRecord) (status : StatusRecord)
    (s : State Account Ledger) : Kept s (commitTimeslice c now when config status s).1 := by
  apply processCoreSchedule_induction (P := Kept s)
  · intro s' core h
    exact h.trans (processCoreSchedule_kept _ _ s' core)
  · exact (rotateIfDue_kept when config _ s).trans (Kept.of_eq rfl rfl)

theorem commitNext_kept (config : ConfigRecord) (status : StatusRecord) (s : State Account Ledger) :
    Kept s (commitNext c now config status s).1 := by
  rw [commitNext]
  split
  · exact commitTimeslice_kept _ config status s
  · exact Kept.refl s

theorem processRevenue_kept (s : State Account Ledger) : Kept s (processRevenue c s) := by
  rw [processRevenue]
  split
  · exact Kept.refl s
  · rw [recordRevenue]
    dsimp only
    split_ifs <;> exact Kept.of_eq rfl rfl

theorem processCoreCount_kept (s : State Account Ledger) (status : StatusRecord) :
    Kept s (processCoreCount s status).1 := by
  rw [processCoreCount]
  split <;> exact Kept.of_eq rfl rfl

theorem doTick_kept (s : State Account Ledger) : Kept s (doTick c now s) := by
  rw [doTick]
  split
  case h_1 status config _ _ =>
    have h := (processCoreCount_kept s status).trans (processRevenue_kept (c := c) _)
    exact (h.trans (commitNext_kept config _ _)).trans (Kept.of_eq rfl rfl)
  case h_2 => exact Kept.refl s

variable [DecidableEq Account]

section

variable (h : Sound s.regions title (issued s.saleInfo))
include h

theorem utilize_sound (hu : utilize s id owner finality = .ok (s', u)) :
    Sound s'.regions title (issued s'.saleInfo) := by
  obtain ⟨status, r, _, hr, _, ⟨_, rfl⟩ | ⟨_, _, rfl⟩⟩ := utilize_eq_ok hu
  · exact h.erase id
  · dsimp only [utilizedRegions]
    split_ifs
    · apply h.shrink hr _ rfl
      exact cells_subset (utilizedFrom_core _ _) (le_utilizedFrom_begin _ _) le_rfl
        (by rw [utilizedFrom_mask])
    · exact h.erase id

theorem doAssign_sound
    (ha : doAssign id owner task finality s = .ok s') :
    Sound s'.regions title (issued s'.saleInfo) := by
  obtain ⟨config, status, s1, u, _, hu, ⟨_, rfl⟩ | ⟨id', r, _, rfl⟩⟩ := doAssign_eq_ok ha
  · exact utilize_sound h hu
  · obtain ⟨_, _, _, _, _, he⟩ := assignRegion_eq config status task finality id' r s1
    have h1 := utilize_sound h hu
    rw [he]
    exact h1

theorem doPool_sound
    (hp : doPool id owner payee finality s = .ok s') :
    Sound s'.regions title (issued s'.saleInfo) := by
  obtain ⟨s1, u, hu, ⟨_, rfl⟩ | ⟨id', r, _, rfl⟩⟩ := doPool_eq_ok hp
  · exact utilize_sound h hu
  · obtain ⟨_, _, _, _, he⟩ := poolRegion_eq payee id' r s1
    have h1 := utilize_sound h hu
    rw [he]
    exact h1

omit [DecidableEq Account] in
theorem doPurchase_sound (hs : s.saleInfo = some sale)
    (hp : doPurchase c now who limit s = .ok s') :
    Sound s'.regions
      (retitle title ⟨sale.regionBegin, sale.firstCore + sale.coresSold, .complete⟩
        sale.regionEnd who)
      (issued s'.saleInfo) := by
  simp only [doPurchase, bind_eq_ok, okOr_eq_ok] at hp
  obtain ⟨status, _, sale', hs', _, _, _, _, _, _, ⟨ledger, new, core⟩, hp, he⟩ := hp
  cases hs.symm.trans hs'
  obtain ⟨rfl, sellout, rfl⟩ := purchaseCore_eq_ok hp
  cases he
  rw [hs] at h
  apply (h.mono (issued_purchase sale sellout)).retitle rfl
  · intro x hx
    exact ⟨_, rfl, hx.2.2.1, .inr (hx.1.trans_lt (Nat.lt_succ_self _))⟩
  · -- the cells issued before are of earlier timeslices or of cores sold before
    intro k q _ hq
    rw [Set.disjoint_left]
    intro x hx hx'
    obtain ⟨_, hv, _, hl | hl⟩ := h.sold k q hq hx'
    · cases hv
      exact absurd hx.2.1 (Nat.not_le.mpr hl)
    · cases hv
      exact absurd hx.1 (Nat.ne_of_lt hl)

theorem doTransfer_sound (hr : s.regions id = some r)
    (ht : doTransfer id owner newOwner s = .ok s') :
    Sound s'.regions (retitle title id r.end newOwner) (issued s'.saleInfo) := by
  simp only [doTransfer, bind_eq_ok, okOr_eq_ok] at ht
  obtain ⟨_, hr', _, _, ht⟩ := ht
  cases hr.symm.trans hr'
  cases ht
  apply h.retitle (r := { r with owner := some newOwner }) rfl (h.sold id r hr)
  intro k q hk hq
  exact h.disjoint id k r q hr hq (Ne.symm hk)

end

-- How the regions of a state follow from those before, when one is split in two.
structure Split (s s' : State Account Ledger) (id id₁ id₂ : RegionId)
    (r r₁ r₂ : RegionRecord Account) :
    Prop where
  region : s.regions id = some r
  regions : s'.regions =
    Function.update (Function.update (Function.update s.regions id none) id₁ (some r₁)) id₂
      (some r₂)
  saleInfo : s'.saleInfo = s.saleInfo
  owner₁ : r₁.owner = r.owner
  owner₂ : r₂.owner = r.owner
  tile : cells id₁ r₁.end ∪ cells id₂ r₂.end = cells id r.end
  disjoint : Disjoint (cells id₁ r₁.end) (cells id₂ r₂.end)

omit [DecidableEq Account] in
theorem Split.sound (h : Split s s' id id1 id2 r r1 r2)
    (hs : Sound s.regions title (issued s.saleInfo)) :
    Sound s'.regions title (issued s'.saleInfo) := by
  rw [h.regions, h.saleInfo]
  apply hs.split h.region _ _ h.disjoint h.owner₁ h.owner₂
  · exact Set.subset_union_left.trans_eq h.tile
  · exact Set.subset_union_right.trans_eq h.tile

theorem doPartition_split (h : doPartition id owner pivot s = .ok s') :
    ∃ r, Split s s' id id { id with begin := id.begin + pivot } r
      { r with paid := none, «end» := id.begin + pivot } { r with paid := none } := by
  simp only [doPartition, bind_eq_ok, okOr_eq_ok, ensure_eq_ok] at h
  obtain ⟨status, _, r, hr, _, _, _, hl, _, hg, h⟩ := h
  obtain ⟨_, _, he⟩ := forceUnpoolRegion_eq s id { r with paid := none } status
  rw [he] at h
  cases h
  obtain ⟨ht, hd⟩ := cells_partition hg.le hl.le
  refine ⟨r, hr, ?_, rfl, rfl, rfl, ht, hd⟩
  rw [Function.update_idem]

theorem doInterlace_split (h : doInterlace id owner pivot s = .ok s') :
    ∃ r, Split s s' id { id with mask := pivot } { id with mask := id.mask ^^^ pivot } r r r := by
  simp only [doInterlace, bind_eq_ok, okOr_eq_ok, ensure_eq_ok] at h
  obtain ⟨status, _, r, hr, _, _, _, hl, _, _, _, _, h⟩ := h
  obtain ⟨_, _, he⟩ := forceUnpoolRegion_eq s id r status
  rw [he] at h
  cases h
  have hm : BitMask.ones pivot ⊆ BitMask.ones id.mask :=
    BitMask.and_not_eq_zero_iff.mp (of_decide_eq_true hl)
  obtain ⟨ht, hd⟩ := cells_interlace (n := r.end) hm
  exact ⟨r, hr, rfl, rfl, rfl, rfl, ht, hd⟩

omit [DecidableEq Account] in
theorem doDropRegion_sound (h : Sound s.regions title (issued s.saleInfo))
    (hd : doDropRegion id s = .ok s') : Sound s'.regions title (issued s'.saleInfo) := by
  simp only [doDropRegion, bind_eq_ok] at hd
  obtain ⟨_, _, _, _, _, _, hd⟩ := hd
  cases hd
  exact h.erase id

omit [DecidableEq Account] in
theorem doForceReserve_kept (h : doForceReserve c workload core s = .ok s') : Kept s s' := by
  simp only [doForceReserve, doReserve, bind_eq_ok] at h
  obtain ⟨_, _, _, ⟨_, _, he⟩, _, _, _, _, h⟩ := h
  cases he
  cases h
  exact Kept.of_eq rfl rfl

theorem doEnableAutoRenew_kept (h : doEnableAutoRenew c now who core task hint s = .ok s') :
    Kept s s' := by
  simp only [doEnableAutoRenew, bind_eq_ok] at h
  obtain ⟨_, _, sale, _, ⟨s1, core'⟩, hr, _, _, h⟩ := h
  cases h
  unfold renewIfExpiring at hr
  split_ifs at hr
  · exact (doRenew_kept hr).trans (Kept.of_eq rfl rfl)
  · split at hr
    · cases hr
    · split_ifs at hr
      cases hr
      exact Kept.of_eq rfl rfl

-- To whom the cells were last sold or transferred, after a call that succeeded.
def titleAfter (s : State Account Ledger) (title : Cell → Option Account) :
    Call Account → Cell → Option Account
  | .purchase who _ =>
    match s.saleInfo with
    | none => title
    | some sale =>
      retitle title ⟨sale.regionBegin, sale.firstCore + sale.coresSold, .complete⟩
        sale.regionEnd who
  | .transfer _ id newOwner | .forceTransfer id newOwner =>
    match s.regions id with
    | none => title
    | some r => retitle title id r.end newOwner
  | _ => title

def Call.startsSales : Call Account → Bool
  | .startSales _ _ => true
  | _ => false

theorem dispatch_sound {call : Call Account} (h : Sound s.regions title (issued s.saleInfo))
    (hc : call.startsSales = false) (hd : dispatch c now s call = .ok s') :
    Sound s'.regions (titleAfter s title call) (issued s'.saleInfo) := by
  cases call
  case startSales => cases hc
  case purchase who limit =>
    obtain ⟨sale, hs⟩ : ∃ sale, s.saleInfo = some sale := by
      simp only [dispatch, doPurchase, bind_eq_ok, okOr_eq_ok] at hd
      obtain ⟨_, _, sale, hs, _⟩ := hd
      exact ⟨sale, hs⟩
    simp only [titleAfter, hs]
    exact doPurchase_sound h hs hd
  case transfer id newOwner | forceTransfer id newOwner =>
    obtain ⟨r, hr⟩ : ∃ r, s.regions id = some r := by
      simp only [dispatch, doTransfer, bind_eq_ok, okOr_eq_ok] at hd
      obtain ⟨r, hr, _⟩ := hd
      exact ⟨r, hr⟩
    simp only [titleAfter, hr]
    exact doTransfer_sound h hr hd
  case partition =>
    obtain ⟨_, hs⟩ := doPartition_split hd
    exact hs.sound h
  case interlace =>
    obtain ⟨_, hs⟩ := doInterlace_split hd
    exact hs.sound h
  case assign => exact doAssign_sound h hd
  case pool => exact doPool_sound h hd
  case dropRegion => exact doDropRegion_sound h hd
  -- the other calls leave the regions alone
  all_goals refine Kept.sound ?_ h
  case tick => cases hd; exact doTick_kept s
  case notifyCoreCount | notifyRevenue | swapLeases => cases hd; exact Kept.of_eq rfl rfl
  case forceReserve => exact doForceReserve_kept hd
  case enableAutoRenew => exact doEnableAutoRenew_kept hd
  case renew =>
    simp only [dispatch, map_eq_ok] at hd
    obtain ⟨⟨s1, _⟩, hr, rfl⟩ := hd
    exact doRenew_kept hr
  all_goals
    simp only [dispatch, doConfigure, doReserve, doUnreserve, doSetLease, doClaimRevenue,
      doDropContribution, doDropHistory, doDropRenewal, doDisableAutoRenew, doRemoveLease,
      doRemoveAssignment, doRemovePotentialRenewal, bind_eq_ok, map_eq_ok] at hd
  case claimRevenue =>
    obtain ⟨_, ⟨_, _, _, _, he⟩, hd⟩ := hd
    cases he
    cases hd
    exact Kept.of_eq rfl rfl
  case configure | reserve | unreserve | removeAssignment | removePotentialRenewal | removeLease =>
    obtain ⟨_, _, hd⟩ := hd
    cases hd
    exact Kept.of_eq rfl rfl
  case setLease =>
    obtain ⟨_, _, _, _, hd⟩ := hd
    cases hd
    exact Kept.of_eq rfl rfl
  case dropRenewal =>
    obtain ⟨_, _, _, _, _, _, hd⟩ := hd
    cases hd
    exact Kept.of_eq rfl rfl
  all_goals
    obtain ⟨_, _, _, _, _, _, _, _, hd⟩ := hd
    cases hd
    exact Kept.of_eq rfl rfl

def titlesOf (c : Config Account Ledger) :
    State Account Ledger → (Cell → Option Account) → List (Nat × Call Account) → Cell →
      Option Account
  | _, title, [] => title
  | s, title, e :: es =>
    match dispatch c e.1 s e.2 with
    | .ok s' => titlesOf c s' (titleAfter s title e.2) es
    | .error _ => titlesOf c s title es

theorem run_sound (h : Sound s.regions title (issued s.saleInfo))
    (he : ∀ e ∈ es, e.2.startsSales = false) :
    Sound (run c s es).regions (titlesOf c s title es) (issued (run c s es).saleInfo) := by
  induction es generalizing s title
  case nil => exact h
  case cons e es hi =>
    have hl := fun e' h => he e' (List.mem_cons_of_mem e h)
    rw [run, List.foldl_cons, step, titlesOf]
    cases hd : dispatch c e.1 s e.2
    case error => exact hi h hl
    case ok s' => exact hi (dispatch_sound h (he e List.mem_cons_self) hd) hl

omit [DecidableEq Account] in
theorem Split.others (h : Split s s' id id1 id2 r r1 r2) (hs : Sound s.regions title sold)
    (h1 : ∀ n, (cells id1 n).Nonempty → ∃ x ∈ cells id1 n, x ∈ cells id r.end)
    (h2 : ∀ n, (cells id2 n).Nonempty → ∃ x ∈ cells id2 n, x ∈ cells id r.end) (hk : k ≠ id)
    (hq : s.regions k = some q) (hn : (cells k q.end).Nonempty) : s'.regions k = some q := by
  have hd := Set.disjoint_left.mp (hs.disjoint k id q r hq h.region hk)
  rw [h.regions, update_of_ne, update_of_ne, update_of_ne hk, hq]
  · rintro rfl
    obtain ⟨x, hx, hx'⟩ := h1 _ hn
    exact hd hx hx'
  · rintro rfl
    obtain ⟨x, hx, hx'⟩ := h2 _ hn
    exact hd hx hx'

-- What a split does to the regions of a state in which no two overlap.
structure Replaces (s s' : State Account Ledger) (id id₁ id₂ : RegionId) : Prop where
  replaced : ∃ r r₁ r₂, s.regions id = some r ∧ s'.regions id₁ = some r₁ ∧
    s'.regions id₂ = some r₂ ∧
    r₁.owner = r.owner ∧ r₂.owner = r.owner ∧
    cells id₁ r₁.end ∪ cells id₂ r₂.end = cells id r.end ∧
    Disjoint (cells id₁ r₁.end) (cells id₂ r₂.end) ∧
    ((cells id r.end).Nonempty → ∀ k q, k ≠ id → s.regions k = some q → (cells k q.end).Nonempty →
      s'.regions k = some q)

omit [DecidableEq Account] in
theorem Split.replaces (h : Split s s' id id1 id2 r r1 r2) (hs : Sound s.regions title sold)
    (hn : id1 ≠ id2) (h1 : (cells id r.end).Nonempty → ∀ n, (cells id1 n).Nonempty →
      ∃ x ∈ cells id1 n, x ∈ cells id r.end)
    (h2 : (cells id r.end).Nonempty → ∀ n, (cells id2 n).Nonempty →
      ∃ x ∈ cells id2 n, x ∈ cells id r.end) :
    Replaces s s' id id1 id2 := by
  refine ⟨r, r1, r2, h.region, ?_, ?_, h.owner₁, h.owner₂, h.tile, h.disjoint, ?_⟩
  · rw [h.regions, update_of_ne hn, update_self]
  · rw [h.regions, update_self]
  · intro hc k q
    exact h.others hs (h1 hc) (h2 hc)

theorem exists_cell_at_begin (h : (cells id' n).Nonempty)
    (hc : id'.core = id.core) (hm : BitMask.ones id'.mask ⊆ BitMask.ones id.mask)
    (hb : id.begin ≤ id'.begin) (he : id'.begin < m) : ∃ x ∈ cells id' n, x ∈ cells id m := by
  obtain ⟨x, hx⟩ := h
  exact ⟨⟨id'.core, id'.begin, x.bit⟩, ⟨rfl, le_rfl, hx.2.1.trans_lt hx.2.2.1, hx.2.2.2⟩,
    hc, hb, he, hm hx.2.2.2⟩

theorem begin_lt_of_nonempty (id : RegionId) (h : (cells id n).Nonempty) : id.begin < n := by
  obtain ⟨x, hx⟩ := h
  exact hx.2.1.trans_lt hx.2.2.1

theorem doPartition_replaces (hs : Sound s.regions title sold)
    (h : doPartition id owner pivot s = .ok s') :
    Replaces s s' id id { id with begin := id.begin + pivot } := by
  have hp : id.begin + pivot > id.begin ∧ ∀ r, s.regions id = some r →
      id.begin + pivot < r.end := by
    simp only [doPartition, bind_eq_ok, okOr_eq_ok, ensure_eq_ok] at h
    obtain ⟨_, _, r, hr, _, _, _, hl, _, hg, _⟩ := h
    refine ⟨hg, ?_⟩
    intro r' hr'
    cases hr.symm.trans hr'
    exact hl
  obtain ⟨r, hsp⟩ := doPartition_split h
  apply hsp.replaces hs
  · intro he
    exact absurd (congrArg RegionId.begin he) (Nat.ne_of_lt hp.1)
  · intro hc n hn
    exact exists_cell_at_begin hn rfl subset_rfl le_rfl (begin_lt_of_nonempty id hc)
  · intro _ n hn
    exact exists_cell_at_begin hn rfl subset_rfl hp.1.le (hp.2 r hsp.region)

theorem doInterlace_replaces (hs : Sound s.regions title sold)
    (h : doInterlace id owner pivot s = .ok s') :
    Replaces s s' id { id with mask := pivot } { id with mask := id.mask ^^^ pivot } := by
  have hp : BitMask.ones pivot ⊆ BitMask.ones id.mask ∧ pivot ≠ 0#80 := by
    simp only [doInterlace, bind_eq_ok, ensure_eq_ok] at h
    obtain ⟨_, _, _, _, _, _, _, hl, _, hv, _⟩ := h
    refine ⟨BitMask.and_not_eq_zero_iff.mp (of_decide_eq_true hl), ?_⟩
    rintro rfl
    exact hv (decide_eq_true rfl)
  obtain ⟨r, hsp⟩ := doInterlace_split h
  have hx : BitMask.ones (id.mask ^^^ pivot) ⊆ BitMask.ones id.mask := by
    rw [BitMask.ones_xor_of_subset hp.1]
    exact Finset.sdiff_subset
  apply hsp.replaces hs
  · -- the two parts have no bit in common
    intro he
    have hm : pivot = id.mask ^^^ pivot := congrArg RegionId.mask he
    obtain ⟨i, hi⟩ := BitMask.ones_nonempty.mpr hp.2
    have hi' := hi
    rw [hm, BitMask.ones_xor_of_subset hp.1, Finset.mem_sdiff] at hi'
    exact hi'.2 hi
  · intro hc n hn
    exact exists_cell_at_begin hn rfl hp.1 le_rfl (begin_lt_of_nonempty id hc)
  · intro hc n hn
    exact exists_cell_at_begin hn rfl hx le_rfl (begin_lt_of_nonempty id hc)

-- No two live regions overlap, every cell of a live region belongs to the account to which it was
-- last sold or transferred, and a split replaces a region by two that tile it.
structure Conserved (c : Config Account Ledger) (s : State Account Ledger)
    (title : Cell → Option Account) : Prop where
  disjoint (id id' : RegionId) (r r' : RegionRecord Account) :
    s.regions id = some r → s.regions id' = some r' → id ≠ id' →
      Disjoint (cells id r.end) (cells id' r'.end)
  titled (id : RegionId) (r : RegionRecord Account) (x : Cell) :
    s.regions id = some r → x ∈ cells id r.end → r.owner.isSome ∧ title x = r.owner
  partition (now : Nat) (who : Account) (id : RegionId) (pivot : Nat) (s' : State Account Ledger) :
    dispatch c now s (.partition who id pivot) = .ok s' →
      Replaces s s' id id { id with begin := id.begin + pivot }
  interlace (now : Nat) (who : Account) (id : RegionId) (pivot : CoreMask)
    (s' : State Account Ledger) :
    dispatch c now s (.interlace who id pivot) = .ok s' →
      Replaces s s' id { id with mask := pivot } { id with mask := id.mask ^^^ pivot }

-- In every run of calls after the sales have been started.
theorem coretime_conserved (c : Config Account Ledger) (s : State Account Ledger)
    (h : ∀ id, s.regions id = none) (es : List (Nat × Call Account))
    (he : ∀ e ∈ es, e.2.startsSales = false) :
    Conserved c (run c s es) (titlesOf c s (fun _ => none) es) := by
  have hs : Sound s.regions (fun _ => none) (issued s.saleInfo) := by
    constructor <;> simp [h]
  have hr := run_sound (c := c) hs he
  refine ⟨hr.disjoint, hr.titled, ?_, ?_⟩
  · intro _ _ _ _ _ hd
    exact doPartition_replaces hr hd
  · intro _ _ _ _ _ hd
    exact doInterlace_replaces hr hd

-- A region is bought, split in time and by its parts, and one part goes to another account.
def sampleTrades : List (Nat × Call Nat) :=
  [(2, .purchase 1 100), (2, .partition 1 ⟨7, 0, .complete⟩ 2),
   (3, .interlace 1 ⟨9, 0, .complete⟩ 255#80), (3, .tick), (4, .transfer 1 ⟨9, 0, 255#80⟩ 2),
   (4, .assign 1 ⟨7, 0, .complete⟩ 1000 .provisional)]

theorem sampleTrades_conserved :
    ((run sampleConfig sampleStarted sampleTrades).regions ⟨9, 0, 255#80⟩).map RegionRecord.owner =
        some (some 2) ∧
      Conserved sampleConfig (run sampleConfig sampleStarted sampleTrades)
        (titlesOf sampleConfig sampleStarted (fun _ => none) sampleTrades) :=
  ⟨by decide, coretime_conserved _ _ (fun _ => rfl) _ (by decide)⟩

end Broker
