import RostroModel.Broker.Effects

namespace Broker

variable {Account Ledger : Type} {c : Config Account Ledger} {s s' : State Account Ledger}

abbrev History := Nat → Option InstaPoolHistoryRecord

-- The timeslice has a record that waits for the revenue to be reported.
def pending (history : History) (t : Nat) : Bool :=
  (history t).any fun record => record.maybePayout.isNone

-- The share of a contribution in what is held for a timeslice.
def shareAt (parts : Nat) (history : History) (t : Nat) : Nat :=
  match history t with
  | none => 0
  | some record =>
    record.maybePayout.elim 0 fun payout => share parts payout record.privateContributions

-- What the items of a claim, or of several claims, pay for a timeslice.
def paidFor (items : List (Nat × Nat)) (t : Nat) : Nat :=
  (items.lookup t).getD 0

-- The payout of a timeslice is known once its revenue has been reported. A timeslice without a
-- record has not been committed yet, or it has nothing left to pay.
def payoutKnown (s : State Account Ledger) (t : Nat) : Bool :=
  match s.instaPoolHistory t with
  | none => s.status.any fun status => t ≤ status.lastCommittedTimeslice
  | some record => record.maybePayout.isSome

theorem not_pending_of_known {t : Nat} (h : payoutKnown s t = true) :
    pending s.instaPoolHistory t = false := by
  rw [payoutKnown] at h
  rw [pending]
  cases hr : s.instaPoolHistory t
  case none => rfl
  case some record =>
    cases hm : record.maybePayout <;> simp_all

section Items

variable {items items' : List (Nat × Nat)} {t : Nat}

theorem lookup_eq_none_of_ne (h : ∀ i ∈ items, i.1 ≠ t) : items.lookup t = none := by
  rw [List.lookup_eq_none_iff]
  intro i hi
  simpa using (h i hi).symm

theorem paidFor_eq_zero (h : ∀ i ∈ items, i.1 ≠ t) : paidFor items t = 0 := by
  rw [paidFor, lookup_eq_none_of_ne h, Option.getD_none]

theorem paidFor_append_left (h : paidFor items' t = 0) :
    paidFor (items ++ items') t = paidFor items t := by
  rw [paidFor] at h
  rw [paidFor, paidFor, List.lookup_append]
  cases items.lookup t
  case none => rwa [Option.none_or]
  case some => rfl

theorem paidFor_append_right (h : ∀ i ∈ items, i.1 ≠ t) :
    paidFor (items ++ items') t = paidFor items' t := by
  rw [paidFor, List.lookup_append, lookup_eq_none_of_ne h, Option.none_or, paidFor]

end Items

section Loop

variable {parts n t : Nat}

theorem taken_history {claim : Claim}
    (h : t ≠ claim.begin) : (claim.taken parts payout record).history t = claim.history t :=
  Function.update_of_ne h _ _

theorem claimLoop_begin_le (claim : Claim) : (claimLoop parts n claim).begin ≤ claim.begin + n := by
  fun_induction claimLoop parts n claim
  case case1 => exact le_rfl
  case case2 hi => exact hi.trans_eq (Nat.succ_add_eq_add_succ ..)
  case case3 => exact Nat.add_le_add_left (Nat.le_add_left ..) _
  case case4 hi => exact hi.trans_eq (Nat.succ_add_eq_add_succ ..)

theorem le_claimLoop_begin (claim : Claim) : claim.begin ≤ (claimLoop parts n claim).begin := by
  fun_induction claimLoop parts n claim
  case case1 => exact le_rfl
  case case2 hi => exact Nat.le_of_succ_le hi
  case case3 => exact Nat.le_succ _
  case case4 hi => exact Nat.le_of_succ_le hi

theorem begin_lt_claimLoop (claim : Claim) :
    claim.begin < (claimLoop parts (n + 1) claim).begin := by
  rw [claimLoop]
  split
  · exact le_claimLoop_begin claim.passed
  · split
    · exact Nat.lt_succ_self _
    · exact le_claimLoop_begin (claim.taken _ _ _)

theorem lt_claimLoop_begin (claim : Claim) (hb : claim.begin ≤ t) (ht : t < claim.begin + n)
    (hp : ∀ r, claim.begin ≤ r → r < t → pending claim.history r = false) :
    t < (claimLoop parts n claim).begin := by
  induction n generalizing claim
  case zero => omega
  case succ n hi =>
    rcases Nat.eq_or_lt_of_le hb with rfl | hl
    · exact begin_lt_claimLoop claim
    · have hcur := hp claim.begin le_rfl hl
      have hend : t < claim.begin + 1 + n := by omega
      rw [claimLoop]
      split
      · exact hi claim.passed hl hend fun r hr => hp r (Nat.le_of_succ_le hr)
      case h_2 record hr =>
        rw [pending, hr] at hcur
        split
        case h_1 hm => simp [hm] at hcur
        case h_2 payout hm =>
          apply hi (claim.taken _ _ _) hl hend
          intro r hr hrt
          have hn := hp r (Nat.le_of_succ_le hr) hrt
          have hne : r ≠ claim.begin := Nat.ne_of_gt hr
          rw [pending] at hn ⊢
          rwa [taken_history hne]

theorem shareAt_taken (parts payout : Nat) (record : InstaPoolHistoryRecord)
    (claim : Claim) (m : Nat) :
    ∑ t ∈ Finset.Ico (claim.begin + 1) m,
      shareAt parts (claim.taken parts payout record).history t =
      ∑ t ∈ Finset.Ico (claim.begin + 1) m, shareAt parts claim.history t := by
  apply Finset.sum_congr rfl
  intro t ht
  have hne : t ≠ claim.begin := Nat.ne_of_gt (Finset.mem_Ico.mp ht).1
  rw [shareAt, shareAt, taken_history hne]

theorem claimLoop_payout (claim : Claim) : (claimLoop parts n claim).payout =
    claim.payout + ∑ t ∈ Finset.Ico claim.begin (claimLoop parts n claim).begin,
      shareAt parts claim.history t := by
  fun_induction claimLoop parts n claim
  case case1 => simp
  case case2 claim hr hi =>
    rw [hi, Finset.sum_eq_sum_Ico_succ_bot (le_claimLoop_begin claim.passed), shareAt,
      hr, Nat.zero_add]
    rfl
  case case3 hr hm => simp [Claim.passed, shareAt, hr, hm]
  case case4 claim record hr payout hm hi =>
    have hs : shareAt parts claim.history claim.begin =
        share parts payout record.privateContributions := by
      rw [shareAt, hr]
      simp [hm]
    rw [hi, Finset.sum_eq_sum_Ico_succ_bot (le_claimLoop_begin (claim.taken _ _ _)),
      hs, ← Nat.add_assoc, ← shareAt_taken parts payout record]
    rfl

theorem claimLoop_length (claim : Claim) (h : n ≤ claim.length) :
    (claimLoop parts n claim).begin + (claimLoop parts n claim).length =
      claim.begin + claim.length := by
  fun_induction claimLoop parts n claim
  case case1 => rfl
  case case2 claim _ hi =>
    have hp := hi (Nat.le_sub_one_of_lt h)
    simp only [Claim.passed] at hp ⊢
    omega
  case case3 =>
    simp only [Claim.passed]
    omega
  case case4 claim record _ payout _ hi =>
    have ht := hi (Nat.le_sub_one_of_lt h)
    simp only [Claim.taken, Claim.passed] at ht ⊢
    omega

theorem claimLoop_items_sum (claim : Claim) (h : (claim.items.map Prod.snd).sum = claim.payout) :
    ((claimLoop parts n claim).items.map Prod.snd).sum = (claimLoop parts n claim).payout := by
  fun_induction claimLoop parts n claim
  case case1 => exact h
  case case2 hi => exact hi h
  case case3 => exact h
  case case4 claim record _ payout _ hi =>
    apply hi
    rw [Claim.taken]
    dsimp only
    split_ifs with hp
    · rw [List.map_append, List.sum_append, h]
      simp
    · rw [h, not_not.mp hp]
      rfl

-- The items are for timeslices that the claim has passed.
def Claim.Behind (claim : Claim) : Prop :=
  ∀ i ∈ claim.items, i.1 < claim.begin

theorem Claim.Behind.passed {claim : Claim} (h : claim.Behind) : claim.passed.Behind :=
  fun i hi => Nat.lt_succ_of_lt (h i hi)

theorem Claim.Behind.taken {claim : Claim} (h : claim.Behind) (parts payout : Nat)
    (record : InstaPoolHistoryRecord) : (claim.taken parts payout record).Behind := by
  intro i hi
  rw [Claim.taken] at hi
  dsimp only at hi
  split_ifs at hi
  · cases List.mem_append.mp hi
    case inl hi => exact h.passed i hi
    case inr hi =>
      rw [List.mem_singleton.mp hi]
      exact Nat.lt_succ_self _
  · exact h.passed i hi

theorem Claim.Behind.paidFor_eq_zero {claim : Claim} (h : claim.Behind) (ht : claim.begin ≤ t) :
    paidFor claim.items t = 0 :=
  Broker.paidFor_eq_zero fun i hi => Nat.ne_of_lt ((h i hi).trans_le ht)

theorem Claim.Behind.paidFor_taken {claim : Claim} (h : claim.Behind) (parts payout : Nat)
    (record : InstaPoolHistoryRecord) (t : Nat) :
    paidFor (claim.taken parts payout record).items t =
      if t = claim.begin then share parts payout record.privateContributions
      else paidFor claim.items t := by
  rw [Claim.taken]
  dsimp only
  rcases eq_or_ne (share parts payout record.privateContributions) 0 with hp | hp
  · rw [if_neg (not_not.mpr hp), hp]
    split_ifs with ht
    · exact h.paidFor_eq_zero ht.ge
    · rfl
  · rw [if_pos hp]
    split_ifs with ht
    · rw [ht, paidFor_append_right fun i hi => Nat.ne_of_lt (h i hi)]
      simp [paidFor]
    · apply paidFor_append_left
      apply Broker.paidFor_eq_zero
      simpa using Ne.symm ht

theorem Claim.Behind.loop {claim : Claim} (h : claim.Behind) :
    (claimLoop parts n claim).Behind := by
  fun_induction claimLoop parts n claim
  case case1 => exact h
  case case2 hi => exact hi h.passed
  case case3 => exact h.passed
  case case4 record _ payout _ hi => exact hi (h.taken parts payout record)

-- The loop pays for each timeslice that it passes, and for no other.
theorem Claim.Behind.paidFor_loop {claim : Claim} (h : claim.Behind) :
    paidFor (claimLoop parts n claim).items t =
      if claim.begin ≤ t ∧ t < (claimLoop parts n claim).begin then shareAt parts claim.history t
      else paidFor claim.items t := by
  fun_induction claimLoop parts n claim
  case case1 => rw [if_neg fun ht => Nat.not_lt.mpr ht.1 ht.2]
  case case2 n claim hr hi =>
    have hlt : claim.begin < (claimLoop parts n claim.passed).begin :=
      le_claimLoop_begin claim.passed
    rw [hi h.passed]
    rcases eq_or_ne t claim.begin with rfl | hne
    · rw [if_neg fun ht => Nat.not_succ_le_self _ ht.1, if_pos ⟨le_rfl, hlt⟩, shareAt, hr]
      exact h.paidFor_eq_zero le_rfl
    · simp only [Claim.passed, Nat.succ_le_iff, hne.symm.le_iff_lt]
  case case3 claim record hr hm =>
    split_ifs with ht
    · obtain rfl : claim.begin = t := Nat.le_antisymm ht.1 (Nat.le_of_lt_succ ht.2)
      have hz : shareAt parts claim.history claim.begin = 0 := by simp [shareAt, hr, hm]
      rw [hz]
      exact h.paidFor_eq_zero le_rfl
    · rfl
  case case4 n claim record hr payout hm hi =>
    have hlt : claim.begin < (claimLoop parts n (claim.taken parts payout record)).begin :=
      le_claimLoop_begin (claim.taken parts payout record)
    rw [hi (h.taken parts payout record), h.paidFor_taken]
    rcases eq_or_ne t claim.begin with rfl | hne
    · rw [if_neg fun ht => Nat.not_succ_le_self _ ht.1, if_pos rfl,
        if_pos ⟨le_rfl, hlt⟩, shareAt, hr]
      simp [hm]
    · rw [if_neg hne, shareAt, taken_history hne, ← shareAt]
      simp only [Claim.taken, Claim.passed, Nat.succ_le_iff, hne.symm.le_iff_lt]

theorem claimed_begin_le (s : State Account Ledger) (region : RegionId) (length max : Nat) :
    (claimed s region length max).begin ≤ region.begin + min length max :=
  claimLoop_begin_le _

theorem le_claimed_begin (s : State Account Ledger) (region : RegionId) (length max : Nat) :
    region.begin ≤ (claimed s region length max).begin :=
  le_claimLoop_begin ⟨region.begin, length, 0, s.instaPoolHistory, []⟩

theorem claimed_payout (s : State Account Ledger) (region : RegionId) (length max : Nat) :
    (claimed s region length max).payout =
      ∑ t ∈ Finset.Ico region.begin (claimed s region length max).begin,
        shareAt region.mask.countOnes s.instaPoolHistory t := by
  rw [claimed, claimLoop_payout, Nat.zero_add]

theorem claimed_length (s : State Account Ledger) (region : RegionId) (length max : Nat) :
    (claimed s region length max).begin + (claimed s region length max).length =
      region.begin + length :=
  claimLoop_length _ (min_le_left ..)

theorem claimed_behind (s : State Account Ledger) (region : RegionId) (length max : Nat) :
    (claimed s region length max).Behind :=
  Claim.Behind.loop (fun _ hi => absurd hi List.not_mem_nil)

theorem paidFor_claimed (s : State Account Ledger) (region : RegionId) (length max t : Nat) :
    paidFor (claimed s region length max).items t =
      if region.begin ≤ t ∧ t < (claimed s region length max).begin then
        shareAt region.mask.countOnes s.instaPoolHistory t
      else
        0 :=
  Claim.Behind.paidFor_loop (fun _ hi => absurd hi List.not_mem_nil)

theorem claimed_items_sum (s : State Account Ledger) (region : RegionId) (length max : Nat) :
    ((claimed s region length max).items.map Prod.snd).sum = (claimed s region length max).payout :=
  claimLoop_items_sum ⟨region.begin, length, 0, s.instaPoolHistory, []⟩ rfl

end Loop

-- What a claim does: it tells what it pays for which timeslices and transfers that, and the
-- contribution is stored under its new key as long as something is left of it.
structure Claimed (c : Config Account Ledger) (region : RegionId)
    (contribution : ContributionRecord Account) (claim : Claim) (s s' : State Account Ledger)
    (paid : RevenueClaimPaid Account) : Prop where
  who : paid.who = contribution.payee
  amount : paid.amount = claim.payout
  items : paid.items = claim.items
  history : s'.instaPoolHistory = claim.history
  rest : 0 < claim.length → s'.instaPoolContribution { region with begin := claim.begin } =
    some { contribution with length := claim.length }
  ledger : s'.ledger = (c.transfer s.ledger c.accountId contribution.payee claim.payout).getD
    s.ledger

theorem doClaimRevenue_eq_ok {region : RegionId} {max : Nat} {paid : RevenueClaimPaid Account}
    (h : doClaimRevenue c region max s = .ok (s', paid)) :
    ∃ contribution, s.instaPoolContribution region = some contribution ∧
      Claimed c region contribution (claimed s region contribution.length max) s s' paid := by
  simp only [doClaimRevenue, Except.bind_eq_ok, Except.okOr_eq_ok, Except.ensure_eq_ok] at h
  obtain ⟨_, _, contribution, hc, h⟩ := h
  cases h
  refine ⟨contribution, hc, rfl, rfl, rfl, rfl, ?_, rfl⟩
  intro hl
  dsimp only
  rw [if_pos hl, Function.update_self]

theorem doClaimRevenue_isOk {region : RegionId} {max : Nat}
    {contribution : ContributionRecord Account} (hm : 0 < max)
    (hc : s.instaPoolContribution region = some contribution) :
    ∃ s' paid, doClaimRevenue c region max s = .ok (s', paid) := by
  simp [doClaimRevenue, Except.ensure, hm, hc, Except.okOr]

-- What happens to a contribution: it is claimed, by anyone, or something
-- else happens to the pallet.
inductive Event (Account : Type)
  | claim (maxTimeslices : Nat)
  | call (now : Nat) (call : Call Account)

-- A claim on a contribution that is stored under `region` has moved its cursor to `last`.
structure Passage (Account Ledger : Type) where
  region : RegionId
  last : Nat
  before : State Account Ledger
  after : State Account Ledger
  paid : RevenueClaimPaid Account

-- A contribution is followed under its changing key, until nothing is left of it.
structure Track (Account Ledger : Type) where
  state : State Account Ledger
  begin : Nat
  rest : Nat
  passages : List (Passage Account Ledger) := []

def Track.items (k : Track Account Ledger) : List (Nat × Nat) :=
  k.passages.flatMap (·.paid.items)

def Track.start (s : State Account Ledger) (id : RegionId)
    (contribution : ContributionRecord Account) :
    Track Account Ledger where
  state := s
  begin := id.begin
  rest := contribution.length

-- The key of the contribution `id` once it begins at another timeslice.
def rekeyed (id : RegionId) (begin : Nat) : RegionId :=
  { id with begin }

-- The contribution after a claim on it.
def Track.passed (k : Track Account Ledger) (id : RegionId) (claim : Claim)
    (state : State Account Ledger) (paid : RevenueClaimPaid Account) : Track Account Ledger where
  state := state
  begin := claim.begin
  rest := claim.length
  passages := k.passages ++ [⟨rekeyed id k.begin, claim.begin, k.state, state, paid⟩]

-- The contribution that is stored under the key covers the timeslice.
def Claimable (s : State Account Ledger) (region : RegionId) (t : Nat) : Prop :=
  ∃ contribution, s.instaPoolContribution region = some contribution ∧
    region.begin ≤ t ∧ t < region.begin + contribution.length

-- The payouts of all timeslices that the claim can reach are known.
def Reported (k : Track Account Ledger) : Event Account → Prop
  | .call _ _ => True
  | .claim maxTimeslices =>
    ∀ t, k.begin ≤ t → t < k.begin + min k.rest maxTimeslices → payoutKnown k.state t

-- The claims on a contribution are calls that have paid what they tell. What is left of the
-- contribution is stored under the key with the cursor. Each timeslice before the cursor was passed
-- by one claim, which paid its share, and nothing else was paid.
structure Accounted (c : Config Account Ledger) (id : RegionId)
    (contribution : ContributionRecord Account) (k : Track Account Ledger) : Prop where
  le : id.begin ≤ k.begin
  length : k.begin + k.rest = id.begin + contribution.length
  stored : 0 < k.rest →
    k.state.instaPoolContribution (rekeyed id k.begin) = some { contribution with length := k.rest }
  calls : ∀ p ∈ k.passages, p.region = rekeyed id p.region.begin ∧
    (∃ max, doClaimRevenue c p.region max p.before = .ok (p.after, p.paid)) ∧
    p.after.ledger =
      (c.transfer p.before.ledger c.accountId contribution.payee p.paid.amount).getD p.before.ledger
  behind : ∀ i ∈ k.items, i.1 < k.begin
  shares : ∀ t, id.begin ≤ t → t < k.begin →
    ∃ p ∈ k.passages, Claimable p.before p.region t ∧ t < p.last ∧
    paidFor k.items t = shareAt id.mask.countOnes p.before.instaPoolHistory t
  amounts : (k.passages.map (·.paid.amount)).sum = ∑ t ∈ Finset.Ico id.begin k.begin,
    paidFor k.items t

-- A timeslice whose payout is not known when the contribution is claimed can
-- still be claimed afterwards.
def Passage.Keeps (p : Passage Account Ledger) : Prop :=
  ∀ t, Claimable p.before p.region t → ¬payoutKnown p.before t →
    Claimable p.after (rekeyed p.region p.last) t

variable {id : RegionId} {k : Track Account Ledger} {contribution : ContributionRecord Account}

theorem accounted_start (hc : s.instaPoolContribution id = some contribution) :
    Accounted c id contribution (.start s id contribution) where
  le := le_rfl
  length := rfl
  stored _ := hc
  calls _ hp := absurd hp List.not_mem_nil
  behind _ hi := absurd hi List.not_mem_nil
  shares _ hl hr := absurd hl (Nat.not_le.mpr hr)
  amounts := by simp [Track.start]

section Claim

variable {max : Nat} {state : State Account Ledger} {paid : RevenueClaimPaid Account} {t : Nat}
  (h : Accounted c id contribution k)
  (hcl : Claimed c (rekeyed id k.begin) { contribution with length := k.rest }
    (claimed k.state (rekeyed id k.begin) k.rest max) k.state state paid)

include h hcl

theorem paidFor_claim (t : Nat) : paidFor (k.items ++ paid.items) t =
    if k.begin ≤ t ∧ t < (claimed k.state (rekeyed id k.begin) k.rest max).begin then
      shareAt id.mask.countOnes k.state.instaPoolHistory t
    else
      paidFor k.items t := by
  have hcur : paidFor paid.items t = _ :=
    hcl.items ▸ paidFor_claimed k.state (rekeyed id k.begin) k.rest max t
  rcases Nat.lt_or_ge t k.begin with hlt | hge
  · have hout : ¬(k.begin ≤ t ∧ t < (claimed k.state (rekeyed id k.begin) k.rest max).begin) :=
      fun ht => Nat.not_le.mpr hlt ht.1
    rw [if_neg hout]
    exact paidFor_append_left (hcur.trans (if_neg hout))
  · have hne : ∀ i ∈ k.items, i.1 ≠ t := fun i hi => Nat.ne_of_lt ((h.behind i hi).trans_le hge)
    rw [paidFor_append_right hne, hcur, paidFor_eq_zero hne]
    rfl

theorem Accounted.claim (hr : 0 < k.rest)
    (hd : doClaimRevenue c (rekeyed id k.begin) max k.state = .ok (state, paid)) :
    Accounted c id contribution
      (k.passed id (claimed k.state (rekeyed id k.begin) k.rest max) state paid) := by
  have hb : k.begin ≤ _ := le_claimed_begin k.state (rekeyed id k.begin) k.rest max
  have hle : _ ≤ k.begin + min k.rest max :=
    claimed_begin_le k.state (rekeyed id k.begin) k.rest max
  have hpaid := paidFor_claim h hcl
  have hbehind := claimed_behind k.state (rekeyed id k.begin) k.rest max
  have hpayout : _ = ∑ t ∈ Finset.Ico k.begin _,
      shareAt id.mask.countOnes k.state.instaPoolHistory t :=
    claimed_payout k.state (rekeyed id k.begin) k.rest max
  have hlength : _ = k.begin + k.rest := claimed_length k.state (rekeyed id k.begin) k.rest max
  generalize claimed k.state (rekeyed id k.begin) k.rest max = claim at *
  rw [Track.passed]
  constructor
  case le => exact h.le.trans hb
  case length => exact hlength.trans h.length
  case stored => exact hcl.rest
  case calls =>
    intro p hp
    cases List.mem_append.mp hp
    case inl hp => exact h.calls p hp
    case inr hp =>
      rw [List.mem_singleton.mp hp]
      exact ⟨rfl, ⟨max, hd⟩, hcl.amount ▸ hcl.ledger⟩
  case behind =>
    intro i hi
    simp only [Track.items, List.flatMap_append, List.flatMap_singleton, List.mem_append] at hi
    cases hi
    case inl hi => exact (h.behind i hi).trans_le hb
    case inr hi => exact hbehind i (hcl.items ▸ hi)
  case shares =>
    intro t hl ht
    simp only [Track.items, List.flatMap_append, List.flatMap_singleton]
    rw [← Track.items, hpaid]
    rcases Nat.lt_or_ge t k.begin with hlt | hge
    · rw [if_neg fun ht => Nat.not_le.mpr hlt ht.1]
      obtain ⟨p, hp, hin⟩ := h.shares t hl hlt
      exact ⟨p, List.mem_append_left _ hp, hin⟩
    · rw [if_pos ⟨hge, ht⟩]
      have hin : t < k.begin + k.rest := by
        dsimp only at ht
        omega
      exact ⟨_, List.mem_append_right _ (List.mem_singleton_self _),
        ⟨_, h.stored hr, hge, hin⟩, ht, rfl⟩
  case amounts =>
    simp only [Track.items, List.flatMap_append, List.flatMap_singleton, List.map_append,
      List.sum_append, List.map_singleton, List.sum_singleton]
    rw [← Track.items, h.amounts, hcl.amount, hpayout, ← Finset.sum_Ico_consecutive _ h.le hb]
    congr 1
    · apply Finset.sum_congr rfl
      intro t ht
      rw [hpaid, if_neg fun hin => Nat.not_le.mpr (Finset.mem_Ico.mp ht).2 hin.1]
    · apply Finset.sum_congr rfl
      intro t ht
      rw [hpaid, if_pos (Finset.mem_Ico.mp ht)]

-- A claim reaches the first timeslice whose payout is not known, and passes it.
theorem keeps_iff (hr : 0 < k.rest) :
    Passage.Keeps ⟨rekeyed id k.begin, (claimed k.state (rekeyed id k.begin) k.rest max).begin,
      k.state, state, paid⟩ ↔
      Reported k (.claim max) := by
  have hlength : _ = k.begin + k.rest := claimed_length k.state (rekeyed id k.begin) k.rest max
  constructor
  · intro hk t hb ht
    by_contra hu
    have hex : ∃ t, k.begin ≤ t ∧ payoutKnown k.state t ≠ true := ⟨t, hb, hu⟩
    obtain ⟨hl, hn⟩ := Nat.find_spec hex
    have hle : Nat.find hex ≤ t := Nat.find_min' hex ⟨hb, hu⟩
    have hpass : Nat.find hex < (claimed k.state (rekeyed id k.begin) k.rest max).begin := by
      apply lt_claimLoop_begin ⟨k.begin, k.rest, 0, k.state.instaPoolHistory, []⟩ hl
        (hle.trans_lt ht)
      intro r hr hrt
      by_contra hp
      apply Nat.find_min hex hrt
      exact ⟨hr, fun hkn => hp (not_pending_of_known hkn)⟩
    have hbefore : Nat.find hex < k.begin + k.rest :=
      (hle.trans_lt ht).trans_le (Nat.add_le_add_left (min_le_left ..) _)
    obtain ⟨_, _, hge, _⟩ := hk (Nat.find hex) ⟨_, h.stored hr, hl, hbefore⟩ hn
    exact Nat.not_lt.mpr hge hpass
  · rintro hrep t ⟨_, hs, hb, ht⟩ hu
    cases (h.stored hr).symm.trans hs
    have hreach : (claimed k.state (rekeyed id k.begin) k.rest max).begin ≤ t := by
      refine (claimed_begin_le ..).trans (Nat.le_of_not_lt fun hlt => hu ?_)
      exact hrep t hb hlt
    have hend : t < k.begin + k.rest := ht
    have hrest : t < _ + (claimed k.state (rekeyed id k.begin) k.rest max).length := hlength ▸ hend
    exact ⟨_, hcl.rest (by omega), hreach, hrest⟩

end Claim

variable [DecidableEq Account]

def follow (c : Config Account Ledger) (id : RegionId) (k : Track Account Ledger) :
    Event Account → Track Account Ledger
  | .call now call => { k with state := step c k.state (now, call) }
  | .claim maxTimeslices =>
    if k.rest = 0 then
      k
    else
      match doClaimRevenue c (rekeyed id k.begin) maxTimeslices k.state with
      | .error _ => k
      | .ok (state, paid) =>
        k.passed id (claimed k.state (rekeyed id k.begin) k.rest maxTimeslices) state paid

def followAll (c : Config Account Ledger) (id : RegionId) (k : Track Account Ledger)
    (es : List (Event Account)) : Track Account Ledger :=
  es.foldl (follow c id) k

def ReportedRun (c : Config Account Ledger) (id : RegionId) :
    Track Account Ledger → List (Event Account) → Prop
  | _, [] => True
  | k, e :: es => Reported k e ∧ ReportedRun c id (follow c id k e) es

instance (k : Track Account Ledger) : DecidablePred (Reported k)
  | .call _ _ => isTrue trivial
  | .claim maxTimeslices =>
    Nat.decidableLoHi k.begin (k.begin + min k.rest maxTimeslices) (payoutKnown k.state ·)

instance decidableReportedRun (c : Config Account Ledger) (id : RegionId) :
    (k : Track Account Ledger) → DecidablePred (ReportedRun c id k)
  | _, [] => isTrue trivial
  | k, _ :: es => @instDecidableAnd _ _ _ (decidableReportedRun c id (follow c id k _) es)

-- Calls other than ticks and revenue reports do not touch what is stored of the contribution: it is
-- not dropped or pooled once more, and no other contribution is claimed up to its key.
def Undisturbed (c : Config Account Ledger) (id : RegionId) (k : Track Account Ledger) :
    Event Account → Prop
  | .claim _ | .call _ .tick | .call _ (.notifyRevenue _) => True
  | .call now call => 0 < k.rest →
    (step c k.state (now, call)).instaPoolContribution (rekeyed id k.begin) =
      k.state.instaPoolContribution (rekeyed id k.begin)

def UndisturbedRun (c : Config Account Ledger) (id : RegionId) :
    Track Account Ledger → List (Event Account) → Prop
  | _, [] => True
  | k, e :: es => Undisturbed c id k e ∧ UndisturbedRun c id (follow c id k e) es

theorem Undisturbed.call {now : Nat} {call : Call Account} (h : Undisturbed c id k (.call now call))
    (hr : 0 < k.rest) : (step c k.state (now, call)).instaPoolContribution (rekeyed id k.begin) =
      k.state.instaPoolContribution (rekeyed id k.begin) := by
  unfold Undisturbed at h
  split at h
  case h_1 he => cases he
  case h_2 he =>
    cases he
    exact congrFun (doTick_contribution c now k.state) _
  case h_3 he =>
    cases he
    rfl
  case h_4 he =>
    cases he
    exact h hr

-- An event other than a claim leaves the contribution as it is, and so does a
-- claim that can reach nothing.
theorem follow_cases (h : Accounted c id contribution k) (e : Event Account)
    (hu : Undisturbed c id k e) :
    (∃ state, follow c id k e = { k with state } ∧ (0 < k.rest →
        state.instaPoolContribution (rekeyed id k.begin) =
          k.state.instaPoolContribution (rekeyed id k.begin))) ∧ Reported k e ∨
      ∃ max state paid, e = .claim max ∧ 0 < k.rest ∧
        doClaimRevenue c (rekeyed id k.begin) max k.state = .ok (state, paid) ∧
        Claimed c (rekeyed id k.begin) { contribution with length := k.rest }
          (claimed k.state (rekeyed id k.begin) k.rest max) k.state state paid ∧
        follow c id k e =
          k.passed id (claimed k.state (rekeyed id k.begin) k.rest max) state paid := by
  cases e
  case call now call => exact .inl ⟨⟨_, rfl, hu.call⟩, trivial⟩
  case claim max =>
    rcases Nat.eq_zero_or_pos k.rest with hz | hr
    · refine .inl ⟨⟨k.state, if_pos hz, fun _ => rfl⟩, ?_⟩
      intro t hb ht
      omega
    rcases Nat.eq_zero_or_pos max with rfl | hm
    · refine .inl ⟨⟨k.state, ?_, fun _ => rfl⟩, ?_⟩
      · simp [follow, doClaimRevenue, Except.ensure]
      · intro t hb ht
        omega
    · obtain ⟨state, paid, hd⟩ := doClaimRevenue_isOk (c := c) hm (h.stored hr)
      obtain ⟨stored, hs, hcl⟩ := doClaimRevenue_eq_ok hd
      cases (h.stored hr).symm.trans hs
      refine .inr ⟨max, state, paid, rfl, hr, hd, hcl, ?_⟩
      simp only [follow, if_neg (Nat.ne_of_gt hr), hd]

theorem follow_accounted (h : Accounted c id contribution k) (e : Event Account)
    (hu : Undisturbed c id k e) :
    Accounted c id contribution (follow c id k e) := by
  rcases follow_cases h e hu with ⟨⟨state, he, hs⟩, _⟩ | ⟨max, state, paid, rfl, hr, hd, hcl, he⟩
  · rw [he]
    exact ⟨h.le, h.length, fun hr => (hs hr).trans (h.stored hr), h.calls, h.behind,
      h.shares, h.amounts⟩
  · rw [he]
    exact h.claim hcl hr hd

theorem followAll_accounted (h : Accounted c id contribution k) (es : List (Event Account))
    (hu : UndisturbedRun c id k es) : Accounted c id contribution (followAll c id k es) := by
  induction es generalizing k
  case nil => exact h
  case cons e es hi => exact hi (follow_accounted h e hu.1) hu.2

theorem follow_keeps (h : Accounted c id contribution k) (e : Event Account)
    (hu : Undisturbed c id k e) :
    (∀ p ∈ (follow c id k e).passages, p.Keeps) ↔ (∀ p ∈ k.passages, p.Keeps) ∧ Reported k e := by
  rcases follow_cases h e hu with ⟨⟨state, he, _⟩, hrep⟩ | ⟨max, state, paid, rfl, hr, _, hcl, he⟩
  · rw [he]
    exact (and_iff_left hrep).symm
  · rw [he]
    simp only [Track.passed, List.forall_mem_append, List.forall_mem_singleton,
      keeps_iff h hcl hr]

theorem followAll_keeps (h : Accounted c id contribution k) (es : List (Event Account))
    (hu : UndisturbedRun c id k es) : (∀ p ∈ (followAll c id k es).passages, p.Keeps) ↔
      (∀ p ∈ k.passages, p.Keeps) ∧ ReportedRun c id k es := by
  induction es generalizing k
  case nil => exact (and_iff_left trivial).symm
  case cons e es hi =>
    calc (∀ p ∈ (followAll c id (follow c id k e) es).passages, p.Keeps)
      _ ↔ (∀ p ∈ (follow c id k e).passages, p.Keeps) ∧ ReportedRun c id (follow c id k e) es :=
        hi (follow_accounted h e hu.1) hu.2
      _ ↔ ((∀ p ∈ k.passages, p.Keeps) ∧ Reported k e) ∧ ReportedRun c id (follow c id k e) es := by
        rw [follow_keeps h e hu.1]
      _ ↔ _ := and_assoc

-- A contribution is followed through any interleaving of claims on it with ticks, revenue reports
-- and other calls. What is not claimed yet stays stored, and what is paid are the shares of the
-- timeslices that have been claimed. A timeslice is claimable after each claim that is made before
-- its payout is known if and only if each claim is made when the payouts of all timeslices in its
-- reach are known; and then, once the contribution has been claimed to its end, each of its
-- timeslices was paid for from its known payout.
theorem claims_forfeit_nothing_iff (hc : s.instaPoolContribution id = some contribution)
    (es : List (Event Account)) (hu : UndisturbedRun c id (.start s id contribution) es) :
    let k := followAll c id (.start s id contribution) es
    Accounted c id contribution k ∧
      ((∀ p ∈ k.passages, p.Keeps) ↔ ReportedRun c id (.start s id contribution) es) ∧
      (ReportedRun c id (.start s id contribution) es → k.rest = 0 →
        ∀ t, id.begin ≤ t → t < id.begin + contribution.length → ∃ p ∈ k.passages,
          payoutKnown p.before t ∧ paidFor k.items t =
            shareAt id.mask.countOnes p.before.instaPoolHistory t) := by
  intro k
  have h : Accounted c id contribution k := followAll_accounted (accounted_start hc) es hu
  have hiff : (∀ p ∈ k.passages, p.Keeps) ↔ ReportedRun c id (.start s id contribution) es :=
    (followAll_keeps (accounted_start hc) es hu).trans (and_iff_right fun _ hp =>
      absurd hp List.not_mem_nil)
  refine ⟨h, hiff, ?_⟩
  intro hrep hz t hb ht
  have hend : t < k.begin := by
    have := h.length
    omega
  obtain ⟨p, hp, hbefore, hlast, hpaid⟩ := h.shares t hb hend
  refine ⟨p, hp, ?_, hpaid⟩
  by_contra hu
  obtain ⟨_, _, hge, _⟩ := hiff.mpr hrep p hp t hbefore hu
  exact Nat.not_lt.mpr hge hlast

-- The currency of the sample keeps a balance for each account.
def sampleBank : Config Nat (Nat → Nat) :=
  { sampleConfig with
    withdraw := fun ledger who amount =>
      if amount ≤ ledger who then some (Function.update ledger who (ledger who - amount)) else none
    onRevenue := fun ledger _ => ledger
    transfer := fun ledger source dest amount =>
      if amount ≤ ledger source then
        let ledger := Function.update ledger source (ledger source - amount)
        some (Function.update ledger dest (ledger dest + amount))
      else
        none }

-- A region from timeslice 7 to 13 is pooled for good, and timeslice 7 is committed.
def sampleContributed : State Nat (Nat → Nat) :=
  run sampleBank { ledger := fun _ => 1000 }
    (sampleStart ++ [(2, .purchase 1 100), (2, .pool 1 ⟨7, 0, .complete⟩ 1 .final)] ++
      List.replicate 7 (7, .tick))

-- The revenue of each of the next timeslices is reported when it is over,
-- and the next one is committed.
def sampleReports (first count : Nat) : List (Event Nat) :=
  (List.range' first count).flatMap fun t =>
    [.call (t + 1) (.notifyRevenue ⟨t + 1, 100⟩), .call (t + 1) .tick]

def sampleTrack (es : List (Event Nat)) : Track Nat (Nat → Nat) :=
  followAll sampleBank ⟨7, 0, .complete⟩ (.start sampleContributed ⟨7, 0, .complete⟩ ⟨6, 1⟩) es

-- The contribution is claimed in three parts, each when its timeslices have been reported.
def sampleClaims : List (Event Nat) :=
  sampleReports 7 2 ++ [.claim 2] ++ sampleReports 9 4 ++ [.claim 3, .claim 100]

theorem sampleClaims_forfeit_nothing :
    (sampleTrack sampleClaims).rest = 0 ∧
      (sampleTrack sampleClaims).passages.map (·.paid.amount) = [100, 150, 50] ∧
      sampleContributed.ledger 1 = 990 ∧ (sampleTrack sampleClaims).state.ledger 1 = 1290 ∧
      (∀ p ∈ (sampleTrack sampleClaims).passages, p.Keeps) ∧
      ∀ t, 7 ≤ t → t < 13 → ∃ p ∈ (sampleTrack sampleClaims).passages, payoutKnown p.before t ∧
        paidFor (sampleTrack sampleClaims).items t = shareAt 80 p.before.instaPoolHistory t := by
  have hc : sampleContributed.instaPoolContribution ⟨7, 0, .complete⟩ = some ⟨6, 1⟩ := by
    decide +kernel
  have hu : UndisturbedRun sampleBank ⟨7, 0, .complete⟩
      (.start sampleContributed ⟨7, 0, .complete⟩ ⟨6, 1⟩) sampleClaims := by
    simp [sampleClaims, sampleReports, List.range', UndisturbedRun, Undisturbed]
  have hr : ReportedRun sampleBank ⟨7, 0, .complete⟩
      (.start sampleContributed ⟨7, 0, .complete⟩ ⟨6, 1⟩) sampleClaims := by decide +kernel
  have hz : (sampleTrack sampleClaims).rest = 0 := by decide +kernel
  obtain ⟨_, hiff, hend⟩ := claims_forfeit_nothing_iff hc sampleClaims hu
  exact ⟨hz, by decide +kernel, by decide +kernel, by decide +kernel, hiff.mpr hr, hend hr hz⟩

-- The contribution is claimed before the revenue of timeslice 7 is reported, and to
-- the end when all is reported.
def sampleEarlyClaims : List (Event Nat) :=
  [.claim 1] ++ sampleReports 7 6 ++ [.claim 100]

-- The payout of timeslice 7 is held for the contribution, of which nothing is left.
theorem sampleEarlyClaims_forfeit :
    (sampleTrack sampleEarlyClaims).rest = 0 ∧
      (sampleTrack sampleEarlyClaims).passages.map (·.paid.amount) = [0, 250] ∧
      paidFor (sampleTrack sampleEarlyClaims).items 7 = 0 ∧
      (sampleTrack sampleEarlyClaims).state.instaPoolHistory 7 = some ⟨80, 80, some 50⟩ ∧
      shareAt 80 (sampleTrack sampleEarlyClaims).state.instaPoolHistory 7 = 50 := by
  decide +kernel

end Broker
