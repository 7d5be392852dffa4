import RostroModel.Broker.Revenue

namespace Broker

variable {Account Ledger : Type} {c : Config Account Ledger} {s s' : State Account Ledger} {t : Nat}

-- What is left for a timeslice once a claim has passed it.
def leftAt (parts : Nat) (history : History) (t : Nat) : Option InstaPoolHistoryRecord :=
  (history t).bind fun record => record.maybePayout.elim (some record) fun payout =>
    afterShare parts payout record

theorem claimLoop_before (claim : Claim) (h : t < claim.begin) :
    (claimLoop parts n claim).history t = claim.history t := by
  fun_induction claimLoop parts n claim
  case case1 => rfl
  case case2 hi => exact hi (Nat.lt_succ_of_lt h)
  case case3 => rfl
  case case4 hi => exact (hi (Nat.lt_succ_of_lt h)).trans (taken_history (Nat.ne_of_lt h))

theorem claimLoop_history (claim : Claim) (hb : claim.begin ≤ t)
    (ht : t < (claimLoop parts n claim).begin) :
    (claimLoop parts n claim).history t = leftAt parts claim.history t := by
  fun_induction claimLoop parts n claim
  case case1 => exact absurd hb (Nat.not_le.mpr ht)
  case case2 _ claim hr hi =>
    rcases Nat.eq_or_lt_of_le hb with rfl | hlt
    · rw [claimLoop_before claim.passed (Nat.lt_succ_self _), leftAt, hr]
      exact hr
    · exact hi hlt ht
  case case3 _ claim record hr hm =>
    obtain rfl : claim.begin = t := Nat.le_antisymm hb (Nat.le_of_lt_succ ht)
    simp [leftAt, hr, hm, Claim.passed]
  case case4 _ claim record hr payout hm hi =>
    rcases Nat.eq_or_lt_of_le hb with rfl | hlt
    · rw [claimLoop_before (claim.taken _ _ _) (Nat.lt_succ_self _)]
      simp [leftAt, hr, hm, Claim.taken]
    · rw [hi hlt ht, leftAt, leftAt, taken_history (Nat.ne_of_gt hlt)]

-- The claims that pass a timeslice, among other things that leave the
-- record of the timeslice as it is.
inductive Claims (c : Config Account Ledger) (t : Nat) (s : State Account Ledger) :
    List (Passage Account Ledger) → State Account Ledger → Prop
  | start : Claims c t s [] s
  | other : Claims c t s ps s₁ → s₂.instaPoolHistory t = s₁.instaPoolHistory t → Claims c t s ps s₂
  | claim (region : RegionId) (maxTimeslices : Nat) : Claims c t s ps s₁ →
    s₁.instaPoolContribution region = some contribution →
    doClaimRevenue c region maxTimeslices s₁ = .ok (s₂, paid) →
    region.begin ≤ t → t < (claimed s₁ region contribution.length maxTimeslices).begin →
    Claims c t s
      (ps ++ [⟨region, (claimed s₁ region contribution.length maxTimeslices).begin, s₁, s₂, paid⟩])
        s₂

-- The parts of a claim, with what it pays for the timeslice.
def Passage.paidAt (t : Nat) (p : Passage Account Ledger) : Nat × Nat :=
  (p.region.mask.countOnes, paidFor p.paid.items t)

-- By parts, what is left is never less than what was there for all.
structure Dealt (record : InstaPoolHistoryRecord) (payout : Nat) (paid : List (Nat × Nat))
    (left : Option InstaPoolHistoryRecord) : Prop where
  shares : ∀ x ∈ paid, payout * x.1 / record.privateContributions ≤ x.2
  rest : ∃ parts rest, (paid.map Prod.fst).sum + parts = record.privateContributions ∧
    (paid.map Prod.snd).sum + rest = payout ∧ payout * parts ≤ rest * record.privateContributions ∧
    (parts = 0 → rest = 0 ∧ left = none) ∧
    (0 < parts → 0 < rest ∧ left =
      some { record with privateContributions := parts, maybePayout := some rest })

section Share

variable {own parts payout rest total : Nat}

theorem share_le (hle : own ≤ parts) : share own rest parts ≤ rest :=
  Nat.div_le_of_le_mul (Nat.mul_comm parts rest ▸ Nat.mul_le_mul_left rest hle)

theorem share_lt (hlt : own < parts) (hrest : 0 < rest) : share own rest parts < rest :=
  Nat.div_lt_of_lt_mul (Nat.mul_comm parts rest ▸ Nat.mul_lt_mul_of_pos_left hlt hrest)

variable (hratio : payout * parts ≤ rest * total)

include hratio

theorem le_share (htotal : 0 < total) (hparts : 0 < parts) :
    payout * own / total ≤ share own rest parts := by
  rw [share, Nat.le_div_iff_mul_le hparts]
  apply Nat.le_of_mul_le_mul_right _ htotal
  calc payout * own / total * parts * total
    _ = payout * own / total * total * parts := Nat.mul_right_comm ..
    _ ≤ payout * own * parts := Nat.mul_le_mul_right _ (Nat.div_mul_le_self ..)
    _ = payout * parts * own := Nat.mul_right_comm ..
    _ ≤ rest * total * own := Nat.mul_le_mul_right _ hratio
    _ = rest * own * total := Nat.mul_right_comm ..

-- What is left by parts does not shrink, since a share is rounded down.
theorem ratio_after_share (hle : own ≤ parts) :
    payout * (parts - own) ≤ (rest - share own rest parts) * total := by
  have hmul : share own rest parts * parts ≤ rest * own := Nat.div_mul_le_self ..
  have hshare : share own rest parts ≤ rest := share_le hle
  generalize share own rest parts = p at *
  obtain ⟨d, rfl⟩ := Nat.exists_eq_add_of_le hle
  obtain ⟨e, rfl⟩ := Nat.exists_eq_add_of_le hshare
  rw [Nat.add_sub_cancel_left, Nat.add_sub_cancel_left]
  rcases Nat.eq_zero_or_pos (own + d) with hz | hpos
  · simp [(Nat.add_eq_zero_iff.mp hz).2]
  apply Nat.le_of_mul_le_mul_right _ hpos
  calc payout * d * (own + d)
    _ = payout * (own + d) * d := Nat.mul_right_comm ..
    _ ≤ (p + e) * total * d := Nat.mul_le_mul_right _ hratio
    _ = e * d * total + p * d * total := by ring
    _ ≤ e * d * total + e * own * total := by
      apply Nat.add_le_add_left (Nat.mul_le_mul_right _ _)
      linarith only [hmul]
    _ = e * total * (own + d) := by ring

end Share

theorem Dealt.claim {history : History} (h : Dealt record payout paid (history t))
    (hpos : 0 < record.privateContributions)
    (hle : (paid.map Prod.fst).sum + own ≤ record.privateContributions) :
    Dealt record payout (paid ++ [(own, shareAt own history t)]) (leftAt own history t) := by
  obtain ⟨hshares, parts, rest, hparts, hrest, hratio, hnone, hsome⟩ := h
  have hone (x : Nat) (hx : payout * own / record.privateContributions ≤ x) :
      ∀ y ∈ paid ++ [(own, x)], payout * y.1 / record.privateContributions ≤ y.2 := by
    intro y hy
    cases List.mem_append.mp hy
    case inl hy => exact hshares y hy
    case inr hy =>
      rw [List.mem_singleton.mp hy]
      exact hx
  have hsum (x : Nat) : ((paid ++ [(own, x)]).map Prod.fst).sum = (paid.map Prod.fst).sum + own ∧
      ((paid ++ [(own, x)]).map Prod.snd).sum = (paid.map Prod.snd).sum + x := by simp
  rcases Nat.eq_zero_or_pos parts with rfl | hlt
  · -- Nothing is left, and there are no parts to claim for.
    obtain ⟨rfl, hleft⟩ := hnone rfl
    have hm : own = 0 := by omega
    rw [shareAt, leftAt, hleft]
    refine ⟨hone 0 (by simp [hm]), 0, 0, ?_, (hsum 0).2.trans hrest, by simp,
      fun _ => ⟨rfl, rfl⟩, fun h => absurd h (Nat.lt_irrefl 0)⟩
    rw [(hsum 0).1]
    omega
  · obtain ⟨hrpos, hleft⟩ := hsome hlt
    rw [shareAt, leftAt, hleft]
    change Dealt _ _ (paid ++ [(own, share own rest parts)]) (afterShare own rest
      { record with privateContributions := parts, maybePayout := some rest })
    have hown : own ≤ parts := by omega
    have hshare : share own rest parts ≤ rest := share_le hown
    refine ⟨hone _ (le_share hratio hpos hlt), parts - own, rest - share own rest parts, ?_, ?_,
      ratio_after_share hratio hown, fun hz => ?_, fun hp => ?_⟩
    · rw [(hsum _).1]
      omega
    · rw [(hsum _).2]
      omega
    · obtain rfl : own = parts := by omega
      rw [afterShare, share, Nat.mul_div_cancel _ hlt, Nat.sub_self]
      exact ⟨rfl, rfl⟩
    · have hless := share_lt (Nat.lt_of_sub_pos hp) hrpos
      have hne := Nat.sub_ne_zero_of_lt hless
      exact ⟨Nat.pos_of_ne_zero hne, if_pos ⟨hne, hp⟩⟩

theorem Claims.dealt (h : Claims c t s ps s') (hr : s.instaPoolHistory t = some record)
    (hm : record.maybePayout = some payout) (hpos : 0 < payout)
    (hparts : 0 < record.privateContributions)
    (hle : ((ps.map (Passage.paidAt t)).map Prod.fst).sum ≤ record.privateContributions) :
    Dealt record payout (ps.map (Passage.paidAt t)) (s'.instaPoolHistory t) := by
  induction h
  case start =>
    refine ⟨by simp, record.privateContributions, payout, by simp, by simp, le_rfl, ?_,
      fun _ => ⟨hpos, ?_⟩⟩
    · exact fun h => absurd h (Nat.ne_of_gt hparts)
    · rw [hr, ← hm]
  case other hs hi =>
    rw [hs]
    exact hi hle
  case claim ps s₁ contribution s₂ paid region max _ hc hd hb ht hi =>
    obtain ⟨_, hc', hcl⟩ := doClaimRevenue_eq_ok hd
    cases hc.symm.trans hc'
    have hs : s₂.instaPoolHistory t = leftAt region.mask.countOnes s₁.instaPoolHistory t := by
      rw [hcl.history]
      exact claimLoop_history ⟨region.begin, contribution.length, 0, s₁.instaPoolHistory, []⟩ hb ht
    have hpaid : paidFor paid.items t = shareAt region.mask.countOnes s₁.instaPoolHistory t := by
      rw [hcl.items, paidFor_claimed, if_pos ⟨hb, ht⟩]
    rw [List.map_append, List.map_singleton, Passage.paidAt, hpaid] at hle ⊢
    rw [List.map_append, List.sum_append] at hle
    rw [hs]
    exact (hi (Nat.le_of_add_right_le hle)).claim hparts hle

-- What the items of a claim pay in all is transferred to the payee of the contribution.
structure Passage.Transfers (c : Config Account Ledger) (p : Passage Account Ledger) : Prop where
  payee : ∃ contribution, p.before.instaPoolContribution p.region = some contribution ∧
    p.paid.who = contribution.payee
  amount : (p.paid.items.map Prod.snd).sum = p.paid.amount
  ledger : p.after.ledger =
    (c.transfer p.before.ledger c.accountId p.paid.who p.paid.amount).getD p.before.ledger

theorem Claims.transfers (h : Claims c t s ps s') : ∀ p ∈ ps, p.Transfers c := by
  induction h
  case start => exact fun _ hp => absurd hp List.not_mem_nil
  case other hi => exact hi
  case claim hd _ _ hi =>
    obtain ⟨contribution, hc, hcl⟩ := doClaimRevenue_eq_ok hd
    simp only [List.forall_mem_append, List.forall_mem_singleton]
    refine ⟨hi, ⟨contribution, hc, hcl.who⟩, ?_, ?_⟩
    · rw [hcl.items, hcl.amount, claimed_items_sum]
    · rw [hcl.ledger, hcl.who, hcl.amount]

-- The contributions that cover a timeslice claim it in any order. Each of them is paid its share of
-- the whole payout or more, all of them together are paid the whole payout, and the record is kept
-- for those that have parts and have not claimed yet. What a claim pays for the timeslice is one of
-- its items, and the sum of its items is what it transfers.
theorem revenue_distributed {contributions : List CoreMask} (h : Claims c t s ps s')
    (hr : s.instaPoolHistory t = some record) (hm : record.maybePayout = some payout)
    (hpos : 0 < payout) (hparts : 0 < record.privateContributions)
    (hsum : (contributions.map CoreMask.countOnes).sum = record.privateContributions)
    (horder : (ps.map (·.region.mask.countOnes)).Subperm (contributions.map CoreMask.countOnes)) :
    (∀ p ∈ ps, payout * p.region.mask.countOnes / record.privateContributions ≤
      paidFor p.paid.items t) ∧
      (ps.map fun p => paidFor p.paid.items t).sum ≤ payout ∧
      ((ps.map (·.region.mask.countOnes)).Perm (contributions.map CoreMask.countOnes) →
        (ps.map fun p => paidFor p.paid.items t).sum = payout ∧ s'.instaPoolHistory t = none) ∧
      ((ps.map (·.region.mask.countOnes)).sum < record.privateContributions →
        ∃ left rest, s'.instaPoolHistory t = some left ∧ left.maybePayout = some rest ∧ 0 < rest ∧
          (ps.map fun p => paidFor p.paid.items t).sum + rest = payout) ∧
      ∀ p ∈ ps, p.Transfers c := by
  have hfst : (ps.map (Passage.paidAt t)).map Prod.fst = ps.map (·.region.mask.countOnes) := by
    rw [List.map_map]
    rfl
  have hsnd : (ps.map (Passage.paidAt t)).map Prod.snd = ps.map fun p =>
      paidFor p.paid.items t := by
    rw [List.map_map]
    rfl
  have hle : (ps.map (·.region.mask.countOnes)).sum ≤ record.privateContributions := by
    obtain ⟨l, hp, hs⟩ := horder
    rw [← hsum, ← hp.sum_eq]
    exact hs.sum_le_sum fun _ _ => Nat.zero_le _
  have ⟨hshares, parts, rest, hp, hrest, _, hnone, hsome⟩ := h.dealt hr hm hpos hparts (hfst ▸ hle)
  rw [hfst] at hp
  rw [hsnd] at hrest
  refine ⟨fun p hp => hshares _ (List.mem_map_of_mem hp), Nat.le.intro hrest,
    fun hall => ?_, fun hless => ?_, h.transfers⟩
  · have heq := hall.sum_eq
    have ⟨hz, hleft⟩ := hnone (by omega)
    exact ⟨by omega, hleft⟩
  · have ⟨hpos, hleft⟩ := hsome (by omega)
    exact ⟨_, rest, hleft, rfl, hpos, hrest⟩

-- Two contributions, of a half of a core and of a whole one, for timeslice 7 with a payout of 7.
-- The second one covers the timeslice before it as well, which has a payout of its own.
def sampleHalf : CoreMask :=
  0xffffffffff#80

def sampleRevenue : State Nat (Nat → Nat) where
  instaPoolContribution id :=
    if id = ⟨7, 1, sampleHalf⟩ then some ⟨1, 1⟩
    else if id = ⟨6, 0, .complete⟩ then some ⟨2, 2⟩
    else none
  instaPoolHistory t :=
    if t = 6 then some ⟨80, 0, some 5⟩ else if t = 7 then some ⟨120, 0, some 7⟩ else none
  ledger _ := 100

-- A report comes in between the claims.
theorem sampleRevenue_distributed : ∃ ps s', Claims sampleBank 7 sampleRevenue ps s' ∧
    ps.map (fun p => (p.paid.who, paidFor p.paid.items 7, p.paid.amount)) =
      [(1, 2, 2), (2, 5, 10)] ∧
    [1, 2].map s'.ledger = [102, 110] ∧
    (ps.map fun p => paidFor p.paid.items 7).sum = 7 ∧ s'.instaPoolHistory 7 = none := by
  have h₁ : Claims sampleBank 7 sampleRevenue [_] _ :=
    .claim ⟨7, 1, sampleHalf⟩ 1 .start (by decide +kernel : _ = some ⟨1, 1⟩) rfl le_rfl
      (by decide +kernel)
  have hreport {ps s₁} (h : Claims sampleBank 7 sampleRevenue ps s₁) :
      Claims sampleBank 7 sampleRevenue ps (doNotifyRevenue ⟨9, 10⟩ s₁) := .other h rfl
  have h₂ : Claims sampleBank 7 sampleRevenue [_, _] _ :=
    .claim ⟨6, 0, .complete⟩ 2 (hreport h₁) (by decide +kernel : _ = some ⟨2, 2⟩) rfl
      (by decide +kernel)
      (by decide +kernel)
  have ⟨_, _, hall, _⟩ := revenue_distributed h₂ rfl rfl (by decide) (by decide)
    (by decide +kernel : ([sampleHalf, .complete].map CoreMask.countOnes).sum = 120) (.refl _)
  have ⟨hsum, hnone⟩ := hall (.refl _)
  exact ⟨_, _, h₂, by decide +kernel, by decide +kernel, hsum, hnone⟩

end Broker
