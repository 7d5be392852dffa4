import RostroModel.ApprovalVoting.Exact

namespace ApprovalVoting.Query

variable {q q' : Query} {entry : ApprovalEntry} {i n : Nat}

def Approves (q : Query) (entry : ApprovalEntry) : Prop :=
  ∃ c, q.check entry = some c ∧ c ≠ .unapproved

-- Everybody assigned in a tranche has approved or is counted as a no-show.
def Settled (q : Query) (entry : ApprovalEntry) (i : Nat) : Prop :=
  ∀ a ∈ assignmentsAt entry.tranches i, q.approvals[a.1]? = some true ∨
    q.isNoShow ((q.stateAt entry i).clockDrift q.noShowDuration)
      (q.driftedTickNow (q.stateAt entry i)) a

-- A validator is assigned once, so that one that is counted is counted for its assignment.
theorem settled_iff (hw : entry.WellFormed) : (∀ i ≤ n, Settled q entry i) ↔
    ∀ a ∈ assigned entry (n + 1), q.approvals[a.1]? = some true ∨
      a.1 ∈ (q.counted entry (n + 1)).map (·.1) := by
  have hnodup := @assigned_nodup entry n hw
  constructor
  · intro h a ha
    obtain ⟨i, hi, hai⟩ := List.mem_flatMap.mp ha
    have hlt := List.mem_range.mp hi
    refine (h i (by omega) a hai).imp id fun hno => ?_
    refine List.mem_map.mpr ⟨(a.1, i), List.mem_flatMap.mpr ⟨i, hi, ?_⟩, rfl⟩
    exact List.mem_map.mpr ⟨a, List.mem_filter.mpr ⟨hai, hno⟩, rfl⟩
  · intro h i hi a ha
    have hmem : ∀ {j b}, j ≤ n → b ∈ assignmentsAt entry.tranches j → b ∈ assigned entry (n + 1) :=
      fun hj hb => List.mem_flatMap.mpr ⟨_, List.mem_range.mpr (by omega), hb⟩
    refine (h a (hmem hi ha)).imp id fun hc => ?_
    obtain ⟨x, hx, hxa⟩ := List.mem_map.mp hc
    obtain ⟨hlt, b, hb, hbx⟩ := mem_counted hx
    obtain ⟨hbat, hno⟩ := List.mem_filter.mp hb
    have hab : b = a := List.inj_on_of_nodup_map hnodup (hmem (by omega) hbat) (hmem hi ha)
      (hbx.trans hxa)
    subst hab
    have hji : x.2 = i := by
      by_contra hne
      have hdis := (List.nodup_flatMap.mp (List.Nodup.of_map _ hnodup)).2
      have : Std.Symm (Function.onFun List.Disjoint (assignmentsAt entry.tranches)) :=
        ⟨fun _ _ h => h.symm⟩
      exact hdis.forall (List.mem_range.mpr hlt)
        (List.mem_range.mpr (Nat.lt_succ_of_le hi)) hne hbat ha
    rw [hji] at hno
    exact hno

theorem Approves.reaches (hw : entry.WellFormed) (hlen : q.approvals.length = entry.nValidators)
    (hthird : ¬q.approvals.length < 3 * q.approvals.countOnes) (h : q.Approves entry) :
    ∃ n missing next last, q.Reaches entry n ∧
      (q.outputAt entry n).requiredTranches = .exact n missing next last ∧ ∀ i ≤ n,
        Settled q entry i := by
  obtain ⟨c, hc, hne⟩ := h
  obtain ⟨r, hr, rfl⟩ := Option.map_eq_some_iff.mp hc
  obtain ⟨n, hreach, rfl⟩ := reaches_of_result hw hr
  cases hreq : (q.outputAt entry n).requiredTranches with
  | all => simp [hreq, checkApproval, hthird] at hne
  | pending considered next maximum drift => simp [hreq, checkApproval, hthird] at hne
  | exact needed missing next last =>
    obtain ⟨rfl, _, hmiss, _⟩ := hreach.exact hw hreq
    refine ⟨needed, missing, next, last, hreach, hreq, (settled_iff hw).mpr ?_⟩
    rw [hreq] at hne
    exact (checkApproval_exact_iff hw hlen hthird hmiss).mp hne

theorem Reaches.approves {missing : Nat} {next last : Option Nat} (hw : entry.WellFormed)
    (hlen : q.approvals.length = entry.nValidators) (h : q.Reaches entry n)
    (hr : (q.outputAt entry n).requiredTranches = .exact n missing next last)
    (hs : ∀ i ≤ n, Settled q entry i) : q.Approves entry := by
  obtain ⟨_, _, hmiss, _⟩ := h.exact hw hr
  have hres := h.result hw (by rw [hr]; rfl)
  refine ⟨checkApproval q.approvals entry
    (.exact n missing next last), by rw [check, hres, ← hr]; rfl, ?_⟩
  by_cases hthird : q.approvals.length < 3 * q.approvals.countOnes
  · simp [checkApproval, hthird]
  · exact (checkApproval_exact_iff hw hlen hthird hmiss).mpr ((settled_iff hw).mp hs)

section Later

-- What a call finds in a tranche if everybody has approved or does not show up.
theorem countNoShows_congr {l : List (Nat × Nat)} {drift now now' : Nat} (hnow : now ≤ now')
    (happ : q'.approvals = q.approvals) (hblock : q'.blockTick = q.blockTick)
    (hdur : q'.noShowDuration = q.noShowDuration)
    (h : ∀ a ∈ l, q.approvals[a.1]? = some true ∨ q.isNoShow drift now a) :
    q'.countNoShows l drift now' = q.countNoShows l drift now := by
  have hat : ∀ t, q'.noShowAt drift t = q.noShowAt drift t :=
    fun t => by rw [noShowAt, hblock, hdur]; rfl
  have hno : ∀ a ∈ l, q'.isNoShow drift now' a = q.isNoShow drift now a := by
    intro a ha
    unfold isNoShow
    rw [happ, hat]
    rcases h a ha with hap | hns
    · simp [hap]
    · have hfalse := not_approved_of_isNoShow hns
      have hle : q.noShowAt drift a.2 ≤ now := by simpa [isNoShow, hfalse] using hns
      simp [hle, hle.trans hnow]
  have hwait : ∀ {now : Nat} (q' : Query), q'.approvals = q.approvals →
      (∀ t, q'.noShowAt drift t = q.noShowAt drift t) → (∀ a ∈ l, q.approvals[a.1]? = some true ∨
        q.noShowAt drift a.2 ≤ now) → l.filter (q'.isAwaited drift now) = [] := by
    intro now q' happ hat h
    apply List.filter_eq_nil_iff.mpr
    intro a ha
    unfold isAwaited
    rw [happ, hat]
    rcases h a ha with hap | hle
    · simp [hap]
    · cases q.approvals[a.1]? <;> simp [hle]
  have hle : ∀ a ∈ l, q.approvals[a.1]? = some true ∨ q.noShowAt drift a.2 ≤ now := by
    intro a ha
    refine (h a ha).imp id fun hns => ?_
    simpa [isNoShow, not_approved_of_isNoShow hns] using hns
  unfold countNoShows
  rw [hwait q' happ hat fun a ha => (hle a ha).imp id fun h => h.trans hnow,
    hwait q rfl (fun _ => rfl) hle, List.filter_congr hno]
  rfl

variable {later : Nat} (hlater : q.trancheNow ≤ later)

include hlater in
theorem stateAt_later (hs : ∀ i ≤ n, Settled q entry i) :
    ∀ i ≤ n + 1, ({ q with trancheNow := later } : Query).stateAt entry i = q.stateAt entry i := by
  intro i
  induction i with
  | zero => exact fun _ => rfl
  | succ i hi =>
    intro hin
    have hprev := hi (by omega)
    have hcount := @countNoShows_congr q { q with trancheNow := later }
      (assignmentsAt entry.tranches i) ((q.stateAt entry i).clockDrift q.noShowDuration)
      (q.driftedTickNow (q.stateAt entry i))
      (({ q with trancheNow := later } : Query).driftedTickNow (q.stateAt entry i))
      (by unfold driftedTickNow tickNow; dsimp only; omega) rfl rfl rfl (hs i (by omega))
    rw [stateAt, stateAt, hprev]
    unfold visit
    rw [hcount]

include hlater in
theorem approves_later (hw : entry.WellFormed) (hlen : q.approvals.length = entry.nValidators)
    (h : q.Reaches entry n) {missing : Nat} {next last : Option Nat}
    (hr : (q.outputAt entry n).requiredTranches = .exact n missing next last)
    (hs : ∀ i ≤ n, Settled q entry i) :
    ({ q with trancheNow := later } : Query).Approves entry := by
  have hstate := stateAt_later hlater hs
  have hout : ∀ i ≤ n, ({ q with trancheNow := later } : Query).outputAt entry i =
    q.outputAt entry i := by
    intro i hi
    rw [outputAt, hstate (i + 1) (by omega)]
    rfl
  have hreach : ({ q with trancheNow := later } : Query).Reaches entry n := by
    refine ⟨fun i hi => ?_, fun i hi => ?_⟩
    · rw [hstate i (by omega)]
      have := h.considered i hi
      unfold driftedTrancheNow driftedTickNow tickNow at this ⊢
      dsimp only
      omega
    · rw [hout i (by omega)]
      exact h.pending i hi
  refine hreach.approves hw hlen (by rw [hout n (Nat.le_refl n)]; exact hr) ?_
  intro i hi a ha
  refine (hs i hi a ha).imp id fun hno => ?_
  have hfalse := not_approved_of_isNoShow hno
  rw [hstate i (by omega)]
  have hle : q.noShowAt ((q.stateAt entry i).clockDrift q.noShowDuration) a.2 ≤
      q.driftedTickNow (q.stateAt entry i) := by simpa [isNoShow, hfalse] using hno
  unfold isNoShow
  rw [hfalse]
  unfold noShowAt driftedTickNow tickNow at hle ⊢
  simp only [Bool.not_false, Bool.true_and, decide_eq_true_eq]
  omega

end Later

section More

theorem depth_ne_zero_iff (hc : Counts q entry (i + 1))
    (hp : (q.outputAt entry i).requiredTranches.isPending) :
    (q.stateAt entry (i + 1)).depth ≠ 0 ↔ q.neededApprovals ≤ (assigned entry (i + 1)).length := by
  refine ⟨fun hd => (hc.covering hd).1, fun hn hd => ?_⟩
  obtain ⟨_, hu, _, _, hnone⟩ := hc.gathering hd
  have hz : (q.stateAt entry (i + 1)).uncovered = 0 := by rw [hu, hnone hn (Nat.succ_pos i)]; rfl
  have ha := hc.assignments
  unfold outputAt State.output at hp
  simp [hd, hz, ha, hn, RequiredTranches.isPending] at hp

variable (hneed : q'.neededApprovals = q.neededApprovals)

include hneed in
theorem covers_eq (hw : entry.WellFormed) {m : Nat} (hr : q.Reaches entry n)
    (hr' : q'.Reaches entry m) (hm : m ≤ n) :
    ∀ i ≤ m + 1, q'.covers entry i = q.covers entry i := by
  intro i
  induction i with
  | zero => exact fun _ => rfl
  | succ i hi =>
    intro him
    have hdepth : (q'.stateAt entry i).depth ≠ 0 ↔ (q.stateAt entry i).depth ≠ 0 := by
      cases i with
      | zero => exact Iff.rfl
      | succ i =>
        rw [depth_ne_zero_iff (hr.counts hw (i + 1) (by omega)) (hr.pending i (by omega)),
          depth_ne_zero_iff (hr'.counts hw (i + 1) (by omega)) (hr'.pending i (by omega)), hneed]
    rw [covers_succ, covers_succ, hi (by omega)]
    simp only [hdepth]

theorem counted_le (hmore : ∀ v : Nat, q.approvals[v]? = some true → q'.approvals[v]? = some true)
    (hs : ∀ i ≤ n, Settled q entry i) :
    ∀ i ≤ n + 1, (q'.counted entry i).length ≤ (q.counted entry i).length := by
  intro i
  induction i with
  | zero => exact fun _ => Nat.le_refl _
  | succ i hi =>
    intro hin
    rw [counted_succ, counted_succ, List.length_append, List.length_append, List.length_map,
      List.length_map]
    apply Nat.add_le_add (hi (by omega))
    unfold noShowsIn
    rw [← List.countP_eq_length_filter, ← List.countP_eq_length_filter]
    apply List.countP_mono_left
    intro a ha hno
    refine (hs i (by omega) a ha).resolve_left fun hap => ?_
    have hfalse := not_approved_of_isNoShow hno
    rw [hmore a.1 hap] at hfalse
    cases hfalse

theorem output_all {s : State}
    (h : (s.output tranche needed nValidators duration).requiredTranches = .all) :
    s.depth ≠ 0 ∧ nValidators ≤ s.assignments + s.covering + s.uncovered := by
  unfold State.output at h
  dsimp only at h
  split_ifs at h with h1 h2 h3 <;> simp_all

theorem output_not_all {s : State}
    (h : (s.output tranche needed nValidators duration).requiredTranches ≠ .all)
    (hd : s.depth ≠ 0) :
    s.assignments + s.covering + s.uncovered < nValidators := by
  unfold State.output at h
  rw [if_neg hd] at h
  by_contra hlt
  rw [if_pos ⟨hd, by omega⟩] at h
  exact h rfl

theorem output_not_pending {s : State}
    (ha : needed ≤ s.assignments) (hc : (if s.depth = 0 then 0 else s.covering) + s.uncovered = 0) :
    (s.output tranche needed nValidators duration).requiredTranches.isPending = false := by
  unfold State.output
  dsimp only
  generalize (if s.depth = 0 then 0 else s.covering) = covering at hc ⊢
  split_ifs with h1 h2 h3
  · rfl
  · rfl
  · exact absurd ⟨ha, hc⟩ h2
  · exact absurd ⟨ha, hc⟩ h2

variable {m missing : Nat} {next last : Option Nat}

include hneed in
-- The run with more approvals has less to cover, and ends no later.
theorem ends (hw : entry.WellFormed) (hr : q.Reaches entry n)
    (hex : (q.outputAt entry n).requiredTranches = .exact n missing next last)
    (hs : ∀ i ≤ n, Settled q entry i)
    (hmore : ∀ v : Nat, q.approvals[v]? = some true → q'.approvals[v]? = some true)
    (hr' : q'.Reaches entry m) (hm : m ≤ n) :
    (q'.outputAt entry m).requiredTranches ≠ .all ∧
      (m = n → (q'.outputAt entry m).requiredTranches.isPending = false) := by
  have hc := hr.counts hw (m + 1) (by omega)
  have hc' := hr'.counts hw (m + 1) (Nat.le_refl _)
  have hcov := covers_eq hneed hw hr hr' hm (m + 1) (Nat.le_refl _)
  have hcnt := counted_le hmore hs (m + 1) (by omega)
  have ha := hc.assignments
  have ha' := hc'.assignments
  -- If the one covers no-shows, so does the other.
  have hdepth : (q'.stateAt entry (m + 1)).depth ≠ 0 → (q.stateAt entry (m + 1)).depth ≠ 0 := by
    intro hd' hd
    obtain ⟨hn, _, _, _, hpos⟩ := hc'.covering hd'
    have hnil := (hc.gathering hd).2.2.2.2 (hneed ▸ hn) (Nat.succ_pos m)
    rw [hnil, List.length_nil] at hcnt
    omega
  constructor
  · intro hall
    obtain ⟨hd', hle⟩ := output_all hall
    have hne : (q.outputAt entry m).requiredTranches ≠ .all := by
      intro heq
      rcases Nat.lt_or_eq_of_le hm with hlt | rfl
      · have hp := hr.pending m hlt
        rw [heq] at hp
        cases hp
      · rw [hex] at heq
        cases heq
    have hlt := output_not_all hne (hdepth hd')
    obtain ⟨_, h1, h2, _, _⟩ := hc.covering (hdepth hd')
    obtain ⟨_, h1', h2', _, _⟩ := hc'.covering hd'
    rw [hcov] at h1'
    omega
  · rintro rfl
    obtain ⟨_, _, h3, h4, h5, _⟩ := output_exact hex
    refine output_not_pending (by omega) ?_
    split_ifs with hd'
    · have hnil := (hc'.gathering hd').2.2.2.2 (by omega) (Nat.succ_pos m)
      have hun := (hc'.gathering hd').2.1
      rw [hun, hnil]
      rfl
    · rw [if_neg (hdepth hd')] at h4
      obtain ⟨_, h1, h2, _, _⟩ := hc.covering (hdepth hd')
      obtain ⟨_, h1', h2', _, _⟩ := hc'.covering hd'
      rw [hcov] at h1'
      omega

theorem depth_le (hw : entry.WellFormed) : (q.stateAt entry i).depth ≤ i := by
  induction i with
  | zero => exact Nat.le_refl _
  | succ i hi =>
    have h := (@stateAt_succ q entry i hw).rest
    omega

-- Late enough everybody who has not approved is a no-show, at every depth that can be reached.
theorem late (hw : entry.WellFormed) (hlen : q.approvals.length = entry.nValidators)
    (hb : ∀ e ∈ entry.tranches, ∀ a ∈ e.assignments, a.2 ≤ bound)
    (ht : n + n * q.noShowDuration + q.noShowDuration + bound ≤ q.trancheNow) (hi : i ≤ n) :
    i ≤ q.driftedTrancheNow (q.stateAt entry i) ∧ Settled q entry i := by
  have hd : (q.stateAt entry i).clockDrift q.noShowDuration ≤ n * q.noShowDuration :=
    Nat.mul_le_mul_right _ ((depth_le hw).trans hi)
  constructor
  · unfold driftedTrancheNow driftedTickNow tickNow
    omega
  · intro a ha
    obtain ⟨e, he, _, hae⟩ := mem_assignmentsAt ha
    have hlt : a.1 < q.approvals.length := by rw [hlen]; exact hw.known e he a hae
    have hbound := hb e he a hae
    cases hap : q.approvals[a.1]? with
    | none => exact absurd (List.getElem?_eq_none_iff.mp hap) (by omega)
    | some b =>
      cases b
      · right
        unfold isNoShow noShowAt driftedTickNow tickNow
        rw [hap]
        simp only [Bool.not_false, Bool.true_and, decide_eq_true_eq]
        omega
      · exact .inl rfl

include hneed in
theorem approves_more (hw : entry.WellFormed) (hlen' : q'.approvals.length = entry.nValidators)
    (hr : q.Reaches entry n)
    (hex : (q.outputAt entry n).requiredTranches = .exact n missing next last)
    (hs : ∀ i ≤ n, Settled q entry i)
    (hmore : ∀ v : Nat, q.approvals[v]? = some true → q'.approvals[v]? = some true)
    (hlate : ∀ i ≤ n, i ≤ q'.driftedTrancheNow (q'.stateAt entry i) ∧ Settled q' entry i) :
    q'.Approves entry := by
  -- The first tranche at which the loop ends.
  have hfirst : ∀ k ≤ n, (∀ i < k, (q'.outputAt entry i).requiredTranches.isPending) ∨
      ∃ m < k, q'.Reaches entry m ∧ (q'.outputAt entry m).requiredTranches.isPending = false := by
    intro k
    induction k with
    | zero => exact fun _ => .inl nofun
    | succ k hi =>
      intro hk
      rcases hi (by omega) with hp | ⟨m, hm, hend⟩
      · cases hend : (q'.outputAt entry k).requiredTranches.isPending with
        | false =>
          exact .inr ⟨k, Nat.lt_succ_self k, ⟨fun i hi => (hlate i (by omega)).1, hp⟩, hend⟩
        | true =>
          left
          intro i hik
          rcases Nat.lt_or_eq_of_le (Nat.le_of_lt_succ hik) with hik | rfl
          · exact hp i hik
          · exact hend
      · exact .inr ⟨m, by omega, hend⟩
  obtain ⟨m, hm, hr', hend⟩ : ∃ m ≤ n, q'.Reaches entry m ∧
      (q'.outputAt entry m).requiredTranches.isPending = false := by
    rcases hfirst n (Nat.le_refl n) with hp | ⟨m, hm, hr', hend⟩
    · have hr' : q'.Reaches entry n := ⟨fun i hi => (hlate i hi).1, hp⟩
      exact ⟨n, Nat.le_refl n, hr', (ends hneed hw hr hex hs hmore hr' (Nat.le_refl n)).2 rfl⟩
    · exact ⟨m, Nat.le_of_lt hm, hr', hend⟩
  have hall := (ends hneed hw hr hex hs hmore hr' hm).1
  cases hreq : (q'.outputAt entry m).requiredTranches with
  | all => exact absurd hreq hall
  | pending considered next maximum drift => rw [hreq] at hend; cases hend
  | exact needed missing next last =>
    obtain ⟨rfl, _⟩ := hr'.exact hw hreq
    exact hr'.approves hw hlen' hreq fun i hi => (hlate i (by omega)).2

end More

theorem scan_isSome {last : TranchesToApproveResult} :
    (q.scan nValidators s items (some last)).isSome := by
  induction items generalizing s last with
  | nil => rfl
  | cons item _ hi =>
    rw [scan]
    split_ifs
    · rfl
    · dsimp only
      split
      · rfl
      · rfl
      · exact hi

theorem tranchesToApprove_isSome (hw : entry.WellFormed) : (q.tranchesToApprove entry).isSome := by
  obtain ⟨m, hm, heq⟩ := filledTranches_eq (q.trancheNow + 2) hw.ordered
  obtain ⟨m, rfl⟩ : ∃ k, m = k + 1 := ⟨m - 1, by omega⟩
  rw [tranchesToApprove, heq]
  change (q.scan entry.nValidators (q.stateAt entry 0)
    ((0, assignmentsAt entry.tranches 0) :: _) none).isSome
  rw [scan_cons, if_neg (Nat.not_lt_zero _)]
  split_ifs
  · exact scan_isSome
  · rfl

theorem approves_third (hw : entry.WellFormed)
    (h : q.approvals.length < 3 * q.approvals.countOnes) :
    q.Approves entry := by
  obtain ⟨r, hr⟩ := Option.isSome_iff_exists.mp (@tranchesToApprove_isSome q entry hw)
  refine ⟨checkApproval q.approvals entry r.requiredTranches, by rw [check, hr]; rfl, ?_⟩
  simp [checkApproval, h]

theorem countOnes_mono {approvals more : Bitfield} (hlen : more.length = approvals.length)
    (h : ∀ v : Nat, approvals[v]? = some true → more[v]? = some true) :
    approvals.countOnes ≤ more.countOnes := by
  have heq : ∀ field : Bitfield, ∀ v : Nat, field[v]? =
      if v < field.length then some (decide (field[v]? = some true)) else none := by
    intro field v
    split_ifs with hv
    · simp [List.getElem?_eq_getElem hv]
    · exact List.getElem?_eq_none (not_lt.mp hv)
  rw [countOnes_eq (heq approvals), countOnes_eq (heq more), hlen]
  apply Finset.card_le_card
  intro v hv
  rw [Finset.mem_filter] at hv ⊢
  exact ⟨hv.1, by simpa using h v (by simpa using hv.2)⟩

-- An approval is not lost as time goes by, and further approvals can only delay it.
theorem approval_kept (q : Query) (entry : ApprovalEntry) (hw : entry.WellFormed)
    (hlen : q.approvals.length = entry.nValidators) (h : q.Approves entry) :
    (∀ later, q.trancheNow ≤ later → ({ q with trancheNow := later } : Query).Approves entry) ∧
      ∀ more : Bitfield, more.length = q.approvals.length →
        (∀ v : Nat, q.approvals[v]? = some true → more[v]? = some true) →
        ∃ t, ∀ later, t ≤ later →
          ({ q with approvals := more, trancheNow := later } : Query).Approves entry := by
  by_cases hthird : q.approvals.length < 3 * q.approvals.countOnes
  · refine ⟨fun later _ => approves_third hw hthird, fun more hml hmore => ⟨0, fun later _ => ?_⟩⟩
    have := countOnes_mono hml hmore
    exact approves_third hw (by dsimp only; omega)
  · obtain ⟨n, missing, next, last, hr, hex, hs⟩ := h.reaches hw hlen hthird
    refine ⟨fun later hl => approves_later hl hw hlen hr hex hs, fun more hml hmore => ?_⟩
    let bound := ((entry.tranches.flatMap (·.assignments)).map (·.2)).sum
    have hb : ∀ e ∈ entry.tranches, ∀ a ∈ e.assignments, a.2 ≤ bound := fun e he a ha =>
      List.single_le_sum (by simp) _ (List.mem_map_of_mem (List.mem_flatMap.mpr ⟨e, he, ha⟩))
    refine ⟨n + n * q.noShowDuration + q.noShowDuration + bound, fun later hl => ?_⟩
    have hneed : ({ q with approvals := more, trancheNow := later } : Query).neededApprovals =
        q.neededApprovals := rfl
    exact approves_more hneed hw (hml.trans hlen) hr hex hs hmore fun i hi =>
      late hw (hml.trans hlen) hb hl hi

theorem sampleQuery_kept :
    (sampleQuery [5, 6, 7]).Approves sampleEntry ∧
      (∀ later, 25 ≤ later →
        ({ sampleQuery [5, 6, 7] with trancheNow := later } : Query).Approves sampleEntry) ∧
      ∀ more : Bitfield, more.length = (sampleQuery [5, 6, 7]).approvals.length →
        (∀ v : Nat, (sampleQuery [5, 6, 7]).approvals[v]? = some true → more[v]? = some true) →
        ∃ t, ∀ later, t ≤ later →
          ({ sampleQuery [5, 6, 7] with approvals := more, trancheNow := later } : Query).Approves
            sampleEntry := by
  have h : (sampleQuery [5, 6, 7]).Approves sampleEntry :=
    ⟨.approved 5 (some 105), by decide, by decide⟩
  exact ⟨h, approval_kept (sampleQuery [5, 6, 7]) sampleEntry sampleEntry_wellFormed rfl h⟩

-- With two further approvals there are fewer no-shows, but the last ones are covered at a greater
-- depth, and the clock is drifted further.
theorem sampleQuery_delayed :
    (sampleQuery [5, 6, 7]).check sampleEntry = some (.approved 5 (some 105)) ∧
      (∀ v : Nat, (sampleQuery [5, 6, 7]).approvals[v]? = some true →
        (sampleQuery [1, 2, 5, 6, 7]).approvals[v]? = some true) ∧
      (∀ e ∈ sampleEntry.tranches, ∀ a ∈ e.assignments, (sampleQuery [5, 6, 7]).blockTick ≤ a.2) ∧
      (sampleQuery [1, 2, 5, 6, 7]).check sampleEntry = some .unapproved := by
  refine ⟨by decide, ?_, by decide, by decide⟩
  intro v hv
  have hlt : v < 16 := by simpa [sampleQuery] using (List.getElem?_eq_some_iff.mp hv).1
  interval_cases v <;> revert hv <;> decide

end ApprovalVoting.Query
