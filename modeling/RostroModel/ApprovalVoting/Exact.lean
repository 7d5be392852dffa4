import RostroModel.ApprovalVoting.Tranches

namespace ApprovalVoting.Query

variable (q : Query) (entry : ApprovalEntry)

def assigned (i : Nat) : List (Nat × Nat) :=
  (List.range i).flatMap (assignmentsAt entry.tranches)

-- The no-shows of a tranche, as they are counted when the loop comes to it.
def noShowsIn (i : Nat) : List (Nat × Nat) :=
  (assignmentsAt entry.tranches i).filter
    (q.isNoShow ((q.stateAt entry i).clockDrift q.noShowDuration)
      (q.driftedTickNow (q.stateAt entry i)))

-- The validators that are counted as no-shows in the tranches before one, with their tranches.
def counted (i : Nat) : List (Nat × Nat) :=
  (List.range i).flatMap fun j => (q.noShowsIn entry j).map fun a => (a.1, j)

def covers (i : Nat) : List Nat :=
  (List.range i).filter fun j => (q.stateAt entry j).depth ≠ 0 ∧ assignmentsAt entry.tranches j ≠ []

variable {q entry} {i n : Nat}

theorem assigned_succ :
    assigned entry (i + 1) = assigned entry i ++ assignmentsAt entry.tranches i := by
  simp [assigned, List.range_succ]

theorem counted_succ :
    q.counted entry (i + 1) = q.counted entry i ++ (q.noShowsIn entry i).map fun a => (a.1, i) := by
  simp [counted, List.range_succ]

theorem covers_succ : q.covers entry (i + 1) = q.covers entry i ++
    if (q.stateAt entry i).depth ≠ 0 ∧ assignmentsAt entry.tranches i ≠ [] then [i] else [] := by
  unfold covers
  rw [List.range_succ]
  split_ifs with h
  · simp [h]
  · simpa using h

theorem mem_counted (h : x ∈ q.counted entry i) :
    x.2 < i ∧ ∃ a ∈ q.noShowsIn entry x.2, a.1 = x.1 := by
  obtain ⟨j, hj, hx⟩ := List.mem_flatMap.mp h
  obtain ⟨a, ha, rfl⟩ := List.mem_map.mp hx
  exact ⟨List.mem_range.mp hj, a, ha, rfl⟩

-- The counters of the state, as long as the loop goes on. While it gathers assignments nothing is
-- covered; then each tranche that is not empty covers one no-show.
structure Counts (q : Query) (entry : ApprovalEntry) (i : Nat) : Prop where
  assignments : (q.stateAt entry i).assignments = (assigned entry i).length
  gathering : (q.stateAt entry i).depth = 0 → (q.stateAt entry i).covered = 0 ∧
    (q.stateAt entry i).uncovered = (q.counted entry i).length ∧
    (q.stateAt entry i).covering = q.neededApprovals - (assigned entry i).length ∧
      q.covers entry i = [] ∧
    (q.neededApprovals ≤ (assigned entry i).length → 0 < i → q.counted entry i = [])
  covering : (q.stateAt entry i).depth ≠ 0 → q.neededApprovals ≤ (assigned entry i).length ∧
    (q.stateAt entry i).covered = (q.covers entry i).length ∧
    (q.stateAt entry i).covered + (q.stateAt entry i).covering + (q.stateAt entry i).uncovered =
      (q.counted entry i).length ∧
    ((q.stateAt entry i).covering = 0 → (q.stateAt entry i).uncovered = 0) ∧
    0 < (q.counted entry i).length

theorem counts_zero : Counts q entry 0 := by
  refine ⟨rfl, fun _ => ⟨rfl, rfl, rfl, rfl, fun _ h => absurd h (Nat.lt_irrefl 0)⟩, fun h => ?_⟩
  exact absurd rfl h

-- The counters after a tranche.
structure Advances (s s' : State) (new noShows : Nat) : Prop where
  assignments : s'.assignments = s.assignments + new
  covered : s'.covered = if s.depth = 0 then 0 else s.covered + min new 1
  rest : let covering := s.covering - (if s.depth = 0 then new else min new 1)
    let uncovered := s.uncovered + noShows
    covering = 0 ∧ uncovered ≠ 0 ∧ s'.depth = s.depth + 1 ∧ s'.covering = uncovered ∧
      s'.uncovered = 0 ∨
      (covering = 0 → uncovered = 0) ∧ s'.depth = s.depth ∧ s'.covering = covering ∧
        s'.uncovered = uncovered

theorem advances {next last : Option Nat} :
    Advances s (s.advance new noShows next last validators) new noShows := by
  unfold State.advance
  refine ⟨rfl, ?_, ?_⟩
  · dsimp only
    split_ifs <;> rfl
  · intro covering uncovered
    by_cases h1 : covering = 0
    · by_cases h2 : uncovered = 0
      · right
        simp only [covering, uncovered] at h1 h2 ⊢
        simp [h1, h2]
      · left
        simp only [covering, uncovered] at h1 h2 ⊢
        refine ⟨h1, h2, ?_, ?_, ?_⟩ <;> simp only [if_pos h1, if_neg h2]
    · right
      simp only [covering, uncovered] at h1 ⊢
      simp [h1]

theorem stateAt_succ (hw : entry.WellFormed) :
    Advances (q.stateAt entry i) (q.stateAt entry (i + 1))
    (assignmentsAt entry.tranches i).length (q.noShowsIn entry i).length := by
  have hall : (assignmentsAt entry.tranches i).filter (·.1 < entry.nValidators) =
      assignmentsAt entry.tranches i := by
    apply List.filter_eq_self.mpr
    intro a ha
    obtain ⟨e, he, _, hae⟩ := mem_assignmentsAt ha
    simpa using hw.known e he a hae
  change Advances _ (q.visit entry.nValidators (q.stateAt entry i)
    (assignmentsAt entry.tranches i)) _ _
  unfold visit
  rw [hall]
  exact advances

theorem Counts.succ (hw : entry.WellFormed) (h : Counts q entry i)
    (hc : (q.stateAt entry i).depth ≠ 0 → (q.stateAt entry i).covering ≠ 0) :
    Counts q entry (i + 1) := by
  obtain ⟨ha, hcov, hcases⟩ := @stateAt_succ q entry i hw
  dsimp only at hcases
  have hlen : (assigned entry (i + 1)).length =
      (assigned entry i).length + (assignmentsAt entry.tranches i).length := by
    rw [assigned_succ, List.length_append]
  have hcnt : (q.counted entry (i + 1)).length =
      (q.counted entry i).length + (q.noShowsIn entry i).length := by
    rw [counted_succ, List.length_append, List.length_map]
  have hassign : (q.stateAt entry (i + 1)).assignments = (assigned entry (i + 1)).length := by
    rw [ha, h.assignments, hlen]
  by_cases hd : (q.stateAt entry i).depth = 0
  · obtain ⟨h1, h2, h3, h4, _⟩ := h.gathering hd
    have hcovers : q.covers entry (i + 1) = [] := by simp [covers_succ, h4, hd]
    simp only [hd, if_true] at hcov hcases
    refine ⟨hassign, fun hd' => ?_, fun hd' => ?_⟩
    · rcases hcases with ⟨_, _, hdep, _⟩ | ⟨hz, _, hco, hun⟩
      · omega
      · refine ⟨hcov, by omega, by omega, hcovers, fun hn _ => List.length_eq_zero_iff.mp ?_⟩
        have := hz (by omega)
        omega
    · rcases hcases with ⟨hz, hn, hdep, hco, hun⟩ | ⟨_, hdep, _⟩
      · rw [hcovers]
        refine ⟨by omega, by rw [hcov]; rfl, by omega, fun h =>
          absurd (hco.symm.trans h) hn, by omega⟩
      · exact absurd hdep hd'
  · obtain ⟨h1, h2, h3, h4, h5⟩ := h.covering hd
    have hpos := hc hd
    have hcovers : (q.covers entry (i + 1)).length =
        (q.covers entry i).length + min (assignmentsAt entry.tranches i).length 1 := by
      rw [covers_succ, List.length_append]
      cases hl : assignmentsAt entry.tranches i with
      | nil => simp
      | cons a as => simp [hd]
    simp only [hd, if_false] at hcov hcases
    refine ⟨hassign, fun hd' => ?_, fun _ => ?_⟩
    · rcases hcases with ⟨_, _, hdep, _⟩ | ⟨_, hdep, _⟩ <;> omega
    · rcases hcases with ⟨hz, hn, hdep, hco, hun⟩ | ⟨hz, hdep, hco, hun⟩
      · exact ⟨by omega, by omega, by omega, by omega, by omega⟩
      · exact ⟨by omega, by omega, by omega, by omega, by omega⟩

theorem Counts.covering_ne_zero (h : Counts q entry (i + 1))
    (hp : (q.outputAt entry i).requiredTranches.isPending)
    (hd : (q.stateAt entry (i + 1)).depth ≠ 0) :
    (q.stateAt entry (i + 1)).covering ≠ 0 := by
  intro hz
  obtain ⟨h1, _, _, h4, _⟩ := h.covering hd
  have ha := h.assignments
  unfold outputAt State.output at hp
  dsimp only at hp
  split_ifs at hp with h5 h6
  all_goals simp_all [RequiredTranches.isPending]

theorem Reaches.counts (hw : entry.WellFormed) (h : q.Reaches entry n) :
    ∀ i ≤ n + 1, Counts q entry i := by
  intro i
  induction i with
  | zero => exact fun _ => counts_zero
  | succ i hi =>
    intro hin
    have hc := hi (by omega)
    apply hc.succ hw
    intro hd
    cases i with
    | zero => exact absurd rfl hd
    | succ i => exact hc.covering_ne_zero (h.pending i (by omega)) hd

theorem Reaches.paired (hw : entry.WellFormed) (h : q.Reaches entry n) : ∀ i ≤ n + 1,
    List.Forall₂ (fun x t => x.2 < t) ((q.counted entry i).take (q.covers entry i).length)
      (q.covers entry i) := by
  intro i
  induction i with
  | zero => exact fun _ => .nil
  | succ i hi =>
    intro hin
    have hpair := hi (by omega)
    have hcounts := h.counts hw i (by omega)
    have hle : (q.covers entry i).length ≤ (q.counted entry i).length := by
      by_cases hd : (q.stateAt entry i).depth = 0
      · rw [(hcounts.gathering hd).2.2.2.1]
        exact Nat.zero_le _
      · have := hcounts.covering hd
        omega
    rw [covers_succ]
    split_ifs with hcov
    · have hpos : (q.stateAt entry i).covering ≠ 0 := by
        cases i with
        | zero => exact absurd rfl hcov.1
        | succ i => exact hcounts.covering_ne_zero (h.pending i (by omega)) hcov.1
      have hlt : (q.covers entry i).length < (q.counted entry i).length := by
        have := hcounts.covering hcov.1
        omega
      rw [counted_succ, List.length_append, List.length_singleton,
        List.take_append_of_le_length (by omega), List.take_succ_eq_append_getElem hlt]
      apply List.rel_append hpair
      exact .cons (mem_counted (List.getElem_mem hlt)).1 .nil
    · rw [List.append_nil, counted_succ, List.take_append_of_le_length hle]
      exact hpair

section Exactly

variable {missing : Nat} {next last : Option Nat}

theorem Reaches.exact (hw : entry.WellFormed) (h : q.Reaches entry n)
    (hr : (q.outputAt entry n).requiredTranches = .exact needed missing next last) :
    needed = n ∧ q.neededApprovals ≤ (assigned entry (n + 1)).length ∧
      missing = (q.counted entry (n + 1)).length ∧
      List.Forall₂ (fun x t => x.2 < t) (q.counted entry (n + 1)) (q.covers entry (n + 1)) := by
  obtain ⟨h1, h2, h3, h4, h5, _⟩ := output_exact hr
  have hc := h.counts hw (n + 1) (Nat.le_refl _)
  have hlen : missing = (q.counted entry (n + 1)).length ∧
      (q.covers entry (n + 1)).length = (q.counted entry (n + 1)).length := by
    by_cases hd : (q.stateAt entry (n + 1)).depth = 0
    · obtain ⟨h6, h7, _, h8, _⟩ := hc.gathering hd
      rw [h8]
      exact ⟨by omega, by rw [← h7, h5]; rfl⟩
    · rw [if_neg hd] at h4
      obtain ⟨_, h6, h7, _⟩ := hc.covering hd
      omega
  refine ⟨h1, by rw [← hc.assignments]; exact h3, hlen.1, ?_⟩
  have hp := h.paired hw (n + 1) (Nat.le_refl _)
  rwa [hlen.2, List.take_length] at hp

end Exactly

-- The assignments that `assignments_up_to` looks at.
theorem assigned_eq (hw : entry.WellFormed) : assigned entry (n + 1) =
    (entry.tranches.takeWhile (·.tranche ≤ n)).flatMap (·.assignments) := by
  have h := @flatMap_assignmentsAt entry.tranches 0 (n + 1) hw.ordered fun _ _ => Nat.zero_le _
  rw [← List.range_eq_range', Nat.zero_add] at h
  have hle : (fun e : TrancheEntry => decide (e.tranche < n + 1)) = fun e =>
      decide (e.tranche ≤ n) := by
    simp
  rw [hle] at h
  exact h

theorem assigned_nodup (hw : entry.WellFormed) : ((assigned entry (n + 1)).map (·.1)).Nodup := by
  rw [assigned_eq hw]
  refine hw.once.sublist (List.Sublist.map _ ?_)
  exact (List.takeWhile_sublist _).flatMap _

theorem counted_sublist :
    ((q.counted entry i).map (·.1)).Sublist ((assigned entry i).map (·.1)) := by
  induction i with
  | zero => exact List.Sublist.refl _
  | succ i hi =>
    rw [counted_succ, assigned_succ, List.map_append, List.map_append, List.map_map]
    exact hi.append (List.filter_sublist.map _)

theorem not_approved_of_isNoShow (h : q.isNoShow drift now a) : q.approvals[a.1]? = some false := by
  unfold isNoShow at h
  cases ha : q.approvals[a.1]? with
  | none => simp [ha] at h
  | some b => cases b <;> simp [ha] at h ⊢

theorem not_approved_of_counted (h : v ∈ (q.counted entry i).map (·.1)) :
    q.approvals[v]? = some false := by
  obtain ⟨x, hx, rfl⟩ := List.mem_map.mp h
  obtain ⟨_, a, ha, heq⟩ := mem_counted hx
  rw [← heq]
  exact not_approved_of_isNoShow (List.mem_filter.mp ha).2

section Bits

theorem getElem?_foldl_set {l : List (Nat × Nat)} {field : Bitfield} {v : Nat} :
    (l.foldl (fun field a => field.set a.1 true) field)[v]? =
      field[v]?.map fun b => b || decide (v ∈ l.map (·.1)) := by
  induction l generalizing field with
  | nil => simp
  | cons a as hi =>
    rw [List.foldl_cons, hi, List.getElem?_set]
    by_cases hv : a.1 = v
    · subst hv
      by_cases hlt : a.1 < field.length
      · simp [hlt]
      · simp [hlt]
    · have hmem : (v ∈ (a :: as).map (·.1)) = (v ∈ as.map (·.1)) := by
        rw [List.map_cons, List.mem_cons, eq_iff_iff]
        exact or_iff_right (Ne.symm hv)
      simp only [hv, if_false, hmem]

theorem getElem?_assignmentsUpTo {v : Nat} (hw : entry.WellFormed) : (entry.assignmentsUpTo n)[v]? =
    if v < entry.nValidators then some (decide (v ∈ (assigned entry (n + 1)).map (·.1)))
    else none := by
  unfold ApprovalEntry.assignmentsUpTo
  rw [← List.foldl_flatMap, ← assigned_eq hw, getElem?_foldl_set, List.getElem?_replicate]
  split_ifs <;> simp

theorem countOnes_eq {field : Bitfield} {m : Nat} {f : Nat → Bool}
    (h : ∀ v, field[v]? = if v < m then some (f v) else none) :
    field.countOnes = ((Finset.range m).filter (f ·)).card := by
  have heq : field = (List.range m).map f := by
    apply List.ext_getElem?
    intro v
    rw [h, List.getElem?_map]
    split_ifs with hv
    · rw [List.getElem?_range hv]
      rfl
    · rw [List.getElem?_eq_none (by simpa using hv)]
      rfl
  rw [heq, Bitfield.countOnes, List.count, List.countP_map, List.countP_eq_length_filter]
  change _ = (((List.range m).filter fun v => decide (f v = true)) : Multiset Nat).card
  congr 2

theorem assigned_le_iff {missing : Nat} (hw : entry.WellFormed)
    (hlen : q.approvals.length = entry.nValidators) :
    (entry.assignmentsUpTo n).countOnes ≤
        Bitfield.countOnes (List.zipWith and (entry.assignmentsUpTo n) q.approvals) + missing ↔
      ((Finset.range entry.nValidators).filter fun v => v ∈ (assigned entry (n + 1)).map (·.1) ∧
        q.approvals[v]? ≠ some true).card ≤ missing := by
  have happ : ∀ v, q.approvals[v]? =
      if v < entry.nValidators then some (decide (q.approvals[v]? = some true)) else none := by
    intro v
    split_ifs with hv
    · rw [List.getElem?_eq_getElem (by omega)]
      simp
    · exact List.getElem?_eq_none (by omega)
  have hboth : ∀ v, (List.zipWith and (entry.assignmentsUpTo n) q.approvals)[v]? =
      if v < entry.nValidators then some (decide (v ∈ (assigned entry (n + 1)).map (·.1)) &&
        decide (q.approvals[v]? = some true)) else none := by
    intro v
    rw [List.getElem?_zipWith, getElem?_assignmentsUpTo hw, happ v]
    split_ifs <;> simp
  rw [countOnes_eq fun v => getElem?_assignmentsUpTo hw, countOnes_eq hboth]
  have hsplit := Finset.card_filter_add_card_filter_not
    (s := (Finset.range entry.nValidators).filter fun v => v ∈ (assigned entry (n + 1)).map (·.1))
    fun v => q.approvals[v]? = some true
  rw [Finset.filter_filter, Finset.filter_filter] at hsplit
  simp only [decide_eq_true_eq, Bool.and_eq_true, ne_eq]
  omega

end Bits

-- Only validators that are counted as no-shows may be missing.
theorem checkApproval_exact_iff {missing : Nat} {last next : Option Nat} (hw : entry.WellFormed)
    (hlen : q.approvals.length = entry.nValidators)
    (hthird : ¬q.approvals.length < 3 * q.approvals.countOnes)
    (hmiss : missing = (q.counted entry (n + 1)).length) :
    checkApproval q.approvals entry (.exact n missing next last) ≠ .unapproved ↔
      ∀ a ∈ assigned entry (n + 1), q.approvals[a.1]? = some true ∨
        a.1 ∈ (q.counted entry (n + 1)).map (·.1) := by
  have hnodup : ((q.counted entry (n + 1)).map (·.1)).Nodup :=
    (assigned_nodup hw).sublist counted_sublist
  have hcard : ((q.counted entry (n + 1)).map (·.1)).toFinset.card = missing := by
    rw [List.toFinset_card_of_nodup hnodup, List.length_map, hmiss]
  have hsub : ((q.counted entry (n + 1)).map (·.1)).toFinset ⊆
      (Finset.range entry.nValidators).filter fun v => v ∈ (assigned entry (n + 1)).map (·.1) ∧
        q.approvals[v]? ≠ some true := by
    intro v hv
    have hv := List.mem_toFinset.mp hv
    have hno := not_approved_of_counted hv
    have hlt : v < q.approvals.length := (List.getElem?_eq_some_iff.mp hno).1
    simp only [Finset.mem_filter, Finset.mem_range]
    exact ⟨by omega, counted_sublist.subset hv, by simp [hno]⟩
  have hiff : checkApproval q.approvals entry (.exact n missing next last) ≠ .unapproved ↔
      (entry.assignmentsUpTo n).countOnes ≤
        Bitfield.countOnes (List.zipWith and (entry.assignmentsUpTo n) q.approvals) + missing := by
    unfold checkApproval
    dsimp only
    split_ifs with h <;> simp [h]
  rw [hiff, assigned_le_iff hw hlen, ← hcard]
  constructor
  · intro hle a ha
    by_cases hap : q.approvals[a.1]? = some true
    · exact .inl hap
    · right
      obtain ⟨j, _, haj⟩ := List.mem_flatMap.mp ha
      obtain ⟨e, he, _, hae⟩ := mem_assignmentsAt haj
      rw [← List.mem_toFinset, Finset.eq_of_subset_of_card_le hsub hle]
      simp only [Finset.mem_filter, Finset.mem_range]
      exact ⟨hw.known e he a hae, List.mem_map_of_mem ha, hap⟩
  · intro h
    apply Finset.card_le_card
    intro v hv
    simp only [Finset.mem_filter] at hv
    obtain ⟨a, ha, rfl⟩ := List.mem_map.mp hv.2.1
    exact List.mem_toFinset.mpr ((h a ha).resolve_left hv.2.2)

-- What an exact number of tranches means: enough assignments, each no-show covered by a tranche of
-- its own after it, and the check waits for nobody else.
theorem exact_right (q : Query) (entry : ApprovalEntry) (hw : entry.WellFormed)
    (hlen : q.approvals.length = entry.nValidators) {r : TranchesToApproveResult}
    (h : q.tranchesToApprove entry = some r) {needed missing : Nat} {next last : Option Nat}
    (hr : r.requiredTranches = .exact needed missing next last) :
    let assigned := (entry.tranches.takeWhile (·.tranche ≤ needed)).flatMap (·.assignments)
    let noShows := q.counted entry (needed + 1)
    q.neededApprovals ≤ assigned.length ∧ missing = noShows.length ∧
      (∃ covers : List Nat, covers.Nodup ∧
        (∀ t ∈ covers, t ≤ needed ∧ assignmentsAt entry.tranches t ≠ []) ∧
        List.Forall₂ (fun noShow t => noShow.2 < t) noShows covers) ∧
      (3 * q.approvals.countOnes ≤ q.approvals.length →
        (checkApproval q.approvals entry r.requiredTranches = .approved missing last ↔
          ∀ a ∈ assigned, q.approvals[a.1]? = some true ∨ a.1 ∈ noShows.map (·.1))) := by
  obtain ⟨n, hreach, rfl⟩ := reaches_of_result hw h
  obtain ⟨rfl, h₁, h₂, h₃⟩ := hreach.exact hw hr
  intro assigned noShows
  have hassigned : Query.assigned entry (needed + 1) = assigned := assigned_eq hw
  refine ⟨by rw [← hassigned]; exact h₁, h₂, ⟨_, ?_, ?_, h₃⟩, fun hthird => ?_⟩
  · exact List.nodup_range.filter _
  · intro t ht
    obtain ⟨hlt, hcov⟩ := List.mem_filter.mp ht
    exact ⟨Nat.le_of_lt_succ (List.mem_range.mp hlt), (of_decide_eq_true hcov).2⟩
  · rw [← hassigned, ← @checkApproval_exact_iff q entry needed missing last next hw hlen
      (not_lt.mpr hthird) h₂, hr]
    unfold checkApproval
    rw [if_neg (not_lt.mpr hthird)]
    dsimp only
    split_ifs <;> simp

-- Three of the validators of the first tranche do not show up, nor do the next two.
def sampleEntry : ApprovalEntry where
  tranches :=
    [⟨0, [(0, 100), (1, 100), (2, 100)]⟩, ⟨1, [(3, 101)]⟩, ⟨2, [(4, 102)]⟩, ⟨3, [(5, 103)]⟩,
      ⟨4, [(6, 104)]⟩, ⟨5, [(7, 105)]⟩]
  nValidators := 16

def sampleQuery (approvals : List Nat) : Query where
  approvals := (List.range 16).map (· ∈ approvals)
  trancheNow := 25
  blockTick := 100
  noShowDuration := 10
  neededApprovals := 3

theorem sampleEntry_wellFormed : sampleEntry.WellFormed := by
  constructor <;> decide

theorem sampleQuery_exact : (sampleQuery [5, 6, 7]).tranchesToApprove sampleEntry =
    some ⟨.exact 5 5 none (some 105), 5, [0, 1, 2, 3, 4]⟩ := by
  decide

theorem sampleQuery_right :
    let q := sampleQuery [5, 6, 7]
    let assigned := (sampleEntry.tranches.takeWhile (·.tranche ≤ 5)).flatMap (·.assignments)
    let noShows := q.counted sampleEntry 6
    q.neededApprovals ≤ assigned.length ∧ 5 = noShows.length ∧
      (∃ covers : List Nat, covers.Nodup ∧
        (∀ t ∈ covers, t ≤ 5 ∧ assignmentsAt sampleEntry.tranches t ≠ []) ∧
        List.Forall₂ (fun noShow t => noShow.2 < t) noShows covers) ∧
      (3 * q.approvals.countOnes ≤ q.approvals.length →
        (checkApproval q.approvals sampleEntry (.exact 5 5 none (some 105)) =
          .approved 5 (some 105) ↔
          ∀ a ∈ assigned, q.approvals[a.1]? = some true ∨ a.1 ∈ noShows.map (·.1))) :=
  exact_right (sampleQuery [5, 6, 7]) sampleEntry sampleEntry_wellFormed rfl sampleQuery_exact rfl

end ApprovalVoting.Query
