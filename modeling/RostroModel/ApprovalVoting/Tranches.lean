import RostroModel.ApprovalVoting.Checking

namespace ApprovalVoting

open List (append_assoc range')

def assignmentsAt (tranches : List TrancheEntry) (i : Nat) : List (Nat × Nat) :=
  ((tranches.find? (·.tranche = i)).map (·.assignments)).getD []

-- The tranches are in order, and each validator is assigned once.
structure ApprovalEntry.WellFormed (entry : ApprovalEntry) : Prop where
  ordered : entry.tranches.Pairwise (·.tranche < ·.tranche)
  once : ((entry.tranches.flatMap (·.assignments)).map (·.1)).Nodup
  known : ∀ e ∈ entry.tranches, ∀ a ∈ e.assignments, a.1 < entry.nValidators

section Filled

variable {tranches : List TrancheEntry} {e : TrancheEntry} {i : Nat}

theorem assignmentsAt_cons_self : assignmentsAt (e :: tranches) e.tranche = e.assignments := by
  simp [assignmentsAt]

theorem assignmentsAt_cons_ne (h : e.tranche ≠ i) :
    assignmentsAt (e :: tranches) i = assignmentsAt tranches i := by
  simp [assignmentsAt, h]

theorem assignmentsAt_eq_nil (h : ∀ e ∈ tranches, e.tranche ≠ i) :
    assignmentsAt tranches i = [] := by
  have hnone : tranches.find? (·.tranche = i) = none := by simpa using h
  rw [assignmentsAt, hnone]
  rfl

theorem mem_assignmentsAt (h : a ∈ assignmentsAt tranches i) :
    ∃ e ∈ tranches, e.tranche = i ∧ a ∈ e.assignments := by
  unfold assignmentsAt at h
  cases hf : tranches.find? (·.tranche = i) with
  | none => simp [hf] at h
  | some e =>
    rw [hf] at h
    exact ⟨e, List.mem_of_find?_eq_some hf, by simpa using List.find?_some hf, h⟩

theorem nextTranche_cons {es : List TrancheEntry} (d : Nat) :
    ((e :: es).getLast?.map (·.tranche + 1)).getD d =
    (es.getLast?.map (·.tranche + 1)).getD (e.tranche + 1) := by
  cases es <;> simp [List.getLast?_cons]

-- A gap, the tranche that ends it, and those after it.
theorem filled_cons {es : List TrancheEntry} (he : ∀ d ∈ es, e.tranche < d.tranche)
    (ha : a ≤ e.tranche) (m : Nat) :
    (range' a (e.tranche - a)).map (·, []) ++ ([(e.tranche, e.assignments)] ++
        (range' (e.tranche + 1) m).map fun i => (i, assignmentsAt es i)) =
      (range' a (e.tranche - a + (1 + m))).map fun i => (i, assignmentsAt (e :: es) i) := by
  rw [← List.range'_append_1, Nat.add_sub_cancel' ha, ← List.range'_append_1, List.map_append,
    List.map_append]
  congr 1
  · apply List.map_congr_left
    intro i hi
    have := (List.mem_range'_1.mp hi).2
    rw [assignmentsAt_eq_nil]
    intro d hd
    rcases List.mem_cons.mp hd with rfl | hd
    · omega
    · have := he d hd
      omega
  · congr 1
    · simp [assignmentsAt_cons_self]
    · apply List.map_congr_left
      intro i hi
      have := (List.mem_range'_1.mp hi).1
      rw [assignmentsAt_cons_ne (by omega)]

-- After a tranche come all the others, in order.
theorem filled_after (count : Nat) (ho : tranches.Pairwise (·.tranche < ·.tranche))
    (hg : ∀ e ∈ tranches, g < e.tranche) :
    ∃ m, count ≤ m ∧ approvalEntriesFilled (some g) tranches ++
        (range' ((tranches.getLast?.map (·.tranche + 1)).getD (g + 1)) count).map (·, []) =
      (range' (g + 1) m).map fun i => (i, assignmentsAt tranches i) := by
  induction tranches generalizing g with
  | nil => exact ⟨count, Nat.le_refl _, rfl⟩
  | cons e es hi =>
    obtain ⟨he, hes⟩ := List.pairwise_cons.mp ho
    obtain ⟨m, hm, heq⟩ := hi hes he
    refine ⟨_, by omega, .trans ?_ (filled_cons he (hg e List.mem_cons_self) m)⟩
    rw [nextTranche_cons, approvalEntriesFilled]
    dsimp only [Option.map_some, Option.getD_some]
    rw [append_assoc, append_assoc, heq]

theorem filledTranches_eq (count : Nat) (ho : tranches.Pairwise (·.tranche < ·.tranche)) :
    ∃ m, count ≤ m ∧ filledTranches tranches count =
      (range' 0 m).map fun i => (i, assignmentsAt tranches i) := by
  cases tranches with
  | nil => exact ⟨count, Nat.le_refl _, rfl⟩
  | cons e es =>
    obtain ⟨he, hes⟩ := List.pairwise_cons.mp ho
    obtain ⟨m, hm, heq⟩ := filled_after count hes he
    refine ⟨_, by omega, .trans ?_ (filled_cons he (Nat.zero_le _) m)⟩
    unfold filledTranches
    rw [nextTranche_cons, approvalEntriesFilled, append_assoc, append_assoc, heq,
      List.head?_cons, Option.map_some, Option.getD_some, List.range_eq_range']
    simp

theorem flatMap_assignmentsAt {start count : Nat} (ho : tranches.Pairwise (·.tranche < ·.tranche))
    (hs : ∀ e ∈ tranches, start ≤ e.tranche) :
    (range' start count).flatMap (assignmentsAt tranches) =
      (tranches.takeWhile (·.tranche < start + count)).flatMap (·.assignments) := by
  induction count generalizing start tranches with
  | zero =>
    cases tranches with
    | nil => rfl
    | cons e es =>
      have := hs e List.mem_cons_self
      rw [List.takeWhile_cons_of_neg (by simp; omega)]
      rfl
  | succ count hi =>
    rw [List.range'_succ, List.flatMap_cons]
    have hsucc : start + (count + 1) = start + 1 + count := by omega
    rw [hsucc]
    cases tranches with
    | nil =>
      rw [hi ho fun e he => absurd he List.not_mem_nil]
      rfl
    | cons e es =>
      obtain ⟨he, hes⟩ := List.pairwise_cons.mp ho
      by_cases heq : e.tranche = start
      · subst heq
        have htail : (range' (e.tranche + 1) count).flatMap (assignmentsAt (e :: es)) =
            (range' (e.tranche + 1) count).flatMap (assignmentsAt es) := by
          apply List.flatMap_congr
          intro i hi
          have := (List.mem_range'_1.mp hi).1
          exact assignmentsAt_cons_ne (by omega)
        rw [assignmentsAt_cons_self, htail, hi hes he, List.takeWhile_cons_of_pos (by simp; omega),
          List.flatMap_cons]
      · have hlt : ∀ d ∈ e :: es, start + 1 ≤ d.tranche := by
          intro d hd
          have := hs e List.mem_cons_self
          rcases List.mem_cons.mp hd with rfl | hd
          · omega
          · have := he d hd
            omega
        rw [assignmentsAt_eq_nil fun d hd => by have := hlt d hd; omega, hi ho hlt]
        rfl

end Filled

def RequiredTranches.isPending : RequiredTranches → Bool
  | .pending .. => true
  | _ => false

namespace Query

variable (q : Query) (entry : ApprovalEntry)

-- The state before a tranche, if no earlier one ends the loop.
def stateAt : Nat → State
  | 0 => q.initialState
  | i + 1 => q.visit entry.nValidators (stateAt i) (assignmentsAt entry.tranches i)

def outputAt (i : Nat) : TranchesToApproveResult :=
  (q.stateAt entry (i + 1)).output i q.neededApprovals entry.nValidators q.noShowDuration

-- The loop comes to the end of a tranche.
structure Reaches (n : Nat) : Prop where
  considered : ∀ i ≤ n, i ≤ q.driftedTrancheNow (q.stateAt entry i)
  pending : ∀ i < n, (q.outputAt entry i).requiredTranches.isPending

variable {q entry}

theorem scan_cons {i : Nat} :
    q.scan entry.nValidators (q.stateAt entry i)
      ((i, assignmentsAt entry.tranches i) :: items) last =
      if q.driftedTrancheNow (q.stateAt entry i) < i then last
      else if (q.outputAt entry i).requiredTranches.isPending then
        q.scan entry.nValidators (q.stateAt entry (i + 1)) items (some (q.outputAt entry i))
      else some (q.outputAt entry i) := by
  rw [scan]
  by_cases h : q.driftedTrancheNow (q.stateAt entry i) < i
  · rw [if_pos h, if_pos h]
  · rw [if_neg h, if_neg h]
    have hout : (q.visit entry.nValidators (q.stateAt entry i)
      (assignmentsAt entry.tranches i)).output i
        q.neededApprovals entry.nValidators q.noShowDuration = q.outputAt entry i := rfl
    dsimp only
    rw [hout]
    cases (q.outputAt entry i).requiredTranches <;> rfl

theorem scan_eq (hk : k ≤ n) (hn : n < k + m)
    (hr : q.Reaches entry n) (ho : (q.outputAt entry n).requiredTranches.isPending = false) :
    q.scan entry.nValidators (q.stateAt entry k)
      ((range' k m).map fun i => (i, assignmentsAt entry.tranches i)) last =
        some (q.outputAt entry n) := by
  induction m generalizing k last with
  | zero => omega
  | succ m hi =>
    rw [List.range'_succ, List.map_cons, scan_cons, if_neg (not_lt.mpr (hr.considered k hk))]
    by_cases heq : k = n
    · subst heq
      rw [ho]
      rfl
    · rw [if_pos (hr.pending k (by omega))]
      exact hi (by omega) (by omega)

theorem reaches_of_scan (hc : ∀ i < k, i ≤ q.driftedTrancheNow (q.stateAt entry i))
    (hp : ∀ i < k, (q.outputAt entry i).requiredTranches.isPending)
    (hlast : ∀ r, last = some r → ∃ n, q.Reaches entry n ∧ r = q.outputAt entry n)
    (h : q.scan entry.nValidators (q.stateAt entry k)
      ((range' k m).map fun i => (i, assignmentsAt entry.tranches i)) last = some r) :
    ∃ n, q.Reaches entry n ∧ r = q.outputAt entry n := by
  induction m generalizing k last with
  | zero => exact hlast r h
  | succ m hi =>
    rw [List.range'_succ, List.map_cons, scan_cons] at h
    split_ifs at h with h1 h2
    · exact hlast r h
    all_goals
      have hr : q.Reaches entry k := by
        refine ⟨fun i hik => ?_, hp⟩
        rcases Nat.lt_or_eq_of_le hik with hik | rfl
        · exact hc i hik
        · exact not_lt.mp h1
    · refine hi (fun i hik => hr.considered i (by omega)) (fun i hik => ?_) ?_ h
      · rcases Nat.lt_or_eq_of_le (Nat.le_of_lt_succ hik) with hik | rfl
        · exact hp i hik
        · exact h2
      · intro r hr'
        obtain rfl := Option.some.inj hr'
        exact ⟨k, hr, rfl⟩
    · obtain rfl := Option.some.inj h
      exact ⟨k, hr, rfl⟩

theorem Reaches.le_trancheNow (h : q.Reaches entry n) : n ≤ q.trancheNow := by
  have := h.considered n (Nat.le_refl n)
  unfold driftedTrancheNow driftedTickNow tickNow at this
  omega

theorem Reaches.result (hw : entry.WellFormed) (h : q.Reaches entry n)
    (ho : (q.outputAt entry n).requiredTranches.isPending = false) :
    q.tranchesToApprove entry = some (q.outputAt entry n) := by
  obtain ⟨m, hm, heq⟩ := filledTranches_eq (q.trancheNow + 2) hw.ordered
  have := h.le_trancheNow
  rw [tranchesToApprove, heq]
  exact scan_eq (k := 0) (Nat.zero_le n) (by omega) h ho

theorem reaches_of_result (hw : entry.WellFormed)
    (h : q.tranchesToApprove entry = some r) : ∃ n, q.Reaches entry n ∧ r = q.outputAt entry n := by
  obtain ⟨m, _, heq⟩ := filledTranches_eq (q.trancheNow + 2) hw.ordered
  rw [tranchesToApprove, heq] at h
  exact reaches_of_scan (k := 0) nofun nofun (fun r hr => absurd hr (by simp)) h

theorem output_exact {s : State} {i needed nValidators duration n missing : Nat}
    (h : (s.output i needed nValidators duration).requiredTranches = .exact n missing next last) :
    n = i ∧ missing = s.covered ∧ needed ≤ s.assignments ∧
      (if s.depth = 0 then 0 else s.covering) = 0 ∧
      s.uncovered = 0 ∧ (s.depth ≠ 0 → s.assignments < nValidators) := by
  unfold State.output at h
  dsimp only at h
  split_ifs at h with h1 h2 h3 h4 <;> simp_all

end Query
end ApprovalVoting
