import RostroModel.Prospective.FragmentChain
import RostroModel.Prospective.Modifications

namespace Prospective

open Hashing (headData)
open List (map_append map_singleton mem_cons)

variable {Hash : Type} [LinearOrder Hash] [Hashing Hash]
variable {sched : SchedulingScope Hash} {scope : Scope Hash}
variable {ns ns' : List (FragmentNode Hash)} {n : FragmentNode Hash}
  {e : CandidateEntry Hash} {c : Hash}

namespace BackedChain

variable {h : Hash}

def ofList (ns : List (FragmentNode Hash)) : BackedChain Hash where
  chain := ns
  byParentHead := ns.foldl (fun m n => m.insert n.parentHeadDataHash n.candidateHash) ∅
  byOutputHead := ns.foldl (fun m n => m.insert n.outputHeadDataHash n.candidateHash) ∅
  candidates := ns.foldl (fun m n => m.insert n.candidateHash) ∅

@[simp]
theorem chain_ofList : (ofList ns).chain = ns :=
  rfl

theorem push_ofList : (ofList ns).push n = ofList (ns ++ [n]) := by
  simp [push, ofList]

theorem mem_candidates_ofList : h ∈ (ofList ns).candidates ↔ h ∈ ns.map (·.candidateHash) := by
  simp [ofList, Std.ExtTreeSet.mem_foldl_insert_map]

theorem contains_ofList : (ofList ns).contains h = true ↔ h ∈ ns.map (·.candidateHash) := by
  rw [contains, Std.ExtTreeSet.contains_iff_mem, mem_candidates_ofList]

theorem mem_byParentHead_ofList :
    h ∈ (ofList ns).byParentHead ↔ h ∈ ns.map (·.parentHeadDataHash) :=
  Std.ExtTreeMap.mem_foldl_insert_empty

theorem mem_byOutputHead_ofList :
    h ∈ (ofList ns).byOutputHead ↔ h ∈ ns.map (·.outputHeadDataHash) :=
  Std.ExtTreeMap.mem_foldl_insert_empty

theorem checkCyclesOrInvalidTree_eq_ok {b : BackedChain Hash} :
    b.checkCyclesOrInvalidTree h = .ok u ↔ h ∉ b.byParentHead ∧ h ∉ b.byOutputHead := by
  simp only [checkCyclesOrInvalidTree, Except.bind_eq_ok, Except.ensure_eq_ok]
  exact ⟨fun ⟨_, h1, h2⟩ => ⟨h1, h2⟩, fun ⟨h1, h2⟩ => ⟨(), h1, h2⟩⟩

end BackedChain

section Step

-- The modifications of all nodes together, and the relay parent that the next one may not precede.
def lastModifications (ns : List (FragmentNode Hash)) : ConstraintModifications :=
  (ns.getLast?.map (·.cumulativeModifications)).getD .identity

def earliestRp (scope : Scope Hash) (ns : List (FragmentNode Hash)) : Nat :=
  match ns.getLast? with
  | some last => last.fragment.relayParent.number
  | none => scope.baseConstraints.minRelayParentNumber

-- The node that a candidate becomes when it is the next one.
structure Step (schedulingScope : SchedulingScope Hash) (scope : Scope Hash)
    (ns : List (FragmentNode Hash)) (e : CandidateEntry Hash) (n : FragmentNode Hash) : Prop where
  length : ns.length < scope.maxBackableLen
  child : ∃ constraints child,
    scope.baseConstraints.applyModifications (lastModifications ns) = .ok constraints ∧
    e.parentHeadDataHash = headData constraints.requiredParent ∧
    possibleChild schedulingScope scope (.ofList ns) constraints (earliestRp scope ns)
      e = some child ∧
    n = child.toNode ((lastModifications ns).stack child.fragment.modifications)

omit [Hashing Hash] in
theorem Fragment.new_eq_ok {relayParent : RelayChainBlockInfo Hash} {constraints : Constraints Hash}
    {candidate : ProspectiveCandidate Hash} {fragment : Fragment Hash} :
    Fragment.new relayParent constraints candidate = .ok fragment ↔
      fragment.relayParent = relayParent ∧ fragment.operatingConstraints = constraints ∧
      fragment.candidate = candidate := by
  rw [Fragment.new]
  obtain ⟨rp, k, cand, m, hv⟩ := fragment
  constructor
  · intro h
    split at h
    · cases h
      exact ⟨rfl, rfl, rfl⟩
    · cases h
  · rintro ⟨rfl, rfl, rfl⟩
    split
    · rename_i m' h'
      cases h'.symm.trans hv
      rfl
    · rename_i e' h'
      cases h'.symm.trans hv

theorem possibleChild_eq_some {chain : BackedChain Hash} {constraints : Constraints Hash}
    {earliest : Nat} {child : PossibleChild Hash} :
    possibleChild sched scope chain constraints earliest e = some child ↔
      ((scope.getPendingAvailability e.candidateHash).isNone → sched.contains e.schedulingParent) ∧
      (e.outputHeadDataHash ∉ chain.byParentHead ∧ e.outputHeadDataHash ∉ chain.byOutputHead) ∧
      (chain.chain.length ≠ 0 ∨ (scope.getPendingAvailability e.candidateHash).isNone →
        earliest ≤ (relayParentOf scope e).number) ∧
      ¬chain.contains e.candidateHash ∧
      child.entry = e ∧ child.fragment.relayParent = relayParentOf scope e ∧
      child.fragment.operatingConstraints = operatingConstraints scope e constraints := by
  have hcycle : (chain.checkCyclesOrInvalidTree e.outputHeadDataHash).toOption.isNone ↔
      ¬(e.outputHeadDataHash ∉ chain.byParentHead ∧ e.outputHeadDataHash ∉ chain.byOutputHead) := by
    cases hc : chain.checkCyclesOrInvalidTree e.outputHeadDataHash
    case ok u => simp [Except.toOption, BackedChain.checkCyclesOrInvalidTree_eq_ok.mp hc]
    case error err =>
      have hn : ¬(e.outputHeadDataHash ∉ chain.byParentHead ∧
          e.outputHeadDataHash ∉ chain.byOutputHead) := by
        intro h
        cases hc.symm.trans (BackedChain.checkCyclesOrInvalidTree_eq_ok (u := ()).mpr h)
      simpa [Except.toOption] using hn
  have hrp : (relayParentOf scope e).number < minRelayParentNumber scope chain earliest e ↔
      ¬(chain.chain.length ≠ 0 ∨ (scope.getPendingAvailability e.candidateHash).isNone →
        earliest ≤ (relayParentOf scope e).number) := by
    rw [relayParentOf, minRelayParentNumber]
    cases scope.getPendingAvailability e.candidateHash
    case none => simp
    case some p => by_cases hl : chain.chain.length = 0 <;> simp [hl]
  rw [possibleChild]
  constructor
  · intro h
    split_ifs at h with h1 h2 h3 h4
    rw [hcycle, not_not] at h2
    rw [not_and, not_not] at h1
    have h3 := not_not.mp (hrp.not.mp h3)
    split at h
    case h_1 fragment hf =>
      cases h
      obtain ⟨h5, h6, -⟩ := Fragment.new_eq_ok.mp hf
      exact ⟨h1, h2, h3, h4, rfl, h5, h6⟩
    case h_2 => cases h
  · rintro ⟨h1, h2, h3, h4, rfl, h5, h6⟩
    have hf := Fragment.new_eq_ok.mpr ⟨h5, h6, child.candidate_eq⟩
    rw [if_neg (fun h => h.2 (h1 h.1)), if_neg (hcycle.not.mpr (not_not.mpr h2)),
      if_neg (hrp.not.mpr (not_not.mpr h3)), if_neg h4]
    split
    case h_1 fragment hf' =>
      cases hf'.symm.trans hf
      rfl
    case h_2 err hf' => cases hf'.symm.trans hf

namespace Step

theorem functional (h : Step sched scope ns e n) (h' : Step sched scope ns e n') : n = n' := by
  obtain ⟨k, child, ha, -, hc, rfl⟩ := h.child
  obtain ⟨k', child', ha', -, hc', rfl⟩ := h'.child
  cases ha.symm.trans ha'
  cases hc.symm.trans hc'
  rfl

structure Made (scope : Scope Hash) (e : CandidateEntry Hash) (n : FragmentNode Hash) : Prop where
  candidateHash : n.candidateHash = e.candidateHash
  parent : n.parentHeadDataHash = e.parentHeadDataHash
  output : n.outputHeadDataHash = e.outputHeadDataHash
  candidate : n.fragment.candidate = e.candidate
  schedulingParent : n.schedulingParent = e.schedulingParent
  paraId : n.paraId = e.paraId
  relayParent : n.fragment.relayParent = relayParentOf scope e

variable (h : Step sched scope ns e n)
include h

theorem made : Made scope e n := by
  obtain ⟨k, child, -, -, hc, rfl⟩ := h.child
  obtain ⟨-, -, -, -, rfl, hr, -⟩ := possibleChild_eq_some.mp hc
  exact ⟨rfl, rfl, rfl, child.candidate_eq, rfl, rfl, hr⟩

theorem operating : ∃ constraints,
    scope.baseConstraints.applyModifications (lastModifications ns) = .ok constraints ∧
    n.parentHeadDataHash = headData constraints.requiredParent ∧
    n.fragment.operatingConstraints = operatingConstraints scope e constraints := by
  obtain ⟨k, child, ha, hp, hc, rfl⟩ := h.child
  obtain ⟨-, -, -, -, rfl, -, ho⟩ := possibleChild_eq_some.mp hc
  exact ⟨k, ha, hp, ho⟩

theorem cumulative :
    n.cumulativeModifications = (lastModifications ns).stack n.fragment.modifications := by
  obtain ⟨k, child, -, -, -, rfl⟩ := h.child
  rfl

theorem output_not_mem : n.outputHeadDataHash ∉ ns.map (·.parentHeadDataHash) ∧
      n.outputHeadDataHash ∉ ns.map (·.outputHeadDataHash) := by
  obtain ⟨k, child, -, -, hc, rfl⟩ := h.child
  obtain ⟨-, ho, -, -, rfl, -⟩ := possibleChild_eq_some.mp hc
  rwa [BackedChain.mem_byParentHead_ofList, BackedChain.mem_byOutputHead_ofList] at ho

theorem candidateHash_not_mem : n.candidateHash ∉ ns.map (·.candidateHash) := by
  obtain ⟨k, child, -, -, hc, rfl⟩ := h.child
  obtain ⟨-, -, -, hn, rfl, -⟩ := possibleChild_eq_some.mp hc
  rwa [BackedChain.contains_ofList] at hn

theorem relayParent_le (hn : ns ≠ []) : earliestRp scope ns ≤ n.fragment.relayParent.number := by
  obtain ⟨k, child, -, -, hc, rfl⟩ := h.child
  obtain ⟨-, -, hr, -, rfl, he, -⟩ := possibleChild_eq_some.mp hc
  change _ ≤ child.fragment.relayParent.number
  rw [he]
  exact hr (.inl (by simpa using hn))

end Step

-- The head that the next node has to build on.
def tip (scope : Scope Hash) (ns : List (FragmentNode Hash)) : Hash :=
  (ns.getLast?.map (·.outputHeadDataHash)).getD (headData scope.baseConstraints.requiredParent)

@[simp]
theorem tip_nil : tip scope [] = headData scope.baseConstraints.requiredParent :=
  rfl

@[simp]
theorem tip_append : tip scope (ns ++ [n]) = n.outputHeadDataHash := by
  simp [tip]

@[simp]
theorem lastModifications_append : lastModifications (ns ++ [n]) = n.cumulativeModifications := by
  simp [lastModifications]

@[simp]
theorem earliestRp_append : earliestRp scope (ns ++ [n]) = n.fragment.relayParent.number := by
  simp [earliestRp]

-- Chains that are built node by node, of allowed candidates.
inductive Grown (scope : Scope Hash) (allowed : SchedulingScope Hash → CandidateEntry Hash → Prop) :
    List (FragmentNode Hash) → Prop
  | nil : Grown scope allowed []
  | snoc (schedulingScope : SchedulingScope Hash) (ns : List (FragmentNode Hash))
      (e : CandidateEntry Hash) (n : FragmentNode Hash) :
    Grown scope allowed ns → allowed schedulingScope e → Step schedulingScope scope ns e n →
    Grown scope allowed (ns ++ [n])

namespace Grown

variable {allowed : SchedulingScope Hash → CandidateEntry Hash → Prop}

theorem of_prefix (h : Grown scope allowed ns) (hp : ns' <+: ns) : Grown scope allowed ns' := by
  induction h
  case nil =>
    rw [List.prefix_nil.mp hp]
    exact .nil
  case snoc hg ha hs hi =>
    obtain he | hp := List.prefix_concat_iff.mp hp
    · exact he ▸ .snoc _ _ _ _ hg ha hs
    · exact hi hp

theorem mono {allowed' : SchedulingScope Hash → CandidateEntry Hash → Prop}
    (h : Grown scope allowed ns) (ha : ∀ sched e, allowed sched e → allowed' sched e) :
    Grown scope allowed' ns := by
  induction h
  case nil => exact .nil
  case snoc h hs hi => exact .snoc _ _ _ _ hi (ha _ _ h) hs

theorem of_snoc (h : Grown scope allowed (ns ++ [n])) : ∃ sched e,
    Grown scope allowed ns ∧ allowed sched e ∧ Step sched scope ns e n := by
  generalize hl : ns ++ [n] = l at h
  cases h
  case nil => simp at hl
  case snoc sched ns' e n' hg ha hs =>
    obtain ⟨rfl, hn⟩ := List.append_inj' hl rfl
    cases hn
    exact ⟨sched, e, hg, ha, hs⟩

variable (h : Grown scope allowed ns)
include h

theorem of_mem (hn : n ∈ ns) : ∃ ms sched e, ms ++ [n] <+: ns ∧
    Grown scope allowed ms ∧ allowed sched e ∧ Step sched scope ms e n := by
  obtain ⟨l, l', rfl⟩ := List.append_of_mem hn
  have hp : l ++ [n] <+: l ++ n :: l' := ⟨l', by simp⟩
  obtain ⟨sched, e, hs⟩ := (h.of_prefix hp).of_snoc
  exact ⟨l, sched, e, hp, hs⟩

theorem requiredParent :
    headData ((lastModifications ns).requiredParent.getD scope.baseConstraints.requiredParent) =
      tip scope ns := by
  cases h
  case nil => rfl
  case snoc ns e n _ _ hs =>
    rw [lastModifications_append, tip_append, hs.cumulative, ConstraintModifications.stack,
      n.fragment.checked.requiredParent]
    exact n.output_eq.symm

theorem step_parent (hs : Step sched scope ns e n) : n.parentHeadDataHash = tip scope ns := by
  obtain ⟨k, ha, hp, -⟩ := hs.operating
  rw [hp, (Constraints.parent_of_apply ha).1, h.requiredParent]

theorem path : ns.map (·.parentHeadDataHash) ++ [tip scope ns] =
    headData scope.baseConstraints.requiredParent :: ns.map (·.outputHeadDataHash) := by
  induction h
  case nil => rfl
  case snoc ns e n hg _ hs hi =>
    rw [map_append, map_append, map_singleton, map_singleton, tip_append,
      hg.step_parent hs, hi]
    rfl

theorem nodup_heads :
    (headData scope.baseConstraints.requiredParent :: ns.map (·.outputHeadDataHash)).Nodup := by
  induction h
  case nil => simp
  case snoc ns e n hg _ hs hi =>
    -- The heads so far are the parents and the tip, which is the parent of the new node.
    have hne : n.outputHeadDataHash ∉
        headData scope.baseConstraints.requiredParent :: ns.map (·.outputHeadDataHash) := by
      rw [← hg.path, List.mem_append, List.mem_singleton, ← hg.step_parent hs, not_or]
      exact ⟨hs.output_not_mem.1, n.parent_ne_output.symm⟩
    rw [map_append, map_singleton, ← List.concat_eq_append]
    exact hi.concat hne

theorem nodup_outputs : (ns.map (·.outputHeadDataHash)).Nodup :=
  (List.nodup_cons.mp h.nodup_heads).2

theorem nodup_parents : (ns.map (·.parentHeadDataHash)).Nodup := by
  have hn := h.nodup_heads
  rw [← h.path] at hn
  exact (List.nodup_append.mp hn).1

theorem nodup_candidates : (ns.map (·.candidateHash)).Nodup := by
  induction h
  case nil => simp
  case snoc ns e n hg _ hs hi =>
    rw [map_append, map_singleton, ← List.concat_eq_append]
    exact hi.concat hs.candidateHash_not_mem

theorem length_le : ns.length ≤ scope.maxBackableLen := by
  cases h
  case nil => exact Nat.zero_le _
  case snoc ns e n _ _ hs =>
    rw [List.length_append]
    exact hs.length

theorem relayParents_le : (ns.map (·.fragment.relayParent.number)).Pairwise (· ≤ ·) := by
  rw [← List.isChain_iff_pairwise]
  induction h
  case nil => exact .nil
  case snoc ns e n hg _ hs hi =>
    rw [map_append, List.isChain_append]
    refine ⟨hi, .singleton _, ?_⟩
    intro a ha b hb
    obtain rfl : n.fragment.relayParent.number = b := by simpa using hb
    rw [List.getLast?_map] at ha
    obtain ⟨last, hl, rfl⟩ := Option.map_eq_some_iff.mp ha
    have hn : ns ≠ [] := by
      rintro rfl
      simp at hl
    have hr := hs.relayParent_le hn
    rwa [earliestRp, hl] at hr

end Grown
end Step

section Populate

variable {storage storage' : CandidateStorage Hash}

-- A stored candidate that can be added next.
structure Eligible (schedulingScope : SchedulingScope Hash) (scope : Scope Hash)
    (ns : List (FragmentNode Hash)) (storage : CandidateStorage Hash) (e : CandidateEntry Hash)
    (n : FragmentNode Hash) : Prop where
  stored : storage.byCandidateHash[e.candidateHash]? = some e
  backed : e.state = .backed
  step : Step schedulingScope scope ns e n

-- Eligible candidates are added until there are none. Without candidates pending availability, it
-- is always the one with the lowest hash.
inductive Populates (schedulingScope : SchedulingScope Hash) (scope : Scope Hash) :
    List (FragmentNode Hash) → CandidateStorage Hash → List (FragmentNode Hash) →
      CandidateStorage Hash → Prop
  | done {ns : List (FragmentNode Hash)} {storage : CandidateStorage Hash} :
  (∀ e n, ¬Eligible schedulingScope scope ns storage e n) →
      Populates schedulingScope scope ns storage ns storage
  | step {ns ns' : List (FragmentNode Hash)} {storage storage' : CandidateStorage Hash}
      {e : CandidateEntry Hash} {n : FragmentNode Hash} :
      Eligible schedulingScope scope ns storage e n →
      (scope.pendingAvailability = [] → ∀ e' n', Eligible schedulingScope scope ns storage e' n' →
        e.candidateHash ≤ e'.candidateHash) →
      Populates schedulingScope scope (ns ++ [n])
        (storage.removeCandidate e.candidateHash) ns' storage' →
      Populates schedulingScope scope ns storage ns' storage'

theorem bestCandidate_mem (h : bestCandidate scope l = some best) : best ∈ l := by
  cases l
  case nil => cases h
  case cons c l =>
    rw [bestCandidate, Option.some.injEq] at h
    subst h
    induction l generalizing c
    case nil => simp
    case cons c' l hi =>
      rw [List.foldl_cons]
      split_ifs
      · exact List.mem_cons_of_mem _ (hi c')
      · obtain h | h := mem_cons.mp (hi c)
        · rw [h]
          exact List.mem_cons_self
        · exact List.mem_cons_of_mem _ (List.mem_cons_of_mem _ h)

theorem bestCandidate_eq_none : bestCandidate scope l = none ↔ l = [] := by
  cases l <;> simp [bestCandidate]

theorem bestCandidate_le (hp : scope.pendingAvailability = [])
    (h : bestCandidate scope l = some best) :
    ∀ child ∈ l, best.entry.candidateHash ≤ child.entry.candidateHash := by
  have hcmp (c c' : PossibleChild Hash) : compareChildren scope c c' = .gt ↔
      c'.entry.candidateHash < c.entry.candidateHash := by
    simp [compareChildren, Scope.getPendingAvailability, hp, forkSelectionRule, compare_gt_iff_gt]
  cases l
  case nil => cases h
  case cons c l =>
    rw [bestCandidate, Option.some.injEq] at h
    subst h
    induction l generalizing c
    case nil => simp
    case cons c' l hi =>
      rw [List.foldl_cons]
      simp only [mem_cons, forall_eq_or_imp] at hi ⊢
      split_ifs with hc
      · exact ⟨(hi c').1.trans ((hcmp c c').mp hc).le, hi c'⟩
      · have hle : c.entry.candidateHash ≤ c'.entry.candidateHash := not_lt.mp fun h =>
          hc ((hcmp c c').mpr h)
        exact ⟨(hi c).1, (hi c).1.trans hle, (hi c).2⟩

theorem mem_possibleChildren (hi : storage.Indexed)
    (ha : scope.baseConstraints.applyModifications (lastModifications ns) = .ok constraints)
    (hl : ns.length < scope.maxBackableLen) :
    child ∈ (storage.possibleBackedParaChildren (headData constraints.requiredParent)).filterMap
        (possibleChild sched scope (.ofList ns) constraints (earliestRp scope ns)) →
      Eligible sched scope ns storage child.entry
        (child.toNode ((lastModifications ns).stack child.fragment.modifications)) := by
  intro hm
  obtain ⟨e, he, hc⟩ := List.mem_filterMap.mp hm
  obtain ⟨hs, hp, hb⟩ := (CandidateStorage.mem_possibleBackedParaChildren hi).mp he
  obtain ⟨-, -, -, -, rfl, -⟩ := possibleChild_eq_some.mp hc
  exact ⟨hs, hb, hl, constraints, child, ha, hp, hc, rfl⟩

theorem Eligible.mem_possibleChildren (hi : storage.Indexed)
    (ha : scope.baseConstraints.applyModifications (lastModifications ns) = .ok constraints)
    (h : Eligible sched scope ns storage e n) : ∃ child : PossibleChild Hash, child.entry = e ∧
      child ∈ (storage.possibleBackedParaChildren (headData constraints.requiredParent)).filterMap
        (possibleChild sched scope (.ofList ns) constraints (earliestRp scope ns)) := by
  obtain ⟨k, child, ha', hp, hc, -⟩ := h.step.child
  cases ha.symm.trans ha'
  refine ⟨child, (possibleChild_eq_some.mp hc).2.2.2.2.1, List.mem_filterMap.mpr ⟨e, ?_, hc⟩⟩
  exact (CandidateStorage.mem_possibleBackedParaChildren hi).mpr ⟨h.stored, hp, h.backed⟩

theorem populateLoop_populates (sched : SchedulingScope Hash) (scope : Scope Hash)
    (ns : List (FragmentNode Hash)) (k : Nat) (hi : storage.Indexed)
    (hk : k = scope.maxBackableLen - ns.length) :
    ∃ ns' storage', populateLoop sched scope k (.ofList ns) storage (lastModifications ns)
        (earliestRp scope ns) = (.ofList ns', storage') ∧
      Populates sched scope ns storage ns' storage' := by
  induction k generalizing ns storage
  case zero => exact ⟨ns, storage, rfl, .done fun e n h => by have := h.step.length; omega⟩
  case succ k hrest =>
    rw [populateLoop]
    cases ha : scope.baseConstraints.applyModifications (lastModifications ns)
    case error err =>
      refine ⟨ns, storage, rfl, .done fun e n h => ?_⟩
      obtain ⟨_, _, ha', -⟩ := h.step.child
      cases ha.symm.trans ha'
    case ok constraints =>
      dsimp only
      cases hb : bestCandidate scope ((storage.possibleBackedParaChildren
        (headData constraints.requiredParent)).filterMap
          (possibleChild sched scope (.ofList ns) constraints (earliestRp scope ns)))
      case none =>
        refine ⟨ns, storage, rfl, .done fun e n h => ?_⟩
        obtain ⟨child, -, hm⟩ := h.mem_possibleChildren hi ha
        rw [bestCandidate_eq_none.mp hb] at hm
        cases hm
      case some best =>
        have he := mem_possibleChildren hi ha (by omega) (bestCandidate_mem hb)
        have hn : k = scope.maxBackableLen - (ns ++ [best.toNode
            ((lastModifications ns).stack best.fragment.modifications)]).length := by
          rw [List.length_append, List.length_singleton]
          omega
        obtain ⟨ns', storage', hl, hp⟩ := hrest _ hi.removeCandidate hn
        rw [lastModifications_append, earliestRp_append] at hl
        refine ⟨ns', storage', ?_, .step he (fun hpend e' n' h' => ?_) hp⟩
        · dsimp only
          rw [BackedChain.push_ofList]
          exact hl
        · obtain ⟨child, rfl, hm⟩ := h'.mem_possibleChildren hi ha
          exact bestCandidate_le hpend hb child hm

theorem drop_of_concat (h : l ++ [a] <+: l') :
    l'.drop l.length = a :: l'.drop (l ++ [a]).length := by
  obtain ⟨t, rfl⟩ := h
  rw [List.drop_left, List.append_assoc, List.drop_left, List.singleton_append]

namespace Populates

variable {allowed : SchedulingScope Hash → CandidateEntry Hash → Prop}

variable (h : Populates sched scope ns storage ns' storage')
include h

theorem lookup (hi : storage.Indexed) :
    storage'.Indexed ∧ ns <+: ns' ∧ ∀ k : Hash, storage'.byCandidateHash[k]? =
      if k ∈ (ns'.drop ns.length).map (·.candidateHash) then none
      else storage.byCandidateHash[k]? := by
  induction h
  case done => exact ⟨hi, List.prefix_rfl, by simp⟩
  case step ns ns' storage storage' e n he _ _ hrest =>
    obtain ⟨hi', hp, hl⟩ := hrest hi.removeCandidate
    refine ⟨hi', (List.prefix_append _ _).trans hp, fun k => ?_⟩
    rw [hl, CandidateStorage.lookup_removeCandidate, drop_of_concat hp]
    simp only [List.map_cons, he.step.made.candidateHash]
    split_ifs <;> simp_all

theorem stored :
    ns <+: ns' ∧ ∀ n ∈ ns'.drop ns.length, ∃ e, storage.byCandidateHash[n.candidateHash]? = some e ∧
      e.state = .backed := by
  induction h
  case done => exact ⟨List.prefix_rfl, by simp⟩
  case step ns ns' storage storage' e n he _ _ hrest =>
    refine ⟨(List.prefix_append _ _).trans hrest.1, fun m hm => ?_⟩
    rw [drop_of_concat hrest.1] at hm
    obtain rfl | hm := mem_cons.mp hm
    · exact ⟨e, he.step.made.candidateHash ▸ he.stored, he.backed⟩
    · obtain ⟨e', hs, hb⟩ := hrest.2 m hm
      rw [CandidateStorage.lookup_removeCandidate] at hs
      split_ifs at hs
      exact ⟨e', hs, hb⟩

theorem grown (hg : Grown scope allowed ns)
    (ha : ∀ (k : Hash) e, storage.byCandidateHash[k]? = some e → e.state = .backed →
      allowed sched e) :
    Grown scope allowed ns' := by
  induction h
  case done => exact hg
  case step ns ns' storage storage' e n he _ _ hrest =>
    refine hrest (.snoc _ _ _ _ hg (ha _ _ he.stored he.backed) he.step) fun k e' hk => ?_
    rw [CandidateStorage.lookup_removeCandidate] at hk
    split_ifs at hk
    exact ha k e' hk

end Populates
end Populate
end Prospective
