import RostroModel.Prospective.Representation

namespace Prospective

variable {Hash : Type} [LinearOrder Hash] [Hashing Hash]

def CandidateEntry.asBacked (e : CandidateEntry Hash) : CandidateEntry Hash :=
  { e with state := .backed }

-- Candidates whose heads form a forest, in a scope without candidates pending availability.
structure Forest (scope : Scope Hash) (candidates : List (CandidateEntry Hash)) : Prop where
  pending : scope.pendingAvailability = []
  hashes : (candidates.map (·.candidateHash)).Nodup
  outputs : (candidates.map (·.outputHeadDataHash)).Nodup
  root : ∀ e ∈ candidates, e.outputHeadDataHash ≠
    Hashing.headData scope.baseConstraints.requiredParent

-- One of the candidates, in any state.
def Among (candidates : List (CandidateEntry Hash)) (s e : CandidateEntry Hash) : Prop :=
  s ∈ candidates ∧ e.asBacked = s.asBacked

-- The candidates with some hashes are allowed, in one scheduling scope.
def AllowedAmong (schedulingScope : SchedulingScope Hash) (candidates : List (CandidateEntry Hash))
    (backed : Hash → Prop) (schedulingScope' : SchedulingScope Hash) (e : CandidateEntry Hash) :
    Prop :=
  schedulingScope' = schedulingScope ∧ backed e.candidateHash ∧ ∃ s, Among candidates s e

-- The chains that always continue with the lowest hash of all candidates that can be added.
inductive Greedy (schedulingScope : SchedulingScope Hash) (scope : Scope Hash)
    (candidates : List (CandidateEntry Hash)) : List (FragmentNode Hash) → Prop
  | nil : Greedy schedulingScope scope candidates []
  | snoc (ns : List (FragmentNode Hash)) (e : CandidateEntry Hash) (n : FragmentNode Hash) :
      Greedy schedulingScope scope candidates ns → e ∈ candidates →
        Step schedulingScope scope ns e n →
      (∀ e' ∈ candidates, ∀ n', Step schedulingScope scope ns e' n' →
        e.candidateHash ≤ e'.candidateHash) →
      Greedy schedulingScope scope candidates (ns ++ [n])

variable {sched : SchedulingScope Hash} {scope : Scope Hash} {f f' : FragmentChain Hash}
variable {candidates : List (CandidateEntry Hash)} {e s s' : CandidateEntry Hash}
variable {ns ms cs : List (FragmentNode Hash)} {n : FragmentNode Hash}
  {added backed : Hash → Prop} {k : Hash}

section Forest

-- The state of a candidate does not matter for where it can be added.
theorem Step.of_state (h : Step sched scope ns e n) (state : CandidateState) :
    Step sched scope ns { e with state } n := by
  obtain ⟨c, child, ha, hp, hc, rfl⟩ := h.child
  obtain ⟨hin, hcycle, hrp, hn, rfl, hr, ho⟩ := possibleChild_eq_some.mp hc
  let child' : PossibleChild Hash := { child with entry := { child.entry with state } }
  exact ⟨h.length, c, child', ha, hp,
    possibleChild_eq_some.mpr ⟨hin, hcycle, hrp, hn, rfl, hr, ho⟩, rfl⟩

theorem Step.of_asBacked (h : Step sched scope ns e n) (he : e.asBacked = s.asBacked) :
    Step sched scope ns s n := by
  have hs : { e with state := s.state } = s := by
    calc { e with state := s.state }
      _ = { e.asBacked with state := s.state } := rfl
      _ = { s.asBacked with state := s.state } := by rw [he]
  exact hs ▸ h.of_state s.state

namespace Forest

omit [LinearOrder Hash] in
theorem eq_of_output (hf : Forest scope candidates) (hs : s ∈ candidates) (hs' : s' ∈ candidates)
    (h : s.outputHeadDataHash = s'.outputHeadDataHash) : s = s' :=
  List.inj_on_of_nodup_map hf.outputs hs hs' h

omit [LinearOrder Hash] in
theorem eq_of_hash (hf : Forest scope candidates) (hs : s ∈ candidates) (hs' : s' ∈ candidates)
    (h : s.candidateHash = s'.candidateHash) : s = s' :=
  List.inj_on_of_nodup_map hf.hashes hs hs' h

-- There is only one path to a head.
theorem eq_of_tip {backed' : Hash → Prop} (hf : Forest scope candidates)
    (h : Grown scope (AllowedAmong sched candidates backed) ns)
    (h' : Grown scope (AllowedAmong sched candidates backed') ms)
    (ht : tip scope ns = tip scope ms) : ns = ms := by
  have hroot {backed : Hash → Prop} {ns : List (FragmentNode Hash)} {n : FragmentNode Hash}
      (h : Grown scope (AllowedAmong sched candidates backed) (ns ++ [n])) :
      ∃ s ∈ candidates, Grown scope (AllowedAmong sched candidates backed) ns ∧
        Step sched scope ns s n := by
    obtain ⟨_, e, hg, ⟨rfl, -, s, hs, he⟩, hstep⟩ := h.of_snoc
    exact ⟨s, hs, hg, hstep.of_asBacked he⟩
  induction ns using List.reverseRecOn generalizing ms
  all_goals obtain rfl | ⟨ms, m, rfl⟩ := List.eq_nil_or_concat' ms
  case nil.inl => rfl
  case nil.inr =>
    obtain ⟨s, hs, -, hstep⟩ := hroot h'
    rw [tip_append, hstep.made.output] at ht
    exact absurd ht.symm (hf.root s hs)
  case append_singleton.inl ns n hi =>
    obtain ⟨s, hs, -, hstep⟩ := hroot h
    rw [tip_append, hstep.made.output] at ht
    exact absurd ht (hf.root s hs)
  case append_singleton.inr ns n hi =>
    obtain ⟨s, hs, hg, hstep⟩ := hroot h
    obtain ⟨s', hs', hg', hstep'⟩ := hroot h'
    rw [tip_append, tip_append, hstep.made.output, hstep'.made.output] at ht
    obtain rfl := hf.eq_of_output hs hs' ht
    have htip : tip scope ns = tip scope ms := by
      rw [← hg.step_parent hstep, ← hg'.step_parent hstep', hstep.made.parent, hstep'.made.parent]
    obtain rfl := hi hg hg' htip
    rw [hstep.functional hstep']

end Forest

namespace Greedy

theorem of_snoc (h : Greedy sched scope candidates (ns ++ [n])) : ∃ s ∈ candidates,
    Greedy sched scope candidates ns ∧ Step sched scope ns s n ∧
    ∀ e' ∈ candidates, ∀ n', Step sched scope ns e' n' → s.candidateHash ≤ e'.candidateHash := by
  generalize hl : ns ++ [n] = l at h
  cases h
  case nil => simp at hl
  case snoc ns' e n' hg he hs hb =>
    obtain ⟨rfl, hn⟩ := List.append_inj' hl rfl
    cases hn
    exact ⟨e, he, hg, hs, hb⟩

theorem of_prefix (h : Greedy sched scope candidates ns) (hp : ms <+: ns) :
    Greedy sched scope candidates ms := by
  induction h
  case nil =>
    rw [List.prefix_nil.mp hp]
    exact .nil
  case snoc hg he hs hb hi =>
    obtain rfl | hp := List.prefix_concat_iff.mp hp
    · exact .snoc _ _ _ hg he hs hb
    · exact hi hp

theorem grown (h : Greedy sched scope candidates ns) :
    Grown scope (AllowedAmong sched candidates fun _ => True) ns := by
  induction h
  case nil => exact .nil
  case snoc he hs _ hi => exact .snoc _ _ _ _ hi ⟨rfl, trivial, _, he, rfl⟩ hs

end Greedy
end Forest

section Potential

-- What a candidate with potential has to pass under the constraints of its parent.
def Fits (e : CandidateEntry Hash) (isUnconnected : Bool) (c : Constraints Hash) : Prop :=
  if isUnconnected then
    validateCommitments c e.relayParentInfo e.candidate.commitments
      e.candidate.validationCodeHash = .ok ()
  else
    ∃ m, checkAgainstConstraints e.relayParentInfo c e.candidate.commitments
      e.candidate.validationCodeHash
      e.candidate.persistedValidationData = .ok m

theorem checkPotential_eq_ok : f.checkPotential sched e = .ok u ↔
    sched.contains e.schedulingParent ∧ e.parentHeadDataHash ≠ e.outputHeadDataHash ∧
    f.checkFork e.candidateHash e.parentHeadDataHash = .ok () ∧
    f.chain.checkCyclesOrInvalidTree e.outputHeadDataHash = .ok () ∧
    (∀ earliest ∈ f.earliestRelayParentPendingAvailability,
      earliest.number ≤ e.relayParentInfo.number) ∧
    ∃ isUnconnected c minRelayParent,
      f.parentConstraints e.parentHeadDataHash = .ok (isUnconnected, c, minRelayParent) ∧
      c.minRelayParentNumber ≤ e.relayParentInfo.number ∧
      (∀ earliest ∈ minRelayParent, earliest ≤ e.relayParentInfo.number) ∧
        Fits e isUnconnected c := by
  have hfits (isUnconnected : Bool) (c : Constraints Hash) : (if isUnconnected then
        (validateCommitments c e.relayParentInfo e.candidate.commitments
          e.candidate.validationCodeHash).mapError Error.checkAgainstConstraints
      else
        ((checkAgainstConstraints e.relayParentInfo c e.candidate.commitments
          e.candidate.validationCodeHash e.candidate.persistedValidationData).mapError
            Error.checkAgainstConstraints).map fun _ => ()) = .ok u ↔
      Fits e isUnconnected c := by
    rw [Fits]
    split_ifs <;> simp [Except.map_eq_ok]
  simp only [FragmentChain.checkPotential, FragmentChain.checkPotentialLightweight,
    FragmentChain.checkRelayParent, Except.bind_eq_ok, Except.ensure_eq_ok, Except.okOr_eq_ok,
    Except.map_eq_ok, Except.pure_eq_ok, hfits]
  constructor
  · rintro ⟨_, ⟨_, h1, _, h2, _, h3, _, h4, _, ⟨_, h5, ⟨isUnconnected, c, rp⟩, h6, _, h7, _, h8, h⟩,
      rfl⟩, _, h', h9⟩
    cases h
    cases h'
    refine ⟨h1, h2 _ rfl, h3, h4, fun earliest he => ?_, isUnconnected, c, rp, h6, h7, h8, h9⟩
    rw [he] at h5
    exact Except.ensure_eq_ok.mp h5
  · rintro ⟨h1, h2, h3, h4, h5, isUnconnected, c, rp, h6, h7, h8, h9⟩
    refine ⟨_, ⟨(), h1, (), by simpa using h2, (), h3, (), h4, _,
      ⟨(), ?_, _, h6, (), h7, (), h8, rfl⟩, rfl⟩, _, rfl, h9⟩
    cases he : f.earliestRelayParentPendingAvailability
    case none => rfl
    case some earliest => exact Except.ensure_eq_ok.mpr (h5 earliest he)

-- What a candidate that can be added is known to satisfy.
structure Fitting (schedulingScope : SchedulingScope Hash) (scope : Scope Hash)
    (ns : List (FragmentNode Hash)) (s : CandidateEntry Hash) : Prop where
  inScope : schedulingScope.contains s.schedulingParent
  constraints : ∃ c m, scope.baseConstraints.applyModifications (lastModifications ns) = .ok c ∧
    checkAgainstConstraints s.relayParentInfo c s.candidate.commitments
      s.candidate.validationCodeHash
      s.candidate.persistedValidationData = .ok m
  relayParent : earliestRp scope ns ≤ s.relayParentInfo.number

theorem Step.fitting (hp : scope.pendingAvailability = []) (h : Step sched scope ns s n) :
    Fitting sched scope ns s := by
  have hnone : scope.getPendingAvailability s.candidateHash = none := by
    rw [Scope.getPendingAvailability, hp]
    rfl
  obtain ⟨c, child, ha, -, hc, -⟩ := h.child
  obtain ⟨hin, -, hrp, -, rfl, hr, ho⟩ := possibleChild_eq_some.mp hc
  rw [relayParentOf, hnone] at hrp hr
  rw [operatingConstraints, hnone] at ho
  have hv := child.fragment.valid
  rw [hr, ho, child.candidate_eq] at hv
  exact ⟨hin (by rw [hnone]; rfl), ⟨c, _, ha, hv⟩, hrp (.inr rfl)⟩

theorem find?_of_nodup_map {α β : Type} [DecidableEq β] {g : α → β} {l : List α} {a : α}
    (h : (l.map g).Nodup) (ha : a ∈ l) : l.find? (g · = g a) = some a := by
  cases hb : l.find? (g · = g a)
  case none => simpa using List.find?_eq_none.mp hb a ha
  case some b =>
    have hg : g b = g a := by simpa using List.find?_some hb
    rw [List.inj_on_of_nodup_map h (List.mem_of_find?_eq_some hb) ha hg]

theorem parentConstraints_of_prefix {allowed : SchedulingScope Hash → CandidateEntry Hash → Prop}
    {c : Constraints Hash} (hc : f.chain = .ofList cs) (hg : Grown f.scope allowed cs)
    (hp : ns <+: cs)
    (ha : f.scope.baseConstraints.applyModifications (lastModifications ns) = .ok c) :
    ∃ rp, f.parentConstraints (tip f.scope ns) = .ok (false, c, rp) ∧ ∀ r ∈ rp,
      r = earliestRp f.scope ns := by
  obtain rfl | ⟨ms, m, rfl⟩ := List.eq_nil_or_concat' ns
  · have hn : f.chain.byOutputHead[tip f.scope []]? = none := by
      rw [hc]
      refine Std.ExtTreeMap.getElem?_eq_none fun hm => ?_
      exact (List.nodup_cons.mp hg.nodup_heads).1 (BackedChain.mem_byOutputHead_ofList.mp hm)
    cases Constraints.applyModifications_identity.symm.trans ha
    refine ⟨none, ?_, by simp⟩
    rw [FragmentChain.parentConstraints, hn]
    exact if_pos rfl
  · have hm : m ∈ cs := hp.subset (by simp)
    have ho : f.chain.byOutputHead[m.outputHeadDataHash]? = some m.candidateHash := by
      rw [hc]
      exact (Std.ExtTreeMap.lookup_foldl_insert hg.nodup_outputs).mpr ⟨m, hm, rfl, rfl⟩
    have hfind : f.chain.chain.find? (·.candidateHash = m.candidateHash) = some m := by
      rw [hc]
      exact find?_of_nodup_map hg.nodup_candidates hm
    rw [lastModifications_append] at ha
    rw [tip_append, FragmentChain.parentConstraints, ho]
    simp [hfind, Except.okOr, ha, Except.mapError]

theorem parentConstraints_of_not_prefix (hf : Forest f.scope candidates) (hc : f.chain = .ofList cs)
    (hg : Grown f.scope (AllowedAmong sched candidates backed) cs)
    (hns : Grown f.scope (AllowedAmong sched candidates fun _ => True) ns) (hp : ¬ns <+: cs) :
    f.parentConstraints (tip f.scope ns) = .ok (true, f.scope.baseConstraints, none) := by
  obtain rfl | ⟨ms, m, rfl⟩ := List.eq_nil_or_concat' ns
  · exact absurd List.nil_prefix hp
  · have hroot : Hashing.headData f.scope.baseConstraints.requiredParent ≠
        m.outputHeadDataHash := by
      intro h
      exact (List.nodup_cons.mp hns.nodup_heads).1 (h ▸ by simp)
    have hn : f.chain.byOutputHead[m.outputHeadDataHash]? = none := by
      rw [hc]
      refine Std.ExtTreeMap.getElem?_eq_none fun hm => ?_
      obtain ⟨m', hm', ho⟩ := List.mem_map.mp (BackedChain.mem_byOutputHead_ofList.mp hm)
      obtain ⟨ms', _, _, hpre, -⟩ := hg.of_mem hm'
      have he := hf.eq_of_tip (hg.of_prefix hpre) hns (by rw [tip_append, tip_append, ho])
      exact hp (he ▸ hpre)
    rw [tip_append, FragmentChain.parentConstraints, hn]
    exact if_neg hroot

theorem Forest.getPendingAvailability (hf : Forest scope candidates) (h : Hash) :
    scope.getPendingAvailability h = none := by
  rw [Scope.getPendingAvailability, hf.pending]
  rfl

-- The next candidate of a greedy chain always has potential, unless it is in the chain already.
theorem Greedy.checkPotential (hf : Forest scope candidates) (hsc : f.scope = scope)
    (hc : f.chain = .ofList cs) (hg : Grown scope (AllowedAmong sched candidates backed) cs)
    (h : Greedy sched scope candidates (ns ++ [n])) (hs : s ∈ candidates)
    (hn : s.candidateHash = n.candidateHash) (hnot : n ∉ cs)
    (hfits : ¬ns <+: cs → Fits s true scope.baseConstraints) :
    f.checkPotential sched s = .ok () := by
  subst hsc
  obtain ⟨s', hs', hgreedy, hstep, hbest⟩ := h.of_snoc
  obtain rfl := hf.eq_of_hash hs' hs (hstep.made.candidateHash.symm.trans hn.symm)
  have hns := hgreedy.grown
  have hparent : s'.parentHeadDataHash = tip f.scope ns := hstep.made.parent ▸ hns.step_parent hstep
  obtain ⟨hin, ⟨c, m, ha, hv⟩, hrp⟩ := hstep.fitting hf.pending
  -- Nothing in the chain leads to the output.
  have hout (ms : List (FragmentNode Hash)) (hp : ms <+: cs) : tip f.scope ms ≠
      s'.outputHeadDataHash := by
    intro ht
    have he := hf.eq_of_tip (hg.of_prefix hp) h.grown (by rw [ht, tip_append, hstep.made.output])
    exact hnot (hp.subset (he ▸ by simp))
  refine checkPotential_eq_ok.mpr ⟨hin, s'.parent_ne_output, ?_, ?_, ?_, ?_⟩
  · rw [FragmentChain.checkFork]
    cases hb : f.chain.byParentHead[s'.parentHeadDataHash]?
    case none => rfl
    case some other =>
      rw [hc] at hb
      obtain ⟨m', hm', hp, rfl⟩ := (Std.ExtTreeMap.lookup_foldl_insert hg.nodup_parents).mp hb
      obtain ⟨ms, _, e', hpre, hms, ⟨rfl, -, s'', hs'', he''⟩, hstep'⟩ := hg.of_mem hm'
      obtain rfl := hf.eq_of_tip hms hns (by rw [← hms.step_parent hstep', hp, hparent])
      have hle := hbest s'' hs'' m' (hstep'.of_asBacked he'')
      rw [← (hstep'.of_asBacked he'').made.candidateHash] at hle
      have hrule : forkSelectionRule m'.candidateHash s'.candidateHash ≠ .lt := by
        rw [forkSelectionRule, Ne, compare_lt_iff_lt]
        exact not_lt.mpr hle
      simp [hf.getPendingAvailability, Except.ensure, hrule]
  · rw [BackedChain.checkCyclesOrInvalidTree_eq_ok, hc, BackedChain.mem_byParentHead_ofList,
      BackedChain.mem_byOutputHead_ofList]
    constructor
    · intro hm
      obtain ⟨m', hm', ho⟩ := List.mem_map.mp hm
      obtain ⟨ms, _, _, hpre, hms, -, hstep'⟩ := hg.of_mem hm'
      exact hout ms ((List.prefix_append _ _).trans hpre) (by rw [← hms.step_parent hstep', ho])
    · intro hm
      obtain ⟨m', hm', ho⟩ := List.mem_map.mp hm
      obtain ⟨ms, _, _, hpre, -⟩ := hg.of_mem hm'
      exact hout _ hpre (by rw [tip_append, ho])
  · have hnone : f.earliestRelayParentPendingAvailability = none := by
      rw [FragmentChain.earliestRelayParentPendingAvailability, List.findSome?_eq_none_iff]
      intro m' _
      rw [hf.getPendingAvailability]
      rfl
    simp [hnone]
  · have hmin := (checkAgainstConstraints_eq_ok hv).relayParent
    rw [hparent]
    by_cases hp : ns <+: cs
    · obtain ⟨rp, hpc, hr⟩ := parentConstraints_of_prefix hc hg hp ha
      exact ⟨false, c, rp, hpc, hmin, fun r hr' => hr r hr' ▸ hrp, m, hv⟩
    · refine ⟨true, _, none, parentConstraints_of_not_prefix hf hc hg hns hp, ?_, by simp, hfits hp⟩
      rw [← (Constraints.parent_of_apply ha).2]
      exact hmin

theorem Greedy.of_checkPotential (hf : Forest f.scope candidates) (hc : f.chain = .ofList cs)
    (hg : Grown f.scope (AllowedAmong sched candidates backed) cs)
    (h : Greedy sched f.scope candidates (ns ++ [n])) (hs : s ∈ candidates)
    (hn : s.candidateHash = n.candidateHash) (hp : f.checkPotential sched s = .ok ()) :
    ns <+: cs ∨ Fits s true f.scope.baseConstraints := by
  obtain ⟨s', hs', hgreedy, hstep, -⟩ := h.of_snoc
  obtain rfl := hf.eq_of_hash hs' hs (hstep.made.candidateHash.symm.trans hn.symm)
  have hparent : s'.parentHeadDataHash = tip f.scope ns :=
    hstep.made.parent ▸ hgreedy.grown.step_parent hstep
  obtain ⟨-, -, -, -, -, isUnconnected, c, rp, hpc, -, -, hfits⟩ := checkPotential_eq_ok.mp hp
  by_cases hpre : ns <+: cs
  · exact .inl hpre
  · rw [hparent, parentConstraints_of_not_prefix hf hc hg hgreedy.grown hpre] at hpc
    cases hpc
    exact .inr hfits

end Potential

section Populate

variable {storage storage' : CandidateStorage Hash}

theorem Greedy.eligible (hg : Greedy sched scope candidates (ns ++ [n]))
    (hf : Forest scope candidates) (hi : storage.Indexed)
    (ha : ∀ (k : Hash) e, storage.byCandidateHash[k]? = some e → ∃ s, Among candidates s e)
    (hm : ∃ e, storage.byCandidateHash[n.candidateHash]? = some e ∧ e.state = .backed) :
    ∃ e, Eligible sched scope ns storage e n ∧ ∀ e' ∈ candidates, ∀ n',
      Step sched scope ns e' n' → n.candidateHash ≤ e'.candidateHash := by
  obtain ⟨s, hs, -, hstep, hbest⟩ := hg.of_snoc
  obtain ⟨e, he, hb⟩ := hm
  obtain ⟨s', hs', has⟩ := ha _ _ he
  have hk := hi.byCandidateHash _ _ he
  obtain rfl : s = s' := by
    refine hf.eq_of_hash hs hs' ?_
    rw [← hstep.made.candidateHash, ← hk]
    exact congrArg (·.candidateHash) has
  refine ⟨e, ⟨hk ▸ he, hb, hstep.of_asBacked has.symm⟩, fun e' he' n' hn' => ?_⟩
  rw [hstep.made.candidateHash]
  exact hbest e' he' n' hn'

-- Populating a chain follows every greedy chain as long as its candidates are stored and backed.
theorem Populates.greedy (h : Populates sched scope ns storage ms storage')
    (hf : Forest scope candidates) (hi : storage.Indexed) (hg : Greedy sched scope candidates cs)
    (hp : ns <+: cs) (ha : ∀ (k : Hash) e, storage.byCandidateHash[k]? = some e →
      ∃ s, Among candidates s e)
    (hs : ∀ m ∈ cs.drop ns.length, ∃ e, storage.byCandidateHash[m.candidateHash]? = some e ∧
      e.state = .backed) :
    cs <+: ms := by
  induction h
  all_goals obtain ⟨l, rfl⟩ := hp
  all_goals cases l
  case done.nil => simp
  case done.cons ns storage hnone m l =>
    have hpre : ns ++ [m] <+: ns ++ m :: l := ⟨l, by simp⟩
    obtain ⟨e, he, -⟩ := (hg.of_prefix hpre).eligible hf hi ha (hs m (by simp))
    exact absurd he (hnone e m)
  case step.nil hpop _ =>
    rw [List.append_nil]
    exact (List.prefix_append _ _).trans hpop.stored.1
  case step.cons ns ms storage storage' e n he hmin hpop m l hrest =>
    have hpre : ns ++ [m] <+: ns ++ m :: l := ⟨l, by simp⟩
    obtain ⟨e', he', hbest⟩ := (hg.of_prefix hpre).eligible hf hi ha (hs m (by simp))
    -- The candidate that is added and the next one of the greedy chain have the same hash.
    have hle := hmin hf.pending e' m he'
    obtain ⟨s, hsc, has⟩ := ha _ _ he.stored
    have hge := hbest s hsc n (he.step.of_asBacked has)
    have hsh : s.candidateHash = e.candidateHash := congrArg (·.candidateHash) has.symm
    rw [he'.step.made.candidateHash, hsh] at hge
    have heq := he.stored
    rw [le_antisymm hle hge, he'.stored] at heq
    cases heq
    obtain rfl := he.step.functional he'.step
    have hd := drop_of_concat hpre
    rw [List.drop_left] at hd
    refine hrest hi.removeCandidate hpre ?_ ?_
    · intro k e'' hk
      rw [CandidateStorage.lookup_removeCandidate] at hk
      split_ifs at hk
      exact ha k e'' hk
    · intro m' hm'
      rw [← (List.cons.inj hd).2] at hm'
      obtain ⟨e'', he'', hb⟩ := hs m' (by simp [hm'])
      refine ⟨e'', ?_, hb⟩
      rw [CandidateStorage.lookup_removeCandidate, if_neg, he'']
      intro hk
      have hnd := hg.grown.nodup_candidates
      rw [List.map_append, List.map_cons, List.nodup_append] at hnd
      refine (List.nodup_cons.mp hnd.2.1).1 (List.mem_map.mpr ⟨m', hm', ?_⟩)
      rw [he.step.made.candidateHash, hk]

end Populate

end Prospective
