import RostroModel.Prospective.Representation

namespace Prospective

variable {Hash : Type} [LinearOrder Hash] [Hashing Hash]
variable {scope : Scope Hash} {ns : List (FragmentNode Hash)} {n : FragmentNode Hash}

-- The constraints after the modifications of nodes are applied one after the other.
def stepwise (base : Constraints Hash) (ns : List (FragmentNode Hash)) :
    Except ModificationError (Constraints Hash) :=
  ns.foldlM (fun c n => c.applyModifications n.fragment.modifications) base

-- A node is checked under the constraints that its predecessors leave, and its cumulative
-- modifications lead to those that are left after it.
structure AgreesAt (scope : Scope Hash) (ns : List (FragmentNode Hash)) (n : FragmentNode Hash) :
    Prop where
  before : ∃ c, stepwise scope.baseConstraints ns = .ok c ∧
    n.fragment.operatingConstraints = operatingConstraints scope n.toEntry c
  after : ∃ c, scope.baseConstraints.applyModifications n.cumulativeModifications = .ok c ∧
    stepwise scope.baseConstraints (ns ++ [n]) = .ok c

def Agrees (scope : Scope Hash) (ns : List (FragmentNode Hash)) : Prop :=
  ∀ i n, ns[i]? = some n → AgreesAt scope (ns.take i) n

-- The watermark may only go back from `a` to `b` if no valid one is passed
-- and `a` is not listed twice.
def MovesTo (l : List Nat) (a b : Nat) : Prop :=
  (∀ w ∈ l, b ≤ w → a ≤ w) ∧ (b < a → l.count a ≤ 1)

def KeepsWatermarks (scope : Scope Hash) (ns : List (FragmentNode Hash)) : Prop :=
  ns.IsChain fun n n' => MovesTo scope.baseConstraints.validWatermarks
    n.fragment.candidate.commitments.hrmpWatermark n'.fragment.candidate.commitments.hrmpWatermark

section Agrees

omit [Hashing Hash] in
theorem Fragment.watermark (f : Fragment Hash) :
    f.modifications.hrmpWatermark.map (·.watermark) =
      some f.candidate.commitments.hrmpWatermark := by
  rw [f.checked.watermark]
  split_ifs <;> rfl

theorem agrees_append : Agrees scope (ns ++ [n]) ↔ Agrees scope ns ∧ AgreesAt scope ns n := by
  constructor
  · intro h
    constructor
    · intro i m hm
      have hi := (List.getElem?_eq_some_iff.mp hm).1
      have ha := h i m (by rw [List.getElem?_append_left hi, hm])
      rwa [List.take_append_of_le_length hi.le] at ha
    · have ha := h ns.length n (by simp)
      rwa [List.take_left] at ha
  · rintro ⟨h, ha⟩ i m hm
    obtain hi | hi := Nat.lt_or_ge i ns.length
    · rw [List.getElem?_append_left hi] at hm
      rw [List.take_append_of_le_length hi.le]
      exact h i m hm
    · rw [List.getElem?_append_right hi, List.getElem?_singleton] at hm
      split_ifs at hm with hz
      cases hm
      obtain rfl : i = ns.length := by omega
      rwa [List.take_left]

theorem keepsWatermarks_append : KeepsWatermarks scope (ns ++ [n]) ↔ KeepsWatermarks scope ns ∧
    ∀ m ∈ ns.getLast?, MovesTo scope.baseConstraints.validWatermarks
      m.fragment.candidate.commitments.hrmpWatermark
        n.fragment.candidate.commitments.hrmpWatermark := by
  rw [KeepsWatermarks, List.isChain_append]
  simp [KeepsWatermarks]

theorem stepwise_append : stepwise scope.baseConstraints (ns ++ [n]) = .ok c' ↔
    ∃ c, stepwise scope.baseConstraints ns = .ok c ∧
      c.applyModifications n.fragment.modifications = .ok c' := by
  simp [stepwise, Except.bind_eq_ok]

theorem watermarksAfter_or {l : List Nat} (h : l.Pairwise (· ≤ ·)) :
    Constraints.watermarksAfter (Constraints.watermarksAfter l u) (some u') =
        Constraints.watermarksAfter l ((some u').or u) ↔
      ∀ a ∈ u, MovesTo l a.watermark u'.watermark := by
  cases u
  case none => simp [Constraints.watermarksAfter]
  case some a =>
    simp only [Option.mem_def, Option.some.injEq, forall_eq']
    exact leave_leave h

theorem admits_of_operatingConstraints
    {e : CandidateEntry Hash} (h : (operatingConstraints scope e c).Admits m) : c.Admits m := by
  rw [operatingConstraints] at h
  cases hp : scope.getPendingAvailability e.candidateHash
  all_goals rw [hp] at h
  case none => exact h
  case some p => exact ⟨h.watermark, h.outbound, h.ump, h.umpBytes, h.dmp, h.code⟩

variable {allowed : SchedulingScope Hash → CandidateEntry Hash → Prop}
variable {schedulingScope : SchedulingScope Hash} {e : CandidateEntry Hash}

theorem lastModifications_watermark (h : Grown scope allowed ns) :
    (lastModifications ns).hrmpWatermark.map (·.watermark) =
      ns.getLast?.map (·.fragment.candidate.commitments.hrmpWatermark) := by
  cases h
  case nil => rfl
  case snoc ns e n _ _ hs =>
    have hw := n.fragment.watermark
    rw [lastModifications_append, hs.cumulative, List.getLast?_concat, Option.map_some, ← hw]
    obtain ⟨u, hu, -⟩ := Option.map_eq_some_iff.mp hw
    rw [ConstraintModifications.stack, hu]
    rfl

theorem Step.agreesAt (hg : Grown scope allowed ns) (hs : Step schedulingScope scope ns e n)
    (hw : scope.baseConstraints.validWatermarks.Pairwise (· ≤ ·))
    (hc : scope.baseConstraints.applyModifications (lastModifications ns) = .ok c)
    (hc' : stepwise scope.baseConstraints ns = .ok c) :
    AgreesAt scope ns n ↔ ∀ m ∈ ns.getLast?, MovesTo scope.baseConstraints.validWatermarks
      m.fragment.candidate.commitments.hrmpWatermark
        n.fragment.candidate.commitments.hrmpWatermark := by
  obtain ⟨k, hk, -, ho⟩ := hs.operating
  cases hc.symm.trans hk
  have hadmits := admits_of_operatingConstraints (ho ▸ n.fragment.checked.admits)
  obtain ⟨hbase, rfl⟩ := (Constraints.applyModifications_eq_ok hw).mp hc
  have hstep := (Constraints.applyModifications_eq_ok (Constraints.sorted_modified hw)).mpr
    ⟨hadmits, rfl⟩
  have hcum := (Constraints.applyModifications_eq_ok hw).mpr ⟨hbase.stack hadmits, rfl⟩
  have hoper : n.fragment.operatingConstraints = operatingConstraints scope n.toEntry
      (scope.baseConstraints.modified (lastModifications ns)) := by
    rw [ho, operatingConstraints, ← hs.made.candidateHash]
    rfl
  have heq : scope.baseConstraints.modified
    ((lastModifications ns).stack n.fragment.modifications) =
      (scope.baseConstraints.modified (lastModifications ns)).modified n.fragment.modifications ↔
      ∀ a ∈ (lastModifications ns).hrmpWatermark, MovesTo scope.baseConstraints.validWatermarks
        a.watermark n.fragment.candidate.commitments.hrmpWatermark := by
    obtain ⟨u, hu, huw⟩ := Option.map_eq_some_iff.mp n.fragment.watermark
    rw [← huw, ← watermarksAfter_or hw, ← hu, Constraints.modified_modified hadmits]
    constructor
    · exact fun h => (congrArg (·.validWatermarks) h).symm
    · intro h
      rw [h]
      rfl
  have hlast := lastModifications_watermark hg
  rw [← Option.forall_mem_map (p := fun x => MovesTo scope.baseConstraints.validWatermarks x
    n.fragment.candidate.commitments.hrmpWatermark), hlast, Option.forall_mem_map] at heq
  rw [← heq]
  constructor
  · rintro ⟨-, c', h, h'⟩
    obtain ⟨c, h1, h2⟩ := stepwise_append.mp h'
    cases hc'.symm.trans h1
    rw [hs.cumulative] at h
    exact Except.ok.inj ((hcum.symm.trans h).trans (hstep.symm.trans h2).symm)
  · intro h
    refine ⟨⟨_, hc', hoper⟩, _, ?_, stepwise_append.mpr ⟨_, hc', hstep⟩⟩
    rw [hs.cumulative, ← h]
    exact hcum

theorem Grown.agrees (hg : Grown scope allowed ns)
    (hw : scope.baseConstraints.validWatermarks.Pairwise (· ≤ ·)) :
    (Agrees scope ns ↔ KeepsWatermarks scope ns) ∧ (Agrees scope ns → ∃ c,
      scope.baseConstraints.applyModifications (lastModifications ns) = .ok c ∧
      stepwise scope.baseConstraints ns = .ok c) := by
  induction hg
  case nil =>
    refine ⟨by simp [Agrees, KeepsWatermarks], fun _ =>
      ⟨_, Constraints.applyModifications_identity, rfl⟩⟩
  case snoc ns e n hg _ hs hi =>
    obtain ⟨hiff, hlast⟩ := hi
    rw [agrees_append, keepsWatermarks_append, ← hiff]
    constructor
    · apply and_congr_right
      intro ha
      obtain ⟨c, hc, hc'⟩ := hlast ha
      exact hs.agreesAt hg hw hc hc'
    · rintro ⟨-, -, h⟩
      rw [lastModifications_append]
      exact h

end Agrees

namespace FragmentChain

-- The cumulative modifications describe the chain if no watermark moves back over a valid one.
theorem agrees_iff_keepsWatermarks {f : FragmentChain Hash} (h : Reachable (fun _ _ => True) f)
    (hw : f.scope.baseConstraints.validWatermarks.Pairwise (· ≤ ·)) :
    Agrees f.scope f.chain.chain ↔ KeepsWatermarks f.scope f.chain.chain :=
  (h.chained.grown.agrees hw).1

section Samples

variable (takesOver : FragmentChain Nat → FragmentChain Nat → Prop)

-- Two candidates, one on top of the other, with the numbers of their relay
-- parents and their watermarks.
def samplePair (first second : Nat × Nat) : FragmentChain Nat :=
  (do
    let f := init sampleSchedulingScope (sampleScope [10, 16, 20, 30]) {}
    let f ← f.tryAddingSecondedCandidate sampleSchedulingScope
      (sampleEntry 1 0 1 first.1 first.2 zero_head_ne_one)
    f.tryAddingSecondedCandidate sampleSchedulingScope
      (sampleEntry 2 1 2 second.1 second.2 one_head_ne_two)).toOption.getD
        { scope := sampleScope [] }

-- The chain after the second candidate is backed, and then the first.
def backPair (f : FragmentChain Nat) : FragmentChain Nat × CandidateStorage Nat :=
  populateChain { f with unconnected := {} } sampleSchedulingScope
    ((f.unconnected.markBacked 2).markBacked 1)

variable {takesOver} in
theorem reachable_backPair {f : FragmentChain Nat} (h : Reachable takesOver f)
    (hb : (f.candidateBacked sampleSchedulingScope 2).candidateBacked sampleSchedulingScope 1 =
      (backPair f).1.populateUnconnectedPotentialCandidates sampleSchedulingScope
        ((backPair f).1.trimUneligibleForks sampleSchedulingScope (backPair f).2 (some 256)))
    (ht : (backPair f).1.trimUneligibleForks sampleSchedulingScope (backPair f).2 (some 256) =
      (backPair f).2)
    (hu : (backPair f).1.populateUnconnectedPotentialCandidates sampleSchedulingScope
      (backPair f).2 = (backPair f).1) : Reachable takesOver (backPair f).1 := by
  rw [ht, hu] at hb
  exact hb ▸ .candidateBacked _ _ _ (.candidateBacked _ _ _ h)

-- The first candidate is at its relay parent, and the second one behind it.
def sampleBehind : FragmentChain Nat :=
  samplePair (10, 10) (18, 16)

theorem reachable_sampleBehind : Reachable takesOver sampleBehind :=
  .tryAddingSecondedCandidate _ _ sampleSchedulingScope (sampleEntry 2 1 2 18 16 one_head_ne_two)
    (.tryAddingSecondedCandidate _ _ sampleSchedulingScope
      (sampleEntry 1 0 1 10 10 zero_head_ne_one)
      (.init sampleSchedulingScope (sampleScope [10, 16, 20, 30]) {} .empty) rfl) rfl

theorem reachable_sampleBehindBacked : Reachable takesOver (backPair sampleBehind).1 :=
  reachable_backPair (reachable_sampleBehind takesOver) rfl (trimLoop_of_no_children rfl) rfl

-- The watermarks 16, 20 and 30 are left both ways.
theorem agrees_of_sampleBehind : (backPair sampleBehind).1.candidateHashes = [1, 2] ∧
    (backPair sampleBehind).1.scope.baseConstraints.validWatermarks = [10, 16, 20, 30] ∧
    Agrees (backPair sampleBehind).1.scope (backPair sampleBehind).1.chain.chain := by
  refine ⟨rfl, rfl,
    (agrees_iff_keepsWatermarks (reachable_sampleBehindBacked _) (by decide)).mpr ?_⟩
  have hm : (backPair sampleBehind).1.chain.chain.map
      (·.fragment.candidate.commitments.hrmpWatermark) = [10, 16] := rfl
  have hc : [10, 16].IsChain (MovesTo [10, 16, 20, 30]) :=
    List.isChain_pair.mpr ⟨fun w _ hw => by omega, fun h => by omega⟩
  rw [← hm, List.isChain_map] at hc
  exact hc

-- A candidate whose watermark is ahead of its relay parent, and one that
-- is back at the relay parent.
def sampleAhead : FragmentChain Nat :=
  samplePair (10, 20) (15, 15)

theorem reachable_sampleAhead : Reachable takesOver sampleAhead :=
  .tryAddingSecondedCandidate _ _ sampleSchedulingScope (sampleEntry 2 1 2 15 15 one_head_ne_two)
    (.tryAddingSecondedCandidate _ _ sampleSchedulingScope
      (sampleEntry 1 0 1 10 20 zero_head_ne_one)
      (.init sampleSchedulingScope (sampleScope [10, 16, 20, 30]) {} .empty) rfl) rfl

theorem reachable_sampleAheadBacked : Reachable takesOver (backPair sampleAhead).1 :=
  reachable_backPair (reachable_sampleAhead takesOver) rfl (trimLoop_of_no_children rfl) rfl

-- Applied at once, the watermarks 16, 20 and 30 are left, and applied one
-- after the other only 20 and 30.
theorem sampleAhead_not_agrees : Reachable (fun _ _ => True) (backPair sampleAhead).1 ∧
    (backPair sampleAhead).1.scope.baseConstraints.validWatermarks = [10, 16, 20, 30] ∧
    (backPair sampleAhead).1.candidateHashes = [1, 2] ∧
    ¬Agrees (backPair sampleAhead).1.scope (backPair sampleAhead).1.chain.chain := by
  refine ⟨reachable_sampleAheadBacked _, rfl, rfl, fun h => ?_⟩
  have hk := ((reachable_sampleAheadBacked fun _ _ => True).chained.grown.agrees (by decide)).1.mp h
  have hm : (backPair sampleAhead).1.chain.chain.map
      (·.fragment.candidate.commitments.hrmpWatermark) = [20, 15] := rfl
  have hc : [20, 15].IsChain (MovesTo [10, 16, 20, 30]) := by
    rw [← hm, List.isChain_map]
    exact hk
  have h16 := (List.isChain_pair.mp hc).1 16 (by decide) (by decide)
  omega

end Samples
end FragmentChain
end Prospective
