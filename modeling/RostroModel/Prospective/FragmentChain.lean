import RostroModel.Prospective.Storage

namespace Prospective

open Except (ensure)
open Std.ExtTreeSet (mem_insert_iff)

structure PendingAvailability (Hash : Type) where
  candidateHash : Hash
  relayParent : RelayChainBlockInfo Hash

variable {Hash : Type} [LinearOrder Hash]

structure SchedulingScope (Hash : Type) [LinearOrder Hash] where
  schedulingParents : Std.ExtTreeSet Hash

namespace SchedulingScope

def contains (scope : SchedulingScope Hash) (hash : Hash) : Bool :=
  scope.schedulingParents.contains hash

end SchedulingScope

structure Scope (Hash : Type) where
  pendingAvailability : List (PendingAvailability Hash)
  baseConstraints : Constraints Hash
  maxBackableLen : Nat

def Scope.new (baseConstraints : Constraints Hash)
    (pendingAvailability : List (PendingAvailability Hash)) (maxBackableLen : Nat) :
    Scope Hash where
  baseConstraints := baseConstraints
  pendingAvailability := pendingAvailability
  maxBackableLen := maxBackableLen + pendingAvailability.length

def Scope.getPendingAvailability (scope : Scope Hash) (candidateHash : Hash) :
    Option (PendingAvailability Hash) :=
  scope.pendingAvailability.find? (·.candidateHash = candidateHash)

theorem Fragment.candidate_of_new {relayParent : RelayChainBlockInfo Hash}
    {constraints : Constraints Hash} {candidate : ProspectiveCandidate Hash}
    {fragment : Fragment Hash} (h : Fragment.new relayParent constraints candidate = .ok fragment) :
    fragment.candidate = candidate := by
  rw [Fragment.new] at h
  split at h
  · cases h
    rfl
  · cases h

variable [Hashing Hash]

-- A node comes from a candidate entry, and has its hashes.
structure FragmentNode (Hash : Type) [LinearOrder Hash] [Hashing Hash] where
  fragment : Fragment Hash
  candidateHash : Hash
  cumulativeModifications : ConstraintModifications
  parentHeadDataHash : Hash
  outputHeadDataHash : Hash
  schedulingParent : Hash
  paraId : Nat
  parent_eq : parentHeadDataHash =
    Hashing.headData fragment.candidate.persistedValidationData.parentHead
  output_eq : outputHeadDataHash = Hashing.headData fragment.candidate.commitments.headData
  parent_ne_output : parentHeadDataHash ≠ outputHeadDataHash

def FragmentNode.toEntry (node : FragmentNode Hash) : CandidateEntry Hash where
  candidateHash := node.candidateHash
  parentHeadDataHash := node.parentHeadDataHash
  outputHeadDataHash := node.outputHeadDataHash
  candidate := node.fragment.candidate
  relayParent := node.fragment.relayParent.hash
  schedulingParent := node.schedulingParent
  state := .backed
  paraId := node.paraId
  parent_eq := node.parent_eq
  output_eq := node.output_eq
  parent_ne_output := node.parent_ne_output

structure BackedChain (Hash : Type) [LinearOrder Hash] [Hashing Hash] where
  chain : List (FragmentNode Hash) := []
  byParentHead : Std.ExtTreeMap Hash Hash := ∅
  byOutputHead : Std.ExtTreeMap Hash Hash := ∅
  candidates : Std.ExtTreeSet Hash := ∅

namespace BackedChain

def push (b : BackedChain Hash) (candidate : FragmentNode Hash) : BackedChain Hash where
  candidates := b.candidates.insert candidate.candidateHash
  byParentHead := b.byParentHead.insert candidate.parentHeadDataHash candidate.candidateHash
  byOutputHead := b.byOutputHead.insert candidate.outputHeadDataHash candidate.candidateHash
  chain := b.chain ++ [candidate]

def clear (b : BackedChain Hash) : BackedChain Hash × List (FragmentNode Hash) :=
  ({}, b.chain)

-- Removes the nodes after the first one with the given output.
def revertToParentHash (b : BackedChain Hash) (parentHeadDataHash : Hash) :
    BackedChain Hash × List (FragmentNode Hash) :=
  match b.chain.findIdx? (·.outputHeadDataHash = parentHeadDataHash) with
  | none => (b, [])
  | some index =>
    let removed := b.chain.drop (index + 1)
    ({ chain := b.chain.take (index + 1),
       byParentHead := removed.foldl (fun m node => m.erase node.parentHeadDataHash) b.byParentHead,
       byOutputHead := removed.foldl (fun m node => m.erase node.outputHeadDataHash) b.byOutputHead,
       candidates := removed.foldl (fun m node =>
         m.erase node.candidateHash) b.candidates }, removed)

def contains (b : BackedChain Hash) (hash : Hash) : Bool :=
  b.candidates.contains hash

def checkCyclesOrInvalidTree (b : BackedChain Hash) (outputHeadHash : Hash) :
    Except (Error Hash) Unit := do
  ensure (outputHeadHash ∉ b.byParentHead) .cycle
  ensure (outputHeadHash ∉ b.byOutputHead) .multiplePaths

end BackedChain

structure FragmentChain (Hash : Type) [LinearOrder Hash] [Hashing Hash] where
  scope : Scope Hash
  chain : BackedChain Hash := {}
  unconnected : CandidateStorage Hash := {}

def forkSelectionRule (hash₁ hash₂ : Hash) : Ordering :=
  compare hash₁ hash₂

section Populate

-- A candidate that can be added to the chain right now.
structure PossibleChild (Hash : Type) [LinearOrder Hash] [Hashing Hash] where
  entry : CandidateEntry Hash
  fragment : Fragment Hash
  candidate_eq : fragment.candidate = entry.candidate

def PossibleChild.toNode (child : PossibleChild Hash)
    (cumulativeModifications : ConstraintModifications) :
    FragmentNode Hash where
  fragment := child.fragment
  candidateHash := child.entry.candidateHash
  cumulativeModifications := cumulativeModifications
  parentHeadDataHash := child.entry.parentHeadDataHash
  outputHeadDataHash := child.entry.outputHeadDataHash
  schedulingParent := child.entry.schedulingParent
  paraId := child.entry.paraId
  parent_eq := child.candidate_eq ▸ child.entry.parent_eq
  output_eq := child.candidate_eq ▸ child.entry.output_eq
  parent_ne_output := child.entry.parent_ne_output

-- The relay parent and the constraints that a candidate is checked with. Candidates pending
-- availability may be out of scope.
def relayParentOf (scope : Scope Hash) (e : CandidateEntry Hash) : RelayChainBlockInfo Hash :=
  ((scope.getPendingAvailability e.candidateHash).map (·.relayParent)).getD e.relayParentInfo

def operatingConstraints (scope : Scope Hash) (e : CandidateEntry Hash)
    (constraints : Constraints Hash) :
    Constraints Hash :=
  ((scope.getPendingAvailability e.candidateHash).map fun p =>
    { constraints with minRelayParentNumber := p.relayParent.number }).getD constraints

def minRelayParentNumber (scope : Scope Hash) (chain : BackedChain Hash) (earliestRp : Nat)
    (e : CandidateEntry Hash) : Nat :=
  ((scope.getPendingAvailability e.candidateHash).map fun p =>
    if chain.chain.length = 0 then p.relayParent.number else earliestRp).getD earliestRp

def possibleChild (schedulingScope : SchedulingScope Hash) (scope : Scope Hash)
    (chain : BackedChain Hash) (childConstraints : Constraints Hash) (earliestRp : Nat)
    (candidate : CandidateEntry Hash) :
    Option (PossibleChild Hash) :=
  if (scope.getPendingAvailability candidate.candidateHash).isNone ∧
      ¬schedulingScope.contains candidate.schedulingParent then none
  else if (chain.checkCyclesOrInvalidTree candidate.outputHeadDataHash).toOption.isNone then none
  else if (relayParentOf scope candidate).number <
    minRelayParentNumber scope chain earliestRp candidate then none
  else if chain.contains candidate.candidateHash then none
  else
    match h : Fragment.new (relayParentOf scope candidate)
        (operatingConstraints scope candidate childConstraints) candidate.candidate with
    | .ok fragment => some ⟨candidate, fragment, Fragment.candidate_of_new h⟩
    | .error _     => none

-- Candidates pending availability come first, then those with the lower hash.
def compareChildren (scope : Scope Hash) (child₁ child₂ : PossibleChild Hash) : Ordering :=
  if (scope.getPendingAvailability child₁.entry.candidateHash).isSome then .lt
  else if (scope.getPendingAvailability child₂.entry.candidateHash).isSome then .gt
  else forkSelectionRule child₁.entry.candidateHash child₂.entry.candidateHash

def bestCandidate (scope : Scope Hash) : List (PossibleChild Hash) → Option (PossibleChild Hash)
  | [] => none
  | c :: cs =>
    some (cs.foldl (fun best c => if compareChildren scope best c = .gt then c else best) c)

-- The loop is left when the chain has its maximum length, which the first argument counts down to.
def populateLoop (schedulingScope : SchedulingScope Hash) (scope : Scope Hash) :
    Nat → BackedChain Hash → CandidateStorage Hash → ConstraintModifications → Nat →
      BackedChain Hash × CandidateStorage Hash
  | 0, chain, storage, _, _ => (chain, storage)
  | n + 1, chain, storage, cumulativeModifications, earliestRp =>
    match scope.baseConstraints.applyModifications cumulativeModifications with
    | .error _ => (chain, storage)
    | .ok childConstraints =>
      let requiredHeadHash := Hashing.headData childConstraints.requiredParent
      let possibleChildren := (storage.possibleBackedParaChildren requiredHeadHash).filterMap
        (possibleChild schedulingScope scope chain childConstraints earliestRp)
      match bestCandidate scope possibleChildren with
      | none => (chain, storage)
      | some best =>
        let cumulativeModifications := cumulativeModifications.stack best.fragment.modifications
        populateLoop schedulingScope scope n (chain.push (best.toNode cumulativeModifications))
          (storage.removeCandidate best.entry.candidateHash) cumulativeModifications
          best.fragment.relayParent.number

end Populate

namespace FragmentChain

def earliestRelayParentNumber (f : FragmentChain Hash) : Nat :=
  match f.chain.chain.getLast? with
  | some last => last.fragment.relayParent.number
  | none => f.scope.baseConstraints.minRelayParentNumber

def populateChain (f : FragmentChain Hash) (schedulingScope : SchedulingScope Hash)
    (storage : CandidateStorage Hash) : FragmentChain Hash × CandidateStorage Hash :=
  let cumulativeModifications :=
    (f.chain.chain.getLast?.map (·.cumulativeModifications)).getD .identity
  let r := populateLoop schedulingScope f.scope (f.scope.maxBackableLen - f.chain.chain.length)
    f.chain storage
    cumulativeModifications f.earliestRelayParentNumber
  ({ f with chain := r.1 }, r.2)

def earliestRelayParentPendingAvailability (f : FragmentChain Hash) :
    Option (RelayChainBlockInfo Hash) :=
  f.chain.chain.reverse.findSome? fun node =>
    (f.scope.getPendingAvailability node.candidateHash).map (·.relayParent)

-- A fork with a candidate of the chain is only accepted if the rule favours it.
def checkFork (f : FragmentChain Hash) (candidateHash parentHeadHash : Hash) :
    Except (Error Hash) Unit :=
  match f.chain.byParentHead[parentHeadHash]? with
  | none => .ok ()
  | some other => do
    ensure (f.scope.getPendingAvailability other).isNone
      (.forkWithCandidatePendingAvailability other)
    ensure (forkSelectionRule other candidateHash ≠ .lt) (.forkChoiceRule other)

-- Whether the parent is unknown, the constraints for its children, and their earliest relay parent.
def parentConstraints (f : FragmentChain Hash) (parentHeadHash : Hash) :
    Except (Error Hash) (Bool × Constraints Hash × Option Nat) :=
  match f.chain.byOutputHead[parentHeadHash]? with
  | some parentCandidate => do
    let parent ← Except.okOr (f.chain.chain.find? (·.candidateHash = parentCandidate))
      .parentCandidateNotFound
    let constraints ← (f.scope.baseConstraints.applyModifications
      parent.cumulativeModifications).mapError
      Error.computeConstraints
    return (false, constraints, some parent.fragment.relayParent.number)
  | none =>
    if Hashing.headData f.scope.baseConstraints.requiredParent = parentHeadHash then
      .ok (false, f.scope.baseConstraints, none)
    else .ok (true, f.scope.baseConstraints, none)

def checkRelayParent (f : FragmentChain Hash) (relayParent : RelayChainBlockInfo Hash)
    (parentHeadHash : Hash) : Except (Error Hash) (Bool × Constraints Hash) := do
  (match f.earliestRelayParentPendingAvailability with
    | some earliest =>
      ensure (earliest.number ≤ relayParent.number)
        (.relayParentPrecedesCandidatePendingAvailability relayParent.hash earliest.hash)
    | none => .ok ())
  let (isUnconnected, constraints, minRelayParentNumber) ← f.parentConstraints parentHeadHash
  ensure (constraints.minRelayParentNumber ≤ relayParent.number)
    (.relayParentNotInScope relayParent.hash)
  ensure (∀ earliest ∈ minRelayParentNumber, earliest ≤ relayParent.number)
    .relayParentMovedBackwards
  return (isUnconnected, constraints)

def checkPotentialLightweight (f : FragmentChain Hash) (schedulingScope : SchedulingScope Hash)
    (schedulingParent : Hash) (maybeRelayParent : Option (RelayChainBlockInfo Hash))
    (candidateHash parentHeadHash : Hash) (outputHeadHash : Option Hash) :
    Except (Error Hash) (Option (Bool × Constraints Hash)) := do
  ensure (schedulingScope.contains schedulingParent) (.schedulingParentNotInScope schedulingParent)
  ensure (∀ output ∈ outputHeadHash, parentHeadHash ≠ output) .zeroLengthCycle
  f.checkFork candidateHash parentHeadHash
  (match outputHeadHash with
    | some output => f.chain.checkCyclesOrInvalidTree output
    | none => .ok ())
  (match maybeRelayParent with
    | some relayParent => (f.checkRelayParent relayParent parentHeadHash).map some
    | none => .ok none)

def checkPotential (f : FragmentChain Hash) (schedulingScope : SchedulingScope Hash)
    (candidate : CandidateEntry Hash) : Except (Error Hash) Unit := do
  let relayParent := candidate.relayParentInfo
  let r ← f.checkPotentialLightweight schedulingScope candidate.schedulingParent (some relayParent)
    candidate.candidateHash candidate.parentHeadDataHash (some candidate.outputHeadDataHash)
  let (isUnconnected, constraints) ← Except.okOr r (.relayParentNotInScope relayParent.hash)
  (if isUnconnected then
      (validateCommitments constraints relayParent candidate.candidate.commitments
        candidate.candidate.validationCodeHash).mapError Error.checkAgainstConstraints
    else
      ((checkAgainstConstraints relayParent constraints candidate.candidate.commitments
        candidate.candidate.validationCodeHash candidate.candidate.persistedValidationData).mapError
          Error.checkAgainstConstraints).map fun _ => ())

def canAddCandidateAsPotential (f : FragmentChain Hash) (schedulingScope : SchedulingScope Hash)
    (candidate : CandidateEntry Hash) : Except (Error Hash) Unit := do
  ensure (¬f.chain.contains candidate.candidateHash ∧
    ¬f.unconnected.contains candidate.candidateHash)
    .candidateAlreadyKnown
  f.checkPotential schedulingScope candidate

def tryAddingSecondedCandidate (f : FragmentChain Hash) (schedulingScope : SchedulingScope Hash)
    (candidate : CandidateEntry Hash) : Except (Error Hash) (FragmentChain Hash) := do
  ensure (candidate.state ≠ .backed) .introduceBackedCandidate
  f.canAddCandidateAsPotential schedulingScope candidate
  let unconnected ← f.unconnected.addCandidateEntry candidate
  return { f with unconnected }

section Trim

-- The children of a head whose outputs are not visited yet: their hashes, their
-- outputs, and whether they are kept.
def visitChildren (f : FragmentChain Hash) (schedulingScope : SchedulingScope Hash)
    (storage : CandidateStorage Hash) (visited : Std.ExtTreeSet Hash) (parent : Hash)
    (parentHasPotential : Bool) : List (Hash × Hash × Bool) :=
  (MultiMap.values storage.byParentHead parent).filterMap fun childHash => do
    let child ← storage.byCandidateHash[childHash]?
    if visited.contains child.outputHeadDataHash then none
    else
      let keep := parentHasPotential && (f.checkPotential schedulingScope child).toOption.isSome
      some (childHash, child.outputHeadDataHash, keep)

def removeUnkept (storage : CandidateStorage Hash) (children : List (Hash × Hash × Bool)) :
    CandidateStorage Hash :=
  children.foldl (fun storage child => if child.2.2 then storage
    else storage.removeCandidate child.1) storage

-- The candidates whose outputs are not visited yet. A step of the search lowers their number, or it
-- only puts their outputs in the place of a head that is none of them.
noncomputable def unvisited (storage : CandidateStorage Hash) (visited : Std.ExtTreeSet Hash) :
    Finset Hash :=
  storage.byCandidateHash.keys.toFinset.filter fun h =>
    ∃ e, storage.byCandidateHash[h]? = some e ∧ e.outputHeadDataHash ∉ visited

open Classical in
noncomputable def weight (storage : CandidateStorage Hash) (visited : Std.ExtTreeSet Hash)
    (head : Hash) : Nat :=
  if ∃ h e, storage.byCandidateHash[(h : Hash)]? = some e ∧ e.outputHeadDataHash = head ∧
    head ∉ visited then 1
  else (unvisited storage visited).card + 1

noncomputable def workLeft (storage : CandidateStorage Hash) (visited : Std.ExtTreeSet Hash)
    (queue : List (Hash × Bool)) : Nat :=
  (queue.map fun q => weight storage visited q.1).sum

variable {storage : CandidateStorage Hash} {visited : Std.ExtTreeSet Hash} {f : FragmentChain Hash}
variable {schedulingScope : SchedulingScope Hash} {parent : Hash} {potential : Bool}

theorem mem_unvisited : h ∈ unvisited storage visited ↔
    ∃ e, storage.byCandidateHash[h]? = some e ∧ e.outputHeadDataHash ∉ visited := by
  rw [unvisited, Finset.mem_filter, and_iff_right_of_imp]
  rintro ⟨e, he, -⟩
  rw [List.mem_toFinset, Std.ExtTreeMap.mem_keys, Std.ExtTreeMap.mem_iff_isSome_getElem?, he]
  rfl

theorem mem_visitChildren :
    (h, output, keep) ∈ visitChildren f schedulingScope storage visited parent potential ↔
      h ∈ MultiMap.values storage.byParentHead parent ∧ ∃ e, storage.byCandidateHash[h]? = some e ∧
        output = e.outputHeadDataHash ∧ output ∉ visited ∧
        keep = (potential && (f.checkPotential schedulingScope e).toOption.isSome) := by
  rw [visitChildren, List.mem_filterMap]
  constructor
  · rintro ⟨h', hv, hb⟩
    obtain ⟨e, he, hc⟩ := Option.bind_eq_some_iff.mp hb
    split_ifs at hc with hc'
    cases hc
    exact ⟨hv, e, he, rfl, by simpa using hc', rfl⟩
  · rintro ⟨hv, e, he, rfl, ho, rfl⟩
    refine ⟨h, hv, Option.bind_eq_some_iff.mpr ⟨e, he, ?_⟩⟩
    rw [if_neg (by simpa using ho)]

theorem removeUnkept_mono (he : (removeUnkept storage children).byCandidateHash[h]? = some e) :
    storage.byCandidateHash[h]? = some e ∧ ∀ output, (h, output, false) ∉ children := by
  induction children generalizing storage
  case nil => exact ⟨he, by simp⟩
  case cons child children hi =>
    rw [removeUnkept, List.foldl_cons] at he
    obtain ⟨he, hn⟩ := hi he
    split_ifs at he with hk
    · refine ⟨he, fun output hm => ?_⟩
      obtain rfl | hm := List.mem_cons.mp hm
      · cases hk
      · exact hn output hm
    · rw [CandidateStorage.lookup_removeCandidate] at he
      split_ifs at he with hh
      refine ⟨he, fun output hm => ?_⟩
      obtain rfl | hm := List.mem_cons.mp hm
      · exact hh rfl
      · exact hn output hm

theorem lookup_removeUnkept (hn : ∀ output, (h, output, false) ∉ children) :
    (removeUnkept storage children).byCandidateHash[h]? = storage.byCandidateHash[h]? := by
  induction children generalizing storage
  case nil => rfl
  case cons child children hi =>
    rw [removeUnkept, List.foldl_cons]
    refine (hi fun output hm => hn output (List.mem_cons_of_mem _ hm)).trans ?_
    split_ifs with hk
    · rfl
    · rw [CandidateStorage.lookup_removeCandidate, if_neg]
      rintro rfl
      refine hn child.2.1 (List.mem_cons.mpr (.inl ?_))
      rw [← Bool.eq_false_of_not_eq_true hk]

theorem removeUnkept_of_kept (hk : ∀ child ∈ children, child.2.2 = true) :
    removeUnkept storage children = storage := by
  induction children
  case nil => rfl
  case cons child children hi =>
    rw [removeUnkept, List.foldl_cons, if_pos (hk child List.mem_cons_self)]
    exact hi fun child hm => hk child (List.mem_cons_of_mem _ hm)

theorem nodup_visitChildren :
    ((visitChildren f schedulingScope storage visited parent potential).map (·.1)).Nodup := by
  have hkey (h : Hash) (child : Hash × Hash × Bool)
      (hc : (do
        let e ← storage.byCandidateHash[h]?
        if visited.contains e.outputHeadDataHash then none
        else some (h, e.outputHeadDataHash,
          potential && (f.checkPotential schedulingScope e).toOption.isSome)) =
            some child) : child.1 = h := by
    obtain ⟨e, -, hc⟩ := Option.bind_eq_some_iff.mp hc
    split_ifs at hc
    cases hc
    rfl
  rw [visitChildren, List.map_filterMap]
  apply MultiMap.nodup_values.filterMap
  intro h h' b hb hb'
  obtain ⟨child, hc, rfl⟩ := Option.map_eq_some_iff.mp hb
  obtain ⟨child', hc', he⟩ := Option.map_eq_some_iff.mp hb'
  rw [← hkey h child hc, ← hkey h' child' hc', he]

theorem length_visitChildren
    (hc : children = visitChildren f schedulingScope storage visited parent potential) :
    children.length ≤ (unvisited storage visited).card := by
  have hnodup : (children.map (·.1)).Nodup := hc ▸ nodup_visitChildren
  have hsub : (children.map (·.1)).toFinset ⊆ unvisited storage visited := by
    intro h hh
    obtain ⟨⟨_, output, keep⟩, hm, rfl⟩ := List.mem_map.mp (List.mem_toFinset.mp hh)
    obtain ⟨-, e, he, rfl, ho, -⟩ := mem_visitChildren.mp (hc ▸ hm)
    exact mem_unvisited.mpr ⟨e, he, ho⟩
  calc children.length
      = (children.map (·.1)).length := by rw [List.length_map]
    _ = (children.map (·.1)).toFinset.card := (List.toFinset_card_of_nodup hnodup).symm
    _ ≤ (unvisited storage visited).card := Finset.card_le_card hsub

theorem unvisited_subset (parent : Hash) (children : List (Hash × Hash × Bool)) :
    unvisited (removeUnkept storage children)
      (visited.insert parent) ⊆ unvisited storage visited := by
  intro h hh
  obtain ⟨e, he, ho⟩ := mem_unvisited.mp hh
  refine mem_unvisited.mpr ⟨e, (removeUnkept_mono he).1, fun hv => ho ?_⟩
  exact mem_insert_iff.mpr (.inr hv)

theorem weight_of_unvisited_eq
    (h : unvisited storage (visited.insert parent) = unvisited storage visited) (head : Hash) :
    weight storage (visited.insert parent) head = weight storage visited head ∧
      weight storage visited parent = (unvisited storage visited).card + 1 := by
  have hp (k : Hash) (e : CandidateEntry Hash) (he : storage.byCandidateHash[k]? = some e)
      (ho : e.outputHeadDataHash ∉ visited) : e.outputHeadDataHash ≠ parent := by
    have hm := mem_unvisited.mpr ⟨e, he, ho⟩
    rw [← h] at hm
    obtain ⟨e', he', ho'⟩ := mem_unvisited.mp hm
    cases he.symm.trans he'
    exact fun hc => ho' (mem_insert_iff.mpr (.inl hc))
  constructor
  · rw [weight, h]
    congr 1
    apply propext
    refine exists_congr fun k => exists_congr fun e => and_congr_right fun he => and_congr_right ?_
    rintro rfl
    rw [mem_insert_iff, not_or]
    exact ⟨And.right, fun ho => ⟨hp k e he ho, ho⟩⟩
  · rw [weight, if_neg]
    rintro ⟨k, e, he, rfl, ho⟩
    exact hp k e he ho rfl

theorem weight_of_visited
    (h : child ∈ visitChildren f schedulingScope storage visited parent potential) :
    weight storage visited child.2.1 = 1 := by
  obtain ⟨k, output, keep⟩ := child
  obtain ⟨-, e, he, rfl, ho, -⟩ := mem_visitChildren.mp h
  rw [weight, if_pos ⟨k, e, he, rfl, ho⟩]

theorem trim_decreases
    (hc : children = visitChildren f schedulingScope storage (visited.insert parent)
      parent potential) :
    Prod.Lex (· < ·) (· < ·)
      ((unvisited (removeUnkept storage children) (visited.insert parent)).card,
        workLeft (removeUnkept storage children) (visited.insert parent)
          (queue ++ children.map (·.2)))
      ((unvisited storage visited).card,
        workLeft storage visited ((parent, potential) :: queue)) := by
  obtain hlt | heq := (unvisited_subset parent children).ssubset_or_eq
  · exact .left _ _ (Finset.card_lt_card hlt)
  -- Nothing was removed, since it would have been a candidate that is not visited.
  have hkept : ∀ child ∈ children, child.2.2 = true := by
    rintro ⟨k, output, keep⟩ hm
    by_contra hk
    obtain rfl : keep = false := Bool.eq_false_of_not_eq_true hk
    obtain ⟨-, e, he, rfl, ho, -⟩ := mem_visitChildren.mp (hc ▸ hm)
    have hv : k ∈ unvisited storage visited :=
      mem_unvisited.mpr ⟨e, he, fun hv => ho (mem_insert_iff.mpr (.inr hv))⟩
    rw [← heq] at hv
    obtain ⟨e', he', -⟩ := mem_unvisited.mp hv
    exact (removeUnkept_mono he').2 _ hm
  rw [removeUnkept_of_kept hkept] at heq ⊢
  rw [heq]
  apply Prod.Lex.right
  have hw := weight_of_unvisited_eq heq
  have hlen := length_visitChildren hc
  have hone : (children.map fun child => weight storage (visited.insert parent) child.2.1).sum =
      children.length := by
    rw [List.map_congr_left fun child hm => weight_of_visited (hc ▸ hm)]
    simp
  rw [workLeft, workLeft, List.map_append, List.sum_append, List.map_cons,
    List.sum_cons, List.map_map, List.map_congr_left fun q _ => (hw q.1).1, (hw parent).2]
  change _ + (children.map fun child => weight storage (visited.insert parent) child.2.1).sum < _
  rw [heq] at hlen
  omega

def trimLoop (f : FragmentChain Hash) (schedulingScope : SchedulingScope Hash)
    (storage : CandidateStorage Hash) (visited : Std.ExtTreeSet Hash) :
    List (Hash × Bool) → CandidateStorage Hash
  | [] => storage
  | (parent, parentHasPotential) :: queue =>
    let visited' := visited.insert parent
    let children := visitChildren f schedulingScope storage visited' parent parentHasPotential
    trimLoop f schedulingScope (removeUnkept storage children) visited'
      (queue ++ children.map (·.2))
termination_by queue => ((unvisited storage visited).card, workLeft storage visited queue)
decreasing_by exact trim_decreases rfl

end Trim

def trimUneligibleForks (f : FragmentChain Hash) (schedulingScope : SchedulingScope Hash)
    (storage : CandidateStorage Hash) (startingPoint : Option Hash) : CandidateStorage Hash :=
  let queue :=
    match startingPoint with
    | some startingPoint => [(startingPoint, true)]
    | none =>
      if f.chain.chain.isEmpty then
        [(Hashing.headData f.scope.baseConstraints.requiredParent, true)]
      else f.chain.chain.map fun node => (node.parentHeadDataHash, true)
  trimLoop f schedulingScope storage ∅ queue

-- Candidates pending availability are in the chain already.
def addPotential (schedulingScope : SchedulingScope Hash) (f : FragmentChain Hash)
    (candidate : CandidateEntry Hash) : FragmentChain Hash :=
  if (f.scope.getPendingAvailability candidate.candidateHash).isSome then f
  else
    match f.canAddCandidateAsPotential schedulingScope candidate with
    | .ok _ => { f with unconnected := f.unconnected.insertNew candidate }
    | .error _ => f

def populateUnconnectedPotentialCandidates (f : FragmentChain Hash)
    (schedulingScope : SchedulingScope Hash) (oldStorage : CandidateStorage Hash) :
    FragmentChain Hash :=
  (oldStorage.byCandidateHash.toList.map (·.2)).foldl (addPotential schedulingScope) f

def init (schedulingScope : SchedulingScope Hash) (scope : Scope Hash)
    (candidatesPendingAvailability : CandidateStorage Hash) : FragmentChain Hash :=
  (populateChain { scope } schedulingScope candidatesPendingAvailability).1

-- The candidates of a chain that may be taken over: the unconnected ones, and those of the chain
-- that are not pending availability.
def previousStorage (prev : FragmentChain Hash) : CandidateStorage Hash :=
  prev.chain.chain.foldl
    (fun storage node =>
      if (prev.scope.getPendingAvailability node.candidateHash).isNone then
        storage.insertNew node.toEntry
      else storage)
    prev.unconnected

def populateFromPrevious (f : FragmentChain Hash) (schedulingScope : SchedulingScope Hash)
    (prev : FragmentChain Hash) : FragmentChain Hash :=
  let (f, storage) := f.populateChain schedulingScope prev.previousStorage
  let storage := f.trimUneligibleForks schedulingScope storage none
  f.populateUnconnectedPotentialCandidates schedulingScope storage

-- The nodes that are removed from the chain become unconnected. Nothing if the parent is not found.
def revertTo (f : FragmentChain Hash) (parentHeadHash : Hash) : Option (FragmentChain Hash) :=
  let removed :=
    if Hashing.headData f.scope.baseConstraints.requiredParent =
      parentHeadHash then some f.chain.clear
    else if parentHeadHash ∈ f.chain.byOutputHead then some
      (f.chain.revertToParentHash parentHeadHash)
    else none
  removed.map fun r => { f with
    chain := r.1,
    unconnected := r.2.foldl (fun storage node => storage.insertNew node.toEntry) f.unconnected }

def candidateBacked (f : FragmentChain Hash) (schedulingScope : SchedulingScope Hash)
    (newlyBackedCandidate : Hash) : FragmentChain Hash :=
  if f.chain.contains newlyBackedCandidate then f
  else
    match f.unconnected.byCandidateHash[newlyBackedCandidate]? with
    | none => f
    | some entry =>
      let f := { f with unconnected := f.unconnected.markBacked newlyBackedCandidate }
      match f.revertTo entry.parentHeadDataHash with
      | none => f
      | some f =>
        let (f, storage) := populateChain { f with unconnected := {} } schedulingScope f.unconnected
        let storage := f.trimUneligibleForks schedulingScope storage (some entry.parentHeadDataHash)
        f.populateUnconnectedPotentialCandidates schedulingScope storage

def candidateHashes (f : FragmentChain Hash) : List Hash :=
  f.chain.chain.map (·.candidateHash)

end FragmentChain
end Prospective
