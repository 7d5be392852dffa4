import RostroModel.Library.MultiMap
import RostroModel.Prospective.Emulator

namespace Prospective

open Std.ExtTreeMap (lookup_erase lookup_insert mem_iff_isSome_getElem?)

-- The hash functions of the relay chain.
class Hashing (Hash : Type) where
  headData : HeadData → Hash
  validationData : PersistedValidationData Hash → Hash

inductive CandidateState
  | seconded
  | backed
  deriving DecidableEq, Repr

inductive CandidateEntryError
  | persistedValidationDataMismatch
  | zeroLengthCycle
  deriving DecidableEq, Repr

inductive Error (Hash : Type)
  | candidateAlreadyKnown
  | zeroLengthCycle
  | cycle
  | multiplePaths
  | introduceBackedCandidate
  | relayParentPrecedesCandidatePendingAvailability (relayParent pending : Hash)
  | forkWithCandidatePendingAvailability (candidate : Hash)
  | forkChoiceRule (candidate : Hash)
  | parentCandidateNotFound
  | computeConstraints (error : ModificationError)
  | checkAgainstConstraints (error : FragmentValidityError Hash)
  | relayParentMovedBackwards
  | candidateEntry (error : CandidateEntryError)
  | relayParentNotInScope (relayParent : Hash)
  | schedulingParentNotInScope (schedulingParent : Hash)

structure CandidateDescriptor (Hash : Type) where
  paraId : Nat
  relayParent : Hash
  schedulingParent : Hash
  persistedValidationDataHash : Hash
  validationCodeHash : Hash

structure CommittedCandidateReceipt (Hash : Type) where
  descriptor : CandidateDescriptor Hash
  commitments : CandidateCommitments

variable {Hash : Type} [LinearOrder Hash] [Hashing Hash]

-- The hashes are those of the heads of the candidate, which are not the same.
structure CandidateEntry (Hash : Type) [Hashing Hash] where
  candidateHash : Hash
  parentHeadDataHash : Hash
  outputHeadDataHash : Hash
  relayParent : Hash
  schedulingParent : Hash
  paraId : Nat
  candidate : ProspectiveCandidate Hash
  state : CandidateState
  parent_eq : parentHeadDataHash = Hashing.headData candidate.persistedValidationData.parentHead
  output_eq : outputHeadDataHash = Hashing.headData candidate.commitments.headData
  parent_ne_output : parentHeadDataHash ≠ outputHeadDataHash

namespace CandidateEntry

def new (candidateHash : Hash) (candidate : CommittedCandidateReceipt Hash)
    (persistedValidationData : PersistedValidationData Hash) (state : CandidateState) :
    Except CandidateEntryError (CandidateEntry Hash) :=
  if Hashing.validationData persistedValidationData ≠
    candidate.descriptor.persistedValidationDataHash then
    .error .persistedValidationDataMismatch
  else if h : Hashing.headData persistedValidationData.parentHead =
      (Hashing.headData candidate.commitments.headData : Hash) then
    .error .zeroLengthCycle
  else
    .ok {
      candidateHash, state,
      parentHeadDataHash := Hashing.headData persistedValidationData.parentHead,
      outputHeadDataHash := Hashing.headData candidate.commitments.headData,
      relayParent := candidate.descriptor.relayParent,
      schedulingParent := candidate.descriptor.schedulingParent,
      paraId := candidate.descriptor.paraId,
      candidate := {
        commitments := candidate.commitments,
        persistedValidationData,
        validationCodeHash := candidate.descriptor.validationCodeHash },
      parent_eq := rfl,
      output_eq := rfl,
      parent_ne_output := h }

def relayParentInfo (e : CandidateEntry Hash) : RelayChainBlockInfo Hash where
  hash := e.relayParent
  number := e.candidate.persistedValidationData.relayParentNumber
  storageRoot := e.candidate.persistedValidationData.relayParentStorageRoot

end CandidateEntry

structure CandidateStorage (Hash : Type) [LinearOrder Hash] [Hashing Hash] where
  byParentHead : Std.ExtTreeMap Hash (Std.ExtTreeSet Hash) := ∅
  byOutputHead : Std.ExtTreeMap Hash (Std.ExtTreeSet Hash) := ∅
  byCandidateHash : Std.ExtTreeMap Hash (CandidateEntry Hash) := ∅

namespace CandidateStorage

def addCandidateEntry (s : CandidateStorage Hash) (candidate : CandidateEntry Hash) :
    Except (Error Hash) (CandidateStorage Hash) := do
  Except.ensure (candidate.candidateHash ∉ s.byCandidateHash) .candidateAlreadyKnown
  return {
    byParentHead := MultiMap.add s.byParentHead candidate.parentHeadDataHash
      candidate.candidateHash,
    byOutputHead := MultiMap.add s.byOutputHead candidate.outputHeadDataHash
      candidate.candidateHash,
    byCandidateHash := s.byCandidateHash.insert candidate.candidateHash candidate }

def addPendingAvailabilityCandidate (s : CandidateStorage Hash) (candidateHash : Hash)
    (candidate : CommittedCandidateReceipt Hash)
    (persistedValidationData : PersistedValidationData Hash) :
    Except (Error Hash) (CandidateStorage Hash) := do
  let entry ← (CandidateEntry.new candidateHash candidate persistedValidationData .backed).mapError
    Error.candidateEntry
  s.addCandidateEntry entry

-- A candidate that is already known is not added again.
def insertNew (s : CandidateStorage Hash) (candidate : CandidateEntry Hash) :
    CandidateStorage Hash :=
  (s.addCandidateEntry candidate).toOption.getD s

def removeCandidate (s : CandidateStorage Hash) (candidateHash : Hash) : CandidateStorage Hash :=
  match s.byCandidateHash[candidateHash]? with
  | none => s
  | some entry => {
    byParentHead := MultiMap.remove s.byParentHead entry.parentHeadDataHash candidateHash,
    byOutputHead := MultiMap.remove s.byOutputHead entry.outputHeadDataHash candidateHash,
    byCandidateHash := s.byCandidateHash.erase candidateHash }

def markBacked (s : CandidateStorage Hash) (candidateHash : Hash) : CandidateStorage Hash :=
  match s.byCandidateHash[candidateHash]? with
  | none => s
  | some entry =>
    { s with
      byCandidateHash := s.byCandidateHash.insert candidateHash { entry with state := .backed } }

def contains (s : CandidateStorage Hash) (candidateHash : Hash) : Bool :=
  s.byCandidateHash.contains candidateHash

def possibleBackedParaChildren (s : CandidateStorage Hash) (parentHeadHash : Hash) :
    List (CandidateEntry Hash) :=
  (MultiMap.values s.byParentHead parentHeadHash).filterMap fun h =>
    (s.byCandidateHash[h]?).filter (·.state = .backed)

-- The maps index the same candidates, each by its own hashes.
structure Indexed (s : CandidateStorage Hash) : Prop where
  byParentHead : MultiMap.Indexes s.byParentHead s.byCandidateHash (·.parentHeadDataHash)
  byOutputHead : MultiMap.Indexes s.byOutputHead s.byCandidateHash (·.outputHeadDataHash)
  byCandidateHash : ∀ (h : Hash) e, s.byCandidateHash[h]? = some e → e.candidateHash = h

variable {s s' : CandidateStorage Hash} {e : CandidateEntry Hash} {h : Hash}

theorem indexed_empty : Indexed ({} : CandidateStorage Hash) where
  byParentHead := .empty
  byOutputHead := .empty
  byCandidateHash := by simp

theorem addCandidateEntry_eq_ok (hs : s.addCandidateEntry e = .ok s') :
    s.byCandidateHash[e.candidateHash]? = none ∧
      s'.byCandidateHash = s.byCandidateHash.insert e.candidateHash e ∧
        (s.Indexed → s'.Indexed) := by
  simp only [addCandidateEntry, Except.bind_eq_ok, Except.ensure_eq_ok] at hs
  obtain ⟨-, hn, hs⟩ := hs
  cases hs
  have hn : s.byCandidateHash[e.candidateHash]? = none := Std.ExtTreeMap.getElem?_eq_none hn
  refine ⟨hn, rfl, fun h => ⟨h.byParentHead.add hn, h.byOutputHead.add hn, ?_⟩⟩
  intro k e' he
  rw [lookup_insert] at he
  split_ifs at he with hk
  · cases he
    exact hk.symm
  · exact h.byCandidateHash k e' he

theorem addCandidateEntry_isOk (hn : s.byCandidateHash[e.candidateHash]? = none) :
    ∃ s', s.addCandidateEntry e = .ok s' := by
  have hn : e.candidateHash ∉ s.byCandidateHash := by
    simp [mem_iff_isSome_getElem?, hn]
  exact ⟨_, by simp [addCandidateEntry, hn]; rfl⟩

theorem lookup_insertNew : (s.insertNew e).byCandidateHash[h]? =
    (s.byCandidateHash[h]?).or (if h = e.candidateHash then some e else none) := by
  cases hn : s.byCandidateHash[e.candidateHash]?
  case none =>
    obtain ⟨s', hs⟩ := addCandidateEntry_isOk hn
    obtain ⟨-, he, -⟩ := addCandidateEntry_eq_ok hs
    rw [insertNew, hs]
    change s'.byCandidateHash[h]? = _
    rw [he, lookup_insert]
    split_ifs with hh
    · rw [hh, hn]
      rfl
    · simp
  case some e' =>
    have hm : e.candidateHash ∈ s.byCandidateHash := mem_iff_isSome_getElem?.mpr (hn ▸ rfl)
    have he : s.insertNew e = s := by simp [insertNew, addCandidateEntry, hm]; rfl
    rw [he]
    split_ifs with hh
    · rw [hh, hn]
      rfl
    · simp

theorem Indexed.insertNew (hi : s.Indexed) : (s.insertNew e).Indexed := by
  rw [CandidateStorage.insertNew]
  cases hs : s.addCandidateEntry e
  case error => exact hi
  case ok s' => exact (addCandidateEntry_eq_ok hs).2.2 hi

theorem lookup_removeCandidate : (s.removeCandidate k).byCandidateHash[h]? =
    if h = k then none else s.byCandidateHash[h]? := by
  rw [removeCandidate]
  cases hk : s.byCandidateHash[k]?
  case some e => exact lookup_erase
  case none =>
    split_ifs with hh
    · rw [hh, hk]
    · rfl

theorem Indexed.removeCandidate (hi : s.Indexed) : (s.removeCandidate h).Indexed := by
  rw [CandidateStorage.removeCandidate]
  cases hk : s.byCandidateHash[h]?
  case none => exact hi
  case some e =>
    refine ⟨hi.byParentHead.remove hk, hi.byOutputHead.remove hk, ?_⟩
    intro k e' he
    rw [lookup_erase] at he
    split_ifs at he
    exact hi.byCandidateHash k e' he

theorem lookup_markBacked : (s.markBacked k).byCandidateHash[h]? =
    (s.byCandidateHash[h]?).map fun e => if h = k then { e with state := .backed } else e := by
  rw [markBacked]
  cases hk : s.byCandidateHash[k]?
  case some e =>
    change (s.byCandidateHash.insert k _)[h]? = _
    rw [lookup_insert]
    split_ifs with hh
    · rw [hh, hk]
      rfl
    · simp
  case none =>
    split_ifs with hh
    · rw [hh, hk]
      rfl
    · simp

theorem Indexed.markBacked (hi : s.Indexed) : (s.markBacked h).Indexed := by
  rw [CandidateStorage.markBacked]
  cases hk : s.byCandidateHash[h]?
  case none => exact hi
  case some e =>
    refine ⟨hi.byParentHead.modify hk rfl, hi.byOutputHead.modify hk rfl, ?_⟩
    intro k e' he
    rw [lookup_insert] at he
    split_ifs at he with hh
    · cases he
      rw [hh]
      exact hi.byCandidateHash h e hk
    · exact hi.byCandidateHash k e' he

theorem mem_possibleBackedParaChildren (hi : s.Indexed) : e ∈ s.possibleBackedParaChildren h ↔
    s.byCandidateHash[e.candidateHash]? = some e ∧ e.parentHeadDataHash = h ∧
      e.state = .backed := by
  rw [possibleBackedParaChildren, List.mem_filterMap]
  constructor
  · rintro ⟨k, hk, he⟩
    obtain ⟨he, hs⟩ := Option.filter_eq_some_iff.mp he
    obtain ⟨e', he', rfl⟩ := hi.byParentHead.mem_values.mp hk
    cases he.symm.trans he'
    have hc := hi.byCandidateHash k e he
    rw [hc]
    exact ⟨he, rfl, by simpa using hs⟩
  · rintro ⟨he, hp, hs⟩
    refine ⟨e.candidateHash, hi.byParentHead.mem_values.mpr ⟨e, he, hp⟩, ?_⟩
    exact Option.filter_eq_some_iff.mpr ⟨he, by simpa using hs⟩

end CandidateStorage
end Prospective
