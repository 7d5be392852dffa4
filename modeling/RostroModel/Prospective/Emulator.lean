import RostroModel.Library.BinarySearch
import RostroModel.Library.Except
import RostroModel.Library.TreeMap

namespace Prospective

open Except (ensure)

abbrev HeadData := List UInt8

structure OutboundHrmpChannelLimitations where
  bytesRemaining : Nat
  messagesRemaining : Nat
  deriving DecidableEq, Repr

inductive UpgradeRestriction
  | present
  deriving DecidableEq, Repr

-- The limitations of inbound channels are only their valid watermarks.
structure Constraints (Hash : Type) where
  minRelayParentNumber : Nat
  maxPovSize : Nat
  maxCodeSize : Nat
  maxHeadDataSize : Nat
  umpRemaining : Nat
  umpRemainingBytes : Nat
  maxUmpNumPerCandidate : Nat
  dmpRemainingMessages : List Nat
  validWatermarks : List Nat
  hrmpChannelsOut : Std.ExtTreeMap Nat OutboundHrmpChannelLimitations
  maxHrmpNumPerCandidate : Nat
  requiredParent : HeadData
  validationCodeHash : Hash
  upgradeRestriction : Option UpgradeRestriction
  futureValidationCode : Option (Nat × Hash)

inductive ModificationError
  | disallowedHrmpWatermark (watermark : Nat)
  | noSuchHrmpChannel (paraId : Nat)
  | hrmpMessagesOverflow (paraId messagesRemaining messagesSubmitted : Nat)
  | hrmpBytesOverflow (paraId bytesRemaining bytesSubmitted : Nat)
  | umpMessagesOverflow (messagesRemaining messagesSubmitted : Nat)
  | umpBytesOverflow (bytesRemaining bytesSubmitted : Nat)
  | dmpMessagesUnderflow (messagesRemaining messagesProcessed : Nat)
  | appliedNonexistentCodeUpgrade
  deriving DecidableEq, Repr

structure RelayChainBlockInfo (Hash : Type) where
  hash : Hash
  number : Nat
  storageRoot : Hash

structure OutboundHrmpChannelModification where
  bytesSubmitted : Nat := 0
  messagesSubmitted : Nat := 0
  deriving DecidableEq, Repr

inductive HrmpWatermarkUpdate
  | head (watermark : Nat)
  | trunk (watermark : Nat)
  deriving DecidableEq, Repr

def HrmpWatermarkUpdate.watermark : HrmpWatermarkUpdate → Nat
  | .head n => n
  | .trunk n => n

structure ConstraintModifications where
  requiredParent : Option HeadData
  hrmpWatermark : Option HrmpWatermarkUpdate
  outboundHrmp : Std.ExtTreeMap Nat OutboundHrmpChannelModification
  umpMessagesSent : Nat
  umpBytesSent : Nat
  dmpMessagesProcessed : Nat
  codeUpgradeApplied : Bool

namespace ConstraintModifications

def identity : ConstraintModifications where
  requiredParent := none
  hrmpWatermark := none
  outboundHrmp := ∅
  umpMessagesSent := 0
  umpBytesSent := 0
  dmpMessagesProcessed := 0
  codeUpgradeApplied := false

def stack (m other : ConstraintModifications) : ConstraintModifications where
  requiredParent := other.requiredParent.or m.requiredParent
  hrmpWatermark := other.hrmpWatermark.or m.hrmpWatermark
  outboundHrmp := m.outboundHrmp.merge
    (fun record mods =>
      { bytesSubmitted := (record.getD {}).bytesSubmitted + mods.bytesSubmitted,
        messagesSubmitted := (record.getD {}).messagesSubmitted + mods.messagesSubmitted })
    other.outboundHrmp
  umpMessagesSent := m.umpMessagesSent + other.umpMessagesSent
  umpBytesSent := m.umpBytesSent + other.umpBytesSent
  dmpMessagesProcessed := m.dmpMessagesProcessed + other.dmpMessagesProcessed
  codeUpgradeApplied := m.codeUpgradeApplied || other.codeUpgradeApplied

end ConstraintModifications

-- The position of a number in an ascending list, or where it would be inserted.
def binarySearch (l : List Nat) (n : Nat) : Except Nat Nat :=
  BinarySearch.search (fun i => (l[i]?).elim .gt (compare · n)) l.length

-- What is left of an outbound channel after messages are submitted to it.
def submit (id : Nat) (outbound : Option OutboundHrmpChannelLimitations)
    (m : OutboundHrmpChannelModification) :
    Except ModificationError OutboundHrmpChannelLimitations := do
  let outbound ← Except.okOr outbound (.noSuchHrmpChannel id)
  ensure (m.bytesSubmitted ≤ outbound.bytesRemaining)
    (.hrmpBytesOverflow id outbound.bytesRemaining m.bytesSubmitted)
  ensure (m.messagesSubmitted ≤ outbound.messagesRemaining)
    (.hrmpMessagesOverflow id outbound.messagesRemaining m.messagesSubmitted)
  return { bytesRemaining := outbound.bytesRemaining - m.bytesSubmitted,
           messagesRemaining := outbound.messagesRemaining - m.messagesSubmitted }

namespace Constraints

variable {Hash : Type}

def checkModifications (c : Constraints Hash) (m : ConstraintModifications) :
    Except ModificationError Unit := do
  (match m.hrmpWatermark with
    | some (.trunk n) => ensure (n ∈ c.validWatermarks) (.disallowedHrmpWatermark n)
    | _ => .ok ())
  let _ ← c.hrmpChannelsOut.update submit m.outboundHrmp
  ensure (m.umpMessagesSent ≤ c.umpRemaining)
    (.umpMessagesOverflow c.umpRemaining m.umpMessagesSent)
  ensure (m.umpBytesSent ≤ c.umpRemainingBytes)
    (.umpBytesOverflow c.umpRemainingBytes m.umpBytesSent)
  ensure (m.dmpMessagesProcessed ≤ c.dmpRemainingMessages.length)
    (.dmpMessagesUnderflow c.dmpRemainingMessages.length m.dmpMessagesProcessed)
  ensure (m.codeUpgradeApplied → c.futureValidationCode.isSome) .appliedNonexistentCodeUpgrade

-- The watermarks that are left after an update, if there is one.
def drainWatermarks (watermarks : List Nat) :
    Option HrmpWatermarkUpdate → Except ModificationError (List Nat)
  | none => .ok watermarks
  | some update =>
    match binarySearch watermarks update.watermark with
    | .ok position => .ok (watermarks.drop position)
    | .error position =>
      match update with
      | .head _ => .ok (watermarks.drop position)
      | .trunk n => .error (.disallowedHrmpWatermark n)

def applyModifications (c : Constraints Hash) (m : ConstraintModifications) :
    Except ModificationError (Constraints Hash) := do
  let watermarks ← drainWatermarks c.validWatermarks m.hrmpWatermark
  let channels ← c.hrmpChannelsOut.update submit m.outboundHrmp
  ensure (m.umpMessagesSent ≤ c.umpRemaining)
    (.umpMessagesOverflow c.umpRemaining m.umpMessagesSent)
  ensure (m.umpBytesSent ≤ c.umpRemainingBytes)
    (.umpBytesOverflow c.umpRemainingBytes m.umpBytesSent)
  ensure (m.dmpMessagesProcessed ≤ c.dmpRemainingMessages.length)
    (.dmpMessagesUnderflow c.dmpRemainingMessages.length m.dmpMessagesProcessed)
  let codeHash ← (if m.codeUpgradeApplied then
      Except.okOr (c.futureValidationCode.map (·.2)) .appliedNonexistentCodeUpgrade
    else .ok c.validationCodeHash)
  return { c with
    requiredParent := m.requiredParent.getD c.requiredParent,
    validWatermarks := watermarks,
    hrmpChannelsOut := channels,
    umpRemaining := c.umpRemaining - m.umpMessagesSent,
    umpRemainingBytes := c.umpRemainingBytes - m.umpBytesSent,
    dmpRemainingMessages := c.dmpRemainingMessages.drop m.dmpMessagesProcessed,
    validationCodeHash := codeHash,
    futureValidationCode := if m.codeUpgradeApplied then none else c.futureValidationCode }

end Constraints

structure OutboundHrmpMessage where
  recipient : Nat
  data : List UInt8

structure CandidateCommitments where
  upwardMessages : List (List UInt8)
  horizontalMessages : List OutboundHrmpMessage
  newValidationCode : Option (List UInt8)
  headData : HeadData
  processedDownwardMessages : Nat
  hrmpWatermark : Nat

structure PersistedValidationData (Hash : Type) where
  parentHead : HeadData
  relayParentNumber : Nat
  relayParentStorageRoot : Hash
  maxPovSize : Nat
  deriving DecidableEq

structure ProspectiveCandidate (Hash : Type) where
  commitments : CandidateCommitments
  persistedValidationData : PersistedValidationData Hash
  validationCodeHash : Hash

inductive FragmentValidityError (Hash : Type)
  | validationCodeMismatch (expected got : Hash)
  | persistedValidationDataMismatch (expected got : PersistedValidationData Hash)
  | outputsInvalid (error : ModificationError)
  | codeSizeTooLarge (maxAllowed new : Nat)
  | headDataTooLarge (maxAllowed new : Nat)
  | relayParentTooOld (minAllowed current : Nat)
  | dmpAdvancementRule
  | umpMessagesPerCandidateOverflow (messagesAllowed messagesSubmitted : Nat)
  | hrmpMessagesPerCandidateOverflow (messagesAllowed messagesSubmitted : Nat)
  | codeUpgradeRestricted
  | hrmpMessagesDescendingOrDuplicate (index : Nat)

-- The messages before the separator, which is the empty message.
def skipUmpSignals (upwardMessages : List (List UInt8)) : List (List UInt8) :=
  upwardMessages.takeWhile (· ≠ [])

variable {Hash : Type} [LinearOrder Hash]

def validateCommitments (c : Constraints Hash) (relayParent : RelayChainBlockInfo Hash)
    (commitments : CandidateCommitments) (validationCodeHash : Hash) :
    Except (FragmentValidityError Hash) Unit := do
  ensure (c.validationCodeHash = validationCodeHash)
    (.validationCodeMismatch c.validationCodeHash validationCodeHash)
  ensure (commitments.headData.length ≤ c.maxHeadDataSize)
    (.headDataTooLarge c.maxHeadDataSize commitments.headData.length)
  ensure (c.minRelayParentNumber ≤ relayParent.number)
    (.relayParentTooOld c.minRelayParentNumber relayParent.number)
  ensure (commitments.newValidationCode.isSome → c.upgradeRestriction ≠ some .present)
    .codeUpgradeRestricted
  let announcedCodeSize := (commitments.newValidationCode.map (·.length)).getD 0
  ensure (announcedCodeSize ≤ c.maxCodeSize) (.codeSizeTooLarge c.maxCodeSize announcedCodeSize)
  ensure (commitments.horizontalMessages.length ≤ c.maxHrmpNumPerCandidate)
    (.hrmpMessagesPerCandidateOverflow c.maxHrmpNumPerCandidate
      commitments.horizontalMessages.length)

def validateAgainstConstraints (c : Constraints Hash) (relayParent : RelayChainBlockInfo Hash)
    (commitments : CandidateCommitments) (persistedValidationData : PersistedValidationData Hash)
    (validationCodeHash : Hash) (modifications : ConstraintModifications) :
    Except (FragmentValidityError Hash) Unit := do
  validateCommitments c relayParent commitments validationCodeHash
  let expectedPvd : PersistedValidationData Hash :=
    { parentHead := c.requiredParent,
      relayParentNumber := relayParent.number,
      relayParentStorageRoot := relayParent.storageRoot,
      maxPovSize := c.maxPovSize % 2 ^ 32 }
  ensure (expectedPvd = persistedValidationData)
    (.persistedValidationDataMismatch expectedPvd persistedValidationData)
  ensure
    (modifications.dmpMessagesProcessed = 0 →
      ∀ sentAt ∈ c.dmpRemainingMessages[0]?, relayParent.number < sentAt)
    .dmpAdvancementRule
  ensure (modifications.umpMessagesSent ≤ c.maxUmpNumPerCandidate)
    (.umpMessagesPerCandidateOverflow c.maxUmpNumPerCandidate commitments.upwardMessages.length)
  (c.checkModifications modifications).mapError .outputsInvalid

-- The messages and bytes submitted to each channel. The recipients have to be ascending.
def outboundHrmp (i : Nat) (lastRecipient : Option Nat)
    (outbound : Std.ExtTreeMap Nat OutboundHrmpChannelModification) :
    List OutboundHrmpMessage →
      Except (FragmentValidityError Hash) (Std.ExtTreeMap Nat OutboundHrmpChannelModification)
  | [] => .ok outbound
  | message :: messages => do
    ensure (∀ last ∈ lastRecipient, last < message.recipient) (.hrmpMessagesDescendingOrDuplicate i)
    let record := (outbound[message.recipient]?).getD {}
    outboundHrmp (i + 1) (some message.recipient)
      (outbound.insert message.recipient
        { bytesSubmitted := record.bytesSubmitted + message.data.length,
          messagesSubmitted := record.messagesSubmitted + 1 }) messages

-- The modifications that a candidate makes if it is valid under the constraints.
def checkAgainstConstraints (relayParent : RelayChainBlockInfo Hash)
    (operatingConstraints : Constraints Hash) (commitments : CandidateCommitments)
    (validationCodeHash : Hash) (persistedValidationData : PersistedValidationData Hash) :
    Except (FragmentValidityError Hash) ConstraintModifications := do
  let upwardMessages := skipUmpSignals commitments.upwardMessages
  let outbound ← outboundHrmp 0 none ∅ commitments.horizontalMessages
  let modifications : ConstraintModifications :=
    { requiredParent := some commitments.headData,
      hrmpWatermark := some (if commitments.hrmpWatermark = relayParent.number
        then .head commitments.hrmpWatermark else .trunk commitments.hrmpWatermark),
      outboundHrmp := outbound,
      umpMessagesSent := upwardMessages.length,
      umpBytesSent := (upwardMessages.map (·.length)).sum,
      dmpMessagesProcessed := commitments.processedDownwardMessages,
      codeUpgradeApplied := operatingConstraints.futureValidationCode.any
        (·.1 ≤ relayParent.number) }
  validateAgainstConstraints operatingConstraints relayParent commitments persistedValidationData
    validationCodeHash modifications
  return modifications

-- A candidate that is valid under its operating constraints.
structure Fragment (Hash : Type) [LinearOrder Hash] where
  relayParent : RelayChainBlockInfo Hash
  operatingConstraints : Constraints Hash
  candidate : ProspectiveCandidate Hash
  modifications : ConstraintModifications
  valid : checkAgainstConstraints relayParent operatingConstraints candidate.commitments
    candidate.validationCodeHash candidate.persistedValidationData = .ok modifications

def Fragment.new (relayParent : RelayChainBlockInfo Hash) (operatingConstraints : Constraints Hash)
    (candidate : ProspectiveCandidate Hash) : Except (FragmentValidityError Hash) (Fragment Hash) :=
  match h : checkAgainstConstraints relayParent operatingConstraints candidate.commitments
      candidate.validationCodeHash candidate.persistedValidationData with
  | .ok modifications =>
    .ok { relayParent, operatingConstraints, candidate, modifications, valid := h }
  | .error e => .error e

end Prospective
