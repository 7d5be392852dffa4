import RostroModel.Messages.OutboundLane

namespace Messages

open Except (bind_eq_ok ensure ensure_eq_ok okOr okOr_eq_ok)

variable {Payload RelayerId Result : Type}

inductive BasicOperatingMode
  | normal
  | halted
  deriving DecidableEq, Repr

inductive MessagesOperatingMode
  | basic (mode : BasicOperatingMode)
  | rejectingOutboundMessages
  deriving DecidableEq, Repr

def MessagesOperatingMode.isHalted : MessagesOperatingMode → Bool
  | .basic mode => mode = .halted
  | .rejectingOutboundMessages => false

inductive LanesManagerError
  | unknownInboundLane
  | unknownOutboundLane
  | closedInboundLane
  | closedOutboundLane
  | laneDispatcherInactive
  deriving DecidableEq, Repr

inductive VerificationError
  | emptyMessageProof
  | headerChain
  | inboundLaneStorage
  | messagesCountMismatch
  | messageStorage
  | messageTooLarge
  | outboundLaneStorage
  | storageProof
  deriving DecidableEq, Repr

inductive Error
  | notOperatingNormally
  | lanesManager (error : LanesManagerError)
  | messageRejectedByPallet (error : VerificationError)
  | tooManyMessagesInTheProof
  | invalidMessagesProof
  | invalidMessagesDeliveryProof
  | invalidUnrewardedRelayersState
  | insufficientDispatchWeight
  | receptionConfirmation (error : ReceptionConfirmationError)
  | bridgeModuleHalted
  deriving DecidableEq, Repr

-- What the pallet stores at one end of the bridge, for one lane.
structure Chain (Payload RelayerId : Type) where
  palletOperatingMode : MessagesOperatingMode := .basic .normal
  inboundLane : Option (InboundLaneData RelayerId) := some .opened
  outboundLane : Option OutboundLaneData := some .opened
  outboundMessages : Std.ExtTreeMap Nat Payload := ∅

-- The constants and the callbacks of the runtime.
structure Config (Payload RelayerId : Type) where
  maxUnrewardedRelayersInConfirmationTx : Nat
  maxUnconfirmedMessagesInConfirmationTx : Nat
  maximalIncomingMessageSize : Nat
  encodedSize : Payload → Nat
  extraProofSizeBytes : Nat → Nat
  receiveMessagesProofWeight : Nat → Nat → Weight → Weight
  receiveMessagesDeliveryProofWeight : Nat → UnrewardedRelayersState → Weight
  payReward :
    List (UnrewardedRelayer RelayerId) → RelayerId → DeliveredMessages → Nat

def Config.inboundLimits (c : Config Payload RelayerId) : InboundLimits where
  maxUnrewardedRelayerEntries := c.maxUnrewardedRelayersInConfirmationTx
  maxUnconfirmedMessages := c.maxUnconfirmedMessagesInConfirmationTx

-- The values that a storage proof against a finalized header of the bridged chain gives: no message
-- where its key is missing or does not decode, and no lane data where the key does not decode.
structure ProvedStorage (Payload : Type) where
  messages : Nat → Option Payload
  outboundLaneData : Option (Option OutboundLaneData)
  unusedNodes : Bool

-- A proof has no storage if its header is not known or its nodes do not lead to the root.
structure MessagesProof (Payload : Type) where
  size : Nat
  storage : Option (ProvedStorage Payload)
  noncesStart : Nat
  noncesEnd : Nat

structure ProvedLaneMessages (Payload : Type) where
  laneState : Option OutboundLaneData
  messages : List (Message Payload)

def ProvedStorage.readMessage (storage : ProvedStorage Payload) (nonce : Nat) :
    Except VerificationError (Message Payload) :=
  match storage.messages nonce with
  | some payload => .ok { nonce, payload }
  | none => .error .messageStorage

def verifyMessagesProof (proof : MessagesProof Payload) (messagesCount : Nat) :
    Except VerificationError (ProvedLaneMessages Payload) := do
  let storage ← okOr proof.storage .headerChain
  ensure (MessageNonce.saturatingLen proof.noncesStart proof.noncesEnd = messagesCount)
    .messagesCountMismatch
  let nonces := (DeliveredMessages.mk proof.noncesStart proof.noncesEnd).nonces
  let messages ← nonces.mapM storage.readMessage
  let laneState ← okOr storage.outboundLaneData .outboundLaneStorage
  ensure (¬(laneState.isNone ∧ messages.isEmpty)) .emptyMessageProof
  ensure (¬storage.unusedNodes) .storageProof
  return { laneState, messages }

-- The proof of the state of an inbound lane. It has no state if the header is not known, or if the
-- value is missing or does not decode.
structure MessagesDeliveryProof (RelayerId : Type) where
  size : Nat
  inboundLaneData : Option (InboundLaneData RelayerId)
  unusedNodes : Bool

def verifyMessagesDeliveryProof (proof : MessagesDeliveryProof RelayerId) :
    Except VerificationError (InboundLaneData RelayerId) := do
  let inboundLaneData ← okOr proof.inboundLaneData .inboundLaneStorage
  ensure (¬proof.unusedNodes) .storageProof
  return inboundLaneData

namespace Chain

def ensureNotHalted (chain : Chain Payload RelayerId) : Except Error Unit :=
  ensure (¬chain.palletOperatingMode.isHalted) .bridgeModuleHalted

def ensureNormalOperatingMode (chain : Chain Payload RelayerId) : Except Error Unit :=
  ensure (chain.palletOperatingMode = .basic .normal) .notOperatingNormally

def activeInboundLane (chain : Chain Payload RelayerId)
    (dispatcher : MessageDispatch Payload Result) :
    Except Error (InboundLaneData RelayerId) := do
  let data ← okOr chain.inboundLane (.lanesManager .unknownInboundLane)
  ensure data.state.isActive (.lanesManager .closedInboundLane)
  ensure dispatcher.isActive (.lanesManager .laneDispatcherInactive)
  return data

def anyStateOutboundLane (chain : Chain Payload RelayerId) :
    Except Error (OutboundLane Payload) := do
  let data ← okOr chain.outboundLane (.lanesManager .unknownOutboundLane)
  return { data, messages := chain.outboundMessages }

def activeOutboundLane (chain : Chain Payload RelayerId) : Except Error (OutboundLane Payload) := do
  let lane ← chain.anyStateOutboundLane
  ensure lane.data.state.isActive (.lanesManager .closedOutboundLane)
  return lane

def setOutboundLane (chain : Chain Payload RelayerId) (lane : OutboundLane Payload) :
    Chain Payload RelayerId :=
  { chain with outboundLane := some lane.data, outboundMessages := lane.messages }

def validateMessage (c : Config Payload RelayerId) (chain : Chain Payload RelayerId)
    (message : Payload) : Except Error (OutboundLane Payload) := do
  chain.ensureNormalOperatingMode
  let lane ← chain.activeOutboundLane
  ensure (c.encodedSize message ≤ c.maximalIncomingMessageSize)
    (.messageRejectedByPallet .messageTooLarge)
  return lane

structure SendMessageArtifacts where
  nonce : Nat
  enqueuedMessages : Nat

def sendMessage (c : Config Payload RelayerId) (chain : Chain Payload RelayerId)
    (message : Payload) :
    Except Error (Chain Payload RelayerId × SendMessageArtifacts) := do
  let lane ← chain.validateMessage c message
  let (lane, nonce) := lane.sendMessage message
  let enqueuedMessages := lane.data.queuedMessages.totalMessages
  return (chain.setOutboundLane lane, { nonce, enqueuedMessages })

-- The variables of the loop over the proven messages.
structure Reception (RelayerId Result : Type) where
  lane : InboundLaneData RelayerId
  dispatchWeightLeft : Weight
  actualWeight : Weight
  totalMessages : Nat := 0
  validMessages : Nat := 0
  receiveResults : List (Nat × ReceptionResult Result) := []

variable [DecidableEq RelayerId]

def receiveNext (limits : InboundLimits) (dispatcher : MessageDispatch Payload Result)
    (relayer : RelayerId) (r : Reception RelayerId Result) (message : Message Payload) :
    Except Error (Reception RelayerId Result) :=
  let messageDispatchWeight := dispatcher.dispatchWeight message
  if messageDispatchWeight.anyGt r.dispatchWeightLeft then .error .insufficientDispatchWeight
  else
    let (lane, receivalResult) := r.lane.receiveMessage limits dispatcher relayer message
    let (validMessages, unspentWeight) :=
      match receivalResult with
      | .dispatched dispatchResult => (r.validMessages + 1, dispatchResult.unspentWeight)
      | _ => (r.validMessages, messageDispatchWeight)
    let unspentWeight := unspentWeight.min messageDispatchWeight
    .ok {
      lane, validMessages,
      totalMessages := r.totalMessages + 1,
      receiveResults := r.receiveResults ++ [(message.nonce, receivalResult)],
      dispatchWeightLeft :=
        r.dispatchWeightLeft.saturatingSub (messageDispatchWeight.saturatingSub unspentWeight),
      actualWeight := r.actualWeight.saturatingSub unspentWeight
    }

-- What the call hands to the payment of the relayer and to the event, and the weight it returns.
structure MessagesReceived (RelayerId Result : Type) where
  relayerAtThisChain : RelayerId
  totalMessages : Nat
  validMessages : Nat
  receiveResults : List (Nat × ReceptionResult Result)
  actualWeight : Weight

def receiveMessagesProof (c : Config Payload RelayerId)
    (dispatcher : MessageDispatch Payload Result) (chain : Chain Payload RelayerId)
    (relayerAtThisChain relayerAtBridgedChain : RelayerId) (proof : MessagesProof Payload)
    (messagesCount : Nat) (dispatchWeight : Weight) :
    Except Error (Chain Payload RelayerId × MessagesReceived RelayerId Result) := do
  chain.ensureNotHalted
  ensure (messagesCount ≤ c.maxUnconfirmedMessagesInConfirmationTx) .tooManyMessagesInTheProof
  let declaredWeight := c.receiveMessagesProofWeight proof.size messagesCount dispatchWeight
  let laneData ← (verifyMessagesProof proof messagesCount).mapError fun _ =>
    Error.invalidMessagesProof
  let lane ← chain.activeInboundLane dispatcher
  let actualWeight := { declaredWeight with
    proofSize := declaredWeight.proofSize - c.extraProofSizeBytes lane.relayers.length }
  let lane :=
    match laneData.laneState with
    | some laneState => (lane.receiveStateUpdate laneState).1
    | none => lane
  let r ← laneData.messages.foldlM (receiveNext c.inboundLimits dispatcher relayerAtBridgedChain)
    { lane, dispatchWeightLeft := dispatchWeight, actualWeight : Reception RelayerId Result }
  return ({ chain with inboundLane := some r.lane },
    { relayerAtThisChain, totalMessages := r.totalMessages, validMessages := r.validMessages,
      receiveResults := r.receiveResults, actualWeight := r.actualWeight })

-- What the call hands to the payment of the relayers and to the event, the number of messages it
-- reports as not delivered yet, and the weight it returns.
structure MessagesDelivered (RelayerId : Type) where
  confirmedMessages : Option DeliveredMessages
  relayers : List (UnrewardedRelayer RelayerId)
  queuedMessages : Nat
  actualWeight : Weight

def receiveMessagesDeliveryProof (c : Config Payload RelayerId) (chain : Chain Payload RelayerId)
    (confirmationRelayer : RelayerId) (proof : MessagesDeliveryProof RelayerId)
    (relayersState : UnrewardedRelayersState) :
    Except Error (Chain Payload RelayerId × MessagesDelivered RelayerId) := do
  chain.ensureNotHalted
  let laneData ← (verifyMessagesDeliveryProof proof).mapError fun _ =>
    Error.invalidMessagesDeliveryProof
  ensure (relayersState.isValid laneData) .invalidUnrewardedRelayersState
  let lane ← chain.anyStateOutboundLane
  let (lane, confirmedMessages) ←
    (lane.confirmDelivery relayersState.totalMessages laneData.lastDeliveredNonce
      laneData.relayers).mapError Error.receptionConfirmation
  let relayersState :=
    match confirmedMessages with
    | some receivedRange =>
      { relayersState with
        unrewardedRelayerEntries := min relayersState.unrewardedRelayerEntries
          (c.payReward laneData.relayers confirmationRelayer receivedRange),
        totalMessages := min relayersState.totalMessages
          ((MessageNonce.checkedLen receivedRange.begin receivedRange.last).getD MessageNonce.max) }
    | none => relayersState
  return (chain.setOutboundLane lane,
    { confirmedMessages, relayers := laneData.relayers,
      queuedMessages := lane.data.queuedMessages.totalMessages,
      actualWeight := c.receiveMessagesDeliveryProofWeight proof.size relayersState })

end Chain

section Proofs

variable {proof : MessagesProof Payload} {messagesCount : Nat}
  {laneData : ProvedLaneMessages Payload}

theorem ProvedStorage.messages_of_mapM {storage : ProvedStorage Payload} {nonces : List Nat}
    {messages : List (Message Payload)} (h : nonces.mapM storage.readMessage = .ok messages) :
    ∀ message ∈ messages, storage.messages message.nonce = some message.payload := by
  induction nonces generalizing messages
  case nil =>
    cases h
    simp
  case cons nonce nonces hi =>
    rw [List.mapM_cons] at h
    obtain ⟨message, hm, h⟩ := bind_eq_ok.mp h
    obtain ⟨rest, hr, h⟩ := bind_eq_ok.mp h
    cases h
    intro x hx
    cases List.mem_cons.mp hx
    case inr hx => exact hi hr x hx
    case inl hx =>
      subst hx
      rw [ProvedStorage.readMessage] at hm
      split at hm
      · rename_i hp
        cases hm
        exact hp
      · cases hm

theorem verifyMessagesProof_eq_ok (h : verifyMessagesProof proof messagesCount = .ok laneData) :
    ∃ storage, proof.storage = some storage ∧ storage.outboundLaneData = some laneData.laneState ∧
      ∀ message ∈ laneData.messages, storage.messages message.nonce = some message.payload := by
  simp only [verifyMessagesProof, bind_eq_ok, okOr_eq_ok] at h
  obtain ⟨storage, hs, -, -, messages, hm, laneState, hl, -, -, -, -, he⟩ := h
  cases he
  exact ⟨storage, hs, hl, ProvedStorage.messages_of_mapM hm⟩

theorem verifyMessagesDeliveryProof_eq_ok {proof : MessagesDeliveryProof RelayerId}
    (h : verifyMessagesDeliveryProof proof = .ok data) :
    proof.inboundLaneData = some data := by
  simp only [verifyMessagesDeliveryProof, bind_eq_ok, okOr_eq_ok] at h
  obtain ⟨data', hd, -, -, he⟩ := h
  cases he
  exact hd

end Proofs

namespace Chain

variable {c : Config Payload RelayerId} {chain chain' : Chain Payload RelayerId}

theorem sendMessage_eq_ok (h : chain.sendMessage c message = .ok (chain', artifacts)) :
    ∃ data, chain.outboundLane = some data ∧ chain' = chain.setOutboundLane
        (OutboundLane.sendMessage { data, messages := chain.outboundMessages } message).1 := by
  simp only [sendMessage, validateMessage, activeOutboundLane, anyStateOutboundLane,
    bind_eq_ok, okOr_eq_ok] at h
  obtain ⟨lane, ⟨-, -, lane', ⟨lane'', ⟨data, hd, h1⟩, -, -, h2⟩, -, -, h3⟩, h⟩ := h
  cases h1
  cases h2
  cases h3
  cases h
  exact ⟨data, hd, rfl⟩

theorem receiveMessagesDeliveryProof_eq_ok {proof : MessagesDeliveryProof RelayerId}
    (h : chain.receiveMessagesDeliveryProof c confirmationRelayer proof relayersState =
      .ok (chain', delivered)) :
    ∃ laneData data lane, proof.inboundLaneData = some laneData ∧
      relayersState = .ofLaneData laneData ∧ chain.outboundLane = some data ∧
      OutboundLane.confirmDelivery { data, messages := chain.outboundMessages }
        laneData.totalUnrewardedMessages laneData.lastDeliveredNonce laneData.relayers =
          .ok (lane, delivered.confirmedMessages) ∧
      chain' = chain.setOutboundLane lane ∧ delivered.relayers = laneData.relayers := by
  simp only [receiveMessagesDeliveryProof, anyStateOutboundLane, bind_eq_ok,
    okOr_eq_ok, Except.mapError_eq_ok, ensure_eq_ok] at h
  obtain ⟨-, -, laneData, hv, -, hs, lane, ⟨data, hd, h1⟩, ⟨lane', confirmed⟩, hc, h⟩ := h
  cases h1
  cases h
  have hs' : relayersState = .ofLaneData laneData := by
    simpa [UnrewardedRelayersState.isValid] using hs
  subst hs'
  exact ⟨laneData, data, lane', verifyMessagesDeliveryProof_eq_ok hv, rfl, hd, hc, rfl, rfl⟩

variable [DecidableEq RelayerId]

theorem receiveNext_eq_ok {limits : InboundLimits} {dispatcher : MessageDispatch Payload Result}
    {relayer : RelayerId} {r r' : Reception RelayerId Result} {message : Message Payload}
    (h : receiveNext limits dispatcher relayer r message = .ok r') :
    r'.lane = (r.lane.receiveMessage limits dispatcher relayer message).1 ∧
      r'.receiveResults = r.receiveResults ++
        [(message.nonce, (r.lane.receiveMessage limits dispatcher relayer message).2)] := by
  simp only [receiveNext] at h
  split_ifs at h
  cases h
  exact ⟨rfl, rfl⟩

theorem receiveMessagesProof_eq_ok {dispatcher : MessageDispatch Payload Result}
    {relayerAtThisChain relayer : RelayerId} {proof : MessagesProof Payload} {messagesCount : Nat}
    {dispatchWeight : Weight} {received : MessagesReceived RelayerId Result}
    (h : chain.receiveMessagesProof c dispatcher relayerAtThisChain relayer proof messagesCount
      dispatchWeight = .ok (chain', received)) :
    ∃ laneData data r r', verifyMessagesProof proof messagesCount = .ok laneData ∧
      chain.inboundLane = some data ∧ r.receiveResults = [] ∧
      r.lane = laneData.laneState.elim data (fun laneState =>
        (data.receiveStateUpdate laneState).1) ∧
      laneData.messages.foldlM (receiveNext c.inboundLimits dispatcher relayer) r = .ok r' ∧
      chain' = { chain with inboundLane := some r'.lane } ∧
        received.receiveResults = r'.receiveResults := by
  simp only [receiveMessagesProof, activeInboundLane, bind_eq_ok, okOr_eq_ok,
    Except.mapError_eq_ok] at h
  obtain ⟨-, -, -, -, laneData, hv, lane, ⟨data, hd, -, -, -, -, h1⟩, r', hr, h⟩ := h
  cases h1
  cases h
  exact ⟨laneData, lane, _, r', hv, hd, rfl, by cases laneData.laneState <;> rfl, hr, rfl, rfl⟩

end Chain
end Messages
