import RostroModel.Messages.Pallet

namespace Messages

open List (mem_cons_of_mem mem_cons_self)

variable {Payload RelayerId Result : Type}

-- A message that the target chain has dispatched, with the relayer that brought it.
structure Delivery (Payload RelayerId : Type) where
  nonce : Nat
  relayer : RelayerId
  payload : Option Payload

-- The proof shows values that the storage of the chain had.
def MessagesProof.Proves (proof : MessagesProof Payload) (past : Chain Payload RelayerId) : Prop :=
  ∀ storage ∈ proof.storage,
    (∀ nonce payload, storage.messages nonce = some payload →
      past.outboundMessages[nonce]? = some payload) ∧
    ∀ data, storage.outboundLaneData = some (some data) → past.outboundLane = some data

def MessagesDeliveryProof.Proves (proof : MessagesDeliveryProof RelayerId)
    (past : Chain Payload RelayerId) : Prop :=
  ∀ data ∈ proof.inboundLaneData, past.inboundLane = some data

-- The messages of a call that were dispatched, with the payloads that its proof shows.
def deliveries (proof : MessagesProof Payload) (relayer : RelayerId)
    (results : List (Nat × ReceptionResult Result)) : List (Delivery Payload RelayerId) :=
  results.filterMap fun result =>
    if result.2.isDispatched then
      some {
        nonce := result.1, relayer,
        payload := proof.storage.bind fun storage => storage.messages result.1 }
    else none

theorem deliveries_append (proof : MessagesProof Payload) (relayer : RelayerId)
    (results1 results2 : List (Nat × ReceptionResult Result)) :
    deliveries proof relayer (results1 ++ results2) =
      deliveries proof relayer results1 ++ deliveries proof relayer results2 :=
  List.filterMap_append

-- A source chain with an outbound lane and a target chain with the matching inbound lane. Beside
-- the states of the chains there is what they have been and what they have done: the states that
-- each of them had, the payloads sent, the messages dispatched, and the confirmations accepted,
-- each with the relayers that its proof shows.
structure System (Payload RelayerId : Type) where
  source : Chain Payload RelayerId
  target : Chain Payload RelayerId
  sourceStates : List (Chain Payload RelayerId)
  targetStates : List (Chain Payload RelayerId)
  sent : List Payload
  dispatched : List (Delivery Payload RelayerId)
  confirmations : List (List (UnrewardedRelayer RelayerId) × DeliveredMessages)

namespace System

def initial : System Payload RelayerId where
  source := {}
  target := {}
  sourceStates := [{}]
  targetStates := [{}]
  sent := []
  dispatched := []
  confirmations := []

variable [DecidableEq RelayerId]

-- One successful call on one of the chains. The relayers choose which past state of the other
-- chain they prove, how much of it, and what else the call has for arguments. The last nonce of
-- its type is not given to a message.
inductive Step (source target : Config Payload RelayerId) :
    System Payload RelayerId → System Payload RelayerId → Prop
  | sendMessage {sys : System Payload RelayerId} {payload : Payload}
      {chain : Chain Payload RelayerId} {artifacts : Chain.SendMessageArtifacts} :
    (∀ data ∈ sys.source.outboundLane, data.latestGeneratedNonce + 1 < MessageNonce.max) →
    sys.source.sendMessage source payload = .ok (chain, artifacts) →
    Step source target sys { sys with
      source := chain,
      sourceStates := chain :: sys.sourceStates,
      sent := sys.sent ++ [payload] }
  | receiveMessagesProof {sys : System Payload RelayerId} {past : Chain Payload RelayerId}
      {Result : Type} {dispatcher : MessageDispatch Payload Result}
      {relayerAtThisChain relayer : RelayerId} {proof : MessagesProof Payload}
      {messagesCount : Nat} {dispatchWeight : Weight} {chain : Chain Payload RelayerId}
      {received : Chain.MessagesReceived RelayerId Result} :
    past ∈ sys.sourceStates → proof.Proves past →
    sys.target.receiveMessagesProof target dispatcher relayerAtThisChain relayer proof messagesCount
      dispatchWeight = .ok (chain, received) →
    Step source target sys { sys with
      target := chain,
      targetStates := chain :: sys.targetStates,
      dispatched := sys.dispatched ++ deliveries proof relayer received.receiveResults }
  | receiveMessagesDeliveryProof {sys : System Payload RelayerId} {past : Chain Payload RelayerId}
      {confirmationRelayer : RelayerId} {proof : MessagesDeliveryProof RelayerId}
      {relayersState : UnrewardedRelayersState} {chain : Chain Payload RelayerId}
      {delivered : Chain.MessagesDelivered RelayerId} :
    past ∈ sys.targetStates → proof.Proves past →
    sys.source.receiveMessagesDeliveryProof source confirmationRelayer proof relayersState =
      .ok (chain, delivered) →
    Step source target sys { sys with
      source := chain,
      sourceStates := chain :: sys.sourceStates,
      confirmations := sys.confirmations ++
        delivered.confirmedMessages.toList.map (delivered.relayers, ·) }

inductive Reachable (source target : Config Payload RelayerId) : System Payload RelayerId → Prop
  | initial : Reachable source target initial
  | step {sys sys' : System Payload RelayerId} :
    Reachable source target sys → Step source target sys sys' → Reachable source target sys'

end System

-- The relayer that brought a message.
def deliveredBy (dispatched : List (Delivery Payload RelayerId)) (nonce : Nat) : Option RelayerId :=
  (dispatched.find? (·.nonce = nonce)).map (·.relayer)

-- The target has dispatched the messages up to the last delivered one, each once and in order, and
-- its queue has the relayers that brought them.
structure Delivered (limits : InboundLimits) (data : InboundLaneData RelayerId)
    (dispatched : List (Delivery Payload RelayerId)) : Prop where
  queue : data.Queue limits
  nonces : dispatched.map (·.nonce) = List.range' 1 data.lastDeliveredNonce
  attributes : InboundLaneData.Attributes (deliveredBy dispatched) data.relayers

namespace Delivered

variable {limits : InboundLimits} {data : InboundLaneData RelayerId}
variable {dispatched : List (Delivery Payload RelayerId)}

theorem initial : Delivered limits (.opened : InboundLaneData RelayerId)
    ([] : List (Delivery Payload RelayerId)) where
  queue := .initial .opened
  nonces := rfl
  attributes := by simp [InboundLaneData.Attributes, InboundLaneData.opened]

-- What the log says about a dispatched message does not change when the log grows.
theorem deliveredBy_append (more : List (Delivery Payload RelayerId))
    (h : deliveredBy dispatched nonce = some relayer) :
    deliveredBy (dispatched ++ more) nonce = some relayer := by
  rw [deliveredBy, Option.map_eq_some_iff] at h
  obtain ⟨delivery, hd, hr⟩ := h
  rw [deliveredBy, List.find?_append, hd]
  simp [hr]

theorem attributes_append (more : List (Delivery Payload RelayerId))
    (h : InboundLaneData.Attributes (deliveredBy dispatched) relayers) :
    InboundLaneData.Attributes (deliveredBy (dispatched ++ more)) relayers :=
  fun entry he nonce hb hl => deliveredBy_append more (h entry he nonce hb hl)

theorem deliveredBy_concat (delivery : Delivery Payload RelayerId)
    (h : ∀ d ∈ dispatched, d.nonce ≠ delivery.nonce) :
    deliveredBy (dispatched ++ [delivery]) delivery.nonce = some delivery.relayer := by
  have hn : dispatched.find? (·.nonce = delivery.nonce) = none := by simpa using h
  simp [deliveredBy, hn]

theorem nonce_le (h : Delivered limits data dispatched)
    (hd : delivery ∈ dispatched) : 1 ≤ delivery.nonce ∧
      delivery.nonce ≤ data.lastDeliveredNonce := by
  have hm : delivery.nonce ∈ dispatched.map (·.nonce) := List.mem_map_of_mem hd
  rw [h.nonces, List.mem_range'_1] at hm
  omega

theorem receiveStateUpdate (h : Delivered limits data dispatched) (outbound : OutboundLaneData) :
    Delivered limits (data.receiveStateUpdate outbound).1 dispatched ∧
      (data.receiveStateUpdate outbound).1.lastDeliveredNonce = data.lastDeliveredNonce ∧
      data.lastConfirmedNonce ≤ (data.receiveStateUpdate outbound).1.lastConfirmedNonce ∧
      ((data.receiveStateUpdate outbound).1.lastConfirmedNonce = data.lastConfirmedNonce ∨
        (data.receiveStateUpdate outbound).1.lastConfirmedNonce =
          outbound.latestReceivedNonce) := by
  have hq := h.queue.receiveStateUpdate outbound
  rcases h.queue.receiveStateUpdate_cases outbound with ⟨he, -⟩ | ⟨relayers, he, hc, hd, ht, hs, ha⟩
  all_goals rw [he] at hq ⊢
  · exact ⟨h, rfl, le_rfl, .inl rfl⟩
  · have hl : InboundLaneData.lastDeliveredNonce
        { data with lastConfirmedNonce := outbound.latestReceivedNonce, relayers } =
          data.lastDeliveredNonce :=
      InboundLaneData.lastDeliveredNonce_of_tiles ht
    exact ⟨⟨hq, by rw [hl]; exact h.nonces, ha _ h.attributes⟩, hl, hc.le, .inr rfl⟩

variable [DecidableEq RelayerId]

theorem receiveMessage (h : Delivered limits data dispatched)
    (dispatcher : MessageDispatch Payload Result) (relayer : RelayerId) (message : Message Payload)
    (proof : MessagesProof Payload) :
    let r := data.receiveMessage limits dispatcher relayer message
    Delivered limits r.1 (dispatched ++ deliveries proof relayer [(message.nonce, r.2)]) ∧
      r.1.lastConfirmedNonce = data.lastConfirmedNonce ∧
      data.lastDeliveredNonce ≤ r.1.lastDeliveredNonce ∧
      (r.1.lastDeliveredNonce = data.lastDeliveredNonce ∨
        r.1.lastDeliveredNonce = message.nonce) := by
  intro r
  rcases InboundLaneData.receiveMessage_cases limits data dispatcher relayer message with
    ⟨result, he, hr⟩ | ⟨he, hn, hm, hl, hc⟩
  all_goals
    have hr' : r = _ := he
    rw [hr']
  · simp only [deliveries, List.filterMap_cons, hr]
    simpa using h
  · obtain ⟨hq, hd⟩ := h.queue.recordDelivery relayer hm hl hc
    rw [hn]
    refine ⟨⟨hq, ?_, ?_⟩, rfl, by rw [hd]; exact Nat.le_succ _, .inr hd⟩
    · rw [hd, List.map_append, h.nonces, List.range'_1_concat, Nat.add_comm 1]
      rfl
    · refine InboundLaneData.Attributes.recordDelivery
        (attributes_append _ h.attributes) h.queue.tiles
        hm (deliveredBy_concat ⟨_, relayer, _⟩ fun d hd => ?_)
      have := (h.nonce_le hd).2
      simp only
      omega

-- The whole loop: the confirmed nonce stays, and the delivered nonce does not pass what is proven.
theorem receiveLoop {messages : List (Message Payload)} {r r' : Chain.Reception RelayerId Result}
    (h : Delivered limits r.lane (dispatched ++ deliveries proof relayer r.receiveResults))
    (hr : messages.foldlM (Chain.receiveNext limits dispatcher relayer) r = .ok r') :
    Delivered limits r'.lane (dispatched ++ deliveries proof relayer r'.receiveResults) ∧
      r'.lane.lastConfirmedNonce = r.lane.lastConfirmedNonce ∧
      r.lane.lastDeliveredNonce ≤ r'.lane.lastDeliveredNonce ∧
      (r'.lane.lastDeliveredNonce = r.lane.lastDeliveredNonce ∨
        ∃ message ∈ messages, r'.lane.lastDeliveredNonce = message.nonce) ∧
      ∀ result ∈ r'.receiveResults, result ∈ r.receiveResults ∨
        ∃ message ∈ messages, result.1 = message.nonce := by
  induction messages generalizing r
  case nil =>
    cases hr
    exact ⟨h, rfl, le_rfl, .inl rfl, fun _ => .inl⟩
  case cons message messages hi =>
    obtain ⟨r1, h1, hr⟩ := Except.bind_eq_ok.mp hr
    obtain ⟨hl1, hs1⟩ := Chain.receiveNext_eq_ok h1
    obtain ⟨hd, hc, hl, hm⟩ := h.receiveMessage dispatcher relayer message proof
    rw [← hl1] at hd hc hl hm
    rw [List.append_assoc, ← deliveries_append, ← hs1] at hd
    obtain ⟨hd', hc', hl', hm', hs'⟩ := hi hd hr
    refine ⟨hd', hc'.trans hc, hl.trans hl', ?_, fun result hx => ?_⟩
    · rcases hm' with hm' | ⟨message', hx, hm'⟩
      · rw [hm']
        exact hm.imp_right fun hm => ⟨message, mem_cons_self, hm⟩
      · exact .inr ⟨message', mem_cons_of_mem _ hx, hm'⟩
    · rcases hs' result hx with hx | ⟨message', hx, hm'⟩
      · rw [hs1, List.mem_append, List.mem_singleton] at hx
        exact hx.imp_right fun hx => ⟨message, mem_cons_self, by rw [hx]⟩
      · exact .inr ⟨message', mem_cons_of_mem _ hx, hm'⟩

end Delivered

-- A state that the source had: it has confirmed no more than now, and it stored messages that were
-- sent.
structure SourcePast (sent : List Payload) (now : OutboundLaneData)
    (past : Chain Payload RelayerId) :
    Prop where
  received : ∃ data, past.outboundLane = some data ∧
    data.latestReceivedNonce ≤ now.latestReceivedNonce
  messages : ∀ (nonce : Nat) payload, past.outboundMessages[nonce]? = some payload →
    0 < nonce ∧ sent[nonce - 1]? = some payload

-- A state that the target had: it had a queue of messages dispatched by now, and it has confirmed
-- and received no more than now.
def TargetPast (limits : InboundLimits) (dispatched : List (Delivery Payload RelayerId))
    (now : InboundLaneData RelayerId) (past : Chain Payload RelayerId) : Prop :=
  ∃ data, past.inboundLane = some data ∧ data.Queue limits ∧
    data.lastConfirmedNonce ≤ now.lastConfirmedNonce ∧
      data.lastDeliveredNonce ≤ now.lastDeliveredNonce ∧
    InboundLaneData.Attributes (deliveredBy dispatched) data.relayers

-- The accepted confirmations follow one another up to the nonce `n`, and the relayers of each of
-- them are those of the messages that it confirms.
inductive Confirmed (dispatched : List (Delivery Payload RelayerId)) :
    List (List (UnrewardedRelayer RelayerId) × DeliveredMessages) → Nat → Prop
  | nil : Confirmed dispatched [] 0
  | concat {confirmations : List (List (UnrewardedRelayer RelayerId) × DeliveredMessages)}
      {n c d : Nat} {relayers : List (UnrewardedRelayer RelayerId)} :
    Confirmed dispatched confirmations n → n < d → c ≤ n → d < MessageNonce.max →
      Tiles c relayers d →
      InboundLaneData.Attributes (deliveredBy dispatched) relayers →
      Confirmed dispatched (confirmations ++ [(relayers, ⟨n + 1, d⟩)]) d

theorem Confirmed.append {dispatched : List (Delivery Payload RelayerId)}
    (h : Confirmed dispatched confirmations n) (more : List (Delivery Payload RelayerId)) :
    Confirmed (dispatched ++ more) confirmations n := by
  induction h
  case nil => exact .nil
  case concat hd hc hm ht ha hi =>
    exact .concat hi hd hc hm ht (Delivered.attributes_append more ha)

-- What links the two ends of the lane to each other and to what they have been.
structure Consistent (limits : InboundLimits) (sys : System Payload RelayerId)
    (out : OutboundLaneData) (inb : InboundLaneData RelayerId) : Prop where
  source : sys.source.outboundLane = some out
  target : sys.target.inboundLane = some inb
  delivered : Delivered limits inb sys.dispatched
  confirmedLe : inb.lastConfirmedNonce ≤ out.latestReceivedNonce
  receivedLe : out.latestReceivedNonce ≤ inb.lastDeliveredNonce
  deliveredLe : inb.lastDeliveredNonce ≤ out.latestGeneratedNonce
  sent : sys.sent.length = out.latestGeneratedNonce
  fits : out.latestGeneratedNonce < MessageNonce.max
  sourceNow : sys.source ∈ sys.sourceStates
  sourceStates : ∀ past ∈ sys.sourceStates, SourcePast sys.sent out past
  targetStates : ∀ past ∈ sys.targetStates, TargetPast limits sys.dispatched inb past
  confirmed : Confirmed sys.dispatched sys.confirmations out.latestReceivedNonce
  payloads : ∀ delivery ∈ sys.dispatched, ∃ payload, delivery.payload = some payload ∧
    sys.sent[delivery.nonce - 1]? = some payload

section Past

variable {limits : InboundLimits} {sent sent' : List Payload} {now now' : OutboundLaneData}
variable {past : Chain Payload RelayerId}

theorem SourcePast.mono (h : SourcePast sent now past) (hs : sent <+: sent')
    (hr : now.latestReceivedNonce ≤ now'.latestReceivedNonce) : SourcePast sent' now' past where
  received := by
    obtain ⟨data, hd, hl⟩ := h.received
    exact ⟨data, hd, hl.trans hr⟩
  messages nonce payload hp := by
    obtain ⟨more, rfl⟩ := hs
    obtain ⟨hn, hs⟩ := h.messages nonce payload hp
    exact ⟨hn, by rw [List.getElem?_append_left (List.getElem?_eq_some_iff.mp hs).1, hs]⟩

theorem TargetPast.mono {dispatched : List (Delivery Payload RelayerId)}
    {inb inb' : InboundLaneData RelayerId} (h : TargetPast limits dispatched inb past)
    (hc : inb.lastConfirmedNonce ≤ inb'.lastConfirmedNonce)
    (hd : inb.lastDeliveredNonce ≤ inb'.lastDeliveredNonce)
    (more : List (Delivery Payload RelayerId)) :
    TargetPast limits (dispatched ++ more) inb' past := by
  obtain ⟨data, hp, hq, hc', hd', ha⟩ := h
  exact ⟨data, hp, hq, hc'.trans hc, hd'.trans hd, Delivered.attributes_append more ha⟩

end Past

namespace Consistent

variable {limits : InboundLimits} {sys sys' : System Payload RelayerId} {out : OutboundLaneData}
variable {inb : InboundLaneData RelayerId}

theorem outboundFits (h : Consistent limits sys out inb) (messages : Std.ExtTreeMap Nat Payload) :
    OutboundLane.Fits { data := out, messages } where
  received := Nat.lt_of_le_of_lt (h.receivedLe.trans h.deliveredLe) h.fits
  generated := h.fits

theorem initial :
    Consistent limits (System.initial : System Payload RelayerId) .opened .opened where
  source := rfl
  target := rfl
  delivered := .initial
  confirmedLe := le_rfl
  receivedLe := le_rfl
  deliveredLe := le_rfl
  sent := rfl
  fits := (by decide : 0 < MessageNonce.max)
  sourceNow := mem_cons_self
  sourceStates past hp := by
    cases List.mem_singleton.mp hp
    exact ⟨⟨_, rfl, le_rfl⟩, by simp⟩
  targetStates past hp := by
    cases List.mem_singleton.mp hp
    exact ⟨_, rfl, .initial .opened, le_rfl, le_rfl, by simp [InboundLaneData.Attributes,
      InboundLaneData.opened]⟩
  confirmed := .nil
  payloads := by simp [System.initial]

variable {past : Chain Payload RelayerId}

section

variable (h : Consistent limits sys out inb)
include h

theorem confirmDelivery_isOk (hp : TargetPast limits sys.dispatched inb past)
    (hd : past.inboundLane = some data) (messages : Std.ExtTreeMap Nat Payload) :
    ∃ result, OutboundLane.confirmDelivery { data := out, messages }
      (UnrewardedRelayersState.ofLaneData data).totalMessages data.lastDeliveredNonce
        data.relayers = .ok result := by
  obtain ⟨data', hd', hq, hc, hl, -⟩ := hp
  cases hd.symm.trans hd'
  have hf := h.outboundFits messages
  have hc' := h.confirmedLe
  cases Nat.lt_or_ge out.latestReceivedNonce data.lastDeliveredNonce
  case inr hr => exact ⟨_, OutboundLane.confirmDelivery_of_le hf hr⟩
  case inl hr =>
    rw [OutboundLane.confirmDelivery_of_lt hf hr (hl.trans h.deliveredLe), if_neg]
    · rw [ensureUnrewardedRelayersAreCorrect_of_tiles hq.tiles
        (Nat.lt_of_le_of_lt (hl.trans h.deliveredLe) h.fits)]
      exact ⟨_, rfl⟩
    · change ¬(data.lastDeliveredNonce - out.latestReceivedNonce > data.totalUnrewardedMessages)
      rw [hq.totalUnrewardedMessages]
      omega

theorem sendMessage {source : Config Payload RelayerId}
    {payload : Payload} {chain : Chain Payload RelayerId} {artifacts : Chain.SendMessageArtifacts}
    (hn : ∀ data ∈ sys.source.outboundLane, data.latestGeneratedNonce + 1 < MessageNonce.max)
    (hs : sys.source.sendMessage source payload = .ok (chain, artifacts)) :
    Consistent limits
      { sys with
        source := chain, sourceStates := chain :: sys.sourceStates, sent := sys.sent ++ [payload] }
      { out with latestGeneratedNonce := out.latestGeneratedNonce + 1 } inb := by
  obtain ⟨data, hd, rfl⟩ := Chain.sendMessage_eq_ok hs
  cases hd.symm.trans h.source
  have hw := MessageNonce.wrappingAdd_one h.fits
  have hp : SourcePast (sys.sent ++ [payload]) out sys.source :=
    (h.sourceStates sys.source h.sourceNow).mono (List.prefix_append _ _) le_rfl
  refine { h with
    source := ?source, deliveredLe := h.deliveredLe.trans (Nat.le_succ _), sent := ?sent, fits :=
      hn _ h.source,
    sourceNow := mem_cons_self, payloads := ?payloads, sourceStates := ?sourceStates }
  case source => simp only [Chain.setOutboundLane, OutboundLane.sendMessage, hw]
  case sent => simp [h.sent]
  case payloads =>
    intro delivery hm
    obtain ⟨p, hp, hs⟩ := h.payloads delivery hm
    exact ⟨p, hp, by rw [List.getElem?_append_left (List.getElem?_eq_some_iff.mp hs).1, hs]⟩
  case sourceStates =>
    intro past hm
    cases List.mem_cons.mp hm
    case inr hm => exact (h.sourceStates past hm).mono (List.prefix_append _ _) le_rfl
    case inl he =>
      subst he
      refine ⟨⟨_, rfl, le_rfl⟩, fun nonce p hm => ?_⟩
      simp only [Chain.setOutboundLane, OutboundLane.sendMessage, hw,
        Std.ExtTreeMap.lookup_insert] at hm
      split_ifs at hm with he
      · cases hm
        rw [he, ← h.sent]
        simp
      · exact hp.messages nonce p hm

-- The messages and the lane state of a proof were in a state that the source had.
theorem proven {proof : MessagesProof Payload} (hp : past ∈ sys.sourceStates)
    (hg : proof.Proves past) (hv : verifyMessagesProof proof messagesCount = .ok laneData) :
    (∀ laneState ∈ laneData.laneState, laneState.latestReceivedNonce ≤ out.latestReceivedNonce) ∧
    ∀ message ∈ laneData.messages,
      (proof.storage.bind fun storage => storage.messages message.nonce) = some message.payload ∧
      0 < message.nonce ∧ sys.sent[message.nonce - 1]? = some message.payload := by
  obtain ⟨storage, hs, hl, hm⟩ := verifyMessagesProof_eq_ok hv
  obtain ⟨hgm, hgl⟩ := hg storage hs
  have hpast := h.sourceStates past hp
  constructor
  · intro laneState hx
    obtain ⟨data, hd, hr⟩ := hpast.received
    rw [Option.mem_def.mp hx] at hl
    cases hd.symm.trans (hgl laneState hl)
    exact hr
  · intro message hx
    rw [hs]
    exact ⟨hm message hx, hpast.messages _ _ (hgm _ _ (hm message hx))⟩

theorem receiveMessagesDeliveryProof {source : Config Payload RelayerId}
    {confirmationRelayer : RelayerId} {proof : MessagesDeliveryProof RelayerId}
    {relayersState : UnrewardedRelayersState} {chain : Chain Payload RelayerId}
    {delivered : Chain.MessagesDelivered RelayerId}
    (hp : past ∈ sys.targetStates) (hg : proof.Proves past)
    (hr : sys.source.receiveMessagesDeliveryProof source confirmationRelayer proof relayersState =
      .ok (chain, delivered)) :
    ∃ out', Consistent limits
      { sys with
        source := chain, sourceStates := chain :: sys.sourceStates,
        confirmations := sys.confirmations ++
          delivered.confirmedMessages.toList.map (delivered.relayers, ·) } out' inb := by
  obtain ⟨laneData, data, lane, hl, -, hd, hc, rfl, hrs⟩ :=
    Chain.receiveMessagesDeliveryProof_eq_ok hr
  cases hd.symm.trans h.source
  obtain ⟨data, hd, hq, hdc, hdl, ha⟩ := h.targetStates past hp
  cases hd.symm.trans (hg laneData hl)
  have hnow := h.sourceStates sys.source h.sourceNow
  rw [hrs]
  rcases OutboundLane.confirmDelivery_eq_ok (h.outboundFits _) hc with ⟨-, rfl, he⟩ |
    ⟨hd, hg, rfl, he⟩
  all_goals rw [he]
  case inl =>
    refine ⟨out, ?_⟩
    have hs : sys.source.setOutboundLane { data := out, messages := sys.source.outboundMessages } =
        sys.source := by
      simp only [Chain.setOutboundLane, ← h.source]
    rw [hs]
    exact { h with
      sourceNow := mem_cons_self
      sourceStates := List.forall_mem_cons.mpr ⟨hnow, h.sourceStates⟩
      confirmed := by simpa using h.confirmed }
  case inr =>
    refine ⟨{ out with
      latestReceivedNonce := laneData.lastDeliveredNonce,
      oldestUnprunedNonce := laneData.lastDeliveredNonce + 1 }, ?_⟩
    refine { h with
      source := rfl, confirmedLe := h.confirmedLe.trans hd.le, receivedLe := hdl
      sourceNow := mem_cons_self
      confirmed := .concat h.confirmed hd (hdc.trans h.confirmedLe)
        (Nat.lt_of_le_of_lt hg h.fits) hq.tiles ha
      sourceStates := List.forall_mem_cons.mpr ⟨⟨⟨_, rfl, le_rfl⟩, fun nonce payload hm => ?_⟩,
        fun past hm => (h.sourceStates past hm).mono (List.prefix_refl _) hd.le⟩ }
    apply hnow.messages nonce payload
    simp only [Chain.setOutboundLane] at hm
    rw [OutboundLane.lookup_confirmedUpTo] at hm
    split_ifs at hm
    exact hm

end

variable [DecidableEq RelayerId]

theorem receiveMessagesProof {target : Config Payload RelayerId}
    (h : Consistent target.inboundLimits sys out inb)
    {proof : MessagesProof Payload}
    (hp : past ∈ sys.sourceStates) (hg : proof.Proves past)
    (hr : sys.target.receiveMessagesProof target dispatcher relayerAtThisChain relayer proof
      messagesCount dispatchWeight = .ok (chain, received)) :
    ∃ inb', Consistent target.inboundLimits
      { sys with
        target := chain, targetStates := chain :: sys.targetStates,
        dispatched := sys.dispatched ++ deliveries proof relayer received.receiveResults }
          out inb' := by
  obtain ⟨laneData, data, r, r', hv, hd, hr0, hrl, hl, rfl, hrr⟩ :=
    Chain.receiveMessagesProof_eq_ok hr
  cases hd.symm.trans h.target
  obtain ⟨hls, hms⟩ := h.proven hp hg hv
  rw [hrr]
  -- The lane state confirms nonces that the source has confirmed.
  have hu : Delivered target.inboundLimits r.lane sys.dispatched ∧
      r.lane.lastDeliveredNonce = inb.lastDeliveredNonce ∧
      inb.lastConfirmedNonce ≤ r.lane.lastConfirmedNonce ∧
      r.lane.lastConfirmedNonce ≤ out.latestReceivedNonce := by
    cases hx : laneData.laneState
    case none =>
      rw [hx] at hrl
      rw [hrl]
      exact ⟨h.delivered, rfl, le_rfl, h.confirmedLe⟩
    case some laneState =>
      rw [hx] at hrl
      rw [hrl]
      obtain ⟨hd, hn, hc, he⟩ := h.delivered.receiveStateUpdate laneState
      refine ⟨hd, hn, hc, ?_⟩
      rcases he with he | he
      · exact he.trans_le h.confirmedLe
      · exact he.trans_le (hls laneState hx)
  obtain ⟨hu, hun, huc, huo⟩ := hu
  -- The messages were sent.
  have hu' : Delivered target.inboundLimits r.lane
      (sys.dispatched ++ deliveries proof relayer r.receiveResults) := by
    rw [hr0]
    simpa [deliveries] using hu
  obtain ⟨hd', hc', hl', hm', hs'⟩ := hu'.receiveLoop hl
  have hd'' : inb.lastDeliveredNonce ≤ r'.lane.lastDeliveredNonce := hun ▸ hl'
  have hc'' : inb.lastConfirmedNonce ≤ r'.lane.lastConfirmedNonce := huc.trans hc'.ge
  refine ⟨r'.lane, { h with
    target := rfl, delivered := hd', confirmedLe := hc'.trans_le huo, receivedLe :=
      h.receivedLe.trans hd''
    confirmed := h.confirmed.append _
    deliveredLe := ?deliveredLe, targetStates := ?targetStates, payloads := ?payloads }⟩
  case deliveredLe =>
    rcases hm' with hm' | ⟨message, hx, hm'⟩
    · rw [hm', hun]
      exact h.deliveredLe
    · obtain ⟨-, hn, hs⟩ := hms message hx
      have hb := (List.getElem?_eq_some_iff.mp hs).1
      rw [h.sent] at hb
      omega
  case targetStates =>
    exact List.forall_mem_cons.mpr ⟨⟨_, rfl, hd'.queue, le_rfl, le_rfl, hd'.attributes⟩,
      fun past hm => (h.targetStates past hm).mono hc'' hd'' _⟩
  case payloads =>
    intro delivery hm
    cases List.mem_append.mp hm
    case inl hm => exact h.payloads delivery hm
    case inr hm =>
      obtain ⟨result, hx, he⟩ := List.mem_filterMap.mp hm
      split_ifs at he
      cases he
      rcases hs' result hx with hx | ⟨message, hx, he⟩
      · simp [hr0] at hx
      · obtain ⟨hp, -, hs⟩ := hms message hx
        rw [he]
        exact ⟨message.payload, hp, hs⟩

variable {source target : Config Payload RelayerId}

theorem step (h : Consistent target.inboundLimits sys out inb)
    (hs : System.Step source target sys sys') :
    ∃ out' inb', Consistent target.inboundLimits sys' out' inb' := by
  cases hs
  case sendMessage hn hs => exact ⟨_, _, h.sendMessage hn hs⟩
  case receiveMessagesProof hp hg hr => exact ⟨_, h.receiveMessagesProof hp hg hr⟩
  case receiveMessagesDeliveryProof hp hg hr =>
    obtain ⟨out', h'⟩ := h.receiveMessagesDeliveryProof hp hg hr
    exact ⟨out', inb, h'⟩

theorem of_reachable (h : System.Reachable source target sys) :
    ∃ out inb, Consistent target.inboundLimits sys out inb := by
  induction h
  case initial => exact ⟨_, _, initial⟩
  case step _ hs hi =>
    obtain ⟨out, inb, hi⟩ := hi
    exact hi.step hs

end Consistent

namespace System

variable [DecidableEq RelayerId]

-- However the calls on the two chains interleave, and whatever past states they prove to each
-- other, the target dispatches the messages once each and in order, the nonces that the two ends
-- know are ordered, and the source accepts a confirmation of any state that the target had.
theorem lane_protocol_safe {source target : Config Payload RelayerId}
    {sys : System Payload RelayerId} (h : Reachable source target sys) :
    ∃ out inb, sys.source.outboundLane = some out ∧ sys.target.inboundLane = some inb ∧
      sys.dispatched.map (·.nonce) = List.range' 1 inb.lastDeliveredNonce ∧
      (∀ delivery ∈ sys.dispatched, ∃ payload, delivery.payload = some payload ∧
        sys.sent[delivery.nonce - 1]? = some payload) ∧
      inb.lastConfirmedNonce ≤ out.latestReceivedNonce ∧
      out.latestReceivedNonce ≤ inb.lastDeliveredNonce ∧
      inb.lastDeliveredNonce ≤ out.latestGeneratedNonce ∧
      ∀ past ∈ sys.targetStates, ∀ data, past.inboundLane = some data →
        ∃ result, OutboundLane.confirmDelivery
          { data := out, messages := sys.source.outboundMessages }
            (UnrewardedRelayersState.ofLaneData data).totalMessages data.lastDeliveredNonce
          data.relayers = .ok result := by
  obtain ⟨out, inb, hc⟩ := Consistent.of_reachable h
  exact ⟨out, inb, hc.source, hc.target, hc.delivered.nonces, hc.payloads, hc.confirmedLe,
    hc.receivedLe, hc.deliveredLe, fun past hp data hd =>
      hc.confirmDelivery_isOk (hc.targetStates past hp) hd _⟩

section StaleProofs

-- Three messages are sent. The relayer 5 brings two of them and the relayer 6 the third, with
-- a proof from before the first confirmation that also has a message which was delivered
-- already. Then the target learns of the confirmation, and the source is shown two states
-- that the target had before.

def sampleConfig : Config Nat Nat where
  maxUnrewardedRelayersInConfirmationTx := 2
  maxUnconfirmedMessagesInConfirmationTx := 3
  maximalIncomingMessageSize := 10
  encodedSize _ := 1
  extraProofSizeBytes _ := 0
  receiveMessagesProofWeight _ _ w := w
  receiveMessagesDeliveryProofWeight _ _ := ⟨1, 1⟩
  payReward relayers _ _ := relayers.length

def sampleDispatch : MessageDispatch Nat Unit where
  isActive := true
  dispatchWeight _ := ⟨1, 1⟩
  dispatch _ := ⟨⟨0, 0⟩, ()⟩

def sourceAt (received generated : Nat) (messages : Std.ExtTreeMap Nat Nat) : Chain Nat Nat where
  outboundLane := some {
    oldestUnprunedNonce := received + 1, latestReceivedNonce := received,
    latestGeneratedNonce := generated, state := .opened }
  outboundMessages := messages

def targetAt (confirmed : Nat) (relayers : List (UnrewardedRelayer Nat)) : Chain Nat Nat where
  inboundLane := some { relayers, lastConfirmedNonce := confirmed, state := .opened }

def sentOne : Chain Nat Nat := sourceAt 0 1 ((∅ : Std.ExtTreeMap Nat Nat).insert 1 7)

def sentTwo : Chain Nat Nat := sourceAt 0 2 (sentOne.outboundMessages.insert 2 8)

def sentThree : Chain Nat Nat := sourceAt 0 3 (sentTwo.outboundMessages.insert 3 9)

def confirmedTwo : Chain Nat Nat := sourceAt 2 3 ((sentThree.outboundMessages.erase 1).erase 2)

def confirmedThree : Chain Nat Nat := sourceAt 3 3 (confirmedTwo.outboundMessages.erase 3)

def deliveredTwo : Chain Nat Nat := targetAt 0 [⟨5, ⟨1, 2⟩⟩]

def deliveredThree : Chain Nat Nat := targetAt 0 [⟨5, ⟨1, 2⟩⟩, ⟨6, ⟨3, 3⟩⟩]

def updated : Chain Nat Nat := targetAt 2 [⟨6, ⟨3, 3⟩⟩]

def proofOf (past : Chain Nat Nat) (noncesStart noncesEnd : Nat) : MessagesProof Nat where
  size := 0
  storage := some ⟨fun nonce => past.outboundMessages[nonce]?, some past.outboundLane, false⟩
  noncesStart
  noncesEnd

theorem proofOf_proves : (proofOf past first last).Proves past := by
  rintro storage ⟨⟩
  exact ⟨fun _ _ h => h, fun _ h => Option.some.inj h⟩

def deliveryProofOf (past : Chain Nat Nat) : MessagesDeliveryProof Nat :=
  ⟨0, past.inboundLane, false⟩

theorem deliveryProofOf_proves : (deliveryProofOf past).Proves past :=
  fun _ h => h

def staleProofs : System Nat Nat where
  source := confirmedThree
  target := updated
  sourceStates := [confirmedThree, confirmedTwo, confirmedTwo, sentThree, sentTwo, sentOne, {}]
  targetStates := [updated, deliveredThree, deliveredTwo, {}]
  sent := [7, 8, 9]
  dispatched := [⟨1, 5, some 7⟩, ⟨2, 5, some 8⟩, ⟨3, 6, some 9⟩]
  confirmations := [([⟨5, ⟨1, 2⟩⟩], ⟨1, 2⟩), ([⟨5, ⟨1, 2⟩⟩, ⟨6, ⟨3, 3⟩⟩], ⟨3, 3⟩)]

theorem staleProofs_reachable : Reachable sampleConfig sampleConfig staleProofs := by
  have hsend₁ : Chain.sendMessage sampleConfig {} 7 = .ok (sentOne, ⟨1, 1⟩) := rfl
  have hsend₂ : sentOne.sendMessage sampleConfig 8 = .ok (sentTwo, ⟨2, 2⟩) := rfl
  have hsend₃ : sentTwo.sendMessage sampleConfig 9 = .ok (sentThree, ⟨3, 3⟩) := rfl
  have hfirst : Chain.receiveMessagesProof sampleConfig sampleDispatch {} 0 5
    (proofOf sentThree 1 2) 2
      ⟨2, 2⟩ = .ok (deliveredTwo, ⟨0, 2, 2,
        [(1, .dispatched ⟨⟨0, 0⟩, ()⟩), (2, .dispatched ⟨⟨0, 0⟩, ()⟩)], ⟨2, 2⟩⟩) := rfl
  have hconfirm : sentThree.receiveMessagesDeliveryProof sampleConfig 6
    (deliveryProofOf deliveredTwo)
      ⟨1, 2, 2, 2⟩ = .ok (confirmedTwo, ⟨some ⟨1, 2⟩, [⟨5, ⟨1, 2⟩⟩], 1, ⟨1, 1⟩⟩) := rfl
  -- The second message is refused, and the third one is dispatched.
  have hstale : deliveredTwo.receiveMessagesProof sampleConfig sampleDispatch 0 6
    (proofOf sentThree 2 3)
      2 ⟨2, 2⟩ = .ok (deliveredThree, ⟨0, 2, 1,
        [(2, .invalidNonce), (3, .dispatched ⟨⟨0, 0⟩, ()⟩)], ⟨1, 1⟩⟩) := rfl
  have hupdate : deliveredThree.receiveMessagesProof sampleConfig sampleDispatch 0 5
      (proofOf confirmedTwo 1 0) 0 ⟨0, 0⟩ = .ok (updated, ⟨0, 0, 0, [], ⟨0, 0⟩⟩) := rfl
  have hagain : confirmedTwo.receiveMessagesDeliveryProof sampleConfig 6
    (deliveryProofOf deliveredTwo)
      ⟨1, 2, 2, 2⟩ = .ok (confirmedTwo, ⟨none, [⟨5, ⟨1, 2⟩⟩], 1, ⟨1, 1⟩⟩) := rfl
  have hlast : confirmedTwo.receiveMessagesDeliveryProof sampleConfig 6
    (deliveryProofOf deliveredThree)
      ⟨2, 2, 3, 3⟩ = .ok (confirmedThree, ⟨some ⟨3, 3⟩, [⟨5, ⟨1, 2⟩⟩, ⟨6, ⟨3, 3⟩⟩], 0, ⟨1, 1⟩⟩) :=
        rfl
  have h₀ : Reachable sampleConfig sampleConfig (initial : System Nat Nat) := .initial
  have h₁ := h₀.step (.sendMessage (by rintro data ⟨⟩; decide) hsend₁)
  have h₂ := h₁.step (.sendMessage (by rintro data ⟨⟩; decide) hsend₂)
  have h₃ := h₂.step (.sendMessage (by rintro data ⟨⟩; decide) hsend₃)
  have h₄ := h₃.step (.receiveMessagesProof mem_cons_self proofOf_proves hfirst)
  have h₅ := h₄.step (.receiveMessagesDeliveryProof mem_cons_self deliveryProofOf_proves hconfirm)
  have h₆ := h₅.step (.receiveMessagesProof (mem_cons_of_mem _ mem_cons_self) proofOf_proves hstale)
  have h₇ := h₆.step (.receiveMessagesProof mem_cons_self proofOf_proves hupdate)
  have h₈ := h₇.step (.receiveMessagesDeliveryProof
    (mem_cons_of_mem _ (mem_cons_of_mem _ mem_cons_self)) deliveryProofOf_proves hagain)
  have h₉ := h₈.step (.receiveMessagesDeliveryProof
    (mem_cons_of_mem _ mem_cons_self) deliveryProofOf_proves hlast)
  exact h₉

theorem lane_protocol_safe_of_stale_proofs :
    Reachable sampleConfig sampleConfig staleProofs ∧
    ∃ out inb, staleProofs.source.outboundLane = some out ∧
      staleProofs.target.inboundLane = some inb ∧
      staleProofs.dispatched.map (·.nonce) = List.range' 1 inb.lastDeliveredNonce ∧
      (∀ delivery ∈ staleProofs.dispatched, ∃ payload, delivery.payload = some payload ∧
        staleProofs.sent[delivery.nonce - 1]? = some payload) ∧
      inb.lastConfirmedNonce ≤ out.latestReceivedNonce ∧
      out.latestReceivedNonce ≤ inb.lastDeliveredNonce ∧
      inb.lastDeliveredNonce ≤ out.latestGeneratedNonce ∧
      ∀ past ∈ [updated, deliveredThree, deliveredTwo], ∀ data, past.inboundLane = some data →
        ∃ result, OutboundLane.confirmDelivery
          { data := out, messages := confirmedThree.outboundMessages }
            (UnrewardedRelayersState.ofLaneData data).totalMessages data.lastDeliveredNonce
          data.relayers = .ok result := by
  obtain ⟨out, inb, hs, ht, hn, hp, h₁, h₂, h₃, hc⟩ := lane_protocol_safe staleProofs_reachable
  refine ⟨staleProofs_reachable, out, inb, hs, ht, hn, hp, h₁, h₂, h₃, fun past hx => hc past ?_⟩
  exact List.mem_append_left [{}] hx

end StaleProofs

end System
end Messages
