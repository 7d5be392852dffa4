import RostroModel.Messages.Lane

namespace Messages

structure Weight where
  refTime : Nat
  proofSize : Nat
  deriving DecidableEq, Repr

namespace Weight

def anyGt (w₁ w₂ : Weight) : Bool :=
  w₁.refTime > w₂.refTime || w₁.proofSize > w₂.proofSize

def min (w₁ w₂ : Weight) : Weight :=
  { refTime := Nat.min w₁.refTime w₂.refTime, proofSize := Nat.min w₁.proofSize w₂.proofSize }

-- Both uses of `-` in the source are on weights of which the second is the smaller one, so that it
-- does not differ from `saturating_sub` there.
def saturatingSub (w₁ w₂ : Weight) : Weight :=
  { refTime := w₁.refTime - w₂.refTime, proofSize := w₁.proofSize - w₂.proofSize }

end Weight

structure Message (Payload : Type) where
  nonce : Nat
  payload : Payload

structure MessageDispatchResult (Result : Type) where
  unspentWeight : Weight
  dispatchLevelResult : Result

-- The runtime's handler of inbound messages, as it answers within one call.
structure MessageDispatch (Payload Result : Type) where
  isActive : Bool
  dispatchWeight : Message Payload → Weight
  dispatch : Message Payload → MessageDispatchResult Result

inductive ReceptionResult (Result : Type)
  | dispatched (result : MessageDispatchResult Result)
  | invalidNonce
  | tooManyUnrewardedRelayers
  | tooManyUnconfirmedMessages

def ReceptionResult.isDispatched {Result : Type} : ReceptionResult Result → Bool
  | .dispatched _ => true
  | _ => false

structure InboundLimits where
  maxUnrewardedRelayerEntries : Nat
  maxUnconfirmedMessages : Nat

namespace InboundLaneData

variable {RelayerId Payload Result : Type}

def receiveStateUpdate (data : InboundLaneData RelayerId) (outboundLaneData : OutboundLaneData) :
    InboundLaneData RelayerId × Option Nat :=
  if outboundLaneData.latestReceivedNonce > data.lastDeliveredNonce then (data, none)
  else if outboundLaneData.latestReceivedNonce ≤ data.lastConfirmedNonce then (data, none)
  else
    let newConfirmedNonce := outboundLaneData.latestReceivedNonce
    let relayers := data.relayers.dropWhile fun entry => entry.messages.last ≤ newConfirmedNonce
    let relayers :=
      match relayers with
      | entry :: rest =>
        if entry.messages.begin ≤ newConfirmedNonce then
          { entry with
            messages.begin := Machine.wrappingAdd 64 newConfirmedNonce 1 } :: rest
        else entry :: rest
      | [] => []
    ({ data with lastConfirmedNonce := newConfirmedNonce, relayers }, some newConfirmedNonce)

variable [DecidableEq RelayerId]

-- Adds a dispatched message to the last entry, if that is an entry of its relayer,
-- and to a new entry otherwise.
def recordDelivery (relayers : List (UnrewardedRelayer RelayerId)) (relayer : RelayerId)
    (nonce : Nat) :
    List (UnrewardedRelayer RelayerId) :=
  match relayers.getLast? with
  | some entry =>
    if entry.relayer = relayer then
      relayers.dropLast ++ [{ entry with messages := entry.messages.noteDispatchedMessage }]
    else relayers ++ [{ relayer, messages := .new nonce }]
  | none => relayers ++ [{ relayer, messages := .new nonce }]

def receiveMessage (limits : InboundLimits) (dispatcher : MessageDispatch Payload Result)
    (data : InboundLaneData RelayerId) (relayerAtBridgedChain : RelayerId)
    (message : Message Payload) :
    InboundLaneData RelayerId × ReceptionResult Result :=
  if some message.nonce ≠ Machine.checkedAdd 64 data.lastDeliveredNonce 1 then (data, .invalidNonce)
  else if data.relayers.length ≥ limits.maxUnrewardedRelayerEntries then
    (data, .tooManyUnrewardedRelayers)
  else if message.nonce - data.lastConfirmedNonce > limits.maxUnconfirmedMessages then
    (data, .tooManyUnconfirmedMessages)
  else
    ({ data with relayers := recordDelivery data.relayers relayerAtBridgedChain message.nonce },
      .dispatched (dispatcher.dispatch message))

end InboundLaneData

section Tiles

variable {RelayerId : Type}

-- The entries are non-empty, each begins where the one before it ended, and together they hold the
-- nonces above `c` up to `d`.
def Tiles : Nat → List (UnrewardedRelayer RelayerId) → Nat → Prop
  | c, [], d => c = d
  | c, entry :: relayers, d =>
    entry.messages.begin = c + 1 ∧ entry.messages.begin ≤ entry.messages.last ∧
      Tiles entry.messages.last relayers d

namespace Tiles

variable {c d m n : Nat} {entry : UnrewardedRelayer RelayerId}
variable {relayers relayers₁ relayers₂ : List (UnrewardedRelayer RelayerId)}

@[simp]
theorem nil_iff : Tiles c ([] : List (UnrewardedRelayer RelayerId)) d ↔ c = d :=
  Iff.rfl

@[simp]
theorem cons_iff : Tiles c (entry :: relayers) d ↔
      entry.messages.begin = c + 1 ∧ entry.messages.begin ≤ entry.messages.last ∧
        Tiles entry.messages.last relayers d :=
  Iff.rfl

theorem append_iff :
    Tiles c (relayers₁ ++ relayers₂) d ↔ ∃ m, Tiles c relayers₁ m ∧ Tiles m relayers₂ d := by
  induction relayers₁ generalizing c
  case nil => simp
  case cons entry l hi => simp [hi, and_assoc]

theorem concat_iff : Tiles c (relayers ++ [entry]) d ↔
      Tiles c relayers (entry.messages.begin - 1) ∧ 0 < entry.messages.begin ∧
        entry.messages.begin ≤ entry.messages.last ∧ entry.messages.last = d := by
  rw [append_iff]
  constructor
  · rintro ⟨m, h, hb, hl, he⟩
    rw [hb]
    exact ⟨h, Nat.succ_pos m, hb ▸ hl, he⟩
  · rintro ⟨h, hb, hl, he⟩
    exact ⟨_, h, by omega, hl, he⟩

variable (h : Tiles c relayers d)
include h

theorem le : c ≤ d := by
  induction relayers generalizing c
  case nil => exact h.le
  case cons entry l hi =>
    obtain ⟨hb, hl, h⟩ := h
    have := hi h
    omega

theorem bounds (hm : entry ∈ relayers) :
    c < entry.messages.begin ∧ entry.messages.begin ≤ entry.messages.last ∧
      entry.messages.last ≤ d := by
  induction relayers generalizing c
  case nil => simp at hm
  case cons head l hi =>
    obtain ⟨hb, hl, h⟩ := h
    cases List.mem_cons.mp hm
    case inl he =>
      subst he
      exact ⟨by omega, hl, h.le⟩
    case inr hm =>
      have := hi h hm
      omega

theorem sum_totalMessages (hm : d ≤ MessageNonce.max) :
    (relayers.map (·.messages.totalMessages)).sum = d - c := by
  induction relayers generalizing c
  case nil =>
    rw [nil_iff] at h
    simp [h]
  case cons entry l hi =>
    obtain ⟨hb, hl, h⟩ := h
    have hd := h.le
    rw [List.map_cons, List.sum_cons, hi h, DeliveredMessages.totalMessages,
      MessageNonce.saturatingLen_of_le hl (by omega) (hd.trans hm)]
    omega

theorem confirm (hc : c < n) (hd : n ≤ d) :
    let dropped := relayers.dropWhile fun entry => entry.messages.last ≤ n
    (dropped = [] ∧ n = d) ∨ ∃ entry rest, dropped = entry :: rest ∧ entry.messages.begin ≤ n + 1 ∧
        n < entry.messages.last ∧ Tiles entry.messages.last rest d := by
  induction relayers generalizing c
  case nil =>
    rw [nil_iff] at h
    omega
  case cons head l hi =>
    obtain ⟨hb, hl, h⟩ := h
    by_cases hn : head.messages.last ≤ n
    case neg =>
      right
      exact ⟨head, l, by simp [hn], by omega, by omega, h⟩
    case pos =>
      simp only [List.dropWhile_cons, hn]
      by_cases he : head.messages.last = n
      case neg => exact hi h (by omega)
      case pos =>
        -- The nonce is the last one of this entry, so that the next one is not cut.
        cases l
        case nil =>
          left
          exact ⟨rfl, by rw [← he]; exact h⟩
        case cons next rest =>
          obtain ⟨hb', hl', h⟩ := h
          right
          exact ⟨next, rest, by simp; omega, by omega, by omega, h⟩

end Tiles
end Tiles

section Queue

variable {RelayerId Payload Result : Type}
variable {limits : InboundLimits} {data : InboundLaneData RelayerId}

-- What holds of the queue of an inbound lane at any time.
structure InboundLaneData.Queue (limits : InboundLimits) (data : InboundLaneData RelayerId) :
    Prop where
  tiles : Tiles data.lastConfirmedNonce data.relayers data.lastDeliveredNonce
  alternate : (data.relayers.map (·.relayer)).IsChain (· ≠ ·)
  entries : data.relayers.length ≤ limits.maxUnrewardedRelayerEntries
  unconfirmed : data.lastDeliveredNonce - data.lastConfirmedNonce ≤ limits.maxUnconfirmedMessages
  representable : data.lastDeliveredNonce ≤ MessageNonce.max

namespace InboundLaneData

theorem lastDeliveredNonce_of_nil (h : data.relayers = []) :
    data.lastDeliveredNonce = data.lastConfirmedNonce := by
  simp [lastDeliveredNonce, h]

theorem lastDeliveredNonce_of_concat {relayers : List (UnrewardedRelayer RelayerId)}
    {entry : UnrewardedRelayer RelayerId} (h : data.relayers = relayers ++ [entry]) :
    data.lastDeliveredNonce = entry.messages.last := by
  simp [lastDeliveredNonce, h]

theorem lastDeliveredNonce_of_tiles {d : Nat} (h : Tiles data.lastConfirmedNonce data.relayers d) :
    data.lastDeliveredNonce = d := by
  cases List.eq_nil_or_concat' data.relayers
  case inl he =>
    rw [he] at h
    rw [lastDeliveredNonce_of_nil he, h]
  case inr he =>
    obtain ⟨relayers, entry, he⟩ := he
    rw [he, Tiles.concat_iff] at h
    rw [lastDeliveredNonce_of_concat he, h.2.2.2]

theorem Queue.initial (state : LaneState) :
    Queue limits ({ state } : InboundLaneData RelayerId) where
  tiles := rfl
  alternate := .nil
  entries := Nat.zero_le _
  unconfirmed := Nat.zero_le _
  representable := Nat.zero_le _

theorem Queue.totalUnrewardedMessages (h : Queue limits data) :
    data.totalUnrewardedMessages = data.lastDeliveredNonce - data.lastConfirmedNonce := by
  have ht := h.tiles
  have hm := h.representable
  rw [InboundLaneData.totalUnrewardedMessages]
  cases hr : data.relayers
  case nil => simp [lastDeliveredNonce_of_nil hr]
  case cons entry l =>
    have hb := ht.bounds (hr ▸ List.mem_cons_self : entry ∈ data.relayers)
    rw [hr] at ht
    have hl : (entry :: l).getLast? = some ((entry :: l).getLast (by simp)) :=
      List.getLast?_eq_some_getLast _
    have hd : data.lastDeliveredNonce = ((entry :: l).getLast (by simp)).messages.last := by
      simp [lastDeliveredNonce, hr, hl]
    simp only [List.head?_cons, hl, ← hd]
    rw [MessageNonce.saturatingLen_of_le (by omega) (by omega) hm, ht.1]
    omega

-- The entries name the relayer of every nonce that they hold.
def Attributes (deliveredBy : Nat → Option RelayerId)
    (relayers : List (UnrewardedRelayer RelayerId)) :
    Prop :=
  ∀ entry ∈ relayers, ∀ nonce, entry.messages.begin ≤ nonce → nonce ≤ entry.messages.last →
    deliveredBy nonce = some entry.relayer

-- The nonces a state update may confirm, and what it leaves of the queue.
theorem Queue.receiveStateUpdate_cases (h : Queue limits data) (outbound : OutboundLaneData) :
    (data.receiveStateUpdate outbound = (data, none) ∧
      (data.lastDeliveredNonce < outbound.latestReceivedNonce ∨
        outbound.latestReceivedNonce ≤ data.lastConfirmedNonce)) ∨
    ∃ relayers, data.receiveStateUpdate outbound =
        ({ data with lastConfirmedNonce := outbound.latestReceivedNonce, relayers },
          some outbound.latestReceivedNonce) ∧
      data.lastConfirmedNonce < outbound.latestReceivedNonce ∧
      outbound.latestReceivedNonce ≤ data.lastDeliveredNonce ∧
      Tiles outbound.latestReceivedNonce relayers data.lastDeliveredNonce ∧
      (relayers.map (·.relayer)) <:+ (data.relayers.map (·.relayer)) ∧
      ∀ deliveredBy, Attributes deliveredBy data.relayers → Attributes deliveredBy relayers := by
  rw [receiveStateUpdate]
  split_ifs with h1 h2
  · exact .inl ⟨rfl, .inl h1⟩
  · exact .inl ⟨rfl, .inr h2⟩
  · right
    have hs := List.dropWhile_suffix (l := data.relayers)
      (fun entry => decide (entry.messages.last ≤ outbound.latestReceivedNonce))
    have hm := h.representable
    rw [MessageNonce.max] at hm
    rcases h.tiles.confirm (Nat.lt_of_not_le h2) (Nat.le_of_not_lt h1) with ⟨hd, he⟩ |
      ⟨entry, rest, hd, hb, hl, ht⟩
    · exact ⟨[], by simp [hd], by omega, by omega, he, List.nil_suffix, by simp [Attributes]⟩
    · have hd' := (h.tiles.bounds (hs.mem (hd ▸ List.mem_cons_self))).2.2
      have hw : Machine.wrappingAdd 64 outbound.latestReceivedNonce 1
          = outbound.latestReceivedNonce + 1 := Machine.wrappingAdd_of_lt (by omega)
      simp only [hd, hw] at hs ⊢
      split_ifs with hc
      · refine ⟨_, rfl, by omega, by omega, ⟨rfl, hl, ht⟩, ?_, fun f ha x hx n hn => ?_⟩
        · simpa using hs.map (·.relayer)
        · cases List.mem_cons.mp hx
          case inl hx =>
            subst hx
            exact ha entry (hs.mem List.mem_cons_self) n (hc.trans (Nat.le_of_succ_le hn))
          case inr hx => exact ha x (hs.mem (List.mem_cons_of_mem _ hx)) n hn
      · exact ⟨_, rfl, by omega, by omega, ⟨by omega, by omega, ht⟩, hs.map _,
          fun f ha x hx => ha x (hs.mem hx)⟩

theorem Queue.receiveStateUpdate (h : Queue limits data) (outbound : OutboundLaneData) :
    Queue limits (data.receiveStateUpdate outbound).1 := by
  rcases h.receiveStateUpdate_cases outbound with ⟨he, -⟩ | ⟨relayers, he, hc, hd, ht, hs, -⟩
  · rw [he]
    exact h
  · rw [he]
    have hl := hs.length_le
    simp only [List.length_map] at hl
    have hn := h.unconfirmed
    have he' : lastDeliveredNonce
        { data with lastConfirmedNonce := outbound.latestReceivedNonce, relayers } =
          data.lastDeliveredNonce :=
      lastDeliveredNonce_of_tiles ht
    constructor
    case tiles => rw [he']; exact ht
    case alternate => exact h.alternate.suffix hs
    case entries => exact hl.trans h.entries
    case unconfirmed =>
      rw [he']
      change data.lastDeliveredNonce - outbound.latestReceivedNonce ≤ _
      omega
    case representable => rw [he']; exact h.representable

section RecordDelivery

variable [DecidableEq RelayerId] {relayers : List (UnrewardedRelayer RelayerId)}
  {relayer : RelayerId}
variable {c d nonce : Nat}

theorem recordDelivery_cases (relayers : List (UnrewardedRelayer RelayerId)) (relayer : RelayerId)
    (nonce : Nat) :
    (∃ l back, relayers = l ++ [back] ∧ back.relayer = relayer ∧
      recordDelivery relayers relayer nonce =
        l ++ [{ back with messages := back.messages.noteDispatchedMessage }]) ∨
    (∀ back ∈ relayers.getLast?, back.relayer ≠ relayer) ∧
      recordDelivery relayers relayer nonce =
        relayers ++ [{ relayer, messages := .new nonce }] := by
  rw [recordDelivery]
  cases List.eq_nil_or_concat' relayers
  case inl he =>
    subst he
    exact .inr ⟨by simp, rfl⟩
  case inr he =>
    obtain ⟨l, back, rfl⟩ := he
    rw [List.getLast?_concat, List.dropLast_concat]
    by_cases hr : back.relayer = relayer
    case pos => exact .inl ⟨l, back, rfl, hr, if_pos hr⟩
    case neg => exact .inr ⟨by simpa using hr, if_neg hr⟩

theorem tiles_recordDelivery (h : Tiles c relayers d) (hm : d + 1 ≤ MessageNonce.max) :
    Tiles c (recordDelivery relayers relayer (d + 1)) (d + 1) := by
  rcases recordDelivery_cases relayers relayer (d + 1) with
    ⟨l, back, rfl, -, he⟩ | ⟨-, he⟩
  all_goals rw [he, Tiles.concat_iff]
  · obtain ⟨ht, hb, hl, rfl⟩ := Tiles.concat_iff.mp h
    have hw := Machine.wrappingAdd_of_lt hm
    have hbegin : back.messages.begin ≤ (back.messages.noteDispatchedMessage).last := by
      rw [DeliveredMessages.noteDispatchedMessage, hw]
      exact Nat.le_succ_of_le hl
    exact ⟨ht, hb, hbegin, hw⟩
  · exact ⟨h, Nat.succ_pos d, le_rfl, rfl⟩

theorem alternate_recordDelivery (h : (relayers.map (·.relayer)).IsChain (· ≠ ·)) :
    ((recordDelivery relayers relayer nonce).map (·.relayer)).IsChain (· ≠ ·) := by
  rcases recordDelivery_cases relayers relayer nonce with
    ⟨l, back, rfl, -, he⟩ | ⟨hb, he⟩
  all_goals rw [he]
  · simpa using h
  · rw [List.map_append, List.isChain_append]
    refine ⟨h, .singleton _, ?_⟩
    simpa using hb

theorem length_recordDelivery_le :
    (recordDelivery relayers relayer nonce).length ≤ relayers.length + 1 := by
  rcases recordDelivery_cases relayers relayer nonce with
    ⟨l, back, rfl, -, he⟩ | ⟨-, he⟩
  all_goals simp [he]

theorem Attributes.recordDelivery {deliveredBy : Nat → Option RelayerId}
    (h : Attributes deliveredBy relayers) (ht : Tiles c relayers d) (hm : d + 1 ≤ MessageNonce.max)
    (hd : deliveredBy (d + 1) = some relayer) :
    Attributes deliveredBy (recordDelivery relayers relayer (d + 1)) := by
  intro entry he n hb hl
  rcases recordDelivery_cases relayers relayer (d + 1) with
    ⟨l, back, rfl, hr, hq⟩ | ⟨-, hq⟩
  all_goals
    rw [hq, List.mem_append, List.mem_singleton] at he
    rcases he with he | rfl
  · exact h entry (List.mem_append_left _ he) n hb hl
  · obtain ⟨-, -, -, rfl⟩ := Tiles.concat_iff.mp ht
    simp only [DeliveredMessages.noteDispatchedMessage, Machine.wrappingAdd_of_lt hm] at hl
    cases Nat.le_succ_iff.mp hl
    case inl hl => exact h back (List.mem_append_right _ List.mem_cons_self) n hb hl
    case inr hl => rw [hl, hd, ← hr]
  · exact h entry he n hb hl
  · rw [le_antisymm hl hb, ← hd]
    rfl

end RecordDelivery

variable [DecidableEq RelayerId]

theorem receiveMessage_cases (limits : InboundLimits) (data : InboundLaneData RelayerId)
    (dispatcher : MessageDispatch Payload Result) (relayer : RelayerId)
    (message : Message Payload) :
    (∃ result, data.receiveMessage limits dispatcher relayer message = (data, result) ∧
      ¬result.isDispatched) ∨
    (data.receiveMessage limits dispatcher relayer message =
        ({ data with
          relayers := recordDelivery data.relayers relayer (data.lastDeliveredNonce + 1) },
          .dispatched (dispatcher.dispatch message)) ∧
      message.nonce = data.lastDeliveredNonce + 1 ∧ data.lastDeliveredNonce + 1 ≤ MessageNonce.max ∧
      data.relayers.length < limits.maxUnrewardedRelayerEntries ∧
      data.lastDeliveredNonce + 1 - data.lastConfirmedNonce ≤ limits.maxUnconfirmedMessages) := by
  rw [receiveMessage]
  split_ifs with h1 h2 h3
  case neg =>
    obtain ⟨hm, hn⟩ := Machine.checkedAdd_eq_some.mp (not_not.mp h1).symm
    rw [← hn] at h3 ⊢
    exact .inr ⟨rfl, rfl, hm, Nat.lt_of_not_le h2, Nat.le_of_not_lt h3⟩
  all_goals exact .inl ⟨_, rfl, by simp [ReceptionResult.isDispatched]⟩

theorem Queue.recordDelivery (h : Queue limits data) (relayer : RelayerId)
    (hm : data.lastDeliveredNonce + 1 ≤ MessageNonce.max)
    (hl : data.relayers.length < limits.maxUnrewardedRelayerEntries)
    (hc : data.lastDeliveredNonce + 1 - data.lastConfirmedNonce ≤ limits.maxUnconfirmedMessages) :
    let data' := { data with
      relayers := recordDelivery data.relayers relayer (data.lastDeliveredNonce + 1) }
    Queue limits data' ∧ data'.lastDeliveredNonce = data.lastDeliveredNonce + 1 := by
  intro data'
  have ht : Tiles data'.lastConfirmedNonce data'.relayers (data.lastDeliveredNonce + 1) :=
    tiles_recordDelivery h.tiles hm
  have hd := lastDeliveredNonce_of_tiles ht
  refine ⟨?_, hd⟩
  constructor
  case tiles => rw [hd]; exact ht
  case alternate => exact alternate_recordDelivery h.alternate
  case entries => exact length_recordDelivery_le.trans hl
  case unconfirmed => rw [hd]; exact hc
  case representable => rw [hd]; exact hm

theorem Queue.receiveMessage (h : Queue limits data) (dispatcher : MessageDispatch Payload Result)
    (relayer : RelayerId) (message : Message Payload) :
    Queue limits (data.receiveMessage limits dispatcher relayer message).1 := by
  rcases receiveMessage_cases limits data dispatcher relayer message with
    ⟨result, he, -⟩ | ⟨he, -, hm, hl, hc⟩
  all_goals rw [he]
  · exact h
  · exact (h.recordDelivery relayer hm hl hc).1

end InboundLaneData

inductive InboundCall (RelayerId Payload Result : Type)
  | receiveStateUpdate (outboundLaneData : OutboundLaneData)
  | receiveMessage (dispatcher : MessageDispatch Payload Result) (relayer : RelayerId)
      (message : Message Payload)

namespace InboundLaneData

variable [DecidableEq RelayerId]

def step (limits : InboundLimits) (data : InboundLaneData RelayerId) :
    InboundCall RelayerId Payload Result → InboundLaneData RelayerId
  | .receiveStateUpdate outboundLaneData => (data.receiveStateUpdate outboundLaneData).1
  | .receiveMessage dispatcher relayer message =>
    (data.receiveMessage limits dispatcher relayer message).1

theorem Queue.step (h : Queue limits data) (call : InboundCall RelayerId Payload Result) :
    Queue limits (data.step limits call) := by
  cases call
  case receiveStateUpdate outbound => exact h.receiveStateUpdate outbound
  case receiveMessage dispatcher relayer message =>
    exact h.receiveMessage dispatcher relayer message

theorem Queue.run (h : Queue limits data) (calls : List (InboundCall RelayerId Payload Result)) :
    Queue limits (calls.foldl (InboundLaneData.step limits) data) := by
  induction calls generalizing data
  case nil => exact h
  case cons call calls hi => exact hi (h.step call)

-- Whatever calls are made, in whatever order, the entries of the queue tile the nonces that are
-- delivered and not confirmed, and respect the limits.
theorem inboundLane_queue_invariant (limits : InboundLimits)
    (calls : List (InboundCall RelayerId Payload Result)) :
    let data := calls.foldl (InboundLaneData.step limits) {}
    Tiles data.lastConfirmedNonce data.relayers data.lastDeliveredNonce ∧
    (data.relayers.map (·.relayer)).IsChain (· ≠ ·) ∧
    data.relayers.length ≤ limits.maxUnrewardedRelayerEntries ∧
    (data.relayers.map (·.messages.totalMessages)).sum ≤ limits.maxUnconfirmedMessages := by
  intro data
  have h : Queue limits data := (Queue.initial .closed).run calls
  refine ⟨h.tiles, h.alternate, h.entries, ?_⟩
  rw [h.tiles.sum_totalMessages h.representable]
  exact h.unconfirmed

end InboundLaneData
end Queue
end Messages
