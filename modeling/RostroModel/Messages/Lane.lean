import RostroModel.Library.Machine
import RostroModel.Library.TreeMap

namespace Messages

open Machine (maxValue saturatingAdd wrappingAdd)

-- Nonces are of type `u64`. They are numbers here, and the operations of the source that depend on
-- their width say so.
namespace MessageNonce

def max : Nat :=
  Machine.maxValue 64

-- The length of an inclusive range of nonces.
def checkedLen (start stop : Nat) : Option Nat :=
  (Machine.checkedSub stop start).bind (Machine.checkedAdd 64 · 1)

def saturatingLen (start stop : Nat) : Nat :=
  match Machine.checkedSub stop start with
  | some len => Machine.saturatingAdd 64 len 1
  | none => 0

theorem saturatingLen_of_lt (h : stop < start) : saturatingLen start stop = 0 := by
  rw [saturatingLen, Machine.checkedSub_of_lt h]

theorem saturatingLen_of_le (h : start ≤ stop) (h0 : 0 < start)
    (hm : stop ≤ max) : saturatingLen start stop = stop + 1 - start := by
  rw [max] at hm
  rw [saturatingLen, Machine.checkedSub_of_le h]
  change saturatingAdd 64 (stop - start) 1 = _
  rw [Machine.saturatingAdd_of_le (by omega)]
  omega

theorem saturatingLen_ne_zero (h : start ≤ stop) : saturatingLen start stop ≠ 0 := by
  rw [saturatingLen, Machine.checkedSub_of_le h]
  change min (stop - start + 1) (maxValue 64) ≠ 0
  have : maxValue 64 = 2 ^ 64 - 1 := rfl
  omega

theorem saturatingAdd_one (h : nonce < max) : saturatingAdd 64 nonce 1 = nonce + 1 :=
  Machine.saturatingAdd_of_le (Nat.succ_le_of_lt h)

theorem wrappingAdd_one (h : nonce < max) : wrappingAdd 64 nonce 1 = nonce + 1 :=
  Machine.wrappingAdd_of_lt (Nat.succ_le_of_lt h)

end MessageNonce

inductive LaneState
  | opened
  | closed
  deriving DecidableEq, Repr

def LaneState.isActive : LaneState → Bool
  | .opened => true
  | .closed => false

-- An inclusive range of nonces.
structure DeliveredMessages where
  begin : Nat
  last : Nat
  deriving DecidableEq, Repr

namespace DeliveredMessages

def new (nonce : Nat) : DeliveredMessages :=
  { begin := nonce, last := nonce }

def totalMessages (messages : DeliveredMessages) : Nat :=
  MessageNonce.saturatingLen messages.begin messages.last

def noteDispatchedMessage (messages : DeliveredMessages) : DeliveredMessages :=
  { messages with last := Machine.wrappingAdd 64 messages.last 1 }

end DeliveredMessages

structure UnrewardedRelayer (RelayerId : Type) where
  relayer : RelayerId
  messages : DeliveredMessages
  deriving DecidableEq, Repr

-- The state of the receiving end of a lane.
structure InboundLaneData (RelayerId : Type) where
  relayers : List (UnrewardedRelayer RelayerId) := []
  lastConfirmedNonce : Nat := 0
  state : LaneState := .closed
  deriving DecidableEq, Repr

namespace InboundLaneData

variable {RelayerId : Type}

def opened : InboundLaneData RelayerId :=
  { state := .opened }

def lastDeliveredNonce (data : InboundLaneData RelayerId) : Nat :=
  (data.relayers.getLast?.map (·.messages.last)).getD data.lastConfirmedNonce

def totalUnrewardedMessages (data : InboundLaneData RelayerId) : Nat :=
  match data.relayers.head?, data.relayers.getLast? with
  | some front, some back => MessageNonce.saturatingLen front.messages.begin back.messages.last
  | _, _ => 0

end InboundLaneData

-- What the relayer of a delivery proof declares about the proven state.
structure UnrewardedRelayersState where
  unrewardedRelayerEntries : Nat
  messagesInOldestEntry : Nat
  totalMessages : Nat
  lastDeliveredNonce : Nat
  deriving DecidableEq, Repr

namespace UnrewardedRelayersState

variable {RelayerId : Type}

def ofLaneData (lane : InboundLaneData RelayerId) : UnrewardedRelayersState where
  unrewardedRelayerEntries := lane.relayers.length
  messagesInOldestEntry := (lane.relayers.head?.map (·.messages.totalMessages)).getD 0
  totalMessages := lane.totalUnrewardedMessages
  lastDeliveredNonce := lane.lastDeliveredNonce

def isValid (state : UnrewardedRelayersState) (lane : InboundLaneData RelayerId) : Bool :=
  state = ofLaneData lane

end UnrewardedRelayersState

-- The state of the sending end of a lane.
structure OutboundLaneData where
  oldestUnprunedNonce : Nat := 1
  latestReceivedNonce : Nat := 0
  latestGeneratedNonce : Nat := 0
  state : LaneState := .closed
  deriving DecidableEq, Repr

namespace OutboundLaneData

def opened : OutboundLaneData :=
  { state := .opened }

def queuedMessages (data : OutboundLaneData) : DeliveredMessages :=
  { begin := Machine.wrappingAdd 64 data.latestReceivedNonce 1, last := data.latestGeneratedNonce }

end OutboundLaneData

-- The number of messages that every relayer has delivered.
abbrev RelayersRewards (AccountId : Type) [LinearOrder AccountId] := Std.ExtTreeMap AccountId Nat

section Rewards

variable {AccountId : Type} [LinearOrder AccountId]

def rewardEntry (receivedRange : DeliveredMessages) (rewards : RelayersRewards AccountId)
    (entry : UnrewardedRelayer AccountId) : RelayersRewards AccountId :=
  let nonceBegin := max entry.messages.begin receivedRange.begin
  let nonceEnd := min entry.messages.last receivedRange.last
  if nonceEnd ≥ nonceBegin then
    rewards.insert entry.relayer
      (Machine.wrappingAdd 64 ((rewards[entry.relayer]?).getD 0)
        (Machine.wrappingAdd 64 (nonceEnd - nonceBegin) 1))
  else rewards

def calcRelayersRewards (messagesRelayers : List (UnrewardedRelayer AccountId))
    (receivedRange : DeliveredMessages) : RelayersRewards AccountId :=
  messagesRelayers.foldl (rewardEntry receivedRange) ∅

end Rewards
end Messages
