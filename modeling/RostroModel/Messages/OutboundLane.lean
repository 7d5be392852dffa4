import RostroModel.Library.Except
import RostroModel.Messages.InboundLane

namespace Messages

variable {Payload RelayerId : Type}

-- The state of the sending end of a lane, with the messages that are stored for it.
structure OutboundLane (Payload : Type) where
  data : OutboundLaneData
  messages : Std.ExtTreeMap Nat Payload := ∅

inductive ReceptionConfirmationError
  | failedToConfirmFutureMessages
  | emptyUnrewardedRelayerEntry
  | nonConsecutiveUnrewardedRelayerEntries
  | tryingToConfirmMoreMessagesThanExpected
  deriving DecidableEq, Repr

-- The loop over the entries, with the nonce at which the next one has to begin.
def ensureEntriesFrom (latestReceivedNonce : Nat) :
    Option Nat → List (UnrewardedRelayer RelayerId) → Except ReceptionConfirmationError Unit
  | _, [] => .ok ()
  | expected, entry :: relayers =>
    if entry.messages.last < entry.messages.begin then .error .emptyUnrewardedRelayerEntry
    else if expected ≠ some entry.messages.begin then .error .nonConsecutiveUnrewardedRelayerEntries
    else if entry.messages.last > latestReceivedNonce then .error .failedToConfirmFutureMessages
    else ensureEntriesFrom latestReceivedNonce
      (Machine.checkedAdd 64 entry.messages.last 1) relayers

def ensureUnrewardedRelayersAreCorrect (latestReceivedNonce : Nat)
    (relayers : List (UnrewardedRelayer RelayerId)) : Except ReceptionConfirmationError Unit :=
  ensureEntriesFrom latestReceivedNonce (relayers.head?.map (·.messages.begin)) relayers

def DeliveredMessages.nonces (messages : DeliveredMessages) : List Nat :=
  List.range' messages.begin (messages.last + 1 - messages.begin)

namespace OutboundLane

def queuedMessages (lane : OutboundLane Payload) : DeliveredMessages :=
  { begin := lane.data.oldestUnprunedNonce, last := lane.data.latestGeneratedNonce }

def sendMessage (lane : OutboundLane Payload) (messagePayload : Payload) :
    OutboundLane Payload × Nat :=
  let nonce := Machine.wrappingAdd 64 lane.data.latestGeneratedNonce 1
  ({ data := { lane.data with latestGeneratedNonce := nonce },
     messages := lane.messages.insert nonce messagePayload }, nonce)

def confirmDelivery (lane : OutboundLane Payload) (maxAllowedMessages latestDeliveredNonce : Nat)
    (relayers : List (UnrewardedRelayer RelayerId)) :
    Except ReceptionConfirmationError (OutboundLane Payload × Option DeliveredMessages) :=
  let confirmedMessages : DeliveredMessages :=
    { begin := Machine.saturatingAdd 64 lane.data.latestReceivedNonce 1,
      last := latestDeliveredNonce }
  if confirmedMessages.totalMessages = 0 then .ok (lane, none)
  else if confirmedMessages.last > lane.data.latestGeneratedNonce then
    .error .failedToConfirmFutureMessages
  else if confirmedMessages.totalMessages > maxAllowedMessages then
    .error .tryingToConfirmMoreMessagesThanExpected
  else do
    ensureUnrewardedRelayersAreCorrect confirmedMessages.last relayers
    let data := { lane.data with
      latestReceivedNonce := confirmedMessages.last,
      oldestUnprunedNonce := Machine.saturatingAdd 64 confirmedMessages.last 1 }
    let messages := confirmedMessages.nonces.foldl (·.erase ·) lane.messages
    return ({ data, messages }, some confirmedMessages)

def removeOldestUnprunedMessage (lane : OutboundLane Payload) : OutboundLane Payload :=
  { data := { lane.data with
      oldestUnprunedNonce := Machine.wrappingAdd 64 lane.data.oldestUnprunedNonce 1 },
    messages := lane.messages.erase lane.data.oldestUnprunedNonce }

-- The loop that closes a bridge: for each of the messages that were queued, until as many are
-- pruned as the caller allows.
def pruneLoop (mayPruneMessages : Nat) : List Nat → Nat → OutboundLane Payload →
    OutboundLane Payload × Nat
  | [], prunedMessages, lane => (lane, prunedMessages)
  | _ :: queue, prunedMessages, lane =>
    if prunedMessages = mayPruneMessages then (lane, prunedMessages)
    else pruneLoop mayPruneMessages queue (prunedMessages + 1) lane.removeOldestUnprunedMessage

def pruneQueued (lane : OutboundLane Payload) (mayPruneMessages : Nat) :
    OutboundLane Payload × Nat :=
  pruneLoop mayPruneMessages lane.queuedMessages.nonces 0 lane

end OutboundLane

section Confirmation

variable {c d n : Nat} {relayers : List (UnrewardedRelayer RelayerId)}

theorem DeliveredMessages.mem_nonces {messages : DeliveredMessages} :
    n ∈ messages.nonces ↔ messages.begin ≤ n ∧ n ≤ messages.last := by
  rw [nonces, List.mem_range'_1]
  omega

theorem ensureEntriesFrom_of_tiles (h : Tiles c relayers d) (hm : d < MessageNonce.max)
    (he : ∀ entry ∈ relayers.head?, expected = some entry.messages.begin) :
    ensureEntriesFrom d expected relayers = .ok () := by
  induction relayers generalizing c expected
  case nil => rfl
  case cons entry l hi =>
    obtain ⟨hb, hl, h⟩ := h
    have hd := h.le
    rw [ensureEntriesFrom, if_neg (by omega), if_neg (by simpa using he entry rfl),
      if_neg (by omega)]
    refine hi h fun next hn => ?_
    cases l
    case nil => simp at hn
    case cons next' l =>
      cases Option.some.inj hn
      rw [h.1, Machine.checkedAdd, if_pos]
      exact Nat.succ_le_of_lt (Nat.lt_of_le_of_lt hd hm)

-- The entries of a queue that tiles the nonces up to `d` pass the check for `d`.
theorem ensureUnrewardedRelayersAreCorrect_of_tiles (h : Tiles c relayers d)
    (hm : d < MessageNonce.max) :
    ensureUnrewardedRelayersAreCorrect d relayers = .ok () :=
  ensureEntriesFrom_of_tiles h hm fun entry he => by rw [he]; rfl

end Confirmation

namespace OutboundLane

variable {lane lane' : OutboundLane Payload} {relayers : List (UnrewardedRelayer RelayerId)}
variable {maxAllowedMessages delivered n : Nat} {confirmed : Option DeliveredMessages}

-- The nonces of the lane are below the last one of their type, at which the source stops counting.
structure Fits (lane : OutboundLane Payload) : Prop where
  received : lane.data.latestReceivedNonce < MessageNonce.max
  generated : lane.data.latestGeneratedNonce < MessageNonce.max

-- The lane after the messages up to `delivered` are confirmed.
def confirmedUpTo (lane : OutboundLane Payload) (delivered : Nat) : OutboundLane Payload where
  data := { lane.data with
    latestReceivedNonce := delivered, oldestUnprunedNonce := delivered + 1 }
  messages :=
    (DeliveredMessages.mk (lane.data.latestReceivedNonce + 1) delivered).nonces.foldl (·.erase ·)
      lane.messages

theorem lookup_confirmedUpTo : (lane.confirmedUpTo delivered).messages[n]? =
      if lane.data.latestReceivedNonce < n ∧ n ≤ delivered then none else lane.messages[n]? := by
  rw [confirmedUpTo, Std.ExtTreeMap.lookup_foldl_erase]
  simp only [DeliveredMessages.mem_nonces, Nat.succ_le_iff]

theorem confirmDelivery_of_le (h : lane.Fits) (hd : delivered ≤ lane.data.latestReceivedNonce) :
    lane.confirmDelivery maxAllowedMessages delivered relayers = .ok (lane, none) := by
  have hs := MessageNonce.saturatingAdd_one h.received
  rw [confirmDelivery, if_pos]
  exact MessageNonce.saturatingLen_of_lt (hs ▸ Nat.lt_succ_of_le hd)

theorem confirmDelivery_of_lt (h : lane.Fits) (hd : lane.data.latestReceivedNonce < delivered)
    (hg : delivered ≤ lane.data.latestGeneratedNonce) :
    lane.confirmDelivery maxAllowedMessages delivered relayers =
      if delivered - lane.data.latestReceivedNonce > maxAllowedMessages then
        .error .tryingToConfirmMoreMessagesThanExpected
      else (ensureUnrewardedRelayersAreCorrect delivered relayers).map fun _ =>
        (lane.confirmedUpTo delivered, some ⟨lane.data.latestReceivedNonce + 1, delivered⟩) := by
  have hs := MessageNonce.saturatingAdd_one h.received
  have hs' := MessageNonce.saturatingAdd_one (Nat.lt_of_le_of_lt hg h.generated)
  have ht : DeliveredMessages.totalMessages ⟨lane.data.latestReceivedNonce + 1, delivered⟩ =
      delivered - lane.data.latestReceivedNonce := by
    rw [DeliveredMessages.totalMessages, MessageNonce.saturatingLen_of_le hd (Nat.succ_pos _)
      (hg.trans h.generated.le)]
    omega
  simp only [confirmDelivery, hs, hs', ht]
  rw [if_neg (by omega), if_neg (by simpa using hg)]
  split_ifs
  · rfl
  · cases ensureUnrewardedRelayersAreCorrect delivered relayers <;> rfl

theorem confirmDelivery_eq_ok (h : lane.Fits)
    (hc : lane.confirmDelivery maxAllowedMessages delivered relayers = .ok (lane', confirmed)) :
    (delivered ≤ lane.data.latestReceivedNonce ∧ lane' = lane ∧ confirmed = none) ∨
    (lane.data.latestReceivedNonce < delivered ∧ delivered ≤ lane.data.latestGeneratedNonce ∧
      lane' = lane.confirmedUpTo delivered ∧
      confirmed = some ⟨lane.data.latestReceivedNonce + 1, delivered⟩) := by
  cases Nat.lt_or_ge lane.data.latestReceivedNonce delivered
  case inr hd =>
    rw [confirmDelivery_of_le h hd] at hc
    cases hc
    exact .inl ⟨hd, rfl, rfl⟩
  case inl hd =>
    cases Nat.lt_or_ge lane.data.latestGeneratedNonce delivered
    case inl hg =>
      have hs := MessageNonce.saturatingAdd_one h.received
      have ht : ¬DeliveredMessages.totalMessages
          ⟨Machine.saturatingAdd 64 lane.data.latestReceivedNonce 1, delivered⟩ = 0 :=
        MessageNonce.saturatingLen_ne_zero (hs ▸ hd)
      rw [confirmDelivery, if_neg ht, if_pos hg] at hc
      cases hc
    case inr hg =>
      rw [confirmDelivery_of_lt h hd hg] at hc
      split_ifs at hc
      cases he : ensureUnrewardedRelayersAreCorrect delivered relayers
      all_goals rw [he] at hc; cases hc
      exact .inr ⟨hd, hg, rfl, rfl⟩

-- The stored messages are those that are not pruned.
def Exact (lane : OutboundLane Payload) : Prop :=
  ∀ n : Nat, lane.messages[n]?.isSome ↔
    lane.data.oldestUnprunedNonce ≤ n ∧ n ≤ lane.data.latestGeneratedNonce

-- What holds of the storage of a lane as long as pruning and confirming do not meet.
structure Stored (lane : OutboundLane Payload) : Prop where
  exact : lane.Exact
  received : lane.data.latestReceivedNonce < lane.data.oldestUnprunedNonce
  oldest : lane.data.oldestUnprunedNonce ≤ lane.data.latestGeneratedNonce + 1
  last : lane.data.latestGeneratedNonce < MessageNonce.max

variable (h : lane.Stored)
include h

theorem Stored.fits : lane.Fits where
  received := by have := h.received; have := h.oldest; have := h.last; omega
  generated := h.last

theorem Stored.sendMessage (hn : lane.data.latestGeneratedNonce + 1 < MessageNonce.max)
    (payload : Payload) : (lane.sendMessage payload).1.Stored := by
  have hw := MessageNonce.wrappingAdd_one h.last
  have ho := h.oldest
  constructor
  case exact =>
    intro n
    simp only [OutboundLane.sendMessage, hw, Std.ExtTreeMap.lookup_insert]
    split_ifs with he
    · simp [he, ho]
    · rw [h.exact n]
      omega
  case received => exact h.received
  case oldest => simp only [OutboundLane.sendMessage]; omega
  case last => simp only [OutboundLane.sendMessage, hw]; exact hn

theorem Stored.confirmedUpTo (hd : lane.data.oldestUnprunedNonce ≤ delivered + 1)
    (hg : delivered ≤ lane.data.latestGeneratedNonce) : (lane.confirmedUpTo delivered).Stored := by
  have hr := h.received
  constructor
  case exact =>
    intro n
    rw [lookup_confirmedUpTo]
    change _ ↔ delivered + 1 ≤ n ∧ n ≤ lane.data.latestGeneratedNonce
    split_ifs with hn
    · simp
      omega
    · rw [h.exact n]
      omega
  case received => exact Nat.lt_succ_self delivered
  case oldest => exact Nat.succ_le_succ hg
  case last => exact h.last

theorem Stored.removeOldestUnprunedMessage
    (hq : lane.data.oldestUnprunedNonce ≤ lane.data.latestGeneratedNonce) :
    lane.removeOldestUnprunedMessage.Stored ∧ lane.removeOldestUnprunedMessage.data =
        { lane.data with oldestUnprunedNonce := lane.data.oldestUnprunedNonce + 1 } := by
  have hw := MessageNonce.wrappingAdd_one (Nat.lt_of_le_of_lt hq h.last)
  have hr := h.received
  refine ⟨?_, by simp only [OutboundLane.removeOldestUnprunedMessage, hw]⟩
  constructor
  all_goals simp only [OutboundLane.removeOldestUnprunedMessage, hw]
  case exact =>
    intro n
    simp only [Std.ExtTreeMap.lookup_erase]
    split_ifs with he
    · simp [he]
    · rw [h.exact n]
      omega
  case received => omega
  case oldest => omega
  case last => exact h.last

-- Every turn of the loop finds a message to prune, since there are no more turns than messages.
theorem Stored.pruneLoop (mayPrune : Nat) (queue : List Nat) (pruned : Nat)
    (hq : queue.length + lane.data.oldestUnprunedNonce ≤ lane.data.latestGeneratedNonce + 1) :
    (pruneLoop mayPrune queue pruned lane).1.Stored ∧
      lane.data.oldestUnprunedNonce ≤
        (pruneLoop mayPrune queue pruned lane).1.data.oldestUnprunedNonce := by
  induction queue generalizing pruned lane
  case nil => exact ⟨h, le_rfl⟩
  case cons _ queue hi =>
    rw [List.length_cons] at hq
    rw [OutboundLane.pruneLoop]
    split_ifs
    · exact ⟨h, le_rfl⟩
    · obtain ⟨hs, hd⟩ := h.removeOldestUnprunedMessage (by omega)
      obtain ⟨hs', ho⟩ := hi hs (pruned + 1) (by rw [hd]; simp only; omega)
      refine ⟨hs', Nat.le_trans ?_ ho⟩
      rw [hd]
      exact Nat.le_succ _

theorem Stored.pruneQueued (mayPrune : Nat) : (lane.pruneQueued mayPrune).1.Stored ∧
      lane.data.oldestUnprunedNonce ≤ (lane.pruneQueued mayPrune).1.data.oldestUnprunedNonce := by
  apply h.pruneLoop
  have := h.oldest
  simp [DeliveredMessages.nonces, queuedMessages]
  omega

end OutboundLane

-- The calls that change what is stored for an outbound lane.
inductive OutboundCall (Payload RelayerId : Type)
  | sendMessage (messagePayload : Payload)
  | confirmDelivery (maxAllowedMessages latestDeliveredNonce : Nat)
      (relayers : List (UnrewardedRelayer RelayerId))
  | pruneQueued (mayPruneMessages : Nat)

namespace OutboundLane

variable {lane : OutboundLane Payload}

-- A confirmation that fails leaves the lane as it is.
def step (lane : OutboundLane Payload) : OutboundCall Payload RelayerId → OutboundLane Payload
  | .sendMessage messagePayload => (lane.sendMessage messagePayload).1
  | .confirmDelivery maxAllowedMessages latestDeliveredNonce relayers =>
    match lane.confirmDelivery maxAllowedMessages latestDeliveredNonce relayers with
    | .ok (lane', _) => lane'
    | .error _ => lane
  | .pruneQueued mayPruneMessages => (lane.pruneQueued mayPruneMessages).1

-- A message is accepted while there is a nonce for it below the last one of the type.
def Accepts (lane : OutboundLane Payload) : OutboundCall Payload RelayerId → Prop
  | .sendMessage _ => lane.data.latestGeneratedNonce + 1 < MessageNonce.max
  | .confirmDelivery maxAllowedMessages latestDeliveredNonce relayers =>
    ∃ result, lane.confirmDelivery maxAllowedMessages latestDeliveredNonce relayers = .ok result
  | .pruneQueued _ => True

-- A confirmation of new messages reaches the last message that is pruned.
def ReachesPruned (lane : OutboundLane Payload) : OutboundCall Payload RelayerId → Prop
  | .confirmDelivery _ latestDeliveredNonce _ =>
    lane.data.latestReceivedNonce < latestDeliveredNonce →
      lane.data.oldestUnprunedNonce ≤ latestDeliveredNonce + 1
  | _ => True

-- The lanes that accepted calls lead to when all confirmations reach what is pruned.
inductive Reachable (RelayerId : Type) : OutboundLane Payload → Prop
  | opened : Reachable RelayerId { data := .opened }
  | step {lane : OutboundLane Payload} {call : OutboundCall Payload RelayerId} :
    Reachable RelayerId lane → lane.Accepts call → lane.ReachesPruned call →
      Reachable RelayerId (lane.step call)

theorem Stored.initial : ({ data := .opened } : OutboundLane Payload).Stored where
  exact n := by simp [OutboundLaneData.opened]; omega
  received := Nat.zero_lt_one
  oldest := le_rfl
  last := (by decide : 0 < MessageNonce.max)

theorem step_confirmDelivery (h : lane.Fits) {maxAllowed delivered : Nat}
    {relayers : List (UnrewardedRelayer RelayerId)}
    (ha : lane.Accepts (.confirmDelivery maxAllowed delivered relayers)) :
    (delivered ≤ lane.data.latestReceivedNonce ∧
      lane.step (.confirmDelivery maxAllowed delivered relayers) = lane) ∨
    (lane.data.latestReceivedNonce < delivered ∧ delivered ≤ lane.data.latestGeneratedNonce ∧
      lane.step (.confirmDelivery maxAllowed delivered relayers) =
        lane.confirmedUpTo delivered) := by
  obtain ⟨⟨lane', confirmed⟩, hc⟩ := ha
  simp only [step, hc]
  rcases confirmDelivery_eq_ok h hc with ⟨hd, he, -⟩ | ⟨hd, hg, he, -⟩
  · exact .inl ⟨hd, he⟩
  · exact .inr ⟨hd, hg, he⟩

theorem Stored.step (h : lane.Stored) (ha : lane.Accepts call) (hr : lane.ReachesPruned call) :
    (lane.step call).Stored ∧ lane.data.oldestUnprunedNonce ≤
      (lane.step call).data.oldestUnprunedNonce := by
  cases call
  case sendMessage payload => exact ⟨h.sendMessage ha payload, le_rfl⟩
  case pruneQueued mayPrune => exact h.pruneQueued mayPrune
  case confirmDelivery maxAllowed delivered relayers =>
    rcases step_confirmDelivery h.fits ha with ⟨-, he⟩ | ⟨hd, hg, he⟩
    all_goals rw [he]
    · exact ⟨h, le_rfl⟩
    · exact ⟨h.confirmedUpTo (hr hd) hg, hr hd⟩

theorem Stored.reachesPruned (h : lane.Stored) (ha : lane.Accepts call)
    (ho : lane.data.oldestUnprunedNonce ≤ (lane.step call).data.oldestUnprunedNonce) :
    lane.ReachesPruned call := by
  cases call
  case sendMessage payload => trivial
  case pruneQueued mayPrune => trivial
  case confirmDelivery maxAllowed delivered relayers =>
    intro hd
    rcases step_confirmDelivery h.fits ha with ⟨hd', -⟩ | ⟨-, -, he⟩
    · omega
    · rw [he] at ho
      exact ho

theorem Reachable.stored (h : Reachable RelayerId lane) : lane.Stored := by
  induction h
  case opened => exact Stored.initial
  case step _ ha hr hi => exact (hi.step ha hr).1

-- The storage of a lane is exact and its oldest nonce does not move back as long as confirmations
-- reach what is pruned, and no longer than that.
theorem outboundLane_exact_iff (h : Reachable RelayerId lane) :
    lane.Exact ∧ ∀ call : OutboundCall Payload RelayerId, lane.Accepts call →
      (((lane.step call).Exact ∧
        lane.data.oldestUnprunedNonce ≤ (lane.step call).data.oldestUnprunedNonce) ↔
          lane.ReachesPruned call) := by
  refine ⟨h.stored.exact, fun call ha => ⟨fun hs => h.stored.reachesPruned ha hs.2, fun hr => ?_⟩⟩
  obtain ⟨hs, ho⟩ := h.stored.step ha hr
  exact ⟨hs.exact, ho⟩

-- A lane with three messages, of which closing its bridge has pruned two.
def closingLane : OutboundLane Nat :=
  let calls : List (OutboundCall Nat Nat) :=
    [.sendMessage 7, .sendMessage 8, .sendMessage 9, .pruneQueued 2]
  calls.foldl step { data := .opened }

theorem closingLane_exact :
    closingLane.Exact ∧ closingLane.Accepts
      (.confirmDelivery 2 2 [⟨5, ⟨1, 2⟩⟩] : OutboundCall Nat Nat) ∧
      (closingLane.step (.confirmDelivery 2 2 [⟨5, ⟨1, 2⟩⟩] : OutboundCall Nat Nat)).Exact := by
  have hr : Reachable Nat closingLane := by
    simp only [closingLane, List.foldl]
    refine .step (.step (.step (.step .opened ?_ trivial) ?_ trivial) ?_ trivial) trivial trivial
    · exact (by decide : 0 + 1 < MessageNonce.max)
    · exact (by decide : 1 + 1 < MessageNonce.max)
    · exact (by decide : 2 + 1 < MessageNonce.max)
  obtain ⟨he, hs⟩ := outboundLane_exact_iff hr
  have ha : closingLane.Accepts (.confirmDelivery 2 2 [⟨5, ⟨1, 2⟩⟩] : OutboundCall Nat Nat) :=
    ⟨_, rfl⟩
  exact ⟨he, ha, ((hs _ ha).mpr fun _ => by decide).1⟩

-- The bridged chain has received the first message only. When that is confirmed after the first two
-- are pruned, the oldest nonce moves back to the second message, which is not stored.
theorem confirm_behind_pruned_not_exact :
    let call : OutboundCall Nat Nat := .confirmDelivery 1 1 [⟨5, ⟨1, 1⟩⟩]
    closingLane.Accepts call ∧ closingLane.data.oldestUnprunedNonce = 3 ∧
      (closingLane.step call).data.oldestUnprunedNonce = 2 ∧
      (closingLane.step call).messages[2]? = none ∧ ¬(closingLane.step call).Exact := by
  intro call
  have hm : (closingLane.step call).messages[2]? = none := rfl
  refine ⟨⟨_, rfl⟩, rfl, rfl, hm, fun he => ?_⟩
  have hs := (he 2).mpr ⟨by decide, by decide⟩
  cases hs

end OutboundLane
end Messages
