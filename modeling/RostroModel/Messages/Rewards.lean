import RostroModel.Messages.Protocol

namespace Messages

variable {Payload RelayerId : Type}

def entryNonces (receivedRange : DeliveredMessages) (entry : UnrewardedRelayer RelayerId) :
    List Nat :=
  DeliveredMessages.nonces
    ⟨max entry.messages.begin receivedRange.begin, min entry.messages.last receivedRange.last⟩

-- The messages of the range for which relayers are rewarded, each with its relayer.
def credits (relayers : List (UnrewardedRelayer RelayerId)) (receivedRange : DeliveredMessages) :
    List (Nat × RelayerId) :=
  relayers.flatMap fun entry => (entryNonces receivedRange entry).map (·, entry.relayer)

section Calc

variable {receivedRange : DeliveredMessages}

theorem length_entryNonces (entry : UnrewardedRelayer RelayerId) :
    (entryNonces receivedRange entry).length =
      min entry.messages.last receivedRange.last +
        1 - max entry.messages.begin receivedRange.begin := by
  simp [entryNonces, DeliveredMessages.nonces]

variable [LinearOrder RelayerId] {rewards : RelayersRewards RelayerId}

theorem countP_credit (entry : UnrewardedRelayer RelayerId) (relayer : RelayerId) :
    ((entryNonces receivedRange entry).map (·, entry.relayer)).countP (·.2 = relayer) =
      if relayer = entry.relayer then (entryNonces receivedRange entry).length else 0 := by
  rw [List.countP_map]
  split_ifs with he
  · rw [List.countP_eq_length]
    simp [he]
  · rw [List.countP_eq_zero]
    simpa using fun _ _ => Ne.symm he

theorem rewardEntry_get (entry : UnrewardedRelayer RelayerId) (relayer : RelayerId)
    (hm : rewards[relayer]?.getD 0 + (entryNonces receivedRange entry).length ≤ MessageNonce.max) :
    (rewardEntry receivedRange rewards entry)[relayer]?.getD 0 = rewards[relayer]?.getD 0 +
        if relayer = entry.relayer then (entryNonces receivedRange entry).length else 0 := by
  rw [length_entryNonces] at *
  simp only [rewardEntry]
  by_cases hn : min entry.messages.last receivedRange.last ≥
      max entry.messages.begin receivedRange.begin
  case neg =>
    split_ifs <;> omega
  case pos =>
    have hw := @Machine.wrappingAdd_of_lt 64
      (min entry.messages.last receivedRange.last - max entry.messages.begin receivedRange.begin) 1
      (by rw [MessageNonce.max] at hm; omega)
    rw [if_pos hn, Std.ExtTreeMap.lookup_insert]
    split_ifs with he
    · subst he
      rw [Option.getD_some, hw, Machine.wrappingAdd_of_lt (by rw [MessageNonce.max] at hm; omega)]
      omega
    · rfl

theorem foldl_rewardEntry_get (relayers : List (UnrewardedRelayer RelayerId)) (relayer : RelayerId)
    (hm : rewards[relayer]?.getD 0 + (credits relayers receivedRange).length ≤ MessageNonce.max) :
    (relayers.foldl (rewardEntry receivedRange) rewards)[relayer]?.getD 0 =
      rewards[relayer]?.getD 0 + (credits relayers receivedRange).countP (·.2 = relayer) := by
  induction relayers generalizing rewards
  case nil => simp [credits]
  case cons entry relayers hi =>
    have hc : credits (entry :: relayers) receivedRange =
        (entryNonces receivedRange entry).map (·, entry.relayer) ++
          credits relayers receivedRange :=
      List.flatMap_cons
    rw [hc, List.length_append, List.length_map] at hm
    have hl : rewards[relayer]?.getD 0 + (entryNonces receivedRange entry).length ≤
        MessageNonce.max := by
      omega
    have hr := rewardEntry_get entry relayer hl
    rw [List.foldl_cons, hi, hc, List.countP_append, countP_credit]
    · omega
    · rw [hr]
      split_ifs <;> omega

theorem calcRelayersRewards_get (relayers : List (UnrewardedRelayer RelayerId))
    (relayer : RelayerId) (hm : (credits relayers receivedRange).length ≤ MessageNonce.max) :
    (calcRelayersRewards relayers receivedRange)[relayer]?.getD 0 =
      (credits relayers receivedRange).countP (·.2 = relayer) := by
  rw [calcRelayersRewards, foldl_rewardEntry_get relayers relayer (by simpa using hm)]
  simp

end Calc

section Attribution

variable {f : Nat → Option RelayerId} {c d n : Nat} {relayers : List (UnrewardedRelayer RelayerId)}

-- The nonces above `a` up to `b`, each with what `f` says of it.
def segment (f : Nat → Option RelayerId) (a b : Nat) : List (Nat × Option RelayerId) :=
  (List.range' (a + 1) (b - a)).map fun nonce => (nonce, f nonce)

theorem segment_append (h1 : a ≤ b) (h2 : b ≤ d) :
    segment f a b ++ segment f b d = segment f a d := by
  have hs : b + 1 = a + 1 + (b - a) := by omega
  rw [segment, segment, ← List.map_append, hs, List.range'_append_1]
  congr 2
  omega

theorem segment_eq_nil (h : b ≤ a) : segment f a b = [] := by
  simp [segment, Nat.sub_eq_zero_of_le h]

-- The entries of a queue credit the messages above `n` to those who brought them.
theorem credits_of_tiles (h : Tiles c relayers d) (ha : InboundLaneData.Attributes f relayers)
    (hl : d ≤ last) :
    (credits relayers ⟨n + 1, last⟩).map (fun credit => (credit.1, some credit.2)) =
      segment f (max c n) d := by
  induction relayers generalizing c
  case nil =>
    rw [Tiles.nil_iff] at h
    rw [segment_eq_nil (by omega)]
    rfl
  case cons entry relayers hi =>
    obtain ⟨hb, hl', h⟩ := h
    have hd := h.le
    have he : ((entryNonces ⟨n + 1, last⟩ entry).map (·, entry.relayer)).map
        (fun credit => (credit.1, some credit.2)) = segment f (max c n) entry.messages.last := by
      have hs : max entry.messages.begin (n + 1) = max c n + 1 := by omega
      have hm : min entry.messages.last last = entry.messages.last := by omega
      rw [List.map_map, entryNonces, DeliveredMessages.nonces, hs, hm, Nat.succ_sub_succ]
      refine List.map_congr_left fun nonce hn => ?_
      simp only [List.mem_range'_1] at hn
      rw [ha entry List.mem_cons_self nonce (by omega) (by omega)]
      rfl
    have hr := hi h (fun entry he => ha entry (List.mem_cons_of_mem _ he))
    rw [credits, List.flatMap_cons, List.map_append, he]
    refine (congrArg _ hr).trans ?_
    by_cases hn : n ≤ entry.messages.last
    case pos => rw [max_eq_left hn, segment_append (by omega) hd]
    case neg =>
      have hm : max entry.messages.last n = max c n := by omega
      rw [segment_eq_nil (by omega), List.nil_append, hm]

end Attribution

variable {dispatched : List (Delivery Payload RelayerId)} {n : Nat}
variable {confirmations : List (List (UnrewardedRelayer RelayerId) × DeliveredMessages)}

def allCredits (confirmations : List (List (UnrewardedRelayer RelayerId) × DeliveredMessages)) :
    List (Nat × RelayerId) :=
  confirmations.flatMap fun confirmation => credits confirmation.1 confirmation.2

theorem Confirmed.allCredits (h : Confirmed dispatched confirmations n) :
    (allCredits confirmations).map (fun credit => (credit.1, some credit.2)) =
      segment (deliveredBy dispatched) 0 n := by
  induction h
  case nil => rfl
  case concat n c d relayers _ hd hc hm ht ha hi =>
    rw [Messages.allCredits, List.flatMap_append, List.map_append]
    refine (congrArg (· ++ _) hi).trans ?_
    rw [List.flatMap_singleton, credits_of_tiles ht ha le_rfl, max_eq_right hc,
      segment_append (Nat.zero_le _) hd.le]

variable [LinearOrder RelayerId]

theorem Confirmed.rewards (h : Confirmed dispatched confirmations n) :
    ∀ confirmation ∈ confirmations, ∀ relayer : RelayerId,
      (calcRelayersRewards confirmation.1 confirmation.2)[relayer]?.getD 0 =
        (credits confirmation.1 confirmation.2).countP (·.2 = relayer) := by
  induction h
  case nil => simp
  case concat n c d relayers _ hd hc hm ht ha hi =>
    intro confirmation hx relayer
    cases List.mem_append.mp hx
    case inl hx => exact hi confirmation hx relayer
    case inr hx =>
      cases List.mem_singleton.mp hx
      apply calcRelayersRewards_get
      change (credits relayers ⟨n + 1, d⟩).length ≤ _
      have hl := congrArg List.length (credits_of_tiles (n := n) ht ha le_rfl)
      simp only [List.length_map, segment, List.length_range'] at hl
      omega

theorem Confirmed.sum_rewards (h : Confirmed dispatched confirmations n) (relayer : RelayerId) :
    (confirmations.map fun confirmation =>
      (calcRelayersRewards confirmation.1 confirmation.2)[relayer]?.getD 0).sum =
        (List.range' 1 n).countP fun nonce => deliveredBy dispatched nonce = some relayer := by
  have hc := congrArg (List.countP fun credit => credit.2 = some relayer) h.allCredits
  rw [segment] at hc
  calc (confirmations.map fun confirmation =>
        (calcRelayersRewards confirmation.1 confirmation.2)[relayer]?.getD 0).sum
      = (confirmations.map fun confirmation =>
          (credits confirmation.1 confirmation.2).countP (·.2 = relayer)).sum := by
        rw [List.map_congr_left fun confirmation hx => h.rewards confirmation hx relayer]
    _ = (Messages.allCredits confirmations).countP (·.2 = relayer) := by
        rw [Messages.allCredits, List.countP_flatMap]
        rfl
    _ = (List.range' 1 n).countP fun nonce => deliveredBy dispatched nonce = some relayer := by
        simpa [Function.comp_def] using hc

namespace System

-- The rewards for all accepted confirmations together credit every message up to the latest
-- received one, in order and once, to the relayer that brought it, and no other message.
theorem relayers_rewards_exact {source target : Config Payload RelayerId}
    {sys : System Payload RelayerId} (h : Reachable source target sys) :
    ∃ out, sys.source.outboundLane = some out ∧
      (allCredits sys.confirmations).map (fun credit => (credit.1, some credit.2)) =
        (List.range' 1 out.latestReceivedNonce).map
          (fun nonce => (nonce, deliveredBy sys.dispatched nonce)) ∧
      (∀ confirmation ∈ sys.confirmations, ∀ relayer : RelayerId,
        (calcRelayersRewards confirmation.1 confirmation.2)[relayer]?.getD 0 =
          (credits confirmation.1 confirmation.2).countP (·.2 = relayer)) ∧
      ∀ relayer : RelayerId,
        (sys.confirmations.map fun confirmation =>
          (calcRelayersRewards confirmation.1 confirmation.2)[relayer]?.getD 0).sum =
            (List.range' 1 out.latestReceivedNonce).countP
              fun nonce => deliveredBy sys.dispatched nonce = some relayer := by
  obtain ⟨out, inb, hc⟩ := Consistent.of_reachable h
  exact ⟨out, hc.source, hc.confirmed.allCredits, hc.confirmed.rewards, hc.confirmed.sum_rewards⟩

theorem relayers_rewards_exact_of_stale_proofs :
    Reachable sampleConfig sampleConfig staleProofs ∧
    (allCredits staleProofs.confirmations).map (fun credit => (credit.1, some credit.2)) =
      [(1, some 5), (2, some 5), (3, some 6)] ∧
    ∀ relayer : Nat, (staleProofs.confirmations.map fun confirmation =>
      (calcRelayersRewards confirmation.1 confirmation.2)[relayer]?.getD 0).sum =
        [5, 5, 6].count relayer := by
  obtain ⟨out, hs, hc, -, hr⟩ := relayers_rewards_exact staleProofs_reachable
  obtain rfl := Option.some.inj hs
  refine ⟨staleProofs_reachable, hc, fun relayer => (hr relayer).trans ?_⟩
  have hd : (List.range' 1 3).map (deliveredBy staleProofs.dispatched) = [some 5, some 5, some 6] :=
    rfl
  calc (List.range' 1 3).countP (fun nonce =>
    deliveredBy staleProofs.dispatched nonce = some relayer)
      = ([some 5, some 5, some 6] : List (Option Nat)).countP (· = some relayer) := by
        rw [← hd, List.countP_map]
        rfl
    _ = [5, 5, 6].count relayer := by simp [List.count, List.countP_cons]

end System
end Messages
