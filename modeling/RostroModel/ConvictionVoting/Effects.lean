import RostroModel.ConvictionVoting.Counting

namespace ConvictionVoting

open Std
open Except (bind_eq_ok ensure_eq_ok)

variable {A C P : Type} [DecidableEq A] [DecidableEq C] [LinearOrder P]

-- What a call, a poll or a block can do to the state.
inductive Effect (cfg : Config C) (s : State A C P) : State A C P → Prop
  | vote {who p x tally tally' cl c} :
    s.polls p = .ongoing tally cl → s.votingFor who cl = .casting c →
    Effect cfg s (((s.setPoll p (.ongoing tally' cl)).setVoting who cl
      (.casting { c with votes := c.votes.insert p x })).extendLock cfg who cl x.balance)
  | retract {who p x tally tally' cl k c} :
    s.polls p = .ongoing tally k → s.votingFor who cl = .casting c → c.votes[p]? = some x →
    Effect cfg s ((s.setPoll p (.ongoing tally' k)).setVoting who cl
      (.casting { c with votes := c.votes.erase p }))
  | remove {who p x cl c} :
    s.votingFor who cl = .casting c → c.votes[p]? = some x →
    (∀ e approved k b, s.polls p = .completed e approved →
      x.lockedIf (.status approved) = some (k, b) →
      e + cfg.voteLockingPeriod * k ≤ s.now) →
    Effect cfg s (s.setVoting who cl (.casting { c with votes := c.votes.erase p }))
  | accumulate {who p x cl c e approved k b} :
    s.votingFor who cl = .casting c → c.votes[p]? = some x → s.polls p = .completed e approved →
    x.lockedIf (.status approved) = some (k, b) →
    Effect cfg s (s.setVoting who cl (.casting
      { c with
        votes := c.votes.erase p, prior := c.prior.accumulate (e + cfg.voteLockingPeriod * k) b }))
  | delegate {who cl target conviction balance c} :
    who ≠ target → cl ∈ cfg.classes → s.votingFor who cl = .casting c →
      (∀ q : P, c.votes[q]? = none) →
    Effect cfg s
      (((increaseUpstreamDelegation target cl (conviction.votes balance) s).extendLock cfg who cl
        balance).setVoting who cl
          (.delegating ⟨balance, target, conviction, c.delegations, c.prior⟩))
  | undelegate {who cl d} :
    s.votingFor who cl = .delegating d →
    Effect cfg s
      ((reduceUpstreamDelegation d.target cl (d.conviction.votes d.balance) s).setVoting who cl
      (Voting.setCommon d.delegations
        (d.prior.accumulate (s.now + cfg.voteLockingPeriod * d.conviction.lockPeriods) d.balance)
          default))
  | unlock {cl target} : Effect cfg s (s.updateLock cfg cl target)
  | openPoll {p cl} : Effect cfg s (s.openPoll cfg p cl)
  | closePoll {p status} : (∀ t c, status ≠ .ongoing t c) → Effect cfg s (s.closePoll p status)
  | tick : Effect cfg s { s with now := s.now + 1 }
  | none : Effect cfg s s

section Inversion

variable {cfg : Config C} {s s' : State A C P} {who target : A} {p : P} {cl : C}

theorem tryVote_effect (h : tryVote cfg who p x total s = .ok s') : Effect cfg s s' := by
  obtain ⟨_, _, h⟩ := bind_eq_ok.mp h
  cases hs : s.polls p with
  | none =>
    rw [hs] at h
    cases h
  | completed fin approved =>
    rw [hs] at h
    cases h
  | ongoing tally cl =>
    rw [hs] at h
    dsimp only at h
    cases hv : s.votingFor who cl with
    | delegating d =>
      rw [hv] at h
      cases h
    | casting c =>
      rw [hv] at h
      obtain ⟨t, _, h⟩ := bind_eq_ok.mp h
      obtain rfl := Except.ok.inj h
      exact .vote hs hv

theorem tryRemoveVote_effect (h : tryRemoveVote cfg who p hint scope s = .ok s') :
    Effect cfg s s' := by
  obtain ⟨cl, _, h⟩ := bind_eq_ok.mp h
  cases hv : s.votingFor who cl with
  | delegating d =>
    rw [hv] at h
    obtain rfl := Except.ok.inj h
    exact .none
  | casting c =>
    rw [hv] at h
    obtain ⟨x, hx, h⟩ := bind_eq_ok.mp h
    rw [Except.okOr_eq_ok] at hx
    cases hs : s.polls p with
    | none =>
      rw [hs] at h
      obtain rfl := Except.ok.inj h
      refine .remove hv hx fun e approved k b he => ?_
      rw [hs] at he
      cases he
    | ongoing tally k =>
      rw [hs] at h
      obtain ⟨_, _, h⟩ := bind_eq_ok.mp h
      obtain ⟨t, _, h⟩ := bind_eq_ok.mp h
      obtain rfl := Except.ok.inj h
      exact .retract hs hv hx
    | completed fin approved =>
      rw [hs] at h
      dsimp only at h
      cases hl : x.lockedIf (.status approved) with
      | none =>
        rw [hl] at h
        obtain rfl := Except.ok.inj h
        refine .remove hv hx fun e ap k b he hlk => ?_
        rw [hs] at he
        obtain ⟨rfl, rfl⟩ := PollStatus.completed.inj he
        rw [hl] at hlk
        cases hlk
      | some kb =>
        rw [hl] at h
        dsimp only at h
        split_ifs at h with hlt
        · obtain ⟨_, _, h⟩ := bind_eq_ok.mp h
          obtain rfl := Except.ok.inj h
          exact .accumulate hv hx hs hl
        · obtain rfl := Except.ok.inj h
          refine .remove hv hx fun e ap k' b' he hlk => ?_
          rw [hs] at he
          obtain ⟨rfl, rfl⟩ := PollStatus.completed.inj he
          rw [hl] at hlk
          obtain ⟨rfl, rfl⟩ := Prod.mk.inj (Option.some.inj hlk)
          exact Nat.le_of_not_lt hlt

theorem tryDelegate_effect
    (h : tryDelegate cfg who cl target conviction balance total s = .ok s') : Effect cfg s s' := by
  obtain ⟨_, hne, h⟩ := bind_eq_ok.mp h
  obtain ⟨_, hcl, h⟩ := bind_eq_ok.mp h
  obtain ⟨_, _, h⟩ := bind_eq_ok.mp h
  cases hv : s.votingFor who cl with
  | delegating d =>
    rw [hv] at h
    cases h
  | casting c =>
    rw [hv] at h
    obtain ⟨_, hempty, h⟩ := bind_eq_ok.mp h
    obtain rfl := Except.ok.inj h
    refine .delegate (ensure_eq_ok.mp hne) (ensure_eq_ok.mp hcl) hv fun q => ?_
    rw [ExtTreeMap.isEmpty_iff.mp (ensure_eq_ok.mp hempty)]
    exact ExtTreeMap.getElem?_empty

theorem now_reduceUpstream : (reduceUpstreamDelegation target cl amount s).now = s.now := by
  rw [reduceUpstream_eq, State.redelegate]

theorem tryUndelegate_effect (h : tryUndelegate cfg who cl s = .ok s') : Effect cfg s s' := by
  rw [tryUndelegate] at h
  cases hv : s.votingFor who cl with
  | casting c =>
    rw [hv] at h
    cases h
  | delegating d =>
    rw [hv] at h
    dsimp only at h
    rw [now_reduceUpstream] at h
    obtain rfl := Except.ok.inj h
    exact .undelegate hv

theorem run_effect {op : Op A C P} (h : op.run cfg s = .ok s') : Effect cfg s s' := by
  cases op
  case vote => exact tryVote_effect h
  case delegate => exact tryDelegate_effect h
  case undelegate => exact tryUndelegate_effect h
  case removeVote | removeOtherVote => exact tryRemoveVote_effect h
  all_goals obtain rfl := Except.ok.inj h
  case unlock => exact .unlock
  case openPoll => exact .openPoll
  case completePoll | cancelPoll => exact .closePoll fun t c hc => by cases hc
  case tick => exact .tick

theorem step_effect {op : Op A C P} : Effect cfg s (op.step cfg s) := by
  rw [Op.step]
  cases hr : op.run cfg s with
  | error e => exact .none
  | ok s' => exact run_effect hr

end Inversion

section Frame

omit [DecidableEq C] in
theorem polls_of_shift {f : Tally → Bool → Tally} {votes : ExtTreeMap P AccountVote compare}
    {polls : P → PollStatus C} {p : P} : shiftPolls f votes.toList polls p = polls p ∨
      ∃ t t' k, polls p = .ongoing t k ∧ shiftPolls f votes.toList polls p = .ongoing t' k := by
  cases hv : votes[p]? with
  | none => exact .inl (shiftPolls_none hv)
  | some v =>
    rw [shiftPolls_some hv]
    cases hs : polls p with
    | none => cases v <;> exact .inl rfl
    | completed fin approved => cases v <;> exact .inl rfl
    | ongoing t k =>
      cases v with
      | standard vote balance => exact .inr ⟨t, _, k, rfl, rfl⟩
      | split aye nay => exact .inl rfl
      | splitAbstain aye nay abstain => exact .inl rfl

end Frame

end ConvictionVoting
