import RostroModel.ConvictionVoting.Tallies

namespace ConvictionVoting

open Std
open Function (update update_of_ne update_self)
open ExtTreeMap (getElem?_empty lookup_erase lookup_erase_ne)

variable {A C P : Type} [DecidableEq A] [DecidableEq C] [LinearOrder P]

section Calls

variable {S : Finset A} {s s' : State A C P} {vf : VotingFor A C P} {polls : P → PollStatus C}
  {opened : List P}
variable {who target : A} {cl : C} {p : P} {v w : Voting A P} {cfg : Config C}

theorem Counted.same (h : Counted S vf polls opened) (hw : who ∈ S)
    (hvotes : v.votes = (vf who cl).votes) (hd : v.delegations = (vf who cl).delegations)
    (hb : ∀ b, delegated b v = delegated b (vf who cl)) :
    Counted S (setFor vf who cl v) polls opened := by
  have hcon : ∀ p, contribution p v = contribution p (vf who cl) := by
    intro p
    rw [contribution, contribution, hvotes, hd]
  have hproj {β : Type} (f : Voting A P → β) (hf : f v = f (vf who cl)) a c :
      f (setFor vf who cl v a c) = f (vf a c) :=
    setFor_cases (Q := fun w => f w = f (vf a c)) (fun ha hc => by rw [hf, ha, hc]) rfl
  have hv : ∀ a c, (setFor vf who cl v a c).votes = (vf a c).votes := hproj Voting.votes hvotes
  refine ⟨fun a ha c => ?_, fun b c => ?_, fun p t c ht => ?_,
    fun a c p x hx => ?_, fun a c p x hx => ?_, h.ongoing⟩
  · rw [setFor_account fun heq : a = who => ha (heq ▸ hw)]
    exact h.outside a ha c
  · rw [sum_setFor_eq (hb b), hproj Voting.delegations hd]
    exact h.delegations b c
  · rw [sum_setFor_eq (hcon p)]
    exact h.tallies p t c ht
  · rw [hv] at hx
    exact h.classes a c p x hx
  · rw [hv] at hx
    exact h.voted a c p x hx

omit [DecidableEq A] in
theorem contribution_default : contribution p (default : Voting A P) = 0 :=
  contribution_none getElem?_empty

-- Nobody outside of the set contributes, so that it can be enlarged.
omit [DecidableEq C] in
theorem Counted.mono (h : Counted S vf polls opened) (hS : S ⊆ S') :
    Counted S' vf polls opened := by
  refine ⟨fun a ha => h.outside a fun hs => ha (hS hs), fun b c => ?_,
    fun p t c ht => ?_, h.classes, h.voted, h.ongoing⟩
  · rw [h.delegations b c]
    apply Finset.sum_subset hS
    intro a _ ha
    rw [h.outside a ha]
    rfl
  · rw [h.tallies p t c ht]
    apply Finset.sum_subset hS
    intro a _ ha
    rw [h.outside a ha]
    exact contribution_default

-- Nobody delegates to themselves.
def Apart (vf : VotingFor A C P) : Prop :=
  ∀ a c d, vf a c = .delegating d → d.target ≠ a

theorem Apart.set (h : Apart vf) (hv : ∀ d, v = .delegating d → d.target ≠ who) :
    Apart (setFor vf who cl v) := by
  intro a c
  refine setFor_cases (Q := fun w => ∀ d, w = .delegating d → d.target ≠ a) (fun ha _ => ?_) (h a c)
  rw [ha]
  exact hv

theorem Apart.cast (h : Apart vf) : Apart (setFor vf who cl (.casting c)) :=
  h.set fun d hd => by cases hd

theorem Apart.setCommon (h : Apart vf) : Apart (setFor vf who cl ((vf who cl).setCommon d l)) := by
  apply h.set
  intro e he
  cases hv : vf who cl with
  | casting c =>
    rw [hv] at he
    cases he
  | delegating b =>
    rw [hv] at he
    obtain rfl := Voting.delegating.inj he
    exact h who cl b hv

-- A call keeps the count, or fails for another reason than an underflow.
def Keeps (S : Finset A) : Except Error (State A C P) → Prop
  | .ok s => Counted S s.votingFor s.polls s.opened ∧ Apart s.votingFor
  | .error e => e ≠ .underflow

omit [DecidableEq C] in
theorem Keeps.bind {α : Type} {x : Except Error α} {f : α → Except Error (State A C P)}
    (he : ∀ e, x = .error e → e ≠ .underflow) (hf : ∀ a, x = .ok a → Keeps S (f a)) :
    Keeps S (x >>= f) := by
  cases x with
  | error e => exact he e rfl
  | ok a => exact hf a rfl

omit [DecidableEq C] in
theorem Keeps.ensure {q : Prop} [Decidable q] {e : Error} {f : Unit → Except Error (State A C P)}
    (he : e ≠ .underflow) (hf : q → Keeps S (f ())) : Keeps S (Except.ensure q e >>= f) := by
  apply Keeps.bind
  · intro e' h
    rw [← (Except.ensure_eq_error.mp h).2]
    exact he
  · intro u h
    exact hf (Except.ensure_eq_ok.mp h)

theorem Keeps.setVoting (h : Counted S (setFor s.votingFor who cl v) s.polls s.opened)
    (ha : Apart s.votingFor) (hv : ∀ d, v = .delegating d → d.target ≠ who) :
    Keeps S (.ok (s.setVoting who cl v)) :=
  ⟨h, ha.set hv⟩

omit [DecidableEq C] in
theorem Counted.tally_eq (h : Counted S vf polls opened) (hw : who ∈ S)
    (hp : polls p = .ongoing t cl) :
    t = contribution p (vf who cl) + rest S vf who cl p :=
  (h.tallies p t cl hp).trans (Finset.add_sum_erase S _ hw).symm

theorem withVote_eq : withVote r x d = following x d + Tally.own x + r := by
  rw [withVote, following, Tally.add_eq]
  cases x.asStandard with
  | none =>
    rw [zero_add]
  | some approve =>
    change (Tally.own x + r).increase approve d = Tally.side approve d + Tally.own x + r
    rw [Tally.increase_eq, add_assoc]

theorem Counted.revote {c new : Casting P} {tally : Tally} (h : Counted S vf polls opened)
    (hw : who ∈ S) (hs : polls p = .ongoing tally cl) (hv : vf who cl = .casting c)
    (hd : new.delegations = c.delegations) (hsame : ∀ q, q ≠ p → new.votes[q]? = c.votes[q]?) :
    Counted S (setFor vf who cl (.casting new))
      (update polls p
        (.ongoing (contribution p (.casting new : Voting A P) + rest S vf who cl p) cl))
          opened := by
  refine h.recast hw hv hd (fun q t k hq => ?_) (fun q y hy => ?_)
  · by_cases hqp : q = p
    · subst hqp
      rw [update_self] at hq
      obtain ⟨rfl, rfl⟩ := PollStatus.ongoing.inj hq
      exact ⟨tally, hs, fun hne => absurd rfl hne, fun _ => rfl⟩
    · rw [update_of_ne hqp] at hq
      refine ⟨t, hq, fun _ => rfl, fun hk => ?_⟩
      subst hk
      have hcon : contribution q (.casting new : Voting A P) = contribution q (vf who k) := by
        rw [hv]
        exact contribution_congr (hsame q hqp) hd
      rw [hcon]
      exact h.tally_eq hw hq
  · by_cases hqp : q = p
    · subst hqp
      refine ⟨h.ongoing q tally cl hs, fun t k hq => ?_⟩
      rw [hs] at hq
      exact (PollStatus.ongoing.inj hq).2.symm
    · rw [hsame q hqp] at hy
      have hvote : (vf who cl).votes[q]? = some y := by
        rw [hv]
        exact hy
      exact ⟨h.voted who cl q y hvote, h.classes who cl q y hvote⟩

theorem Keeps.tryVote (h : Counted S s.votingFor s.polls s.opened) (ha : Apart s.votingFor)
    (hw : who ∈ S) :
    Keeps S (tryVote cfg who p x total s) := by
  refine Keeps.ensure (by decide) fun _ => ?_
  cases hs : s.polls p with
  | none => exact (by decide : Error.notOngoing ≠ .underflow)
  | completed fin approved => exact (by decide : Error.notOngoing ≠ .underflow)
  | ongoing tally cl =>
    dsimp only
    cases hv : s.votingFor who cl with
    | delegating d => exact (by decide : Error.alreadyDelegating ≠ .underflow)
    | casting c =>
      dsimp only
      have hr := h.tally_eq hw hs
      rw [hv] at hr
      rw [hr]
      rcases @tallyBefore_eq A C P _ p c cfg (rest S s.votingFor who cl p) with hok | herr
      · rw [hok, Except.ok_bind, withVote_eq]
        have hins : (c.votes.insert p x)[p]? = some x := by
          rw [ExtTreeMap.lookup_insert, if_pos rfl]
        have hcon : contribution p (.casting { c with votes := c.votes.insert p x } : Voting A P) =
            following x c.delegations + Tally.own x := contribution_some hins
        rw [← hcon]
        exact ⟨h.revote hw hs hv rfl fun q hq => ExtTreeMap.lookup_insert_ne hq, ha.cast⟩
      · rw [herr]
        exact (by decide : Error.maxVotesReached ≠ .underflow)

theorem Counted.forget {c new : Casting P} (h : Counted S vf polls opened) (hw : who ∈ S)
    (hs : ∀ t k, polls p ≠ .ongoing t k) (hv : vf who cl = .casting c)
    (hd : new.delegations = c.delegations) (hvotes : new.votes = c.votes.erase p) :
    Counted S (setFor vf who cl (.casting new)) polls opened := by
  have hsame : ∀ q, q ≠ p → new.votes[q]? = (vf who cl).votes[q]? := by
    intro q hq
    rw [hvotes, hv]
    exact lookup_erase_ne hq
  refine h.recast hw hv hd (fun q t k hq => ?_) (fun q y hy => ?_)
  · have hqp : q ≠ p := fun heq => hs t k (heq ▸ hq)
    refine ⟨t, hq, fun _ => rfl, fun hk => ?_⟩
    subst hk
    have hcon : contribution q (.casting new : Voting A P) = contribution q (vf who k) := by
      have hdel : (Voting.casting new : Voting A P).delegations = (vf who k).delegations := by
        rw [hv]
        exact hd
      have hlook : (Voting.casting new : Voting A P).votes[q]? = (vf who k).votes[q]? := hsame q hqp
      rw [contribution, contribution, hlook, hdel]
    rw [hcon]
    exact h.tally_eq hw hq
  · have hqp : q ≠ p := by
      intro heq
      rw [heq, hvotes, lookup_erase, if_pos rfl] at hy
      cases hy
    rw [hsame q hqp] at hy
    exact ⟨h.voted who cl q y hy, h.classes who cl q y hy⟩

theorem Keeps.tryRemoveVote {hint : Option C} {scope : UnvoteScope}
    (h : Counted S s.votingFor s.polls s.opened) (ha : Apart s.votingFor) (hw : who ∈ S) :
    Keeps S (tryRemoveVote cfg who p hint scope s) := by
  refine Keeps.bind (fun e he => ?_) fun cl _ => ?_
  · rw [← (Except.okOr_eq_error.mp he).2]
    decide
  cases hv : s.votingFor who cl with
  | delegating d => exact ⟨h, ha⟩
  | casting c =>
    refine Keeps.bind (fun e he => ?_) fun v hvote => ?_
    · rw [← (Except.okOr_eq_error.mp he).2]
      decide
    rw [Except.okOr_eq_ok] at hvote
    cases hs : s.polls p with
    | none =>
      have hnot : ∀ t k, s.polls p ≠ .ongoing t k := by
        rw [hs]
        exact fun t k hc => by cases hc
      exact ⟨h.forget hw hnot hv rfl rfl, ha.cast⟩
    | completed fin approved =>
      have hnot : ∀ t k, s.polls p ≠ .ongoing t k := by
        rw [hs]
        exact fun t k hc => by cases hc
      dsimp only
      split
      · split_ifs
        · refine Keeps.ensure (by decide) fun _ => ?_
          exact ⟨h.forget hw hnot hv rfl rfl, ha.cast⟩
        · exact ⟨h.forget hw hnot hv rfl rfl, ha.cast⟩
      · exact ⟨h.forget hw hnot hv rfl rfl, ha.cast⟩
    | ongoing tally k =>
      have hin : (s.votingFor who cl).votes[p]? = some v := by
        rw [hv]
        exact hvote
      obtain rfl : k = cl := h.classes who cl p v hin tally k hs
      refine Keeps.ensure (by decide) fun _ => ?_
      have hr := h.tally_eq hw hs
      rw [hv, contribution_some hvote] at hr
      rw [hr, withoutVote_eq]
      have hgone : (c.votes.erase p)[p]? = none := by
        rw [lookup_erase, if_pos rfl]
      have hcon : contribution p (.casting { c with votes := c.votes.erase p } : Voting A P) = 0 :=
        contribution_none hgone
      have hcount := @Counted.revote A C P _ _ _ S s.votingFor s.polls s.opened who k p c
        { c with votes := c.votes.erase p } tally h hw hs hv rfl fun q hq => lookup_erase_ne hq
      rw [hcon, zero_add] at hcount
      exact ⟨hcount, ha.cast⟩

-- The delegations to an account have changed, and the polls that it has voted on have followed.
def State.redelegate (s : State A C P) (target : A) (cl : C) (d : Delegations)
    (f : Tally → Bool → Tally) :
    State A C P :=
  { s with
    votingFor := setFor s.votingFor target cl
      ((s.votingFor target cl).setCommon d (s.votingFor target cl).prior)
    polls := shiftPolls f (s.votingFor target cl).votes.toList s.polls }

theorem increaseUpstream_eq : increaseUpstreamDelegation target cl amount s =
    s.redelegate target cl ((s.votingFor target cl).delegations + amount) fun tally aye =>
      tally.increase aye amount := by
  rw [increaseUpstreamDelegation, State.redelegate]
  cases s.votingFor target cl with
  | casting c => rfl
  | delegating d =>
    rfl

theorem reduceUpstream_eq : reduceUpstreamDelegation target cl amount s =
    s.redelegate target cl ((s.votingFor target cl).delegations - amount) fun tally aye =>
      tally.reduce aye amount := by
  rw [reduceUpstreamDelegation, State.redelegate]
  cases s.votingFor target cl with
  | casting c => rfl
  | delegating d =>
    rfl

omit [DecidableEq A] in
theorem setCommon_votes : (v.setCommon d l).votes = v.votes := by
  cases v <;> rfl

theorem setCommon_delegated : delegated b (v.setCommon d l) = delegated b v := by
  cases v <;> rfl

omit [DecidableEq A] in
theorem setCommon_delegations : (v.setCommon d l).delegations = d := by
  cases v <;> rfl

variable (h : Counted S s.votingFor s.polls s.opened) (ha : Apart s.votingFor)
include h ha

theorem Keeps.tryDelegate (hw : who ∈ S) (ht : target ∈ S) :
    Keeps S (tryDelegate cfg who cl target conviction balance total s) := by
  refine Keeps.ensure (by decide) fun hne => Keeps.ensure (by decide) fun _ =>
    Keeps.ensure (by decide) fun _ => ?_
  cases hv : s.votingFor who cl with
  | delegating d => exact (by decide : Error.alreadyDelegating ≠ .underflow)
  | casting c =>
    refine Keeps.ensure (by decide) fun hempty => ?_
    rw [increaseUpstream_eq]
    have hnone : ∀ q : P, c.votes[q]? = none := by
      intro q
      rw [ExtTreeMap.isEmpty_iff.mp hempty]
      exact getElem?_empty
    refine Keeps.setVoting (h.redirect (f := fun tally aye =>
      tally.increase aye _) hw ht hne setCommon_votes
      (fun b => setCommon_delegated) ?_ ?_ ?_ ?_ ?_ ?_) ha.setCommon fun e he => ?_
    · rw [hv]
      exact hnone
    · exact fun q => getElem?_empty
    · rw [hv]
      rfl
    · intro b hb
      rw [hv]
      exact if_neg (Ne.symm hb)
    · intro r hr
      have hr' : (s.votingFor target cl).delegations = r := by
        rw [hr, hv]
        exact zero_add r
      rw [setCommon_delegations, add_comm]
      congr 1
      exact (if_pos rfl).symm
    · intro vote r
      rw [setCommon_delegations, Tally.increase_eq, Tally.side_add, ← add_assoc]
      congr 1
      exact add_comm _ _
    · rw [← Voting.delegating.inj he]
      exact Ne.symm hne

theorem Keeps.tryUndelegate (hw : who ∈ S)
    (ht : ∀ d, s.votingFor who cl = .delegating d → d.target ∈ S) :
    Keeps S (tryUndelegate cfg who cl s) := by
  rw [ConvictionVoting.tryUndelegate]
  cases hv : s.votingFor who cl with
  | casting c => exact (by decide : Error.notDelegating ≠ .underflow)
  | delegating d =>
    have htS := ht d hv
    have hne : who ≠ d.target := Ne.symm (ha who cl d hv)
    have hsum := h.delegations d.target cl
    rw [← Finset.add_sum_erase S _ hw, hv] at hsum
    have hown : delegated d.target (.delegating d : Voting A P) = d.conviction.votes d.balance :=
      if_pos rfl
    rw [hown] at hsum
    dsimp only
    rw [reduceUpstream_eq]
    refine Keeps.setVoting (h.redirect (f := fun tally aye =>
      tally.reduce aye _) hw htS hne setCommon_votes
      (fun b => setCommon_delegated) ?_ ?_ ?_ ?_ ?_ ?_) ha.setCommon fun e he => by cases he
    · rw [hv]
      exact fun q => getElem?_empty
    · exact fun q => getElem?_empty
    · rw [hv]
      rfl
    · intro b hb
      rw [hv]
      exact (if_neg (Ne.symm hb)).symm
    · intro r hr
      rw [hv, hown] at hr
      rw [setCommon_delegations, hr, Delegations.add_sub_cancel_left]
      exact (zero_add r).symm
    · intro vote r
      rw [setCommon_delegations, hsum, Delegations.add_sub_cancel_left, Tally.side_add, add_assoc,
        Tally.reduce_side]

theorem Keeps.updateLock (ht : target ∈ S) : Keeps S (.ok (s.updateLock cfg cl target)) := by
  have hcommon : (s.votingFor target cl).rejig s.now =
      (s.votingFor target cl).setCommon (s.votingFor target cl).delegations
        ((s.votingFor target cl).prior.rejig s.now) := by
    cases s.votingFor target cl <;> rfl
  rw [State.updateLock, hcommon]
  exact ⟨h.same ht setCommon_votes setCommon_delegations fun b => setCommon_delegated, ha.setCommon⟩

theorem Keeps.openPoll : Keeps S (.ok (s.openPoll cfg p cl)) := by
  rw [State.openPoll]
  split_ifs with hp
  · have hout : p ∉ s.opened := List.forall_mem_ne.mp hp.1
    refine ⟨⟨h.outside, h.delegations, fun q t c hq => ?_,
      fun a c q x hx t c' hq => ?_, fun a c q x hx => ?_, fun q t c hq => ?_⟩, ha⟩
    · by_cases hqp : q = p
      · subst hqp
        have hq' : PollStatus.ongoing 0 cl = .ongoing t c := by
          rw [← hq]
          exact (update_self q _ s.polls).symm
        rw [← (PollStatus.ongoing.inj hq').1]
        symm
        apply Finset.sum_eq_zero
        intro a _
        cases hx : (s.votingFor a c).votes[q]? with
        | none => exact contribution_none hx
        | some x => exact absurd (h.voted a c q x hx) hout
      · exact h.tallies q t c ((update_of_ne hqp _ s.polls).symm.trans hq)
    · have hqp : q ≠ p := fun heq => hout (heq ▸ h.voted a c q x hx)
      exact h.classes a c q x hx t c' ((update_of_ne hqp _ s.polls).symm.trans hq)
    · exact List.mem_cons_of_mem p (h.voted a c q x hx)
    · by_cases hqp : q = p
      · rw [hqp]
        exact List.mem_cons_self
      · exact List.mem_cons_of_mem p (h.ongoing q t c ((update_of_ne hqp _ s.polls).symm.trans hq))
  · exact ⟨h, ha⟩

omit [DecidableEq C] in
theorem Keeps.closePoll {status : PollStatus C} (hst : ∀ t c, status ≠ .ongoing t c) :
    Keeps S (.ok (s.closePoll p status)) := by
  rw [State.closePoll]
  split
  · have hback : ∀ {q t c}, update s.polls p status q = .ongoing t c →
        s.polls q = .ongoing t c := by
      intro q t c hq
      by_cases hqp : q = p
      · rw [hqp, update_self] at hq
        exact absurd hq (hst t c)
      · rw [update_of_ne hqp] at hq
        exact hq
    exact ⟨⟨h.outside, h.delegations, fun q t c hq => h.tallies q t c (hback hq),
      fun a c q x hx t c' hq => h.classes a c q x hx t c' (hback hq), h.voted,
      fun q t c hq => h.ongoing q t c (hback hq)⟩, ha⟩
  · exact ⟨h, ha⟩

end Calls

section Runs

variable {s : State A C P} {cfg : Config C} {op : Op A C P} {ops : List (Op A C P)}

def CountedSomewhere (s : State A C P) : Prop :=
  ∃ S, Counted S s.votingFor s.polls s.opened ∧ Apart s.votingFor

section

variable (h : CountedSomewhere s)
include h

omit [DecidableEq C] in
theorem CountedSomewhere.extend (a b : A) :
    ∃ S, a ∈ S ∧ b ∈ S ∧ Counted S s.votingFor s.polls s.opened ∧ Apart s.votingFor := by
  obtain ⟨S, hS, ha⟩ := h
  refine ⟨insert a (insert b S), Finset.mem_insert_self a _, ?_, hS.mono ?_, ha⟩
  · exact Finset.mem_insert_of_mem (Finset.mem_insert_self b S)
  · exact (Finset.subset_insert b S).trans (Finset.subset_insert a _)

theorem run_keeps : ∃ S, Keeps S (op.run cfg s) := by
  cases op with
  | vote who poll v totalBalance =>
    obtain ⟨S, hw, _, hS, ha⟩ := h.extend who who
    exact ⟨S, Keeps.tryVote hS ha hw⟩
  | delegate who cl target conviction balance totalBalance =>
    obtain ⟨S, hw, ht, hS, ha⟩ := h.extend who target
    exact ⟨S, Keeps.tryDelegate hS ha hw ht⟩
  | undelegate who cl =>
    cases hv : s.votingFor who cl with
    | casting c =>
      obtain ⟨S, hw, _, hS, ha⟩ := h.extend who who
      exact ⟨S, Keeps.tryUndelegate hS ha hw fun d hd => by rw [hv] at hd; cases hd⟩
    | delegating d =>
      obtain ⟨S, hw, ht, hS, ha⟩ := h.extend who d.target
      exact ⟨S, Keeps.tryUndelegate hS ha hw fun d' hd => by
        rw [hv] at hd
        rw [← Voting.delegating.inj hd]
        exact ht⟩
  | unlock cl target =>
    obtain ⟨S, ht, _, hS, ha⟩ := h.extend target target
    exact ⟨S, Keeps.updateLock hS ha ht⟩
  | removeVote target | removeOtherVote _ target =>
    obtain ⟨S, hw, _, hS, ha⟩ := h.extend target target
    exact ⟨S, Keeps.tryRemoveVote hS ha hw⟩
  | openPoll => exact h.imp fun S hS => Keeps.openPoll hS.1 hS.2
  | completePoll | cancelPoll =>
    exact h.imp fun S hS => Keeps.closePoll hS.1 hS.2 fun t c hc => by cases hc
  | tick => exact h

theorem step_counted : CountedSomewhere (op.step cfg s) := by
  obtain ⟨S, hk⟩ := @run_keeps A C P _ _ _ s cfg op h
  rw [Op.step]
  cases hr : op.run cfg s with
  | error e => exact h
  | ok s' =>
    rw [hr] at hk
    exact ⟨S, hk⟩

theorem runs_counted : CountedSomewhere (runs cfg s ops) := by
  induction ops generalizing s with
  | nil => exact h
  | cons op ops hi => exact hi (step_counted h)

end

omit [DecidableEq C] in
theorem start_counted : CountedSomewhere ({ now := t } : State A C P) := by
  refine ⟨∅, ⟨fun _ _ _ => rfl, fun _ _ => rfl, ?_, ?_, ?_, ?_⟩, ?_⟩
  · intro p t c hp
    cases hp
  · intro a c p v hv
    cases (getElem?_empty.symm.trans hv : none = some v)
  · intro a c p v hv
    cases (getElem?_empty.symm.trans hv : none = some v)
  · intro p t c hp
    cases hp
  · intro a c d hd
    cases hd

-- In every run the delegations of an account are those of the accounts that delegate to
-- it, the tally of an ongoing poll is what the votes on it contribute with their
-- delegations, and no call underflows.
theorem tallies_exact {t : Nat} :
    {a | ∃ c, (runs cfg ({ now := t } : State A C P) ops).votingFor a c ≠ default}.Finite ∧
    (∀ b c, ((runs cfg ({ now := t } : State A C P) ops).votingFor b c).delegations =
      ∑ᶠ a, delegated b ((runs cfg ({ now := t } : State A C P) ops).votingFor a c)) ∧
    (∀ p tally c, (runs cfg ({ now := t } : State A C P) ops).polls p = .ongoing tally c →
      tally = ∑ᶠ a, contribution p ((runs cfg ({ now := t } : State A C P) ops).votingFor a c)) ∧
    ∀ op : Op A C P, op.run cfg (runs cfg { now := t } ops) ≠ .error .underflow := by
  have hc : CountedSomewhere (runs cfg ({ now := t } : State A C P) ops) :=
    runs_counted start_counted
  obtain ⟨S, hS, ha⟩ := id hc
  refine ⟨?_, fun b c => ?_, fun p tally c hp => ?_, fun op herr => ?_⟩
  · apply S.finite_toSet.subset
    rintro a ⟨c, hne⟩
    by_contra hout
    exact hne (hS.outside a hout c)
  · rw [hS.delegations b c]
    symm
    apply finsum_eq_sum_of_support_subset
    intro a hsup
    by_contra hout
    apply hsup
    change delegated b _ = 0
    rw [hS.outside a hout]
    rfl
  · rw [hS.tallies p tally c hp]
    symm
    apply finsum_eq_sum_of_support_subset
    intro a hsup
    by_contra hout
    apply hsup
    change contribution p _ = 0
    rw [hS.outside a hout]
    exact contribution_default
  · obtain ⟨S', hk⟩ := @run_keeps A C P _ _ _ _ cfg op hc
    rw [herr] at hk
    exact hk rfl

end Runs

end ConvictionVoting
