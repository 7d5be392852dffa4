import RostroModel.Library.Except
import RostroModel.ConvictionVoting.Votes

namespace ConvictionVoting

open Std

inductive Error
  | notOngoing
  | notVoter
  | noPermission
  | noPermissionYet
  | alreadyDelegating
  | alreadyVoting
  | insufficientFunds
  | notDelegating
  | nonsense
  | maxVotesReached
  | classNeeded
  | badClass
  | underflow
  deriving DecidableEq

inductive UnvoteScope
  | any
  | onlyExpired
  deriving DecidableEq

inductive PollStatus (C : Type)
  | none
  | ongoing (tally : Tally) («class» : C)
  | completed (fin : Nat) (approved : Bool)

structure Config (C : Type) where
  maxVotes : Nat
  voteLockingPeriod : Nat
  classes : List C

-- The votes and locks of all accounts, and the polls. An account has no lock if the lock is zero.
structure State (A C P : Type) [LinearOrder P] where
  votingFor : A → C → Voting A P := fun _ _ => default
  classLocksFor : A → List (C × Nat) := fun _ => []
  lock : A → Nat := fun _ => 0
  polls : P → PollStatus C := fun _ => .none
  opened : List P := []
  now : Nat

variable {A C P : Type} [DecidableEq A] [DecidableEq C] [LinearOrder P]

namespace State

def setVoting (s : State A C P) (who : A) («class» : C) (v : Voting A P) : State A C P :=
  { s with
    votingFor := Function.update s.votingFor who (Function.update (s.votingFor who) «class» v) }

def setPoll (s : State A C P) (poll : P) (status : PollStatus C) : State A C P :=
  { s with polls := Function.update s.polls poll status }

-- The class locks of an account are bounded by the number of classes.
def pushLock (cfg : Config C) (locks : List (C × Nat)) («class» : C) (amount : Nat) :
    List (C × Nat) :=
  if locks.length < cfg.classes.length then locks ++ [(«class», amount)] else locks

def extendLock (cfg : Config C) (s : State A C P) (who : A) («class» : C) (amount : Nat) :
    State A C P :=
  let locks := s.classLocksFor who
  let locks := if locks.any (·.1 = «class») then
      locks.map fun x => if x.1 = «class» then (x.1, max x.2 amount) else x
    else
      pushLock cfg locks «class» amount
  { s with
    classLocksFor := Function.update s.classLocksFor who locks
    lock := Function.update s.lock who (max (s.lock who) amount) }

def updateLock (cfg : Config C) (s : State A C P) («class» : C) (who : A) : State A C P :=
  let voting := (s.votingFor who «class»).rejig s.now
  let classLockNeeded := voting.lockedBalance
  let locks := (s.classLocksFor who).filter fun x => x.1 ≠ «class»
  let locks := if classLockNeeded = 0 then locks else pushLock cfg locks «class» classLockNeeded
  let lockNeeded := (locks.map Prod.snd).max?.getD 0
  { s.setVoting who «class» voting with
    classLocksFor := Function.update s.classLocksFor who locks
    lock := Function.update s.lock who lockNeeded }

end State

def withoutVote (tally : Tally) (old : AccountVote) (delegations : Delegations) :
    Except Error Tally := do
  let tally ← Except.okOr (tally.remove old) .underflow
  match old.asStandard with
  | some approve => return tally.reduce approve delegations
  | none => return tally

def withVote (tally : Tally) (vote : AccountVote) (delegations : Delegations) : Tally :=
  let tally := tally.add vote
  match vote.asStandard with
  | some approve => tally.increase approve delegations
  | none => tally

-- The tally before a vote is added: a vote that is there already is taken back first.
def tallyBefore (cfg : Config C) (tally : Tally) (c : Casting P) (poll : P) : Except Error Tally :=
  match c.votes[poll]? with
  | some old => withoutVote tally old c.delegations
  | none => do
    Except.ensure (c.votes.size < cfg.maxVotes) .maxVotesReached
    return tally

def tryVote (cfg : Config C) (who : A) (poll : P) (vote : AccountVote) (totalBalance : Nat)
    (s : State A C P) :
    Except Error (State A C P) := do
  Except.ensure (vote.balance ≤ totalBalance) .insufficientFunds
  match s.polls poll with
  | .ongoing tally «class» =>
    match s.votingFor who «class» with
    | .casting c =>
      let tally ← tallyBefore cfg tally c poll
      let s := s.setPoll poll (.ongoing (withVote tally vote c.delegations) «class»)
      let s := s.setVoting who «class» (.casting { c with votes := c.votes.insert poll vote })
      return s.extendLock cfg who «class» vote.balance
    | .delegating _ => throw .alreadyDelegating
  | _ => throw .notOngoing

def PollStatus.class? : PollStatus C → Option C
  | .ongoing _ «class» => some «class»
  | _ => .none

def tryRemoveVote (cfg : Config C) (who : A) (poll : P) (classHint : Option C) (scope : UnvoteScope)
    (s : State A C P) : Except Error (State A C P) := do
  let «class» ← Except.okOr (classHint.orElse fun _ => (s.polls poll).class?) .classNeeded
  match s.votingFor who «class» with
  | .casting c =>
    let v ← Except.okOr c.votes[poll]? .notVoter
    let c := { c with votes := c.votes.erase poll }
    match s.polls poll with
    | .ongoing tally pollClass => do
      Except.ensure (scope = .any) .noPermission
      let tally ← withoutVote tally v c.delegations
      let s := s.setPoll poll (.ongoing tally pollClass)
      return s.setVoting who «class» (.casting c)
    | .completed fin approved =>
      match v.lockedIf (.status approved) with
      | some (lockPeriods, balance) =>
        let unlockAt := fin + cfg.voteLockingPeriod * lockPeriods
        if s.now < unlockAt then do
          Except.ensure (scope = .any) .noPermissionYet
          return s.setVoting who «class»
            (.casting { c with prior := c.prior.accumulate unlockAt balance })
        else
          return s.setVoting who «class» (.casting c)
      | none => return s.setVoting who «class» (.casting c)
    | .none => return s.setVoting who «class» (.casting c)
  | .delegating _ => return s

-- The polls that an account has voted on one way follow a change of its delegations.
def shiftPolls (f : Tally → Bool → Tally) (votes : List (P × AccountVote))
    (polls : P → PollStatus C) :
    P → PollStatus C :=
  votes.foldl (fun polls v =>
    match v.2, polls v.1 with
    | .standard vote _, .ongoing tally «class» =>
      Function.update polls v.1 (.ongoing (f tally vote.aye) «class»)
    | _, _ => polls) polls

def increaseUpstreamDelegation (who : A) («class» : C) (amount : Delegations) (s : State A C P) :
    State A C P :=
  match s.votingFor who «class» with
  | .delegating d =>
    s.setVoting who «class» (.delegating { d with delegations := d.delegations + amount })
  | .casting c =>
    { s.setVoting who «class» (.casting { c with delegations := c.delegations + amount }) with
      polls := shiftPolls (fun tally aye => tally.increase aye amount) c.votes.toList s.polls }

def reduceUpstreamDelegation (who : A) («class» : C) (amount : Delegations) (s : State A C P) :
    State A C P :=
  match s.votingFor who «class» with
  | .delegating d =>
    s.setVoting who «class» (.delegating { d with delegations := d.delegations - amount })
  | .casting c =>
    { s.setVoting who «class» (.casting { c with delegations := c.delegations - amount }) with
      polls := shiftPolls (fun tally aye => tally.reduce aye amount) c.votes.toList s.polls }

def tryDelegate (cfg : Config C) (who : A) («class» : C) (target : A) (conviction : Conviction)
    (balance totalBalance : Nat) (s : State A C P) : Except Error (State A C P) := do
  Except.ensure (who ≠ target) .nonsense
  Except.ensure («class» ∈ cfg.classes) .badClass
  Except.ensure (balance ≤ totalBalance) .insufficientFunds
  match s.votingFor who «class» with
  | .delegating _ => throw .alreadyDelegating
  | .casting c =>
    Except.ensure (c.votes.isEmpty) .alreadyVoting
    let voting := Voting.delegating
      { balance, target, conviction, delegations := c.delegations, prior := c.prior }
    let s := increaseUpstreamDelegation target «class» (conviction.votes balance) s
    let s := s.extendLock cfg who «class» balance
    return s.setVoting who «class» voting

def tryUndelegate (cfg : Config C) (who : A) («class» : C) (s : State A C P) :
    Except Error (State A C P) :=
  match s.votingFor who «class» with
  | .delegating d =>
    let s := reduceUpstreamDelegation d.target «class» (d.conviction.votes d.balance) s
    let prior :=
      d.prior.accumulate (s.now + cfg.voteLockingPeriod * d.conviction.lockPeriods) d.balance
    return s.setVoting who «class» (Voting.setCommon d.delegations prior default)
  | .casting _ => throw .notDelegating

-- The calls, what the polls do, and the blocks that pass. A poll index is not used again.
inductive Op (A C P : Type)
  | vote (who : A) (poll : P) (vote : AccountVote) (totalBalance : Nat)
  | delegate (who : A) («class» : C) (target : A) (conviction : Conviction)
    (balance totalBalance : Nat)
  | undelegate (who : A) («class» : C)
  | unlock («class» : C) (target : A)
  | removeVote (who : A) («class» : Option C) (poll : P)
  | removeOtherVote (who target : A) («class» : C) (poll : P)
  | openPoll (poll : P) («class» : C)
  | completePoll (poll : P) (approved : Bool)
  | cancelPoll (poll : P)
  | tick

namespace State

def openPoll (cfg : Config C) (poll : P) («class» : C) (s : State A C P) : State A C P :=
  if (∀ old ∈ s.opened, poll ≠ old) ∧ «class» ∈ cfg.classes then
    { s.setPoll poll (.ongoing 0 «class») with opened := poll :: s.opened }
  else
    s

def closePoll (poll : P) (status : PollStatus C) (s : State A C P) : State A C P :=
  match s.polls poll with
  | .ongoing _ _ => s.setPoll poll status
  | _ => s

end State

def Op.run (cfg : Config C) (s : State A C P) : Op A C P → Except Error (State A C P)
  | vote who poll v totalBalance => tryVote cfg who poll v totalBalance s
  | delegate who «class» target conviction balance totalBalance =>
    tryDelegate cfg who «class» target conviction balance totalBalance s
  | undelegate who «class» => tryUndelegate cfg who «class» s
  | unlock «class» target => .ok (s.updateLock cfg «class» target)
  | removeVote who «class» poll => tryRemoveVote cfg who poll «class» .any s
  | removeOtherVote who target «class» poll =>
    tryRemoveVote cfg target poll (some «class») (if target = who then .any else .onlyExpired) s
  | openPoll poll «class» => .ok (s.openPoll cfg poll «class»)
  | completePoll poll approved =>
    .ok (s.closePoll poll (.completed s.now approved))
  | cancelPoll poll => .ok (s.closePoll poll .none)
  | tick => .ok { s with now := s.now + 1 }

-- A call that fails changes nothing.
def Op.step (cfg : Config C) (s : State A C P) (op : Op A C P) : State A C P :=
  match op.run cfg s with
  | .ok s' => s'
  | .error _ => s

def runs (cfg : Config C) (s : State A C P) (ops : List (Op A C P)) : State A C P :=
  ops.foldl (Op.step cfg) s

end ConvictionVoting
