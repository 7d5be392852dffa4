import RostroModel.Library.Machine
import RostroModel.Library.TreeMap

namespace ConvictionVoting

open Std Machine

inductive Conviction
  | none
  | locked1x
  | locked2x
  | locked3x
  | locked4x
  | locked5x
  | locked6x
  deriving DecidableEq

-- Votes after conviction and the capital behind them.
@[ext]
structure Delegations where
  votes : Nat := 0
  capital : Nat := 0
  deriving DecidableEq

namespace Delegations

instance : Zero Delegations :=
  ⟨{}⟩

instance : Add Delegations :=
  ⟨fun d e => ⟨d.votes + e.votes, d.capital + e.capital⟩⟩

instance : Sub Delegations :=
  ⟨fun d e => ⟨d.votes - e.votes, d.capital - e.capital⟩⟩

theorem add_def (d e : Delegations) : d + e = ⟨d.votes + e.votes, d.capital + e.capital⟩ :=
  rfl

theorem sub_def (d e : Delegations) : d - e = ⟨d.votes - e.votes, d.capital - e.capital⟩ :=
  rfl

theorem zero_def : (0 : Delegations) = ⟨0, 0⟩ :=
  rfl

instance : AddCommMonoid Delegations where
  add_assoc d e f := by simp only [add_def, Nat.add_assoc]
  zero_add d := by simp only [add_def, zero_def, Nat.zero_add]
  add_zero d := by simp only [add_def, zero_def, Nat.add_zero]
  add_comm d e := by simp only [add_def, Nat.add_comm]
  nsmul := nsmulRec

theorem add_sub_cancel_left (d e : Delegations) : d + e - d = e := by
  simp only [add_def, sub_def, Nat.add_sub_cancel_left]

end Delegations

namespace Conviction

def lockPeriods : Conviction → Nat
  | none => 0
  | locked1x => 1
  | locked2x => 2
  | locked3x => 4
  | locked4x => 8
  | locked5x => 16
  | locked6x => 32

def multiplier : Conviction → Nat
  | none => 0
  | locked1x => 1
  | locked2x => 2
  | locked3x => 3
  | locked4x => 4
  | locked5x => 5
  | locked6x => 6

def votes (capital : Nat) : Conviction → Delegations
  | none => ⟨capital / 10, capital⟩
  | x => ⟨capital * x.multiplier, capital⟩

variable (c : Conviction) (n : Nat)

theorem votes_none : none.votes n = ⟨n / 10, n⟩ :=
  rfl

theorem votes_capital : (c.votes n).capital = n := by
  cases c <;> rfl

end Conviction

structure Vote where
  aye : Bool
  conviction : Conviction
  deriving DecidableEq

inductive AccountVote
  | standard (vote : Vote) (balance : Nat)
  | split (aye nay : Nat)
  | splitAbstain (aye nay abstain : Nat)
  deriving DecidableEq

inductive LockedIf
  | status (approved : Bool)
  | always

namespace AccountVote

-- The periods for which a balance is locked if the poll ends with the given status.
def lockedIf : AccountVote → LockedIf → Option (Nat × Nat)
  | standard ⟨_, .none⟩ _, _ => .none
  | standard vote balance, .status approved =>
    if vote.aye = approved then some (vote.conviction.lockPeriods, balance) else .none
  | standard vote balance, .always => some (vote.conviction.lockPeriods, balance)
  | _, _ => .none

def balance : AccountVote → Nat
  | standard _ balance => balance
  | split aye nay => aye + nay
  | splitAbstain aye nay abstain => aye + nay + abstain

def asStandard : AccountVote → Option Bool
  | standard vote _ => some vote.aye
  | _ => none

end AccountVote

@[ext]
structure Tally where
  ayes : Nat := 0
  nays : Nat := 0
  support : Nat := 0
  deriving DecidableEq

namespace Tally

open Conviction (votes_capital votes_none)

variable {t : Tally} {v : AccountVote} {approve : Bool} {d e : Delegations}

def add (t : Tally) : AccountVote → Tally
  | .standard vote balance =>
    let ⟨votes, capital⟩ := vote.conviction.votes balance
    if vote.aye then
      { t with support := t.support + capital, ayes := t.ayes + votes }
    else
      { t with nays := t.nays + votes }
  | .split aye nay =>
    let aye := Conviction.none.votes aye
    let nay := Conviction.none.votes nay
    ⟨t.ayes + aye.votes, t.nays + nay.votes, t.support + aye.capital⟩
  | .splitAbstain aye nay abstain =>
    let aye := Conviction.none.votes aye
    let nay := Conviction.none.votes nay
    let abstain := Conviction.none.votes abstain
    ⟨t.ayes + aye.votes, t.nays + nay.votes, t.support + aye.capital + abstain.capital⟩

def remove (t : Tally) : AccountVote → Option Tally
  | .standard vote balance => do
    let ⟨votes, capital⟩ := vote.conviction.votes balance
    if vote.aye then
      let support ← checkedSub t.support capital
      let ayes ← checkedSub t.ayes votes
      return { t with support, ayes }
    else
      let nays ← checkedSub t.nays votes
      return { t with nays }
  | .split aye nay => do
    let aye := Conviction.none.votes aye
    let nay := Conviction.none.votes nay
    let support ← checkedSub t.support aye.capital
    let ayes ← checkedSub t.ayes aye.votes
    let nays ← checkedSub t.nays nay.votes
    return ⟨ayes, nays, support⟩
  | .splitAbstain aye nay abstain => do
    let aye := Conviction.none.votes aye
    let nay := Conviction.none.votes nay
    let abstain := Conviction.none.votes abstain
    let support ← checkedSub t.support aye.capital
    let support ← checkedSub support abstain.capital
    let ayes ← checkedSub t.ayes aye.votes
    let nays ← checkedSub t.nays nay.votes
    return ⟨ayes, nays, support⟩

def increase (t : Tally) (approve : Bool) (delegations : Delegations) : Tally :=
  if approve then
    { t with support := t.support + delegations.capital, ayes := t.ayes + delegations.votes }
  else
    { t with nays := t.nays + delegations.votes }

def reduce (t : Tally) (approve : Bool) (delegations : Delegations) : Tally :=
  if approve then
    { t with support := t.support - delegations.capital, ayes := t.ayes - delegations.votes }
  else
    { t with nays := t.nays - delegations.votes }

instance : Zero Tally :=
  ⟨{}⟩

instance : Add Tally :=
  ⟨fun t u => ⟨t.ayes + u.ayes, t.nays + u.nays, t.support + u.support⟩⟩

theorem add_def (t u : Tally) : t + u = ⟨t.ayes + u.ayes, t.nays + u.nays, t.support + u.support⟩ :=
  rfl

theorem zero_def : (0 : Tally) = ⟨0, 0, 0⟩ :=
  rfl

instance : AddCommMonoid Tally where
  add_assoc t u v := by simp only [add_def, Nat.add_assoc]
  zero_add t := by simp only [add_def, zero_def, Nat.zero_add]
  add_zero t := by simp only [add_def, zero_def, Nat.add_zero]
  add_comm t u := by simp only [add_def, Nat.add_comm]
  nsmul := nsmulRec

-- What a vote contributes by itself. A vote against or a nay of a split one lends no support.
def own : AccountVote → Tally
  | .standard ⟨true, conviction⟩ balance => ⟨(conviction.votes balance).votes, 0, balance⟩
  | .standard ⟨false, conviction⟩ balance => ⟨0, (conviction.votes balance).votes, 0⟩
  | .split aye nay => ⟨aye / 10, nay / 10, aye⟩
  | .splitAbstain aye nay abstain => ⟨aye / 10, nay / 10, aye + abstain⟩

-- What delegations contribute to the side that the delegate took.
def side : Bool → Delegations → Tally
  | true, d => ⟨d.votes, 0, d.capital⟩
  | false, d => ⟨0, d.votes, 0⟩

theorem add_eq : t.add v = own v + t := by
  cases v with
  | standard vote balance =>
    obtain ⟨aye, conviction⟩ := vote
    cases aye <;> simp [own, add, add_def, votes_capital, Nat.add_comm]
  | split aye nay => simp [own, add, votes_none, add_def, Nat.add_comm]
  | splitAbstain aye nay abstain =>
    simp only [own, add, votes_none, add_def, Tally.mk.injEq]
    omega

theorem remove_own : (own v + t).remove v = some t := by
  cases v with
  | standard vote balance =>
    obtain ⟨aye, conviction⟩ := vote
    cases aye <;> simp [own, remove, add_def, votes_capital, checkedSub_add_left]
  | split aye nay => simp [own, remove, votes_none, add_def, checkedSub_add_left]
  | splitAbstain aye nay abstain =>
    simp [own, remove, votes_none, add_def, Nat.add_assoc, checkedSub_add_left]

theorem increase_eq : t.increase approve d = side approve d + t := by
  cases approve <;> simp [side, increase, add_def, Nat.add_comm]

theorem reduce_side : (side approve d + t).reduce approve d = t := by
  cases approve <;> simp [side, reduce, add_def]

theorem side_add : side approve (d + e) = side approve d + side approve e := by
  cases approve <;> simp [side, add_def, Delegations.add_def]

end Tally

structure PriorLock where
  «until» : Nat := 0
  amount : Nat := 0
  deriving DecidableEq

namespace PriorLock

def accumulate (p : PriorLock) («until» amount : Nat) : PriorLock :=
  ⟨max p.until «until», max p.amount amount⟩

def locked (p : PriorLock) : Nat :=
  p.amount

def rejig (p : PriorLock) (now : Nat) : PriorLock :=
  if now ≥ p.until then {} else p

end PriorLock

structure Delegating (A : Type) where
  balance : Nat
  target : A
  conviction : Conviction
  delegations : Delegations
  prior : PriorLock

-- The votes are sorted by the index of the poll.
structure Casting (P : Type) [LinearOrder P] where
  votes : ExtTreeMap P AccountVote compare := ∅
  delegations : Delegations := {}
  prior : PriorLock := {}

inductive Voting (A P : Type) [LinearOrder P]
  | casting (c : Casting P)
  | delegating (d : Delegating A)

namespace Voting

variable {A P : Type} [LinearOrder P]

instance : Inhabited (Voting A P) :=
  ⟨.casting {}⟩

def delegations : Voting A P → Delegations
  | casting c => c.delegations
  | delegating d => d.delegations

def prior : Voting A P → PriorLock
  | casting c => c.prior
  | delegating d => d.prior

def votes : Voting A P → ExtTreeMap P AccountVote compare
  | casting c => c.votes
  | delegating _ => ∅

def setCommon (delegations : Delegations) (prior : PriorLock) : Voting A P → Voting A P
  | casting c => .casting { c with delegations, prior }
  | delegating d => .delegating { d with delegations, prior }

def rejig (now : Nat) : Voting A P → Voting A P
  | casting c => .casting { c with prior := c.prior.rejig now }
  | delegating d => .delegating { d with prior := d.prior.rejig now }

def lockedBalance : Voting A P → Nat
  | casting c => (c.votes.toList.map (·.2.balance)).foldl max c.prior.locked
  | delegating d => max d.balance d.prior.locked

end Voting

end ConvictionVoting
