import Mathlib

namespace ApprovalVoting

-- Validator indices, ticks and delay tranches are numbers.
structure TrancheEntry where
  tranche : Nat
  assignments : List (Nat × Nat)
  deriving DecidableEq, Repr

-- Of the field `assigned_validators` only the length is used.
structure ApprovalEntry where
  tranches : List TrancheEntry
  nValidators : Nat
  deriving DecidableEq, Repr

abbrev Bitfield := List Bool

def Bitfield.countOnes (field : Bitfield) : Nat :=
  field.count true

def ApprovalEntry.assignmentsUpTo (entry : ApprovalEntry) (tranche : Nat) : Bitfield :=
  (entry.tranches.takeWhile (·.tranche ≤ tranche)).foldl
    (fun field e => e.assignments.foldl (fun field a => field.set a.1 true) field)
    (List.replicate entry.nValidators false)

inductive RequiredTranches
  | all
  | pending (considered : Nat) (nextNoShow : Option Nat) (maximumBroadcast clockDrift : Nat)
  | exact (needed toleratedMissing : Nat) (nextNoShow lastAssignmentTick : Option Nat)
  deriving DecidableEq, Repr

structure TranchesToApproveResult where
  requiredTranches : RequiredTranches
  totalObservedNoShows : Nat
  noShowValidators : List Nat
  deriving DecidableEq, Repr

inductive Check
  | unapproved
  | approved (noShows : Nat) (lastAssignmentTick : Option Nat)
  | approvedOneThird
  deriving DecidableEq, Repr

def checkApproval (approvals : Bitfield) (approval : ApprovalEntry) (required : RequiredTranches) :
    Check :=
  if approvals.length < 3 * approvals.countOnes then .approvedOneThird else
  match required with
  | .pending .. => .unapproved
  | .all => .unapproved
  | .exact needed toleratedMissing _ lastAssignmentTick =>
    let assigned := approval.assignmentsUpTo needed
    let nAssigned := assigned.countOnes
    let nApproved := Bitfield.countOnes (List.zipWith and assigned approvals)
    if nAssigned ≤ nApproved + toleratedMissing then .approved toleratedMissing lastAssignmentTick
    else .unapproved

def minPreferSome : Option Nat → Option Nat → Option Nat
  | none, none => none
  | none, some x => some x
  | some x, none => some x
  | some x, some y => some (min x y)

def maxRecordedNoShowValidatorsPerCandidate : Nat := 20

structure State where
  assignments : Nat
  depth : Nat
  covered : Nat
  covering : Nat
  uncovered : Nat
  nextNoShow : Option Nat
  lastAssignmentTick : Option Nat
  totalObservedNoShows : Nat
  noShowValidators : List Nat
  deriving DecidableEq, Repr

namespace State

variable (s : State)

def clockDrift (noShowDuration : Nat) : Nat :=
  s.depth * noShowDuration

def output (tranche neededApprovals nValidators noShowDuration : Nat) : TranchesToApproveResult :=
  let covering := if s.depth = 0 then 0 else s.covering
  let result (requiredTranches : RequiredTranches) : TranchesToApproveResult :=
    { requiredTranches
      totalObservedNoShows := s.totalObservedNoShows
      noShowValidators := s.noShowValidators }
  if s.depth ≠ 0 ∧ nValidators ≤ s.assignments + covering + s.uncovered then result .all else
  if neededApprovals ≤ s.assignments ∧ covering + s.uncovered = 0 then
    result (.exact tranche s.covered s.nextNoShow s.lastAssignmentTick)
  else
    if s.depth = 0 then
      result (.pending tranche s.nextNoShow (2 ^ 32 - 1) (s.clockDrift noShowDuration))
    else
      result (.pending tranche s.nextNoShow ((tranche + (covering + s.uncovered)) % 2 ^ 32)
        (s.clockDrift noShowDuration))

def advance (newAssignments newNoShows : Nat) (nextNoShow lastAssignmentTick : Option Nat)
    (noShowValidators : List Nat) : State :=
  let newCovered := if s.depth = 0 then newAssignments else min newAssignments 1
  let covering := s.covering - newCovered
  let uncovered := s.uncovered + newNoShows
  let (depth, covering, uncovered) :=
    if covering = 0 then
      if uncovered = 0 then (s.depth, 0, uncovered) else (s.depth + 1, uncovered, 0)
    else (s.depth, covering, uncovered)
  { assignments := s.assignments + newAssignments
    depth
    covered := if s.depth = 0 then 0 else s.covered + newCovered
    covering
    uncovered
    nextNoShow := minPreferSome s.nextNoShow nextNoShow
    lastAssignmentTick := max s.lastAssignmentTick lastAssignmentTick
    totalObservedNoShows := s.totalObservedNoShows + newNoShows
    noShowValidators :=
      if s.noShowValidators.length + noShowValidators.length <
        maxRecordedNoShowValidatorsPerCandidate then
        s.noShowValidators ++ noShowValidators
      else s.noShowValidators }

end State

-- The entries with the gaps between them. The gap before an entry follows
-- the end of the previous one.
def approvalEntriesFilled : Option Nat → List TrancheEntry → List (Nat × List (Nat × Nat))
  | _, [] => []
  | gapEnd, e :: tranches =>
    let gapStart := (gapEnd.map (· + 1)).getD e.tranche
    (List.range' gapStart (e.tranche - gapStart)).map (·, []) ++ [(e.tranche, e.assignments)] ++
      approvalEntriesFilled (some e.tranche) tranches

-- The iterator is infinite: here, with the first `count` of the tranches after the last entry.
def filledTranches (tranches : List TrancheEntry) (count : Nat) : List (Nat × List (Nat × Nat)) :=
  let pre := ((tranches.head?.map fun e => List.range e.tranche).getD []).map (·, [])
  let postStart := (tranches.getLast?.map (·.tranche + 1)).getD 0
  pre ++ approvalEntriesFilled none tranches ++ (List.range' postStart count).map (·, [])

-- What one call is given.
structure Query where
  approvals : Bitfield
  trancheNow : Nat
  blockTick : Nat
  noShowDuration : Nat
  neededApprovals : Nat
  deriving DecidableEq, Repr

namespace Query

variable (q : Query)

def tickNow : Nat :=
  q.trancheNow + q.blockTick

def noShowAt (clockDrift : Nat) (tick : Nat) : Nat :=
  max tick q.blockTick - clockDrift + q.noShowDuration

def isNoShow (clockDrift driftedTickNow : Nat) (a : Nat × Nat) : Bool :=
  match q.approvals[a.1]? with
  | some approved => !approved && q.noShowAt clockDrift a.2 ≤ driftedTickNow
  | none => false

-- An assignment without an approval that may become a no-show later.
def isAwaited (clockDrift driftedTickNow : Nat) (a : Nat × Nat) : Bool :=
  match q.approvals[a.1]? with
  | some approved => !approved && driftedTickNow < q.noShowAt clockDrift a.2
  | none => false

def countNoShows (assignments : List (Nat × Nat)) (clockDrift driftedTickNow : Nat) :
    Nat × Option Nat × List Nat :=
  let noShows := assignments.filter (q.isNoShow clockDrift driftedTickNow)
  (noShows.length,
    (assignments.filter (q.isAwaited clockDrift driftedTickNow)).foldl
      (fun next a => minPreferSome next (some (q.noShowAt clockDrift a.2 + clockDrift))) none,
    noShows.map (·.1))

def initialState : State where
  assignments := 0
  depth := 0
  covered := 0
  covering := q.neededApprovals
  uncovered := 0
  nextNoShow := none
  lastAssignmentTick := none
  totalObservedNoShows := 0
  noShowValidators := []

def driftedTickNow (s : State) : Nat :=
  q.tickNow - s.clockDrift q.noShowDuration

def driftedTrancheNow (s : State) : Nat :=
  q.driftedTickNow s - q.blockTick

-- One tranche of the loop.
def visit (nValidators : Nat) (s : State) (assignments : List (Nat × Nat)) : State :=
  let nAssignments := (assignments.filter (·.1 < nValidators)).length
  let lastAssignmentTick := (assignments.map (·.2)).max?
  let (noShows, nextNoShow, noShowValidators) :=
    q.countNoShows assignments (s.clockDrift q.noShowDuration) (q.driftedTickNow s)
  s.advance nAssignments noShows nextNoShow lastAssignmentTick noShowValidators

-- The last output of the loop, which ends early with the state `None`.
def scan (nValidators : Nat) :
    State → List (Nat × List (Nat × Nat)) → Option TranchesToApproveResult →
    Option TranchesToApproveResult
  | _, [], last => last
  | s, (tranche, assignments) :: tranches, last =>
    if q.driftedTrancheNow s < tranche then last else
    let s := q.visit nValidators s assignments
    let output := s.output tranche q.neededApprovals nValidators q.noShowDuration
    match output.requiredTranches with
    | .exact .. | .all => some output
    | .pending .. => scan nValidators s tranches (some output)

-- No tranche after `trancheNow` is considered.
def tranchesToApprove (entry : ApprovalEntry) : Option TranchesToApproveResult :=
  q.scan entry.nValidators q.initialState (filledTranches entry.tranches (q.trancheNow + 2)) none

-- Whether the candidate is approved, as its callers check it.
def check (entry : ApprovalEntry) : Option Check :=
  (q.tranchesToApprove entry).map fun r => checkApproval q.approvals entry r.requiredTranches

end Query
end ApprovalVoting
