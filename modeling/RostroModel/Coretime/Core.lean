import RostroModel.Broker.Storage

namespace Coretime

open Broker (CoreAssignment)

def fullParts : Nat :=
  57600

def saturatingAddParts (a b : Nat) : Nat :=
  min (a + b) fullParts

structure Schedule where
  assignments : List (CoreAssignment × Nat)
  endHint : Option Nat
  nextSchedule : Option Nat
  deriving DecidableEq

structure QueueDescriptor where
  first : Nat
  last : Nat
  deriving DecidableEq

structure AssignmentState where
  ratio : Nat
  remaining : Nat
  deriving DecidableEq

structure WorkState where
  assignments : List (CoreAssignment × AssignmentState)
  endHint : Option Nat
  pos : Nat
  step : Nat
  deriving DecidableEq

-- The descriptor of a core, with the part of the stored schedules that is for this core.
structure Core where
  queue : Option QueueDescriptor := none
  currentWork : Option WorkState := none
  schedules : Nat → Option Schedule := fun _ => none

inductive Error
  | assignmentsEmpty
  | disallowedInsert
  deriving DecidableEq

def goodAt (now : Nat) (endHint : Option Nat) : Bool :=
  endHint.all fun e => e > now

def minStep (assignments : List (CoreAssignment × Nat)) : Nat :=
  (assignments.map Prod.snd).min?.getD 1

def Schedule.work (schedule : Schedule) : WorkState where
  assignments := schedule.assignments.map fun a => (a.1, ⟨a.2, a.2⟩)
  endHint := schedule.endHint
  pos := 0
  step := minStep schedule.assignments

namespace Core

def hasAssignmentsUntil (core : Core) («until» : Nat) : Bool :=
  core.currentWork.isSome || core.queue.any fun q => q.first < «until»

-- What is visible in the claim queue is not replaced.
def adjustedBegin (core : Core) (block lookahead begin : Nat) : Nat :=
  let claimQueueEnd := block + 1 + lookahead
  if core.hasAssignmentsUntil claimQueueEnd ∧ begin < claimQueueEnd then claimQueueEnd else begin

-- The end of the queue points to the schedule that is appended.
def linkLast (schedules : Nat → Option Schedule) (last begin : Nat) : Nat → Option Schedule :=
  if begin > last then
    Function.update schedules last ((schedules last).map fun s =>
      { s with nextSchedule := some begin })
  else
    schedules

-- A schedule that is there already gets the assignments added to its own.
def putSchedule (schedules : Nat → Option Schedule) (begin : Nat)
    (assignments : List (CoreAssignment × Nat)) (endHint : Option Nat) : Nat → Option Schedule :=
  let old := ((schedules begin).map Schedule.assignments).getD []
  Function.update schedules begin (some ⟨old ++ assignments, endHint, none⟩)

def assign (block lookahead begin : Nat) (assignments : List (CoreAssignment × Nat))
    (endHint : Option Nat) (core : Core) : Except Error Core := do
  Except.ensure (assignments ≠ []) .assignmentsEmpty
  let begin := core.adjustedBegin block lookahead begin
  match core.queue with
  | none =>
    return { core with
      schedules := Function.update core.schedules begin (some ⟨assignments, endHint, none⟩)
      queue := some ⟨begin, begin⟩ }
  | some queue =>
    Except.ensure (begin ≥ queue.last) .disallowedInsert
    let schedules := linkLast core.schedules queue.last begin
    return { core with
      schedules := putSchedule schedules begin assignments endHint
      queue := some ⟨queue.first, begin⟩ }

-- Follows the queue to the first schedule that is still good. Each schedule on the way is taken out
-- of the storage, unless the caller only looks ahead.
def nextGood (take : Bool) (now : Nat) :
    Nat → Nat → (Nat → Option Schedule) → Option Schedule × (Nat → Option Schedule)
  | 0, _, schedules => (none, schedules)
  | fuel + 1, scheduled, schedules =>
    match schedules scheduled with
    | none => (none, schedules)
    | some update =>
      let schedules := if take then Function.update schedules scheduled none else schedules
      if goodAt now update.endHint then
        (some update, schedules)
      else
        match update.nextSchedule with
        | some n => nextGood take now fuel n schedules
        | none => (none, schedules)

def dropExpired (now : Nat) (work : Option WorkState) : Option WorkState :=
  work.filter fun w => goodAt now w.endHint

def ensureWorkload (take : Bool) (now : Nat) (core : Core) : Core :=
  let core := { core with currentWork := dropExpired now core.currentWork }
  match core.queue with
  | none => core
  | some queue =>
    if queue.first > now then
      core
    else
      let update := nextGood take now (queue.last + 1 - queue.first) queue.first core.schedules
      { queue := (update.1.bind Schedule.nextSchedule).map fun first => ⟨first, queue.last⟩
        currentWork := update.1.map Schedule.work
        schedules := update.2 }

end Core

namespace WorkState

-- Serves the assignment at the position, and moves on once its parts are used up.
def serve (w : WorkState) : WorkState × Option CoreAssignment :=
  let pos := w.pos % w.assignments.length
  match w.assignments[pos]? with
  | none => (w, none)
  | some (a, s) =>
    let remaining := s.remaining - w.step
    if remaining < w.step then
      ({ w with
        pos := pos + 1
        assignments := w.assignments.set pos
          (a, { s with remaining := saturatingAddParts remaining s.ratio }) },
       some a)
    else
      ({ w with pos, assignments := w.assignments.set pos (a, { s with remaining }) }, some a)

end WorkState

-- One core moves on by one block. Its assignment is returned, if it has work.
def Core.advance (take : Bool) (now : Nat) (core : Core) : Core × Option CoreAssignment :=
  let core := core.ensureWorkload take now
  match core.currentWork with
  | none => (core, none)
  | some w => ({ core with currentWork := some w.serve.1 }, w.serve.2)

end Coretime
