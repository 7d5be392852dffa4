import RostroModel.ForkTree.DescendentFinality
import RostroModel.Library.BinarySearch

namespace Grandpa

variable {I H N E : Type}

abbrev AuthorityList (I : Type) := List (I × Nat)

-- Authority sets must be non-empty and all weights must be greater than 0.
def invalidAuthorityList (authorities : AuthorityList I) : Bool :=
  authorities.isEmpty || authorities.any (·.2 = 0)

inductive DelayKind (N : Type)
  | finalized
  | best (medianLastFinalized : N)
  deriving DecidableEq, Repr

structure PendingChange (I H N : Type) where
  nextAuthorities : AuthorityList I
  delay : N
  canonHeight : N
  canonHash : H
  delayKind : DelayKind N
  deriving DecidableEq, Repr

def PendingChange.effectiveNumber [Add N] (change : PendingChange I H N) : N :=
  change.canonHeight + change.delay

inductive Error (N E : Type)
  | invalidAuthoritySet
  | client (error : E)
  | duplicateAuthoritySetChange
  | multiplePendingForcedAuthoritySetChanges
  | forcedAuthoritySetChangeDependencyUnsatisfied (number : N)
  | forkTree (error : ForkTree.Error E)
  deriving DecidableEq, Repr

def Error.ofForkTree : ForkTree.Error E → Error N E
  | .client error => .client error
  | .duplicate => .duplicateAuthoritySetChange
  | error => .forkTree error

abbrev AuthoritySetChanges (N : Type) := List (Nat × N)

inductive AuthoritySetChangeId (N : Type)
  | latest
  | set (setId : Nat) (blockNumber : N)
  | unknown
  deriving DecidableEq, Repr

namespace AuthoritySetChanges

def append (changes : AuthoritySetChanges N) (setId : Nat) (blockNumber : N) :
    AuthoritySetChanges N :=
  changes ++ [(setId, blockNumber)]

variable [LinearOrder N]

-- `binary_search_by_key`, of which only the position is used.
def position (changes : AuthoritySetChanges N) (blockNumber : N) : Nat :=
  BinarySearch.position (fun i => (changes[i]?).elim .gt fun e => compare e.2 blockNumber)
    changes.length

def getSetId (changes : AuthoritySetChanges N) (blockNumber : N) : AuthoritySetChangeId N :=
  if changes.getLast?.any (·.2 < blockNumber) then .latest else
  let idx := changes.position blockNumber
  match changes[idx]? with
  -- If this is the first index but not the first set id then data is missing.
  | some (setId, last) => if idx = 0 ∧ setId ≠ 0 then .unknown else .set setId last
  | none => .unknown

end AuthoritySetChanges

@[ext]
structure AuthoritySet (I H N : Type) where
  currentAuthorities : AuthorityList I
  setId : Nat := 0
  pendingStandardChanges : ForkTree H N (PendingChange I H N) := {}
  pendingForcedChanges : List (PendingChange I H N) := []
  authoritySetChanges : AuthoritySetChanges N := []

structure Status (H N : Type) where
  changed : Bool := false
  newSetBlock : Option (H × N) := none
  deriving DecidableEq, Repr

namespace AuthoritySet

def genesis (initial : AuthorityList I) : Option (AuthoritySet I H N) :=
  if invalidAuthorityList initial then none else some { currentAuthorities := initial }

variable [DecidableEq H] [LinearOrder N] [Add N] (set : AuthoritySet I H N)
variable (isDescendentOf : H → H → Except E Bool)

-- An operation returns the set in any case, since what is done before an error is not undone.
def addStandardChange (pending : PendingChange I H N) :
    Except (Error N E) Unit × AuthoritySet I H N :=
  let (result, tree) :=
    set.pendingStandardChanges.importNode pending.canonHash pending.canonHeight
      isDescendentOf pending
  ((result.mapError Error.ofForkTree).map fun _ => (), { set with pendingStandardChanges := tree })

-- The checks of a forced change against those that are pending.
def checkForced (pending : PendingChange I H N) :
    List (PendingChange I H N) → Except (Error N E) Unit
  | [] => .ok ()
  | change :: changes =>
    if change.canonHash = pending.canonHash then .error .duplicateAuthoritySetChange else
    match isDescendentOf change.canonHash pending.canonHash with
    | .error e => .error (.client e)
    | .ok true => .error .multiplePendingForcedAuthoritySetChanges
    | .ok false => checkForced pending changes

-- Ordered first by effective number and then by signal-block number.
def forcedKey (change : PendingChange I H N) : N ×ₗ N :=
  toLex (change.effectiveNumber, change.canonHeight)

def forcedPosition (pending : PendingChange I H N) : Nat :=
  BinarySearch.position
    (fun i => (set.pendingForcedChanges[i]?).elim .gt fun c =>
      compare (forcedKey c) (forcedKey pending))
    set.pendingForcedChanges.length

def addForcedChange (pending : PendingChange I H N) :
    Except (Error N E) Unit × AuthoritySet I H N :=
  match checkForced isDescendentOf pending set.pendingForcedChanges with
  | .error e => (.error e, set)
  | .ok () =>
    (.ok (), { set with
      pendingForcedChanges :=
        set.pendingForcedChanges.insertIdx (set.forcedPosition pending) pending })

def addPendingChange (pending : PendingChange I H N) :
    Except (Error N E) Unit × AuthoritySet I H N :=
  if invalidAuthorityList pending.nextAuthorities then (.error .invalidAuthoritySet, set) else
  match pending.delayKind with
  | .best _ => set.addForcedChange isDescendentOf pending
  | .finalized => set.addStandardChange isDescendentOf pending

-- The earliest effective number of the next standard changes that is not below `min`.
def currentLimit (min : N) : Option N :=
  ((set.pendingStandardChanges.roots.map (·.data.effectiveNumber)).filter (min ≤ ·)).min?

-- The block is the one that signals the change or a descendant of it.
def signalledAbove (hash : H) (change : PendingChange I H N) : Except E Bool :=
  if change.canonHash = hash then .ok true else isDescendentOf change.canonHash hash

-- The first of the changes that was signalled on the chain of the block.
def findForced (hash : H) : List (PendingChange I H N) → Except E (Option (PendingChange I H N))
  | [] => .ok none
  | change :: changes =>
    match signalledAbove isDescendentOf hash change with
    | .error e => .error e
    | .ok true => .ok (some change)
    | .ok false => findForced hash changes

-- The effective number of a pending standard change that has to be applied before the forced one.
def findDependency (medianLastFinalized : N) (change : PendingChange I H N) :
    List (ForkTree.Node H N (PendingChange I H N)) → Except E (Option N)
  | [] => .ok none
  | root :: roots =>
    match
      if root.data.effectiveNumber ≤ medianLastFinalized then
        isDescendentOf root.data.canonHash change.canonHash
      else .ok false with
    | .error e => .error e
    | .ok true => .ok (some root.data.effectiveNumber)
    | .ok false => findDependency medianLastFinalized change roots

-- The set once a forced change is applied: new set, new changes.
def withForced (medianLastFinalized : N) (change : PendingChange I H N) : AuthoritySet I H N where
  currentAuthorities := change.nextAuthorities
  setId := set.setId + 1
  authoritySetChanges := set.authoritySetChanges.append set.setId medianLastFinalized

def applyForcedChanges (bestHash : H) (bestNumber : N) :
    Except (Error N E) (Option (N × AuthoritySet I H N)) :=
  let changes := (set.pendingForcedChanges.takeWhile (·.effectiveNumber ≤ bestNumber)).filter
    (·.effectiveNumber = bestNumber)
  match findForced isDescendentOf bestHash changes with
  | .error e => .error (.client e)
  | .ok none => .ok none
  | .ok (some change) =>
    match change.delayKind with
    | .finalized                => .ok none -- not reached, the pending changes are forced
    | .best medianLastFinalized =>
      match findDependency isDescendentOf medianLastFinalized change
          set.pendingStandardChanges.roots with
      | .error e => .error (.client e)
      | .ok (some number) => .error (.forcedAuthoritySetChangeDependencyUnsatisfied number)
      | .ok none => .ok (some (medianLastFinalized, set.withForced medianLastFinalized change))

-- Forced changes are kept for later blocks of the branch. A change whose query fails is
-- lost, and so are those after it.
def retainForced (finalizedHash : H) (finalizedNumber : N) :
    List (PendingChange I H N) → List (PendingChange I H N) →
      Except E Unit × List (PendingChange I H N)
  | [], kept => (.ok (), kept)
  | change :: changes, kept =>
    match
      if finalizedNumber < change.effectiveNumber then
        isDescendentOf finalizedHash change.canonHash
      else .ok false with
    | .error e => (.error e, kept)
    | .ok true => retainForced finalizedHash finalizedNumber changes (kept ++ [change])
    | .ok false => retainForced finalizedHash finalizedNumber changes kept

def withStandard (finalizedNumber : N) (change : PendingChange I H N) : AuthoritySet I H N :=
  { set with
    currentAuthorities := change.nextAuthorities
    setId := set.setId + 1
    authoritySetChanges := set.authoritySetChanges.append set.setId finalizedNumber }

def applyStandardChanges (finalizedHash : H) (finalizedNumber : N) :
    Except (Error N E) (Status H N) × AuthoritySet I H N :=
  let (result, tree) :=
    set.pendingStandardChanges.finalizeWithDescendentIf finalizedHash finalizedNumber isDescendentOf
      (·.effectiveNumber ≤ finalizedNumber)
  let set := { set with pendingStandardChanges := tree }
  match result with
  | .error e => (.error (.ofForkTree e), set)
  | .ok .unchanged => (.ok {}, set)
  | .ok (.changed change) =>
    let (result, forced) :=
      retainForced isDescendentOf finalizedHash finalizedNumber set.pendingForcedChanges []
    let set := { set with pendingForcedChanges := forced }
    match result, change with
    | .error e, _ => (.error (.client e), set)
    | .ok (), none => (.ok { changed := true }, set)
    | .ok (), some change =>
      (.ok { changed := true, newSetBlock := some (finalizedHash, finalizedNumber) },
        set.withStandard finalizedNumber change)

def enactsStandardChange (finalizedHash : H) (finalizedNumber : N) :
    Except (Error N E) (Option Bool) :=
  (set.pendingStandardChanges.finalizesAnyWithDescendentIf finalizedHash finalizedNumber
    isDescendentOf (·.effectiveNumber = finalizedNumber)).mapError .forkTree

end AuthoritySet
end Grandpa
