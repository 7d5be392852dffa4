import RostroModel.TransactionPool.Ready

namespace TransactionPool

variable {H T : Type}

inductive Imported (H T : Type)
  | ready (hash : H) (promoted failed : List H) (removed : List (Transaction H T))
  | future (hash : H)
  deriving DecidableEq, Repr

structure PruneStatus (H T : Type) where
  promoted : List (Imported H T)
  failed : List H
  pruned : List (Transaction H T)
  deriving DecidableEq, Repr

structure Limit where
  count : Nat
  totalBytes : Nat
  deriving DecidableEq, Repr

def Limit.isExceeded (limit : Limit) (count bytes : Nat) : Bool :=
  limit.count < count || limit.totalBytes < bytes

-- The tags of the last two prunings are remembered.
structure BasePool (H T : Type) [LinearOrder H] where
  rejectFutureTransactions : Bool := false
  future : FutureTransactions H T := {}
  ready : ReadyTransactions H T := {}
  recentlyPruned : Fin 2 → List T := fun _ => []
  recentlyPrunedIndex : Fin 2 := 0

namespace BasePool

variable [LinearOrder H] [DecidableEq T] (order : Orders H) (pool : BasePool H T)

def clearRecentlyPruned : BasePool H T :=
  { pool with
    recentlyPruned := fun _ => []
    recentlyPrunedIndex := 0 }

def isImported (hash : H) : Bool :=
  pool.future.contains hash || pool.ready.contains hash

-- What the loop of `import_to_ready` collects.
structure Outcome (H T : Type) where
  promoted : List H := []
  failed : List H := []
  removed : List (Transaction H T) := []
  deriving DecidableEq, Repr

-- The top of the stack comes first. Every round takes one transaction from it,
-- and what is added was waiting.
def importLoop :
    Orders H → Nat → Bool → List (WaitingTransaction H T) → Outcome H T → BasePool H T →
    Except Panic (Except (Error H) (Outcome H T) × BasePool H T)
  | _, 0, _, _, out, pool => .ok (.ok out, pool)
  | _, _ + 1, _, [], out, pool => .ok (.ok out, pool)
  | order, rounds + 1, first, w :: stack, out, pool =>
    match pool.future.satisfyTags (order.sub 0) w.transaction.provides with
    | .error e => .error e
    | .ok (ready, future) =>
      match pool.ready.import (order.sub 1) w with
      | .error e => .error e
      | .ok (.ok replaced, r) =>
        let promoted := if first then out.promoted else out.promoted ++ [w.transaction.hash]
        importLoop (order.sub 2) rounds false (ready.reverse ++ stack)
          { out with
            promoted := promoted.filter fun hash => replaced.all (hash ≠ ·.hash)
            removed := out.removed ++ replaced }
          { pool with future, ready := r }
      | .ok (.error (.tooLowPriority old new), r) =>
        if first then .ok (.error (.tooLowPriority old new), { pool with future, ready := r }) else
        importLoop (order.sub 2) rounds false (ready.reverse ++ stack)
          { out with
            promoted := out.promoted.filter (· ≠ w.transaction.hash)
            removed := out.removed ++ [w.transaction] }
          { pool with future, ready := r }
      | .ok (.error e, r) =>
        if first then .ok (.error e, { pool with future, ready := r }) else
        importLoop (order.sub 2) rounds false (ready.reverse ++ stack)
          { out with failed := out.failed ++ [w.transaction.hash] }
          { pool with future, ready := r }

def importToReady (w : WaitingTransaction H T) :
    Except Panic (Except (Error H) (Imported H T) × BasePool H T) :=
  match importLoop order (pool.future.waiting.size + 1) true [w] {} pool with
  | .error e => .error e
  | .ok (.error e, pool) => .ok (.error e, pool)
  | .ok (.ok out, pool) =>
    -- The promoted transactions pushed out the imported one: there is a cycle.
    if out.removed.any (·.hash = w.transaction.hash) then
      .ok (.error .cycleDetected, { pool with ready := (pool.ready.removeSubtree out.promoted).2 })
    else .ok (.ok (.ready w.transaction.hash out.promoted out.failed out.removed), pool)

def «import» (tx : Transaction H T) (now : Nat) :
    Except Panic (Except (Error H) (Imported H T) × BasePool H T) :=
  if pool.isImported tx.hash then .ok (.error (.alreadyImported tx.hash), pool) else
  let w := .new tx pool.ready.providedTags (fun tag =>
    tag ∈ pool.recentlyPruned 0 || tag ∈ pool.recentlyPruned 1) now
  if w.isReady then pool.importToReady order w else
  if pool.rejectFutureTransactions then .ok (.error .rejectedFutureTransaction, pool) else
  match pool.future.import w with
  | .ok future => .ok (.ok (.future tx.hash), { pool with future })
  | .error e => .error e

def removeSubtree (hashes : List H) : List (Transaction H T) × BasePool H T :=
  let (removed, ready) := pool.ready.removeSubtree hashes
  let (removed', future) := pool.future.remove hashes
  (removed ++ removed', { pool with ready, future })

def clearFuture : List (Transaction H T) × BasePool H T :=
  let (removed, future) := pool.future.clear order
  (removed, { pool with future })

-- The lowest priority, then the one that was inserted first.
def worstReady (worst : Option (TransactionRef H T)) (current : ReadyTx H T) :
    Option (TransactionRef H T) :=
  match worst with
  | none => some current.transaction
  | some worst =>
    if worst.transaction.priority < current.transaction.transaction.priority then some worst else
    if current.transaction.transaction.priority <
      worst.transaction.priority then some current.transaction else
    if current.transaction.insertionId < worst.insertionId then some current.transaction
    else some worst

-- The earliest one.
def worstFuture (worst : Option (WaitingTransaction H T)) (current : WaitingTransaction H T) :
    Option (WaitingTransaction H T) :=
  match worst with
  | none => some current
  | some worst =>
    match worst.transaction.timestamp, current.transaction.timestamp with
    | some worstTimestamp, some currentTimestamp =>
      if currentTimestamp < worstTimestamp then some current else some worst
    | _, _ => if current.importedAt < worst.importedAt then some current else some worst

-- The worst transaction is removed with all that depend on it until the limit is
-- kept. Every round removes one.
def enforceReady (limit : Limit) :
    Orders H → Nat → BasePool H T → List (Transaction H T) × BasePool H T
  | _, 0, pool => ([], pool)
  | order, rounds + 1, pool =>
    if limit.isExceeded pool.ready.len pool.ready.bytes then
      match (pool.ready.values order).foldl worstReady none with
      | some worst =>
        let (removed, pool) := pool.removeSubtree [worst.transaction.hash]
        let (removed', pool) := enforceReady limit (order.sub 0) rounds pool
        (removed ++ removed', pool)
      | none => ([], pool)
    else ([], pool)

def enforceFuture (limit : Limit) :
    Orders H → Nat → BasePool H T → List (Transaction H T) × BasePool H T
  | _, 0, pool => ([], pool)
  | order, rounds + 1, pool =>
    if limit.isExceeded pool.future.len pool.future.bytes then
      match (pool.future.values order).foldl worstFuture none with
      | some worst =>
        let (removed, pool) := pool.removeSubtree [worst.transaction.hash]
        let (removed', pool) := enforceFuture limit (order.sub 0) rounds pool
        (removed ++ removed', pool)
      | none => ([], pool)
    else ([], pool)

def enforceLimits (ready future : Limit) : List (Transaction H T) × BasePool H T :=
  let (removed, pool) := enforceReady ready (order.sub 0) pool.ready.len pool
  let (removed', pool) := enforceFuture future (order.sub 1) pool.future.len pool
  (removed ++ removed', pool)

-- The loop over the tags: promotes what waits for a tag and prunes the
-- transactions that lead to it.
def pruneEach : Orders H → List T → BasePool H T →
    Except Panic (List (WaitingTransaction H T) × List (Transaction H T) × BasePool H T)
  | _, [], pool => .ok ([], [], pool)
  | order, tag :: rest, pool =>
    match pool.future.satisfyTags (order.sub 0) [tag] with
    | .error e => .error e
    | .ok (unlocked, future) =>
      match pool.ready.pruneTags tag with
      | .error e => .error e
      | .ok (pruned, ready) =>
        match pruneEach (order.sub 1) rest { pool with future, ready } with
        | .error e => .error e
        | .ok (unlocked', pruned', pool) => .ok (unlocked ++ unlocked', pruned ++ pruned', pool)

def importEach : Orders H → List (WaitingTransaction H T) → BasePool H T →
    Except Panic (List (Imported H T) × List H × BasePool H T)
  | _, [], pool => .ok ([], [], pool)
  | order, w :: rest, pool =>
    match pool.importToReady (order.sub 0) w with
    | .error e => .error e
    | .ok (result, pool) =>
      match importEach (order.sub 1) rest pool with
      | .error e => .error e
      | .ok (promoted, failed, pool) =>
        match result with
        | .ok imported => .ok (imported :: promoted, failed, pool)
        | .error _ => .ok (promoted, w.transaction.hash :: failed, pool)

-- The tags are remembered and the waiting transactions that provide one of them are removed.
def pruneFuture (tags : List T) : List (Transaction H T) × BasePool H T :=
  let (removed, future) := pool.future.pruneTags order tags
  (removed, { pool with
    future
    recentlyPruned := Function.update pool.recentlyPruned pool.recentlyPrunedIndex tags
    recentlyPrunedIndex := pool.recentlyPrunedIndex + 1 })

def pruneTags (tags : List T) : Except Panic (PruneStatus H T × BasePool H T) :=
  let (futuresRemoved, pool) := pool.pruneFuture (order.sub 0) tags
  match pruneEach (order.sub 1) tags pool with
  | .error e => .error e
  | .ok (toImport, pruned, pool) =>
    match importEach (order.sub 2) toImport pool with
    | .error e => .error e
    | .ok (promoted, failed, pool) =>
      .ok ({ promoted, failed := futuresRemoved.map (·.hash) ++ failed, pruned }, pool)

end BasePool

-- What is done with a pool.
inductive Call (H T : Type)
  | «import» (tx : Transaction H T) (now : Nat)
  | removeSubtree (hashes : List H)
  | pruneTags (tags : List T)
  | enforceLimits (ready future : Limit)
  | clearFuture
  | clearRecentlyPruned
  | rejectFutureTransactions (reject : Bool)
  deriving DecidableEq, Repr

section Calls

variable [LinearOrder H] [DecidableEq T]

def perform (order : Orders H) (pool : BasePool H T) : Call H T → Except Panic (BasePool H T)
  | .import tx now => (pool.import order tx now).map (·.2)
  | .removeSubtree hashes => .ok (pool.removeSubtree hashes).2
  | .pruneTags tags => (pool.pruneTags order tags).map (·.2)
  | .enforceLimits ready future => .ok (pool.enforceLimits order ready future).2
  | .clearFuture => .ok (pool.clearFuture order).2
  | .clearRecentlyPruned => .ok pool.clearRecentlyPruned
  | .rejectFutureTransactions reject => .ok { pool with rejectFutureTransactions := reject }

def performAll : Orders H → List (Call H T) → BasePool H T → Except Panic (BasePool H T)
  | _, [], pool => .ok pool
  | order, call :: calls, pool =>
    match perform (order.sub 0) pool call with
    | .ok pool => performAll (order.sub 1) calls pool
    | .error e => .error e

end Calls

end TransactionPool
