import RostroModel.Library.TreeMap
import RostroModel.Library.Machine

namespace TransactionPool

-- Transaction hashes and tags.
variable {H T : Type}

-- An order for each iteration over a hash set or a hash map. It is found by the way through the
-- loops and calls that leads to the iteration, so that no two iterations need to have the same.
def Orders (H : Type) := List Nat → List H → List H

namespace Orders

variable (order : Orders H)

def here : List H → List H :=
  order []

def sub (i : Nat) : Orders H :=
  fun path => order (i :: path)

def Permutes : Prop :=
  ∀ path l, (order path l).Perm l

variable {order}

theorem Permutes.here (h : order.Permutes) (l : List H) : (order.here l).Perm l :=
  h [] l

theorem Permutes.sub (h : order.Permutes) (i : Nat) : (order.sub i).Permutes :=
  fun path => h (i :: path)

end Orders

structure Transaction (H T : Type) where
  hash : H
  bytes : Nat := 1
  priority : Nat := 1
  validTill : Nat := 64
  requires : List T := []
  provides : List T := []
  timestamp : Option Nat := none
  deriving DecidableEq, Repr

-- The assertions and expectations of the two queues.
inductive Panic
  | waitingProof
  | hashReady
  | alreadyImported
  | transactionIsReady
  | transactionIsNotReady
  | providedTag
  deriving DecidableEq, Repr

structure WaitingTransaction (H T : Type) where
  transaction : Transaction H T
  missingTags : List T
  importedAt : Nat
  deriving DecidableEq, Repr

namespace WaitingTransaction

variable [DecidableEq T] (w : WaitingTransaction H T)

-- A tag is satisfied by a transaction in the pool or by one that was recently included.
def new (tx : Transaction H T) (provided : T → Option H) (recentlyPruned : T → Bool) (now : Nat) :
    WaitingTransaction H T where
  transaction := tx
  missingTags := (tx.requires.filter fun tag =>
    !((provided tag).isSome || recentlyPruned tag)).dedup
  importedAt := now

def satisfyTag (tag : T) : WaitingTransaction H T :=
  { w with missingTags := w.missingTags.erase tag }

def isReady : Bool :=
  w.missingTags = []

end WaitingTransaction

-- Transactions that wait for tags. A set of hashes is a list, and it is iterated in any order.
structure FutureTransactions (H T : Type) [LinearOrder H] where
  wantedTags : T → Option (List H) := fun _ => none
  waiting : Std.ExtTreeMap H (WaitingTransaction H T) := ∅

namespace FutureTransactions

variable [LinearOrder H] [DecidableEq T] (order : Orders H)

def addWanted (hash : H) (wanted : T → Option (List H)) (tag : T) : T → Option (List H) :=
  Function.update wanted tag (some (((wanted tag).getD []).insert hash))

def removeWanted (hash : H) (wanted : T → Option (List H)) (tag : T) : T → Option (List H) :=
  match wanted tag with
  | some hashes =>
    if hashes.erase hash = [] then Function.update wanted tag none
    else Function.update wanted tag (some (hashes.erase hash))
  | none => wanted

variable (future : FutureTransactions H T)

def «import» (w : WaitingTransaction H T) : Except Panic (FutureTransactions H T) :=
  if w.isReady then .error .transactionIsReady else
  if w.transaction.hash ∈ future.waiting then .error .alreadyImported else
  .ok {
    wantedTags := w.missingTags.foldl (addWanted w.transaction.hash) future.wantedTags
    waiting := future.waiting.insert w.transaction.hash w }

def contains (hash : H) : Bool :=
  hash ∈ future.waiting

def satisfyWanted (tag : T) : List H → FutureTransactions H T →
    Except Panic (List (WaitingTransaction H T) × FutureTransactions H T)
  | [], future => .ok ([], future)
  | hash :: rest, future =>
    match future.waiting[hash]? with
    | none => .error .waitingProof
    | some w =>
      if (w.satisfyTag tag).isReady then
        match satisfyWanted tag rest { future with waiting := future.waiting.erase hash } with
        | .ok (ready, future) => .ok (w.satisfyTag tag :: ready, future)
        | .error e => .error e
      else satisfyWanted tag rest { future with
        waiting := future.waiting.insert hash (w.satisfyTag tag) }

-- Returns and removes the transactions that became ready.
def satisfyTags : Orders H → List T → FutureTransactions H T →
    Except Panic (List (WaitingTransaction H T) × FutureTransactions H T)
  | _, [], future => .ok ([], future)
  | order, tag :: rest, future =>
    match future.wantedTags tag with
    | none => satisfyTags (order.sub 0) rest future
    | some hashes =>
      match satisfyWanted tag (order.here hashes)
          { future with wantedTags := Function.update future.wantedTags tag none } with
      | .error e => .error e
      | .ok (ready, future) =>
        match satisfyTags (order.sub 0) rest future with
        | .error e => .error e
        | .ok (ready', future) => .ok (ready ++ ready', future)

def remove : List H → FutureTransactions H T → List (Transaction H T) × FutureTransactions H T
  | [], future => ([], future)
  | hash :: rest, future =>
    match future.waiting[hash]? with
    | some w =>
      let (removed, future) := remove rest {
        wantedTags := w.missingTags.foldl (removeWanted hash) future.wantedTags
        waiting := future.waiting.erase hash }
      (w.transaction :: removed, future)
    | none => remove rest future

def values : List (WaitingTransaction H T) :=
  (order.here future.waiting.keys).filterMap (future.waiting[·]?)

def pruneTags (tags : List T) : List (Transaction H T) × FutureTransactions H T :=
  remove (((future.values order).filter fun w => w.transaction.provides.any (· ∈ tags)).map
    (·.transaction.hash)) future

def clear : List (Transaction H T) × FutureTransactions H T :=
  ((future.values order).map (·.transaction), {})

def len : Nat :=
  future.waiting.size

def bytes : Nat :=
  future.waiting.sumBy fun _ w => w.transaction.bytes

end FutureTransactions
end TransactionPool
