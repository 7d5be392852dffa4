import RostroModel.TransactionPool.Future

namespace TransactionPool

variable {H T : Type}

structure TransactionRef (H T : Type) where
  transaction : Transaction H T
  insertionId : Nat
  deriving DecidableEq, Repr

-- References are compared by their priority, then the shorter validity, then the earlier insertion.
abbrev Rank := Nat ×ₗ Natᵒᵈ ×ₗ Natᵒᵈ

def TransactionRef.rank (ref : TransactionRef H T) : Rank :=
  toLex (ref.transaction.priority,
    toLex (OrderDual.toDual ref.transaction.validTill, OrderDual.toDual ref.insertionId))

structure ReadyTx (H T : Type) where
  transaction : TransactionRef H T
  unlocks : List H
  requiresOffset : Nat
  deriving DecidableEq, Repr

inductive Error (H : Type)
  | alreadyImported (hash : H)
  | rejectedFutureTransaction
  | tooLowPriority (old new : Nat)
  | cycleDetected
  deriving DecidableEq, Repr

-- The element is replaced by the last one.
def removeItem [DecidableEq H] (l : List H) (item : H) : List H :=
  match l.idxOf? item, l.getLast? with
  | some i, some last => (l.set i last).dropLast
  | _, _ => l

-- The set of best references is a map from what is compared.
structure ReadyTransactions (H T : Type) [LinearOrder H] where
  insertionId : Nat := 0
  providedTags : T → Option H := fun _ => none
  ready : Std.ExtTreeMap H (ReadyTx H T) := ∅
  best : Std.ExtTreeMap Rank (TransactionRef H T) := ∅

namespace ReadyTransactions

variable [LinearOrder H] [DecidableEq T] (order : Orders H) (r : ReadyTransactions H T)

def contains (hash : H) : Bool :=
  hash ∈ r.ready

def removeUnlock (hash : H) (provided : T → Option H)
    (ready : Std.ExtTreeMap H (ReadyTx H T)) (tag : T) :
    Std.ExtTreeMap H (ReadyTx H T) :=
  match provided tag with
  | some other =>
    match ready[other]? with
    | some tx => ready.insert other { tx with unlocks := removeItem tx.unlocks hash }
    | none => ready
  | none => ready

-- The tags of a transaction that are not in the filter.
def invalidated (filter : Option (List T)) (tx : Transaction H T) : List T :=
  tx.provides.filter fun tag => filter.elim true fun filter => tag ∉ filter

-- One round of the loop, for a transaction that is in the queue.
def removeOne (filter : Option (List T)) (hash : H) (tx : ReadyTx H T) : ReadyTransactions H T :=
  let provided := (invalidated filter tx.transaction.transaction).foldl
    (fun provided tag => Function.update provided tag none) r.providedTags
  { r with
    providedTags := provided
    ready := tx.transaction.transaction.requires.foldl (removeUnlock hash provided)
      (r.ready.erase hash)
    best := r.best.erase tx.transaction.rank }

-- The top of the stack comes first. At most as many rounds as there are transactions find one;
-- hashes that are not in the queue are skipped.
def removeLoop (filter : Option (List T)) : Nat → List H → ReadyTransactions H T →
    List (Transaction H T) × ReadyTransactions H T
  | 0, _, r => ([], r)
  | rounds + 1, stack, r =>
    match stack.dropWhile fun hash => r.ready[hash]?.isNone with
    | [] => ([], r)
    | hash :: stack =>
      match r.ready[hash]? with
      | none => ([], r)
      | some tx =>
        let unlocks := if invalidated filter tx.transaction.transaction = [] then []
          else tx.unlocks.reverse
        let (removed, r) := removeLoop filter rounds (unlocks ++ stack) (r.removeOne filter hash tx)
        (tx.transaction.transaction :: removed, r)

def removeSubtreeWithTagFilter (toRemove : List H) (filter : Option (List T)) :
    List (Transaction H T) × ReadyTransactions H T :=
  removeLoop filter r.ready.size toRemove.reverse r

def removeSubtree (hashes : List H) : List (Transaction H T) × ReadyTransactions H T :=
  r.removeSubtreeWithTagFilter hashes none

-- The transactions that provide a tag of the new one.
def replaceHashes (tx : Transaction H T) : List H :=
  (tx.provides.filterMap r.providedTags).dedup

def oldPriority (hashes : List H) : Nat :=
  (hashes.filterMap (r.ready[·]?)).foldl
    (fun total tx => Machine.saturatingAdd 64 total tx.transaction.transaction.priority) 0

def replacePrevious (tx : Transaction H T) :
    Except (Error H) (List (Transaction H T) × List H × ReadyTransactions H T) :=
  let hashes := order.here (r.replaceHashes tx)
  if hashes = [] then .ok ([], [], r) else
  if tx.priority ≤ r.oldPriority hashes then .error
    (.tooLowPriority (r.oldPriority hashes) tx.priority) else
  let unlocks := (hashes.filterMap (r.ready[·]?)).flatMap (·.unlocks)
  let (removed, r) := r.removeSubtreeWithTagFilter hashes (some tx.provides)
  .ok (removed, unlocks, r)

-- Adds links to the transactions that unlock the new one. Returns how many
-- tags no transaction provides.
def link (hash : H) (provided : T → Option H) : List T → Std.ExtTreeMap H (ReadyTx H T) →
    Except Panic (Nat × Std.ExtTreeMap H (ReadyTx H T))
  | [], ready => .ok (0, ready)
  | tag :: rest, ready =>
    match provided tag with
    | some other =>
      match ready[other]? with
      | some tx =>
        link hash provided rest (ready.insert other { tx with unlocks := tx.unlocks ++ [hash] })
      | none => .error .hashReady
    | none =>
      match link hash provided rest ready with
      | .ok (offset, ready) => .ok (offset + 1, ready)
      | .error e => .error e

def «import» (w : WaitingTransaction H T) :
    Except Panic (Except (Error H) (List (Transaction H T)) × ReadyTransactions H T) :=
  if ¬w.isReady then .error .transactionIsNotReady else
  if w.transaction.hash ∈ r.ready then .error .alreadyImported else
  let r := { r with insertionId := r.insertionId + 1 }
  match r.replacePrevious order w.transaction with
  | .error e => .ok (.error e, r)
  | .ok (replaced, unlocks, r) =>
    match link w.transaction.hash r.providedTags w.transaction.requires r.ready with
    | .error e => .error e
    | .ok (requiresOffset, ready) =>
      let ref := { transaction := w.transaction, insertionId := r.insertionId }
      .ok (.ok replaced, {
        insertionId := r.insertionId
        providedTags := w.transaction.provides.foldl
          (fun provided tag => Function.update provided tag (some w.transaction.hash))
            r.providedTags
        -- It goes to the best ones if no tag is provided by another transaction.
        best :=
          if requiresOffset = w.transaction.requires.length then r.best.insertIfNew ref.rank ref
          else r.best
        ready := ready.insert w.transaction.hash { transaction := ref, unlocks, requiresOffset } })

-- Finds the next tag that is provided by a transaction and takes both out.
def nextPruned : List T → ReadyTransactions H T →
    Option (T × ReadyTx H T × List T) × ReadyTransactions H T
  | [], r => (none, r)
  | tag :: stack, r =>
    let r' := { r with providedTags := Function.update r.providedTags tag none }
    match (r.providedTags tag).bind fun hash => (r.ready[hash]?).map (hash, ·) with
    | some (hash, tx) => (some (tag, tx, stack), { r' with ready := r.ready.erase hash })
    | none => nextPruned stack r'

-- The previous transactions that unlock nothing else are pruned as well. Returns their tags.
def findPrevious (hash : H) (provided : T → Option H) : List T → Std.ExtTreeMap H (ReadyTx H T) →
    List T × Std.ExtTreeMap H (ReadyTx H T)
  | [], ready => ([], ready)
  | tag :: rest, ready =>
    match (provided tag).bind fun other => (ready[other]?).map (other, ·) with
    | some (other, tx) =>
      let unlocks := removeItem tx.unlocks hash
      let (tags, ready) := findPrevious hash provided rest (ready.insert other { tx with unlocks })
      (if unlocks = [] then tx.transaction.transaction.provides ++ tags else tags, ready)
    | none => findPrevious hash provided rest ready

-- One of the required tags of a transaction is provided inherently now.
def unlock (r : ReadyTransactions H T) (hash : H) : ReadyTransactions H T :=
  match r.ready[hash]? with
  | some tx =>
    let tx := { tx with requiresOffset := tx.requiresOffset + 1 }
    { r with
      ready := r.ready.insert hash tx
      best :=
        if tx.requiresOffset = tx.transaction.transaction.requires.length then
          r.best.insertIfNew tx.transaction.rank tx.transaction
        else r.best }
  | none => r

-- All tags of the pruned transaction are removed. They have to be mapped to it.
def clearProvided (hash : H) (current : T) : List T → (T → Option H) → Except Panic (T → Option H)
  | [], provided => .ok provided
  | tag :: rest, provided =>
    if provided tag = (if current = tag then none else some hash) then
      clearProvided hash current rest (Function.update provided tag none)
    else .error .providedTag

-- One round of the loop, for the transaction that was taken out. Returns the
-- tags that are pruned as well.
def pruneOne (tag : T) (tx : ReadyTx H T) : Except Panic (List T × ReadyTransactions H T) :=
  let hash := tx.transaction.transaction.hash
  let (tags, ready) := findPrevious hash r.providedTags tx.transaction.transaction.requires r.ready
  let r := tx.unlocks.foldl unlock { r with ready, best := r.best.erase tx.transaction.rank }
  match clearProvided hash tag tx.transaction.transaction.provides r.providedTags with
  | .ok providedTags => .ok (tags, { r with providedTags })
  | .error e => .error e

-- As for `removeLoop`, every round takes a transaction out of the queue.
def pruneLoop : Nat → List T → ReadyTransactions H T →
    Except Panic (List (Transaction H T) × ReadyTransactions H T)
  | 0, stack, r => .ok ([], (nextPruned stack r).2)
  | rounds + 1, stack, r =>
    match nextPruned stack r with
    | (none, r) => .ok ([], r)
    | (some (tag, tx, stack), r) =>
      match r.pruneOne tag tx with
      | .error e => .error e
      | .ok (tags, r) =>
        match pruneLoop rounds (tags.reverse ++ stack) r with
        | .error e => .error e
        | .ok (removed, r) => .ok (tx.transaction.transaction :: removed, r)

def pruneTags (tag : T) : Except Panic (List (Transaction H T) × ReadyTransactions H T) :=
  pruneLoop r.ready.size [tag] r

def values : List (ReadyTx H T) :=
  (order.here r.ready.keys).filterMap (r.ready[·]?)

def len : Nat :=
  r.ready.size

def bytes : Nat :=
  r.ready.sumBy fun _ tx => tx.transaction.transaction.bytes

end ReadyTransactions
end TransactionPool
