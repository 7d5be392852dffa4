import RostroModel.Overlay.Changeset

namespace Overlay

open Std

-- A dirty set is a hash set or an ordered set, depending on the build. Nothing depends on the order
-- in which it is traversed.
structure OverlayedMap (K V : Type) [Ord K] where
  changes : ExtTreeMap K (OverlayedEntry V) := ∅
  dirtyKeys : List (ExtTreeSet K) := []
  numClientTransactions : Nat := 0
  executionMode : ExecutionMode := .client

abbrev OverlayedChangeSet := OverlayedMap StorageKey StorageEntry

-- The sets of the open transactions, the innermost first. Reports whether this is the first write
-- to the key in the innermost transaction.
def insertDirty {K : Type} [Ord K] [TransOrd K] (sets : List (ExtTreeSet K)) (key : K) :
    Bool × List (ExtTreeSet K) :=
  match sets with
  | [] => (false, [])
  | d :: ds => (!d.contains key, d.insert key :: ds)

namespace OverlayedMap

variable {K V : Type} [Ord K] [TransOrd K]

def transactionDepth (m : OverlayedMap K V) : Nat :=
  m.dirtyKeys.length

def spawnChild (m : OverlayedMap K V) : OverlayedMap K V :=
  { m with changes := ∅, dirtyKeys := List.replicate m.transactionDepth ∅ }

def isEmpty (m : OverlayedMap K V) : Bool :=
  m.changes.isEmpty

def get (m : OverlayedMap K V) (key : K) : Option (OverlayedEntry V) :=
  m.changes[key]?

-- The common part of `set`, `append_storage` and `set_offchain`: `write` gets the entry of the key
-- and whether this is its first write in the innermost transaction.
def writeEntry (m : OverlayedMap K V) (key : K)
    (write : OverlayedEntry V → Bool → Except Panic (OverlayedEntry V)) :
    Except Panic (OverlayedMap K V) := do
  let overlayed := m.changes[key]?.getD {}
  let (firstWriteInTx, dirtyKeys) := insertDirty m.dirtyKeys key
  let overlayed ← write overlayed firstWriteInTx
  pure { m with changes := m.changes.insert key overlayed, dirtyKeys }

def setOffchain (m : OverlayedMap K V) (key : K) (value : V) (atExtrinsic : Option UInt32) :
    Except Panic (OverlayedMap K V) :=
  m.writeEntry key (·.setOffchain value · atExtrinsic)

def hasOpenRuntimeTransactions (m : OverlayedMap K V) : Bool :=
  m.transactionDepth > m.numClientTransactions

def enterRuntime (m : OverlayedMap K V) : Except AlreadyInRuntime (OverlayedMap K V) :=
  match m.executionMode with
  | .runtime => .error {}
  | .client =>
    .ok { m with executionMode := .runtime, numClientTransactions := m.transactionDepth }

def startTransaction (m : OverlayedMap K V) : OverlayedMap K V :=
  { m with dirtyKeys := ∅ :: m.dirtyKeys }

-- How `close_transaction` and `close_transaction_offchain` differ: `undo` drops the newest version
-- of an entry, `merge` writes it over the one below.
structure Closing (V : Type) where
  undo : OverlayedEntry V → Except Panic (OverlayedEntry V)
  merge : OverlayedEntry V → Except Panic (OverlayedEntry V)

def rollbackKey (c : Closing V) (m : OverlayedMap K V) (key : K) :
    Except Panic (OverlayedMap K V) := do
  let overlayed ← expect m.changes[key]? .dirtyKey
  let overlayed ← c.undo overlayed
  if overlayed.transactions.isEmpty then
    pure { m with changes := m.changes.erase key }
  else
    pure { m with changes := m.changes.insert key overlayed }

def commitKey (c : Closing V) (m : OverlayedMap K V) (key : K) :
    Except Panic (OverlayedMap K V) := do
  let overlayed ← expect m.changes[key]? .dirtyKey
  let (hasPredecessor, dirtyKeys) :=
    match m.dirtyKeys with
    | d :: ds => (d.contains key, d.insert key :: ds)
    | [] => (overlayed.transactions.length > 1, [])
  if hasPredecessor then
    let overlayed ← c.merge overlayed
    pure { m with changes := m.changes.insert key overlayed, dirtyKeys }
  else
    pure { m with dirtyKeys }

def closeTransactionWith (c : Closing V) (m : OverlayedMap K V) (rollback : Bool) :
    Except Panic (Except NoOpenTransaction (OverlayedMap K V)) :=
  if m.executionMode = .runtime ∧ ¬m.hasOpenRuntimeTransactions then
    pure (.error {})
  else
    match m.dirtyKeys with
    | [] => pure (.error {})
    | d :: ds => do
      let closeKey := if rollback then rollbackKey c else commitKey c
      let m ← d.toList.foldlM closeKey { m with dirtyKeys := ds }
      pure (.ok m)

-- The loop of `exit_runtime`: every pass closes one transaction, so the depth bounds the passes.
def rollbackOpen (c : Closing V) : Nat → OverlayedMap K V → Except Panic (OverlayedMap K V)
  | 0, m => pure m
  | passes + 1, m =>
    if m.hasOpenRuntimeTransactions then do
      let m ← expect (← m.closeTransactionWith c true).toOption .loopCondition
      rollbackOpen c passes m
    else pure m

def exitRuntimeWith (c : Closing V) (m : OverlayedMap K V) :
    Except Panic (Except NotInRuntime (OverlayedMap K V)) :=
  match m.executionMode with
  | .client => pure (.error {})
  | .runtime => do
    let m ← rollbackOpen c m.transactionDepth { m with executionMode := .client }
    pure (.ok m)

def closingOffchain : Closing V where
  undo e := do
    let (_, e) ← e.popTransaction
    pure e
  merge e := do
    let (dropped, e) ← e.popTransaction
    let e ← e.setValue dropped.value
    e.modifyExtrinsics (·.extend dropped.extrinsics)

def rollbackTransactionOffchain (m : OverlayedMap K V) :=
  m.closeTransactionWith closingOffchain true

def commitTransactionOffchain (m : OverlayedMap K V) :=
  m.closeTransactionWith closingOffchain false

def exitRuntimeOffchain (m : OverlayedMap K V) :=
  m.exitRuntimeWith closingOffchain

end OverlayedMap

namespace OverlayedChangeSet

open OverlayedMap

variable (codec : CompactCodec)

def closing : Closing StorageEntry where
  undo e := do
    let (dropped, e) ← e.popTransaction
    match dropped.value with
    | .append data _ materialized (some parentSize) => do
      let parent ← e.valueRef
      e.setValue (restoreAppendToParent codec parent data materialized parentSize)
    | _ => pure e
  merge e := do
    let (committed, e) ← e.popTransaction
    let parent ← e.valueRef
    let e ←
      match committed.value, parent with
      -- Consecutive appends keep what the parent knows about the layer below it.
      | .append data length materialized (some _), .append _ _ _ keepMe =>
        e.setValue (.append data length materialized keepMe)
      -- The overwritten value may hold the buffer of the layer below it.
      | value, .append data _ materialized (some parentSize) => do
        let e ← e.setValue value
        pure ((e.restoreBelow codec data materialized parentSize).getD e)
      | value, _ => e.setValue value
    e.modifyExtrinsics (·.extend committed.extrinsics)

def closeTransaction (m : OverlayedChangeSet) (rollback : Bool) :=
  m.closeTransactionWith (closing codec) rollback

def rollbackTransaction (m : OverlayedChangeSet) :=
  closeTransaction codec m true

def commitTransaction (m : OverlayedChangeSet) :=
  closeTransaction codec m false

def exitRuntime (m : OverlayedChangeSet) :=
  m.exitRuntimeWith (closing codec)

def set (m : OverlayedChangeSet) (key : StorageKey) (value : Option StorageValue)
    (atExtrinsic : Option UInt32) : Except Panic OverlayedChangeSet :=
  m.writeEntry key (·.set codec value · atExtrinsic)

def appendStorage (m : OverlayedChangeSet) (key : StorageKey) (value : StorageValue)
    (init : Unit → StorageValue) (atExtrinsic : Option UInt32) : Except Panic OverlayedChangeSet :=
  m.writeEntry key (·.append codec value · init atExtrinsic)

def clearKey (atExtrinsic : Option UInt32) (acc : UInt32 × OverlayedChangeSet)
    (change : StorageKey × OverlayedValue) : Except Panic (UInt32 × OverlayedChangeSet) := do
  let count :=
    match ← change.2.valueRef with
    | .set .. | .append .. => acc.1 + 1
    | .remove => acc.1
  pure (count, ← set codec acc.2 change.1 none atExtrinsic)

def clearWhere (m : OverlayedChangeSet) (predicate : StorageKey → OverlayedValue → Bool)
    (atExtrinsic : Option UInt32) : Except Panic (UInt32 × OverlayedChangeSet) :=
  (m.changes.toList.filter fun change => predicate change.1 change.2).foldlM
    (clearKey codec atExtrinsic) (0, m)

-- `get` followed by `value`, as all callers read a key.
def read (m : OverlayedChangeSet) (key : StorageKey) :
    Except Panic (Option (Option StorageValue) × OverlayedChangeSet) :=
  match m.get key with
  | none => pure (none, m)
  | some e => do
    let (value, e) ← e.value codec
    pure (some value, { m with changes := m.changes.insert key e })

end OverlayedChangeSet
end Overlay
