import RostroModel.Library.TreeMap
import RostroModel.Overlay.Map

namespace Overlay

open Std

def ascii (text : List Char) : Bytes :=
  text.map fun c => UInt8.ofNat c.toNat

-- `:extrinsic_index`
def extrinsicIndexKey : StorageKey :=
  ascii [':', 'e', 'x', 't', 'r', 'i', 'n', 's', 'i', 'c', '_', 'i', 'n', 'd', 'e', 'x']

-- `:child_storage:default:`
def defaultChildStorageKeyPrefix : StorageKey :=
  ascii [':', 'c', 'h', 'i', 'l', 'd', '_', 's', 't', 'o', 'r', 'a', 'g', 'e', ':',
    'd', 'e', 'f', 'a', 'u', 'l', 't', ':']

-- `storage`
def offchainStoragePrefix : Bytes :=
  ascii ['s', 't', 'o', 'r', 'a', 'g', 'e']

def noExtrinsicIndex : UInt32 :=
  0xffffffff

-- A little-endian `u32` at the beginning of the bytes.
def decodeIndex (bytes : Bytes) : Option UInt32 :=
  if bytes.length < 4 then none else some (UInt32.ofNat (LittleEndian.value (bytes.take 4)))

inductive StateVersion
  | v0
  | v1
  deriving DecidableEq, Repr

-- The only kind of child trie, `ParentKeyId`.
structure ChildInfo where
  data : StorageKey
  deriving DecidableEq, Repr

namespace ChildInfo

def storageKey (info : ChildInfo) : StorageKey :=
  info.data

def prefixedStorageKey (info : ChildInfo) : StorageKey :=
  defaultChildStorageKeyPrefix ++ info.data

def tryUpdate (info other : ChildInfo) : Bool :=
  info.data = other.data

end ChildInfo

inductive OffchainOverlayedChange
  | remove
  | setValue (value : Bytes)
  deriving DecidableEq, Repr

abbrev OffchainKey := Bytes × Bytes

instance : Ord OffchainKey :=
  lexOrd

abbrev OffchainOverlayedChanges := OverlayedMap OffchainKey OffchainOverlayedChange

namespace OffchainOverlayedChanges

def set (m : OffchainOverlayedChanges) (pre key value : Bytes) :=
  m.setOffchain (pre, key) (.setValue value) none

def remove (m : OffchainOverlayedChanges) (pre key : Bytes) :=
  m.setOffchain (pre, key) .remove none

end OffchainOverlayedChanges

-- What a root is computed of: the keys with the values that a read of them returns.
abbrev Delta := List (StorageKey × Option StorageValue)

-- The state below the overlay. Its roots are functions of what they are computed of.
structure Backend (Hash Transaction Error : Type) where
  storage : StorageKey → Except Error (Option StorageValue)
  fullStorageRoot : Delta → List (ChildInfo × Delta) → StateVersion → Hash × Transaction
  childStorageRoot : ChildInfo → Delta → StateVersion → Hash × Bool × Transaction
  encodeRoot : Hash → StorageValue
  decodeRoot : StorageValue → Option Hash
  emptyChildTrieRoot : Hash

structure StorageTransactionCache (Hash Transaction : Type) where
  transaction : Transaction
  transactionStorageRoot : Hash
  stateVersion : StateVersion
  deriving DecidableEq

structure OverlayedChanges (Hash Transaction : Type) where
  top : OverlayedChangeSet := {}
  children : ExtTreeMap StorageKey (OverlayedChangeSet × ChildInfo) := ∅
  offchain : OffchainOverlayedChanges := {}
  collectExtrinsics : Bool := false
  storageTransactionCache : Option (StorageTransactionCache Hash Transaction) := none

structure StorageChanges (Hash Transaction : Type) where
  mainStorageChanges : Delta
  childStorageChanges : List (StorageKey × Delta)
  offchainStorageChanges : List (OffchainKey × OffchainOverlayedChange)
  transaction : Transaction
  transactionStorageRoot : Hash

namespace OverlayedChangeSet

variable (codec : CompactCodec)

-- `changes_mut` with `value` called on each of the entries.
def readAll (m : OverlayedChangeSet) : Except Panic (Delta × OverlayedChangeSet) := do
  let read ← m.changes.traverse fun _ e => do return some (← e.value codec)
  pure ((read.map fun _ r => r.1).toList, { m with changes := read.map fun _ r => r.2 })

def drainEntry (e : OverlayedValue) : Except Panic (Option (Option StorageValue)) := do
  let (t, _) ← e.popTransaction
  return some (t.value.toOption codec)

-- `drain_committed` with `to_option` called on each of the values.
def drainCommitted (m : OverlayedChangeSet) : Except Panic Delta :=
  if m.transactionDepth = 0 then do
    let values ← m.changes.traverse fun _ e => drainEntry codec e
    pure values.toList
  else .error .drainOpen

end OverlayedChangeSet

namespace OverlayedChanges

variable {Hash Transaction Error : Type} (codec : CompactCodec)
variable (backend : Backend Hash Transaction Error)

def setCollectExtrinsics (s : OverlayedChanges Hash Transaction) (collectExtrinsics : Bool) :
    OverlayedChanges Hash Transaction :=
  { s with collectExtrinsics }

def storage (s : OverlayedChanges Hash Transaction) (key : StorageKey) :
    Except Panic (Option (Option StorageValue) × OverlayedChanges Hash Transaction) := do
  let (value, top) ← OverlayedChangeSet.read codec s.top key
  pure (value, { s with top })

def markDirty (s : OverlayedChanges Hash Transaction) : OverlayedChanges Hash Transaction :=
  { s with storageTransactionCache := none }

def childStorage (s : OverlayedChanges Hash Transaction) (childInfo : ChildInfo)
    (key : StorageKey) :
    Except Panic (Option (Option StorageValue) × OverlayedChanges Hash Transaction) :=
  match s.children[childInfo.storageKey]? with
  | none => pure (none, s)
  | some (changeset, info) => do
    let (value, changeset) ← OverlayedChangeSet.read codec changeset key
    pure (value, { s with children := s.children.insert childInfo.storageKey (changeset, info) })

def extrinsicIndex (s : OverlayedChanges Hash Transaction) :
    Except Panic (Option UInt32 × OverlayedChanges Hash Transaction) :=
  if s.collectExtrinsics then do
    let (value, s) ← s.storage codec extrinsicIndexKey
    pure (some ((value.bind fun index => index.bind decodeIndex).getD noExtrinsicIndex), s)
  else pure (none, s)

def setStorage (s : OverlayedChanges Hash Transaction) (key : StorageKey)
    (val : Option StorageValue) : Except Panic (OverlayedChanges Hash Transaction) := do
  let (extrinsicIndex, s) ← s.markDirty.extrinsicIndex codec
  let top ← OverlayedChangeSet.set codec s.top key val extrinsicIndex
  pure { s with top }

-- Unlike the other writes, this one does not reset the cache.
def appendStorage (s : OverlayedChanges Hash Transaction) (key : StorageKey)
    (element : StorageValue) (init : Unit → StorageValue) :
    Except Panic (OverlayedChanges Hash Transaction) := do
  let (extrinsicIndex, s) ← s.extrinsicIndex codec
  let top ← OverlayedChangeSet.appendStorage codec s.top key element init extrinsicIndex
  pure { s with top }

def clearPrefix (s : OverlayedChanges Hash Transaction) (pre : Bytes) :
    Except Panic (UInt32 × OverlayedChanges Hash Transaction) := do
  let (extrinsicIndex, s) ← s.markDirty.extrinsicIndex codec
  let (count, top) ←
    OverlayedChangeSet.clearWhere codec s.top (fun key _ => pre.isPrefixOf key) extrinsicIndex
  pure (count, { s with top })

-- The common part of the writes to a child: its change set is spawned by the first of them.
def writeChild {α : Type} (s : OverlayedChanges Hash Transaction) (childInfo : ChildInfo)
    (write : OverlayedChangeSet → Option UInt32 → Except Panic (α × OverlayedChangeSet)) :
    Except Panic (α × OverlayedChanges Hash Transaction) := do
  let (extrinsicIndex, s) ← s.markDirty.extrinsicIndex codec
  let storageKey := childInfo.storageKey
  let (changeset, info) := s.children[storageKey]?.getD (s.top.spawnChild, childInfo)
  if info.tryUpdate childInfo then
    let (result, changeset) ← write changeset extrinsicIndex
    pure (result, { s with children := s.children.insert storageKey (changeset, info) })
  else .error .updatable

def setChildStorage (s : OverlayedChanges Hash Transaction) (childInfo : ChildInfo)
    (key : StorageKey) (val : Option StorageValue) :
    Except Panic (Unit × OverlayedChanges Hash Transaction) :=
  s.writeChild codec childInfo fun changeset extrinsicIndex => do
    pure ((), ← OverlayedChangeSet.set codec changeset key val extrinsicIndex)

def clearChildStorage (s : OverlayedChanges Hash Transaction) (childInfo : ChildInfo) :
    Except Panic (UInt32 × OverlayedChanges Hash Transaction) :=
  s.writeChild codec childInfo fun changeset extrinsicIndex =>
    OverlayedChangeSet.clearWhere codec changeset (fun _ _ => true) extrinsicIndex

def clearChildPrefix (s : OverlayedChanges Hash Transaction) (childInfo : ChildInfo) (pre : Bytes) :
    Except Panic (UInt32 × OverlayedChanges Hash Transaction) :=
  s.writeChild codec childInfo fun changeset extrinsicIndex =>
    OverlayedChangeSet.clearWhere codec changeset (fun key _ => pre.isPrefixOf key) extrinsicIndex

def setOffchainStorage (s : OverlayedChanges Hash Transaction) (key : Bytes)
    (value : Option Bytes) :
    Except Panic (OverlayedChanges Hash Transaction) := do
  let offchain ←
    match value with
    | some value => OffchainOverlayedChanges.set s.offchain offchainStoragePrefix key value
    | none => OffchainOverlayedChanges.remove s.offchain offchainStoragePrefix key
  pure { s with offchain }

def transactionDepth (s : OverlayedChanges Hash Transaction) : Nat :=
  s.top.transactionDepth

def startTransaction (s : OverlayedChanges Hash Transaction) : OverlayedChanges Hash Transaction :=
  { s with
    top := s.top.startTransaction
    children := s.children.map fun _ child => (child.1.startTransaction, child.2)
    offchain := s.offchain.startTransaction }

-- Calls `expect` on a result whose error is excluded by the lockstep of the change sets.
def lockstep {α ε : Type} (p : Panic) (result : Except Panic (Except ε α)) : Except Panic α := do
  expect (← result).toOption p

-- How the transactions are closed and the runtime is entered and left: the top change set may
-- refuse, and then nothing has happened. The others may not. `retain` says which children are kept.
def followTop {ε : Type} (s : OverlayedChanges Hash Transaction)
    (onChangeSet : OverlayedChangeSet → Except Panic (Except ε OverlayedChangeSet))
    (onOffchain : OffchainOverlayedChanges → Except Panic (Except ε OffchainOverlayedChanges))
    (retain : OverlayedChangeSet → Bool) :
    Except Panic (Except ε Unit × OverlayedChanges Hash Transaction) := do
  match ← onChangeSet s.top with
  | .error e => pure (.error e, s)
  | .ok top =>
    let children ← s.children.traverse fun _ child => do
      let changeset ← lockstep .childrenLockstep (onChangeSet child.1)
      return if retain changeset then some (changeset, child.2) else none
    let offchain ← lockstep .offchainLockstep (onOffchain s.offchain)
    pure (.ok (), { s with top, children, offchain })

def rollbackTransaction (s : OverlayedChanges Hash Transaction) :=
  s.markDirty.followTop (OverlayedChangeSet.rollbackTransaction codec)
    OverlayedMap.rollbackTransactionOffchain (fun changeset => !changeset.isEmpty)

def commitTransaction (s : OverlayedChanges Hash Transaction) :=
  s.followTop (OverlayedChangeSet.commitTransaction codec)
    OverlayedMap.commitTransactionOffchain (fun _ => true)

def enterRuntime (s : OverlayedChanges Hash Transaction) :=
  s.followTop (fun changeset => pure changeset.enterRuntime) (fun offchain =>
    pure offchain.enterRuntime)
    (fun _ => true)

-- This does not reset the cache, although it may roll back transactions. Nor does it drop the
-- children that are empty afterwards.
def exitRuntime (s : OverlayedChanges Hash Transaction) :=
  s.followTop (OverlayedChangeSet.exitRuntime codec) OverlayedMap.exitRuntimeOffchain
    (fun _ => true)

def readChild (child : OverlayedChangeSet × ChildInfo) :
    Except Panic (Option ((ChildInfo × Delta) × OverlayedChangeSet × ChildInfo)) := do
  let (delta, changeset) ← OverlayedChangeSet.readAll codec child.1
  return some ((child.2, delta), (changeset, child.2))

-- The delta of each child with its info, as `storage_root` hands them to the backend.
def readChildren (s : OverlayedChanges Hash Transaction) :
    Except Panic (List (ChildInfo × Delta) ×
      ExtTreeMap StorageKey (OverlayedChangeSet × ChildInfo)) := do
  let read ← s.children.traverse fun _ child => readChild codec child
  pure ((read.map fun _ r => r.1).toList.map (·.2), read.map fun _ r => r.2)

def storageRoot (s : OverlayedChanges Hash Transaction) (stateVersion : StateVersion) :
    Except Panic ((Hash × Bool) × OverlayedChanges Hash Transaction) :=
  match s.storageTransactionCache.filter (·.stateVersion = stateVersion) with
  | some cache => pure ((cache.transactionStorageRoot, true), s)
  | none => do
    let (delta, top) ← OverlayedChangeSet.readAll codec s.top
    let (childDelta, children) ← s.readChildren codec
    let (root, transaction) := backend.fullStorageRoot delta childDelta stateVersion
    let cache := { transaction, transactionStorageRoot := root, stateVersion }
    pure ((root, false), { s with top, children, storageTransactionCache := some cache })

def decodeRootOrEmpty (value : Option StorageValue) : Hash :=
  (value.bind backend.decodeRoot).getD backend.emptyChildTrieRoot

def childStorageRoot (s : OverlayedChanges Hash Transaction) (childInfo : ChildInfo)
    (stateVersion : StateVersion) :
    Except Panic (Except Error (Hash × Bool) × OverlayedChanges Hash Transaction) :=
  let prefixedStorageKey := childInfo.prefixedStorageKey
  if s.storageTransactionCache.isSome then do
    let (value, s) ← s.storage codec prefixedStorageKey
    let value : Except Error (Option StorageValue) :=
      match value with
      | some value => .ok value
      | none => backend.storage prefixedStorageKey
    pure (value.map fun value => (decodeRootOrEmpty backend value, true), s)
  else
    match s.children[childInfo.storageKey]? with
    | some (changeset, info) => do
      let (delta, changeset) ← OverlayedChangeSet.readAll codec changeset
      let s := { s with children := s.children.insert childInfo.storageKey (changeset, info) }
      let (root, isEmpty, _) := backend.childStorageRoot info delta stateVersion
      let value := if isEmpty then none else some (backend.encodeRoot root)
      let s ← s.setStorage codec prefixedStorageKey value
      pure (.ok (root, false), s.markDirty)
    | none =>
      let value := backend.storage prefixedStorageKey
      pure (value.map fun value => (decodeRootOrEmpty backend value, false), s)

-- The cached transaction is taken whatever version it was computed for. If there is none, it is
-- generated.
def takeTransaction (s : OverlayedChanges Hash Transaction) (stateVersion : StateVersion) :
    Except Panic (StorageTransactionCache Hash Transaction × OverlayedChanges Hash Transaction) :=
  match s.storageTransactionCache with
  | some cache => pure (cache, s.markDirty)
  | none => do
    let (_, s) ← s.storageRoot codec backend stateVersion
    pure (← expect s.storageTransactionCache .cacheInitialized, s.markDirty)

-- Unlike the other change sets, the offchain overlay does not check that no transaction is open. It
-- is left empty, and without transactions.
def offchainDrainCommitted (s : OverlayedChanges Hash Transaction) :
    Except Panic (List ((Bytes × Bytes) × OffchainOverlayedChange) ×
      OverlayedChanges Hash Transaction) := do
  let changes ← s.offchain.changes.traverse fun _ e => do return some (← e.valueRef)
  pure (changes.toList, { s with offchain := {} })

def drainStorageChanges (s : OverlayedChanges Hash Transaction) (stateVersion : StateVersion) :
    Except Panic (StorageChanges Hash Transaction × OverlayedChanges Hash Transaction) := do
  let (cache, s) ← s.takeTransaction codec backend stateVersion
  let mainStorageChanges ← OverlayedChangeSet.drainCommitted codec s.top
  let childStorageChanges ← s.children.traverse fun _ child => do
    return some (← OverlayedChangeSet.drainCommitted codec child.1)
  let (offchainStorageChanges, s) ← { s with top := {}, children := ∅ }.offchainDrainCommitted
  pure ({
      mainStorageChanges
      childStorageChanges := childStorageChanges.toList
      offchainStorageChanges
      transaction := cache.transaction
      transactionStorageRoot := cache.transactionStorageRoot },
    s)

end OverlayedChanges
end Overlay
