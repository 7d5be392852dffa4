import RostroModel.Overlay.Codec

abbrev StorageKey := Bytes
abbrev StorageValue := Bytes

namespace Overlay

-- The places where the overlay code calls `expect` or asserts something. An operation that
-- fails in one of them panics.
inductive Panic
  | overlayNonEmpty   -- `PROOF_OVERLAY_NON_EMPTY`
  | setPrev           -- a moved buffer has a parent to be put back to
  | dirtyKey          -- a key of a dirty set has an entry
  | loopCondition     -- the rollbacks of `exit_runtime`
  | childrenLockstep  -- a child change set follows the top one
  | offchainLockstep  -- the offchain overlay follows the top one
  | cacheInitialized  -- `storage_root` has filled the cache
  | updatable         -- a child info is used with the key it belongs to
  | drainOpen         -- changes are drained while a transaction is open
  deriving DecidableEq, Repr

def expect {α : Type} (o : Option α) (p : Panic) : Except Panic α :=
  o.elim (.error p) .ok

structure NoOpenTransaction
  deriving DecidableEq, Repr

structure AlreadyInRuntime
  deriving DecidableEq, Repr

structure NotInRuntime
  deriving DecidableEq, Repr

inductive ExecutionMode
  | client
  | runtime
  deriving DecidableEq, Repr

-- The indices of the extrinsics which changed a value, the latest one last.
structure Extrinsics where
  indices : List UInt32 := []
  deriving DecidableEq, Repr

namespace Extrinsics

def insert (e : Extrinsics) (ext : UInt32) : Extrinsics :=
  if e.indices.getLast? ≠ some ext then ⟨e.indices ++ [ext]⟩ else e

def extend (e other : Extrinsics) : Extrinsics :=
  ⟨e.indices ++ other.indices⟩

end Extrinsics

structure InnerValue (V : Type) where
  value : V
  extrinsics : Extrinsics := {}
  deriving DecidableEq, Repr

-- The versions of a value, one for each transaction that wrote it. The code pushes and pops them at
-- the end of a vector, here the newest version comes first.
structure OverlayedEntry (V : Type) where
  transactions : List (InnerValue V) := []
  deriving DecidableEq, Repr

inductive StorageEntry
  | set (value : StorageValue)
  | remove
  | append (data : StorageValue) (currentLength : UInt32) (materializedLength : Option UInt32)
      (parentSize : Option Nat)
  deriving DecidableEq, Repr

abbrev OverlayedValue := OverlayedEntry StorageEntry

namespace OverlayedEntry

variable {V : Type}

def last (e : OverlayedEntry V) : Except Panic (InnerValue V) :=
  expect e.transactions.head? .overlayNonEmpty

def valueRef (e : OverlayedEntry V) : Except Panic V :=
  e.last.map (·.value)

theorem valueRef_cons (t : InnerValue V) (ts : List (InnerValue V)) :
    valueRef ⟨t :: ts⟩ = .ok t.value :=
  rfl

def popTransaction (e : OverlayedEntry V) : Except Panic (InnerValue V × OverlayedEntry V) :=
  match e.transactions with
  | [] => .error .overlayNonEmpty
  | t :: ts => .ok (t, ⟨ts⟩)

-- Assignment through `value_mut`.
def setValue (e : OverlayedEntry V) (value : V) : Except Panic (OverlayedEntry V) :=
  match e.transactions with
  | [] => .error .overlayNonEmpty
  | t :: ts => .ok ⟨{ t with value } :: ts⟩

def push (e : OverlayedEntry V) (value : V) : OverlayedEntry V :=
  ⟨{ value } :: e.transactions⟩

-- Mutation through `transaction_extrinsics_mut`.
def modifyExtrinsics (e : OverlayedEntry V) (f : Extrinsics → Extrinsics) :
    Except Panic (OverlayedEntry V) :=
  match e.transactions with
  | [] => .error .overlayNonEmpty
  | t :: ts => .ok ⟨{ t with extrinsics := f t.extrinsics } :: ts⟩

def noteExtrinsic (e : OverlayedEntry V) : Option UInt32 → Except Panic (OverlayedEntry V)
  | none => .ok e
  | some ext => e.modifyExtrinsics (·.insert ext)

def setOffchain (e : OverlayedEntry V) (value : V) (firstWriteInTx : Bool)
    (atExtrinsic : Option UInt32) : Except Panic (OverlayedEntry V) := do
  let e ← if firstWriteInTx || e.transactions.isEmpty then pure (e.push value) else e.setValue value
  e.noteExtrinsic atExtrinsic

end OverlayedEntry

-- Everything below reads or writes the length prefix of a SCALE list.
variable (codec : CompactCodec)

namespace StorageAppend

def extractLength (data : Bytes) : Option UInt32 :=
  codec.decode data

def lengthPrefix (length : Option UInt32) : Nat :=
  length.elim 0 codec.compactLen

def replaceLength (data : Bytes) (oldLength : Option UInt32) (newLength : UInt32) : Bytes :=
  codec.encode newLength ++ data.drop (lengthPrefix codec oldLength)

def appendRaw (data value : Bytes) : Bytes :=
  data ++ value

end StorageAppend

open StorageAppend

namespace StorageEntry

def materializeInPlace : StorageEntry → StorageEntry
  | append data currentLength materializedLength parentSize =>
    if materializedLength = some currentLength then
      append data currentLength materializedLength parentSize
    else
      append (replaceLength codec data materializedLength currentLength) currentLength
        (some currentLength) parentSize
  | entry => entry

def content : StorageEntry → Option StorageValue
  | append data .. | set data => some data
  | remove => none

def toOption (entry : StorageEntry) : Option StorageValue :=
  (entry.materializeInPlace codec).content

end StorageEntry

-- The buffer of an appended value moves to the newest layer and is put back here when that layer is
-- rolled back or overwritten. The length prefix of the buffer stays as it is, so the size that the
-- parent remembers is corrected by the difference of the two prefixes.
def restoreAppendToParent (parent : StorageEntry) (currentData : Bytes)
    (currentMaterialized : Option UInt32) (targetParentSize : Nat) : StorageEntry :=
  match parent with
  | .append _ currentLength parentMaterialized parentSize =>
    let prev := lengthPrefix codec parentMaterialized
    let new := lengthPrefix codec currentMaterialized
    let delta := (new - prev) + (prev - new)
    let target := if prev ≥ new then targetParentSize - delta else targetParentSize + delta
    .append (currentData.take target) currentLength currentMaterialized parentSize
  | parent => parent

namespace OverlayedEntry

-- Puts the buffer back to the version below the newest one.
def restoreBelow (e : OverlayedValue) (data : Bytes) (materialized : Option UInt32)
    (parentSize : Nat) : Option OverlayedValue :=
  match e.transactions with
  | t :: parent :: ts =>
    let value := restoreAppendToParent codec parent.value data materialized parentSize
    some ⟨t :: { parent with value } :: ts⟩
  | _ => none

def set (e : OverlayedValue) (value : Option StorageValue) (firstWriteInTx : Bool)
    (atExtrinsic : Option UInt32) : Except Panic OverlayedValue := do
  let value := value.elim StorageEntry.remove StorageEntry.set
  let e ←
    if firstWriteInTx || e.transactions.isEmpty then pure (e.push value)
    else do
      let oldValue ← e.valueRef
      let e ← e.setValue value
      match oldValue with
      | .append data _ materialized (some parentSize) =>
        expect (e.restoreBelow codec data materialized parentSize) .setPrev
      | _ => pure e
  e.noteExtrinsic atExtrinsic

-- The value that is appended to in the first write of a transaction, as it is left behind, and the
-- new version.
def appendToParent (parent : StorageEntry) (element : StorageValue) :
    StorageEntry × StorageEntry :=
  match parent with
  | .remove => (.remove, .append element 1 none none)
  | .append data currentLength materializedLength parentSize =>
    (.append [] currentLength materializedLength parentSize,
      .append (appendRaw data element) (currentLength + 1) materializedLength (some data.length))
  | .set prev =>
    match extractLength codec prev with
    | some currentLength =>
      (.set prev, .append (appendRaw prev element) (currentLength + 1) (some currentLength) none)
    | none => (.set prev, .append element 1 none none)

def appendInPlace (value : StorageEntry) (element : StorageValue) : StorageEntry :=
  match value with
  | .remove => .append element 1 none none
  | .set data =>
    match extractLength codec data with
    | some currentLength =>
      .append (appendRaw data element) (currentLength + 1) (some currentLength) none
    | none => .append element 1 none none
  | .append data currentLength materializedLength parentSize =>
    .append (appendRaw data element) (currentLength + 1) materializedLength parentSize

def appendInit (init element : StorageValue) : StorageEntry :=
  match extractLength codec init with
  | some length => .append (appendRaw init element) (length + 1) (some length) none
  | none => .append element 1 none none

def append (e : OverlayedValue) (element : StorageValue) (firstWriteInTx : Bool)
    (init : Unit → StorageValue) (atExtrinsic : Option UInt32) : Except Panic OverlayedValue := do
  let e ←
    if e.transactions.isEmpty then pure (e.push (appendInit codec (init ()) element))
    else do
      let old ← e.valueRef
      if firstWriteInTx then
        let (parent, value) := appendToParent codec old element
        let e ← e.setValue parent
        pure (e.push value)
      else e.setValue (appendInPlace codec old element)
  e.noteExtrinsic atExtrinsic

-- Reading a value also writes it: the length prefix is materialized on the way.
def value (e : OverlayedValue) : Except Panic (Option StorageValue × OverlayedValue) := do
  let entry := (← e.valueRef).materializeInPlace codec
  pure (entry.content, ← e.setValue entry)

end OverlayedEntry

end Overlay
