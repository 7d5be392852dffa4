import RostroModel.Library.Layers
import RostroModel.Overlay.Entries

namespace Overlay

-- The operations of a change set, reads included. A predicate of `clear_where` gets a key and what
-- a read of it returns. All callers use predicates on keys only.
inductive ChangeSetOp
  | set (key : StorageKey) (value : Option StorageValue) (atExtrinsic : Option UInt32)
  | appendStorage (key : StorageKey) (element : StorageValue) (init : Unit → StorageValue)
      (atExtrinsic : Option UInt32)
  | clearWhere (predicate : StorageKey → Option StorageValue → Bool) (atExtrinsic : Option UInt32)
  | startTransaction
  | commitTransaction
  | rollbackTransaction
  | enterRuntime
  | exitRuntime
  | value (key : StorageKey)

inductive Output
  | done
  | read (value : Option (Option StorageValue))
  | noOpenTransaction
  | alreadyInRuntime
  | notInRuntime
  deriving DecidableEq, Repr

-- What a change set is for: a stack of plain maps, one for each open transaction, over the map of
-- the committed changes. A value of `none` stands for a deleted key.
structure Reference where
  layers : Layers StorageKey (Option StorageValue) := .empty
  numClientTransactions : Nat := 0
  executionMode : ExecutionMode := .client

namespace Reference

def canClose (r : Reference) : Bool :=
  0 < r.layers.depth ∧ (r.executionMode = .client ∨ r.numClientTransactions < r.layers.depth)

variable (codec : CompactCodec)

def step (r : Reference) : ChangeSetOp → Output × Reference
  | .set key value _ => (.done, { r with layers := r.layers.write key value })
  | .appendStorage key element init _ =>
    let value := (r.layers.current key).getD (some (init ()))
    (.done, { r with layers := r.layers.write key (some (appended codec value element)) })
  | .clearWhere predicate _ =>
    let clear (t : StorageKey → Option (Option StorageValue)) (key : StorageKey) :=
      if (r.layers.current key).any (predicate key) then some none else t key
    (.done, { r with layers := r.layers.mapInnermost clear })
  | .startTransaction => (.done, { r with layers := r.layers.start })
  | .commitTransaction =>
    if r.canClose then (.done, { r with layers := r.layers.commit }) else (.noOpenTransaction, r)
  | .rollbackTransaction =>
    if r.canClose then (.done, { r with layers := r.layers.rollback }) else (.noOpenTransaction, r)
  | .enterRuntime =>
    match r.executionMode with
    | .runtime => (.alreadyInRuntime, r)
    | .client =>
      (.done, { r with executionMode := .runtime, numClientTransactions := r.layers.depth })
  | .exitRuntime =>
    match r.executionMode with
    | .client => (.notInRuntime, r)
    | .runtime =>
      (.done, { r with
        executionMode := .client, layers := r.layers.rollbackTo r.numClientTransactions })
  | .value key => (.read (r.layers.current key), r)

def run (r : Reference) : List ChangeSetOp → List Output × Reference
  | [] => ([], r)
  | op :: ops =>
    let (output, r) := r.step codec op
    let (outputs, r) := r.run ops
    (output :: outputs, r)

end Reference

-- What a read of an entry leaves behind.
def OverlayedEntry.materialized (codec : CompactCodec) (e : OverlayedValue) : OverlayedValue :=
  match e.transactions with
  | [] => e
  | t :: ts => ⟨{ t with value := t.value.materializeInPlace codec } :: ts⟩

namespace OverlayedChangeSet

variable (codec : CompactCodec)

def observed (e : OverlayedValue) : Option StorageValue :=
  e.transactions.head?.bind (·.value.toOption codec)

def step (m : OverlayedChangeSet) : ChangeSetOp → Except Panic (Output × OverlayedChangeSet)
  | .set key value atExtrinsic => do pure (.done, ← set codec m key value atExtrinsic)
  | .appendStorage key element init atExtrinsic => do
    pure (.done, ← appendStorage codec m key element init atExtrinsic)
  | .clearWhere predicate atExtrinsic => do
    let (_, m) ← clearWhere codec m (fun key e => predicate key (observed codec e)) atExtrinsic
    pure (.done, m)
  | .startTransaction => pure (.done, m.startTransaction)
  | .commitTransaction => do
    match ← commitTransaction codec m with
    | .ok m => pure (.done, m)
    | .error _ => pure (.noOpenTransaction, m)
  | .rollbackTransaction => do
    match ← rollbackTransaction codec m with
    | .ok m => pure (.done, m)
    | .error _ => pure (.noOpenTransaction, m)
  | .enterRuntime =>
    match m.enterRuntime with
    | .ok m => pure (.done, m)
    | .error _ => pure (.alreadyInRuntime, m)
  | .exitRuntime => do
    match ← exitRuntime codec m with
    | .ok m => pure (.done, m)
    | .error _ => pure (.notInRuntime, m)
  | .value key => do
    let (value, m) ← read codec m key
    pure (.read value, m)

def run (m : OverlayedChangeSet) :
    List ChangeSetOp → Except Panic (List Output × OverlayedChangeSet)
  | [] => pure ([], m)
  | op :: ops => do
    let (output, m) ← step codec m op
    let (outputs, m) ← run m ops
    pure (output :: outputs, m)

end OverlayedChangeSet
end Overlay
