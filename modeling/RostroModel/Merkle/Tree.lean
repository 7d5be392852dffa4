import RostroModel.Library.Machine
import RostroModel.Library.Pairing

namespace Merkle

structure Hasher where
  length : Nat
  hash : List UInt8 → List.Vector UInt8 length

namespace Hasher

abbrev Out (H : Hasher) :=
  List.Vector UInt8 H.length

-- The hash of no leaves.
def default (H : Hasher) : H.Out :=
  List.Vector.replicate H.length 0

def combined {H : Hasher} (a b : H.Out) : List UInt8 :=
  a.toList ++ b.toList

def node (H : Hasher) (a b : H.Out) : H.Out :=
  H.hash (combined a b)

end Hasher

-- What is told about the traversal of the tree.
structure Visitor (α σ : Type) where
  moveUp : σ → σ
  visit : Nat → Option α → Option α → σ → σ

namespace Visitor

def none {α : Type} : Visitor α Unit where
  moveUp _ := ()
  visit _ _ _ := id

end Visitor

structure ProofCollection (α : Type) where
  proof : List α := []
  position : Nat

namespace ProofCollection

variable {α : Type}

def moveUp (c : ProofCollection α) : ProofCollection α :=
  { c with position := c.position / 2 }

def push (c : ProofCollection α) (a : Option α) : ProofCollection α :=
  { c with proof := c.proof ++ a.toList }

def visit (index : Nat) (left right : Option α) (c : ProofCollection α) : ProofCollection α :=
  -- at the left branch the right one goes to the proof
  let c := if c.position = index then c.push right else c
  -- at the right branch the left one goes to the proof
  if c.position = Machine.wrappingAdd 32 index 1 then c.push left else c

def visitor : Visitor α (ProofCollection α) where
  moveUp
  visit

end ProofCollection

section Merkelize

variable (H : Hasher) {σ : Type} (visitor : Visitor H.Out σ)

-- The root is returned for a single item, and the row above otherwise.
def merkelizeRow : List H.Out → Nat → List H.Out → σ → Except (List H.Out) H.Out × σ
  | a :: b :: iter, index, next, v =>
    merkelizeRow iter (Machine.wrappingAdd 32 index 2) (next ++ [H.node a b])
      (visitor.visit index (some a) (some b) v)
  | [a], index, next, v =>
    let v := visitor.visit index (some a) none v
    if next.isEmpty then
      (.ok a, v)
    else
      -- an odd item is promoted, and one more look at the items ends the row
      merkelizeRow [] (Machine.wrappingAdd 32 index 2) (next ++ [a]) v
  | [], index, next, v => (.error next, visitor.visit index none none v)

def merkelizeLoop : Nat → List H.Out → σ → H.Out × σ
  | 0, _, v => (H.default, v)
  | fuel + 1, next, v =>
    match merkelizeRow H visitor next 0 [] (visitor.moveUp v) with
    | (.ok root, v) => (root, v)
    | (.error next, v) => merkelizeLoop fuel next v

def merkelize (leaves : List H.Out) (v : σ) : H.Out × σ :=
  match merkelizeRow H visitor leaves 0 [] v with
  | (.ok root, v) => (root, v)
  | (.error [], v) => (H.default, v)
  | (.error next, v) => merkelizeLoop H visitor next.length next v

end Merkelize

variable (H : Hasher)

def merkleRootRaw (leaves : List H.Out) : H.Out :=
  (merkelize H .none leaves ()).1

def merkleRoot (leaves : List (List UInt8)) : H.Out :=
  merkleRootRaw H (leaves.map H.hash)

structure MerkleProof (T : Type) where
  root : H.Out
  proof : List H.Out
  numberOfLeaves : Nat
  leafIndex : Nat
  leaf : T

-- The indices are compared as 32 bit numbers.
def requestedLeaf {T : Type} (leaves : List T) (leafIndex : Nat) : Option T :=
  (leaves.zipIdx.filter fun l => l.2 % 2 ^ 32 = leafIndex).getLast?.map Prod.fst

-- There is no proof for a leaf that is not there: the call panics.
def proofWith {T : Type} (toHash : T → H.Out) (leaves : List T) (leafIndex : Nat) :
    Option (MerkleProof H T) :=
  let result := merkelize H ProofCollection.visitor (leaves.map toHash) { position := leafIndex }
  (requestedLeaf leaves leafIndex).map fun leaf =>
    { root := result.1
      proof := result.2.proof
      numberOfLeaves := leaves.length % 2 ^ 32
      leafIndex
      leaf }

def merkleProof : List (List UInt8) → Nat → Option (MerkleProof H (List UInt8)) :=
  proofWith H H.hash

def merkleProofRaw : List H.Out → Nat → Option (MerkleProof H H.Out) :=
  proofWith H id

inductive Leaf
  | value (content : List UInt8)
  | hash (hash : H.Out)

variable {H}

def Leaf.leafHash : Leaf H → H.Out
  | .value content => H.hash content
  | .hash h => h

-- Where the verifier is on the way up.
structure Cursor (H : Hasher) where
  computed : H.Out
  position : Nat
  width : Nat

-- Whether the node the verifier is at is taken for a right one.
def onRight (position width : Nat) : Bool :=
  position % 2 = 1 ∨ position + 1 = width

namespace Cursor

def combined (c : Cursor H) (b : H.Out) : List UInt8 :=
  if onRight c.position c.width then
    Hasher.combined b c.computed
  else
    Hasher.combined c.computed b

def up (c : Cursor H) (b : H.Out) : Cursor H where
  computed := H.hash (c.combined b)
  position := c.position / 2
  width := (c.width - 1) / 2 + 1

end Cursor

def verifyProof (root : H.Out) (proof : List H.Out) (numberOfLeaves leafIndex : Nat)
    (leaf : Leaf H) : Bool :=
  if leafIndex ≥ numberOfLeaves then
    false
  else
    root = (proof.foldl Cursor.up ⟨leaf.leafHash, leafIndex, numberOfLeaves⟩).computed

end Merkle
