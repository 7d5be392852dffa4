import RostroModel.Library.CacheMap
import RostroModel.Library.Triple

namespace Headers

variable {H : Type}

structure Header (H : Type) where
  number : Nat
  parent : H
  stateRoot : H
  deriving DecidableEq, Repr

-- Header metadata with a link to some ancestor, which is used to jump through the tree.
structure CachedHeaderMetadata (H : Type) where
  hash : H
  number : Nat
  parent : H
  stateRoot : H
  ancestor : H
  deriving DecidableEq, Repr

structure HashAndNumber (H : Type) where
  number : Nat
  hash : H
  deriving DecidableEq, Repr

def CachedHeaderMetadata.ofHeader (hash : H) (header : Header H) : CachedHeaderMetadata H where
  hash := hash
  number := header.number
  parent := header.parent
  stateRoot := header.stateRoot
  ancestor := header.parent

def CachedHeaderMetadata.hashAndNumber (m : CachedHeaderMetadata H) : HashAndNumber H where
  number := m.number
  hash := m.hash

-- The loops of the source run as long as they need. Here they get a number of rounds.
inductive Error (H : Type)
  | unknownBlock (hash : H)
  | outOfRounds
  deriving DecidableEq, Repr

abbrev Query (H M α : Type) := EStateM (Error H) M α

-- The cache is that of another crate. Whichever entries it evicts, it returns what was inserted.
variable {M : Type} [CacheMap M H (CachedHeaderMetadata H)]

-- The blocks of the database.
variable (header : H → Option (Header H))

def lookup (hash : H) : Query H M (Option (CachedHeaderMetadata H)) :=
  modifyGet (CacheMap.get · hash)

def insertHeaderMetadata (hash : H) (m : CachedHeaderMetadata H) : Query H M PUnit :=
  modifyGet fun cache => (⟨⟩, CacheMap.insert cache hash m)

def headerMetadata (hash : H) : Query H M (CachedHeaderMetadata H) := do
  match ← lookup hash with
  | some m => return m
  | none =>
    match header hash with
    | some h =>
      insertHeaderMetadata hash (.ofHeader hash h)
      return .ofHeader hash h
    | none => throw (.unknownBlock hash)

-- Moves through the ancestor links, not below the number of the other block.
def followAncestors (number : Nat) :
    Nat → CachedHeaderMetadata H → Query H M (CachedHeaderMetadata H)
  | 0, _ => throw .outOfRounds
  | rounds + 1, block => do
    if number < block.number then
      let ancestor ← headerMetadata header block.ancestor
      if number ≤ ancestor.number then followAncestors number rounds ancestor else return block
    else return block

variable [DecidableEq H]

def followParents :
    Nat → CachedHeaderMetadata H → CachedHeaderMetadata H → Query H M (CachedHeaderMetadata H)
  | 0, _, _ => throw .outOfRounds
  | rounds + 1, one, two => do
    if one.hash = two.hash then return one else
    if two.number < one.number then
      followParents rounds (← headerMetadata header one.parent) two
    else
      followParents rounds one (← headerMetadata header two.parent)

def updateAncestor (block common : CachedHeaderMetadata H) : Query H M PUnit :=
  if common.number < block.number then
    insertHeaderMetadata block.hash { block with ancestor := common.hash }
  else return

def lowestCommonAncestor (rounds : Nat) (idOne idTwo : H) : Query H M (HashAndNumber H) := do
  let origOne ← headerMetadata header idOne
  if origOne.parent = idTwo then return { hash := idTwo, number := origOne.number - 1 } else
  let origTwo ← headerMetadata header idTwo
  if origTwo.parent = idOne then return { hash := idOne, number := origOne.number } else
  let one ← followAncestors header origTwo.number rounds origOne
  let two ← followAncestors header one.number rounds origTwo
  let common ← followParents header rounds one two
  updateAncestor origOne common
  updateAncestor origTwo common
  return common.hashAndNumber

-- The blocks before the pivot lead from the first block to the common ancestor,
-- those after it to the second.
structure TreeRoute (H : Type) where
  route : List (HashAndNumber H)
  pivot : Nat
  deriving DecidableEq, Repr

namespace TreeRoute

variable (r : TreeRoute H)

def retracted : List (HashAndNumber H) :=
  r.route.take r.pivot

def commonBlock : Option (HashAndNumber H) :=
  r.route[r.pivot]?

def enacted : List (HashAndNumber H) :=
  r.route.drop (r.pivot + 1)

end TreeRoute

-- Walks up to a number and collects the blocks on the way.
def collectDownTo (number : Nat) : Nat → CachedHeaderMetadata H → List (HashAndNumber H) →
    Query H M (CachedHeaderMetadata H × List (HashAndNumber H))
  | 0, _, _ => throw .outOfRounds
  | rounds + 1, block, branch => do
    if number < block.number then
      collectDownTo number rounds (← headerMetadata header block.parent)
        (branch ++ [block.hashAndNumber])
    else return (block, branch)

-- The numbers are equal now. Walks backwards until the block is the same.
def collectBoth : Nat → CachedHeaderMetadata H → CachedHeaderMetadata H →
    List (HashAndNumber H) → List (HashAndNumber H) →
    Query H M (CachedHeaderMetadata H × List (HashAndNumber H) × List (HashAndNumber H))
  | 0, _, _, _, _ => throw .outOfRounds
  | rounds + 1, origin, target, fromBranch, toBranch => do
    if target.hash = origin.hash then return (target, fromBranch, toBranch) else
    let target' ← headerMetadata header target.parent
    let origin' ← headerMetadata header origin.parent
    collectBoth rounds origin' target' (fromBranch ++ [origin.hashAndNumber])
      (toBranch ++ [target.hashAndNumber])

def treeRoute (rounds : Nat) (idFrom idTo : H) : Query H M (TreeRoute H) := do
  let origin ← headerMetadata header idFrom
  let target ← headerMetadata header idTo
  let (target, toBranch) ← collectDownTo header origin.number rounds target []
  let (origin, fromBranch) ← collectDownTo header target.number rounds origin []
  let (common, fromBranch, toBranch) ← collectBoth header rounds origin target fromBranch toBranch
  return { route := fromBranch ++ [common.hashAndNumber] ++ toBranch.reverse,
           pivot := fromBranch.length }

end Headers
