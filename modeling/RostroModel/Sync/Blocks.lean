import RostroModel.Library.TreeMap

namespace Sync

-- Peers, blocks as they come from the wire, and block hashes.
variable {P B K : Type}

structure BlockData (P B : Type) where
  block : B
  origin : Option P
  deriving DecidableEq, Repr

inductive BlockRangeState (P B : Type)
  | downloading (len downloading : Nat)
  | complete (blocks : List (BlockData P B))
  | queued (len : Nat)
  deriving DecidableEq, Repr

def BlockRangeState.len : BlockRangeState P B → Nat
  | downloading len _ => len
  | complete blocks => blocks.length
  | queued len => len

-- The blocks that are downloaded, by the number of the first one, and the ranges that are queued
-- for import, by the hash of the first block.
structure BlockCollection (P B K : Type) where
  blocks : Std.ExtTreeMap Nat (BlockRangeState P B) := ∅
  peerRequests : P → Option Nat := fun _ => none
  queuedBlocks : K → Option (Nat × Nat) := fun _ => none

namespace BlockCollection

def isDownloaded (count : Nat) : Option (BlockRangeState P B) → Bool
  | some (.complete existing) => count ≤ existing.length
  | _ => false

def insert (c : BlockCollection P B K) (start : Nat) (blocks : List B) (who : P) :
    BlockCollection P B K :=
  if blocks.isEmpty then c else
  if isDownloaded blocks.length c.blocks[start]? then c else
  { c with
    blocks := c.blocks.insert start
      (.complete (blocks.map fun block => { origin := some who, block })) }

section NeededBlocks

variable (firstDifferent count maxParallel : Nat)

-- The range from `start` to the next one, or of `count` blocks if there is none.
def gapAfter (stop : Nat) : Option (Nat × BlockRangeState P B) → Option ((Nat × Nat) × Nat)
  | some (nextStart, _) =>
    if stop < nextStart ∧ firstDifferent ≤ stop then
      some ((stop, min nextStart (stop + count)), 0)
    else none
  | none =>
    if firstDifferent ≤ stop then some ((stop, stop + count), 0) else none

-- The arms of the match over two neighbouring ranges: the range to download and by how many
-- peers it is downloaded already.
def candidate : Option (Nat × BlockRangeState P B) → Option (Nat × BlockRangeState P B) →
    Option ((Nat × Nat) × Nat)
  | some (start, .downloading len downloading), next =>
    if downloading < maxParallel ∧ firstDifferent ≤ start then
      some ((start, start + len), downloading)
    else gapAfter firstDifferent count (start + len) next
  | some (start, r), next => gapAfter firstDifferent count (start + r.len) next
  | none, none => some ((firstDifferent, firstDifferent + count), 0)
  | none, some (start, _) =>
    if firstDifferent < start then
      some ((firstDifferent, min (firstDifferent + count) start), 0)
    else none

-- The loop over the ranges. Behind the last one the iterator stays at its end, so that there is
-- neither a previous nor a next range.
def findRange : Option (Nat × BlockRangeState P B) → List (Nat × BlockRangeState P B) →
    (Nat × Nat) × Nat
  | prev, [] =>
    (candidate firstDifferent count maxParallel prev none).getD
      ((firstDifferent, firstDifferent + count), 0)
  | prev, next :: rest =>
    match candidate firstDifferent count maxParallel prev (some next) with
    | some found => found
    | none => findRange (some next) rest

end NeededBlocks

-- The first range starts more than `max_ahead` blocks before the number.
def tooFarAhead (c : BlockCollection P B K) (start maxAhead : Nat) : Bool :=
  c.blocks.toList.head?.any fun e => e.1 + maxAhead < start

structure Request (P : Type) where
  who : P
  count : Nat
  peerBest : Nat
  common : Nat
  maxParallel : Nat
  maxAhead : Nat

-- Returns nothing if an empty range is requested, which is a panic.
def neededBlocks [DecidableEq P] (c : BlockCollection P B K) (r : Request P) :
    Option (Option (Nat × Nat) × BlockCollection P B K) :=
  if r.peerBest ≤ r.common then some (none, c) else
  let (range, downloading) := findRange (r.common + 1) r.count r.maxParallel none c.blocks.toList
  if r.peerBest < range.1 then some (none, c) else
  let stop := min (r.peerBest + 1) range.2
  if c.tooFarAhead range.1 r.maxAhead then some (none, c) else
  let c := { c with
    peerRequests := Function.update c.peerRequests r.who (some range.1)
    blocks := c.blocks.insert range.1 (.downloading (stop - range.1) (downloading + 1)) }
  if stop ≤ range.1 then none else some (some (range.1, stop), c)

section Import

variable [DecidableEq K] (hash : B → K)

-- A complete range whose blocks are handed out is queued under the hash of its first block.
def queue (c : BlockCollection P B K) (start : Nat) (blocks : List (BlockData P B)) :
    BlockCollection P B K :=
  { c with
    blocks := c.blocks.insert start (.queued blocks.length)
    queuedBlocks := blocks.head?.elim c.queuedBlocks fun first =>
      Function.update c.queuedBlocks (hash first.block) (some (start, start + blocks.length)) }

def readyLoop :
    BlockCollection P B K → Nat → List (BlockData P B) → List (Nat × BlockRangeState P B) →
    List (BlockData P B) × BlockCollection P B K
  | c, _, ready, [] => (ready, c)
  | c, prev, ready, (start, range) :: rest =>
    if prev < start then (ready, c) else
    match range with
    | .complete blocks =>
      readyLoop (c.queue hash start blocks) (start + blocks.length) (ready ++ blocks) rest
    | .queued _ => readyLoop c prev ready rest
    | .downloading .. => (ready, c)

def readyBlocks (c : BlockCollection P B K) («from» : Nat) :
    List (BlockData P B) × BlockCollection P B K :=
  readyLoop hash c «from» [] c.blocks.toList

def clearQueued (c : BlockCollection P B K) (k : K) : BlockCollection P B K :=
  match c.queuedBlocks k with
  | some (start, stop) =>
    { c with
      queuedBlocks := Function.update c.queuedBlocks k none
      blocks := (List.range' start (stop - start)).foldl (·.erase ·) c.blocks }
  | none => c

end Import

def clearPeerDownload [DecidableEq P] (c : BlockCollection P B K) (who : P) :
    BlockCollection P B K :=
  match c.peerRequests who with
  | none => c
  | some start =>
    let c := { c with peerRequests := Function.update c.peerRequests who none }
    match (c.blocks[start]? : Option (BlockRangeState P B)) with
    | some (.downloading len downloading) =>
      if 1 < downloading then
        { c with blocks := c.blocks.insert start (.downloading len (downloading - 1)) }
      else
        { c with blocks := c.blocks.erase start }
    | _ => c

end BlockCollection
end Sync
