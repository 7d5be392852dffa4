import RostroModel.Library.TreeMap
import RostroModel.Library.Machine

namespace Statements

-- Statement hashes, accounts, topics, decryption keys and channels.
variable {H A T K C : Type}

def defaultMaxTotalStatements : Nat := 4 * 1024 * 1024

-- The fields of a statement that the store looks at. The upper 32 bits of the expiry are the
-- expiration time in seconds.
structure Statement (H T K C : Type) where
  hash : H
  topics : List T := []
  decryptionKey : Option K := none
  channel : Option C := none
  expiry : Nat
  dataLen : Nat
  deriving DecidableEq, Repr

def getExpirationTimestampSecs (expiry : Nat) : Nat :=
  expiry / 2 ^ 32

structure StatementAllowance where
  maxCount : Nat
  maxSize : Nat
  deriving DecidableEq, Repr

inductive RejectionReason
  | dataTooLarge (submittedSize availableSize : Nat)
  | channelPriorityTooLow (submittedExpiry minExpiry : Nat)
  | accountFull (submittedExpiry minExpiry : Nat)
  | storeFull
  | noAllowance
  deriving DecidableEq, Repr

structure Config where
  maxTotalStatements : Nat := defaultMaxTotalStatements
  maxTotalSize : Nat := 2 * 1024 * 1024 * 1024
  purgeAfterSec : Nat := 2 * 24 * 60 * 60
  deriving DecidableEq, Repr

-- Ordered by the expiry, then by the hash.
abbrev PriorityKey (H : Type) := Nat ×ₗ H

section Index

variable [LinearOrder H] [LinearOrder A] [DecidableEq T] [DecidableEq K] [DecidableEq C]

def PriorityKey.mk (expiry : Nat) (hash : H) : PriorityKey H :=
  toLex (expiry, hash)

def PriorityKey.expiry (key : PriorityKey H) : Nat :=
  (ofLex key).1

def PriorityKey.hash (key : PriorityKey H) : H :=
  (ofLex key).2

structure StatementsForAccount (H C : Type) [LinearOrder H] where
  byPriority : Std.ExtTreeMap (PriorityKey H) (Option C × Nat) := ∅
  channels : C → Option (H × Nat) := fun _ => none
  dataSize : Nat := 0

structure EvictedIndex (H : Type) [LinearOrder H] where
  hashes : Finset H := ∅
  queue : Std.ExtTreeSet (PriorityKey H) := ∅
  pendingCleanup : List H := []

namespace EvictedIndex

-- Makes room for one more hash by giving up the one that is to be purged first.
def displace (e : EvictedIndex H) : EvictedIndex H :=
  match e.queue.min? with
  | some key =>
    { hashes := e.hashes.erase key.hash
      queue := e.queue.erase key
      pendingCleanup := e.pendingCleanup ++ [key.hash] }
  | none => e

def insert (e : EvictedIndex H) (hash : H) (purgeAt : Nat) : EvictedIndex H :=
  let e := if defaultMaxTotalStatements ≤ e.hashes.card then e.displace else e
  { e with
    hashes := Insert.insert hash e.hashes
    queue := e.queue.insert (.mk purgeAt hash) }

def drainDue (e : EvictedIndex H) (currentTime : Nat) : List H × EvictedIndex H :=
  let due := (e.queue.toList.filter (·.expiry ≤ currentTime)).map PriorityKey.hash
  (e.pendingCleanup ++ due,
    { hashes := due.foldl Finset.erase e.hashes
      queue := e.queue.filter (currentTime < ·.expiry)
      pendingCleanup := [] })

end EvictedIndex

structure Index (H A T K C : Type) [LinearOrder H] [LinearOrder A] where
  recent : Finset H := ∅
  byTopic : T → Option (Finset H) := fun _ => none
  byDecKey : Option K → Option (Finset H) := fun _ => none
  topicsAndKeys : H → Option (List T × Option K) := fun _ => none
  entries : Std.ExtTreeMap H (A × Nat × Nat) := ∅
  evicted : EvictedIndex H := {}
  accounts : Std.ExtTreeMap A (StatementsForAccount H C) := ∅
  config : Config := {}
  totalSize : Nat := 0

-- An entry of an index by one of the properties of a statement: a set that is
-- kept while it is not empty.
def addTo {α : Type} [DecidableEq α] (hash : H) (m : α → Option (Finset H)) (k : α) :
    α → Option (Finset H) :=
  Function.update m k (some (insert hash ((m k).getD ∅)))

def removeFrom {α : Type} [DecidableEq α] (hash : H) (m : α → Option (Finset H)) (k : α) :
    α → Option (Finset H) :=
  match m k with
  | some set =>
    if set.erase hash = ∅ then Function.update m k none
    else Function.update m k (some (set.erase hash))
  | none => m

namespace StatementsForAccount

def insert (rec : StatementsForAccount H C) (hash : H) (channel : Option C) (expiry len : Nat) :
    StatementsForAccount H C where
  dataSize := rec.dataSize + len
  channels := channel.elim rec.channels fun c =>
    Function.update rec.channels c (some (hash, expiry))
  byPriority := rec.byPriority.insert (.mk expiry hash) (channel, len)

def remove (rec : StatementsForAccount H C) (hash : H) (expiry : Nat) : StatementsForAccount H C :=
  match rec.byPriority[PriorityKey.mk expiry hash]? with
  | some (channel, len) =>
    { byPriority := rec.byPriority.erase (.mk expiry hash)
      dataSize := rec.dataSize - len
      channels := channel.elim rec.channels fun c => Function.update rec.channels c none }
  | none => rec

end StatementsForAccount

namespace Index

variable (index : Index H A T K C)

def insertNew (hash : H) (account : A) (s : Statement H T K C) (isRecent : Bool) :
    Index H A T K C :=
  { index with
    byTopic := s.topics.foldl (addTo hash) index.byTopic
    byDecKey := addTo hash index.byDecKey s.decryptionKey
    topicsAndKeys :=
      if s.topics ≠ [] ∨ s.decryptionKey.isSome then
        Function.update index.topicsAndKeys hash (some (s.topics, s.decryptionKey))
      else index.topicsAndKeys
    entries := index.entries.insert hash (account, s.expiry, s.dataLen)
    recent := if isRecent then insert hash index.recent else index.recent
    totalSize := index.totalSize + s.dataLen
    accounts := index.accounts.insert account
      ((index.accounts[account]?.getD {}).insert hash s.channel s.expiry s.dataLen) }

def maintain (currentTime : Nat) : List H × Index H A T K C :=
  let (deleted, evicted) := index.evicted.drainDue currentTime
  (deleted, { index with evicted })

def takeRecent : Finset H × Index H A T K C :=
  (index.recent, { index with recent := ∅ })

-- The parts of `make_expired`: what a statement is found by, the note that it was evicted, and the
-- account it belongs to.
def forgetTopics (hash : H) : Index H A T K C :=
  match index.topicsAndKeys hash with
  | some (topics, key) =>
    { index with
      topicsAndKeys := Function.update index.topicsAndKeys hash none
      byTopic := topics.foldl (removeFrom hash) index.byTopic
      byDecKey := removeFrom hash index.byDecKey key }
  | none => index

def noteEvicted (hash : H) (expiry currentTime : Nat) : Index H A T K C :=
  if currentTime < getExpirationTimestampSecs expiry then
    { index with
      evicted := index.evicted.insert hash (min (getExpirationTimestampSecs expiry)
        (Machine.saturatingAdd 64 currentTime index.config.purgeAfterSec)) }
  else index

def removeFromAccount (account : A) (hash : H) (expiry : Nat) : Index H A T K C :=
  match index.accounts[account]? with
  | some rec =>
    let rec' := rec.remove hash expiry
    { index with
      accounts :=
        if rec'.byPriority.isEmpty then index.accounts.erase account
        else index.accounts.insert account rec' }
  | none => index

def makeExpired (hash : H) (currentTime : Nat) : Bool × Index H A T K C :=
  match index.entries[hash]? with
  | some (account, expiry, len) =>
    let index := { index with
      entries := index.entries.erase hash
      totalSize := index.totalSize - len
      recent := index.recent.erase hash }
    (true, ((index.forgetTopics hash).noteEvicted hash expiry currentTime).removeFromAccount
      account hash expiry)
  | none => (false, index)

def expireAll (hashes : List H) (currentTime : Nat) : Index H A T K C :=
  hashes.foldl (fun index hash => (index.makeExpired hash currentTime).2) index

section Insert

variable (s : Statement H T K C) (allowance : StatementAllowance)

-- The hash and the size of the statement of the same channel, which is replaced.
def replacedInChannel (rec : StatementsForAccount H C) : Except RejectionReason (List H × Nat) :=
  match s.channel.bind rec.channels with
  | some (hash, expiry) =>
    if s.expiry ≤ expiry then .error (.channelPriorityTooLow s.expiry expiry) else
    match rec.byPriority[PriorityKey.mk expiry hash]? with
    | some (_, len) => .ok ([hash], len)
    | none => .ok ([], 0)
  | none => .ok ([], 0)

-- The constraints of the account once some statements are evicted.
def accountSatisfied (rec : StatementsForAccount H C) (evicted freed : Nat) : Bool :=
  rec.dataSize - freed + s.dataLen ≤ allowance.maxSize ∧
    rec.byPriority.size + 1 - evicted ≤ allowance.maxCount

-- The loop over the statements of the account, the lowest priority first.
def evictLower (rec : StatementsForAccount H C) :
    List (PriorityKey H × Option C × Nat) → List H → Nat →
    Except RejectionReason (List H × Nat)
  | [], evicted, freed => .ok (evicted, freed)
  | (key, _, len) :: rest, evicted, freed =>
    if accountSatisfied s allowance rec evicted.length freed then .ok (evicted, freed) else
    if key.hash ∈ evicted then evictLower rec rest evicted freed else
    if s.expiry ≤ key.expiry then .error (.accountFull s.expiry key.expiry) else
    evictLower rec rest (evicted ++ [key.hash]) (freed + len)

def evictions (account : A) : Except RejectionReason (List H × Nat) :=
  match index.accounts[account]? with
  | some rec =>
    match replacedInChannel s rec with
    | .ok (evicted, freed) => evictLower s allowance rec rec.byPriority.toList evicted freed
    | .error e => .error e
  | none => .ok ([], 0)

-- The global constraints.
def storeSatisfied (evicted freed : Nat) : Bool :=
  index.totalSize - freed + s.dataLen ≤ index.config.maxTotalSize ∧
    index.entries.size + 1 - evicted ≤ index.config.maxTotalStatements

-- Returns the evicted hashes. Nothing is changed before all constraints are checked.
def insert (account : A) (currentTime : Nat) :
    Except RejectionReason (List H) × Index H A T K C :=
  if allowance.maxSize < s.dataLen then
    (.error (.dataTooLarge s.dataLen allowance.maxSize), index)
  else
    match index.evictions s allowance account with
    | .error e => (.error e, index)
    | .ok (evicted, freed) =>
      if index.storeSatisfied s evicted.length freed then
        (.ok evicted, (index.expireAll evicted currentTime).insertNew s.hash account s true)
      else (.error .storeFull, index)

end Insert
end Index

-- What the store is for: the live statements, each with the account it belongs to.
abbrev Live (H A T K C : Type) := H → Option (A × Statement H T K C)

-- The hashes that are gone are not live any more.
def without (live : Live H A T K C) (hashes : List H) : Live H A T K C :=
  fun h => if h ∈ hashes then none else live h

def Index.record (index : Index H A T K C) (a : A) : StatementsForAccount H C :=
  index.accounts[a]?.getD {}

-- A statement of an account as it is listed by priority: its key, its channel and its size.
abbrev Listed (H C : Type) := PriorityKey H × Option C × Nat

-- The statements of the account, the lowest priority first.
def listed (index : Index H A T K C) (a : A) : List (Listed H C) :=
  (index.record a).byPriority.toList

end Index
end Statements
