import RostroModel.Statements.Index

namespace Statements

variable {H A T K C : Type}

def maxTopics : Nat := 4

-- A hash set of topics is the list of its elements in the order in which it is iterated.
inductive OptimizedTopicFilter (T : Type)
  | any
  | matchAll (topics : List T)
  | matchAny (topics : List T)

namespace OptimizedTopicFilter

def topics : OptimizedTopicFilter T → List T
  | any => []
  | matchAll topics | matchAny topics => topics

def Accepts (own : List T) : OptimizedTopicFilter T → Prop
  | any => True
  | matchAll topics => ∀ t ∈ topics, t ∈ own
  | matchAny topics => ∃ t ∈ topics, t ∈ own

-- Whether a statement is found by one of the topics only.
def Separates (own : List T) : OptimizedTopicFilter T → Prop
  | matchAny topics => ∀ t ∈ topics, ∀ t' ∈ topics, t ∈ own → t' ∈ own → t = t'
  | _ => True

end OptimizedTopicFilter

namespace Statement

variable (s : Statement H T K C)

def Matches (key : Option K) (filter : OptimizedTopicFilter T) : Prop :=
  s.decryptionKey = key ∧ filter.Accepts s.topics

-- Such a statement has no entry in `topics_and_keys`.
def Plain : Prop :=
  s.topics = [] ∧ s.decryptionKey = none

end Statement

open OptimizedTopicFilter (Accepts Separates)

section Sets

variable [LinearOrder H] {α : Type} [DecidableEq α] {hash h : H} {m : α → Option (Finset H)}
  {k x : α} {l : List α}

theorem mem_addTo : h ∈ (addTo hash m k x).getD ∅ ↔ h = hash ∧ x = k ∨ h ∈ (m x).getD ∅ := by
  by_cases hx : x = k <;> simp [addTo, hx]

theorem mem_removeFrom :
    h ∈ (removeFrom hash m k x).getD ∅ ↔ ¬(h = hash ∧ x = k) ∧ h ∈ (m x).getD ∅ := by
  rw [removeFrom]
  cases hm : m k
  case none => grind
  case some set =>
    dsimp only
    split_ifs with hs <;> by_cases hx : x = k <;> grind

theorem mem_foldl_addTo :
    h ∈ (l.foldl (addTo hash) m x).getD ∅ ↔ h = hash ∧ x ∈ l ∨ h ∈ (m x).getD ∅ := by
  induction l generalizing m
  case nil => simp
  case cons k l hi =>
    rw [List.foldl_cons, hi, mem_addTo, List.mem_cons]
    tauto

theorem mem_foldl_removeFrom :
    h ∈ (l.foldl (removeFrom hash) m x).getD ∅ ↔ ¬(h = hash ∧ x ∈ l) ∧ h ∈ (m x).getD ∅ := by
  induction l generalizing m
  case nil => simp
  case cons k l hi =>
    rw [List.foldl_cons, hi, mem_removeFrom, List.mem_cons]
    tauto

end Sets

variable [LinearOrder H] [LinearOrder A] [DecidableEq T] [DecidableEq K] [DecidableEq C]

namespace Index

variable (index : Index H A T K C) (key : Option K)

abbrev topicSet (t : T) : Finset H :=
  (index.byTopic t).getD ∅

abbrev keySet : Finset H :=
  (index.byDecKey key).getD ∅

-- The hashes that are passed to the callback, of sets that are iterated in any order. It makes no
-- difference that the functions return early if a set is missing or empty.
def iterateWithMatchAny (topics : List T) : Multiset H :=
  (topics : Multiset T).bind fun t => (index.topicSet t).val.filter (· ∈ index.keySet key)

def iterateWithAny : Multiset H :=
  (index.keySet key).val

def iterateWithMatchAll (topics : List T) : Multiset H :=
  if maxTopics < topics.length then 0 else
  match (index.keySet key :: topics.map index.topicSet).mergeSort (·.card ≤ ·.card) with
  | [] => 0
  | first :: rest => first.val.filter fun h => ∀ set ∈ rest, h ∈ set

def iterateWith : OptimizedTopicFilter T → Multiset H
  | .any => index.iterateWithAny key
  | .matchAll topics => index.iterateWithMatchAll key topics
  | .matchAny topics => index.iterateWithMatchAny key topics

end Index

-- The index with the live statements, and those which were dropped without an entry in
-- `topics_and_keys`. A hash determines its statement.
inductive Built (of : H → Statement H T K C) : Index H A T K C → Set H → Set H → Prop
  | empty : Built of { config } ∅ ∅
  | insertNew (h : Built of index live dropped) (hash account isRecent) :
    Built of (index.insertNew hash account (of hash) isRecent) (insert hash live) dropped
  | makeExpired (h : Built of index live dropped) (hash now) :
    Built of (index.makeExpired hash now).2 (live \ {hash})
      (dropped ∪ {h | h = hash ∧ h ∈ live ∧ (of h).Plain})

structure Indexed (of : H → Statement H T K C) (index : Index H A T K C) (live dropped : Set H) :
    Prop where
  entries : ∀ h, h ∈ index.entries ↔ h ∈ live
  byTopic : ∀ t h, h ∈ index.topicSet t ↔ h ∈ live ∧ t ∈ (of h).topics
  byDecKey : ∀ key h, h ∈ index.keySet key ↔ (h ∈ live ∨ h ∈ dropped) ∧ (of h).decryptionKey = key
  topicsAndKeys : ∀ h p, index.topicsAndKeys h = some p ↔
    h ∈ live ∧ ¬(of h).Plain ∧ p = ((of h).topics, (of h).decryptionKey)
  plain : ∀ h ∈ dropped, (of h).Plain

namespace Indexed

variable {of : H → Statement H T K C} {index : Index H A T K C} {live dropped : Set H} {hash : H}

omit [DecidableEq T] [DecidableEq K] [DecidableEq C] in
theorem empty : Indexed of ({ config } : Index H A T K C) ∅ ∅ := by
  constructor <;> simp [Index.topicSet, Index.keySet]

-- The queries do not read the notes on evicted statements and on accounts.
omit [DecidableEq T] [DecidableEq K] in
theorem of_evicted (hash account expiry now) (h : Indexed of index live dropped) :
    Indexed of ((index.noteEvicted hash expiry now).removeFromAccount account hash expiry)
      live dropped := by
  rw [Index.removeFromAccount, Index.noteEvicted]
  split <;> split_ifs <;> exact ⟨h.entries, h.byTopic, h.byDecKey, h.topicsAndKeys, h.plain⟩

variable (h : Indexed of index live dropped)
include h

theorem insertNew (hash account isRecent) :
    Indexed of (index.insertNew hash account (of hash) isRecent) (insert hash live) dropped := by
  constructor
  case entries => grind [Index.insertNew, h.entries]
  case byTopic =>
    intro t h'
    rw [Index.insertNew, mem_foldl_addTo, h.byTopic]
    grind
  case byDecKey =>
    intro key h'
    rw [Index.insertNew, mem_addTo, h.byDecKey]
    grind
  case topicsAndKeys =>
    intro h' p
    have hp : (of hash).topics ≠ [] ∨ (of hash).decryptionKey.isSome ↔ ¬(of hash).Plain := by
      simp [Statement.Plain, Option.isSome_iff_ne_none, imp_iff_not_or]
    simp only [Index.insertNew]
    grind [h.topicsAndKeys h' p]
  case plain => exact h.plain

theorem makeExpired (hash now) : Indexed of (index.makeExpired hash now).2 (live \ {hash})
    (dropped ∪ {h | h = hash ∧ h ∈ live ∧ (of h).Plain}) := by
  have he := h.entries hash
  have ht := h.topicsAndKeys hash
  rw [Index.makeExpired]
  split
  case h_2 hn =>
    have hl : hash ∉ live := by grind
    have hd : {h | h = hash ∧ h ∈ live ∧ (of h).Plain} = ∅ := by grind
    rw [Set.sdiff_singleton_eq_self hl, hd, Set.union_empty]
    exact h
  case h_1 hs =>
    apply of_evicted
    rw [Index.forgetTopics]
    split
    case h_1 hk =>
      constructor
      case entries => grind [h.entries]
      case byTopic =>
        intro t h'
        rw [mem_foldl_removeFrom, h.byTopic]
        grind
      case byDecKey =>
        intro key h'
        rw [mem_removeFrom, h.byDecKey]
        grind [h.plain hash]
      case topicsAndKeys => grind [h.topicsAndKeys]
      case plain => grind [h.plain]
    case h_2 hk =>
      have hp : (of hash).Plain := by
        by_contra hp
        grind [(ht _).mpr ⟨by grind, hp, rfl⟩]
      constructor
      case entries => grind [h.entries]
      case byTopic =>
        intro t h'
        rw [h.byTopic]
        grind [hp.1]
      case byDecKey =>
        intro key h'
        rw [h.byDecKey]
        grind
      case topicsAndKeys => grind [h.topicsAndKeys]
      case plain => grind [h.plain]

variable {key : Option K} {filter : OptimizedTopicFilter T}

omit [DecidableEq T] [DecidableEq K] [DecidableEq C]

theorem mem_topicSet (hh : hash ∈ index.keySet key) :
    hash ∈ index.topicSet t ↔ t ∈ (of hash).topics := by
  rw [h.byTopic, and_iff_right_iff_imp]
  intro ht
  refine ((h.byDecKey ..).mp hh).1.resolve_right fun hd => ?_
  simp [(h.plain _ hd).1] at ht

theorem mem_iterateWith (hm : ∀ hash, (of hash).topics.length ≤ maxTopics)
    (hn : filter.topics.Nodup) :
    hash ∈ index.iterateWith key filter ↔
      (hash ∈ live ∨ hash ∈ dropped) ∧ (of hash).Matches key filter := by
  rw [Statement.Matches, ← and_assoc, ← h.byDecKey]
  cases filter
  case any => simp [Index.iterateWith, Index.iterateWithAny, Accepts]
  case matchAny topics =>
    simp only [Index.iterateWith, Index.iterateWithMatchAny, Multiset.mem_bind, Multiset.mem_filter,
      Multiset.mem_coe, Finset.mem_val, Accepts]
    grind [h.mem_topicSet]
  case matchAll topics =>
    simp only [Index.iterateWith, Index.iterateWithMatchAll]
    split_ifs with hl
    case pos =>
      refine iff_of_false (Multiset.notMem_zero _) fun hs => ?_
      have hle := (hn.subperm hs.2).length_le
      exact absurd hl (not_lt.mpr (hle.trans (hm hash)))
    case neg =>
      split
      case h_1 he => simpa using congrArg List.length he
      case h_2 first rest he =>
        have hs : (∀ set ∈ first :: rest, hash ∈ set) ↔
            ∀ set ∈ index.keySet key :: topics.map index.topicSet, hash ∈ set := by
          simp only [← he, List.mem_mergeSort]
        simp only [List.forall_mem_cons, List.forall_mem_map] at hs
        rw [Multiset.mem_filter, Finset.mem_val, hs]
        exact and_congr_right fun hk => forall₂_congr fun _ _ => h.mem_topicSet hk

theorem nodup_iterateWith (hn : filter.topics.Nodup) : (index.iterateWith key filter).Nodup ↔
    ∀ h ∈ live, (of h).decryptionKey = key → filter.Separates (of h).topics := by
  cases filter
  case any => simpa [Index.iterateWith, Index.iterateWithAny, Separates] using Finset.nodup _
  case matchAll topics =>
    simp only [Index.iterateWith, Index.iterateWithMatchAll]
    split_ifs
    case pos => simp [Separates]
    case neg => split <;> simp [Multiset.Nodup.filter, Finset.nodup, Separates]
  case matchAny topics =>
    have hd t t' : Disjoint ((index.topicSet t).val.filter (· ∈ index.keySet key))
        ((index.topicSet t').val.filter (· ∈ index.keySet key)) ↔
        ∀ h ∈ live, (of h).decryptionKey = key → t ∈ (of h).topics → t' ∉ (of h).topics := by
      simp only [Multiset.disjoint_left, Multiset.mem_filter, Finset.mem_val, h.byTopic, h.byDecKey]
      grind
    rw [Index.iterateWith, Index.iterateWithMatchAny, Multiset.nodup_bind,
      and_iff_right fun _ _ => (Finset.nodup _).filter _, Multiset.pairwise_coe_iff_pairwise]
    constructor
    case mp =>
      intro hp h' hl hk t ht t' ht' ho ho'
      by_contra hne
      exact (hd ..).mp (hp.forall ht ht' hne) h' hl hk ho ho'
    case mpr =>
      refine fun hu => hn.pairwise_of_forall_ne fun t ht t' ht' hne => (hd ..).mpr ?_
      exact fun h' hl hk ho ho' => hne (hu h' hl hk t ht t' ht' ho ho')

end Indexed

theorem Built.indexed {of : H → Statement H T K C} {index : Index H A T K C} {live dropped}
    (h : Built of index live dropped) :
    Indexed of index live dropped := by
  induction h
  case empty => exact .empty
  case insertNew hi => exact hi.insertNew ..
  case makeExpired hi => exact hi.makeExpired ..

theorem iterateWith_exact_iff {of : H → Statement H T K C} {index : Index H A T K C} {live dropped}
    {key : Option K} {filter : OptimizedTopicFilter T} (h : Built of index live dropped)
    (hm : ∀ hash, (of hash).topics.length ≤ maxTopics) (hn : filter.topics.Nodup) :
    ((index.iterateWith key filter).Nodup ∧
      ∀ h, h ∈ index.iterateWith key filter ↔ h ∈ live ∧ (of h).Matches key filter) ↔
    (∀ h ∈ live, (of h).decryptionKey = key → filter.Separates (of h).topics) ∧
      ∀ h ∈ dropped, (of h).Matches key filter → h ∈ live := by
  rw [h.indexed.nodup_iterateWith hn]
  refine and_congr_right fun _ => forall_congr' fun hash => ?_
  rw [h.indexed.mem_iterateWith hm hn]
  tauto

-- Statements with one or two topics, one of them with a key.
def sampleTopics (hash : Nat) : Statement Nat Nat Nat Nat where
  hash
  topics := if hash = 1 then [1, 2] else [hash]
  decryptionKey := if hash = 4 then some 9 else none
  expiry := 0
  dataLen := 1

-- Four statements are inserted, and one of them expires.
def sampleIndex : Index Nat Nat Nat Nat Nat :=
  let index : Index Nat Nat Nat Nat Nat := {}
  let index := [1, 2, 3, 4].foldl (fun index h => index.insertNew h 0 (sampleTopics h) true) index
  (index.makeExpired 3 0).2

theorem iterateWith_exact_sample : sampleIndex.iterateWith none (.matchAny [2, 3, 4]) = {1, 2} ∧
    ∃ live : Set Nat, (∀ h, h ∈ live ↔ h ∈ [1, 2, 4]) ∧
      ∀ h, h ∈ sampleIndex.iterateWith none (.matchAny [2, 3, 4]) ↔
        h ∈ live ∧ (sampleTopics h).Matches none (.matchAny [2, 3, 4]) := by
  have h : Built sampleTopics sampleIndex _ _ :=
    .makeExpired (.insertNew
      (.insertNew (.insertNew (.insertNew .empty 1 0 true) 2 0 true) 3 0 true) 4 0 true) 3 0
  refine ⟨by decide +kernel, _, ?_, ((iterateWith_exact_iff h ?_ (by decide)).mpr ⟨?_, ?_⟩).2⟩
  · intro h
    simp
    omega
  · intro hash
    simp only [sampleTopics]
    split_ifs <;> simp [maxTopics]
  · intro h hl hk
    simp only [Separates, sampleTopics]
    split_ifs
    · simp
    · simp
      omega
  · rintro h (hd | ⟨rfl, -, hp⟩)
    · cases hd
    · exact absurd hp.1 (by decide)

-- A statement with two of the topics is visited twice, one without topics and key after it expired.
example : sampleIndex.iterateWith none (.matchAny [1, 2]) = {1, 1, 2} ∧
    ((sampleIndex.insertNew 5 0 { sampleTopics 5 with topics := [] } true).makeExpired
      5 0).2.iterateWith none .any = {1, 2, 5} := by
  decide +kernel

end Statements
