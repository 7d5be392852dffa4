import RostroModel.Grandpa.Authorities

namespace Grandpa

variable {I H N E : Type}

namespace AuthoritySetChanges

variable {changes : AuthoritySetChanges N} {e : Nat × N} {n : N}

-- The blocks that belong to a recorded set are those up to its last block that are not in
-- the set of an earlier record.
structure RangeContains [LinearOrder N] (changes : AuthoritySetChanges N) (e : Nat × N) (n : N) :
    Prop where
  mem : e ∈ changes
  le : n ≤ e.2
  previous : ∀ e' ∈ changes, e'.1 < e.1 → e'.2 < n

-- The set ids count from 0, and the last blocks of the sets grow.
structure Ordered [LinearOrder N] (changes : AuthoritySetChanges N) (setId : Nat) : Prop where
  setIds : changes.map Prod.fst = List.range setId
  blocks : (changes.map Prod.snd).Pairwise (· < ·)

theorem Ordered.empty [LinearOrder N] : Ordered ([] : AuthoritySetChanges N) 0 :=
  ⟨rfl, .nil⟩

theorem Ordered.append [LinearOrder N] {setId : Nat} (h : Ordered changes setId)
    (hn : ∀ e ∈ changes, e.2 < n) : Ordered (changes.append setId n) (setId + 1) where
  setIds := by simp [AuthoritySetChanges.append, h.setIds, List.range_succ]
  blocks := by
    rw [AuthoritySetChanges.append, List.map_append, List.pairwise_append]
    refine ⟨h.blocks, List.pairwise_singleton _ _, fun b hb c hc => ?_⟩
    cases List.mem_singleton.mp hc
    obtain ⟨e, he, rfl⟩ := List.mem_map.mp hb
    exact hn e he

section Search

variable [LinearOrder N] {setId : Nat}

-- The comparison of the record at a position with a block.
def cmpAt (changes : AuthoritySetChanges N) (n : N) (i : Nat) : Ordering :=
  (changes[i]?).elim .gt fun e => compare e.2 n

theorem Ordered.fst_eq (h : Ordered changes setId) (hi : i < changes.length) :
    changes[i].1 = i := by
  have hg : (changes.map Prod.fst)[i]? = (List.range setId)[i]? := by rw [h.setIds]
  have hl : changes.length = setId := by simpa using congrArg List.length h.setIds
  simpa [hi, hl ▸ hi] using hg

theorem Ordered.snd_lt (h : Ordered changes setId) (hij : i < j) (hj : j < changes.length) :
    changes[i].2 < changes[j].2 := by
  have hp := List.pairwise_iff_getElem.mp h.blocks i j (by simp; omega) (by simpa using hj) hij
  simpa using hp

theorem cmpAt_eq (hi : i < changes.length) : cmpAt changes n i = compare changes[i].2 n := by
  simp [cmpAt, hi]

theorem Ordered.search (h : Ordered changes setId) (n : N) :
    BinarySearch.Ordered (cmpAt changes n) changes.length := by
  constructor
  case lt_of_lt =>
    intro i j hij hj hc
    rw [cmpAt_eq hj, compare_lt_iff_lt] at hc
    rw [cmpAt_eq (by omega), compare_lt_iff_lt]
    rcases Nat.eq_or_lt_of_le hij with rfl | hij
    · exact hc
    · exact (h.snd_lt hij hj).trans hc
  case gt_of_gt =>
    intro i j hij hj hc
    rw [cmpAt_eq (by omega), compare_gt_iff_gt] at hc
    rw [cmpAt_eq hj, compare_gt_iff_gt]
    rcases Nat.eq_or_lt_of_le hij with rfl | hij
    · exact hc
    · exact hc.trans (h.snd_lt hij hj)

theorem Ordered.position_spec (h : Ordered changes setId) (n : N) :
    changes.position n ≤ changes.length ∧
      (∀ i (hi : i < changes.length), i < changes.position n → changes[i].2 < n) ∧
      ∀ i (hi : i < changes.length), changes.position n ≤ i → n ≤ changes[i].2 := by
  obtain ⟨hl, hb, ha⟩ := BinarySearch.position_spec (h.search n) fun i j hij hj hc => by
    rw [cmpAt_eq hj, compare_eq_iff_eq] at hc
    rw [cmpAt_eq (by omega), compare_lt_iff_lt, ← hc]
    exact h.snd_lt hij hj
  refine ⟨hl, fun i hi hp => ?_, fun i hi hp => ?_⟩
  · rw [← compare_lt_iff_lt, ← cmpAt_eq hi]
    exact hb i hp
  · have hc := ha i hp hi
    rw [cmpAt_eq hi, Ne, compare_lt_iff_lt] at hc
    exact not_lt.mp hc

theorem Ordered.getSetId_eq (h : Ordered changes setId) (hn : ∃ e ∈ changes, n ≤ e.2) :
    ∃ e, RangeContains changes e n ∧ changes.getSetId n = .set e.1 e.2 := by
  obtain ⟨hl, hb, ha⟩ := h.position_spec n
  obtain ⟨e, he, hne⟩ := hn
  obtain ⟨j, hj, rfl⟩ := List.getElem_of_mem he
  have hp : changes.position n < changes.length := by
    by_contra hp
    exact absurd hne (not_le.mpr (hb j hj (by omega)))
  have hlast : ¬changes.getLast?.any (·.2 < n) := by
    rw [List.getLast?_eq_getElem?, List.getElem?_eq_getElem (by omega)]
    simpa using ha (changes.length - 1) (by omega) (by omega)
  refine ⟨changes[changes.position n], ⟨List.getElem_mem hp, ha _ hp (le_refl _), ?_⟩, ?_⟩
  · intro e' he' hlt
    obtain ⟨i, hi, rfl⟩ := List.getElem_of_mem he'
    rw [h.fst_eq hi, h.fst_eq hp] at hlt
    exact hb i hi hlt
  · rw [getSetId, if_neg hlast]
    simp [List.getElem?_eq_getElem hp, h.fst_eq hp]

end Search
end AuthoritySetChanges

namespace AuthoritySet

variable [DecidableEq H] [LinearOrder N] [Add N]

-- The calls that move an authority set, each with the block tree as it is known then.
inductive Call (I H N E : Type)
  | addPendingChange (pending : PendingChange I H N) (isDescendentOf : H → H → Except E Bool)
  | applyStandardChanges (finalizedHash : H) (finalizedNumber : N)
    (isDescendentOf : H → H → Except E Bool)
  | applyForcedChanges (bestHash : H) (bestNumber : N) (isDescendentOf : H → H → Except E Bool)

-- `apply_forced_changes` returns a new set instead of changing the one it is called on.
def Call.apply (set : AuthoritySet I H N) : Call I H N E → AuthoritySet I H N
  | .addPendingChange pending isDescendentOf => (set.addPendingChange isDescendentOf pending).2
  | .applyStandardChanges hash number isDescendentOf =>
    (set.applyStandardChanges isDescendentOf hash number).2
  | .applyForcedChanges hash number isDescendentOf =>
    match set.applyForcedChanges isDescendentOf hash number with
    | .ok (some (_, set)) => set
    | _ => set

def Call.finalizedNumber : Call I H N E → Option N
  | .applyStandardChanges _ number _ => some number
  | _ => none

-- The runs from a genesis set, with the numbers of the blocks that were finalized. Every call meets
-- the condition in the state in which it is made.
inductive Run (condition : AuthoritySet I H N → Call I H N E → Prop) :
    List N → AuthoritySet I H N → Prop
  | genesis {initial set} : AuthoritySet.genesis initial = some set → Run condition [] set
  | call {finalized set} (c : Call I H N E) : Run condition finalized set →
    (∀ n ∈ c.finalizedNumber, ∀ m ∈ finalized, m < n) → condition set c →
    Run condition (c.finalizedNumber.toList ++ finalized) (c.apply set)

-- A set change is only made for a block above all recorded ones: the finalized block, if there is a
-- standard change for it, or the block that a forced change names.
def Call.Advances (set : AuthoritySet I H N) : Call I H N E → Prop
  | .addPendingChange .. => True
  | .applyStandardChanges hash number isDescendentOf =>
    ∀ root ∈ set.pendingStandardChanges.roots, root.data.effectiveNumber ≤ number →
      ForkTree.isAtOrBelow hash isDescendentOf root = .ok true →
      ∀ e ∈ set.authoritySetChanges, e.2 < number
  | .applyForcedChanges hash number isDescendentOf =>
    ∀ change ∈ set.pendingForcedChanges, change.effectiveNumber = number →
      signalledAbove isDescendentOf hash change = .ok true →
      ∀ median, change.delayKind = .best median → ∀ e ∈ set.authoritySetChanges, e.2 < median

theorem Run.mono {P Q : AuthoritySet I H N → Call I H N E → Prop} (hq : ∀ set c, P set c → Q set c)
    {set : AuthoritySet I H N} (h : Run P finalized set) : Run Q finalized set := by
  induction h
  case genesis hg => exact .genesis hg
  case call c _ hn hp hi => exact .call c hi hn (hq _ _ hp)

-- What a call may do to the history: nothing, or one more record for the current set.
inductive Records (set : AuthoritySet I H N) (Q : N → Prop) : AuthoritySet I H N → Prop
  | unchanged {set'} : set'.setId = set.setId →
    set'.authoritySetChanges = set.authoritySetChanges → Records set Q set'
  | appended {set'} (n) : Q n → set'.setId = set.setId + 1 →
    set'.authoritySetChanges = set.authoritySetChanges.append set.setId n → Records set Q set'

variable {set : AuthoritySet I H N} {isDescendentOf : H → H → Except E Bool} {hash : H} {number : N}

theorem addPendingChange_records (Q : N → Prop) (pending : PendingChange I H N) :
    Records set Q (set.addPendingChange isDescendentOf pending).2 := by
  rw [addPendingChange]
  split_ifs
  case pos => exact .unchanged rfl rfl
  case neg =>
    cases pending.delayKind
    case finalized => exact .unchanged rfl rfl
    case best =>
      simp only [addForcedChange]
      cases checkForced isDescendentOf pending set.pendingForcedChanges <;> exact .unchanged rfl rfl

theorem applyStandardChanges_records {Q : N → Prop}
    (h : ∀ root ∈ set.pendingStandardChanges.roots, root.data.effectiveNumber ≤ number →
      ForkTree.isAtOrBelow hash isDescendentOf root = .ok true → Q number) :
    Records set Q (set.applyStandardChanges isDescendentOf hash number).2 := by
  rw [applyStandardChanges]
  rcases hf : set.pendingStandardChanges.finalizeWithDescendentIf hash number isDescendentOf
    (·.effectiveNumber ≤ number) with ⟨_ | change | _, tree⟩
  case error => exact .unchanged rfl rfl
  case ok.unchanged => exact .unchanged rfl rfl
  case ok.changed =>
    simp only
    rcases retainForced isDescendentOf hash number set.pendingForcedChanges [] with ⟨_ | _, forced⟩
    case error => exact .unchanged rfl rfl
    case ok =>
      cases change
      case none => exact .unchanged rfl rfl
      case some change =>
        obtain ⟨root, hr, rfl, hp, hq⟩ :=
          ForkTree.finalizeWithDescendentIf_eq_changed (congrArg Prod.fst hf)
        exact .appended number (h root hr (of_decide_eq_true hp) hq) rfl rfl

omit [LinearOrder N] [Add N] in
theorem findForced_eq_some {changes : List (PendingChange I H N)}
    (h : findForced isDescendentOf hash changes = .ok (some change)) :
    change ∈ changes ∧ signalledAbove isDescendentOf hash change = .ok true := by
  induction changes
  case nil => cases h
  case cons c changes hi =>
    rw [findForced] at h
    rcases hs : signalledAbove isDescendentOf hash c with _ | _ | _
    all_goals rw [hs] at h
    case error => cases h
    case ok.false => exact (hi h).imp_left (List.mem_cons_of_mem _)
    case ok.true =>
      cases h
      exact ⟨List.mem_cons_self, hs⟩

theorem applyForcedChanges_eq_some
    (h : set.applyForcedChanges isDescendentOf hash number = .ok (some (median, set'))) :
    ∃ change ∈ set.pendingForcedChanges, change.effectiveNumber = number ∧
      signalledAbove isDescendentOf hash change = .ok true ∧ change.delayKind = .best median ∧
      set' = set.withForced median change := by
  rw [applyForcedChanges] at h
  rcases hf : findForced isDescendentOf hash _ with _ | _ | change
  all_goals rw [hf] at h
  case error => cases h
  case ok.none => cases h
  case ok.some =>
    obtain ⟨hm, hs⟩ := findForced_eq_some hf
    obtain ⟨hm, hn⟩ := List.mem_filter.mp hm
    simp only at h
    cases hk : change.delayKind
    all_goals rw [hk] at h
    case finalized => cases h
    case best m =>
      simp only at h
      rcases hd : findDependency isDescendentOf m change
        set.pendingStandardChanges.roots with _ | _ | _
      all_goals rw [hd] at h
      all_goals cases h
      exact ⟨change, (List.takeWhile_sublist _).subset hm, of_decide_eq_true hn, hs, hk, rfl⟩

theorem Call.records (c : Call I H N E) (h : c.Advances set) :
    Records set (fun n => ∀ e ∈ set.authoritySetChanges, e.2 < n) (c.apply set) := by
  cases c
  case addPendingChange => exact addPendingChange_records _ _
  case applyStandardChanges => exact applyStandardChanges_records h
  case applyForcedChanges hash number isDescendentOf =>
    rw [apply]
    rcases ha : set.applyForcedChanges isDescendentOf hash number with _ | _ | ⟨median, set'⟩
    case error => exact .unchanged rfl rfl
    case ok.none => exact .unchanged rfl rfl
    case ok.some =>
      obtain ⟨change, hm, hn, hs, hk, rfl⟩ := applyForcedChanges_eq_some ha
      exact .appended median (h change hm hn hs median hk) rfl rfl

omit [DecidableEq H] [Add N] in
theorem Records.ordered (h : Records set (fun n => ∀ e ∈ set.authoritySetChanges, e.2 < n) set')
    (ho : set.authoritySetChanges.Ordered set.setId) :
    set'.authoritySetChanges.Ordered set'.setId := by
  cases h
  case unchanged hi hc => rw [hi, hc]; exact ho
  case appended hn hi hc =>
    rw [hi, hc]
    exact ho.append hn

theorem Run.ordered (h : Run (E := E) (fun set c => c.Advances set) finalized set) :
    set.authoritySetChanges.Ordered set.setId := by
  induction h
  case genesis initial set hg =>
    rw [AuthoritySet.genesis] at hg
    split_ifs at hg
    cases hg
    exact .empty
  case call c _ _ hc hi => exact (c.records hc).ordered hi

-- The history of a set: the ids are those of all sets before the current one, the blocks grow, and
-- a block up to the last recorded one is found in the set whose range contains it.
structure Searchable (set : AuthoritySet I H N) : Prop where
  setIds : set.authoritySetChanges.map Prod.fst = List.range set.setId
  blocks : (set.authoritySetChanges.map Prod.snd).Pairwise (· < ·)
  found : ∀ n, (∃ e ∈ set.authoritySetChanges, n ≤ e.2) →
    ∃ e, set.authoritySetChanges.RangeContains e n ∧
      set.authoritySetChanges.getSetId n = .set e.1 e.2

theorem searchable_of_advancing {finalized : List N}
    (h : Run (E := E) (fun set c => c.Advances set) finalized set) : set.Searchable :=
  ⟨h.ordered.setIds, h.ordered.blocks, fun _ hn => h.ordered.getSetId_eq hn⟩

def chainQuery (a b : Nat) : Except Empty Bool :=
  .ok (a < b)

def sampleStandard : PendingChange Nat Nat Nat where
  nextAuthorities := [(1, 1)]
  delay := 2
  canonHeight := 8
  canonHash := 8
  delayKind := .finalized

def sampleForced (median : Nat) : PendingChange Nat Nat Nat where
  nextAuthorities := [(2, 1)]
  delay := 1
  canonHeight := 12
  canonHash := 12
  delayKind := .best median

def sampleGenesis : AuthoritySet Nat Nat Nat where
  currentAuthorities := [(0, 1)]

-- A standard change that is enacted at block 10, and a forced one that is pending then.
def sampleSet (median : Nat) : AuthoritySet Nat Nat Nat :=
  let set := (sampleGenesis.addPendingChange chainQuery sampleStandard).2
  let set := (set.applyStandardChanges chainQuery 10 10).2
  (set.addPendingChange chainQuery (sampleForced median)).2

theorem sampleSet_run (median : Nat) :
    Run (E := Empty) (fun set c => c.Advances set) [10] (sampleSet median) := by
  have hg : Run (E := Empty) (fun set c => c.Advances set) [] sampleGenesis :=
    .genesis (rfl : AuthoritySet.genesis [(0, 1)] = some sampleGenesis)
  have h1 := hg.call (.addPendingChange sampleStandard chainQuery) (by simp) trivial
  have h2 := h1.call (.applyStandardChanges 10 10 chainQuery) (by simp [Call.finalizedNumber])
    fun _ _ _ _ _ he => nomatch he
  exact h2.call (.addPendingChange (sampleForced median) chainQuery)
    (by simp [Call.finalizedNumber])
    trivial

theorem sampleSet_searchable : ∃ finalized, ∃ set : AuthoritySet Nat Nat Nat,
    Run (E := Empty) (fun set c => c.Advances set) finalized set ∧
      set.authoritySetChanges = [(0, 10), (1, 11)] ∧ set.Searchable := by
  have h := (sampleSet_run 11).call (.applyForcedChanges 13 13 chainQuery)
    (by simp [Call.finalizedNumber]) (by
      intro change hc _ _ median hk e he
      cases List.mem_singleton.mp hc
      cases List.mem_singleton.mp he
      cases hk
      decide)
  exact ⟨_, _, h, rfl, searchable_of_advancing h⟩

-- A forced change may name a block below the recorded ones. The blocks between them belong to the
-- first set and are reported as being in the latest one.
theorem sampleSet_not_searchable : ∃ finalized, ∃ set : AuthoritySet Nat Nat Nat,
    Run (E := Empty) (fun _ _ => True) finalized set ∧
      set.authoritySetChanges = [(0, 10), (1, 7)] ∧
        set.authoritySetChanges.RangeContains (0, 10) 8 ∧
      set.authoritySetChanges.getSetId 8 = .latest ∧ ¬set.Searchable := by
  have h := (Run.mono (fun _ _ _ => trivial) (sampleSet_run 7)).call
    (.applyForcedChanges 13 13 chainQuery)
    (by simp [Call.finalizedNumber]) trivial
  refine ⟨_, _, h, rfl, ⟨by decide, by decide, by decide⟩, by decide, fun hs => ?_⟩
  exact absurd hs.blocks (by decide)

end AuthoritySet
end Grandpa
