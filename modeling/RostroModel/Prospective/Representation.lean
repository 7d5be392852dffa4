import RostroModel.Prospective.Operations

namespace Prospective

open Std.ExtTreeMap (contains_eq_isSome_getElem? getElem?_empty lookup_foldl_insert)

variable {Hash : Type} [LinearOrder Hash] [Hashing Hash]

inductive CandidateStorage.Built : CandidateStorage Hash → Prop
  | empty : Built {}
  | add (s s' : CandidateStorage Hash) (e : CandidateEntry Hash) :
      Built s → s.addCandidateEntry e = .ok s' → Built s'
  | addPendingAvailability (s s' : CandidateStorage Hash) (candidateHash : Hash)
      (candidate : CommittedCandidateReceipt Hash) (pvd : PersistedValidationData Hash) :
      Built s → s.addPendingAvailabilityCandidate candidateHash candidate pvd = .ok s' → Built s'
  | remove (s : CandidateStorage Hash) (h : Hash) : Built s → Built (s.removeCandidate h)
  | markBacked (s : CandidateStorage Hash) (h : Hash) : Built s → Built (s.markBacked h)

theorem CandidateStorage.Built.indexed {s : CandidateStorage Hash} (h : s.Built) : s.Indexed := by
  induction h
  case empty => exact indexed_empty
  case add hs hi => exact (addCandidateEntry_eq_ok hs).2.2 hi
  case addPendingAvailability hs hi =>
    obtain ⟨_, -, hs⟩ := Except.bind_eq_ok.mp hs
    exact (addCandidateEntry_eq_ok hs).2.2 hi
  case remove hi => exact hi.removeCandidate
  case markBacked hi => exact hi.markBacked

namespace FragmentChain

variable {sched : SchedulingScope Hash} {f f' prev : FragmentChain Hash}
variable {storage storage' : CandidateStorage Hash} {e : CandidateEntry Hash} {k : Hash}
variable {startingPoint : Option Hash}

-- The chains that the operations lead to, where taking over from a previous chain is restricted.
inductive Reachable (takesOver : FragmentChain Hash → FragmentChain Hash → Prop) :
    FragmentChain Hash → Prop
  | init (schedulingScope : SchedulingScope Hash) (scope : Scope Hash)
    (storage : CandidateStorage Hash) :
      storage.Built → Reachable takesOver (init schedulingScope scope storage)
  | populateFromPrevious (f prev : FragmentChain Hash) (schedulingScope : SchedulingScope Hash) :
      Reachable takesOver f → Reachable takesOver prev → takesOver f prev →
      Reachable takesOver (f.populateFromPrevious schedulingScope prev)
  | tryAddingSecondedCandidate (f f' : FragmentChain Hash) (schedulingScope : SchedulingScope Hash)
      (e : CandidateEntry Hash) : Reachable takesOver f →
      f.tryAddingSecondedCandidate schedulingScope e = .ok f' → Reachable takesOver f'
  | candidateBacked (f : FragmentChain Hash) (schedulingScope : SchedulingScope Hash) (h : Hash) :
      Reachable takesOver f → Reachable takesOver (f.candidateBacked schedulingScope h)

-- No unconnected candidate is known to the previous chain.
def Unknown (f prev : FragmentChain Hash) : Prop :=
  ∀ h : Hash, f.unconnected.contains h → ¬prev.unconnected.contains h ∧ ¬prev.chain.contains h

-- All indices are what they are expected to be, and the chain is built step by step.
structure Chained (f : FragmentChain Hash) : Prop where
  chain : f.chain = .ofList f.chain.chain
  grown : Grown f.scope (fun _ _ => True) f.chain.chain
  indexed : f.unconnected.Indexed

-- No candidate of the chain is unconnected.
def Disjoint (f : FragmentChain Hash) : Prop :=
  ∀ n ∈ f.chain.chain, f.unconnected.byCandidateHash[n.candidateHash]? = none

section Invariants

theorem Repopulated.chained (hr : Repopulated sched f storage startingPoint f' storage')
    (hc : f.Chained) : f'.Chained where
  chain := hr.chain
  grown := hr.scope ▸ hr.populates.grown hc.grown fun _ _ _ _ => trivial
  indexed := hr.indexed hc.indexed

theorem Repopulated.disjoint (hr : Repopulated sched f storage startingPoint f' storage')
    (hd : f.Disjoint) (hs : ∀ k : Hash, storage.byCandidateHash[k]? ≠ none →
      f.unconnected.byCandidateHash[k]? = none) :
    f'.Disjoint := by
  intro n hn
  have hc : f'.chain.contains n.candidateHash = true := by
    rw [hr.chain, BackedChain.contains_ofList]
    exact List.mem_map_of_mem hn
  -- The nodes are those that were there before, and those taken from the storage.
  have hu : f.unconnected.byCandidateHash[n.candidateHash]? = none := by
    obtain ⟨⟨l, hl⟩, hstored⟩ := hr.populates.stored
    rw [← hl] at hn hstored
    rw [List.drop_left] at hstored
    obtain hn | hn := List.mem_append.mp hn
    · exact hd n hn
    · obtain ⟨e, he, -⟩ := hstored n hn
      exact hs _ (by simp [he])
  rw [hr.lookup, hu, Option.none_or, Option.filter_eq_none_iff]
  intro e he hp
  rw [staysPotential, hr.trimmed.1.byCandidateHash _ e he, hc] at hp
  simp at hp

theorem init_chained {scope : Scope Hash} (hs : storage.Indexed) :
    (init sched scope storage).Chained ∧ (init sched scope storage).Disjoint := by
  have hc : ({ scope } : FragmentChain Hash).chain = .ofList [] := rfl
  obtain ⟨ns, storage', hp, hpop⟩ := populateChain_eq sched hc hs
  rw [init, hp]
  refine ⟨⟨rfl, hpop.grown .nil fun _ _ _ _ => trivial, CandidateStorage.indexed_empty⟩, ?_⟩
  intro n _
  exact getElem?_empty

theorem Chained.populateFromPrevious (hc : f.Chained) (hc' : prev.Chained) :
    (f.populateFromPrevious sched prev).Chained := by
  obtain ⟨storage', hr⟩ := repopulate_repopulated sched hc.chain
    (indexed_previousStorage hc'.indexed) none
  exact hr.chained hc

theorem lookup_previousStorage_of_not_contains (hc : prev.Chained)
    (hn : ¬prev.unconnected.contains k ∧ ¬prev.chain.contains k) :
    prev.previousStorage.byCandidateHash[k]? = none := by
  have hu : prev.unconnected.byCandidateHash[k]? = none := Std.ExtTreeMap.getElem?_eq_none hn.1
  have hm : k ∉ prev.chain.chain.map (·.candidateHash) := by
    have hn := hn.2
    rwa [hc.chain, BackedChain.contains_ofList] at hn
  rw [lookup_previousStorage, hu, Option.none_or, List.find?_eq_none]
  intro e he hk
  obtain ⟨n, hn, rfl⟩ := List.mem_map.mp he
  exact hm (of_decide_eq_true hk ▸ List.mem_map_of_mem (List.mem_of_mem_filter hn))

theorem Disjoint.populateFromPrevious (hd : f.Disjoint) (hc : f.Chained) (hc' : prev.Chained)
    (hu : f.Unknown prev) : (f.populateFromPrevious sched prev).Disjoint := by
  obtain ⟨storage', hr⟩ := repopulate_repopulated sched hc.chain
    (indexed_previousStorage hc'.indexed) none
  refine hr.disjoint hd fun k hk => ?_
  by_contra hn
  have hk' : f.unconnected.contains k := by
    rw [CandidateStorage.contains, contains_eq_isSome_getElem?]
    exact Option.isSome_iff_ne_none.mpr hn
  exact hk (lookup_previousStorage_of_not_contains hc' (hu k hk'))

theorem tryAddingSecondedCandidate_eq_ok (h : f.tryAddingSecondedCandidate sched e = .ok f') :
    e.state ≠ .backed ∧ ¬f.chain.contains e.candidateHash ∧ f.checkPotential sched e = .ok () ∧
      ∃ s, f.unconnected.addCandidateEntry e = .ok s ∧ f' = { f with unconnected := s } := by
  simp only [tryAddingSecondedCandidate, canAddCandidateAsPotential, Except.bind_eq_ok,
    Except.ensure_eq_ok, Except.pure_eq_ok] at h
  obtain ⟨_, hb, _, ⟨_, ⟨hn, -⟩, hp⟩, s, hs, h⟩ := h
  cases h
  exact ⟨hb, hn, hp, s, hs, rfl⟩

theorem Chained.tryAddingSecondedCandidate (hc : f.Chained)
    (h : f.tryAddingSecondedCandidate sched e = .ok f') : f'.Chained := by
  obtain ⟨-, -, -, s, hs, rfl⟩ := tryAddingSecondedCandidate_eq_ok h
  exact ⟨hc.chain, hc.grown, (CandidateStorage.addCandidateEntry_eq_ok hs).2.2 hc.indexed⟩

theorem Disjoint.tryAddingSecondedCandidate (hd : f.Disjoint) (hc : f.Chained)
    (h : f.tryAddingSecondedCandidate sched e = .ok f') : f'.Disjoint := by
  obtain ⟨-, hn, -, s, hs, rfl⟩ := tryAddingSecondedCandidate_eq_ok h
  intro n hm
  change s.byCandidateHash[n.candidateHash]? = none
  rw [(CandidateStorage.addCandidateEntry_eq_ok hs).2.1, Std.ExtTreeMap.lookup_insert_ne, hd n hm]
  intro hk
  rw [← hk, hc.chain, BackedChain.contains_ofList] at hn
  exact hn (List.mem_map_of_mem hm)

-- The three things that can happen when a candidate is backed.
theorem candidateBacked_induction {motive : FragmentChain Hash → Prop} (hc : f.Chained)
    (hknown : f.chain.contains k ∨ f.unconnected.byCandidateHash[k]? = none → motive f)
    (hmark : ∀ e, f.unconnected.byCandidateHash[k]? = some e →
      (∀ ms, ms <+: f.chain.chain → tip f.scope ms ≠ e.parentHeadDataHash) →
      motive { f with unconnected := f.unconnected.markBacked k })
    (hrevert : ∀ e ms storage' f', f.unconnected.byCandidateHash[k]? = some e →
      ms <+: f.chain.chain →
      tip f.scope ms = e.parentHeadDataHash →
      Repopulated sched { f with chain := .ofList ms, unconnected := {} }
        (revertedStorage { f with unconnected := f.unconnected.markBacked k } ms)
        (some e.parentHeadDataHash) f' storage' → motive f') :
    motive (f.candidateBacked sched k) := by
  by_cases hk : f.chain.contains k ∨ f.unconnected.byCandidateHash[k]? = none
  · rw [candidateBacked_of_known hk]
    exact hknown hk
  rw [not_or] at hk
  obtain ⟨hn, hu⟩ := hk
  obtain ⟨e, he⟩ := Option.ne_none_iff_exists'.mp hu
  by_cases ht : ∃ ms, ms <+: f.chain.chain ∧ tip f.scope ms = e.parentHeadDataHash
  · obtain ⟨ms, hp, ht⟩ := ht
    rw [candidateBacked_reverts hc.chain hn hc.grown he hp ht]
    have hs : (revertedStorage { f with unconnected := f.unconnected.markBacked k } ms).Indexed :=
      hc.indexed.markBacked.foldl_insertNew
    obtain ⟨storage', hr⟩ := repopulate_repopulated sched
      (f := { f with chain := .ofList ms, unconnected := {} }) rfl hs (some e.parentHeadDataHash)
    exact hrevert e ms storage' _ he hp ht hr
  · have ht : ∀ ms, ms <+: f.chain.chain → tip f.scope ms ≠ e.parentHeadDataHash :=
      fun ms hp h => ht ⟨ms, hp, h⟩
    rw [candidateBacked_of_unconnected hc.chain hn he ht]
    exact hmark e he ht

theorem Chained.candidateBacked (hc : f.Chained) : (f.candidateBacked sched k).Chained := by
  apply candidateBacked_induction hc
  · exact fun _ => hc
  · exact fun _ _ _ => ⟨hc.chain, hc.grown, hc.indexed.markBacked⟩
  · intro e ms storage' f' _ hp _ hr
    exact hr.chained ⟨rfl, hc.grown.of_prefix hp, CandidateStorage.indexed_empty⟩

theorem Disjoint.candidateBacked (hd : f.Disjoint) (hc : f.Chained) :
    (f.candidateBacked sched k).Disjoint := by
  apply candidateBacked_induction hc
  · exact fun _ => hd
  · intro e _ _ n hn
    change (f.unconnected.markBacked k).byCandidateHash[n.candidateHash]? = none
    rw [CandidateStorage.lookup_markBacked, hd n hn]
    rfl
  · intro e ms storage' f' _ _ _ hr
    exact hr.disjoint (fun _ _ => getElem?_empty) fun _ _ => getElem?_empty

theorem Reachable.chained {takesOver : FragmentChain Hash → FragmentChain Hash → Prop}
    (h : Reachable takesOver f) : f.Chained := by
  induction h
  case init hs => exact (init_chained hs.indexed).1
  case populateFromPrevious hi hi' => exact hi.populateFromPrevious hi'
  case tryAddingSecondedCandidate hs hi => exact hi.tryAddingSecondedCandidate hs
  case candidateBacked hi => exact hi.candidateBacked

theorem Reachable.disjoint (h : Reachable Unknown f) : f.Disjoint := by
  induction h
  case init hs => exact (init_chained hs.indexed).2
  case populateFromPrevious h h' ht hi _ => exact hi.populateFromPrevious h.chained h'.chained ht
  case tryAddingSecondedCandidate h hs hi => exact hi.tryAddingSecondedCandidate h.chained hs
  case candidateBacked h hi => exact hi.candidateBacked h.chained

end Invariants

-- The backed chain is a path from the required parent without repeated heads or candidates, and
-- every index holds exactly the candidates it is for.
structure Representation (f : FragmentChain Hash) : Prop where
  first : ∀ n ∈ f.chain.chain.head?,
    n.parentHeadDataHash = Hashing.headData f.scope.baseConstraints.requiredParent
  next : f.chain.chain.IsChain fun n n' => n'.parentHeadDataHash = n.outputHeadDataHash
  heads : (Hashing.headData f.scope.baseConstraints.requiredParent ::
    f.chain.chain.map (·.outputHeadDataHash)).Nodup
  hashes : f.candidateHashes.Nodup
  length : f.chain.chain.length ≤ f.scope.maxBackableLen
  relayParents : (f.chain.chain.map (·.fragment.relayParent.number)).Pairwise (· ≤ ·)
  byParentHead : ∀ head c : Hash, f.chain.byParentHead[head]? = some c ↔
    ∃ n ∈ f.chain.chain, n.parentHeadDataHash = head ∧ n.candidateHash = c
  byOutputHead : ∀ head c : Hash, f.chain.byOutputHead[head]? = some c ↔
    ∃ n ∈ f.chain.chain, n.outputHeadDataHash = head ∧ n.candidateHash = c
  candidates : ∀ c : Hash, c ∈ f.chain.candidates ↔ c ∈ f.candidateHashes
  unconnected : f.unconnected.Indexed

theorem grown_first {scope : Scope Hash} {ns : List (FragmentNode Hash)}
    {allowed : SchedulingScope Hash → CandidateEntry Hash → Prop} (h : Grown scope allowed ns) :
    ∀ n ∈ ns.head?, n.parentHeadDataHash =
      Hashing.headData scope.baseConstraints.requiredParent := by
  intro n hn
  obtain ⟨l, rfl⟩ := List.head?_eq_some_iff.mp hn
  have hp := h.path
  exact (List.cons.inj hp).1

theorem grown_next {scope : Scope Hash} {ns : List (FragmentNode Hash)}
    {allowed : SchedulingScope Hash → CandidateEntry Hash → Prop} (h : Grown scope allowed ns) :
    ns.IsChain fun n n' => n'.parentHeadDataHash = n.outputHeadDataHash := by
  induction h
  case nil => exact .nil
  case snoc ns e n hg _ hs hi =>
    refine List.isChain_append.mpr ⟨hi, .singleton _, fun m hm n' hn' => ?_⟩
    obtain rfl : n = n' := by simpa using hn'
    rw [hg.step_parent hs, tip, hm]
    rfl

theorem Chained.representation (hc : f.Chained) : f.Representation where
  first        := grown_first hc.grown
  next         := grown_next hc.grown
  heads        := hc.grown.nodup_heads
  hashes       := hc.grown.nodup_candidates
  length       := hc.grown.length_le
  relayParents := hc.grown.relayParents_le
  byParentHead head c := by
    rw [hc.chain]
    exact lookup_foldl_insert hc.grown.nodup_parents
  byOutputHead head c := by
    rw [hc.chain]
    exact lookup_foldl_insert hc.grown.nodup_outputs
  candidates c := by
    rw [hc.chain]
    exact BackedChain.mem_candidates_ofList
  unconnected  := hc.indexed

-- The chain may only share candidates with the unconnected storage if a
-- previous chain knew some of these.
theorem representation_of_reachable (h : Reachable (fun _ _ => True) f) : f.Representation ∧
    (Reachable Unknown f → ∀ c : Hash, ¬(f.chain.contains c ∧ f.unconnected.contains c)) := by
  refine ⟨h.chained.representation, ?_⟩
  rintro hu c ⟨hm, hc⟩
  rw [h.chained.chain, BackedChain.contains_ofList] at hm
  obtain ⟨n, hn, rfl⟩ := List.mem_map.mp hm
  rw [CandidateStorage.contains, contains_eq_isSome_getElem?, hu.disjoint n hn] at hc
  cases hc

section Samples

-- Heads are hashed to the numbers they are the digits of, after a leading one.
instance : Hashing Nat where
  headData bytes := bytes.foldl (fun n b => 256 * n + b.toNat) 1
  validationData _ := 0

theorem headData_injective : Function.Injective (Hashing.headData : HeadData → Nat) := by
  have hlast (l : HeadData) (b : UInt8) :
      (Hashing.headData (l ++ [b]) : Nat) = 256 * Hashing.headData l + b.toNat :=
    List.foldl_append
  have hpos (l : HeadData) : 0 < (Hashing.headData l : Nat) := by
    induction l using List.reverseRecOn
    case nil => decide
    case append_singleton l b hi => rw [hlast]; omega
  intro l l' h
  induction l using List.reverseRecOn generalizing l'
  all_goals obtain rfl | ⟨l', b', rfl⟩ := List.eq_nil_or_concat' l'
  case nil.inl => rfl
  case nil.inr =>
    have hp := hpos l'
    rw [hlast] at h
    change 1 = _ at h
    omega
  case append_singleton.inl l b hi =>
    have hp := hpos l
    rw [hlast] at h
    change _ = 1 at h
    omega
  case append_singleton.inr l b hi =>
    -- The last digit is the remainder.
    have hb := b.toNat_lt
    have hb' := b'.toNat_lt
    rw [hlast, hlast] at h
    have he : b.toNat = b'.toNat := by omega
    have hh : (Hashing.headData l : Nat) = Hashing.headData l' := by omega
    rw [hi hh, UInt8.toNat_inj.mp he]

def sampleConstraints (watermarks : List Nat) : Constraints Nat where
  minRelayParentNumber := 0
  maxPovSize := 0
  maxCodeSize := 0
  maxHeadDataSize := 1
  umpRemaining := 0
  umpRemainingBytes := 0
  maxUmpNumPerCandidate := 0
  dmpRemainingMessages := []
  validWatermarks := watermarks
  hrmpChannelsOut := ∅
  maxHrmpNumPerCandidate := 0
  requiredParent := [0]
  validationCodeHash := 0
  upgradeRestriction := none
  futureValidationCode := none

def sampleScope (watermarks : List Nat) : Scope Nat :=
  .new (sampleConstraints watermarks) [] 2

def sampleSchedulingScope : SchedulingScope Nat :=
  { schedulingParents := (∅ : Std.ExtTreeSet Nat).insert 0 }

theorem zero_head_ne_one : 256 + (0 : UInt8).toNat ≠ 256 + (1 : UInt8).toNat := by
  decide

theorem one_head_ne_two : 256 + (1 : UInt8).toNat ≠ 256 + (2 : UInt8).toNat := by
  decide

def sampleEntry (candidateHash : Nat) (parent head : UInt8) (relayParent watermark : Nat)
    (h : 256 + parent.toNat ≠ 256 + head.toNat) : CandidateEntry Nat where
  candidateHash := candidateHash
  parentHeadDataHash := 256 + parent.toNat
  outputHeadDataHash := 256 + head.toNat
  relayParent := 0
  schedulingParent := 0
  paraId := 0
  state := .seconded
  candidate := {
    commitments := {
      upwardMessages := [],
      horizontalMessages := [],
      newValidationCode := none,
      headData := [head],
      processedDownwardMessages := 0,
      hrmpWatermark := watermark },
    persistedValidationData := {
      parentHead := [parent],
      relayParentNumber := relayParent,
      relayParentStorageRoot := 0,
      maxPovSize := 0 },
    validationCodeHash := 0 }
  parent_eq := rfl
  output_eq := rfl
  parent_ne_output := h

def sampleSeconded : FragmentChain Nat :=
  ((init sampleSchedulingScope (sampleScope []) {}).tryAddingSecondedCandidate sampleSchedulingScope
    (sampleEntry 1 0 1 0 0 zero_head_ne_one)).toOption.getD { scope := sampleScope [] }

theorem sampleSeconded_eq :
    (init sampleSchedulingScope (sampleScope []) {}).tryAddingSecondedCandidate
    sampleSchedulingScope (sampleEntry 1 0 1 0 0 (by decide)) = .ok sampleSeconded := by
  rfl

def sampleBacked : FragmentChain Nat :=
  (populateChain { sampleSeconded with unconnected := {} } sampleSchedulingScope
    (sampleSeconded.unconnected.markBacked 1)).1

theorem trimLoop_of_no_children {visited : Std.ExtTreeSet Hash}
    (h : visitChildren f sched storage (visited.insert parent) parent potential = []) :
    trimLoop f sched storage visited [(parent, potential)] = storage := by
  rw [trimLoop, h]
  change trimLoop f sched storage (visited.insert parent) [] = storage
  rw [trimLoop]

theorem sampleBacked_eq :
    sampleSeconded.candidateBacked sampleSchedulingScope 1 = sampleBacked := by
  let r := populateChain { sampleSeconded with unconnected := {} } sampleSchedulingScope
    (sampleSeconded.unconnected.markBacked 1)
  have ht : r.1.trimUneligibleForks sampleSchedulingScope r.2 (some 256) = r.2 :=
    trimLoop_of_no_children rfl
  change r.1.populateUnconnectedPotentialCandidates sampleSchedulingScope
    (r.1.trimUneligibleForks sampleSchedulingScope r.2 (some 256)) = _
  rw [ht]
  rfl

theorem reachable_sampleSeconded (takesOver : FragmentChain Nat → FragmentChain Nat → Prop) :
    Reachable takesOver sampleSeconded :=
  .tryAddingSecondedCandidate _ _ _ _ (.init _ _ _ .empty) sampleSeconded_eq

theorem reachable_sampleBacked (takesOver : FragmentChain Nat → FragmentChain Nat → Prop) :
    Reachable takesOver sampleBacked :=
  sampleBacked_eq ▸ .candidateBacked _ _ _ (reachable_sampleSeconded takesOver)

-- A child of the candidate that is backed in the previous chain, which does not know the child.
def sampleChild : FragmentChain Nat :=
  ((init sampleSchedulingScope (sampleScope []) {}).tryAddingSecondedCandidate sampleSchedulingScope
    (sampleEntry 2 1 2 0 0 (by decide))).toOption.getD { scope := sampleScope [] }

theorem sampleChild_eq : (init sampleSchedulingScope (sampleScope []) {}).tryAddingSecondedCandidate
    sampleSchedulingScope (sampleEntry 2 1 2 0 0 (by decide)) = .ok sampleChild := by
  rfl

theorem unknown_sampleChild : sampleChild.Unknown sampleBacked := by
  intro h hc
  obtain ⟨-, -, -, s, hs, he⟩ := tryAddingSecondedCandidate_eq_ok sampleChild_eq
  rw [he, CandidateStorage.contains, contains_eq_isSome_getElem?,
    (CandidateStorage.addCandidateEntry_eq_ok hs).2.1, Std.ExtTreeMap.lookup_insert] at hc
  split_ifs at hc with hk
  · subst hk
    exact ⟨by decide, by decide⟩
  · cases hc

def sampleTakeover : FragmentChain Nat :=
  sampleChild.populateFromPrevious sampleSchedulingScope sampleBacked

theorem reachable_sampleTakeover {takesOver : FragmentChain Nat → FragmentChain Nat → Prop}
    (h : takesOver sampleChild sampleBacked) : Reachable takesOver sampleTakeover :=
  .populateFromPrevious _ _ sampleSchedulingScope
    (.tryAddingSecondedCandidate _ _ _ _ (.init _ _ _ .empty) sampleChild_eq)
      (reachable_sampleBacked _) h

-- The previous candidate is in the chain, and its child is still unconnected.
theorem representation_of_sampleTakeover : sampleTakeover.candidateHashes = [1] ∧
    sampleTakeover.unconnected.contains 2 ∧ sampleTakeover.Representation ∧
    ∀ c, ¬(sampleTakeover.chain.contains c ∧ sampleTakeover.unconnected.contains c) := by
  refine ⟨?_, ?_, ?_⟩
  · rw [sampleTakeover, candidateHashes, populateFromPrevious_eq, repopulate,
      chain_populateUnconnected]
    rfl
  · obtain ⟨_, hr⟩ := repopulate_repopulated sampleSchedulingScope (f := sampleChild) rfl
      (indexed_previousStorage (reachable_sampleBacked Unknown).chained.indexed) none
    rw [sampleTakeover, populateFromPrevious_eq, CandidateStorage.contains,
      contains_eq_isSome_getElem?, hr.lookup]
    rfl
  · obtain ⟨hr, hd⟩ := representation_of_reachable (reachable_sampleTakeover trivial)
    exact ⟨hr, hd (reachable_sampleTakeover unknown_sampleChild)⟩

-- An unconnected candidate that the previous chain has backed gets into the chain, and also stays
-- unconnected.
theorem populateFromPrevious_not_disjoint : Function.Injective (Hashing.headData : HeadData → Nat) ∧
    ∃ f : FragmentChain Nat, Reachable (fun _ _ => True) f ∧ f.chain.contains 1 ∧
      f.unconnected.contains 1 := by
  refine ⟨headData_injective, _,
    .populateFromPrevious _ _ sampleSchedulingScope (reachable_sampleSeconded _)
    (reachable_sampleBacked _) trivial, ?_, ?_⟩
  · rw [populateFromPrevious_eq, repopulate, chain_populateUnconnected]
    rfl
  · obtain ⟨_, hr⟩ := repopulate_repopulated sampleSchedulingScope (f := sampleSeconded) rfl
      (indexed_previousStorage (reachable_sampleBacked Unknown).chained.indexed) none
    rw [populateFromPrevious_eq, CandidateStorage.contains, contains_eq_isSome_getElem?, hr.lookup]
    rfl

end Samples
end FragmentChain
end Prospective
