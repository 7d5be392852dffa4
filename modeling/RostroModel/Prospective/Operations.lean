import RostroModel.Prospective.Growth

namespace Prospective

variable {Hash : Type} [LinearOrder Hash] [Hashing Hash]
variable {sched : SchedulingScope Hash} {scope : Scope Hash} {f f' : FragmentChain Hash}
variable {ns ms ms' : List (FragmentNode Hash)} {storage : CandidateStorage Hash}
  {e : CandidateEntry Hash}
variable {allowed : SchedulingScope Hash → CandidateEntry Hash → Prop} {k parent : Hash}

namespace CandidateStorage

theorem lookup_foldl_insertNew {l : List (CandidateEntry Hash)} :
    (l.foldl insertNew storage).byCandidateHash[k]? =
      (storage.byCandidateHash[k]?).or (l.find? (·.candidateHash = k)) := by
  induction l generalizing storage
  case nil => simp
  case cons e l hi =>
    rw [List.foldl_cons, hi, lookup_insertNew]
    by_cases hk : k = e.candidateHash
    · simp [hk]
    · simp [hk, Ne.symm hk]

theorem Indexed.foldl_insertNew {l : List (CandidateEntry Hash)} (h : storage.Indexed) :
    (l.foldl CandidateStorage.insertNew storage).Indexed := by
  induction l generalizing storage
  case nil => exact h
  case cons _ hi => exact hi h.insertNew

theorem find?_toList (h : storage.Indexed) {p : CandidateEntry Hash → Bool} :
    (storage.byCandidateHash.toList.map (·.2)).find? (fun e => e.candidateHash = k && p e) =
      (storage.byCandidateHash[k]?).filter p := by
  have hmem (e : CandidateEntry Hash) : e ∈ storage.byCandidateHash.toList.map (·.2) ↔
      storage.byCandidateHash[e.candidateHash]? = some e := by
    rw [List.mem_map]
    constructor
    · rintro ⟨⟨k, e⟩, hm, rfl⟩
      have he := Std.ExtTreeMap.mem_toList_iff_getElem?_eq_some.mp hm
      rwa [h.byCandidateHash k e he]
    · exact fun he => ⟨_, Std.ExtTreeMap.mem_toList_iff_getElem?_eq_some.mpr he, rfl⟩
  apply Option.ext
  intro e
  rw [Option.filter_eq_some_iff]
  constructor
  · intro hf
    have hp := List.find?_some hf
    rw [Bool.and_eq_true, decide_eq_true_eq] at hp
    exact ⟨hp.1 ▸ (hmem e).mp (List.mem_of_find?_eq_some hf), hp.2⟩
  · rintro ⟨he, hp⟩
    have hk := h.byCandidateHash k e he
    cases hf : (storage.byCandidateHash.toList.map (·.2)).find? (fun e =>
      e.candidateHash = k && p e)
    case none =>
      have hn := List.find?_eq_none.mp hf e ((hmem e).mpr (hk ▸ he))
      simp [hk, hp] at hn
    case some e' =>
      have hp' := List.find?_some hf
      rw [Bool.and_eq_true, decide_eq_true_eq] at hp'
      have he' := (hmem e').mp (List.mem_of_find?_eq_some hf)
      rw [hp'.1] at he'
      exact he'.symm.trans he

end CandidateStorage

section Revert

theorem tip_take (scope : Scope Hash) (hi : i ≤ ns.length) :
    (Hashing.headData scope.baseConstraints.requiredParent ::
    ns.map (·.outputHeadDataHash))[i]? = some (tip scope (ns.take i)) := by
  cases i
  case zero => rfl
  case succ i =>
    have hi : i < ns.length := hi
    simp [tip, List.getLast?_take, hi]

theorem Grown.eq_of_tip (h : Grown scope allowed ns) (hp : ms <+: ns) (hp' : ms' <+: ns)
    (ht : tip scope ms = tip scope ms') : ms = ms' := by
  have hl := tip_take scope hp.length_le
  have hl' := tip_take scope hp'.length_le
  rw [← List.prefix_iff_eq_take.mp hp] at hl
  rw [← List.prefix_iff_eq_take.mp hp', ← ht] at hl'
  have hlen := (List.getElem?_inj (by simpa using hp.length_le) h.nodup_heads).mp
    (hl.trans hl'.symm)
  rw [List.prefix_iff_eq_take.mp hp, List.prefix_iff_eq_take.mp hp', hlen]

theorem BackedChain.ofList_remove (h : Grown scope allowed (ms ++ removed)) :
    { chain := ms, byParentHead := removed.foldl (fun m node => m.erase node.parentHeadDataHash)
        (ofList (ms ++ removed)).byParentHead,
      byOutputHead := removed.foldl (fun m node => m.erase node.outputHeadDataHash)
        (ofList (ms ++ removed)).byOutputHead,
      candidates := removed.foldl (fun m node => m.erase node.candidateHash)
        (ofList (ms ++ removed)).candidates } = ofList ms := by
  have hdisjoint {g : FragmentNode Hash → Hash} (hn : ((ms ++ removed).map g).Nodup) :
      ∀ n ∈ removed, g n ∉ ms.map g := by
    rw [List.map_append, List.nodup_append] at hn
    exact fun n hm hc => hn.2.2 _ hc _ (List.mem_map_of_mem hm) rfl
  rw [ofList]
  congr 1
  · exact Std.ExtTreeMap.foldl_erase_foldl_insert fun n hm =>
      ⟨by simp, hdisjoint h.nodup_parents n hm⟩
  · exact Std.ExtTreeMap.foldl_erase_foldl_insert fun n hm =>
      ⟨by simp, hdisjoint h.nodup_outputs n hm⟩
  · apply Std.ExtTreeSet.ext_mem
    intro c
    rw [Std.ExtTreeSet.mem_foldl_erase, Std.ExtTreeSet.mem_foldl_insert_map,
      Std.ExtTreeSet.mem_foldl_insert_map, List.map_append, List.mem_append]
    constructor
    · rintro ⟨hm | hm | hm, hn⟩
      · exact .inl hm
      · exact .inr hm
      · exact absurd hm hn
    · rintro (hm | hm)
      · simp at hm
      · refine ⟨.inr (.inl hm), fun hc => ?_⟩
        obtain ⟨n, hn, rfl⟩ := List.mem_map.mp hc
        exact hdisjoint h.nodup_candidates n hn hm

theorem BackedChain.revertToParentHash_ofList (h : Grown scope allowed ns) (hp : ms ++ [n] <+: ns) :
    (ofList ns).revertToParentHash n.outputHeadDataHash =
      (ofList (ms ++ [n]), ns.drop (ms ++ [n]).length) := by
  obtain ⟨removed, rfl⟩ := hp
  have hfirst : ∀ m ∈ ms, (m.outputHeadDataHash = n.outputHeadDataHash : Bool) = false := by
    intro m hm
    have hn := (h.of_prefix (List.prefix_append _ _)).nodup_outputs
    rw [List.map_append, List.nodup_append] at hn
    exact decide_eq_false (hn.2.2 _ (List.mem_map_of_mem hm) _ (by simp))
  have hf : (ofList (ms ++ [n] ++ removed)).chain.findIdx?
      (·.outputHeadDataHash = n.outputHeadDataHash) = some ms.length := by
    change (ms ++ [n] ++ removed).findIdx? _ = _
    rw [List.append_assoc, List.findIdx?_append, List.findIdx?_eq_none_iff.mpr hfirst]
    simp [List.findIdx?_cons]
  have hd : (ms ++ [n] ++ removed).drop (ms.length + 1) = removed :=
    List.drop_left' (by rw [List.length_append, List.length_singleton])
  have ht : (ms ++ [n] ++ removed).take (ms.length + 1) = ms ++ [n] :=
    List.take_left' (by rw [List.length_append, List.length_singleton])
  rw [revertToParentHash, hf]
  simp only [chain_ofList, hd, ht, ofList_remove h, List.drop_left]

namespace FragmentChain

theorem revertTo_eq_some (hc : f.chain = .ofList ns) (hg : Grown f.scope allowed ns)
    (hp : ms <+: ns) :
    f.revertTo (tip f.scope ms) = some { f with
      chain := .ofList ms,
      unconnected := ((ns.drop ms.length).map (·.toEntry)).foldl CandidateStorage.insertNew
        f.unconnected } := by
  rw [revertTo, List.foldl_map]
  obtain rfl | ⟨ms, n, rfl⟩ := List.eq_nil_or_concat' ms
  · rw [tip_nil, if_pos rfl, hc]
    rfl
  · have hm : n.outputHeadDataHash ∈ f.chain.byOutputHead := by
      rw [hc, BackedChain.mem_byOutputHead_ofList]
      exact List.mem_map_of_mem (hp.subset (by simp))
    have hne : Hashing.headData f.scope.baseConstraints.requiredParent ≠ n.outputHeadDataHash := by
      intro he
      refine (List.nodup_cons.mp hg.nodup_heads).1 (he ▸ List.mem_map_of_mem (hp.subset (by simp)))
    rw [tip_append, if_neg hne, if_pos hm, hc, BackedChain.revertToParentHash_ofList hg hp]
    rfl

theorem revertTo_eq_none (hc : f.chain = .ofList ns)
    (hn : ∀ ms, ms <+: ns → tip f.scope ms ≠ parent) :
    f.revertTo parent = none := by
  have h0 : Hashing.headData f.scope.baseConstraints.requiredParent ≠ parent :=
    hn [] List.nil_prefix
  have h1 : parent ∉ f.chain.byOutputHead := by
    rw [hc, BackedChain.mem_byOutputHead_ofList]
    intro hm
    obtain ⟨n, hn', rfl⟩ := List.mem_map.mp hm
    obtain ⟨l, l', rfl⟩ := List.append_of_mem hn'
    exact hn (l ++ [n]) ⟨l', by simp⟩ tip_append
  rw [revertTo, if_neg h0, if_neg h1]
  rfl

end FragmentChain
end Revert

namespace FragmentChain

section Trim

variable {visited : Std.ExtTreeSet Hash} {queue : List (Hash × Bool)}
  {children : List (Hash × Hash × Bool)}

theorem indexed_removeUnkept (h : storage.Indexed) : (removeUnkept storage children).Indexed := by
  induction children generalizing storage
  case nil => exact h
  case cons child children hi =>
    rw [removeUnkept, List.foldl_cons]
    apply hi
    split_ifs
    · exact h
    · exact h.removeCandidate

theorem trimLoop_mono (h : storage.Indexed) :
    (trimLoop f sched storage visited queue).Indexed ∧ ∀ (k : Hash) e,
      (trimLoop f sched storage visited queue).byCandidateHash[k]? = some e →
      storage.byCandidateHash[k]? = some e := by
  induction storage, visited, queue using trimLoop.induct f sched
  case case1 =>
    rw [trimLoop]
    exact ⟨h, fun _ _ => id⟩
  case case2 storage visited parent potential queue visited' children hi =>
    rw [trimLoop]
    obtain ⟨hx, hm⟩ := hi (indexed_removeUnkept h)
    exact ⟨hx, fun k e he => (removeUnkept_mono (hm k e he)).1⟩

-- The search does not read the unconnected candidates.
theorem trimLoop_unconnected (unconnected : CandidateStorage Hash) :
    trimLoop { f with unconnected } sched storage visited queue =
      trimLoop f sched storage visited queue := by
  induction storage, visited, queue using trimLoop.induct f sched
  case case1 => rw [trimLoop, trimLoop]
  case case2 hi => rw [trimLoop, trimLoop]; exact hi

theorem trimUneligibleForks_unconnected (unconnected : CandidateStorage Hash) :
    trimUneligibleForks { f with unconnected } sched storage startingPoint =
      trimUneligibleForks f sched storage startingPoint :=
  trimLoop_unconnected unconnected

-- A candidate is only removed when it has no potential itself, or descends from one that has none.
theorem trimLoop_keeps (good : Hash → Prop) (h : storage.Indexed)
    (hgood : ∀ (k : Hash) e, storage.byCandidateHash[k]? = some e → good e.outputHeadDataHash →
      good e.parentHeadDataHash ∧ ∃ u, f.checkPotential sched e = .ok u)
    (hq : ∀ head, (head, false) ∈ queue → ¬good head)
    (he : storage.byCandidateHash[k]? = some e) (hge : good e.outputHeadDataHash) :
    (trimLoop f sched storage visited queue).byCandidateHash[k]? = some e := by
  induction storage, visited, queue using trimLoop.induct f sched
  case case1 =>
    rw [trimLoop]
    exact he
  case case2 storage visited parent potential queue visited' children hi =>
    -- The children that are not kept are not good.
    have hkeep (c output : Hash) (hm : (c, output, false) ∈ children) :
        ∃ e, storage.byCandidateHash[c]? = some e ∧ output = e.outputHeadDataHash ∧
          ¬good output := by
      obtain ⟨hv, e, he, rfl, -, hk⟩ := mem_visitChildren.mp hm
      refine ⟨e, he, rfl, fun hg => ?_⟩
      obtain ⟨e', he', rfl⟩ := h.byParentHead.mem_values.mp hv
      cases he.symm.trans he'
      obtain ⟨hgp, u, hu⟩ := hgood c e he hg
      cases potential
      case false => exact hq _ List.mem_cons_self hgp
      case true => simp [hu, Except.toOption] at hk
    have hsame {c : Hash} {e : CandidateEntry Hash} (he : storage.byCandidateHash[c]? = some e)
        (hg : good e.outputHeadDataHash) :
        (removeUnkept storage children).byCandidateHash[c]? = some e := by
      rw [lookup_removeUnkept, he]
      intro output hm
      obtain ⟨e', he', rfl, hn⟩ := hkeep c output hm
      cases he.symm.trans he'
      exact hn hg
    rw [trimLoop]
    apply hi (indexed_removeUnkept h)
    · exact fun c e hc => hgood c e (removeUnkept_mono hc).1
    · intro head hm
      obtain hm | hm := List.mem_append.mp hm
      · exact hq head (List.mem_cons_of_mem _ hm)
      · obtain ⟨⟨c, _, _⟩, hm, hh⟩ := List.mem_map.mp hm
        cases hh
        exact (hkeep c head hm).choose_spec.2.2
    · exact hsame he hge

end Trim

section Potential

def staysPotential (f : FragmentChain Hash) (schedulingScope : SchedulingScope Hash)
    (e : CandidateEntry Hash) : Bool :=
  (f.scope.getPendingAvailability e.candidateHash).isNone && !f.chain.contains e.candidateHash &&
    (f.checkPotential schedulingScope e).toOption.isSome

theorem addPotential_eq : addPotential sched f e =
    if f.staysPotential sched e then { f with unconnected := f.unconnected.insertNew e }
    else f := by
  rw [addPotential, staysPotential, canAddCandidateAsPotential]
  cases f.scope.getPendingAvailability e.candidateHash
  case some => simp
  case none =>
    cases f.chain.contains e.candidateHash
    case true => simp [Except.ensure]
    case false =>
      cases hu : f.unconnected.contains e.candidateHash
      case false => cases f.checkPotential sched e <;> simp [Except.ensure, Except.toOption]
      case true =>
        -- A candidate that is already there is not added again.
        have hn : f.unconnected.insertNew e = f.unconnected := by
          have hm : e.candidateHash ∈ f.unconnected.byCandidateHash := hu
          simp [CandidateStorage.insertNew, CandidateStorage.addCandidateEntry, hm]
          rfl
        simp [Except.ensure, hn]

theorem foldl_addPotential {l : List (CandidateEntry Hash)} :
    l.foldl (addPotential sched) f = { f with
      unconnected := (l.filter (f.staysPotential sched)).foldl CandidateStorage.insertNew
        f.unconnected } := by
  induction l generalizing f
  case nil => rfl
  case cons e l hi =>
    rw [List.foldl_cons, hi, addPotential_eq, List.filter_cons]
    split_ifs <;> rfl

theorem lookup_populateUnconnected (h : storage.Indexed) :
    (f.populateUnconnectedPotentialCandidates sched storage).unconnected.byCandidateHash[k]? =
      (f.unconnected.byCandidateHash[k]?).or
        ((storage.byCandidateHash[k]?).filter (f.staysPotential sched)) := by
  rw [populateUnconnectedPotentialCandidates, foldl_addPotential,
    CandidateStorage.lookup_foldl_insertNew, List.find?_filter, ← CandidateStorage.find?_toList h]
  simp [and_comm]

theorem indexed_populateUnconnected (h : f.unconnected.Indexed) :
    (f.populateUnconnectedPotentialCandidates sched storage).unconnected.Indexed := by
  rw [populateUnconnectedPotentialCandidates, foldl_addPotential]
  exact h.foldl_insertNew

theorem scope_populateUnconnected :
    (f.populateUnconnectedPotentialCandidates sched storage).scope = f.scope := by
  rw [populateUnconnectedPotentialCandidates, foldl_addPotential]

theorem chain_populateUnconnected :
    (f.populateUnconnectedPotentialCandidates sched storage).chain = f.chain := by
  rw [populateUnconnectedPotentialCandidates, foldl_addPotential]

end Potential

section Repopulate

theorem populateChain_eq (sched : SchedulingScope Hash) (hc : f.chain = .ofList ns)
    (hs : storage.Indexed) : ∃ ns' storage',
    f.populateChain sched storage = ({ f with chain := .ofList ns' }, storage') ∧
      Populates sched f.scope ns storage ns' storage' := by
  obtain ⟨ns', storage', hl, hp⟩ := populateLoop_populates sched f.scope ns _ hs rfl
  refine ⟨ns', storage', ?_, hp⟩
  have he : f.earliestRelayParentNumber = earliestRp f.scope ns := by
    rw [earliestRelayParentNumber, hc]
    rfl
  rw [lastModifications] at hl
  rw [populateChain, he, hc]
  simp only [BackedChain.chain_ofList, hl]

-- What the operations that build the chain anew do: they populate it from a storage, and keep the
-- candidates of the storage that still have potential.
def repopulate (f : FragmentChain Hash) (schedulingScope : SchedulingScope Hash)
    (storage : CandidateStorage Hash) (startingPoint : Option Hash) : FragmentChain Hash :=
  let r := f.populateChain schedulingScope storage
  r.1.populateUnconnectedPotentialCandidates schedulingScope
    (r.1.trimUneligibleForks schedulingScope r.2 startingPoint)

structure Repopulated (schedulingScope : SchedulingScope Hash) (f : FragmentChain Hash)
    (storage : CandidateStorage Hash) (startingPoint : Option Hash) (f' : FragmentChain Hash)
    (storage' : CandidateStorage Hash) : Prop where
  scope : f'.scope = f.scope
  chain : f'.chain = .ofList f'.chain.chain
  populates : Populates schedulingScope f.scope f.chain.chain storage f'.chain.chain storage'
  indexed : f.unconnected.Indexed → f'.unconnected.Indexed
  trimmed : (f'.trimUneligibleForks schedulingScope storage' startingPoint).Indexed ∧
    ∀ (k : Hash) e,
      (f'.trimUneligibleForks schedulingScope storage' startingPoint).byCandidateHash[k]? = some e →
    storage'.byCandidateHash[k]? = some e
  lookup : ∀ k : Hash, f'.unconnected.byCandidateHash[k]? = (f.unconnected.byCandidateHash[k]?).or
    (((f'.trimUneligibleForks schedulingScope storage' startingPoint).byCandidateHash[k]?).filter
      (f'.staysPotential schedulingScope))

theorem repopulate_repopulated (sched : SchedulingScope Hash) (hc : f.chain = .ofList f.chain.chain)
    (hs : storage.Indexed) (startingPoint : Option Hash) :
    ∃ storage', Repopulated sched f storage startingPoint
      (f.repopulate sched storage startingPoint) storage' := by
  obtain ⟨ns', storage', hp, hpop⟩ := populateChain_eq sched hc hs
  have hx : (trimUneligibleForks { f with chain := .ofList ns' } sched storage'
    startingPoint).Indexed ∧
      ∀ (k : Hash) e, (trimUneligibleForks { f with chain := .ofList ns' } sched storage'
        startingPoint).byCandidateHash[k]? = some e → storage'.byCandidateHash[k]? = some e :=
    trimLoop_mono (hpop.lookup hs).1
  have hr : f.repopulate sched storage startingPoint = populateUnconnectedPotentialCandidates
      { f with chain := .ofList ns' } sched
      (trimUneligibleForks { f with chain := .ofList ns' } sched storage' startingPoint) := by
    rw [repopulate, hp]
  refine ⟨storage', ?_⟩
  rw [hr]
  constructor
  · rw [scope_populateUnconnected]
  · rw [chain_populateUnconnected]
    rfl
  · rw [chain_populateUnconnected]
    exact hpop
  · exact fun h => indexed_populateUnconnected h
  · rw [populateUnconnectedPotentialCandidates, foldl_addPotential, trimUneligibleForks_unconnected]
    exact hx
  · intro k
    rw [lookup_populateUnconnected hx.1, populateUnconnectedPotentialCandidates, foldl_addPotential,
      trimUneligibleForks_unconnected]
    rfl

end Repopulate

section Operations

theorem populateFromPrevious_eq : f.populateFromPrevious sched prev =
    f.repopulate sched prev.previousStorage none :=
  rfl

theorem lookup_previousStorage {prev : FragmentChain Hash} :
    prev.previousStorage.byCandidateHash[k]? = (prev.unconnected.byCandidateHash[k]?).or
      (((prev.chain.chain.filter fun n =>
        (prev.scope.getPendingAvailability n.candidateHash).isNone).map
        (·.toEntry)).find? (·.candidateHash = k)) := by
  rw [← CandidateStorage.lookup_foldl_insertNew, List.foldl_map, List.foldl_filter]
  rfl

theorem indexed_previousStorage {prev : FragmentChain Hash} (h : prev.unconnected.Indexed) :
    prev.previousStorage.Indexed := by
  have he : prev.previousStorage =
      ((prev.chain.chain.filter fun n =>
        (prev.scope.getPendingAvailability n.candidateHash).isNone).map
        (·.toEntry)).foldl CandidateStorage.insertNew prev.unconnected := by
    rw [List.foldl_map, List.foldl_filter]
    rfl
  rw [he]
  exact h.foldl_insertNew

-- The storage that the chain is built from anew, after it is cut off at a prefix.
def revertedStorage (f : FragmentChain Hash) (ms : List (FragmentNode Hash)) :
    CandidateStorage Hash :=
  ((f.chain.chain.drop ms.length).map (·.toEntry)).foldl CandidateStorage.insertNew f.unconnected

theorem candidateBacked_of_known
    (h : f.chain.contains k ∨ f.unconnected.byCandidateHash[k]? = none) :
    f.candidateBacked sched k = f := by
  rw [candidateBacked]
  split_ifs with hc
  · rfl
  · rw [h.resolve_left hc]

variable (hc : f.chain = .ofList f.chain.chain) (hn : ¬f.chain.contains k)
include hc hn

theorem candidateBacked_of_unconnected (he : f.unconnected.byCandidateHash[k]? = some e)
    (ht : ∀ ms, ms <+: f.chain.chain → tip f.scope ms ≠ e.parentHeadDataHash) :
    f.candidateBacked sched k = { f with unconnected := f.unconnected.markBacked k } := by
  have hr : revertTo { f with unconnected := f.unconnected.markBacked k }
    e.parentHeadDataHash = none :=
    revertTo_eq_none hc ht
  rw [candidateBacked, if_neg hn, he]
  simp only [hr]

theorem candidateBacked_reverts
    (hg : Grown f.scope allowed f.chain.chain) (he : f.unconnected.byCandidateHash[k]? = some e)
    (hp : ms <+: f.chain.chain) (ht : tip f.scope ms = e.parentHeadDataHash) :
    f.candidateBacked sched k = repopulate { f with chain := .ofList ms, unconnected := {} } sched
        (revertedStorage { f with unconnected := f.unconnected.markBacked k } ms)
          (some e.parentHeadDataHash) := by
  have hr := revertTo_eq_some (f := { f with unconnected := f.unconnected.markBacked k }) hc hg hp
  rw [candidateBacked, if_neg hn, he]
  rw [ht] at hr
  simp only [hr]
  rfl

end Operations
end FragmentChain
end Prospective
