import RostroModel.Prospective.Greedy

namespace Prospective

open FragmentChain (candidateHashes revertedStorage)
open CandidateStorage (indexed_empty lookup_foldl_insertNew lookup_markBacked)
open List (drop_left map_append mem_append mem_map mem_map_of_mem nodup_append
  prefix_append prefix_rfl)

variable {Hash : Type} [LinearOrder Hash] [Hashing Hash]
variable {sched : SchedulingScope Hash} {scope : Scope Hash} {f f' : FragmentChain Hash}
variable {candidates : List (CandidateEntry Hash)} {e s : CandidateEntry Hash}
variable {ns ms : List (FragmentNode Hash)} {n : FragmentNode Hash}
  {added backed : Hash → Prop} {k : Hash}

section Runs

-- What holds while candidates are added and backed: greedy chains of backed candidates are in the
-- chain, and no candidate of a greedy chain is lost.
structure Follows (schedulingScope : SchedulingScope Hash) (scope : Scope Hash)
    (candidates : List (CandidateEntry Hash)) (added backed : Hash → Prop)
    (f : FragmentChain Hash) : Prop where
  sameScope : f.scope = scope
  chain : f.chain = .ofList f.chain.chain
  grown : Grown scope (AllowedAmong schedulingScope candidates backed) f.chain.chain
  indexed : f.unconnected.Indexed
  disjoint : f.Disjoint
  order : ∀ k, backed k → added k
  stored : ∀ (k : Hash) e, f.unconnected.byCandidateHash[k]? = some e →
    (∃ s, Among candidates s e) ∧ added k ∧ (e.state = .backed ↔ backed k)
  greedy : ∀ ns, Greedy schedulingScope scope candidates ns → (∀ n ∈ ns, backed n.candidateHash) →
    ns <+: f.chain.chain
  known : ∀ ns n, Greedy schedulingScope scope candidates (ns ++ [n]) → added n.candidateHash →
    n.candidateHash ∈ f.candidateHashes ∨ f.unconnected.byCandidateHash[n.candidateHash]? ≠ none
  fits : ∀ ns n s, Greedy schedulingScope scope candidates (ns ++ [n]) → s ∈ candidates →
    s.candidateHash = n.candidateHash → added n.candidateHash →
    (∀ m ∈ ns, backed m.candidateHash) ∨ Fits s true scope.baseConstraints

theorem Step.toEntry_eq (hp : scope.pendingAvailability = []) (h : Step sched scope ns s n) :
    n.toEntry = s.asBacked := by
  have hm := h.made
  have hr : n.fragment.relayParent.hash = s.relayParent := by
    rw [hm.relayParent, relayParentOf, Scope.getPendingAvailability, hp]
    rfl
  simp only [FragmentNode.toEntry, CandidateEntry.asBacked, CandidateEntry.mk.injEq]
  exact ⟨hm.candidateHash, hm.parent, hm.output, hr, hm.schedulingParent, hm.paraId,
    hm.candidate, trivial⟩

namespace Follows

theorem init : Follows sched scope candidates (fun _ => False)
    (fun _ => False) (FragmentChain.init sched scope {}) := by
  have hc : ({ scope } : FragmentChain Hash).chain = .ofList [] := rfl
  obtain ⟨ns, storage', hp, hpop⟩ := FragmentChain.populateChain_eq sched hc indexed_empty
  obtain rfl : ns = [] := by
    refine List.eq_nil_iff_forall_not_mem.mpr fun n hn => ?_
    obtain ⟨e, he, -⟩ := hpop.stored.2 n hn
    simp at he
  rw [FragmentChain.init, hp]
  constructor
  case greedy =>
    intro ns _ hb
    obtain rfl : ns = [] := List.eq_nil_iff_forall_not_mem.mpr hb
    exact List.nil_prefix
  case grown => exact .nil
  case indexed => exact indexed_empty
  case disjoint => simp [FragmentChain.Disjoint]
  all_goals simp

theorem mem_reverted (hms : ms <+: f.chain.chain)
    (hj : j ∈ f.candidateHashes ∨ f.unconnected.byCandidateHash[j]? ≠ none)
    (hn : j ∉ ms.map (·.candidateHash)) :
    (revertedStorage { f with unconnected := f.unconnected.markBacked k } ms).byCandidateHash[j]? ≠
      none := by
  rw [revertedStorage, lookup_foldl_insertNew, lookup_markBacked, Ne,
    Option.or_eq_none_iff, not_and_or]
  obtain hj | hj := hj
  · right
    obtain ⟨n, hm, rfl⟩ := mem_map.mp hj
    obtain ⟨l, hl⟩ := hms
    rw [← hl] at hm ⊢
    have hml : n ∈ l := (mem_append.mp hm).resolve_left fun hc => hn (mem_map_of_mem hc)
    rw [drop_left, List.find?_eq_none]
    intro hnone
    exact hnone n.toEntry (mem_map_of_mem hml) (by simp [FragmentNode.toEntry])
  · left
    simpa using hj

theorem greedy_cases (hg : Greedy sched scope candidates ns)
    (hb : ∀ n ∈ ns, backed n.candidateHash ∨ n.candidateHash = k) :
    (∀ n ∈ ns, backed n.candidateHash) ∨
      ∃ ms n, ms ++ [n] <+: ns ∧ n.candidateHash = k ∧ ∀ m ∈ ms, backed m.candidateHash := by
  by_cases hk : ∃ n ∈ ns, n.candidateHash = k
  · obtain ⟨n, hn, rfl⟩ := hk
    obtain ⟨l, l', rfl⟩ := List.append_of_mem hn
    refine .inr ⟨l, n, ⟨l', by simp⟩, rfl, fun m hm =>
      (hb m (by simp [hm])).resolve_right fun he => ?_⟩
    have hnd := hg.grown.nodup_candidates
    rw [map_append, nodup_append] at hnd
    exact hnd.2.2 _ (mem_map_of_mem hm) _ (by simp) he
  · exact .inl fun n hn => (hb n hn).resolve_right fun he => hk ⟨n, hn, he⟩

section Updates

variable (hf : Forest scope candidates) (h : Follows sched scope candidates added backed f)

include h

theorem chained : f.Chained :=
  ⟨h.chain, h.sameScope ▸ h.grown.mono fun _ _ _ => trivial, h.indexed⟩

theorem stored_markBacked (he : (f.unconnected.markBacked k).byCandidateHash[j]? = some e) :
    (∃ s, Among candidates s e) ∧ added j ∧ (e.state = .backed ↔ backed j ∨ j = k) := by
  rw [lookup_markBacked] at he
  obtain ⟨e', he', rfl⟩ := Option.map_eq_some_iff.mp he
  obtain ⟨⟨s, hs, has⟩, ha, hb⟩ := h.stored j e' he'
  split_ifs with hj
  · exact ⟨⟨s, hs, has⟩, ha, by simp [hj]⟩
  · exact ⟨⟨s, hs, has⟩, ha, by simp [hj, hb]⟩

theorem not_mem_reverted (hms : ms <+: f.chain.chain) (hn : n ∈ ms) :
    (revertedStorage { f with unconnected := f.unconnected.markBacked k } ms).byCandidateHash[
      n.candidateHash]? = none := by
  rw [revertedStorage, lookup_foldl_insertNew,
    lookup_markBacked, h.disjoint n (hms.subset hn), Option.map_none, Option.none_or,
    List.find?_eq_none]
  intro e he hk
  obtain ⟨m, hm, rfl⟩ := mem_map.mp he
  have hnd := h.grown.nodup_candidates
  obtain ⟨l, hl⟩ := hms
  rw [← hl] at hm hnd
  rw [drop_left] at hm
  rw [map_append, nodup_append] at hnd
  exact hnd.2.2 _ (mem_map_of_mem hn) _ (mem_map_of_mem hm) (of_decide_eq_true hk).symm

include hf

theorem of_mem_chain
    (hn : n ∈ f.chain.chain) : backed n.candidateHash ∧ ∃ s ∈ candidates,
      n.toEntry = s.asBacked := by
  obtain ⟨_, _, e, -, -, ⟨rfl, hb, s, hs, he⟩, hstep⟩ := h.grown.of_mem hn
  exact ⟨hstep.made.candidateHash ▸ hb, s, hs, (hstep.of_asBacked he).toEntry_eq hf.pending⟩

theorem second (hs : s ∈ candidates) (hn : ¬added s.candidateHash)
    (htry : f.tryAddingSecondedCandidate sched s = .ok f') :
    Follows sched scope candidates (fun k => added k ∨ k = s.candidateHash) backed f' := by
  obtain rfl := h.sameScope
  have hd := h.disjoint.tryAddingSecondedCandidate h.chained htry
  obtain ⟨hstate, -, hp, storage, hadd, rfl⟩ := FragmentChain.tryAddingSecondedCandidate_eq_ok htry
  obtain ⟨-, hins, hidx⟩ := CandidateStorage.addCandidateEntry_eq_ok hadd
  have hlookup (k : Hash) : storage.byCandidateHash[k]? =
      if k = s.candidateHash then some s else f.unconnected.byCandidateHash[k]? := by
    rw [hins, Std.ExtTreeMap.lookup_insert]
  constructor
  case sameScope => rfl
  case chain => exact h.chain
  case grown => exact h.grown
  case indexed => exact hidx h.indexed
  case disjoint => exact hd
  case order => exact fun k hk => .inl (h.order k hk)
  case greedy => exact h.greedy
  case stored =>
    intro k e he
    rw [hlookup] at he
    split_ifs at he with hk
    · cases he
      refine ⟨⟨s, hs, rfl⟩, .inr hk, fun hb => absurd hb hstate, fun hb => ?_⟩
      exact absurd (h.order _ hb) (hk ▸ hn)
    · obtain ⟨ha, hadded, hb⟩ := h.stored k e he
      exact ⟨ha, .inl hadded, hb⟩
  case known =>
    intro ns n hg ha
    by_cases hk : n.candidateHash = s.candidateHash
    · right
      rw [hlookup, if_pos hk]
      exact Option.some_ne_none _
    · rw [hlookup, if_neg hk]
      exact h.known ns n hg (ha.resolve_right hk)
  case fits =>
    intro ns n s' hg hs' hs'n ha
    by_cases hk : n.candidateHash = s.candidateHash
    · obtain rfl := hf.eq_of_hash hs hs' (hk.symm.trans hs'n.symm)
      obtain hpre | hfits := hg.of_checkPotential hf h.chain h.grown hs hs'n hp
      · exact .inl fun m hm => (h.of_mem_chain hf (hpre.subset hm)).1
      · exact .inr hfits
    · exact h.fits ns n s' hg hs' hs'n (ha.resolve_right hk)

theorem lookup_reverted
    (he : (revertedStorage { f with unconnected := f.unconnected.markBacked k }
      ms).byCandidateHash[j]? = some e) :
    (∃ s, Among candidates s e) ∧ added j ∧ (e.state = .backed ↔ backed j ∨ j = k) := by
  rw [revertedStorage, lookup_foldl_insertNew, Option.or_eq_some_iff] at he
  obtain he | ⟨-, he⟩ := he
  · exact h.stored_markBacked he
  · obtain ⟨n, hn, rfl⟩ := mem_map.mp (List.mem_of_find?_eq_some he)
    have hj := List.find?_some he
    have hj : n.candidateHash = j := of_decide_eq_true hj
    obtain ⟨hb, s, hs, hns⟩ := h.of_mem_chain hf (List.mem_of_mem_drop hn)
    rw [hj] at hb
    exact ⟨⟨s, hs, by rw [hns]; rfl⟩, h.order j hb, fun _ => .inl hb, fun _ => rfl⟩

theorem parent_eq (hg : Greedy sched scope candidates (ns ++ [n])) (hn : n.candidateHash = k)
    (he : f.unconnected.byCandidateHash[k]? = some e) : tip scope ns = e.parentHeadDataHash := by
  obtain ⟨s, hs, hgns, hstep, -⟩ := hg.of_snoc
  obtain ⟨⟨s', hs', has⟩, -⟩ := h.stored _ _ he
  have hk : e.candidateHash = s'.candidateHash := congrArg (·.candidateHash) has
  obtain rfl : s = s' := by
    refine hf.eq_of_hash hs hs' ?_
    rw [← hk, h.indexed.byCandidateHash _ _ he, ← hn, hstep.made.candidateHash]
  rw [← hgns.grown.step_parent hstep, hstep.made.parent]
  exact (congrArg (·.parentHeadDataHash) has).symm

theorem back_known (hk : added k)
    (hknown : f.chain.contains k ∨ f.unconnected.byCandidateHash[k]? = none) :
    Follows sched scope candidates added (fun j => backed j ∨ j = k) f := by
  by_cases hc : f.chain.contains k
  · -- The candidate was backed before.
    rw [h.chain, BackedChain.contains_ofList] at hc
    obtain ⟨n, hn, rfl⟩ := mem_map.mp hc
    have hb := (h.of_mem_chain hf hn).1
    have he : (fun j => backed j ∨ j = n.candidateHash) = backed := by
      funext j
      exact propext ⟨fun hj => hj.elim id fun hj => hj ▸ hb, .inl⟩
    rwa [he]
  · have hu := hknown.resolve_left hc
    have hnot : k ∉ f.candidateHashes := by
      rwa [h.chain, BackedChain.contains_ofList] at hc
    constructor
    case sameScope => exact h.sameScope
    case chain => exact h.chain
    case grown => exact h.grown.mono fun _ _ ⟨h1, h2, h3⟩ => ⟨h1, .inl h2, h3⟩
    case indexed => exact h.indexed
    case disjoint => exact h.disjoint
    case order => exact fun j hj => hj.elim (h.order j) fun hj => hj ▸ hk
    case stored =>
      intro j e he
      obtain ⟨h1, h2, h3⟩ := h.stored j e he
      have hj : j ≠ k := by
        rintro rfl
        cases hu.symm.trans he
      exact ⟨h1, h2, by simp [h3, hj]⟩
    case greedy =>
      intro ns hg hb
      obtain hb | ⟨ms, n, hp, rfl, -⟩ := greedy_cases hg hb
      · exact h.greedy ns hg hb
      · exact absurd (h.known ms n (hg.of_prefix hp) hk) (by simp [hnot, hu])
    case known => exact h.known
    case fits =>
      intro ns n s hg hs hsn ha
      exact (h.fits ns n s hg hs hsn ha).imp_left fun hb m hm => .inl (hb m hm)

theorem back_mark (he : f.unconnected.byCandidateHash[k]? = some e)
    (ht : ∀ ms, ms <+: f.chain.chain → tip scope ms ≠ e.parentHeadDataHash) :
    Follows sched scope candidates added (fun j => backed j ∨ j = k)
      { f with unconnected := f.unconnected.markBacked k } := by
  have hk := (h.stored k e he).2.1
  constructor
  case sameScope => exact h.sameScope
  case chain => exact h.chain
  case grown => exact h.grown.mono fun _ _ ⟨h1, h2, h3⟩ => ⟨h1, .inl h2, h3⟩
  case indexed => exact h.indexed.markBacked
  case disjoint =>
    intro n hn
    change (f.unconnected.markBacked k).byCandidateHash[n.candidateHash]? = none
    rw [lookup_markBacked, h.disjoint n hn]
    rfl
  case order => exact fun j hj => hj.elim (h.order j) fun hj => hj ▸ hk
  case stored => exact fun j e' he' => h.stored_markBacked he'
  case greedy =>
    intro ns hg hb
    obtain hb | ⟨ms, n, hp, hn, hb⟩ := greedy_cases hg hb
    · exact h.greedy ns hg hb
    · have hms := h.greedy ms (hg.of_prefix ((prefix_append _ _).trans hp)) hb
      exact absurd (h.parent_eq hf (hg.of_prefix hp) hn he) (ht ms hms)
  case known =>
    intro ns n hg ha
    refine (h.known ns n hg ha).imp_right fun hu => ?_
    change (f.unconnected.markBacked k).byCandidateHash[n.candidateHash]? ≠ none
    rw [lookup_markBacked]
    simpa using hu
  case fits =>
    intro ns n s hg hs hsn ha
    exact (h.fits ns n s hg hs hsn ha).imp_left fun hb m hm => .inl (hb m hm)

end Updates

section Revert

variable {storage' : CandidateStorage Hash} (hf : Forest scope candidates)
variable (h : Follows sched scope candidates added backed f)
variable (he : f.unconnected.byCandidateHash[k]? = some e) (hp : ms <+: f.chain.chain)
variable (hr : FragmentChain.Repopulated sched { f with chain := .ofList ms, unconnected := {} }
  (revertedStorage { f with unconnected := f.unconnected.markBacked k } ms)
  (some e.parentHeadDataHash) f' storage')

include h in
theorem indexed_reverted :
    (revertedStorage { f with unconnected := f.unconnected.markBacked k } ms).Indexed :=
  h.indexed.markBacked.foldl_insertNew

include hf h hp hr in
theorem revert_grown :
    Grown scope (AllowedAmong sched candidates fun j => backed j ∨ j = k) f'.chain.chain := by
  have hgrown : Grown scope (AllowedAmong sched candidates fun j => backed j ∨ j = k) ms :=
    (h.grown.of_prefix hp).mono fun _ _ ⟨h1, h2, h3⟩ => ⟨h1, .inl h2, h3⟩
  have hpop := hr.populates
  rw [h.sameScope] at hpop
  refine hpop.grown hgrown fun j e' he' hb => ?_
  obtain ⟨ha, -, hs⟩ := h.lookup_reverted hf he'
  exact ⟨rfl, h.indexed_reverted.byCandidateHash j e' he' ▸ hs.mp hb, ha⟩

include hf h he hp hr in
theorem revert_greedy (ht : tip scope ms = e.parentHeadDataHash)
    (hg : Greedy sched scope candidates ns)
    (hb : ∀ n ∈ ns, backed n.candidateHash ∨ n.candidateHash = k) : ns <+: f'.chain.chain := by
  have hpop := hr.populates
  rw [h.sameScope] at hpop
  have hcomp : ns <+: ms ∨ ms <+: ns := by
    obtain hb | ⟨ns', n, hn, hnk, hb⟩ := greedy_cases hg hb
    · exact List.prefix_or_prefix_of_prefix (h.greedy ns hg hb) hp
    · have hns := (prefix_append ns' [n]).trans hn
      have htip := h.parent_eq hf (hg.of_prefix hn) hnk he
      rw [h.grown.eq_of_tip hp (h.greedy ns' (hg.of_prefix hns) hb) (ht.trans htip.symm)]
      exact .inr hns
  obtain hms | hms := hcomp
  · exact hms.trans hpop.stored.1
  -- What is left of the greedy chain is stored and backed.
  refine hpop.greedy hf h.indexed_reverted hg hms (fun j e' he' => (h.lookup_reverted hf he').1)
    fun m hm => ?_
  have hmns := List.mem_of_mem_drop hm
  obtain ⟨ns', _, _, hm', -⟩ := hg.grown.of_mem hmns
  have hout : m.candidateHash ∉ ms.map (·.candidateHash) := by
    have hnd := hg.grown.nodup_candidates
    obtain ⟨l, rfl⟩ := hms
    rw [BackedChain.chain_ofList, drop_left] at hm
    rw [map_append, nodup_append] at hnd
    exact fun hc => hnd.2.2 _ hc _ (mem_map_of_mem hm) rfl
  have hadded : added m.candidateHash := (hb m hmns).elim (h.order _) fun hj =>
    hj ▸ (h.stored k e he).2.1
  obtain ⟨e', he'⟩ := Option.ne_none_iff_exists'.mp
    (mem_reverted hp (h.known ns' m (hg.of_prefix hm') hadded) hout)
  exact ⟨e', he', (h.lookup_reverted hf he').2.2.mpr (hb m hmns)⟩

include h hp hr in
theorem lookup_left (he' : storage'.byCandidateHash[j]? = some e') : j ∉ f'.candidateHashes ∧
      (revertedStorage { f with unconnected := f.unconnected.markBacked k }
        ms).byCandidateHash[j]? = some e' := by
  obtain ⟨-, ⟨l, hl⟩, hlookup⟩ := hr.populates.lookup h.indexed_reverted
  rw [hlookup, ← hl, drop_left] at he'
  split_ifs at he' with hj
  refine ⟨fun hm => ?_, he'⟩
  rw [candidateHashes, ← hl, map_append, mem_append] at hm
  obtain ⟨n, hn, rfl⟩ := mem_map.mp (hm.resolve_right hj)
  rw [h.not_mem_reverted hp hn] at he'
  cases he'

include hf h he hp hr in
-- The candidates of greedy chains that are left have potential.
theorem left_checkPotential (ht : tip scope ms = e.parentHeadDataHash)
    (hg : Greedy sched scope candidates ns) {j : Hash} {e' : CandidateEntry Hash}
    (he' : storage'.byCandidateHash[j]? = some e') (hns : tip scope ns = e'.outputHeadDataHash) :
    (∃ ns', Greedy sched scope candidates ns' ∧ tip scope ns' = e'.parentHeadDataHash) ∧
      f'.checkPotential sched e' = .ok () := by
  obtain ⟨hj, hrev⟩ := h.lookup_left hp hr he'
  obtain ⟨⟨s, hs, has⟩, hadded, -⟩ := h.lookup_reverted hf hrev
  have hkey := h.indexed_reverted.byCandidateHash j e' hrev
  have hhash : e'.candidateHash = s.candidateHash := congrArg (·.candidateHash) has
  have hout : e'.outputHeadDataHash = s.outputHeadDataHash := congrArg (·.outputHeadDataHash) has
  have hpar : e'.parentHeadDataHash = s.parentHeadDataHash := congrArg (·.parentHeadDataHash) has
  obtain rfl | ⟨ns, n, rfl⟩ := List.eq_nil_or_concat' ns
  · rw [hout] at hns
    exact absurd hns.symm (hf.root s hs)
  obtain ⟨s', hs', hgns, hstep, -⟩ := hg.of_snoc
  obtain rfl : s' = s := by
    refine hf.eq_of_output hs' hs ?_
    rw [← hout, ← hns, tip_append, hstep.made.output]
  have hn : n.candidateHash = j := by rw [hstep.made.candidateHash, ← hhash, hkey]
  refine ⟨⟨ns, hgns, ?_⟩, ?_⟩
  · rw [hpar, ← hstep.made.parent, hgns.grown.step_parent hstep]
  have hpot : f'.checkPotential sched s' = .ok () := by
    refine hg.checkPotential hf (hr.scope.trans h.sameScope) hr.chain (h.revert_grown hf hp hr) hs
      hstep.made.candidateHash.symm (fun hm => hj (hn ▸ mem_map_of_mem hm)) fun hnot => ?_
    refine (h.fits ns n s' hg hs hstep.made.candidateHash.symm (hn ▸ hadded)).resolve_left
      fun hb => ?_
    exact hnot (h.revert_greedy hf he hp hr ht hgns fun m hm => .inl (hb m hm))
  calc f'.checkPotential sched e'
      = f'.checkPotential sched e'.asBacked := rfl
    _ = f'.checkPotential sched s'.asBacked := by rw [has]
    _ = .ok () := hpot

include hf h he hp hr in
-- So they are not trimmed.
theorem left_known (ht : tip scope ms = e.parentHeadDataHash)
    (hg : Greedy sched scope candidates (ns ++ [n])) (ha : added n.candidateHash)
    (hn : n.candidateHash ∉ f'.candidateHashes) :
    ∃ e', (f'.trimUneligibleForks sched storage'
        (some e.parentHeadDataHash)).byCandidateHash[n.candidateHash]? = some e' ∧
      f'.checkPotential sched e' = .ok () := by
  obtain ⟨hi', ⟨l, hl⟩, hlookup⟩ := hr.populates.lookup h.indexed_reverted
  rw [candidateHashes, ← hl, map_append, mem_append, not_or] at hn
  obtain ⟨e', hrev⟩ := Option.ne_none_iff_exists'.mp
    (mem_reverted (k := k) hp (h.known ns n hg ha) hn.1)
  have hleft : storage'.byCandidateHash[n.candidateHash]? = some e' := by
    rw [hlookup, ← hl, drop_left, if_neg hn.2, hrev]
  have hout : tip scope (ns ++ [n]) = e'.outputHeadDataHash := by
    obtain ⟨s, hs, -, hstep, -⟩ := hg.of_snoc
    obtain ⟨⟨s', hs', has⟩, -⟩ := h.lookup_reverted hf hrev
    have hhash : e'.candidateHash = s'.candidateHash := congrArg (·.candidateHash) has
    have hkey := h.indexed_reverted.byCandidateHash _ _ hrev
    obtain rfl := hf.eq_of_hash hs hs' (by rw [← hhash, hkey, hstep.made.candidateHash])
    rw [tip_append, hstep.made.output]
    exact (congrArg (·.outputHeadDataHash) has).symm
  refine ⟨e', ?_, (h.left_checkPotential hf he hp hr ht hg hleft hout).2⟩
  refine FragmentChain.trimLoop_keeps (fun head => ∃ ns, Greedy sched scope candidates ns ∧
    tip scope ns = head) hi' ?_ (by simp) hleft ⟨_, hg, hout⟩
  rintro j e'' he'' ⟨ns', hg', ht'⟩
  obtain ⟨h1, h2⟩ := h.left_checkPotential hf he hp hr ht hg' he'' ht'
  exact ⟨h1, (), h2⟩

include hf h he hp hr in
theorem back_revert (ht : tip scope ms = e.parentHeadDataHash) :
    Follows sched scope candidates added (fun j => backed j ∨ j = k) f' := by
  have hleft (j : Hash) (e' : CandidateEntry Hash)
    (he' : f'.unconnected.byCandidateHash[j]? = some e') :
      storage'.byCandidateHash[j]? = some e' := by
    rw [hr.lookup] at he'
    simp only [Std.ExtTreeMap.getElem?_empty, Option.none_or, Option.filter_eq_some_iff] at he'
    exact hr.trimmed.2 j e' he'.1
  constructor
  case sameScope => exact hr.scope.trans h.sameScope
  case chain => exact hr.chain
  case grown => exact h.revert_grown hf hp hr
  case indexed => exact hr.indexed indexed_empty
  case disjoint =>
    exact hr.disjoint (fun _ _ => Std.ExtTreeMap.getElem?_empty) fun _ _ =>
      Std.ExtTreeMap.getElem?_empty
  case order => exact fun j hj => hj.elim (h.order j) fun hj => hj ▸ (h.stored k e he).2.1
  case stored => exact fun j e' he' => h.lookup_reverted hf (h.lookup_left hp hr (hleft j e' he')).2
  case greedy => exact fun ns hg hb => h.revert_greedy hf he hp hr ht hg hb
  case known =>
    intro ns n hg ha
    by_cases hn : n.candidateHash ∈ f'.candidateHashes
    · exact .inl hn
    obtain ⟨e', he', hpot⟩ := h.left_known hf he hp hr ht hg ha hn
    have hstays : f'.staysPotential sched e' = true := by
      have hkey := hr.trimmed.1.byCandidateHash _ _ he'
      have hnot : f'.chain.contains n.candidateHash = false := by
        rw [← Bool.not_eq_true, hr.chain, BackedChain.contains_ofList]
        exact hn
      have hpend : f'.scope.getPendingAvailability n.candidateHash = none := by
        rw [hr.scope.trans h.sameScope]
        exact hf.getPendingAvailability _
      rw [FragmentChain.staysPotential, hkey, hpend, hnot, hpot]
      rfl
    rw [hr.lookup, he', Option.filter_some, if_pos hstays]
    simp
  case fits =>
    intro ns n s hg hs hsn ha
    exact (h.fits ns n s hg hs hsn ha).imp_left fun hb m hm => .inl (hb m hm)

end Revert

theorem back (hf : Forest scope candidates) (h : Follows sched scope candidates added backed f)
    (hk : added k) : Follows sched scope candidates added (fun j => backed j ∨ j = k)
      (f.candidateBacked sched k) := by
  obtain rfl := h.sameScope
  apply FragmentChain.candidateBacked_induction h.chained
  · exact fun hknown => h.back_known hf hk hknown
  · exact fun e he ht => h.back_mark hf he ht
  · exact fun e ms storage' f' he hp ht hr => h.back_revert hf he hp hr ht

end Follows

inductive Event (Hash : Type) [Hashing Hash]
  | second (candidate : CandidateEntry Hash)
  | back (candidateHash : Hash)

namespace Event

def seconded? : Event Hash → Option (CandidateEntry Hash)
  | .second candidate => some candidate
  | .back _ => none

def backed? : Event Hash → Option Hash
  | .second _ => none
  | .back candidateHash => some candidateHash

def handle (schedulingScope : SchedulingScope Hash) (f : FragmentChain Hash) :
    Event Hash → Except (Error Hash) (FragmentChain Hash)
  | .second candidate => f.tryAddingSecondedCandidate schedulingScope candidate
  | .back candidateHash => .ok (f.candidateBacked schedulingScope candidateHash)

-- Handles events one after the other, where all candidates have to be accepted.
def run (schedulingScope : SchedulingScope Hash) (f : FragmentChain Hash)
    (events : List (Event Hash)) :
    Except (Error Hash) (FragmentChain Hash) :=
  events.foldlM (handle schedulingScope) f

-- Each candidate is seconded once, and later backed once.
structure Complete (candidates : List (CandidateEntry Hash)) (events : List (Event Hash)) :
    Prop where
  seconded : (events.filterMap seconded?).Perm candidates
  backed : (events.filterMap backed?).Perm (candidates.map (·.candidateHash))
  later : ∀ l h l', events = l ++ .back h :: l' → h ∈ (l.filterMap seconded?).map (·.candidateHash)

theorem run_follows (hf : Forest scope candidates) (hc : Complete candidates events)
    (hl : l <+: events) (hrun : run sched (.init sched scope {}) l = .ok f) :
    Follows sched scope candidates (· ∈ (l.filterMap seconded?).map (·.candidateHash))
      (· ∈ l.filterMap backed?) f := by
  induction l using List.reverseRecOn generalizing f
  case nil =>
    cases hrun
    simpa using Follows.init
  case append_singleton l event hi =>
    rw [run, List.foldlM_append, Except.bind_eq_ok] at hrun
    obtain ⟨f0, hrun, hevent⟩ := hrun
    have h0 := hi ((prefix_append _ _).trans hl) hrun
    obtain ⟨l', rfl⟩ := hl
    cases event
    case second s =>
      have hevent : f0.tryAddingSecondedCandidate sched s = .ok f := by
        simpa [handle, Except.bind_eq_ok] using hevent
      have hs : s ∈ candidates := hc.seconded.subset (by simp [seconded?])
      have hn : s.candidateHash ∉ (l.filterMap seconded?).map (·.candidateHash) := by
        have hnd := (hc.seconded.map (·.candidateHash)).nodup_iff.mpr hf.hashes
        simp only [List.filterMap_append, map_append, List.append_assoc] at hnd
        exact fun hm => (nodup_append.mp hnd).2.2 _ hm _ (by simp [seconded?]) rfl
      simpa [seconded?, backed?] using h0.second hf hs hn hevent
    case back k =>
      have hevent : f0.candidateBacked sched k = f := by simpa [handle] using hevent
      have hk := hc.later l k l' (by simp)
      simpa [seconded?, backed?, hevent] using h0.back hf hk

end Event

open Classical in
theorem exists_best (hs : s ∈ candidates) (hstep : Step sched scope ns s n) : ∃ s' ∈ candidates,
    (∃ n', Step sched scope ns s' n') ∧ ∀ e' ∈ candidates, ∀ n',
      Step sched scope ns e' n' → s'.candidateHash ≤ e'.candidateHash := by
  let l := candidates.filter fun s => ∃ n, Step sched scope ns s n
  have hl (e : CandidateEntry Hash) : e ∈ l ↔ e ∈ candidates ∧ ∃ n, Step sched scope ns e n := by
    simp [l]
  obtain ⟨s', hs'⟩ : ∃ s', s' ∈ l.argmin (·.candidateHash) := by
    refine Option.ne_none_iff_exists'.mp fun hnone => ?_
    exact List.ne_nil_of_mem ((hl s).mpr ⟨hs, n, hstep⟩) (List.argmin_eq_none.mp hnone)
  obtain ⟨hm, hn⟩ := (hl s').mp (List.argmin_mem hs')
  exact ⟨s', hm, hn, fun e' he' n' hn' => List.le_of_mem_argmin ((hl e').mpr ⟨he', n', hn'⟩) hs'⟩

namespace Follows

variable (h : Follows sched scope candidates added backed f)
variable (hall : ∀ s ∈ candidates, backed s.candidateHash)

include h hall

theorem prefix_of_greedy (hg : Greedy sched scope candidates ns) : ns <+: f.chain.chain := by
  refine h.greedy ns hg fun n hn => ?_
  obtain ⟨_, _, e, -, -, ⟨-, -, s, hs, has⟩, hstep⟩ := hg.grown.of_mem hn
  have hhash : e.candidateHash = s.candidateHash := congrArg (·.candidateHash) has
  rw [hstep.made.candidateHash, hhash]
  exact hall s hs

theorem greedy_of_prefix (hp : ns <+: f.chain.chain) : Greedy sched scope candidates ns := by
  induction ns using List.reverseRecOn
  case nil => exact .nil
  case append_singleton ns n hi =>
    have hg := hi ((prefix_append _ _).trans hp)
    obtain ⟨_, e, -, ⟨rfl, -, s, hs, has⟩, hstep⟩ := (h.grown.of_prefix hp).of_snoc
    obtain ⟨s', hs', ⟨n', hn'⟩, hbest⟩ := exists_best hs (hstep.of_asBacked has)
    have hg' := Greedy.snoc ns s' n' hg hs' hn' hbest
    -- Both continue the same prefix of the chain.
    have heq : ns ++ [n] = ns ++ [n'] :=
      (List.prefix_of_prefix_length_le hp (h.prefix_of_greedy hall hg') (by simp)).eq_of_length
        (by simp)
    rw [heq]
    exact hg'

end Follows

-- The chain does not depend on the order in which candidates are seconded and backed.
theorem forkChoice_order_independent (hf : Forest scope candidates)
    {events₁ events₂ : List (Event Hash)} (hc₁ : Event.Complete candidates events₁)
    (hc₂ : Event.Complete candidates events₂) {f₁ f₂ : FragmentChain Hash}
    (hr₁ : Event.run sched (.init sched scope {}) events₁ = .ok f₁)
    (hr₂ : Event.run sched (.init sched scope {}) events₂ = .ok f₂) :
    f₁.candidateHashes = f₂.candidateHashes := by
  have hall {events : List (Event Hash)} (hc : Event.Complete candidates events) :
      ∀ s ∈ candidates, s.candidateHash ∈ events.filterMap Event.backed? :=
    fun s hs => hc.backed.symm.subset (mem_map_of_mem hs)
  have h₁ := Event.run_follows hf hc₁ prefix_rfl hr₁
  have h₂ := Event.run_follows hf hc₂ prefix_rfl hr₂
  have hp₁ := h₂.prefix_of_greedy (hall hc₂) (h₁.greedy_of_prefix (hall hc₁) prefix_rfl)
  have hp₂ := h₁.prefix_of_greedy (hall hc₁) (h₂.greedy_of_prefix (hall hc₂) prefix_rfl)
  rw [candidateHashes, candidateHashes,
    hp₁.eq_of_length (Nat.le_antisymm hp₁.length_le hp₂.length_le)]

section Samples

open FragmentChain

-- Two candidates on the same parent.
def sampleFork₁ : CandidateEntry Nat :=
  sampleEntry 1 0 1 0 0 zero_head_ne_one

def sampleFork₂ : CandidateEntry Nat :=
  sampleEntry 2 0 2 0 0 (by decide)

theorem sampleFork_forest : Forest (sampleScope []) [sampleFork₁, sampleFork₂] :=
  ⟨rfl, by decide, by decide, by decide⟩

def sampleEvents (h₁ h₂ : Nat) : List (Event Nat) :=
  [.second sampleFork₁, .second sampleFork₂, .back h₁, .back h₂]

theorem sampleEvents_complete (hp : [h1, h2].Perm [1, 2]) :
    Event.Complete [sampleFork₁, sampleFork₂] (sampleEvents h1 h2) where
  seconded := .refl _
  backed := hp
  later := by
    intro l h l' he
    have hm : h ∈ [1, 2] := by
      refine hp.subset ?_
      have hback : Event.back h ∈ sampleEvents h1 h2 := he ▸ by simp
      simpa [sampleEvents] using hback
    obtain _ | ⟨a, _ | ⟨b, t⟩⟩ := l
    · cases he
    · cases he
    · simp only [sampleEvents, List.cons_append, List.cons.injEq] at he
      obtain ⟨rfl, rfl, -⟩ := he
      exact List.mem_append_left (List.map _ (t.filterMap Event.seconded?)) hm

def sampleForked : FragmentChain Nat :=
  (do
    let f ← (init sampleSchedulingScope (sampleScope []) {}).tryAddingSecondedCandidate
      sampleSchedulingScope
      sampleFork₁
    f.tryAddingSecondedCandidate sampleSchedulingScope sampleFork₂).toOption.getD
      { scope := sampleScope [] }

theorem run_sampleEvents (h1 h2 : Nat) :
    Event.run sampleSchedulingScope (init sampleSchedulingScope (sampleScope []) {})
      (sampleEvents h1 h2) =
      .ok ((sampleForked.candidateBacked sampleSchedulingScope h1).candidateBacked
        sampleSchedulingScope h2) := by
  rfl

theorem sampleFork_order_independent :
    ((sampleForked.candidateBacked sampleSchedulingScope 1).candidateBacked
        sampleSchedulingScope 2).candidateHashes =
      ((sampleForked.candidateBacked sampleSchedulingScope 2).candidateBacked
        sampleSchedulingScope 1).candidateHashes :=
  forkChoice_order_independent sampleFork_forest (sampleEvents_complete (.refl _))
    (sampleEvents_complete (.swap _ _ _)) (run_sampleEvents 1 2) (run_sampleEvents 2 1)

end Samples

end Runs
end Prospective
