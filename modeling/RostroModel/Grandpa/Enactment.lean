import RostroModel.Grandpa.Authorities

namespace Grandpa

open ForkTree ForkTree.Node
open List (mem_append mem_singleton)

variable {I H E : Type}

-- An authority set with the standard changes that were added to it, the block that was finalized
-- last, and the sets that were enacted, each with the block at which this happened.
structure Progress (I H : Type) where
  set : AuthoritySet I H Nat
  added : List (PendingChange I H Nat) := []
  last : H
  enacted : List ((H × Nat) × AuthorityList I) := []

namespace Progress

section Calls

variable [DecidableEq H] (E) (A : Ancestry H Nat) (p : Progress I H)

def addChange (change : PendingChange I H Nat) : Progress I H :=
  { p with
    set := (p.set.addPendingChange (A.query E) change).2
    added := p.added ++ [change] }

def applied (block : H) : Except (Error Nat E) (Status H Nat) × AuthoritySet I H Nat :=
  p.set.applyStandardChanges (A.query E) block (A.numberOf block)

-- The set that is in force after a call that says that the set has changed.
def recordOf (set : AuthoritySet I H Nat) :
    Except (Error Nat E) (Status H Nat) → List ((H × Nat) × AuthorityList I)
  | .ok status => status.newSetBlock.toList.map fun block => (block, set.currentAuthorities)
  | .error _ => []

def finalizeBlock (block : H) : Progress I H :=
  { p with
    set := (p.applied E A block).2
    last := block
    enacted := p.enacted ++ recordOf E (p.applied E A block).2 (p.applied E A block).1 }

variable (start : H)

-- The standard changes that may be added: no block signals two of them, a change is added before
-- those that are signalled below it, and it is effective before they are signalled. The block from
-- which finalization starts enacts nothing.
structure Addable (change : PendingChange I H Nat) : Prop where
  standard : change.delayKind = .finalized
  height : change.canonHeight = A.numberOf change.canonHash
  fresh : ∀ c ∈ p.added, c.canonHash ≠ change.canonHash
  inOrder : ∀ c ∈ p.added, ¬A.isDescendentOf change.canonHash c.canonHash
  separate : ∀ c ∈ p.added, A.isDescendentOf c.canonHash change.canonHash →
    c.effectiveNumber < change.canonHeight
  effective : A.numberOf start < change.effectiveNumber

-- The next block of the finalized chain, which is not past the current limit.
structure Finalizable (block : H) : Prop where
  above : A.isDescendentOf p.last block
  limit : ∀ limit ∈ p.set.currentLimit (A.numberOf p.last + 1), A.numberOf block ≤ limit

inductive Run : Progress I H → Prop
  | genesis {initial set} : AuthoritySet.genesis initial = some set → Run { set, last := start }
  | add {q : Progress I H} (change) : Run q → q.Addable A start change →
    (q.set.addPendingChange (A.query E) change).1 = .ok () → Run (q.addChange E A change)
  | finalize {q : Progress I H} (block) : Run q → q.Finalizable A block →
    Run (q.finalizeBlock E A block)

end Calls

variable {A : Ancestry H Nat} {p : Progress I H} {block start : H}

-- A change on the chain of the block that is not effective yet.
def Awaiting (A : Ancestry H Nat) (block : H) (change : PendingChange I H Nat) : Prop :=
  A.AtOrAbove change.canonHash block ∧ A.numberOf block < change.effectiveNumber

-- The changes that are pending when the block is finalized: on its descendants, on its ancestors
-- but not effective yet, and on any fork below such an ancestor.
def Pending (A : Ancestry H Nat) (added : List (PendingChange I H Nat)) (block : H)
    (change : PendingChange I H Nat) : Prop :=
  A.isDescendentOf block change.canonHash ∨ Awaiting A block change ∨
    ∃ c ∈ added, Awaiting A block c ∧ A.isDescendentOf c.canonHash change.canonHash

-- The enacted sets are those of the changes on the finalized chain that are effective, in the order
-- of the chain, and each was enacted at the block with its effective number.
def EnactedInOrder (A : Ancestry H Nat) (p : Progress I H) : Prop :=
  ∃ changes : List (PendingChange I H Nat × H),
    p.enacted = changes.map (fun e => ((e.2, A.numberOf e.2), e.1.nextAuthorities)) ∧
    (changes.map Prod.fst).Pairwise (fun c c' => A.isDescendentOf c.canonHash c'.canonHash) ∧
    (∀ c, c ∈ changes.map Prod.fst ↔
      c ∈ p.added ∧ A.AtOrAbove c.canonHash p.last ∧ c.effectiveNumber ≤ A.numberOf p.last) ∧
    ∀ e ∈ changes, A.AtOrAbove e.2 p.last ∧ A.numberOf e.2 = e.1.effectiveNumber

structure Signalled (A : Ancestry H Nat) (added : List (PendingChange I H Nat)) : Prop where
  height : ∀ c ∈ added, c.canonHeight = A.numberOf c.canonHash
  unique : ∀ c ∈ added, ∀ c' ∈ added, c.canonHash = c'.canonHash → c = c'
  separate : ∀ c ∈ added, ∀ c' ∈ added, A.isDescendentOf c.canonHash c'.canonHash →
    c.effectiveNumber < c'.canonHeight

abbrev tree (p : Progress I H) : ForkTree H Nat (PendingChange I H Nat) :=
  p.set.pendingStandardChanges

-- How the pending tree is related to the block tree.
structure Invariant (A : Ancestry H Nat) (start : H) (p : Progress I H) : Prop where
  signalled : Signalled A p.added
  noForced : p.set.pendingForcedChanges = []
  mirrored : A.MirroredForest p.tree.roots
  entry : ∀ e ∈ entries p.tree.roots, e.2 ∈ p.added ∧ e.1 = e.2.canonHash
  notPast : ∀ e ∈ entries p.tree.roots, A.numberOf p.last < e.2.effectiveNumber
  kept : ∀ c ∈ p.added, Pending A p.added p.last c → (c.canonHash, c) ∈ entries p.tree.roots
  best : p.tree.bestFinalizedNumber = some (A.numberOf p.last) ∨
    p.tree.bestFinalizedNumber = none ∧ p.last = start
  enacted : EnactedInOrder A p

namespace Signalled

variable {added : List (PendingChange I H Nat)} {c c' : PendingChange I H Nat}

theorem number_le (h : Signalled A added) (hc : c ∈ added) :
    A.numberOf c.canonHash ≤ c.effectiveNumber := by
  rw [← h.height c hc]
  exact Nat.le_add_right ..

theorem number_lt (h : Signalled A added) (hc : c ∈ added) (hc' : c' ∈ added)
    (hd : A.isDescendentOf c.canonHash c'.canonHash) :
    c.effectiveNumber < A.numberOf c'.canonHash := by
  rw [← h.height c' hc']
  exact h.separate c hc c' hc' hd

end Signalled

namespace Invariant

variable {root : Node H Nat (PendingChange I H Nat)} {e : H × PendingChange I H Nat}
  {c : PendingChange I H Nat}

theorem root_entry (h : Invariant A start p) (hr : root ∈ p.tree.roots) :
    root.data ∈ p.added ∧ root.hash = root.data.canonHash ∧
      A.numberOf p.last < root.data.effectiveNumber := by
  have he := mem_entries_of_mem (mem_nodesAll_of_root hr)
  exact ⟨(h.entry _ he).1, (h.entry _ he).2, h.notPast _ he⟩

variable (h : Invariant A start p) (hb : p.Finalizable A block)
include h hb

theorem le_effective (hr : root ∈ p.tree.roots) : A.numberOf block ≤ root.data.effectiveNumber := by
  have hm : root.data.effectiveNumber ∈
      (p.tree.roots.map (·.data.effectiveNumber)).filter (A.numberOf p.last + 1 ≤ ·) := by
    refine List.mem_filter.mpr ⟨List.mem_map_of_mem hr, ?_⟩
    simpa using (h.root_entry hr).2.2
  cases hl : p.set.currentLimit (A.numberOf p.last + 1)
  case none =>
    rw [AuthoritySet.currentLimit, List.min?_eq_none_iff] at hl
    rw [hl] at hm
    cases hm
  case some limit =>
    have hle := (List.min?_eq_some_iff.mp hl).2 _ hm
    exact (hb.limit limit hl).trans hle

theorem lt_number_of_below (hr : root ∈ p.tree.roots) (he : e ∈ entries root.children) :
    A.numberOf block < A.numberOf e.1 := by
  have he' : e ∈ entries p.tree.roots :=
    mem_entries.mpr ⟨root, hr, mem_entries_singleton.mpr (.inr he)⟩
  have hd := (h.mirrored.trees root hr).descends (fst_mem_of_mem_entries he)
  obtain ⟨hm, hh⟩ := h.entry e he'
  obtain ⟨hm', hh', -⟩ := h.root_entry hr
  rw [hh, hh'] at hd
  have hlt := h.signalled.number_lt hm' hm hd
  rw [hh]
  exact (h.le_effective hb hr).trans_lt hlt

theorem root_of_atOrAbove (he : e ∈ entries p.tree.roots) (ha : A.AtOrAbove e.1 block) :
    ∃ root ∈ p.tree.roots, e = (root.hash, root.data) := by
  obtain ⟨root, hr, he⟩ := mem_entries.mp he
  rcases mem_entries_singleton.mp he with he | he
  · exact ⟨root, hr, he⟩
  · exact absurd ha.number_le (not_le.mpr (h.lt_number_of_below hb hr he))

theorem mem_entries_of_atOrAbove (hc : c ∈ p.added) (ha : A.AtOrAbove c.canonHash block)
    (hn : A.numberOf p.last < c.effectiveNumber) : (c.canonHash, c) ∈ entries p.tree.roots := by
  apply h.kept c hc
  rcases ha.chain (.inr hb.above) with hl | hl
  · exact .inr (.inl ⟨hl, hn⟩)
  · exact .inl hl

theorem clearBelow (predicate : PendingChange I H Nat → Bool) :
    ClearBelow A block predicate p.tree.roots := by
  intro root hr _ _ child hc
  have hm := ((h.mirrored.trees root hr).children.trees child hc).number_eq
  rw [hm]
  exact h.lt_number_of_below hb hr (mem_entries_of_mem (mem_nodesAll_of_root hc))

theorem not_reverts : p.tree.reverts (A.numberOf block) = false := by
  have hn := A.number_lt hb.above
  rcases h.best with hbest | ⟨hbest, -⟩
  · simp [reverts, hbest, hn]
  · simp [reverts, hbest]

variable [DecidableEq H]

-- A block enacts the change at the root that is effective there, if there is one.
theorem applied_spec : (∃ root ∈ p.tree.roots, root.data.effectiveNumber = A.numberOf block ∧
      A.AtOrAbove root.hash block ∧
      p.applied E A block = (.ok { changed := true, newSetBlock := some (block, A.numberOf block) },
        ({ p.set with
          pendingStandardChanges :=
            { roots := root.children.filter fun node => A.Retains block node
              bestFinalizedNumber :=
                some (A.numberOf block) } } : AuthoritySet I H Nat).withStandard
          (A.numberOf block) root.data)) ∨
    ((∀ root ∈ p.tree.roots, A.AtOrAbove root.hash block →
      A.numberOf block < root.data.effectiveNumber) ∧
      ∃ status : Status H Nat, status.newSetBlock = none ∧ p.applied E A block = (.ok status,
          { p.set with
            pendingStandardChanges :=
              { roots := p.tree.roots.filter fun node => A.Retains block node
                bestFinalizedNumber := some (A.numberOf block) } })) := by
  rw [applied, AuthoritySet.applyStandardChanges]
  cases finalizeWithDescendentIf_spec (E := E) h.mirrored (h.not_reverts hb)
    (h.clearBelow hb fun c => c.effectiveNumber ≤ A.numberOf block)
  case inl hf =>
    obtain ⟨root, hr, hp, ha, hf⟩ := hf
    have hle := h.le_effective hb hr
    refine .inl ⟨root, hr, le_antisymm (of_decide_eq_true hp) hle, ha, ?_⟩
    simp [hf, h.noForced, AuthoritySet.retainForced]
  case inr hf =>
    obtain ⟨hn, changed, hf⟩ := hf
    refine .inr ⟨fun root hr ha => ?_, ?_⟩
    · by_contra hlt
      exact hn root hr (decide_eq_true (not_lt.mp hlt)) ha
    · cases changed
      case false => exact ⟨{}, rfl, by simp [hf, finalizationResult]⟩
      case true =>
        simp [hf, finalizationResult, h.noForced, AuthoritySet.retainForced]

-- The answer of `enacts_standard_change`.
theorem enacts_eq : p.set.enactsStandardChange (A.query E) block (A.numberOf block) =
      .ok (if ∃ root ∈ p.tree.roots, root.data.effectiveNumber = A.numberOf block ∧
        A.AtOrAbove root.hash block then some true else none) := by
  have hroot (node) (hn : node ∈ nodesAll p.tree.roots) (ha : A.AtOrAbove node.hash block) :
      node ∈ p.tree.roots := by
    obtain ⟨root, hr, hn'⟩ := mem_nodesAll.mp hn
    rcases mem_nodes.mp hn' with rfl | hd
    · exact hr
    · exact absurd ha.number_le (not_le.mpr (h.lt_number_of_below hb hr (mem_entries_of_mem hd)))
  have hclear : ClearBelow A block (fun c => decide (c.effectiveNumber = A.numberOf block))
      (nodesAll p.tree.roots) :=
    fun node hn hp ha => h.clearBelow hb (fun c => decide (c.effectiveNumber = A.numberOf block))
      node (hroot node hn ha) hp ha
  rw [AuthoritySet.enactsStandardChange, finalizesAnyWithDescendentIf,
    if_neg (by simp [h.not_reverts hb]), findFinalized_spec hclear fun node hn _ => hroot node hn]
  have hiff : (∃ node ∈ nodesAll p.tree.roots, node.data.effectiveNumber = A.numberOf block ∧
      A.AtOrAbove node.hash block) ↔
      ∃ root ∈ p.tree.roots, root.data.effectiveNumber = A.numberOf block ∧
        A.AtOrAbove root.hash block := by
    constructor
    · rintro ⟨node, hn, hp, ha⟩
      exact ⟨node, hroot node hn ha, hp, ha⟩
    · rintro ⟨root, hr, hp, ha⟩
      exact ⟨root, mem_nodesAll_of_root hr, hp, ha⟩
  simp only [decide_eq_true_eq, hiff, Except.mapError]

end Invariant

section Enacted

variable {root : Node H Nat (PendingChange I H Nat)} {e : H × PendingChange I H Nat}
  {c : PendingChange I H Nat}

variable (h : Invariant A start p) (hb : p.Finalizable A block)
include h hb

theorem Invariant.root_of_effective (hc : c ∈ p.added) (ha : A.AtOrAbove c.canonHash block)
    (hn : A.numberOf p.last < c.effectiveNumber) :
    ∃ root ∈ p.tree.roots, root.hash = c.canonHash ∧ root.data = c := by
  obtain ⟨root, hr, he⟩ := h.root_of_atOrAbove hb (h.mem_entries_of_atOrAbove hb hc ha hn) ha
  exact ⟨root, hr, (congrArg Prod.fst he).symm, (congrArg Prod.snd he).symm⟩

theorem Invariant.effective_iff (hc : c ∈ p.added) (hn : c.effectiveNumber ≤ A.numberOf p.last) :
    A.AtOrAbove c.canonHash block ↔ A.AtOrAbove c.canonHash p.last := by
  constructor
  · intro ha
    rcases ha.chain (.inr hb.above) with hl | hl
    · exact hl
    · have hlt := A.number_lt hl
      have hle := h.signalled.number_le hc
      omega
  · intro ha
    exact ha.trans (.inr hb.above)

theorem enactedInOrder_of_none (hn : ∀ root ∈ p.tree.roots, A.AtOrAbove root.hash block →
      A.numberOf block < root.data.effectiveNumber)
    (set : AuthoritySet I H Nat) : EnactedInOrder A { p with set, last := block } := by
  obtain ⟨changes, he, ho, hm, hat⟩ := h.enacted
  have hlt := A.number_lt hb.above
  refine ⟨changes, he, ho, fun c => (hm c).trans (and_congr_right fun hc => ?_), fun e he => ?_⟩
  · constructor
    · rintro ⟨ha, hle⟩
      exact ⟨ha.trans (.inr hb.above), hle.trans hlt.le⟩
    · rintro ⟨ha, hle⟩
      by_cases hl : c.effectiveNumber ≤ A.numberOf p.last
      case pos => exact ⟨(h.effective_iff hb hc hl).mp ha, hl⟩
      case neg =>
        obtain ⟨root, hr, hh, rfl⟩ := h.root_of_effective hb hc ha (not_le.mp hl)
        exact absurd hle (not_le.mpr (hn root hr (hh ▸ ha)))
  · exact ⟨(hat e he).1.trans (.inr hb.above), (hat e he).2⟩

-- If one is, it comes after all that were effective before.
theorem enactedInOrder_of_root (hr : root ∈ p.tree.roots)
    (hroot : root.data.effectiveNumber = A.numberOf block) (ha : A.AtOrAbove root.hash block)
    (set : AuthoritySet I H Nat) :
    EnactedInOrder A { p with
      set
      last := block
      enacted := p.enacted ++ [((block, A.numberOf block), root.data.nextAuthorities)] } := by
  obtain ⟨changes, he, ho, hm, hat⟩ := h.enacted
  obtain ⟨hadd, hh, hpast⟩ := h.root_entry hr
  have hlt := A.number_lt hb.above
  refine ⟨changes ++ [(root.data, block)], by simp [he], ?_, fun c => ?_, fun e he => ?_⟩
  · rw [List.map_append, List.pairwise_append]
    refine ⟨ho, List.pairwise_singleton _ _, fun c hc c' hc' => ?_⟩
    cases mem_singleton.mp hc'
    obtain ⟨hcadd, hca, hcn⟩ := (hm c).mp hc
    rw [hh] at ha
    have hcn' := h.signalled.number_le hcadd
    rcases (hca.trans (.inr hb.above)).chain ha with (hcr | hcr) | hcr
    · cases h.signalled.unique c hcadd root.data hadd hcr
      omega
    · exact hcr
    · have hs := h.signalled.number_lt hadd hcadd hcr
      omega
  · rw [List.map_append, mem_append, hm c]
    constructor
    · rintro (⟨hc, hca, hcn⟩ | hc)
      · exact ⟨hc, hca.trans (.inr hb.above), hcn.trans hlt.le⟩
      · cases mem_singleton.mp hc
        exact ⟨hadd, hh ▸ ha, hroot.le⟩
    · rintro ⟨hc, hca, hcn⟩
      by_cases hl : c.effectiveNumber ≤ A.numberOf p.last
      case pos => exact .inl ⟨hc, (h.effective_iff hb hc hl).mp hca, hl⟩
      case neg =>
        obtain ⟨root', hr', hh', rfl⟩ := h.root_of_effective hb hc hca (not_le.mp hl)
        cases h.mirrored.root_unique hr hr' ha (hh' ▸ hca)
        exact .inr (List.mem_singleton_self _)
  · rcases mem_append.mp he with he | he
    · exact ⟨(hat e he).1.trans (.inr hb.above), (hat e he).2⟩
    · cases mem_singleton.mp he
      exact ⟨.inl rfl, hroot.symm⟩

end Enacted

section Kept

-- A forest that holds exactly the changes that are pending when the block is finalized.
structure HoldsPending (A : Ancestry H Nat) (added : List (PendingChange I H Nat)) (block : H)
    (nodes : List (Node H Nat (PendingChange I H Nat))) : Prop where
  entry : ∀ e ∈ entries nodes, e.2 ∈ added ∧ e.1 = e.2.canonHash
  notPast : ∀ e ∈ entries nodes, A.numberOf block < e.2.effectiveNumber
  pending : ∀ e ∈ entries nodes, Pending A added block e.2
  complete : ∀ c ∈ added, Pending A added block c → (c.canonHash, c) ∈ entries nodes

variable {root : Node H Nat (PendingChange I H Nat)} {e : H × PendingChange I H Nat}
  {c : PendingChange I H Nat}

theorem Awaiting.cases (hb : p.Finalizable A block) (h : Awaiting A block c) :
    Awaiting A p.last c ∨ A.isDescendentOf p.last c.canonHash := by
  have hlt := A.number_lt hb.above
  rcases h.1.chain (.inr hb.above) with hl | hl
  · exact .inl ⟨hl, hlt.trans h.2⟩
  · exact .inr hl

theorem Pending.of_block (hb : p.Finalizable A block) (h : Pending A p.added block c) :
    Pending A p.added p.last c := by
  rcases h with hd | ha | ⟨a, had, ha, hd⟩
  · exact .inl (A.trans hb.above hd)
  · exact (ha.cases hb).elim (fun ha => .inr (.inl ha)) .inl
  · rcases ha.cases hb with ha | hl
    · exact .inr (.inr ⟨a, had, ha, hd⟩)
    · exact .inl (A.trans hl hd)

theorem Invariant.lt_effective (h : Invariant A start p) (he : e ∈ entries p.tree.roots)
    (hn : A.numberOf block < A.numberOf e.1) : A.numberOf block < e.2.effectiveNumber := by
  obtain ⟨hadd, hh⟩ := h.entry e he
  rw [hh] at hn
  exact hn.trans_le (h.signalled.number_le hadd)

theorem Invariant.atOrAbove_of_mem (h : Invariant A start p) (hr : root ∈ p.tree.roots)
    (he : e ∈ entries [root]) : A.AtOrAbove root.hash e.1 :=
  (h.mirrored.trees root hr).atOrAbove he

theorem Invariant.root_of_awaiting (h : Invariant A start p) (hb : p.Finalizable A block)
    (hc : c ∈ p.added) (ha : Awaiting A block c) :
    ∃ root ∈ p.tree.roots, root.hash = c.canonHash ∧ root.data = c :=
  h.root_of_effective hb hc ha.1 ((A.number_lt hb.above).trans ha.2)

variable [DecidableEq H]

theorem mem_entries_filter {nodes : List (Node H Nat (PendingChange I H Nat))} :
    e ∈ entries (nodes.filter fun node => A.Retains block node) ↔
      ∃ node ∈ nodes, A.Retains block node ∧ e ∈ entries [node] := by
  rw [mem_entries]
  simp only [List.mem_filter, decide_eq_true_eq, and_assoc]

theorem holdsPending_of_none (h : Invariant A start p) (hb : p.Finalizable A block)
    (hn : ∀ root ∈ p.tree.roots, A.AtOrAbove root.hash block →
      A.numberOf block < root.data.effectiveNumber) :
    HoldsPending A p.added block (p.tree.roots.filter fun node => A.Retains block node) := by
  -- What a retained root and the nodes below it are to the block.
  have hsound (e) (he : e ∈ entries (p.tree.roots.filter fun node => A.Retains block node)) :
      e ∈ entries p.tree.roots ∧ A.numberOf block < e.2.effectiveNumber ∧
        Pending A p.added block e.2 := by
    obtain ⟨root, hr, hret, he⟩ := mem_entries_filter.mp he
    have he' : e ∈ entries p.tree.roots := mem_entries.mpr ⟨root, hr, he⟩
    obtain ⟨hadd, hh⟩ := h.entry e he'
    obtain ⟨hradd, hrh, -⟩ := h.root_entry hr
    rcases hret with hd | ha
    · have hde : A.isDescendentOf block e.1 := by
        rcases h.atOrAbove_of_mem hr he with hre | hre
        · exact hre ▸ hd
        · exact A.trans hd hre
      exact ⟨he', h.lt_effective he' (A.number_lt hde), .inl (hh ▸ hde)⟩
    · have hlt := hn root hr ha
      rcases mem_entries_singleton.mp he with rfl | hc
      · exact ⟨he', hlt, .inr (.inl ⟨hrh ▸ ha, hlt⟩)⟩
      · have hd := (h.mirrored.trees root hr).descends (fst_mem_of_mem_entries hc)
        refine ⟨he', h.lt_effective he' (h.lt_number_of_below hb hr hc), ?_⟩
        exact .inr (.inr ⟨root.data, hradd, ⟨hrh ▸ ha, hlt⟩, hrh ▸ hh ▸ hd⟩)
  refine ⟨fun e he => h.entry e (hsound e he).1, fun e he => (hsound e he).2.1,
    fun e he => (hsound e he).2.2, fun c hc hp => ?_⟩
  have he := h.kept c hc (hp.of_block hb)
  rcases hp with hd | ha | ⟨a, had, ha, hd⟩
  · obtain ⟨root, hr, hre⟩ := mem_entries.mp he
    refine mem_entries_filter.mpr ⟨root, hr, ?_, hre⟩
    rcases (h.atOrAbove_of_mem hr hre).chain (.inr hd) with hrb | hrb
    · exact .inr hrb
    · exact .inl hrb
  · obtain ⟨root, hr, hre⟩ := mem_entries.mp he
    exact mem_entries_filter.mpr
      ⟨root, hr, .inr ((h.atOrAbove_of_mem hr hre).trans ha.1), hre⟩
  · obtain ⟨root, hr, hh, rfl⟩ := h.root_of_awaiting hb had ha
    refine mem_entries_filter.mpr ⟨root, hr, .inr (hh ▸ ha.1), ?_⟩
    exact h.mirrored.mem_entries_of_atOrAbove hr he (.inr (hh ▸ hd))

theorem holdsPending_of_root (h : Invariant A start p) (hb : p.Finalizable A block)
    (hr : root ∈ p.tree.roots) (hroot : root.data.effectiveNumber = A.numberOf block)
    (ha : A.AtOrAbove root.hash block) :
    HoldsPending A p.added block (root.children.filter fun node => A.Retains block node) := by
  -- All that is below the root is signalled after the block, so a branch is kept if it is below it.
  have hnum (e) (he : e ∈ entries root.children) := h.lt_number_of_below hb hr he
  have hsound (e) (he : e ∈ entries (root.children.filter fun node => A.Retains block node)) :
      e ∈ entries p.tree.roots ∧ A.isDescendentOf block e.1 := by
    obtain ⟨child, hc, hret, he⟩ := mem_entries_filter.mp he
    have hm := (h.mirrored.trees root hr).children.trees child hc
    refine ⟨mem_entries.mpr ⟨root, hr,
      mem_entries_singleton.mpr (.inr (mem_entries.mpr ⟨child, hc, he⟩))⟩, ?_⟩
    rcases hret with hd | hat
    · rcases hm.atOrAbove he with hce | hce
      · exact hce ▸ hd
      · exact A.trans hd hce
    · have hlt := hnum _ (mem_entries_of_mem (mem_nodesAll_of_root hc))
      exact absurd hat.number_le (not_le.mpr hlt)
  -- No change of the chain waits for a later block.
  have hnone (a) (had : a ∈ p.added) : ¬Awaiting A block a := by
    intro hw
    obtain ⟨root', hr', hh', rfl⟩ := h.root_of_awaiting hb had hw
    cases h.mirrored.root_unique hr hr' ha (hh' ▸ hw.1)
    exact absurd hroot hw.2.ne'
  refine ⟨fun e he => h.entry e (hsound e he).1,
    fun e he => h.lt_effective (hsound e he).1 (A.number_lt (hsound e he).2),
    fun e he => .inl ((h.entry e (hsound e he).1).2 ▸ (hsound e he).2), fun c hc hp => ?_⟩
  have he := h.kept c hc (hp.of_block hb)
  rcases hp with hd | hw | ⟨a, had, hw, -⟩
  · have hrc := h.mirrored.mem_entries_of_atOrAbove hr he (ha.trans (.inr hd))
    rcases mem_entries_singleton.mp hrc with heq | hrc
    · have hlt := A.number_lt hd
      rw [show c.canonHash = root.hash from congrArg Prod.fst heq] at hlt
      exact absurd ha.number_le (not_le.mpr hlt)
    · obtain ⟨child, hch, hce⟩ := mem_entries.mp hrc
      have hm := (h.mirrored.trees root hr).children.trees child hch
      refine mem_entries_filter.mpr ⟨child, hch, ?_, hce⟩
      rcases (hm.atOrAbove hce).chain (.inr hd) with hcb | hcb
      · have hlt := hnum _ (mem_entries_of_mem (mem_nodesAll_of_root hch))
        exact absurd hcb.number_le (not_le.mpr hlt)
      · exact .inl hcb
  · exact absurd hw (hnone c hc)
  · exact absurd hw (hnone a had)

end Kept

section Steps

variable [DecidableEq H] {change : PendingChange I H Nat}

-- What a finalized block does to the invariant and to the pending tree.
theorem Invariant.finalize (h : Invariant A start p) (hb : p.Finalizable A block) :
    Invariant A start (p.finalizeBlock E A block) ∧
      HoldsPending A p.added block (p.finalizeBlock E A block).tree.roots := by
  cases h.applied_spec (E := E) hb
  case inl hs =>
    obtain ⟨root, hr, hroot, ha, hs⟩ := hs
    have hk := holdsPending_of_root h hb hr hroot ha
    have he := enactedInOrder_of_root h hb hr hroot ha (p.applied E A block).2
    have hm := (h.mirrored.trees root hr).children.sublist
      (List.filter_sublist (p := fun node => decide (A.Retains block node)))
    rw [finalizeBlock, hs] at *
    exact ⟨⟨h.signalled, h.noForced, hm, hk.entry, hk.notPast, hk.complete, .inl rfl, he⟩, hk⟩
  case inr hs =>
    obtain ⟨hn, status, hnone, hs⟩ := hs
    have hk := holdsPending_of_none h hb hn
    have he := enactedInOrder_of_none h hb hn (p.applied E A block).2
    have hm := h.mirrored.sublist
      (List.filter_sublist (p := fun node => decide (A.Retains block node)))
    have hrec : recordOf E (p.applied E A block).2 (p.applied E A block).1 = [] := by
      rw [hs, recordOf, hnone]
      rfl
    rw [finalizeBlock, hrec, List.append_nil, hs] at *
    exact ⟨⟨h.signalled, h.noForced, hm, hk.entry, hk.notPast, hk.complete, .inl rfl, he⟩, hk⟩

theorem addPendingChange_eq_ok (hc : p.Addable A start change)
    (h : (p.set.addPendingChange (A.query E) change).1 = .ok ()) :
    ∃ isRoot t, p.tree.importNode change.canonHash (A.numberOf change.canonHash)
      (A.query E) change = (.ok isRoot, t) ∧
      (p.set.addPendingChange (A.query E) change).2 =
        { p.set with pendingStandardChanges := t } := by
  rw [AuthoritySet.addPendingChange] at h ⊢
  split_ifs at h ⊢
  case neg =>
    simp only [hc.standard, AuthoritySet.addStandardChange, hc.height] at h ⊢
    rcases hi : p.tree.importNode change.canonHash (A.numberOf change.canonHash)
      (A.query E) change with
      ⟨_ | isRoot, t⟩
    case error =>
      rw [hi] at h
      cases h
    case ok =>
      exact ⟨isRoot, t, rfl, rfl⟩

omit [DecidableEq H] in
theorem Signalled.append (h : Signalled A p.added) (hc : p.Addable A start change) :
    Signalled A (p.added ++ [change]) := by
  constructor
  all_goals simp only [mem_append, mem_singleton]
  case height =>
    rintro c (hm | rfl)
    · exact h.height c hm
    · exact hc.height
  case unique =>
    rintro c (hm | rfl) c' (hm' | rfl) he
    · exact h.unique c hm c' hm' he
    · exact absurd he (hc.fresh c hm)
    · exact absurd he.symm (hc.fresh c' hm')
    · rfl
  case separate =>
    rintro c (hm | rfl) c' (hm' | rfl) hd
    · exact h.separate c hm c' hm' hd
    · exact hc.separate c hm hd
    · exact absurd hd (hc.inOrder c' hm')
    · exact absurd hd (A.irrefl _)

-- A new change has none below it, so no other change becomes pending by it.
omit [DecidableEq H] in
theorem Pending.of_append {c : PendingChange I H Nat} (hc : p.Addable A start change)
    (hm : c ∈ p.added) (h : Pending A (p.added ++ [change]) block c) :
    Pending A p.added block c := by
  rcases h with hd | ha | ⟨a, had, ha, hd⟩
  · exact .inl hd
  · exact .inr (.inl ha)
  · rcases mem_append.mp had with had | had
    · exact .inr (.inr ⟨a, had, ha, hd⟩)
    · cases mem_singleton.mp had
      exact absurd hd (hc.inOrder c hm)

theorem Invariant.add (h : Invariant A start p) (hc : p.Addable A start change)
    (hok : (p.set.addPendingChange (A.query E) change).1 = .ok ()) :
    Invariant A start (p.addChange E A change) := by
  obtain ⟨isRoot, t, hi, hs⟩ := addPendingChange_eq_ok hc hok
  obtain ⟨hp, hb, hrev⟩ := importNode_entries hi
  have hsub (a) (ha : a ∈ hashesAll p.tree.roots) : ∃ c ∈ p.added, c.canonHash = a := by
    rw [hashesAll_eq] at ha
    obtain ⟨node, hn, rfl⟩ := List.mem_map.mp ha
    obtain ⟨hm, hh⟩ := h.entry _ (mem_entries_of_mem hn)
    exact ⟨node.data, hm, hh.symm⟩
  have hnew : change.canonHash ∉ hashesAll p.tree.roots := by
    intro hm
    obtain ⟨c, hca, hch⟩ := hsub _ hm
    exact hc.fresh c hca hch
  have hmir : A.MirroredForest t.roots := by
    rcases importNode_of_not_mem (E := E) h.mirrored hnew (fun a ha hd => by
      obtain ⟨c, hca, rfl⟩ := hsub a ha
      exact hc.inOrder c hca hd) change with he | ⟨_, _, he, hm, -⟩
    · rw [he] at hi
      cases hi
    · rw [he] at hi
      cases hi
      exact hm
  have hmem (e) : e ∈ entries t.roots ↔ e = (change.canonHash, change) ∨
      e ∈ entries p.tree.roots := by
    rw [hp.mem_iff, List.mem_cons]
  -- The tree refuses what is not above the last finalized block.
  have hpast : A.numberOf p.last < change.effectiveNumber := by
    rcases h.best with hbest | ⟨-, hstart⟩
    · have hlt : A.numberOf p.last < change.canonHeight := by
        rw [hc.height]
        simpa [reverts, hbest] using hrev
      exact hlt.trans_le (Nat.le_add_right ..)
    · exact hstart ▸ hc.effective
  have hadd : p.addChange E A change =
      { p with
        set := { p.set with pendingStandardChanges := t }, added := p.added ++ [change] } := by
    rw [addChange, hs]
  rw [hadd]
  refine ⟨h.signalled.append hc, h.noForced, hmir, fun e he => ?_,
    fun e he => ?_, fun c hm hpd => ?_, hb ▸ h.best, ?_⟩
  · rcases (hmem e).mp he with rfl | he
    · exact ⟨by simp, rfl⟩
    · exact (h.entry e he).imp_left (List.mem_append_left _)
  · rcases (hmem e).mp he with rfl | he
    · exact hpast
    · exact h.notPast e he
  · apply (hmem _).mpr
    rcases mem_append.mp hm with hm | hm
    · exact .inr (h.kept c hm (hpd.of_append hc hm))
    · cases mem_singleton.mp hm
      exact .inl rfl
  · obtain ⟨changes, he, ho, hiff, hat⟩ := h.enacted
    refine ⟨changes, he, ho, fun c => (hiff c).trans ⟨?_, ?_⟩, hat⟩
    · rintro ⟨hm, ha, hn⟩
      exact ⟨List.mem_append_left _ hm, ha, hn⟩
    · rintro ⟨hm, ha, hn⟩
      rcases mem_append.mp hm with hm | hm
      · exact ⟨hm, ha, hn⟩
      · cases mem_singleton.mp hm
        exact absurd hn (not_le.mpr hpast)

theorem Run.invariant (h : Run E A start p) : Invariant A start p := by
  induction h
  case genesis initial set hg =>
    rw [AuthoritySet.genesis] at hg
    split_ifs at hg
    cases hg
    refine ⟨⟨by simp, by simp, by simp⟩, rfl, .nil, ?_, ?_, by simp, .inr ⟨rfl, rfl⟩,
      ⟨[], rfl, .nil, by simp, by simp⟩⟩
    all_goals exact fun e he => nomatch he
  case add hc hok hi => exact hi.add hc hok
  case finalize hb hi => exact (hi.finalize hb).1

end Steps

section Result

variable [DecidableEq H]

-- The standard changes of the finalized chain are enacted in order, each at its effective block.
-- Every next block is finalized without an error, it enacts a change if and only if
-- `enacts_standard_change` says so, and it leaves exactly the pending changes.
theorem standard_changes_in_order (h : Run E A start p) :
    EnactedInOrder A p ∧ ∀ block, p.Finalizable A block →
      (∃ status, (p.applied E A block).1 = .ok status ∧
        (p.set.enactsStandardChange (A.query E) block (A.numberOf block) = .ok (some true) ↔
          status.newSetBlock.isSome)) ∧
      EnactedInOrder A (p.finalizeBlock E A block) ∧
      ∀ e, e ∈ entries (p.finalizeBlock E A block).tree.roots ↔
        e.1 = e.2.canonHash ∧ e.2 ∈ p.added ∧ Pending A p.added block e.2 := by
  have hi := h.invariant
  refine ⟨hi.enacted, fun block hb => ⟨?_, (hi.finalize hb).1.enacted, fun e => ?_⟩⟩
  · rw [hi.enacts_eq hb]
    cases hi.applied_spec (E := E) hb
    case inl hs =>
      obtain ⟨root, hr, hroot, ha, hs⟩ := hs
      refine ⟨_, congrArg Prod.fst hs, ?_⟩
      rw [if_pos ⟨root, hr, hroot, ha⟩]
      simp
    case inr hs =>
      obtain ⟨hn, status, hnone, hs⟩ := hs
      refine ⟨status, congrArg Prod.fst hs, ?_⟩
      rw [if_neg fun ⟨root, hr, hroot, ha⟩ => (hn root hr ha).ne' hroot, hnone]
      simp
  · have hk := (hi.finalize (E := E) hb).2
    constructor
    · intro he
      exact ⟨(hk.entry e he).2, (hk.entry e he).1, hk.pending e he⟩
    · rintro ⟨hh, hc, hp⟩
      have he := hk.complete e.2 hc hp
      rwa [← hh] at he

end Result

def forkedChains : Ancestry (Bool × Nat) Nat where
  isDescendentOf a b :=
    a.2 < b.2 ∧ (if a.1 then b.1 ∧ 3 ≤ a.2 else b.1 = false ∨ a.2 < 3)
  numberOf a := a.2
  trans h h' := by grind
  chain h h' := by grind
  number_lt h := by grind

def sampleChange (hash : Bool × Nat) (delay : Nat) : PendingChange Nat (Bool × Nat) Nat where
  nextAuthorities := [(hash.2, 1)]
  delay := delay
  canonHeight := hash.2
  canonHash := hash
  delayKind := .finalized

-- A change before the fork, effective at block 12, and one on the second chain after that.
def sampleProgress : Progress Nat (Bool × Nat) :=
  let p : Progress Nat (Bool × Nat) :=
    { set := { currentAuthorities := [(0, 1)] }, last := (false, 0) }
  let p := p.addChange Empty forkedChains (sampleChange (false, 2) 10)
  p.addChange Empty forkedChains (sampleChange (true, 13) 0)

theorem sampleProgress_run : Run Empty forkedChains (false, 0) sampleProgress := by
  have hg : Run Empty forkedChains (false, 0)
      { set := { currentAuthorities := [((0 : Nat), 1)] }, last := (false, 0) } :=
    .genesis (rfl : AuthoritySet.genesis [(0, 1)] = some _)
  have h1 := hg.add (sampleChange (false, 2) 10)
    ⟨rfl, rfl, by decide, by decide, by decide, by decide⟩ rfl
  exact h1.add (sampleChange (true, 13) 0)
    ⟨rfl, rfl, by decide, by decide, by decide, by decide⟩ rfl

theorem sampleProgress_finalizable : sampleProgress.Finalizable forkedChains (false, 5) :=
  ⟨rfl, by decide⟩

theorem sampleProgress_in_order :
    ∃ p : Progress Nat (Bool × Nat), Run Empty forkedChains (false, 0) p ∧
      p.enacted = [(((false, 12), 12), [(2, 1)])] ∧ EnactedInOrder forkedChains p := by
  have h := sampleProgress_run.finalize (false, 5) sampleProgress_finalizable
  have h := h.finalize (false, 12) ⟨rfl, by decide⟩
  exact ⟨_, h, rfl, (standard_changes_in_order h).1⟩

-- The tree keeps a change of the second chain while the one before the fork is not effective,
-- although the first chain is finalized past the fork.
theorem sampleProgress_keeps_fork :
    ∃ p : Progress Nat (Bool × Nat), ∃ block, ∃ e, Run Empty forkedChains (false, 0) p ∧
      p.Finalizable forkedChains block ∧
      e ∈ entries (p.finalizeBlock Empty forkedChains block).tree.roots ∧
      ¬forkedChains.isDescendentOf block e.1 ∧ ¬forkedChains.AtOrAbove e.1 block :=
  ⟨sampleProgress, (false, 5), ((true, 13), sampleChange (true, 13) 0), sampleProgress_run,
    sampleProgress_finalizable, by decide, by decide, by decide⟩

end Progress
end Grandpa
