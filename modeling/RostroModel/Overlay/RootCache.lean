import RostroModel.Overlay.Lockstep

namespace Overlay

open Std OverlayedMap OverlayedChangeSet

variable {Hash Transaction Error : Type} {codec : CompactCodec} {sh : Shape}

-- The dirty sets of the transactions that were opened since the runtime was entered.
def OverlayedMap.runtimeDirtyKeys {K V : Type} [Ord K] (m : OverlayedMap K V) :
    List (ExtTreeSet K) :=
  m.dirtyKeys.take (m.dirtyKeys.length - m.numClientTransactions)

namespace OverlayedChanges

-- Leaving the runtime now would not undo a write.
def NothingToRollBack (s : OverlayedChanges Hash Transaction) : Prop :=
  (∀ d ∈ s.top.runtimeDirtyKeys, d = ∅) ∧
    ∀ (k : StorageKey) child, s.children[k]? = some child → ∀ d ∈ child.1.runtimeDirtyKeys, d = ∅

-- The operations which do not reset the cache although they may have to, and when they need not.
def Guarded (s : OverlayedChanges Hash Transaction) : ChangesOp → Prop
  | .appendStorage .. => s.storageTransactionCache = none
  | .exitRuntime => s.storageTransactionCache = none ∨ s.NothingToRollBack
  | .drainStorageChanges v =>
    ∀ cache, s.storageTransactionCache = some cache → cache.stateVersion = v
  | _ => True

def GuardedRun (codec : CompactCodec) (backend : Backend Hash Transaction Error)
    (s : OverlayedChanges Hash Transaction) : List ChangesOp → Prop
  | [] => True
  | op :: ops =>
    s.Guarded op ∧ ∀ s', s.step codec backend op = .ok s' → GuardedRun codec backend s' ops

-- What the cache holds is the root of what is visible.
def Coherent (codec : CompactCodec) (backend : Backend Hash Transaction Error)
    (s : OverlayedChanges Hash Transaction) : Prop :=
  ∀ cache, s.storageTransactionCache = some cache →
    (cache.transactionStorageRoot, cache.transaction) =
      s.visibleRoot codec backend cache.stateVersion

-- Neither the cache nor what is visible has changed.
structure Unchanged (codec : CompactCodec) (s s' : OverlayedChanges Hash Transaction) : Prop where
  cache : s'.storageTransactionCache = s.storageTransactionCache
  top : visible codec s'.top = visible codec s.top
  children : s'.childDeltas codec = s.childDeltas codec

end OverlayedChanges

open OverlayedChanges

namespace InStep

variable {m m' : OverlayedChangeSet}

theorem visible_commit (h : InStep (Represents codec) sh m)
    (hm : OverlayedChangeSet.commitTransaction codec m = .ok (.ok m')) :
    visible codec m' = visible codec m := by
  by_cases hc : sh.canClose
  case neg => exact absurd (hm.symm.trans (h.close_error hc false)) (by simp)
  case pos =>
    obtain ⟨⟨l, ht⟩, rfl⟩ := h
    obtain ⟨m1, hm1, ht1, -⟩ := ht.commit closing_lawful hc.1 (hasOpen_of_canClose hc)
    cases hm.symm.trans hm1
    exact visible_congr ht ht1 fun _ => Layers.current_commit

theorem visible_enterRuntime (hm : (pure m.enterRuntime : Except Panic _) = .ok (.ok m')) :
    visible codec m' = visible codec m := by
  unfold OverlayedMap.enterRuntime at hm
  split at hm <;> cases hm
  rfl

theorem visible_exitRuntime (h : InStep (Represents codec) sh m)
    (hd : ∀ d ∈ m.runtimeDirtyKeys, d = ∅)
    (hm : OverlayedChangeSet.exitRuntime codec m = .ok (.ok m')) :
    visible codec m' = visible codec m := by
  cases hc : sh.executionMode
  case client => exact absurd (hm.symm.trans (h.exitRuntime_error hc)) (by simp)
  case runtime =>
    obtain ⟨⟨l, ht⟩, rfl⟩ := h
    obtain ⟨m1, hm1, ht1, -⟩ := ht.exitRuntime closing_lawful hc
    cases hm.symm.trans hm1
    refine visible_congr ht ht1 fun k => Layers.current_rollbackTo fun t hto => ?_
    have hf := List.forall₂_take (l.depth - m.numClientTransactions) ht.dirty
    obtain ⟨i, hi, rfl⟩ := List.getElem_of_mem hto
    have hi' := hf.length_eq.symm ▸ hi
    have hk := List.Forall₂.get hf hi' hi k
    have he := hd _ (by
      rw [OverlayedMap.runtimeDirtyKeys, ht.dirty.length_eq]
      exact List.get_mem _ ⟨i, hi'⟩)
    rw [he] at hk
    simpa using hk

end InStep

namespace OverlayedChanges

variable {s s' : OverlayedChanges Hash Transaction} {backend : Backend Hash Transaction Error}

theorem Coherent.of_unchanged (hc : s.Coherent codec backend) (h : Unchanged codec s s') :
    s'.Coherent codec backend := by
  intro cache hca
  rw [visibleRoot, h.top, h.children]
  exact hc cache (h.cache ▸ hca)

theorem Coherent.of_none (h : s.storageTransactionCache = none) : s.Coherent codec backend :=
  fun _ hc => absurd (h.symm.trans hc) (by simp)

theorem Unchanged.of_follows {ε : Type}
    {onChangeSet : OverlayedChangeSet → Except Panic (Except ε OverlayedChangeSet)}
    (hf : Lockstep.Follows onChangeSet (fun _ => true) s s')
    (ht : ∀ m, onChangeSet s.top = .ok (.ok m) → visible codec m = visible codec s.top)
    (hc : ∀ (k : StorageKey) child m, s.children[k]? = some child →
      onChangeSet child.1 = .ok (.ok m) → visible codec m = visible codec child.1) :
    Unchanged codec s s' := by
  refine ⟨hf.cache, ht _ hf.top, ExtTreeMap.ext_getElem? fun k => ?_⟩
  rw [childDeltas, childDeltas, ExtTreeMap.getElem?_map, ExtTreeMap.getElem?_map]
  cases hk : s.children[k]?
  case none => rw [hf.absent k hk]
  case some child =>
    obtain ⟨m, hm, hs⟩ := hf.present k child hk
    rw [hs, if_pos rfl, Option.map_some, Option.map_some, hc k child m hk hm]

theorem Unchanged.startTransaction : Unchanged codec s s.startTransaction := by
  refine ⟨rfl, rfl, ?_⟩
  rw [childDeltas, OverlayedChanges.startTransaction, ExtTreeMap.map_map]
  rfl

end OverlayedChanges

namespace Lockstep

variable {s : OverlayedChanges Hash Transaction} {backend : Backend Hash Transaction Error}

variable (h : Lockstep False codec sh s)
include h

-- An operation that meets its condition keeps the cache coherent.
theorem coherent_step (hc : s.Coherent codec backend) (hg : s.Guarded op) :
    ∃ s' sh', s.step codec backend op = .ok s' ∧ Lockstep False codec sh' s' ∧
      s'.Coherent codec backend := by
  suffices hs : ∃ s', s.step codec backend op = .ok s' ∧ s'.Coherent codec backend by
    obtain ⟨s1, hs1, hc1⟩ := hs
    obtain ⟨s2, sh2, hs2, hl2⟩ := h.step backend op (nomatch ·)
    cases hs1.symm.trans hs2
    exact ⟨s1, sh2, hs1, hl2, hc1⟩
  have hmap {α : Type} {r : Except Panic (α × OverlayedChanges Hash Transaction)} {a s'}
      (hr : r = .ok (a, s')) (hl : s'.Coherent codec backend) :
      ∃ s', (do return (← r).2) = Except.ok s' ∧ s'.Coherent codec backend :=
    ⟨s', by rw [hr]; rfl, hl⟩
  cases op
  case setCollectExtrinsics => exact ⟨_, rfl, hc.of_unchanged ⟨rfl, rfl, rfl⟩⟩
  case storage key =>
    obtain ⟨v, top, hs, -, hv⟩ := h.storage key
    exact hmap hs (hc.of_unchanged ⟨rfl, hv, rfl⟩)
  case childStorage childInfo key =>
    obtain ⟨v, children, hs, -, hv⟩ := h.childStorage childInfo key
    exact hmap hs (hc.of_unchanged ⟨rfl, rfl, hv⟩)
  case setStorage key val =>
    obtain ⟨s', hs, -, hn⟩ := h.setStorage key val
    exact ⟨s', hs, .of_none hn⟩
  case appendStorage key element init =>
    obtain ⟨s', hs, -, hn⟩ := h.appendStorage key element init
    exact ⟨s', hs, .of_none (hn.trans hg)⟩
  case setChildStorage childInfo key val =>
    obtain ⟨_, s', hs, -, hn⟩ := h.setChildStorage childInfo key val
    exact hmap hs (.of_none hn)
  case clearChildStorage childInfo =>
    obtain ⟨_, s', hs, -, hn⟩ := h.clearChildStorage childInfo
    exact hmap hs (.of_none hn)
  case clearPrefix pre =>
    obtain ⟨_, s', hs, -, hn⟩ := h.clearPrefix pre
    exact hmap hs (.of_none hn)
  case clearChildPrefix childInfo pre =>
    obtain ⟨_, s', hs, -, hn⟩ := h.clearChildPrefix childInfo pre
    exact hmap hs (.of_none hn)
  case setOffchainStorage key value =>
    obtain ⟨s', hs, -, he⟩ := h.setOffchainStorage key value
    refine ⟨s', hs, ?_⟩
    rw [he]
    exact hc.of_unchanged ⟨rfl, rfl, rfl⟩
  case startTransaction => exact ⟨_, rfl, hc.of_unchanged .startTransaction⟩
  case commitTransaction =>
    obtain ⟨_, s', sh', hs, -, rfl | hf⟩ := h.commitTransaction
    case inl => exact hmap hs hc
    case inr =>
      exact hmap hs (hc.of_unchanged (.of_follows hf (fun _ => h.top.visible_commit)
        fun k child _ hk => (h.children k child hk).1.visible_commit))
  case rollbackTransaction =>
    obtain ⟨_, s', sh', hs, -, hn⟩ := h.rollbackTransaction
    exact hmap hs (.of_none hn)
  case enterRuntime =>
    obtain ⟨_, s', sh', hs, -, rfl | hf⟩ := h.enterRuntime
    case inl => exact hmap hs hc
    case inr =>
      exact hmap hs (hc.of_unchanged (.of_follows hf (fun _ => InStep.visible_enterRuntime)
        fun _ _ _ _ => InStep.visible_enterRuntime))
  case exitRuntime =>
    obtain ⟨_, s', sh', hs, -, rfl | hf⟩ := h.exitRuntime
    case inl => exact hmap hs hc
    case inr =>
      obtain hn | ⟨ht, hch⟩ := hg
      case inl => exact hmap hs (.of_none (hf.cache.trans hn))
      case inr =>
        exact hmap hs (hc.of_unchanged (.of_follows hf (fun _ => h.top.visible_exitRuntime ht)
          fun k child _ hk => (h.children k child hk).1.visible_exitRuntime (hch k child hk)))
  case storageRoot v =>
    by_cases hv : ∃ cache, s.storageTransactionCache = some cache ∧ cache.stateVersion = v
    case pos =>
      obtain ⟨cache, hca, hv⟩ := hv
      exact hmap (storageRoot_of_cached backend hca hv) hc
    case neg =>
      obtain ⟨s', hs, -, ht, hch, hca⟩ := h.storageRoot_of_not_cached (v := v) backend
        fun cache hca he => hv ⟨cache, hca, he⟩
      have hr : s'.visibleRoot codec backend v = s.visibleRoot codec backend v := by
        rw [visibleRoot, visibleRoot, ht, hch]
      refine hmap hs fun cache hca' => ?_
      cases hca.symm.trans hca'
      exact hr.symm
  case childStorageRoot childInfo v =>
    obtain ⟨_, s', hs, -, hn | ⟨top, rfl, hv⟩⟩ := h.childStorageRoot backend childInfo v
    case inl => exact hmap hs (.of_none hn)
    case inr => exact hmap hs (hc.of_unchanged ⟨rfl, hv, rfl⟩)
  case drainStorageChanges v =>
    rw [OverlayedChanges.step]
    by_cases hd : s.transactionDepth = 0
    case neg => exact ⟨s, by rw [if_neg hd]; rfl, hc⟩
    case pos =>
      obtain ⟨_, s', hs, -, hn, -⟩ :=
        h.drainStorageChanges backend (h.top.shape ▸ hd : sh.depth = 0) v
      rw [if_pos hd]
      exact hmap hs (.of_none hn)
  case offchainDrainCommitted =>
    rw [OverlayedChanges.step]
    by_cases hd : s.transactionDepth = 0 ∧ s.top.executionMode = .client
    case neg => exact ⟨s, by rw [if_neg hd]; rfl, hc⟩
    case pos =>
      obtain ⟨_, hs⟩ := offchainDrainCommitted h.offchain
      rw [if_pos hd]
      exact hmap hs (hc.of_unchanged ⟨rfl, rfl, rfl⟩)

theorem coherent_run (hc : s.Coherent codec backend) (hg : s.GuardedRun codec backend ops) :
    ∃ s' sh', s.run codec backend ops = .ok s' ∧ Lockstep False codec sh' s' ∧
      s'.Coherent codec backend := by
  induction ops generalizing s sh
  case nil => exact ⟨s, sh, rfl, h, hc⟩
  case cons op ops hi =>
    obtain ⟨s1, sh1, hs1, h1, hc1⟩ := h.coherent_step hc hg.1
    obtain ⟨s2, sh2, hs2, h2⟩ := hi h1 hc1 (hg.2 s1 hs1)
    exact ⟨s2, sh2, by rw [OverlayedChanges.run, List.foldlM_cons, hs1]; exact hs2, h2⟩

theorem storageRoot_eq (hc : s.Coherent codec backend) (v : StateVersion) :
    ∃ cached s', s.storageRoot codec backend v =
      .ok (((s.visibleRoot codec backend v).1, cached), s') := by
  by_cases hv : ∃ cache, s.storageTransactionCache = some cache ∧ cache.stateVersion = v
  case pos =>
    obtain ⟨cache, hca, rfl⟩ := hv
    refine ⟨true, s, ?_⟩
    rw [storageRoot_of_cached backend hca rfl, ← hc cache hca]
  case neg =>
    obtain ⟨s', hs, -⟩ := h.storageRoot_of_not_cached (v := v) backend
      fun cache hca he => hv ⟨cache, hca, he⟩
    exact ⟨false, s', hs⟩

-- A child is stored under its own key, so the drained changes tell which child they belong to.
theorem childDeltas_toList : (s.childDeltas codec).toList.map (·.2) =
    ((s.childDeltas codec).map fun _ r => r.2).toList.map fun change => (⟨change.1⟩, change.2) := by
  rw [ExtTreeMap.toList_map, List.map_map]
  refine List.map_congr_left fun ⟨k, info, delta⟩ hm => ?_
  rw [ExtTreeMap.mem_toList_iff_getElem?_eq_some, childDeltas, ExtTreeMap.getElem?_map,
    Option.map_eq_some_iff] at hm
  obtain ⟨child, hk, he⟩ := hm
  cases he
  cases (h.children k child hk).2
  rfl

theorem drain_root (hc : s.Coherent codec backend) (hd : sh.depth = 0)
    (hg : s.Guarded (.drainStorageChanges v)) :
    ∃ r s', s.drainStorageChanges codec backend v = .ok (r, s') ∧
      r.mainStorageChanges = visible codec s.top ∧
      r.transactionStorageRoot = (backend.fullStorageRoot r.mainStorageChanges
        (r.childStorageChanges.map fun change => (⟨change.1⟩, change.2)) v).1 := by
  obtain ⟨r, s', hs, -, -, hm, hch, hr⟩ := h.drainStorageChanges backend hd v
  refine ⟨r, s', hs, hm, ?_⟩
  rw [hr, hm, hch, ← h.childDeltas_toList]
  cases hca : s.storageTransactionCache
  case none => rfl
  case some cache =>
    have := hc cache hca
    rw [hg cache hca] at this
    exact congrArg Prod.fst this

end Lockstep

def transparentBackend : Backend (Delta × List (ChildInfo × Delta) × StateVersion) Unit Unit where
  storage _ := .ok none
  fullStorageRoot delta children v := ((delta, children, v), ())
  childStorageRoot childInfo delta v := (([], [(childInfo, delta)], v), delta.isEmpty, ())
  encodeRoot _ := []
  decodeRoot _ := none
  emptyChildTrieRoot := ([], [], .v1)

-- If no append and no leaving of the runtime meets a cache that it makes stale, then the cache is
-- coherent in all states, `storage_root` returns the root of what is visible, and a drain returns
-- the root of what it drains.
theorem storageRoot_coherent_of_guarded {Hash Transaction Error : Type} (codec : CompactCodec)
    (backend : Backend Hash Transaction Error) (ops : List ChangesOp)
    (hg : GuardedRun codec backend {} ops) :
    ∃ s, OverlayedChanges.run codec backend {} ops = .ok s ∧ s.Coherent codec backend ∧
      (∀ v, ∃ cached s', s.storageRoot codec backend v =
        .ok (((s.visibleRoot codec backend v).1, cached), s')) ∧
      ∀ v, s.transactionDepth = 0 → s.Guarded (.drainStorageChanges v) →
        ∃ r s', s.drainStorageChanges codec backend v = .ok (r, s') ∧
          r.mainStorageChanges = visible codec s.top ∧
          r.transactionStorageRoot = (backend.fullStorageRoot r.mainStorageChanges
            (r.childStorageChanges.map fun change => (⟨change.1⟩, change.2)) v).1 := by
  obtain ⟨s, sh, hs, h, hc⟩ := Lockstep.default.coherent_run (.of_none rfl) hg
  exact ⟨s, hs, hc, h.storageRoot_eq hc, fun v hd hg =>
    h.drain_root hc (h.top.shape ▸ hd : sh.depth = 0) hg⟩

-- A write and an append in a transaction of the runtime that is committed, with a root
-- before the runtime is left.
theorem storageRoot_coherent_of_append : ∃ s, OverlayedChanges.run .scale transparentBackend {}
      [.enterRuntime, .startTransaction, .setStorage [1] (some [0]),
        .appendStorage [1] [2] fun _ => [],
        .commitTransaction, .storageRoot .v1, .exitRuntime] = .ok s ∧
    s.Coherent .scale transparentBackend := by
  obtain ⟨s, hs, hc, -⟩ := storageRoot_coherent_of_guarded .scale transparentBackend
    [.enterRuntime, .startTransaction, .setStorage [1] (some [0]),
      .appendStorage [1] [2] fun _ => [], .commitTransaction, .storageRoot .v1, .exitRuntime] (by
    refine ⟨trivial, fun _ h₁ => ⟨trivial, fun _ h₂ => ⟨trivial, fun _ h₃ => ⟨?_, fun _ h₄ =>
      ⟨trivial, fun _ h₅ => ⟨trivial, fun _ h₆ => ⟨.inr ?_, fun _ _ => trivial⟩⟩⟩⟩⟩⟩⟩
    all_goals
      cases h₁.symm.trans (rfl : _ = Except.ok _)
      cases h₂.symm.trans (rfl : _ = Except.ok _)
      cases h₃.symm.trans (rfl : _ = Except.ok _)
    · rfl
    · cases h₄.symm.trans (rfl : _ = Except.ok _)
      cases h₅.symm.trans (rfl : _ = Except.ok _)
      cases h₆.symm.trans (rfl : _ = Except.ok _)
      exact ⟨fun d hd => absurd hd List.not_mem_nil, fun k child hk =>
        absurd (hk.symm.trans ExtTreeMap.getElem?_empty) (by simp)⟩)
  exact ⟨s, hs, hc⟩

-- The root that `storage_root` returns after some operations, and the root of what is visible then.
def rootsAfter (ops : List ChangesOp) (v : StateVersion) :=
  (do
    let s ← OverlayedChanges.run .scale transparentBackend {} ops
    let ((root, _), _) ← s.storageRoot .scale transparentBackend v
    return (root, (s.visibleRoot .scale transparentBackend v).1) : Except Panic _)

def drainedRoot (ops : List ChangesOp) (v : StateVersion) :=
  (do
    let s ← OverlayedChanges.run .scale transparentBackend {} ops
    let (changes, _) ← s.drainStorageChanges .scale transparentBackend v
    return (changes.transactionStorageRoot, changes.mainStorageChanges) : Except Panic _)

-- An append after a root was computed, leaving the runtime with a transaction open in which a root
-- was computed, and a drain for another version.
theorem storageRoot_stale :
    rootsAfter [.storageRoot .v1, .appendStorage [1] [2] fun _ => []] .v1 =
      .ok (([], [], .v1), ([([1], some [4, 2])], [], .v1)) ∧
    rootsAfter [.enterRuntime, .startTransaction, .setStorage [1] (some [2]), .storageRoot .v1,
        .exitRuntime] .v1 =
      .ok (([([1], some [2])], [], .v1), ([], [], .v1)) ∧
    drainedRoot [.setStorage [1] (some [2]), .storageRoot .v0] .v1 =
      .ok (([([1], some [2])], [], .v0), [([1], some [2])]) := by
  exact ⟨rfl, rfl, rfl⟩

end Overlay
