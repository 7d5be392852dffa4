import RostroModel.Overlay.Laws
import RostroModel.Overlay.Reference

namespace Overlay

open Std OverlayedMap

variable {codec : CompactCodec}

theorem OverlayedEntry.value_eq {e : OverlayedValue} (h : e.transactions ≠ []) :
    e.value codec = .ok (OverlayedChangeSet.observed codec e, e.materialized codec) := by
  obtain ⟨_ | ⟨t, ts⟩⟩ := e
  case nil => exact absurd rfl h
  case cons => rfl

theorem EntryTracks.materialized {vs} (h : EntryTracks (Represents codec) (some e) vs) :
    EntryTracks (Represents codec) (some (e.materialized codec)) vs := by
  obtain ⟨_ | ⟨t, ts⟩⟩ := e
  case nil => exact h
  case cons => exact ⟨h.1, Represents.materialize h.2⟩

namespace Tracks

variable {m : OverlayedChangeSet} {l : Layers StorageKey (Option StorageValue)} {key : StorageKey}

variable (h : Tracks (Represents codec) m l)
include h

theorem observed (he : m.changes[key]? = some e) :
    l.current key = some (OverlayedChangeSet.observed codec e) ∧ e.transactions ≠ [] := by
  have ht := h.entries key
  rw [he] at ht
  obtain ⟨v, vs, hv⟩ := List.exists_cons_of_ne_nil ht.1
  obtain ⟨_ | ⟨t, ts⟩⟩ := e
  case nil => exact absurd ht.2.length_eq (by simp [OverlayedEntry.values, hv])
  case cons =>
    have hr := ht.2
    rw [hv] at hr
    simp [Layers.current, hv, OverlayedChangeSet.observed, Represents.toOption_head hr]

theorem current_eq_none (he : m.changes[key]? = none) : l.current key = none := by
  have ht := h.entries key
  rw [he] at ht
  rw [Layers.current, ht, List.head?_nil]

theorem read (key : StorageKey) :
    ∃ m', OverlayedChangeSet.read codec m key = .ok (l.current key, m') ∧
      Tracks (Represents codec) m' l ∧ m' = { m with changes := m'.changes } := by
  cases he : m.changes[key]?
  case none =>
    exact ⟨m, by simp [OverlayedChangeSet.read, OverlayedMap.get, he, h.current_eq_none he], h, rfl⟩
  case some e =>
    have ⟨hc, hn⟩ := h.observed he
    refine ⟨{ m with changes := m.changes.insert key (e.materialized codec) }, ?_,
      ⟨h.dirty, fun k => ?_⟩, rfl⟩
    · simp only [OverlayedChangeSet.read, OverlayedMap.get, he, hc, OverlayedEntry.value_eq hn]
      rfl
    · have ht := h.entries k
      by_cases hk : k = key
      case pos =>
        subst hk
        rw [he] at ht
        rw [ExtTreeMap.getElem?_insert_self]
        exact EntryTracks.materialized ht
      case neg => rwa [ExtTreeMap.lookup_insert_ne hk]

theorem set (key : StorageKey) (value : Option StorageValue) (ext : Option UInt32) :
    ∃ m', OverlayedChangeSet.set codec m key value ext = .ok m' ∧
      Tracks (Represents codec) m' (l.write key value) ∧
      m'.numClientTransactions = m.numClientTransactions ∧ m'.executionMode = m.executionMode :=
  h.writeEntry (OverlayedChangeSet.set_lawful value ext) key

theorem appendStorage (key : StorageKey) (element : StorageValue)
    (init : Unit → StorageValue) (ext : Option UInt32) :
    ∃ m', OverlayedChangeSet.appendStorage codec m key element init ext = .ok m' ∧
      Tracks (Represents codec) m' (l.write key
        (some (appended codec ((l.current key).getD (some (init ()))) element))) ∧
      m'.numClientTransactions = m.numClientTransactions ∧ m'.executionMode = m.executionMode := by
  have hw := h.writeEntry (OverlayedChangeSet.append_lawful element init ext) key
  rwa [List.headD_eq_head?_getD] at hw

-- The loop of `clear_where`. An entry that is still to be visited is not yet changed, but all that
-- matters is that it has a version.
theorem clearKeys (changes : List (StorageKey × OverlayedValue))
    (hn : ∀ change ∈ changes, change.2.transactions ≠ []) (count : UInt32) (ext : Option UInt32) :
    ∃ count' m', changes.foldlM (OverlayedChangeSet.clearKey codec ext)
      (count, m) = .ok (count', m') ∧
      Tracks (Represents codec) m' (l.writeAll (changes.map (·.1)) none) ∧
      m'.numClientTransactions = m.numClientTransactions ∧ m'.executionMode = m.executionMode := by
  induction changes generalizing m l count
  case nil => exact ⟨count, m, rfl, by rwa [List.map_nil, Layers.writeAll_nil], rfl, rfl⟩
  case cons change changes hi =>
    obtain ⟨t, ts, ht⟩ := List.exists_cons_of_ne_nil (hn change (by simp))
    obtain ⟨m1, hm1, h1, hn1, he1⟩ := h.set change.1 none ext
    have ⟨count1, hc1⟩ :
        ∃ count1, OverlayedChangeSet.clearKey codec ext (count, m) change = .ok (count1, m1) := by
      obtain ⟨key, ⟨transactions⟩⟩ := change
      cases ht
      simp [OverlayedChangeSet.clearKey, OverlayedEntry.valueRef_cons, hm1]
    obtain ⟨count2, m2, hm2, h2, hn2, he2⟩ := hi h1 (fun c hc => hn c (by simp [hc])) count1
    refine ⟨count2, m2, ?_, ?_, hn2.trans hn1, he2.trans he1⟩
    · simp [hc1, hm2]
    · rwa [List.map_cons, Layers.writeAll_cons]

theorem clearWhere (predicate : StorageKey → Option StorageValue → Bool) (ext : Option UInt32) :
    ∃ count m', OverlayedChangeSet.clearWhere codec m
        (fun key e => predicate key (OverlayedChangeSet.observed codec e)) ext = .ok (count, m') ∧
      Tracks (Represents codec) m' (l.mapInnermost fun t key =>
        if (l.current key).any (predicate key) then some none else t key) ∧
      m'.numClientTransactions = m.numClientTransactions ∧ m'.executionMode = m.executionMode := by
  rw [OverlayedChangeSet.clearWhere]
  generalize hcs : m.changes.toList.filter _ = changes
  have hmem {key e} : (key, e) ∈ changes ↔
      m.changes[key]? = some e ∧ predicate key (OverlayedChangeSet.observed codec e) := by
    rw [← hcs, List.mem_filter, ExtTreeMap.mem_toList_iff_getElem?_eq_some]
  obtain ⟨count, m', hm', h', hn, he⟩ := h.clearKeys changes
    (fun change hc => (h.observed (hmem.mp hc).1).2) 0 ext
  refine ⟨count, m', hm', ?_, hn, he⟩
  have hk (key : StorageKey) : key ∈ changes.map (·.1) ↔
      (l.current key).any (predicate key) = true := by
    simp only [List.mem_map, Prod.exists, exists_and_right, exists_eq_right, hmem]
    cases hc : m.changes[key]?
    case none => simp [h.current_eq_none hc]
    case some e => simp [(h.observed hc).1]
  simpa only [Layers.writeAll, hk] using h'

end Tracks

-- A change set and the reference are in the same state.
structure Agrees (codec : CompactCodec) (m : OverlayedChangeSet) (r : Reference) : Prop where
  tracks : Tracks (Represents codec) m r.layers
  clients : m.numClientTransactions = r.numClientTransactions
  mode : m.executionMode = r.executionMode

namespace Agrees

variable {m : OverlayedChangeSet} {r : Reference}

theorem default : Agrees codec {} {} :=
  ⟨Tracks.default, rfl, rfl⟩

variable (h : Agrees codec m r)
include h

theorem canClose_iff : r.canClose ↔ m.transactionDepth ≠ 0 ∧
    (m.executionMode = .runtime → m.hasOpenRuntimeTransactions) := by
  rw [Reference.canClose, hasOpenRuntimeTransactions, h.tracks.depth_eq, h.clients, h.mode]
  cases r.executionMode <;> simp [Nat.pos_iff_ne_zero]

theorem closeTransaction_of_not_canClose (hc : ¬r.canClose) (rollback : Bool) :
    OverlayedChangeSet.closeTransaction codec m rollback = .ok (.error {}) := by
  rw [h.canClose_iff, not_and_or, not_not, Classical.not_imp] at hc
  unfold OverlayedChangeSet.closeTransaction closeTransactionWith
  split
  case isTrue => rfl
  case isFalse ho =>
    rw [List.length_eq_zero_iff.mp (hc.resolve_right ho)]
    rfl

-- One operation keeps the two in the same state, and both report the same.
theorem step (op : ChangeSetOp) :
    ∃ m', OverlayedChangeSet.step codec m op = .ok ((r.step codec op).1, m') ∧
      Agrees codec m' (r.step codec op).2 := by
  cases op
  case set key value ext =>
    obtain ⟨m', hm, ht, hn, he⟩ := h.tracks.set key value ext
    exact ⟨m', by simp [OverlayedChangeSet.step, hm, Reference.step], ht, hn.trans h.clients,
      he.trans h.mode⟩
  case appendStorage key element init ext =>
    obtain ⟨m', hm, ht, hn, he⟩ := h.tracks.appendStorage key element init ext
    exact ⟨m', by simp [OverlayedChangeSet.step, hm, Reference.step], ht, hn.trans h.clients,
      he.trans h.mode⟩
  case clearWhere predicate ext =>
    obtain ⟨count, m', hm, ht, hn, he⟩ := h.tracks.clearWhere predicate ext
    exact ⟨m', by simp [OverlayedChangeSet.step, hm, Reference.step], ht, hn.trans h.clients,
      he.trans h.mode⟩
  case startTransaction =>
    exact ⟨_, rfl, h.tracks.startTransaction, h.clients, h.mode⟩
  case commitTransaction =>
    by_cases hc : r.canClose
    case pos =>
      have ⟨hd, ho⟩ := h.canClose_iff.mp hc
      obtain ⟨m', hm, ht, hn, he⟩ := h.tracks.commit OverlayedChangeSet.closing_lawful hd ho
      rw [Reference.step, if_pos hc]
      refine ⟨m', ?_, ht, hn.trans h.clients, he.trans h.mode⟩
      simp [OverlayedChangeSet.step, OverlayedChangeSet.commitTransaction,
        OverlayedChangeSet.closeTransaction, hm]
    case neg =>
      rw [Reference.step, if_neg hc]
      refine ⟨m, ?_, h⟩
      simp [OverlayedChangeSet.step, OverlayedChangeSet.commitTransaction,
        h.closeTransaction_of_not_canClose hc]
  case rollbackTransaction =>
    by_cases hc : r.canClose
    case pos =>
      have ⟨hd, ho⟩ := h.canClose_iff.mp hc
      obtain ⟨m', hm, ht, hn, he⟩ := h.tracks.rollback OverlayedChangeSet.closing_lawful hd ho
      rw [Reference.step, if_pos hc]
      refine ⟨m', ?_, ht, hn.trans h.clients, he.trans h.mode⟩
      simp [OverlayedChangeSet.step, OverlayedChangeSet.rollbackTransaction,
        OverlayedChangeSet.closeTransaction, hm]
    case neg =>
      rw [Reference.step, if_neg hc]
      refine ⟨m, ?_, h⟩
      simp [OverlayedChangeSet.step, OverlayedChangeSet.rollbackTransaction,
        h.closeTransaction_of_not_canClose hc]
  case enterRuntime =>
    cases hr : r.executionMode
    case runtime =>
      refine ⟨m, ?_, ?_⟩ <;>
        simp [OverlayedChangeSet.step, OverlayedMap.enterRuntime, Reference.step, h.mode, hr, h]
    case client =>
      refine ⟨{ m with
        executionMode := .runtime, numClientTransactions := m.transactionDepth }, ?_, ?_⟩
      · simp [OverlayedChangeSet.step, OverlayedMap.enterRuntime, Reference.step, h.mode, hr]
      · simp only [Reference.step, hr]
        exact ⟨⟨h.tracks.dirty, h.tracks.entries⟩, h.tracks.depth_eq, rfl⟩
  case exitRuntime =>
    cases hr : r.executionMode
    case client =>
      refine ⟨m, ?_, ?_⟩ <;>
        simp [OverlayedChangeSet.step, OverlayedChangeSet.exitRuntime, exitRuntimeWith,
          Reference.step, h.mode, hr, h]
    case runtime =>
      obtain ⟨m', hm, ht, hn, he⟩ :=
        h.tracks.exitRuntime OverlayedChangeSet.closing_lawful (h.mode.trans hr)
      refine ⟨m', ?_, ?_⟩
      · simp [OverlayedChangeSet.step, OverlayedChangeSet.exitRuntime, hm, Reference.step, hr]
      · simp only [Reference.step, hr]
        exact ⟨h.clients ▸ ht, hn.trans h.clients, he⟩
  case value key =>
    obtain ⟨m', hm, ht, he⟩ := h.tracks.read key
    refine ⟨m', by simp [OverlayedChangeSet.step, hm, Reference.step], ht, ?_, ?_⟩
    · rw [he]; exact h.clients
    · rw [he]; exact h.mode

theorem run (ops : List ChangeSetOp) :
    ∃ m', OverlayedChangeSet.run codec m ops = .ok ((r.run codec ops).1, m') ∧
      Agrees codec m' (r.run codec ops).2 := by
  induction ops generalizing m r
  case nil => exact ⟨m, rfl, h⟩
  case cons op ops hi =>
    obtain ⟨m1, hm1, h1⟩ := h.step op
    obtain ⟨m2, hm2, h2⟩ := hi h1
    exact ⟨m2, by simp [OverlayedChangeSet.run, hm1, hm2, Reference.run], h2⟩

end Agrees

-- After any operations a change set has reported what the stack of maps reports, and every
-- key reads as it does there.
theorem overlayedChangeSet_refines_layers (codec : CompactCodec) (ops : List ChangeSetOp) :
    ∃ m, OverlayedChangeSet.run codec {} ops = .ok ((Reference.run codec {} ops).1, m) ∧
      ∀ key, (OverlayedChangeSet.read codec m key).map (·.1) =
        .ok ((Reference.run codec {} ops).2.layers.current key) := by
  obtain ⟨m, hm, h⟩ := (Agrees.default : Agrees codec {} {}).run ops
  refine ⟨m, hm, fun key => ?_⟩
  obtain ⟨m', hm', -⟩ := h.tracks.read key
  rw [hm']
  rfl

end Overlay
