import RostroModel.Overlay.Changes
import RostroModel.Overlay.Equivalence

namespace Overlay

open Std OverlayedMap
open ExtTreeMap (ext_getElem? lookup_insert_ne map_map traverse_eq_ok traverse_map getElem?_map)
open Except (ok_bind)

-- What the overlays have in common.
structure Shape where
  depth : Nat
  numClientTransactions : Nat
  executionMode : ExecutionMode
  deriving DecidableEq, Repr

namespace Shape

def canClose (sh : Shape) : Prop :=
  sh.depth ≠ 0 ∧ (sh.executionMode = .runtime → sh.numClientTransactions < sh.depth)

def start (sh : Shape) : Shape :=
  { sh with depth := sh.depth + 1 }

def close (sh : Shape) : Shape :=
  { sh with depth := sh.depth - 1 }

def enter (sh : Shape) : Shape :=
  { sh with executionMode := .runtime, numClientTransactions := sh.depth }

def exit (sh : Shape) : Shape :=
  { sh with executionMode := .client, depth := min sh.depth sh.numClientTransactions }

-- The shape of the offchain overlay. What it has for the number of client transactions may be left
-- over from another time in client mode, where the number has no meaning.
structure Agrees (strict : Prop) (sh osh : Shape) : Prop where
  depth : osh.depth = sh.depth
  executionMode : osh.executionMode = sh.executionMode
  numClientTransactions : strict ∨ sh.executionMode = .runtime →
    osh.numClientTransactions = sh.numClientTransactions

namespace Agrees

variable {strict : Prop} {sh osh : Shape}

theorem refl : sh.Agrees strict sh :=
  ⟨rfl, rfl, fun _ => rfl⟩

theorem drained (hd : sh.depth = 0) (hc : sh.executionMode = .client) (hs : ¬strict) :
    sh.Agrees strict ⟨0, 0, .client⟩ :=
  ⟨hd.symm, hc.symm, Or.rec (absurd · hs) fun hr => by simp [hc] at hr⟩

variable (h : sh.Agrees strict osh)
include h

theorem eq (hs : strict) : osh = sh := by
  obtain ⟨depth, num, mode⟩ := sh
  obtain ⟨rfl, rfl, hn⟩ := h
  obtain rfl := hn (.inl hs)
  rfl

theorem mono : sh.Agrees False osh :=
  ⟨h.depth, h.executionMode, fun hr => h.numClientTransactions (.inr (hr.resolve_left id))⟩

theorem canClose (hc : sh.canClose) : osh.canClose := by
  refine ⟨h.depth ▸ hc.1, fun hr => ?_⟩
  have hr : sh.executionMode = .runtime := h.executionMode ▸ hr
  rw [h.depth, h.numClientTransactions (.inr hr)]
  exact hc.2 hr

theorem start : sh.start.Agrees strict osh.start :=
  ⟨congrArg (· + 1) h.depth, h.executionMode, h.numClientTransactions⟩

theorem close : sh.close.Agrees strict osh.close :=
  ⟨congrArg (· - 1) h.depth, h.executionMode, h.numClientTransactions⟩

theorem enter : sh.enter.Agrees strict osh.enter :=
  ⟨h.depth, rfl, fun _ => h.depth⟩

theorem exit (hr : sh.executionMode = .runtime) : sh.exit.Agrees strict osh.exit :=
  have hn := h.numClientTransactions (.inr hr)
  ⟨congrArg₂ min h.depth hn, rfl, fun _ => hn⟩

end Agrees

end Shape

section Generic

variable {K V W : Type} [Ord K] [TransOrd K]

def OverlayedMap.shape (m : OverlayedMap K V) : Shape :=
  ⟨m.transactionDepth, m.numClientTransactions, m.executionMode⟩

-- An overlayed map that follows some stack of layers and has a given shape.
structure InStep (R : List V → List W → Prop) (sh : Shape) (m : OverlayedMap K V) : Prop where
  tracks : ∃ l : Layers K W, Tracks R m l
  shape : m.shape = sh

namespace InStep

variable {R : List V → List W → Prop} {sh : Shape} {m : OverlayedMap K V} {c : Closing V}

omit [TransOrd K] in
theorem shape_mk {depth : Nat} {m m' : OverlayedMap K V} (hd : m'.transactionDepth = depth)
    (hn : m'.numClientTransactions = m.numClientTransactions)
    (he : m'.executionMode = m.executionMode) : m'.shape = { m.shape with depth } := by
  simp only [OverlayedMap.shape, hd, hn, he]

theorem default : InStep R ⟨0, 0, .client⟩ ({} : OverlayedMap K V) :=
  ⟨⟨_, Tracks.default⟩, rfl⟩

section

variable (h : InStep R sh m)
include h

theorem spawnChild : InStep R sh m.spawnChild := by
  obtain ⟨⟨l, ht⟩, hs⟩ := h
  exact ⟨⟨_, ht.spawnChild⟩, by simpa [OverlayedMap.shape, transactionDepth,
    OverlayedMap.spawnChild] using hs⟩

theorem startTransaction : InStep R sh.start m.startTransaction := by
  obtain ⟨⟨l, ht⟩, rfl⟩ := h
  exact ⟨⟨_, ht.startTransaction⟩, rfl⟩

theorem enterRuntime (hc : sh.executionMode = .client) :
    ∃ m', m.enterRuntime = .ok m' ∧ InStep R sh.enter m' ∧ m'.changes = m.changes := by
  obtain ⟨⟨l, ht⟩, rfl⟩ := h
  refine ⟨{ m with executionMode := .runtime, numClientTransactions := m.transactionDepth },
    ?_, ⟨⟨l, ht.dirty, ht.entries⟩, rfl⟩, rfl⟩
  rw [OverlayedMap.enterRuntime, show m.executionMode = .client from hc]

theorem enterRuntime_error (hc : sh.executionMode = .runtime) : m.enterRuntime = .error {} := by
  obtain ⟨-, rfl⟩ := h
  rw [OverlayedMap.enterRuntime, show m.executionMode = .runtime from hc]

theorem exitRuntime_error (hc : sh.executionMode = .client) :
    m.exitRuntimeWith c = .ok (.error {}) := by
  obtain ⟨-, rfl⟩ := h
  rw [OverlayedMap.exitRuntimeWith, show m.executionMode = .client from hc]
  rfl

theorem close_error (hc : ¬sh.canClose) (rollback : Bool) :
    m.closeTransactionWith c rollback = .ok (.error {}) := by
  obtain ⟨-, rfl⟩ := h
  unfold closeTransactionWith
  by_cases ho : m.executionMode = .runtime ∧ ¬m.hasOpenRuntimeTransactions
  case pos => rw [if_pos ho]; rfl
  case neg =>
    have hd : m.dirtyKeys = [] := by
      by_contra hd
      refine hc ⟨fun h => hd (List.length_eq_zero_iff.mp h), fun hr => ?_⟩
      exact of_decide_eq_true (not_and_not_right.mp ho hr)
    rw [if_neg ho, hd]
    rfl

end

variable [LawfulEqOrd K] [DecidableEq K]

theorem write (h : InStep R sh m) {write} {w : List W → W} (hw : LawfulWrite R write w) (k : K) :
    ∃ m', m.writeEntry k write = .ok m' ∧ InStep R sh m' := by
  obtain ⟨⟨l, ht⟩, rfl⟩ := h
  obtain ⟨m', hm, ht', hn, he⟩ := ht.writeEntry hw k
  refine ⟨m', hm, ⟨_, ht'⟩, shape_mk ?_ hn he⟩
  rw [ht'.depth_eq, Layers.depth_write, ht.depth_eq]

-- The condition of `close_transaction`, in the words of the lemmas about the layers.
omit [TransOrd K] [LawfulEqOrd K] [DecidableEq K] in
theorem hasOpen_of_canClose (hc : m.shape.canClose) :
    m.executionMode = .runtime → m.hasOpenRuntimeTransactions :=
  fun hr => decide_eq_true (hc.2 hr)

variable (h : InStep R sh m) (hl : c.Lawful R)
include h hl

theorem rollback (hc : sh.canClose) :
    ∃ m', m.closeTransactionWith c true = .ok (.ok m') ∧ InStep R sh.close m' := by
  obtain ⟨⟨l, ht⟩, rfl⟩ := h
  obtain ⟨m', hm, ht', hn, he⟩ := ht.rollback hl hc.1 (hasOpen_of_canClose hc)
  refine ⟨m', hm, ⟨_, ht'⟩, shape_mk ?_ hn he⟩
  rw [ht'.depth_eq, Layers.depth_rollback, ← ht.depth_eq]
  rfl

theorem commit (hc : sh.canClose) :
    ∃ m', m.closeTransactionWith c false = .ok (.ok m') ∧ InStep R sh.close m' := by
  obtain ⟨⟨l, ht⟩, rfl⟩ := h
  obtain ⟨m', hm, ht', hn, he⟩ := ht.commit hl hc.1 (hasOpen_of_canClose hc)
  refine ⟨m', hm, ⟨_, ht'⟩, shape_mk ?_ hn he⟩
  rw [ht'.depth_eq, Layers.depth_commit, ← ht.depth_eq]
  rfl

theorem exitRuntime (hc : sh.executionMode = .runtime) :
    ∃ m', m.exitRuntimeWith c = .ok (.ok m') ∧ InStep R sh.exit m' := by
  obtain ⟨⟨l, ht⟩, rfl⟩ := h
  obtain ⟨m', hm, ht', hn, he⟩ := ht.exitRuntime hl hc
  refine ⟨m', hm, ⟨_, ht'⟩, ?_⟩
  simp only [OverlayedMap.shape, Shape.exit, ht'.depth_eq, Layers.depth_rollbackTo,
    ht.depth_eq, hn, he]

end InStep

-- Every entry has a version, and every key of a dirty set has an entry.
structure OverlayedMap.Populated (m : OverlayedMap K V) : Prop where
  entry : ∀ (k : K) e, m.changes[k]? = some e → e.transactions ≠ []
  dirty : ∀ d ∈ m.dirtyKeys, ∀ k ∈ d, ∃ e, m.changes[k]? = some e ∧ e.transactions ≠ []

theorem InStep.populated {R : List V → List W → Prop} {sh : Shape} {m : OverlayedMap K V}
    (h : InStep R sh m) (hl : ∀ {ts vs}, R ts vs → ts.length = vs.length) : m.Populated := by
  obtain ⟨⟨l, ht⟩, -⟩ := h
  have he (k : K) (e : OverlayedEntry V) (hk : m.changes[k]? = some e) : e.transactions ≠ [] := by
    have := ht.entries k
    rw [hk] at this
    intro hn
    have hlen := hl this.2
    rw [OverlayedEntry.values, hn] at hlen
    exact this.1 (List.length_eq_zero_iff.mp hlen.symm)
  refine ⟨he, fun d hd k hk => ?_⟩
  -- The layer of the dirty set holds the key, so the key has a version.
  obtain ⟨t, hto, hdt⟩ : ∃ t ∈ l.opened, ∀ k, k ∈ d ↔ (t k).isSome := by
    obtain ⟨i, hi, rfl⟩ := List.getElem_of_mem hd
    have hi' : i < l.opened.length := ht.dirty.length_eq ▸ hi
    exact ⟨_, List.getElem_mem hi', List.Forall₂.get ht.dirty hi hi'⟩
  obtain ⟨w, hw⟩ := Option.isSome_iff_exists.mp ((hdt k).mp hk)
  have hv : l.versions k ≠ [] :=
    List.ne_nil_of_mem (List.mem_filterMap.mpr ⟨t, by simp [hto], hw⟩)
  obtain ⟨e, hke, -⟩ := ht.entry_of_ne_nil hv
  exact ⟨e, hke, he k e hke⟩

end Generic

section ChangeSet

variable {codec : CompactCodec} {sh : Shape} {m : OverlayedChangeSet}

namespace OverlayedChangeSet

-- The keys of a change set with what a read of them returns.
def visible (codec : CompactCodec) (m : OverlayedChangeSet) : Delta :=
  (m.changes.map fun _ e => observed codec e).toList

theorem visible_congr {m m' : OverlayedChangeSet} {l l' : Layers StorageKey (Option StorageValue)}
    (h : Tracks (Represents codec) m l) (h' : Tracks (Represents codec) m' l')
    (hc : ∀ k, l'.current k = l.current k) : visible codec m' = visible codec m := by
  have hv {m l} (h : Tracks (Represents codec) m l) (k : StorageKey) :
      (m.changes.map fun _ e => observed codec e)[k]? = l.current k := by
    rw [getElem?_map]
    cases hk : m.changes[k]?
    case none => rw [h.current_eq_none hk]; rfl
    case some e => rw [(h.observed hk).1]; rfl
  have he : (m'.changes.map fun _ e => observed codec e) = m.changes.map fun _ e =>
      observed codec e :=
    ext_getElem? fun k => (hv h' k).trans ((hc k).trans (hv h k).symm)
  rw [visible, visible, he]

end OverlayedChangeSet

namespace OverlayedChanges

variable {Hash Transaction Error : Type}

def childDeltas (codec : CompactCodec) (s : OverlayedChanges Hash Transaction) :
    ExtTreeMap StorageKey (ChildInfo × Delta) :=
  s.children.map fun _ child => (child.2, OverlayedChangeSet.visible codec child.1)

-- The root of the state that is visible through the overlay.
def visibleRoot (codec : CompactCodec) (backend : Backend Hash Transaction Error)
    (s : OverlayedChanges Hash Transaction) (stateVersion : StateVersion) : Hash × Transaction :=
  backend.fullStorageRoot (OverlayedChangeSet.visible codec s.top)
    ((s.childDeltas codec).toList.map (·.2)) stateVersion

end OverlayedChanges

open OverlayedChangeSet

namespace InStep

variable (h : InStep (Represents codec) sh m)
include h

theorem read (key : StorageKey) : ∃ v m', OverlayedChangeSet.read codec m key = .ok (v, m') ∧
      InStep (Represents codec) sh m' ∧ visible codec m' = visible codec m := by
  obtain ⟨⟨l, ht⟩, rfl⟩ := h
  obtain ⟨m', hm, ht', he⟩ := ht.read key
  exact ⟨_, m', hm, ⟨⟨l, ht'⟩, by rw [he]; rfl⟩, visible_congr ht ht' fun _ => rfl⟩

theorem readAll : ∃ m', OverlayedChangeSet.readAll codec m = .ok (visible codec m, m') ∧
      InStep (Represents codec) sh m' ∧ visible codec m' = visible codec m := by
  obtain ⟨⟨l, ht⟩, rfl⟩ := h
  have hr := traverse_map (t := m.changes)
    (f := fun _ e => do return some (← e.value codec)) fun k e hk => by
      rw [OverlayedEntry.value_eq (ht.observed hk).2]
      rfl
  have ht' : Tracks (Represents codec)
      { m with changes := m.changes.map fun _ e => e.materialized codec } l := by
    refine ⟨ht.dirty, fun k => ?_⟩
    have he := ht.entries k
    rw [getElem?_map]
    cases hk : m.changes[k]? <;> rw [hk] at he
    case none => exact he
    case some => exact EntryTracks.materialized he
  refine ⟨_, ?_, ⟨⟨l, ht'⟩, rfl⟩, visible_congr ht ht' fun _ => rfl⟩
  simp only [OverlayedChangeSet.readAll, hr, ok_bind, map_map]
  rfl

theorem set (key : StorageKey) (value : Option StorageValue) (ext : Option UInt32) :
    ∃ m', OverlayedChangeSet.set codec m key value ext = .ok m' ∧ InStep (Represents codec) sh m' :=
  h.write (set_lawful value ext) key

theorem appendStorage (key : StorageKey) (element : StorageValue)
    (init : Unit → StorageValue) (ext : Option UInt32) :
    ∃ m', OverlayedChangeSet.appendStorage codec m key element init ext = .ok m' ∧
      InStep (Represents codec) sh m' :=
  h.write (append_lawful element init ext) key

theorem clearWhere (predicate : StorageKey → Bool) (ext : Option UInt32) :
    ∃ count m', OverlayedChangeSet.clearWhere codec m (fun key _ => predicate key) ext =
      .ok (count, m') ∧ InStep (Represents codec) sh m' := by
  obtain ⟨⟨l, ht⟩, rfl⟩ := h
  obtain ⟨count, m', hm, ht', hn, he⟩ := ht.clearWhere (fun key _ => predicate key) ext
  refine ⟨count, m', hm, ⟨_, ht'⟩, shape_mk ?_ hn he⟩
  rw [ht'.depth_eq, Layers.depth_mapInnermost, ht.depth_eq]

theorem drainCommitted (hd : sh.depth = 0) :
    OverlayedChangeSet.drainCommitted codec m = .ok (visible codec m) := by
  obtain ⟨⟨l, ht⟩, rfl⟩ := h
  have hr := traverse_map (t := m.changes) (g := fun _ e => observed codec e)
    (f := fun _ e => drainEntry codec e) fun k e hk => by
      have hn := (ht.observed hk).2
      obtain ⟨_ | ⟨t, ts⟩⟩ := e
      case nil => exact absurd rfl hn
      case cons => rfl
  have hd : m.transactionDepth = 0 := hd
  rw [OverlayedChangeSet.drainCommitted, if_pos hd, hr]
  rfl

end InStep
end ChangeSet

-- The offchain overlay follows a stack of layers, and its shape agrees with the given one.
structure Alongside (strict : Prop) (sh : Shape) (m : OffchainOverlayedChanges) : Prop where
  inStep : InStep (· = ·) m.shape m
  agrees : sh.Agrees strict m.shape

namespace Alongside

variable {strict : Prop} {sh osh : Shape} {m : OffchainOverlayedChanges}

theorem of_inStep (h : InStep (· = ·) osh m) (ha : sh.Agrees strict osh) :
    Alongside strict sh m := by
  obtain rfl := h.shape
  exact ⟨h, ha⟩

theorem default : Alongside strict ⟨0, 0, .client⟩ {} :=
  ⟨InStep.default, .refl⟩

variable (h : Alongside strict sh m)
include h

theorem startTransaction : Alongside strict sh.start m.startTransaction :=
  of_inStep h.inStep.startTransaction h.agrees.start

theorem rollback (hc : sh.canClose) :
    ∃ m', m.rollbackTransactionOffchain = .ok (.ok m') ∧ Alongside strict sh.close m' := by
  obtain ⟨m', hm, hi⟩ := h.inStep.rollback closingOffchain_lawful (h.agrees.canClose hc)
  exact ⟨m', hm, of_inStep hi h.agrees.close⟩

theorem commit (hc : sh.canClose) :
    ∃ m', m.commitTransactionOffchain = .ok (.ok m') ∧ Alongside strict sh.close m' := by
  obtain ⟨m', hm, hi⟩ := h.inStep.commit closingOffchain_lawful (h.agrees.canClose hc)
  exact ⟨m', hm, of_inStep hi h.agrees.close⟩

theorem enterRuntime (hc : sh.executionMode = .client) :
    ∃ m', m.enterRuntime = .ok m' ∧ Alongside strict sh.enter m' := by
  obtain ⟨m', hm, hi, -⟩ := h.inStep.enterRuntime (h.agrees.executionMode.trans hc)
  exact ⟨m', hm, of_inStep hi h.agrees.enter⟩

theorem exitRuntime (hr : sh.executionMode = .runtime) :
    ∃ m', m.exitRuntimeOffchain = .ok (.ok m') ∧ Alongside strict sh.exit m' := by
  obtain ⟨m', hm, hi⟩ := h.inStep.exitRuntime closingOffchain_lawful
    (h.agrees.executionMode.trans hr)
  exact ⟨m', hm, of_inStep hi (h.agrees.exit hr)⟩

end Alongside

-- The top change set, the children and the offchain overlay have the same shape, and each of them
-- follows a stack of layers.
structure Lockstep {Hash Transaction : Type} (strict : Prop) (codec : CompactCodec) (sh : Shape)
    (s : OverlayedChanges Hash Transaction) : Prop where
  top : InStep (Represents codec) sh s.top
  children : ∀ (k : StorageKey) child, s.children[k]? = some child →
    InStep (Represents codec) sh child.1 ∧ child.2.storageKey = k
  offchain : Alongside strict sh s.offchain

namespace Lockstep

open OverlayedChangeSet OverlayedChanges

variable {Hash Transaction Error : Type} {strict : Prop} {codec : CompactCodec} {sh sh' : Shape}
variable {s : OverlayedChanges Hash Transaction} (backend : Backend Hash Transaction Error)

theorem default :
    Lockstep strict codec ⟨0, 0, .client⟩ ({} : OverlayedChanges Hash Transaction) where
  top := InStep.default
  children k _ h := by simp at h
  offchain := .default

theorem lockstep_ok {α ε : Type} {p : Panic} {result : Except Panic (Except ε α)} {a : α}
    (h : result = .ok (.ok a)) : OverlayedChanges.lockstep p result = .ok a := by
  rw [h]
  rfl

-- The state after an operation that all overlays have made.
structure Follows {ε : Type}
    (onChangeSet : OverlayedChangeSet → Except Panic (Except ε OverlayedChangeSet))
    (retain : OverlayedChangeSet → Bool) (s s' : OverlayedChanges Hash Transaction) : Prop where
  cache : s'.storageTransactionCache = s.storageTransactionCache
  top : onChangeSet s.top = .ok (.ok s'.top)
  absent : ∀ k : StorageKey, s.children[k]? = none → s'.children[k]? = none
  present : ∀ (k : StorageKey) child, s.children[k]? = some child → ∃ changeset,
    onChangeSet child.1 = .ok (.ok changeset) ∧
      s'.children[k]? = if retain changeset then some (changeset, child.2) else none

theorem followTop_error {ε : Type} {onChangeSet onOffchain retain} {e : ε}
    (he : onChangeSet s.top = .ok (.error e)) :
    s.followTop onChangeSet onOffchain retain = .ok (.error e, s) := by
  simp [OverlayedChanges.followTop, he]

theorem storageRoot_of_cached {v : StateVersion} {cache}
    (hc : s.storageTransactionCache = some cache) (hv : cache.stateVersion = v) :
    s.storageRoot codec backend v = .ok ((cache.transactionStorageRoot, true), s) := by
  have hf : s.storageTransactionCache.filter (·.stateVersion = v) = some cache := by
    rw [hc, Option.filter_some, if_pos (decide_eq_true hv)]
  simp only [OverlayedChanges.storageRoot, hf]
  rfl

theorem offchainDrainCommitted (h : Alongside strict sh s.offchain) :
    ∃ changes, s.offchainDrainCommitted = .ok (changes, { s with offchain := {} }) := by
  have hp := (h.inStep.populated (congrArg _)).entry
  obtain ⟨changes, hc, -⟩ := traverse_eq_ok (t := s.offchain.changes)
    (f := fun _ e => do return some (← e.valueRef)) fun k e hk => by
      have hn := hp k e hk
      obtain ⟨_ | ⟨t, ts⟩⟩ := e
      case nil => exact absurd rfl hn
      case cons => exact ⟨_, rfl⟩
  exact ⟨changes.toList, by rw [OverlayedChanges.offchainDrainCommitted, hc]; rfl⟩

variable (h : Lockstep strict codec sh s)
include h

theorem withTop {top} (ht : InStep (Represents codec) sh top) :
    Lockstep strict codec sh { s with top } :=
  ⟨ht, h.children, h.offchain⟩

theorem withChild {changeset : OverlayedChangeSet} {info : ChildInfo}
    (hc : InStep (Represents codec) sh changeset) {key} (hk : info.storageKey = key) :
    Lockstep strict codec sh { s with children := s.children.insert key (changeset, info) } := by
  refine ⟨h.top, fun k child hch => ?_, h.offchain⟩
  by_cases he : k = key
  case pos =>
    subst he
    rw [ExtTreeMap.getElem?_insert_self] at hch
    cases hch
    exact ⟨hc, hk⟩
  case neg =>
    rw [lookup_insert_ne he] at hch
    exact h.children k child hch

theorem markDirty : Lockstep strict codec sh s.markDirty :=
  ⟨h.top, h.children, h.offchain⟩

theorem storage (key : StorageKey) :
    ∃ v top, s.storage codec key = .ok (v, { s with top }) ∧ InStep (Represents codec) sh top ∧
      visible codec top = visible codec s.top := by
  obtain ⟨v, top, hr, ht, hv⟩ := h.top.read key
  exact ⟨v, top, by simp [OverlayedChanges.storage, hr], ht, hv⟩

theorem extrinsicIndex : ∃ ext top, s.extrinsicIndex codec = .ok (ext, { s with top }) ∧
      InStep (Represents codec) sh top := by
  by_cases hc : s.collectExtrinsics
  case pos =>
    obtain ⟨v, top, hr, ht, -⟩ := h.storage extrinsicIndexKey
    exact ⟨_, top, by rw [OverlayedChanges.extrinsicIndex, if_pos hc, hr]; rfl, ht⟩
  case neg => exact ⟨none, s.top, by rw [OverlayedChanges.extrinsicIndex, if_neg hc]; rfl, h.top⟩

theorem setStorage (key : StorageKey) (val : Option StorageValue) :
    ∃ s', s.setStorage codec key val = .ok s' ∧ Lockstep strict codec sh s' ∧
      s'.storageTransactionCache = none := by
  obtain ⟨ext, top, he, ht⟩ := h.markDirty.extrinsicIndex
  obtain ⟨top', hs, ht'⟩ := ht.set key val ext
  exact ⟨_, by simp only [OverlayedChanges.setStorage, he, ok_bind, hs]; rfl,
    h.markDirty.withTop ht', rfl⟩

theorem appendStorage (key : StorageKey) (element : StorageValue) (init : Unit → StorageValue) :
    ∃ s', s.appendStorage codec key element init = .ok s' ∧ Lockstep strict codec sh s' ∧
      s'.storageTransactionCache = s.storageTransactionCache := by
  obtain ⟨ext, top, he, ht⟩ := h.extrinsicIndex
  obtain ⟨top', hs, ht'⟩ := ht.appendStorage key element init ext
  exact ⟨_, by simp only [OverlayedChanges.appendStorage, he, ok_bind, hs]; rfl, h.withTop ht', rfl⟩

theorem clearPrefix (pre : Bytes) :
    ∃ count s', s.clearPrefix codec pre = .ok (count, s') ∧ Lockstep strict codec sh s' ∧
      s'.storageTransactionCache = none := by
  obtain ⟨ext, top, he, ht⟩ := h.markDirty.extrinsicIndex
  obtain ⟨count, top', hs, ht'⟩ := ht.clearWhere (fun key => pre.isPrefixOf key) ext
  exact ⟨count, _, by simp only [OverlayedChanges.clearPrefix, he, ok_bind, hs]; rfl,
    h.markDirty.withTop ht', rfl⟩

theorem writeChild {α : Type} (childInfo : ChildInfo)
    {write : OverlayedChangeSet → Option UInt32 → Except Panic (α × OverlayedChangeSet)}
    (hw : ∀ m ext, InStep (Represents codec) sh m →
      ∃ a m', write m ext = .ok (a, m') ∧ InStep (Represents codec) sh m') :
    ∃ a s', s.writeChild codec childInfo write = .ok (a, s') ∧ Lockstep strict codec sh s' ∧
      s'.storageTransactionCache = none := by
  obtain ⟨ext, top, he, ht⟩ := h.markDirty.extrinsicIndex
  have h' := h.markDirty.withTop ht
  -- A child that is not there yet is spawned from the top change set.
  have hchild : ∃ changeset info,
    s.children[childInfo.storageKey]?.getD (top.spawnChild, childInfo) =
      (changeset, info) ∧ InStep (Represents codec) sh changeset ∧
      info.storageKey = childInfo.storageKey := by
    cases hc : s.children[childInfo.storageKey]?
    case none => exact ⟨_, _, rfl, ht.spawnChild, rfl⟩
    case some child => exact ⟨_, _, rfl, h.children _ _ hc⟩
  obtain ⟨changeset, info, hg, hcs, hk⟩ := hchild
  obtain ⟨a, changeset', hs, hcs'⟩ := hw changeset ext hcs
  have hu : info.tryUpdate childInfo = true := decide_eq_true hk
  refine ⟨a, _, ?_, h'.withChild hcs' hk, rfl⟩
  rw [OverlayedChanges.writeChild, he, ok_bind]
  simp only [OverlayedChanges.markDirty, hg, hu, hs]
  rfl

theorem setChildStorage (childInfo : ChildInfo) (key : StorageKey) (val : Option StorageValue) :
    ∃ a s', s.setChildStorage codec childInfo key val = .ok (a, s') ∧ Lockstep strict codec sh s' ∧
      s'.storageTransactionCache = none := by
  refine h.writeChild childInfo fun m ext hm => ?_
  obtain ⟨m', hs, hi⟩ := hm.set key val ext
  exact ⟨(), m', by rw [hs]; rfl, hi⟩

theorem clearChildStorage (childInfo : ChildInfo) :
    ∃ a s', s.clearChildStorage codec childInfo = .ok (a, s') ∧ Lockstep strict codec sh s' ∧
      s'.storageTransactionCache = none :=
  h.writeChild childInfo fun _ ext hm => hm.clearWhere (fun _ => true) ext

theorem clearChildPrefix (childInfo : ChildInfo) (pre : Bytes) :
    ∃ a s', s.clearChildPrefix codec childInfo pre = .ok (a, s') ∧ Lockstep strict codec sh s' ∧
      s'.storageTransactionCache = none :=
  h.writeChild childInfo fun _ ext hm => hm.clearWhere (fun key => pre.isPrefixOf key) ext

theorem setOffchainStorage (key : Bytes) (value : Option Bytes) :
    ∃ s', s.setOffchainStorage key value = .ok s' ∧ Lockstep strict codec sh s' ∧
      s' = { s with offchain := s'.offchain } := by
  cases value
  case none =>
    obtain ⟨m, hm, hi⟩ :=
      h.offchain.inStep.write (setOffchain_lawful .remove none) (offchainStoragePrefix, key)
    refine ⟨{ s with offchain := m }, ?_,
      ⟨h.top, h.children, .of_inStep hi h.offchain.agrees⟩, rfl⟩
    simp only [OverlayedChanges.setOffchainStorage, OffchainOverlayedChanges.remove,
      OverlayedMap.setOffchain, hm]
    rfl
  case some value =>
    obtain ⟨m, hm, hi⟩ :=
      h.offchain.inStep.write (setOffchain_lawful (.setValue value) none)
        (offchainStoragePrefix, key)
    refine ⟨{ s with offchain := m }, ?_,
      ⟨h.top, h.children, .of_inStep hi h.offchain.agrees⟩, rfl⟩
    simp only [OverlayedChanges.setOffchainStorage, OffchainOverlayedChanges.set,
      OverlayedMap.setOffchain, hm]
    rfl

theorem startTransaction : Lockstep strict codec sh.start s.startTransaction := by
  refine ⟨h.top.startTransaction, fun k child hc => ?_, h.offchain.startTransaction⟩
  rw [OverlayedChanges.startTransaction, getElem?_map, Option.map_eq_some_iff] at hc
  obtain ⟨child, hk, rfl⟩ := hc
  have ⟨hi, hk⟩ := h.children k child hk
  exact ⟨hi.startTransaction, hk⟩

-- If the overlays of this shape all accept an operation, then the whole follows.
theorem followTop {ε : Type}
    {onChangeSet : OverlayedChangeSet → Except Panic (Except ε OverlayedChangeSet)}
    {onOffchain : OffchainOverlayedChanges → Except Panic (Except ε OffchainOverlayedChanges)}
    (retain : OverlayedChangeSet → Bool) (hc : ∀ m, InStep (Represents codec) sh m →
      ∃ m', onChangeSet m = .ok (.ok m') ∧ InStep (Represents codec) sh' m')
    (ho : ∀ m, Alongside strict sh m → ∃ m', onOffchain m = .ok (.ok m') ∧
      Alongside strict sh' m') :
    ∃ s', s.followTop onChangeSet onOffchain retain = .ok (.ok (), s') ∧
      Lockstep strict codec sh' s' ∧ Follows onChangeSet retain s s' := by
  obtain ⟨top, ht, hti⟩ := hc s.top h.top
  obtain ⟨offchain, hof, hoi⟩ := ho s.offchain h.offchain
  have hchild (k : StorageKey) (child) (hk : s.children[k]? = some child) : ∃ changeset,
      onChangeSet child.1 = .ok (.ok changeset) ∧ InStep (Represents codec) sh' changeset ∧
      (do
        let changeset ← OverlayedChanges.lockstep .childrenLockstep (onChangeSet child.1)
        return if retain changeset then some (changeset, child.2) else none) =
        Except.ok (if retain changeset then some (changeset, child.2) else none) := by
    obtain ⟨changeset, hm, hi⟩ := hc child.1 (h.children k child hk).1
    exact ⟨changeset, hm, hi, by rw [lockstep_ok hm]; rfl⟩
  obtain ⟨children, htr, hn, hs⟩ := traverse_eq_ok (t := s.children)
    fun k child hk => ⟨_, (hchild k child hk).choose_spec.2.2⟩
  have hs' (k : StorageKey) (child) (hk : s.children[k]? = some child) : ∃ changeset,
      onChangeSet child.1 = .ok (.ok changeset) ∧ InStep (Represents codec) sh' changeset ∧
      children[k]? = if retain changeset then some (changeset, child.2) else none := by
    obtain ⟨changeset, hm, hi, hf⟩ := hchild k child hk
    exact ⟨changeset, hm, hi, Except.ok.inj ((hs k child hk).symm.trans hf)⟩
  refine ⟨{ s with top, children, offchain }, ?_, ⟨hti, fun k child hk => ?_, hoi⟩, rfl, ht, hn, ?_⟩
  · simp only [OverlayedChanges.followTop, ht, htr, lockstep_ok hof]
    rfl
  · cases hk' : s.children[k]?
    case none => exact absurd (hk.symm.trans (hn k hk')) (by simp)
    case some old =>
      obtain ⟨changeset, -, hi, hl⟩ := hs' k old hk'
      rw [hl] at hk
      split_ifs at hk
      cases hk
      exact ⟨hi, (h.children k old hk').2⟩
  · intro k child hk
    obtain ⟨changeset, hm, -, hl⟩ := hs' k child hk
    exact ⟨changeset, hm, hl⟩

theorem rollbackTransaction :
    ∃ r s' sh', s.rollbackTransaction codec = .ok (r, s') ∧ Lockstep strict codec sh' s' ∧
      s'.storageTransactionCache = none := by
  by_cases hc : sh.canClose
  case pos =>
    obtain ⟨s', hs, hl, hf⟩ := h.markDirty.followTop (fun changeset => !changeset.isEmpty)
      (fun _ hm => hm.rollback closing_lawful hc) (fun _ hm => hm.rollback hc)
    exact ⟨_, s', _, hs, hl, hf.cache⟩
  case neg =>
    exact ⟨_, _, sh, followTop_error (h.top.close_error hc true), h.markDirty, rfl⟩

theorem commitTransaction :
    ∃ r s' sh', s.commitTransaction codec = .ok (r, s') ∧ Lockstep strict codec sh' s' ∧
      (s' = s ∨ Follows (OverlayedChangeSet.commitTransaction codec) (fun _ => true) s s') := by
  by_cases hc : sh.canClose
  case pos =>
    obtain ⟨s', hs, hl, hf⟩ := h.followTop (fun _ => true)
      (fun _ hm => hm.commit closing_lawful hc) (fun _ hm => hm.commit hc)
    exact ⟨_, s', _, hs, hl, .inr hf⟩
  case neg => exact ⟨_, s, sh, followTop_error (h.top.close_error hc false), h, .inl rfl⟩

theorem enterRuntime : ∃ r s' sh', s.enterRuntime = .ok (r, s') ∧ Lockstep strict codec sh' s' ∧
      (s' = s ∨ Follows (fun changeset => pure changeset.enterRuntime) (fun _ => true) s s') := by
  cases hc : sh.executionMode
  case client =>
    have he (m : OverlayedChangeSet) (hm : InStep (Represents codec) sh m) :
        ∃ m', (pure m.enterRuntime : Except Panic _) = .ok (.ok m') ∧
        InStep (Represents codec) sh.enter m' := by
      obtain ⟨m', hm', hi, -⟩ := hm.enterRuntime hc
      exact ⟨m', congrArg _ hm', hi⟩
    have ho (m : OffchainOverlayedChanges) (hm : Alongside strict sh m) :
        ∃ m', (pure m.enterRuntime : Except Panic _) = .ok (.ok m') ∧
          Alongside strict sh.enter m' := by
      obtain ⟨m', hm', hi⟩ := hm.enterRuntime hc
      exact ⟨m', congrArg _ hm', hi⟩
    obtain ⟨s', hs, hl, hf⟩ := h.followTop (fun _ => true) he ho
    exact ⟨_, s', _, hs, hl, .inr hf⟩
  case runtime =>
    exact ⟨_, s, sh, followTop_error (congrArg _ (h.top.enterRuntime_error hc)), h, .inl rfl⟩

theorem exitRuntime : ∃ r s' sh', s.exitRuntime codec = .ok (r, s') ∧ Lockstep strict codec sh' s' ∧
      (s' = s ∨ Follows (OverlayedChangeSet.exitRuntime codec) (fun _ => true) s s') := by
  cases hc : sh.executionMode
  case runtime =>
    obtain ⟨s', hs, hl, hf⟩ := h.followTop (fun _ => true)
      (fun _ hm => hm.exitRuntime closing_lawful hc) (fun _ hm => hm.exitRuntime hc)
    exact ⟨_, s', _, hs, hl, .inr hf⟩
  case client => exact ⟨_, s, sh, followTop_error (h.top.exitRuntime_error hc), h, .inl rfl⟩

theorem readChildren :
    ∃ children, s.readChildren codec = .ok ((s.childDeltas codec).toList.map (·.2), children) ∧
      Lockstep strict codec sh { s with children } ∧
      childDeltas codec { s with children } = s.childDeltas codec := by
  have hchild (k : StorageKey) (child) (hk : s.children[k]? = some child) :=
    (h.children k child hk).1.readAll
  obtain ⟨read, hread, hn, hs⟩ := traverse_eq_ok (t := s.children)
    (f := fun _ child => readChild codec child) fun k child hk => by
      obtain ⟨m', hm, -⟩ := hchild k child hk
      exact ⟨_, by rw [readChild, hm]; rfl⟩
  have hs' (k : StorageKey) (child) (hk : s.children[k]? = some child) : ∃ changeset,
      read[k]? = some ((child.2, visible codec child.1), (changeset, child.2)) ∧
      InStep (Represents codec) sh changeset ∧ visible codec changeset = visible codec child.1 := by
    obtain ⟨m', hm, hi, hv⟩ := hchild k child hk
    refine ⟨m', Except.ok.inj ((hs k child hk).symm.trans ?_), hi, hv⟩
    rw [readChild, hm]
    rfl
  have hd : (read.map fun _ r => r.1) = s.childDeltas codec := by
    refine ext_getElem? fun k => ?_
    rw [childDeltas, getElem?_map, getElem?_map]
    cases hk : s.children[k]?
    case none => rw [hn k hk]; rfl
    case some child =>
      obtain ⟨m', hm, -⟩ := hs' k child hk
      rw [hm]
      rfl
  have hd' : ((read.map fun _ r => r.2).map fun _ child => (child.2, visible codec child.1)) =
      s.childDeltas codec := by
    refine ext_getElem? fun k => ?_
    rw [childDeltas, getElem?_map, getElem?_map, getElem?_map]
    cases hk : s.children[k]?
    case none => rw [hn k hk]; rfl
    case some child =>
      obtain ⟨m', hm, -, hv⟩ := hs' k child hk
      rw [hm, Option.map_some, Option.map_some, hv]
      rfl
  refine ⟨read.map fun _ r => r.2, ?_, ⟨h.top, fun k child hk => ?_, h.offchain⟩, ?_⟩
  · rw [OverlayedChanges.readChildren, hread, ok_bind, hd]
    rfl
  · rw [getElem?_map] at hk
    cases hk' : s.children[k]?
    case none => rw [hn k hk'] at hk; exact absurd hk (by simp)
    case some old =>
      obtain ⟨m', hm, hi, -⟩ := hs' k old hk'
      rw [hm] at hk
      cases hk
      exact ⟨hi, (h.children k old hk').2⟩
  · exact hd'

theorem storageRoot_of_not_cached {v : StateVersion}
    (hc : ∀ cache, s.storageTransactionCache = some cache → cache.stateVersion ≠ v) :
    ∃ s', s.storageRoot codec backend v = .ok (((s.visibleRoot codec backend v).1, false), s') ∧
      Lockstep strict codec sh s' ∧ visible codec s'.top = visible codec s.top ∧
      s'.childDeltas codec = s.childDeltas codec ∧
      s'.storageTransactionCache = some
        { transaction := (s.visibleRoot codec backend v).2
          transactionStorageRoot := (s.visibleRoot codec backend v).1
          stateVersion := v } := by
  obtain ⟨top, hr, ht, hv⟩ := h.top.readAll
  obtain ⟨children, hc', hl, hcv⟩ := h.readChildren
  have hf : s.storageTransactionCache.filter (·.stateVersion = v) = none := by
    cases hca : s.storageTransactionCache
    case none => rfl
    case some cache => simp [hc cache hca]
  let cache : StorageTransactionCache Hash Transaction :=
    { transaction := (s.visibleRoot codec backend v).2
      transactionStorageRoot := (s.visibleRoot codec backend v).1
      stateVersion := v }
  refine ⟨{ s with top, children, storageTransactionCache := some cache }, ?_,
    ⟨ht, hl.children, h.offchain⟩, hv, hcv, rfl⟩
  simp only [OverlayedChanges.storageRoot, hf, hr, hc']
  rfl

theorem storageRoot (v : StateVersion) :
    ∃ r s', s.storageRoot codec backend v = .ok (r, s') ∧ Lockstep strict codec sh s' := by
  by_cases hc : ∃ cache, s.storageTransactionCache = some cache ∧ cache.stateVersion = v
  case pos =>
    obtain ⟨cache, hc, hv⟩ := hc
    exact ⟨_, s, storageRoot_of_cached backend hc hv, h⟩
  case neg =>
    obtain ⟨s', hs, hl, -⟩ :=
      h.storageRoot_of_not_cached (v := v) backend fun cache hca hv => hc ⟨cache, hca, hv⟩
    exact ⟨_, s', hs, hl⟩

theorem childStorageRoot (childInfo : ChildInfo) (v : StateVersion) :
    ∃ r s', s.childStorageRoot codec backend childInfo v = .ok (r, s') ∧
      Lockstep strict codec sh s' ∧
      (s'.storageTransactionCache = none ∨ ∃ top, s' = { s with top } ∧
        visible codec top = visible codec s.top) := by
  rw [OverlayedChanges.childStorageRoot]
  by_cases hc : s.storageTransactionCache.isSome
  case pos =>
    obtain ⟨value, top, hr, ht, hv⟩ := h.storage childInfo.prefixedStorageKey
    exact ⟨_, _, by rw [if_pos hc, hr]; rfl, h.withTop ht, .inr ⟨top, rfl, hv⟩⟩
  case neg =>
    rw [if_neg hc]
    cases hk : s.children[childInfo.storageKey]?
    case none => exact ⟨_, s, rfl, h, .inl (Option.not_isSome_iff_eq_none.mp hc)⟩
    case some child =>
      have ⟨hi, hik⟩ := h.children _ child hk
      obtain ⟨changeset, hr, hcs, -⟩ := hi.readAll
      obtain ⟨s', hs, hl, -⟩ := (h.withChild hcs hik).setStorage childInfo.prefixedStorageKey
        (if (backend.childStorageRoot child.2 (visible codec child.1) v).2.1 then none
          else some (backend.encodeRoot
            (backend.childStorageRoot child.2 (visible codec child.1) v).1))
      refine ⟨.ok ((backend.childStorageRoot child.2 (visible codec child.1) v).1, false),
        s'.markDirty, ?_, hl.markDirty, .inl rfl⟩
      simp only [hr, ok_bind, hs]
      rfl

theorem drain_children (hd : sh.depth = 0) :
    (s.children.traverse fun _ child => do return some (← drainCommitted codec child.1)) =
      .ok ((s.childDeltas codec).map fun _ r => r.2) := by
  rw [childDeltas, map_map]
  refine traverse_map fun k child hk => ?_
  rw [(h.children k child hk).1.drainCommitted hd]
  rfl

theorem takeTransaction (v : StateVersion) :
    ∃ cache s', s.takeTransaction codec backend v = .ok (cache, s') ∧ Lockstep strict codec sh s' ∧
      s'.storageTransactionCache = none ∧ visible codec s'.top = visible codec s.top ∧
      s'.childDeltas codec = s.childDeltas codec ∧
      cache.transactionStorageRoot = s.storageTransactionCache.elim
        (s.visibleRoot codec backend v).1
        (·.transactionStorageRoot) := by
  cases hc : s.storageTransactionCache
  case none =>
    obtain ⟨s', hs, hl, hv, hcv, hca⟩ :=
      h.storageRoot_of_not_cached (v := v) backend (by simp [hc])
    refine ⟨{
        transaction := (s.visibleRoot codec backend v).2
        transactionStorageRoot := (s.visibleRoot codec backend v).1
        stateVersion := v }, s'.markDirty, ?_, hl.markDirty, rfl, hv, hcv, rfl⟩
    simp only [OverlayedChanges.takeTransaction, hc, hs, ok_bind, hca]
    rfl
  case some cache =>
    exact ⟨cache, s.markDirty, by simp only [OverlayedChanges.takeTransaction, hc]; rfl,
      h.markDirty, rfl, rfl, rfl, rfl⟩

theorem drainStorageChanges (hd : sh.depth = 0) (v : StateVersion) :
    ∃ r s', s.drainStorageChanges codec backend v = .ok (r, s') ∧
      Lockstep strict codec ⟨0, 0, .client⟩ s' ∧ s'.storageTransactionCache = none ∧
      r.mainStorageChanges = visible codec s.top ∧
      r.childStorageChanges = ((s.childDeltas codec).map fun _ r => r.2).toList ∧
      r.transactionStorageRoot = s.storageTransactionCache.elim (s.visibleRoot codec backend v).1
        (·.transactionStorageRoot) := by
  obtain ⟨cache, s1, hs1, h1, hc1, hv1, hd1, hr1⟩ := h.takeTransaction backend v
  obtain ⟨offchain, ho⟩ := offchainDrainCommitted
    (s := { s1 with top := {}, children := ∅ }) h1.offchain
  refine ⟨{
      mainStorageChanges := visible codec s.top
      childStorageChanges := ((s.childDeltas codec).map fun _ r => r.2).toList
      offchainStorageChanges := offchain
      transaction := cache.transaction
      transactionStorageRoot := cache.transactionStorageRoot },
    { s1 with top := {}, children := ∅, offchain := {} },
    ?_, ⟨InStep.default, by simp, .default⟩, hc1, rfl, rfl, hr1⟩
  rw [OverlayedChanges.drainStorageChanges, hs1]
  simp only [h1.top.drainCommitted hd, h1.drain_children hd, ho, ok_bind, hv1, hd1]
  rfl

end Lockstep

-- The operations of the overlay. A drain is refused while transactions are open, by an assertion,
-- so it is only made if there are none. The drain of the offchain overlay is never refused, but it
-- is in step with the others only if there are none and the runtime has not been entered.
inductive ChangesOp
  | setCollectExtrinsics (collectExtrinsics : Bool)
  | storage (key : StorageKey)
  | childStorage (childInfo : ChildInfo) (key : StorageKey)
  | setStorage (key : StorageKey) (val : Option StorageValue)
  | appendStorage (key : StorageKey) (element : StorageValue) (init : Unit → StorageValue)
  | setChildStorage (childInfo : ChildInfo) (key : StorageKey) (val : Option StorageValue)
  | clearChildStorage (childInfo : ChildInfo)
  | clearPrefix (pre : Bytes)
  | clearChildPrefix (childInfo : ChildInfo) (pre : Bytes)
  | setOffchainStorage (key : Bytes) (value : Option Bytes)
  | startTransaction
  | commitTransaction
  | rollbackTransaction
  | enterRuntime
  | exitRuntime
  | storageRoot (stateVersion : StateVersion)
  | childStorageRoot (childInfo : ChildInfo) (stateVersion : StateVersion)
  | drainStorageChanges (stateVersion : StateVersion)
  | offchainDrainCommitted

namespace OverlayedChanges

variable {Hash Transaction Error : Type}

section

variable (codec : CompactCodec) (backend : Backend Hash Transaction Error)

-- The state after an operation, whether it returns an error or not.
def step (s : OverlayedChanges Hash Transaction) :
    ChangesOp → Except Panic (OverlayedChanges Hash Transaction)
  | .setCollectExtrinsics b => pure (s.setCollectExtrinsics b)
  | .storage key => return (← s.storage codec key).2
  | .childStorage childInfo key => return (← s.childStorage codec childInfo key).2
  | .setStorage key val => s.setStorage codec key val
  | .appendStorage key element init => s.appendStorage codec key element init
  | .setChildStorage childInfo key val => return (← s.setChildStorage codec childInfo key val).2
  | .clearChildStorage childInfo => return (← s.clearChildStorage codec childInfo).2
  | .clearPrefix pre => return (← s.clearPrefix codec pre).2
  | .clearChildPrefix childInfo pre => return (← s.clearChildPrefix codec childInfo pre).2
  | .setOffchainStorage key value => s.setOffchainStorage key value
  | .startTransaction => pure s.startTransaction
  | .commitTransaction => return (← s.commitTransaction codec).2
  | .rollbackTransaction => return (← s.rollbackTransaction codec).2
  | .enterRuntime => return (← s.enterRuntime).2
  | .exitRuntime => return (← s.exitRuntime codec).2
  | .storageRoot v => return (← s.storageRoot codec backend v).2
  | .childStorageRoot childInfo v => return (← s.childStorageRoot codec backend childInfo v).2
  | .drainStorageChanges v =>
    if s.transactionDepth = 0 then return (← s.drainStorageChanges codec backend v).2 else pure s
  | .offchainDrainCommitted =>
    if s.transactionDepth = 0 ∧ s.top.executionMode =
      .client then return (← s.offchainDrainCommitted).2
    else pure s

def run (s : OverlayedChanges Hash Transaction) (ops : List ChangesOp) :
    Except Panic (OverlayedChanges Hash Transaction) :=
  ops.foldlM (step codec backend) s

end

-- All overlays have the same transaction depth, protect the same number of transactions, for the
-- offchain overlay while the runtime is entered, and are in the same execution mode.
structure SameShape (s : OverlayedChanges Hash Transaction) : Prop where
  children : ∀ (k : StorageKey) child, s.children[k]? = some child → child.1.shape = s.top.shape
  offchain : s.top.shape.Agrees False s.offchain.shape

structure Populated (s : OverlayedChanges Hash Transaction) : Prop where
  top : s.top.Populated
  children : ∀ (k : StorageKey) child, s.children[k]? = some child → child.1.Populated
  offchain : s.offchain.Populated

end OverlayedChanges

namespace Lockstep

open OverlayedChangeSet OverlayedChanges

variable {Hash Transaction Error : Type} {strict : Prop} {codec : CompactCodec} {sh : Shape}
variable {s : OverlayedChanges Hash Transaction} (backend : Backend Hash Transaction Error)

variable (h : Lockstep strict codec sh s)
include h

theorem childStorage (childInfo : ChildInfo) (key : StorageKey) :
    ∃ v children, s.childStorage codec childInfo key = .ok (v, { s with children }) ∧
      Lockstep strict codec sh { s with children } ∧
      childDeltas codec { s with children } = s.childDeltas codec := by
  rw [OverlayedChanges.childStorage]
  cases hk : s.children[childInfo.storageKey]?
  case none => exact ⟨none, s.children, rfl, h, rfl⟩
  case some child =>
    have ⟨hi, hik⟩ := h.children _ child hk
    obtain ⟨v, changeset, hr, hcs, hv⟩ := hi.read key
    refine ⟨v, _, by simp only [hr]; rfl, h.withChild hcs hik, ext_getElem? fun k => ?_⟩
    rw [childDeltas, childDeltas, getElem?_map, getElem?_map]
    by_cases he : k = childInfo.storageKey
    case pos => rw [he, ExtTreeMap.getElem?_insert_self, hk, Option.map_some, Option.map_some, hv]
    case neg => rw [lookup_insert_ne he]

theorem step (op : ChangesOp) (hop : strict → op ≠ .offchainDrainCommitted) :
    ∃ s' sh', s.step codec backend op = .ok s' ∧ Lockstep strict codec sh' s' := by
  have hmap {α : Type} {r : Except Panic (α × OverlayedChanges Hash Transaction)} {a s' sh'}
      (hr : r = .ok (a, s')) (hl : Lockstep strict codec sh' s') :
      ∃ s' sh', (do return (← r).2) = Except.ok s' ∧ Lockstep strict codec sh' s' :=
    ⟨s', sh', by rw [hr]; rfl, hl⟩
  cases op
  case setCollectExtrinsics => exact ⟨_, sh, rfl, h.top, h.children, h.offchain⟩
  case storage key =>
    obtain ⟨v, top, hs, ht, -⟩ := h.storage key
    exact hmap hs (h.withTop ht)
  case childStorage childInfo key =>
    obtain ⟨v, children, hs, hl, -⟩ := h.childStorage childInfo key
    exact hmap hs hl
  case setStorage key val =>
    obtain ⟨s', hs, hl, -⟩ := h.setStorage key val
    exact ⟨s', sh, hs, hl⟩
  case appendStorage key element init =>
    obtain ⟨s', hs, hl, -⟩ := h.appendStorage key element init
    exact ⟨s', sh, hs, hl⟩
  case setChildStorage childInfo key val =>
    obtain ⟨_, s', hs, hl, -⟩ := h.setChildStorage childInfo key val
    exact hmap hs hl
  case clearChildStorage childInfo =>
    obtain ⟨_, s', hs, hl, -⟩ := h.clearChildStorage childInfo
    exact hmap hs hl
  case clearPrefix pre =>
    obtain ⟨_, s', hs, hl, -⟩ := h.clearPrefix pre
    exact hmap hs hl
  case clearChildPrefix childInfo pre =>
    obtain ⟨_, s', hs, hl, -⟩ := h.clearChildPrefix childInfo pre
    exact hmap hs hl
  case setOffchainStorage key value =>
    obtain ⟨s', hs, hl, -⟩ := h.setOffchainStorage key value
    exact ⟨s', sh, hs, hl⟩
  case startTransaction => exact ⟨_, _, rfl, h.startTransaction⟩
  case commitTransaction =>
    obtain ⟨_, s', sh', hs, hl, -⟩ := h.commitTransaction
    exact hmap hs hl
  case rollbackTransaction =>
    obtain ⟨_, s', sh', hs, hl, -⟩ := h.rollbackTransaction
    exact hmap hs hl
  case enterRuntime =>
    obtain ⟨_, s', sh', hs, hl, -⟩ := h.enterRuntime
    exact hmap hs hl
  case exitRuntime =>
    obtain ⟨_, s', sh', hs, hl, -⟩ := h.exitRuntime
    exact hmap hs hl
  case storageRoot v =>
    obtain ⟨_, s', hs, hl⟩ := h.storageRoot backend v
    exact hmap hs hl
  case childStorageRoot childInfo v =>
    obtain ⟨_, s', hs, hl, -⟩ := h.childStorageRoot backend childInfo v
    exact hmap hs hl
  case drainStorageChanges v =>
    rw [OverlayedChanges.step]
    by_cases hd : s.transactionDepth = 0
    case neg => exact ⟨s, sh, by rw [if_neg hd]; rfl, h⟩
    case pos =>
      have hd' : sh.depth = 0 := h.top.shape ▸ hd
      obtain ⟨_, s', hs, hl, -⟩ := h.drainStorageChanges backend hd' v
      rw [if_pos hd]
      exact hmap hs hl
  case offchainDrainCommitted =>
    rw [OverlayedChanges.step]
    by_cases hd : s.transactionDepth = 0 ∧ s.top.executionMode = .client
    case neg => exact ⟨s, sh, by rw [if_neg hd]; rfl, h⟩
    case pos =>
      obtain ⟨_, hs⟩ := offchainDrainCommitted h.offchain
      rw [if_pos hd]
      refine hmap hs ⟨h.top, h.children, InStep.default, ?_⟩
      obtain rfl := h.top.shape
      exact .drained hd.1 hd.2 fun hstrict => hop hstrict rfl

theorem run (ops : List ChangesOp) (hops : strict → .offchainDrainCommitted ∉ ops) :
    ∃ s' sh', s.run codec backend ops = .ok s' ∧ Lockstep strict codec sh' s' := by
  induction ops generalizing s sh
  case nil => exact ⟨s, sh, rfl, h⟩
  case cons op ops hi =>
    obtain ⟨s1, sh1, hs1, h1⟩ := h.step backend op fun hs he => hops hs (he ▸ List.mem_cons_self)
    obtain ⟨s2, sh2, hs2, h2⟩ := hi h1 fun hs hm => hops hs (List.mem_cons_of_mem op hm)
    exact ⟨s2, sh2, by rw [OverlayedChanges.run, List.foldlM_cons, hs1]; exact hs2, h2⟩

theorem sameShape : s.SameShape where
  children k child hk := (h.children k child hk).1.shape.trans h.top.shape.symm
  offchain := h.top.shape ▸ h.offchain.agrees.mono

theorem populated : s.Populated where
  top := h.top.populated Represents.length_eq
  children k child hk := (h.children k child hk).1.populated Represents.length_eq
  offchain := h.offchain.inStep.populated (congrArg _)

theorem sameShape_drained_iff : SameShape { s with offchain := {} } ↔
    s.transactionDepth = 0 ∧ s.top.executionMode = .client := by
  constructor
  · exact fun hs => ⟨hs.offchain.depth.symm, hs.offchain.executionMode.symm⟩
  · exact fun ⟨hd, hc⟩ => ⟨h.sameShape.children, .drained hd hc id⟩

end Lockstep

-- No sequence of operations panics, and in the state it leads to the overlays are in
-- lockstep. They stay so if the offchain overlay is drained there, which does not panic
-- either, just where a run may do so.
theorem overlayedChanges_lockstep {Hash Transaction Error : Type} (codec : CompactCodec)
    (backend : Backend Hash Transaction Error) (ops : List ChangesOp) :
    ∃ s : OverlayedChanges Hash Transaction,
      OverlayedChanges.run codec backend {} ops = .ok s ∧ s.SameShape ∧ s.Populated ∧
      (.offchainDrainCommitted ∉ ops → s.offchain.shape = s.top.shape) ∧
      (∃ changes, s.offchainDrainCommitted = .ok (changes, { s with offchain := {} })) ∧
      (OverlayedChanges.SameShape { s with offchain := {} } ↔
        s.transactionDepth = 0 ∧ s.top.executionMode = .client) := by
  obtain ⟨s, sh, hs, h⟩ :=
    (Lockstep.default : Lockstep (.offchainDrainCommitted ∉ ops) codec _ _).run backend ops id
  refine ⟨s, hs, h.sameShape, h.populated, fun hn => ?_, Lockstep.offchainDrainCommitted h.offchain,
    h.sameShape_drained_iff⟩
  exact (h.offchain.agrees.eq hn).trans h.top.shape.symm

end Overlay
