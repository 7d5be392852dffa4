import RostroModel.Library.Except
import RostroModel.Library.Layers
import RostroModel.Library.TreeMap
import RostroModel.Overlay.Map

namespace Overlay

open Std
open ExtTreeSet (mem_insert_iff mem_toList)

variable {K V W : Type}

def OverlayedEntry.values (e : OverlayedEntry V) : List V :=
  e.transactions.map (·.value)

theorem OverlayedEntry.noteExtrinsic_values {e : OverlayedEntry V} (h : e.values ≠ [])
    (ext : Option UInt32) : ∃ e', e.noteExtrinsic ext = .ok e' ∧ e'.values = e.values := by
  obtain ⟨_ | ⟨t, ts⟩⟩ := e
  case nil => exact absurd rfl h
  case cons =>
    cases ext
    case none => exact ⟨_, rfl, rfl⟩
    case some => exact ⟨_, rfl, rfl⟩

-- The versions of an entry stand for a list of values in the sense of `R`, and an absent entry for
-- none.
def EntryTracks (R : List V → List W → Prop) : Option (OverlayedEntry V) → List W → Prop
  | none, vs => vs = []
  | some e, vs => vs ≠ [] ∧ R e.values vs

-- An overlayed map follows a stack of layers: the dirty sets are the keys of the open layers, and
-- each entry has a version for each layer that holds its key.
structure Tracks [Ord K] [TransOrd K] (R : List V → List W → Prop) (m : OverlayedMap K V)
    (l : Layers K W) : Prop where
  dirty : List.Forall₂ (fun d t => ∀ k, k ∈ d ↔ (t k).isSome) m.dirtyKeys l.opened
  entries : ∀ k, EntryTracks R m.changes[k]? (l.versions k)

-- What `R` has to provide for the two ways in which a transaction is closed.
structure OverlayedMap.Closing.Lawful (c : Closing V) (R : List V → List W → Prop) : Prop where
  length_eq : ∀ {ts vs}, R ts vs → ts.length = vs.length
  undo : ∀ {e w vs}, R e.values (w :: vs) → ∃ e', c.undo e = .ok e' ∧ R e'.values vs
  merge : ∀ {e w v vs}, R e.values (w :: v :: vs) → ∃ e', c.merge e = .ok e' ∧ R e'.values (w :: vs)

-- What `R` has to provide for a write: it pushes a version if the key is new to its layer, and
-- replaces the newest one otherwise. The value that is written may depend on those that are there.
structure LawfulWrite (R : List V → List W → Prop)
    (write : OverlayedEntry V → Bool → Except Panic (OverlayedEntry V)) (w : List W → W) :
    Prop where
  fresh : ∀ {first}, ∃ e', write {} first = .ok e' ∧ R e'.values [w []]
  push : ∀ {e v vs}, R e.values (v :: vs) →
    ∃ e', write e true = .ok e' ∧ R e'.values (w (v :: vs) :: v :: vs)
  replace : ∀ {e v vs}, R e.values (v :: vs) →
    ∃ e', write e false = .ok e' ∧ R e'.values (w (v :: vs) :: vs)

namespace Tracks

variable [Ord K] [TransOrd K] {R : List V → List W → Prop}
variable {m : OverlayedMap K V} {l : Layers K W}

theorem depth_eq (h : Tracks R m l) : m.transactionDepth = l.depth :=
  h.dirty.length_eq

theorem default : Tracks R ({} : OverlayedMap K V) .empty where
  dirty := .nil
  entries k := by simp [EntryTracks, Layers.versions_empty]

theorem startTransaction (h : Tracks R m l) : Tracks R m.startTransaction l.start where
  dirty := .cons (by simp) h.dirty
  entries k := h.entries k

theorem spawnChild (h : Tracks R m l) :
    Tracks R m.spawnChild { base := fun _ => none, opened := l.opened.map fun _ _ => none } where
  dirty := by
    rw [OverlayedMap.spawnChild, h.depth_eq, Layers.depth]
    induction l.opened <;> simp_all [List.replicate]
  entries k := by
    simp only [OverlayedMap.spawnChild, EntryTracks, Layers.versions]
    induction l.opened <;> simp_all

theorem entry_of_ne_nil (h : Tracks R m l) (hv : l.versions k ≠ []) :
    ∃ e, m.changes[k]? = some e ∧ R e.values (l.versions k) := by
  have he := h.entries k
  cases hc : m.changes[k]? <;> rw [hc] at he
  case none => exact absurd he hv
  case some e => exact ⟨e, rfl, he.2⟩

variable [LawfulEqOrd K]

theorem insertDirty (h : Tracks R m l) [DecidableEq K] (k : K) (w : W) :
    List.Forall₂ (fun d t => ∀ k, k ∈ d ↔ (t k).isSome) (insertDirty m.dirtyKeys k).2
      (l.write k w).opened := by
  have hd := h.dirty
  unfold Overlay.insertDirty Layers.write Layers.mapInnermost
  cases hm : m.dirtyKeys <;> cases ho : l.opened <;> rw [hm, ho] at hd <;> cases hd
  case nil.nil => simp
  case cons.cons hd hds =>
    refine .cons (fun k' => ?_) hds
    rw [mem_insert_iff, hd]
    by_cases hk : k' = k <;> simp [hk]

omit [LawfulEqOrd K] in
theorem first_iff (h : Tracks R m l) (hv : l.versions k ≠ []) :
    (Overlay.insertDirty m.dirtyKeys k).1 = (l.innermost k).isNone := by
  have hd := h.dirty
  unfold Overlay.insertDirty Layers.innermost
  cases hm : m.dirtyKeys <;> cases ho : l.opened <;> rw [hm, ho] at hd <;> cases hd
  case nil.nil =>
    cases hb : l.base k
    case none => simp [Layers.versions, ho, hb] at hv
    case some => simp [hb]
  case cons.cons d _ t _ hd _ =>
    have hk := hd k
    rw [ExtTreeSet.mem_iff_contains] at hk
    cases hc : d.contains k <;> cases ht : t k <;> simp [hc, ht] at hk ⊢

theorem writeEntry [DecidableEq K] (h : Tracks R m l) {write} {w : List W → W}
    (hw : LawfulWrite R write w) (k : K) :
    ∃ m', m.writeEntry k write = .ok m' ∧ Tracks R m' (l.write k (w (l.versions k))) ∧
      m'.numClientTransactions = m.numClientTransactions ∧ m'.executionMode = m.executionMode := by
  -- In each case the entry is rewritten so that it stands for the new value
  -- on top of the layers below.
  suffices hs : ∃ e', write (m.changes[k]?.getD {}) (Overlay.insertDirty m.dirtyKeys k).1 = .ok e' ∧
      R e'.values (w (l.versions k) :: l.below k) by
    obtain ⟨e', he, hr⟩ := hs
    refine ⟨{ m with
      changes := m.changes.insert k e', dirtyKeys := (Overlay.insertDirty m.dirtyKeys k).2 },
      by simp only [OverlayedMap.writeEntry, he]; rfl, ⟨h.insertDirty k _, fun k' => ?_⟩, rfl, rfl⟩
    by_cases hk : k' = k
    case pos => simpa [hk, Layers.versions_write_self, EntryTracks] using hr
    case neg =>
      simp only [ExtTreeMap.lookup_insert_ne hk, Layers.versions_write_ne hk]
      exact h.entries k'
  by_cases hv : l.versions k = []
  case pos =>
    have he := h.entries k
    rw [hv] at he ⊢
    have hb : l.below k = [] := by
      have := Layers.versions_eq (l := l) (k := k)
      simp_all
    have hn : m.changes[k]? = none := by
      cases hc : m.changes[k]?
      case none => rfl
      case some => rw [hc] at he; exact absurd rfl he.1
    rw [hn, hb]
    exact hw.fresh
  case neg =>
    have ⟨e, he, hr⟩ := h.entry_of_ne_nil hv
    rw [he, h.first_iff hv]
    cases hi : l.innermost k
    case none =>
      obtain ⟨v, vs, hvs⟩ := List.exists_cons_of_ne_nil hv
      rw [← Layers.versions_eq_below hi, hvs]
      exact hw.push (hvs ▸ hr)
    case some v =>
      rw [Layers.versions_eq_cons hi] at hr ⊢
      exact hw.replace hr

open OverlayedMap

variable {c : Closing V}

theorem rollbackKey (hc : c.Lawful R) (h : EntryTracks R m.changes[k]? (w :: vs)) :
    ∃ changes, OverlayedMap.rollbackKey c m k = .ok { m with changes } ∧
      EntryTracks R changes[k]? vs ∧
      ∀ k' ≠ k, changes[k']? = m.changes[k']? := by
  cases hm : m.changes[k]? <;> rw [hm] at h
  case none => simp [EntryTracks] at h
  case some e =>
    obtain ⟨e', hu, hr⟩ := hc.undo h.2
    have hl := hc.length_eq hr
    simp only [OverlayedMap.rollbackKey, hm, expect, Option.elim_some, Except.ok_bind, hu]
    cases ht : e'.transactions
    case nil =>
      refine ⟨m.changes.erase k, by simp, ?_, fun k' hk => ExtTreeMap.lookup_erase_ne hk⟩
      simp only [EntryTracks]
      simpa [OverlayedEntry.values, ht, eq_comm] using hl
    case cons =>
      refine ⟨m.changes.insert k e', by simp, ?_, fun k' hk => ExtTreeMap.lookup_insert_ne hk⟩
      simp only [ExtTreeMap.getElem?_insert_self]
      refine ⟨fun hn => ?_, hr⟩
      simp [OverlayedEntry.values, ht, hn] at hl

theorem commitKey (hc : c.Lawful R) (h : EntryTracks R m.changes[k]? vs) (hv : vs ≠ [])
    {pred : Prop} [Decidable pred]
    (hp : match m.dirtyKeys with | d :: _ => k ∈ d ↔ pred | [] => 1 < vs.length ↔ pred)
    (ha : if pred then ∃ w v ws, vs = w :: v :: ws ∧ vs' = w :: ws else vs' = vs) :
    ∃ changes, OverlayedMap.commitKey c m k =
        .ok { m with changes, dirtyKeys := m.dirtyKeys.modifyHead (·.insert k) } ∧
      EntryTracks R changes[k]? vs' ∧ ∀ k' ≠ k, changes[k']? = m.changes[k']? := by
  cases hm : m.changes[k]? <;> rw [hm] at h
  case none => exact absurd h hv
  case some e =>
    -- `has_predecessor` is `pred`, in both of the ways in which it is computed.
    have hs : OverlayedMap.commitKey c m k = if pred then do
          let overlayed ← c.merge e
          pure { m with
            changes := m.changes.insert k overlayed,
            dirtyKeys := m.dirtyKeys.modifyHead (·.insert k) }
        else pure { m with dirtyKeys := m.dirtyKeys.modifyHead (·.insert k) } := by
      have hl := hc.length_eq h.2
      simp only [OverlayedEntry.values, List.length_map] at hl
      simp only [OverlayedMap.commitKey, hm, expect, Option.elim_some, Except.ok_bind, hl]
      cases hd : m.dirtyKeys <;> rw [hd] at hp <;> simp only [decide_eq_true_eq] at hp ⊢
      case nil => simp only [hp, List.modifyHead_nil]
      case cons d ds => simp only [← ExtTreeSet.mem_iff_contains, hp, List.modifyHead_cons]
    rw [hs]
    split_ifs at ha ⊢ with hpred
    case pos =>
      obtain ⟨w, v, ws, hvs, hav⟩ := ha
      obtain ⟨e', hu, hr⟩ := hc.merge (hvs ▸ h.2)
      refine ⟨_, by rw [hu]; rfl, ?_, fun k' hk => ExtTreeMap.lookup_insert_ne hk⟩
      simpa [EntryTracks, hav] using hr
    case neg =>
      refine ⟨m.changes, rfl, ?_, fun k' _ => rfl⟩
      rw [ha, hm]
      exact h

omit [LawfulEqOrd K] in
-- The loop over the dirty keys. The keys are distinct, so each of them is processed in the
-- state it had at the beginning.
theorem foldlM_keys {f : OverlayedMap K V → K → Except Panic (OverlayedMap K V)}
    {g : List (ExtTreeSet K) → K → List (ExtTreeSet K)} {p : List (ExtTreeSet K) → K → Prop}
    {u v : K → List W} (hg : ∀ d k k', k' ≠ k → p d k' → p (g d k) k') {keys : List K}
    (hn : keys.Nodup) (hf : ∀ m, ∀ k ∈ keys, EntryTracks R m.changes[k]? (u k) → p m.dirtyKeys k →
      ∃ changes, f m k = .ok { m with changes, dirtyKeys := g m.dirtyKeys k } ∧
        EntryTracks R changes[k]? (v k) ∧ ∀ k' ≠ k, changes[k']? = m.changes[k']?)
    (h : ∀ k ∈ keys, EntryTracks R m.changes[k]? (u k)) (hp : ∀ k ∈ keys, p m.dirtyKeys k) :
    ∃ changes, keys.foldlM f m = .ok { m with changes, dirtyKeys := keys.foldl g m.dirtyKeys } ∧
      (∀ k ∈ keys, EntryTracks R changes[k]? (v k)) ∧ ∀ k ∉ keys, changes[k]? = m.changes[k]? := by
  induction keys generalizing m
  case nil => exact ⟨m.changes, rfl, by simp, fun _ _ => rfl⟩
  case cons key keys hi =>
    rw [List.forall_mem_cons] at h hp
    have ⟨hk, hn⟩ := List.nodup_cons.mp hn
    have hne {k : K} (hm : k ∈ keys) : k ≠ key := fun he => hk (he ▸ hm)
    obtain ⟨c1, h1, he1, hf1⟩ := hf m key List.mem_cons_self h.1 hp.1
    obtain ⟨c2, h2, he2, hf2⟩ :=
      hi hn (m := { m with changes := c1, dirtyKeys := g m.dirtyKeys key })
      (fun m k hm => hf m k (List.mem_cons_of_mem _ hm)) (fun k hm => by
        rw [hf1 k (hne hm)]; exact h.2 k hm)
      (fun k hm => hg _ _ _ (hne hm) (hp.2 k hm))
    refine ⟨c2, by rw [List.foldlM_cons, h1]; exact h2, ?_, fun k hm => ?_⟩
    · rw [List.forall_mem_cons, hf2 key hk]
      exact ⟨he1, he2⟩
    · rw [List.mem_cons, not_or] at hm
      rw [hf2 k hm.2, hf1 k hm.1]

omit [LawfulEqOrd K] in
theorem closeTransactionWith_eq {d ds} (hd : m.dirtyKeys = d :: ds)
    (ho : m.executionMode = .runtime → m.hasOpenRuntimeTransactions) (rollback : Bool) :
    m.closeTransactionWith c rollback = (do
      let m ← d.toList.foldlM (if rollback then OverlayedMap.rollbackKey c
        else OverlayedMap.commitKey c)
        { m with dirtyKeys := ds }
      pure (.ok m)) := by
  have hn : ¬(m.executionMode = .runtime ∧ ¬m.hasOpenRuntimeTransactions) := by tauto
  rw [OverlayedMap.closeTransactionWith, if_neg hn, hd]

theorem rollback [DecidableEq K] (h : Tracks R m l) (hc : c.Lawful R) (hd : m.transactionDepth ≠ 0)
    (ho : m.executionMode = .runtime → m.hasOpenRuntimeTransactions) :
    ∃ m', m.closeTransactionWith c true = .ok (.ok m') ∧ Tracks R m' l.rollback ∧
      m'.numClientTransactions = m.numClientTransactions ∧ m'.executionMode = m.executionMode := by
  have hf := h.dirty
  have hdl := h.depth_eq
  cases hm : m.dirtyKeys <;> cases hl : l.opened <;> rw [hm, hl] at hf <;> cases hf
  case nil.nil => simp [transactionDepth, hm] at hd
  case cons.cons d ds t ts ht hts =>
    have hb (k : K) (hk : k ∈ d.toList) : ∃ w, l.versions k = w :: l.below k := by
      rw [mem_toList, ht] at hk
      obtain ⟨w, hw⟩ := Option.isSome_iff_exists.mp hk
      exact ⟨w, Layers.versions_eq_cons (by simp [Layers.innermost, hl, hw])⟩
    obtain ⟨changes, hm', he, hfr⟩ :=
      foldlM_keys (m := { m with dirtyKeys := ds }) (g := fun d _ => d)
      (p := fun _ _ => True) (u := l.versions) (v := l.below) (fun _ _ _ _ => id) d.nodup_toList
      (fun m k hk hv _ => by
        obtain ⟨w, hw⟩ := hb k hk
        exact rollbackKey hc (hw ▸ hv)) (fun k _ => h.entries k) (fun _ _ => trivial)
    refine ⟨{ m with changes, dirtyKeys := ds }, ?_, ⟨?_, fun k => ?_⟩, rfl, rfl⟩
    · simp [closeTransactionWith_eq hm ho, hm']
    · rw [Layers.rollback, hl]
      exact hts
    · rw [Layers.rollback_versions (hdl ▸ hd)]
      by_cases hk : k ∈ d.toList
      case pos => exact he k hk
      case neg =>
        rw [hfr k hk]
        rw [mem_toList, ht, Option.not_isSome_iff_eq_none] at hk
        rw [← Layers.versions_eq_below (by simp [Layers.innermost, hl, hk])]
        exact h.entries k

theorem commit [DecidableEq K] (h : Tracks R m l) (hc : c.Lawful R) (hd : m.transactionDepth ≠ 0)
    (ho : m.executionMode = .runtime → m.hasOpenRuntimeTransactions) :
    ∃ m', m.closeTransactionWith c false = .ok (.ok m') ∧ Tracks R m' l.commit ∧
      m'.numClientTransactions = m.numClientTransactions ∧ m'.executionMode = m.executionMode := by
  have hf := h.dirty
  have hdl := h.depth_eq
  cases hm : m.dirtyKeys <;> cases hl : l.opened <;> rw [hm, hl] at hf <;> cases hf
  case nil.nil => simp [transactionDepth, hm] at hd
  case cons.cons d ds t ts ht hts =>
    have hmem {k : K} (hk : k ∈ d.toList) : ∃ w, t k = some w ∧ l.versions k = w :: l.below k := by
      rw [mem_toList, ht] at hk
      obtain ⟨w, hw⟩ := Option.isSome_iff_exists.mp hk
      exact ⟨w, hw, Layers.versions_eq_cons (by simp [Layers.innermost, hl, hw])⟩
    have hbelow (k : K) := Layers.rollback_versions (l := l) (k := k) (hdl ▸ hd)
    -- A version is merged if the next layer holds the key too.
    obtain ⟨changes, hm', he, hfr⟩ := foldlM_keys (m := { m with dirtyKeys := ds })
      (f := OverlayedMap.commitKey c) (g := fun d k => d.modifyHead (·.insert k))
      (p := fun d k => match d with
        | d :: _ => k ∈ d ↔ (l.rollback.innermost k).isSome
        | [] => 1 < (l.versions k).length ↔ (l.rollback.innermost k).isSome)
      (u := l.versions) (v := l.commit.versions)
      (fun d k k' hk hp => by
        cases d
        case nil => exact hp
        case cons => simpa only [List.modifyHead_cons, mem_insert_iff, hk, false_or])
      d.nodup_toList
      (fun m k hk hv hp => by
        obtain ⟨w, htk, hw⟩ := hmem hk
        refine commitKey hc hv (by simp [hw]) hp ?_
        rw [Layers.commit_versions_of_mem hl htk]
        cases hi : l.rollback.innermost k
        case none =>
          simp only [Option.isSome_none, Bool.false_eq_true, if_false]
          rw [hw, ← hbelow, Layers.versions_eq_below hi]
        case some v =>
          exact ⟨w, v, _, by rw [hw, ← hbelow, Layers.versions_eq_cons hi], rfl⟩)
      (fun k _ => h.entries k)
      (fun k hk => by
        obtain ⟨w, htk, _⟩ := hmem hk
        cases ds <;> cases ts <;> cases hts
        case nil.nil =>
          cases hb : l.base k <;>
            simp [Layers.versions, Layers.rollback, Layers.innermost, hl, htk, hb]
        case cons.cons hu _ => simpa [Layers.rollback, hl, Layers.innermost] using hu k)
    rw [closeTransactionWith_eq hm ho, if_neg Bool.false_ne_true, hm']
    refine ⟨_, Except.ok_bind .., ⟨?_, fun k => ?_⟩, rfl, rfl⟩
    · rw [Layers.commit, hl]
      cases ds <;> cases ts <;> cases hts
      case nil.nil => rw [List.foldl_fixed' fun _ => rfl]; exact .nil
      case cons.cons hu hus =>
        rw [@List.foldl_hom _ _ _ (· :: _) (·.insert ·) _ _ _ fun _ _ => rfl]
        refine .cons (fun k => ?_) hus
        rw [ExtTreeSet.mem_foldl_insert, hu, mem_toList, ht]
        cases htk : t k <;> simp [Layers.merge, htk]
    · by_cases hk : k ∈ d.toList
      case pos => exact he k hk
      case neg =>
        rw [hfr k hk]
        rw [mem_toList, ht, Option.not_isSome_iff_eq_none] at hk
        rw [Layers.commit_versions_of_not_mem hl hk]
        exact h.entries k

-- The loop condition of `exit_runtime` ensures that each of its passes
-- finds a transaction to close.
theorem rollbackOpen [DecidableEq K] (h : Tracks R m l) (hc : c.Lawful R)
    (hm : m.executionMode = .client) (passes : Nat)
    (hp : m.transactionDepth ≤ m.numClientTransactions + passes) :
    ∃ m', OverlayedMap.rollbackOpen c passes m = .ok m' ∧
      Tracks R m' (l.rollbackTo m.numClientTransactions) ∧
      m'.numClientTransactions = m.numClientTransactions ∧ m'.executionMode = .client := by
  induction passes generalizing m l
  case zero =>
    rw [Layers.rollbackTo_of_le (h.depth_eq ▸ hp)]
    exact ⟨m, rfl, h, rfl, hm⟩
  case succ passes hi =>
    rw [OverlayedMap.rollbackOpen, hasOpenRuntimeTransactions]
    by_cases ho : m.transactionDepth > m.numClientTransactions
    case pos =>
      obtain ⟨m1, hm1, h1, hn1, he1⟩ := h.rollback hc (by omega) (by simp [hm])
      have hd1 : m1.transactionDepth = m.transactionDepth - 1 := by
        rw [h1.depth_eq, Layers.depth_rollback, h.depth_eq]
      obtain ⟨m2, hm2, h2, hn2, he2⟩ := hi h1 (he1.trans hm) (by omega)
      refine ⟨m2, ?_, ?_, hn2.trans hn1, he2⟩
      · simpa [ho, hm1, Except.toOption, expect] using hm2
      · rwa [hn1, Layers.rollback_rollbackTo (h.depth_eq ▸ ho)] at h2
    case neg =>
      rw [Layers.rollbackTo_of_le (by have := h.depth_eq; omega)]
      exact ⟨m, by simp [ho], h, rfl, hm⟩

theorem exitRuntime [DecidableEq K] (h : Tracks R m l) (hc : c.Lawful R)
    (hm : m.executionMode = .runtime) :
    ∃ m', m.exitRuntimeWith c = .ok (.ok m') ∧ Tracks R m' (l.rollbackTo m.numClientTransactions) ∧
      m'.numClientTransactions = m.numClientTransactions ∧ m'.executionMode = .client := by
  obtain ⟨m', hm', h', hn, he⟩ := rollbackOpen (m := { m with executionMode := .client })
    ⟨h.dirty, h.entries⟩ hc rfl m.transactionDepth (by simp [transactionDepth])
  exact ⟨m', by simp [exitRuntimeWith, hm, hm'], h', hn, he⟩

end Tracks
end Overlay
