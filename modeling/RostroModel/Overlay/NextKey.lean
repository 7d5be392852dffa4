import RostroModel.Overlay.Lockstep

namespace Overlay

open Std

-- The state below the externalities, as far as they read keys of it.
structure KeyBackend where
  storage : StorageKey → Option StorageValue
  childStorage : ChildInfo → StorageKey → Option StorageValue
  nextStorageKey : StorageKey → Option StorageKey
  nextChildStorageKey : ChildInfo → StorageKey → Option StorageKey

-- The least key after the given one that has the property.
inductive LeastAfter (P : StorageKey → Prop) (key : StorageKey) : Option StorageKey → Prop
  | none : (∀ k, compare key k = .lt → ¬P k) → LeastAfter P key none
  | some {k} : compare key k = .lt → P k →
    (∀ k', compare key k' = .lt → P k' → compare k' k ≠ .lt) →
    LeastAfter P key (some k)

namespace OverlayedChangeSet

variable (codec : CompactCodec) (next : StorageKey → Option StorageKey)

def changesAfter (m : OverlayedChangeSet) (key : StorageKey) : List (StorageKey × OverlayedValue) :=
  m.changes.toList.filter fun e => compare key e.1 = .lt

-- Reading the value of an entry through the iterator, which materializes it in its place.
def readEntry (m : OverlayedChangeSet) (key : StorageKey) (e : OverlayedValue) :
    Except Panic (Option StorageValue × OverlayedChangeSet) := do
  let (value, e) ← e.value codec
  pure (value, { m with changes := m.changes.insert key e })

-- The loop over the changes while the backend has a next key at first.
def mergeLoop : List (StorageKey × OverlayedValue) → Option StorageKey → OverlayedChangeSet →
    Except Panic (Option StorageKey × OverlayedChangeSet)
  | [], nextBackendKey, m => pure (nextBackendKey, m)
  | (k, e) :: changes, nextBackendKey, m =>
    let cmp := nextBackendKey.map (compare · k)
    if cmp = some .lt then pure (nextBackendKey, m) else do
      let (value, m) ← readEntry codec m k e
      if value.isSome then pure (some k, m)
      else if cmp = some .eq then mergeLoop changes (next k) m
      else mergeLoop changes nextBackendKey m

def findValue : List (StorageKey × OverlayedValue) → OverlayedChangeSet →
    Except Panic (Option StorageKey × OverlayedChangeSet)
  | [], m => pure (none, m)
  | (k, e) :: changes, m => do
    let (value, m) ← readEntry codec m k e
    if value.isSome then pure (some k, m) else findValue changes m

-- The common part of `next_storage_key` and `next_child_storage_key`.
def nextKey (m : OverlayedChangeSet) (key : StorageKey) :
    Except Panic (Option StorageKey × OverlayedChangeSet) :=
  match next key, m.changesAfter key with
  | nextBackendKey, [] => pure (nextBackendKey, m)
  | some k, changes => mergeLoop codec next changes (some k) m
  | none, changes => findValue codec changes m

-- The value that the overlay has for a key, or the backend if the overlay has none for it.
def merged (backend : StorageKey → Option StorageValue) (m : OverlayedChangeSet)
    (key : StorageKey) :
    Option StorageValue :=
  match m.changes[key]? with
  | some e => observed codec e
  | none => backend key

end OverlayedChangeSet

namespace OverlayedChanges

variable {Hash Transaction : Type} (codec : CompactCodec) (b : KeyBackend)

def nextStorageKey (s : OverlayedChanges Hash Transaction) (key : StorageKey) :
    Except Panic (Option StorageKey × OverlayedChanges Hash Transaction) := do
  let (k, top) ← s.top.nextKey codec b.nextStorageKey key
  pure (k, { s with top })

-- A child that the overlay does not know has no changes.
def nextChildStorageKey (s : OverlayedChanges Hash Transaction) (childInfo : ChildInfo)
    (key : StorageKey) :
    Except Panic (Option StorageKey × OverlayedChanges Hash Transaction) :=
  match s.children[childInfo.storageKey]? with
  | none => pure (b.nextChildStorageKey childInfo key, s)
  | some (changeset, info) => do
    let (k, changeset) ← OverlayedChangeSet.nextKey codec
      (b.nextChildStorageKey childInfo) changeset key
    pure (k, { s with children := s.children.insert childInfo.storageKey (changeset, info) })

def mergedChild (s : OverlayedChanges Hash Transaction) (childInfo : ChildInfo) (key : StorageKey) :
    Option StorageValue :=
  match s.children[childInfo.storageKey]? with
  | none => b.childStorage childInfo key
  | some (changeset, _) => changeset.merged codec (b.childStorage childInfo) key

end OverlayedChanges

open OverlayedChangeSet

variable {codec : CompactCodec} {next : StorageKey → Option StorageKey} {m : OverlayedChangeSet}
variable {key : StorageKey} {changes : List (StorageKey × OverlayedValue)}

theorem readEntry_eq {k : StorageKey} {e : OverlayedValue} (h : e.transactions ≠ []) :
    readEntry codec m k e = .ok (observed codec e,
      { m with changes := m.changes.insert k (e.materialized codec) }) := by
  rw [readEntry, OverlayedEntry.value_eq h]
  rfl

theorem mergeLoop_none (h : ∀ c ∈ changes, c.2.transactions ≠ []) :
    mergeLoop codec next changes none m = findValue codec changes m := by
  induction changes generalizing m
  case nil => rfl
  case cons c changes hi =>
    obtain ⟨hc, hcs⟩ := List.forall_mem_cons.mp h
    rw [mergeLoop, findValue, readEntry_eq hc]
    simp only [Option.map_none, reduceCtorEq, if_false, Except.ok_bind]
    split_ifs
    · rfl
    · exact hi hcs

theorem nextKey_eq (h : ∀ c ∈ m.changesAfter key, c.2.transactions ≠ []) :
    nextKey codec next m key = mergeLoop codec next (m.changesAfter key) (next key) m := by
  rw [nextKey]
  cases hc : m.changesAfter key
  case nil => cases next key <;> rfl
  case cons c changes =>
    rw [hc] at h
    cases next key
    case none => exact (mergeLoop_none h).symm
    case some k => rfl

section Least

variable {has : StorageKey → Prop} {o : StorageKey → Option (Option StorageValue)}

-- What the merged view has, for what the overlay and the backend have.
def Present (o : StorageKey → Option (Option StorageValue)) (has : StorageKey → Prop)
    (k : StorageKey) : Prop :=
  (o k).elim (has k) fun v => v.isSome

-- The changes after the key, of which some have been found to be deletions.
structure Merging (codec : CompactCodec) (o : StorageKey → Option (Option StorageValue))
    (key : StorageKey) (done changes : List (StorageKey × OverlayedValue)) : Prop where
  sorted : (done ++ changes).Pairwise fun c c' => compare c.1 c'.1 = .lt
  entries : ∀ c ∈ done ++ changes, compare key c.1 = .lt ∧ o c.1 = some (observed codec c.2) ∧
    c.2.transactions ≠ []
  all : ∀ k v, compare key k = .lt → o k = some v → ∃ c ∈ done ++ changes, c.1 = k
  deleted : ∀ c ∈ done, observed codec c.2 = none

-- A key of the backend that no deletion has been found for.
def Left (has : StorageKey → Prop) (done : List (StorageKey × OverlayedValue)) (k : StorageKey) :
    Prop :=
  has k ∧ ∀ c ∈ done, c.1 ≠ k

variable {done : List (StorageKey × OverlayedValue)} {k : StorageKey} {e : OverlayedValue}

theorem Merging.push (h : Merging codec o key done ((k, e) :: changes))
    (hd : observed codec e = none) :
    Merging codec o key (done ++ [(k, e)]) changes where
  sorted := by rw [List.append_assoc]; exact h.sorted
  entries := by rw [List.append_assoc]; exact h.entries
  all := by rw [List.append_assoc]; exact h.all
  deleted := by
    intro c hc
    rcases List.mem_append.mp hc with hc | hc
    · exact h.deleted c hc
    · exact List.mem_singleton.mp hc ▸ hd

theorem Merging.lt_of_mem (h : Merging codec o key done ((k, e) :: changes))
    (hc : c ∈ done) : compare c.1 k = .lt :=
  (List.pairwise_append.mp h.sorted).2.2 c hc (k, e) (List.mem_cons_self ..)

theorem Merging.present (h : Merging codec o key done changes) (hk : compare key k' = .lt)
    (hp : Present o has k') : (∃ c ∈ changes, c.1 = k' ∧ (observed codec c.2).isSome) ∨
      o k' = none ∧ Left has done k' := by
  rw [Present] at hp
  cases ho : o k'
  case none =>
    refine .inr ⟨rfl, by simpa [ho] using hp, fun c hc he => ?_⟩
    have := (h.entries c (List.mem_append_left _ hc)).2.1
    rw [he, ho] at this
    cases this
  case some v =>
    obtain ⟨c, hc, rfl⟩ := h.all k' v hk ho
    have hv := (h.entries c hc).2.1
    rw [ho] at hv
    cases hv
    rcases List.mem_append.mp hc with hc | hc
    · simp [ho, h.deleted c hc] at hp
    · exact .inl ⟨c, hc, rfl, by simpa [ho] using hp⟩

theorem compare_eq_lt_of_ne {a b : StorageKey} (h : compare a b ≠ .lt) (hne : a ≠ b) :
    compare b a = .lt := by
  cases hc : compare a b
  case lt => exact absurd hc h
  case eq => exact absurd (LawfulEqCmp.eq_of_compare hc) hne
  case gt => exact OrientedCmp.gt_iff_lt.mp hc

theorem not_lt_of_lt {a b : StorageKey} (h : compare a b = .lt) : compare b a ≠ .lt := by
  intro h'
  have hself : compare a a = .eq := ReflCmp.compare_self
  rw [TransCmp.lt_trans h h'] at hself
  cases hself

theorem Merging.first_le (h : Merging codec o key done ((k, e) :: changes))
    (hc : c ∈ (k, e) :: changes) : compare c.1 k ≠ .lt := by
  rcases List.mem_cons.mp hc with rfl | hc
  · intro hlt
    exact not_lt_of_lt hlt hlt
  · exact not_lt_of_lt (List.rel_of_pairwise_cons (List.pairwise_append.mp h.sorted).2.1 hc)

theorem not_lt_trans {a b c : StorageKey} (h : compare a b ≠ .lt) (h' : compare b c ≠ .lt) :
    compare a c ≠ .lt := by
  intro hac
  by_cases hab : a = b
  · exact h' (hab ▸ hac)
  · exact h' (TransCmp.lt_trans (compare_eq_lt_of_ne h hab) hac)

-- The backend key is before all changes to come, so it is not changed.
theorem Merging.least_backend (h : Merging codec o key done changes) {b : StorageKey}
    (hb : LeastAfter (Left has done) key (some b)) (hlt : ∀ c ∈ changes, compare b c.1 = .lt) :
    LeastAfter (Present o has) key (some b) := by
  cases hb
  case some hkb hleft hleast =>
    refine .some hkb ?_ fun k' hk' hp => ?_
    · rw [Present]
      cases ho : o b
      case none => exact hleft.1
      case some v =>
        obtain ⟨c, hc, rfl⟩ := h.all b v hkb ho
        rcases List.mem_append.mp hc with hc | hc
        · exact absurd rfl (hleft.2 c hc)
        · exact absurd (hlt c hc) (not_lt_of_lt (hlt c hc))
    · rcases h.present hk' hp with ⟨c, hc, rfl, -⟩ | ⟨-, hl⟩
      · exact not_lt_of_lt (hlt c hc)
      · exact hleast k' hk' hl

theorem Merging.least_change (h : Merging codec o key done ((k, e) :: changes))
    (hb : LeastAfter (Left has done) key nextBackendKey)
    (hnot : nextBackendKey.map (compare · k) ≠ some .lt) (hv : (observed codec e).isSome) :
    LeastAfter (Present o has) key (some k) := by
  obtain ⟨hk, ho, -⟩ := h.entries (k, e) (List.mem_append_right _ (List.mem_cons_self ..))
  refine .some hk ?_ fun k' hk' hp => ?_
  · rw [Present, ho]
    exact hv
  · rcases h.present hk' hp with ⟨c, hc, rfl, -⟩ | ⟨-, hl⟩
    · exact h.first_le hc
    · cases hb
      case none hno => exact absurd hl (hno k' hk')
      case some b hkb hleft hleast =>
        have hbk : compare b k ≠ .lt := fun hlt => hnot (congrArg some hlt)
        exact not_lt_trans (hleast k' hk' hl) hbk

theorem left_push (hb : LeastAfter (Left has done) key nextBackendKey)
    (hne : nextBackendKey.map (compare · k) ≠ some .eq) :
    LeastAfter (Left has (done ++ [(k, e)])) key nextBackendKey := by
  have hmono {b : StorageKey} (hl : Left has (done ++ [(k, e)]) b) : Left has done b :=
    ⟨hl.1, fun c hc => hl.2 c (List.mem_append_left _ hc)⟩
  cases hb
  case none hno => exact .none fun b hkb hl => hno b hkb (hmono hl)
  case some b hkb hleft hleast =>
    refine .some hkb ⟨hleft.1, fun c hc => ?_⟩ fun k' hk' hl => hleast k' hk' (hmono hl)
    rcases List.mem_append.mp hc with hc | hc
    · exact hleft.2 c hc
    · rintro rfl
      cases List.mem_singleton.mp hc
      exact hne (congrArg some ReflCmp.compare_self)

theorem Merging.left_next (h : Merging codec o key done ((k, e) :: changes))
    (hnext : ∀ k, LeastAfter has k (next k)) (hb : LeastAfter (Left has done) key (some k)) :
    LeastAfter (Left has (done ++ [(k, e)])) key (next k) := by
  have hafter {b : StorageKey} (hkb : compare key b = .lt) (hl : Left has (done ++ [(k, e)]) b) :
      compare k b = .lt := by
    cases hb
    case some hkk hleft hleast =>
      refine compare_eq_lt_of_ne
        (hleast b hkb ⟨hl.1, fun c hc => hl.2 c (List.mem_append_left _ hc)⟩) ?_
      rintro rfl
      exact hl.2 _ (List.mem_append_right _ (List.mem_singleton_self _)) rfl
  have hkk : compare key k = .lt := by
    cases hb
    assumption
  have hn := hnext k
  generalize next k = n at hn
  cases hn
  case none hno => exact .none fun b hkb hl => hno b (hafter hkb hl) hl.1
  case some b hkb hhas hleast =>
    refine .some (TransCmp.lt_trans hkk hkb) ⟨hhas, fun c hc => ?_⟩ fun k' hk' hl =>
      hleast k' (hafter hk' hl) hl.1
    rcases List.mem_append.mp hc with hc | hc
    · rintro rfl
      exact not_lt_of_lt hkb (h.lt_of_mem hc)
    · rintro rfl
      cases List.mem_singleton.mp hc
      exact not_lt_of_lt hkb hkb

-- The loop finds the least key of the merged view: every change it passes is a deletion.
theorem mergeLoop_least {nextBackendKey : Option StorageKey}
    (hnext : ∀ k, LeastAfter has k (next k)) (h : Merging codec o key done changes)
    (hb : LeastAfter (Left has done) key nextBackendKey) :
    ∃ r m', mergeLoop codec next changes nextBackendKey m = .ok (r, m') ∧
      LeastAfter (Present o has) key r := by
  induction changes generalizing done nextBackendKey m
  case nil =>
    refine ⟨nextBackendKey, m, rfl, ?_⟩
    cases hcase : nextBackendKey
    case some b => exact h.least_backend (hcase ▸ hb) fun c hc => by cases hc
    case none =>
      rw [hcase] at hb
      cases hb
      case none hno =>
        refine .none fun k hk hp => ?_
        rcases h.present hk hp with ⟨c, hc, -⟩ | ⟨-, hl⟩
        · cases hc
        · exact hno k hk hl
  case cons c changes hi =>
    obtain ⟨k, e⟩ := c
    have hpop := (h.entries (k, e) (List.mem_append_right _ (List.mem_cons_self ..))).2.2
    rw [mergeLoop]
    split
    case isTrue hlt =>
      obtain ⟨b, rfl, hbk⟩ := Option.map_eq_some_iff.mp hlt
      refine ⟨some b, m, rfl, h.least_backend hb fun c hc => ?_⟩
      rcases List.mem_cons.mp hc with rfl | hc
      · exact hbk
      · exact TransCmp.lt_trans hbk
          (List.rel_of_pairwise_cons (List.pairwise_append.mp h.sorted).2.1 hc)
    case isFalse hlt =>
      rw [readEntry_eq hpop, Except.ok_bind]
      dsimp only
      cases hv : observed codec e
      case some v => exact ⟨some k, _, rfl, h.least_change hb hlt (by rw [hv]; rfl)⟩
      case none =>
        by_cases heq : nextBackendKey.map (compare · k) = some .eq
        · rw [if_pos heq]
          obtain ⟨b, rfl, hbk⟩ := Option.map_eq_some_iff.mp heq
          cases LawfulEqCmp.eq_of_compare hbk
          exact hi (h.push hv) (h.left_next hnext hb)
        · rw [if_neg heq]
          exact hi (h.push hv) (left_push hb heq)

end Least

def overlayed (codec : CompactCodec) (m : OverlayedChangeSet) (k : StorageKey) :
    Option (Option StorageValue) :=
  m.changes[k]?.map (observed codec)

theorem merging_changesAfter (h : m.Populated) :
    Merging codec (overlayed codec m) key [] (m.changesAfter key) where
  sorted := by
    have hs : m.changes.toList.Pairwise fun c c' => compare c.1 c'.1 = .lt :=
      ExtTreeMap.ordered_keys_toList
    exact hs.filter _
  entries c hc := by
    obtain ⟨hmem, hlt⟩ := List.mem_filter.mp hc
    have hget := ExtTreeMap.mem_toList_iff_getElem?_eq_some.mp hmem
    exact ⟨of_decide_eq_true hlt, by rw [overlayed, hget]; rfl, h.entry c.1 c.2 hget⟩
  all k v hk hv := by
    obtain ⟨e, he, -⟩ := Option.map_eq_some_iff.mp hv
    exact ⟨(k, e), List.mem_filter.mpr ⟨ExtTreeMap.mem_toList_iff_getElem?_eq_some.mpr he,
      decide_eq_true hk⟩, rfl⟩
  deleted c hc := by cases hc

theorem nextKey_least {has : StorageKey → Option StorageValue} (hm : m.Populated)
    (hnext : ∀ k, LeastAfter (fun k => has k ≠ none) k (next k)) (key : StorageKey) :
    ∃ r m', nextKey codec next m key = .ok (r, m') ∧
      LeastAfter (fun k => m.merged codec has k ≠ none) key r := by
  have hmerge := @merging_changesAfter codec m key hm
  rw [nextKey_eq fun c hc => (hmerge.entries c hc).2.2]
  have hstart : LeastAfter (Left (fun k => has k ≠ none) []) key (next key) := by
    have hleft : Left (fun k => has k ≠ none) [] = fun k => has k ≠ none := by
      funext k
      simp [Left]
    rw [hleft]
    exact hnext key
  obtain ⟨r, m', he, hl⟩ := @mergeLoop_least codec next m key _ _ _ _ _ hnext hmerge hstart
  have hview : Present (overlayed codec m) (fun k => has k ≠ none) = fun k =>
      m.merged codec has k ≠ none := by
    funext k
    rw [Present, overlayed, merged]
    cases m.changes[k]?
    case none => rfl
    case some e => simp [Option.isSome_iff_ne_none]
  exact ⟨r, m', he, hview ▸ hl⟩

-- For every state of the overlay and every backend whose next keys are right, the next key of the
-- main storage and of each child is the least one of the merged view.
theorem next_keys_least {Hash Transaction : Type} {s : OverlayedChanges Hash Transaction}
    (hs : s.Populated) (b : KeyBackend)
    (htop : ∀ k, LeastAfter (fun k => b.storage k ≠ none) k (b.nextStorageKey k))
    (hchild : ∀ info k, LeastAfter (fun k =>
      b.childStorage info k ≠ none) k (b.nextChildStorageKey info k))
    (key : StorageKey) :
    (∃ r s', s.nextStorageKey codec b key = .ok (r, s') ∧
      LeastAfter (fun k => s.top.merged codec b.storage k ≠ none) key r) ∧
    ∀ info, ∃ r s', s.nextChildStorageKey codec b info key = .ok (r, s') ∧
      LeastAfter (fun k => s.mergedChild codec b info k ≠ none) key r := by
  refine ⟨?_, fun info => ?_⟩
  · obtain ⟨r, top, he, hl⟩ := @nextKey_least codec _ _ _ hs.top htop key
    exact ⟨r, { s with top }, by rw [OverlayedChanges.nextStorageKey, he]; rfl, hl⟩
  · rw [OverlayedChanges.nextChildStorageKey]
    simp only [OverlayedChanges.mergedChild]
    cases hc : s.children[info.storageKey]?
    case none => exact ⟨_, s, rfl, hchild info key⟩
    case some child =>
      obtain ⟨r, changeset', he, hl⟩ :=
        @nextKey_least codec _ _ _ (hs.children _ _ hc) (hchild info) key
      exact ⟨r, _, by dsimp only; rw [he]; rfl, hl⟩

-- A backend with one key, and an overlay that deletes another one.
def sampleKeys : KeyBackend where
  storage k := if k = [5] then some [1] else none
  childStorage _ _ := none
  nextStorageKey k := if compare k [5] = .lt then some [5] else none
  nextChildStorageKey _ _ := none

def sampleOverlay : OverlayedChanges Unit Unit where
  top :=
    { changes := (∅ : ExtTreeMap StorageKey OverlayedValue).insert [3] ⟨[{ value := .remove }]⟩ }

theorem sampleOverlay_populated : sampleOverlay.Populated where
  top :=
    { entry := fun k e he => by
        rw [sampleOverlay, ExtTreeMap.lookup_insert] at he
        split_ifs at he
        · cases he
          exact List.cons_ne_nil _ _
        · simp at he
      dirty := fun d hd => by cases hd }
  children k child hc := by simp [sampleOverlay] at hc
  offchain :=
    { entry := fun k e he => by simp [sampleOverlay] at he
      dirty := fun d hd => by cases hd }

theorem sampleKeys_least (k : StorageKey) :
    LeastAfter (fun k => sampleKeys.storage k ≠ none) k (sampleKeys.nextStorageKey k) := by
  simp only [sampleKeys]
  split_ifs with hlt
  · refine .some hlt (by simp) fun k' _ hk' => ?_
    have he : k' = [5] := by simpa using hk'
    rw [he]
    decide
  · refine .none fun k' hk hk' => hlt ?_
    have he : k' = [5] := by simpa using hk'
    exact he ▸ hk

theorem sampleOverlay_next : sampleOverlay.Populated ∧
    ∃ r s', sampleOverlay.nextStorageKey CompactCodec.scale sampleKeys [1] = .ok (r, s') ∧
      LeastAfter (fun k => sampleOverlay.top.merged CompactCodec.scale sampleKeys.storage k ≠ none)
        [1] r :=
  ⟨sampleOverlay_populated, (next_keys_least sampleOverlay_populated sampleKeys sampleKeys_least
    (fun _ _ => .none fun _ _ h => h rfl) [1]).1⟩

end Overlay
