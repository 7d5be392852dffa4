import RostroModel.TransactionPool.Ready

namespace TransactionPool

open Std.ExtTreeMap
open Function (update update_of_ne)

variable {H T : Type} [LinearOrder H]

namespace ReadyTransactions

variable {order : Orders H} {r r' : ReadyTransactions H T}
  {ready ready' : Std.ExtTreeMap H (ReadyTx H T)} {tx : ReadyTx H T} {w : WaitingTransaction H T}
  {hash : H} {hashes stack : List H} {tag : T} {tags : List T} {filter : Option (List T)}
  {provided : T → Option H}

def transactions (r : ReadyTransactions H T) : Multiset (Transaction H T) :=
  r.ready.collect (·.transaction.transaction)

-- The references in the queue are the same. The links may differ.
def SameRefs (ready ready' : Std.ExtTreeMap H (ReadyTx H T)) : Prop :=
  ∀ hash : H, (ready[hash]?).map (·.transaction) = (ready'[hash]?).map (·.transaction)

namespace SameRefs

theorem refl (ready : Std.ExtTreeMap H (ReadyTx H T)) : SameRefs ready ready :=
  fun _ => rfl

theorem symm (h : SameRefs ready ready') : SameRefs ready' ready :=
  fun hash => (h hash).symm

theorem trans (h : SameRefs ready ready') (h' : SameRefs ready' ready'') : SameRefs ready ready'' :=
  fun hash => (h hash).trans (h' hash)

theorem insert (h : ready[hash]? = some tx) {tx' : ReadyTx H T}
    (ht : tx'.transaction = tx.transaction) :
    SameRefs (ready.insert hash tx') ready := by
  intro k
  rw [lookup_insert]
  split_ifs with hk
  · rw [hk, h, Option.map_some, Option.map_some, ht]
  · rfl

theorem some_of_some (h : SameRefs ready ready') (hr : ready[hash]? = some tx) :
    ∃ tx', ready'[hash]? = some tx' ∧ tx'.transaction = tx.transaction := by
  have hh := h hash
  rw [hr, Option.map_some, eq_comm, Option.map_eq_some_iff] at hh
  exact hh

theorem collect (h : SameRefs ready ready') :
    ready.collect (·.transaction.transaction) = ready'.collect (·.transaction.transaction) := by
  refine collect_congr fun k => ?_
  have hk := congrArg (Option.map TransactionRef.transaction) (h k)
  simpa only [Option.map_map, Function.comp_def] using hk

theorem none_iff (h : SameRefs ready ready') : ready[hash]? = none ↔ ready'[hash]? = none := by
  rw [← Option.map_eq_none_iff (f := ReadyTx.transaction), h hash, Option.map_eq_none_iff]

end SameRefs

-- Every hash from `provided_tags` is present in `ready`, and every tag of a ready transaction is
-- mapped to it. While transactions are replaced this is not so for the tags of the new one.
structure Provides (r : ReadyTransactions H T) (stale : List T) : Prop where
  hash : ∀ (h : H) tx, r.ready[h]? = some tx → tx.transaction.transaction.hash = h
  provided : ∀ t ∉ stale, ∀ h, r.providedTags t = some h ↔
    ∃ tx, r.ready[h]? = some tx ∧ t ∈ tx.transaction.transaction.provides

theorem provides_empty : ({} : ReadyTransactions H T).Provides [] := by
  constructor <;> simp

theorem Provides.mem_transactions (h : r.Provides tags) {tx : Transaction H T} :
    tx ∈ r.transactions ↔ ∃ t, r.ready[tx.hash]? = some t ∧ t.transaction.transaction = tx := by
  rw [transactions, mem_collect]
  constructor
  · rintro ⟨k, t, ht, rfl⟩
    rw [h.hash k t ht]
    exact ⟨t, ht, rfl⟩
  · rintro ⟨t, ht, rfl⟩
    exact ⟨_, t, ht, rfl⟩

variable [DecidableEq T]

omit [DecidableEq T] in
theorem sameRefs_removeUnlock (hash : H) (provided : T → Option H)
    (ready : Std.ExtTreeMap H (ReadyTx H T)) (tag : T) :
    SameRefs (removeUnlock hash provided ready tag) ready := by
  rw [removeUnlock]
  split
  · split
    case h_1 tx htx => exact .insert htx rfl
    case h_2 => exact .refl _
  · exact .refl _

omit [DecidableEq T] in
theorem sameRefs_foldl_removeUnlock (hash : H) (provided : T → Option H) (tags : List T)
    (ready : Std.ExtTreeMap H (ReadyTx H T)) :
    SameRefs (tags.foldl (removeUnlock hash provided) ready) ready := by
  induction tags generalizing ready
  case nil => exact .refl _
  case cons tag tags hi => exact (hi _).trans (sameRefs_removeUnlock hash provided ready tag)

theorem foldl_update {β : Type} (l : List T) (f : T → Option β) (x : Option β) (t : T) :
    l.foldl (fun f t => update f t x) f t = if t ∈ l then x else f t := by
  induction l generalizing f
  case nil => simp
  case cons t' l hi =>
    rw [List.foldl_cons, hi]
    by_cases hl : t ∈ l <;> by_cases ht : t = t' <;> simp [ht]

-- The tags that stay mapped when a transaction is removed.
def stale (filter : Option (List T)) : List T :=
  filter.getD []

omit [DecidableEq T] in
theorem transactions_of_erase (hr : r.ready[hash]? = some tx)
    (hs : SameRefs r'.ready (r.ready.erase hash)) :
    r.transactions = tx.transaction.transaction ::ₘ r'.transactions := by
  rw [transactions, transactions, collect_erase hr, hs.collect]

theorem sameRefs_removeOne (r : ReadyTransactions H T) (filter : Option (List T)) (hash : H)
    (tx : ReadyTx H T) :
    SameRefs (r.removeOne filter hash tx).ready (r.ready.erase hash) :=
  sameRefs_foldl_removeUnlock _ _ _ _

omit [DecidableEq T] in
theorem SameRefs.of_erase (h : SameRefs ready' (ready.erase hash)) {k : H} {tx' : ReadyTx H T}
    (hk : ready'[k]? = some tx') : k ≠ hash ∧ ∃ tx, ready[k]? = some tx ∧
      tx.transaction = tx'.transaction := by
  obtain ⟨tx, hk', he⟩ := h.some_of_some hk
  rw [lookup_erase] at hk'
  split_ifs at hk' with hne
  exact ⟨hne, tx, hk', he⟩

-- One transaction has been removed, and its tags are not mapped any more.
theorem Provides.erased (h : r.Provides tags) (hr : r.ready[hash]? = some tx)
    (hs : SameRefs r'.ready (r.ready.erase hash))
    (hp : ∀ t ∉ tags, r'.providedTags t = if t ∈ tx.transaction.transaction.provides then none
      else r.providedTags t) :
    r'.Provides tags := by
  constructor
  case hash =>
    intro k tx' hk
    obtain ⟨-, tx'', hk', ht⟩ := hs.of_erase hk
    rw [← ht]
    exact h.hash k tx'' hk'
  case provided =>
    intro t ht k
    have hlook : (∃ tx', r'.ready[k]? = some tx' ∧ t ∈ tx'.transaction.transaction.provides) ↔
        k ≠ hash ∧ r.providedTags t = some k := by
      rw [h.provided t ht k]
      constructor
      · rintro ⟨tx', hk, hm⟩
        obtain ⟨hne, tx'', hk', he⟩ := hs.of_erase hk
        exact ⟨hne, tx'', hk', he ▸ hm⟩
      · rintro ⟨hne, tx', hk, hm⟩
        rw [← lookup_erase_ne (t := r.ready) hne] at hk
        obtain ⟨tx'', hk', he⟩ := hs.symm.some_of_some hk
        exact ⟨tx'', hk', he ▸ hm⟩
    rw [hlook, hp t ht]
    split_ifs with hm
    · -- The tag was mapped to the removed transaction.
      have hmine := (h.provided t ht hash).mpr ⟨tx, hr, hm⟩
      simp only [hmine, Option.some.injEq, false_iff, not_and]
      exact fun hne he => hne he.symm
    · refine ⟨fun hk => ⟨?_, hk⟩, And.right⟩
      rintro rfl
      obtain ⟨tx', hk', hm'⟩ := (h.provided t ht k).mp hk
      rw [hr] at hk'
      cases hk'
      exact hm hm'

theorem Provides.removeOne (h : r.Provides (stale filter)) (hr : r.ready[hash]? = some tx) :
    (r.removeOne filter hash tx).Provides (stale filter) := by
  refine h.erased hr (sameRefs_removeOne r filter hash tx) fun t ht => ?_
  have hinv : t ∈ invalidated filter tx.transaction.transaction ↔
      t ∈ tx.transaction.transaction.provides := by
    rw [invalidated, List.mem_filter]
    refine and_iff_left ?_
    cases filter
    case none => rfl
    case some f => simpa [stale] using ht
  simp only [ReadyTransactions.removeOne, foldl_update, hinv]

structure Removes (r : ReadyTransactions H T) (removed : List (Transaction H T))
    (r' : ReadyTransactions H T) : Prop where
  transactions : r.transactions = Multiset.ofList removed + r'.transactions
  keeps : ∀ (k : H) tx', r'.ready[k]? = some tx' →
    ∃ tx, r.ready[k]? = some tx ∧ tx.transaction = tx'.transaction
  insertionId : r'.insertionId = r.insertionId

omit [DecidableEq T] in
theorem Removes.refl (r : ReadyTransactions H T) : r.Removes [] r :=
  ⟨by simp, fun _ tx hk => ⟨tx, hk, rfl⟩, rfl⟩

omit [DecidableEq T] in
theorem Removes.none (h : r.Removes removed r') (hk : r.ready[hash]? = none) :
    r'.ready[hash]? = none := by
  rw [Option.eq_none_iff_forall_ne_some]
  intro tx' hk'
  obtain ⟨tx, hr, -⟩ := h.keeps hash tx' hk'
  rw [hk] at hr
  cases hr

omit [DecidableEq T] in
theorem removes_of_erase (hr : r.ready[hash]? = some tx)
    (hs : SameRefs r'.ready (r.ready.erase hash)) (hid : r'.insertionId = r.insertionId) :
    r.Removes [tx.transaction.transaction] r' :=
  ⟨transactions_of_erase hr hs, fun _ _ hk => (hs.of_erase hk).2, hid⟩

omit [DecidableEq T] in
theorem Removes.trans
    (h : r.Removes removed r') (h' : r'.Removes removed' r'') :
    r.Removes (removed ++ removed') r'' := by
  constructor
  case transactions => rw [h.transactions, h'.transactions, ← Multiset.coe_add, add_assoc]
  case keeps =>
    intro k tx hk
    obtain ⟨tx', hk', he⟩ := h'.keeps k tx hk
    obtain ⟨tx'', hk'', he'⟩ := h.keeps k tx' hk'
    exact ⟨tx'', hk'', he'.trans he⟩
  case insertionId => rw [h'.insertionId, h.insertionId]

omit [DecidableEq T] in
theorem size_of_removes (h : r.Removes [tx.transaction.transaction] r') :
    r.ready.size = r'.ready.size + 1 := by
  have hc := congrArg Multiset.card h.transactions
  simpa [transactions, card_collect] using hc

theorem removeLoop_spec (filter : Option (List T)) (rounds : Nat) (stack : List H)
    (h : r.Provides (stale filter)) :
    (removeLoop filter rounds stack r).2.Provides (stale filter) ∧
      r.Removes (removeLoop filter rounds stack r).1 (removeLoop filter rounds stack r).2 ∧
      (rounds = r.ready.size → ∀ k ∈ stack,
        (removeLoop filter rounds stack r).2.ready[k]? = none) := by
  induction rounds generalizing stack r
  case zero =>
    refine ⟨h, .refl r, fun hz k _ => ?_⟩
    have : r.ready = ∅ := eq_empty_iff_size_eq_zero.mpr hz.symm
    simp [removeLoop, this]
  case succ rounds hi =>
    have hsplit := stack.takeWhile_append_dropWhile (p := fun hash => r.ready[hash]?.isNone)
    have hskip (k) (hk : k ∈ stack.takeWhile fun hash =>
        r.ready[hash]?.isNone) : r.ready[k]? = none := by
      simpa using List.mem_takeWhile_imp hk
    rw [removeLoop]
    cases hd : stack.dropWhile fun hash => r.ready[hash]?.isNone
    case nil =>
      refine ⟨h, .refl r, fun _ k hk => hskip k ?_⟩
      rw [hd, List.append_nil] at hsplit
      rwa [hsplit]
    case cons hash rest =>
      have hhead : r.ready[hash]?.isNone = false := by
        have := List.head?_dropWhile_not (fun hash => r.ready[hash]?.isNone) stack
        simpa [hd] using this
      cases hr : r.ready[hash]?
      case none => simp [hr] at hhead
      case some tx =>
        simp only [hr]
        have hone : r.Removes _ (r.removeOne filter hash tx) :=
          removes_of_erase hr (sameRefs_removeOne _ _ _ _) rfl
        obtain ⟨hp, hrem, hall⟩ :=
          hi ((if invalidated filter tx.transaction.transaction = [] then []
          else tx.unlocks.reverse) ++ rest) (h.removeOne hr)
        refine ⟨hp, hone.trans hrem, fun hsize k hk => ?_⟩
        have hsize' : rounds = (r.removeOne filter hash tx).ready.size := by
          have := size_of_removes hone
          omega
        rw [hd] at hsplit
        rw [← hsplit, List.mem_append, List.mem_cons] at hk
        rcases hk with hk | rfl | hk
        · exact hrem.none (hone.none (hskip k hk))
        · apply hrem.none
          rw [(sameRefs_removeOne r filter k tx).none_iff]
          exact getElem?_erase_self
        · exact hall hsize' k (List.mem_append_right _ hk)

theorem removeSubtree_spec (h : r.Provides []) (hashes : List H) :
    (r.removeSubtree hashes).2.Provides [] ∧
      r.Removes (r.removeSubtree hashes).1 (r.removeSubtree hashes).2 ∧
      ∀ k ∈ hashes, (r.removeSubtree hashes).2.ready[k]? = none := by
  obtain ⟨hp, hr, hall⟩ := removeLoop_spec none r.ready.size hashes.reverse (r := r) h
  exact ⟨hp, hr, fun k hk => hall rfl k (List.mem_reverse.mpr hk)⟩

-- Nothing that is left provides a tag of the new transaction.
theorem replacePrevious_spec (horder : order.Permutes) (h : r.Provides []) (tx : Transaction H T) :
    (∃ old new, r.replacePrevious order tx = .error (.tooLowPriority old new)) ∨
    ∃ removed unlocks r', r.replacePrevious order tx = .ok (removed, unlocks, r') ∧
      r'.Provides tx.provides ∧ r.Removes removed r' ∧
      ∀ (k : H) tx', r'.ready[k]? = some tx' →
        ∀ t ∈ tx.provides, t ∉ tx'.transaction.transaction.provides := by
  have hmem (k : H) : k ∈ order.here (r.replaceHashes tx) ↔
      ∃ t ∈ tx.provides, r.providedTags t = some k := by
    rw [(horder.here _).mem_iff, replaceHashes, List.mem_dedup, List.mem_filterMap]
  -- Who provides a tag of the transaction is among the hashes.
  have hprov (k : H) (tx') (hk : r.ready[k]? = some tx') (t) (ht : t ∈ tx.provides)
      (hm : t ∈ tx'.transaction.transaction.provides) : k ∈ order.here (r.replaceHashes tx) :=
    (hmem k).mpr ⟨t, ht, (h.provided t (by simp) k).mpr ⟨tx', hk, hm⟩⟩
  have hstale : r.Provides (stale (some tx.provides)) := ⟨h.hash, fun t _ => h.provided t (by simp)⟩
  rw [replacePrevious]
  simp only
  split_ifs with hnil hlow
  · refine .inr ⟨[], [], r, rfl, hstale, .refl r, fun k tx' hk t ht hm => ?_⟩
    have := hprov k tx' hk t ht hm
    rw [hnil] at this
    cases this
  · exact .inl ⟨_, _, rfl⟩
  · obtain ⟨hp, hr, hall⟩ := removeLoop_spec (some tx.provides) r.ready.size
      (order.here (r.replaceHashes tx)).reverse hstale
    refine .inr ⟨_, _, _, rfl, hp, hr, fun k tx' hk t ht hm => ?_⟩
    obtain ⟨tx0, hk0, he⟩ := hr.keeps k tx' hk
    have hin := hprov k tx0 hk0 t ht (he ▸ hm)
    rw [removeSubtreeWithTagFilter, hall rfl k (List.mem_reverse.mpr hin)] at hk
    cases hk

omit [DecidableEq T] in
theorem link_spec (hash : H) (provided : T → Option H) (tags : List T)
    (ready : Std.ExtTreeMap H (ReadyTx H T))
    (h : ∀ t ∈ tags, ∀ k, provided t = some k → ready[k]? ≠ none) :
    ∃ offset ready', link hash provided tags ready = .ok (offset, ready') ∧
      SameRefs ready' ready := by
  induction tags generalizing ready
  case nil => exact ⟨0, ready, rfl, .refl _⟩
  case cons tag rest hi =>
    obtain ⟨htag, hrest⟩ := List.forall_mem_cons.mp h
    rw [link]
    cases hp : provided tag
    case none =>
      obtain ⟨offset, ready', he, hs⟩ := hi ready hrest
      exact ⟨offset + 1, ready', by simp only [he], hs⟩
    case some other =>
      cases hr : ready[other]?
      case none => exact absurd hr (htag other hp)
      case some tx =>
        have hins : SameRefs
            (ready.insert other { tx with unlocks := tx.unlocks ++ [hash] }) ready :=
          .insert hr rfl
        obtain ⟨offset, ready', he, hs⟩ :=
          hi (ready.insert other { tx with unlocks := tx.unlocks ++ [hash] })
          fun t ht k hk hn => hrest t ht k hk (hins.none_iff.mp hn)
        exact ⟨offset, ready', by simp only [hr, he], hs.trans hins⟩

-- A transaction that may be imported: no tag is provided twice, and none is provided and required.
structure Regular (tx : Transaction H T) : Prop where
  nodup : tx.provides.Nodup
  disjoint : ∀ t ∈ tx.requires, t ∉ tx.provides

theorem import_spec (horder : order.Permutes) (h : r.Provides []) (hw : w.isReady)
    (hn : r.ready[w.transaction.hash]? = none) (hreg : Regular w.transaction) :
    (∃ old new r', r.import order w = .ok (.error (.tooLowPriority old new), r') ∧
      r' = { r with insertionId := r.insertionId + 1 }) ∨
    ∃ removed r', r.import order w = .ok (.ok removed, r') ∧ r'.Provides [] ∧
      w.transaction ::ₘ r.transactions = Multiset.ofList removed + r'.transactions ∧
      Multiset.ofList removed ≤ r.transactions := by
  have hold (removed) (r2 : ReadyTransactions H T)
      (hrem :
        ({ r with insertionId := r.insertionId + 1 } : ReadyTransactions H T).Removes removed r2) :
      r.transactions = Multiset.ofList removed + r2.transactions := hrem.transactions
  have hmem : w.transaction.hash ∉ r.ready := by
    rw [mem_iff_isSome_getElem?, hn]
    simp
  rw [ReadyTransactions.import, if_neg (not_not.mpr hw), if_neg hmem]
  have h1 : ({ r with insertionId := r.insertionId + 1 } : ReadyTransactions H T).Provides [] :=
    ⟨h.hash, h.provided⟩
  rcases replacePrevious_spec horder h1 w.transaction with ⟨old, new, he⟩ |
    ⟨removed, unlocks, r2, he, hp, hrem, hfree⟩
  · simp only [he]
    exact .inl ⟨old, new, _, rfl, rfl⟩
  · obtain ⟨offset, ready', hl, hs⟩ :=
      link_spec w.transaction.hash r2.providedTags w.transaction.requires
      r2.ready fun t ht k hk => by
        obtain ⟨tx', hk', -⟩ := (hp.provided t (hreg.disjoint t ht) k).mp hk
        rw [hk']
        exact Option.some_ne_none _
    have hn2 : r2.ready[w.transaction.hash]? = none := hrem.none hn
    have hn' : ready'[w.transaction.hash]? = none := hs.none_iff.mpr hn2
    simp only [he, hl]
    refine .inr ⟨removed, _, rfl, ?_, ?_, ?_⟩
    · constructor
      case hash =>
        intro k tx hk
        simp only [lookup_insert] at hk
        split_ifs at hk with hkw
        · cases hk
          exact hkw.symm
        · obtain ⟨tx', hk', ht⟩ := hs.some_of_some hk
          rw [← ht]
          exact hp.hash k tx' hk'
      case provided =>
        intro t _ k
        simp only [foldl_update, lookup_insert]
        split
        case isTrue htp =>
          constructor
          · rintro ⟨⟩
            exact ⟨_, if_pos rfl, htp⟩
          · rintro ⟨tx, hk, hm⟩
            split_ifs at hk with hkw
            · rw [hkw]
            · obtain ⟨tx', hk', ht⟩ := hs.some_of_some hk
              exact absurd (ht ▸ hm) (hfree k tx' hk' t htp)
        case isFalse htp =>
          rw [hp.provided t htp k]
          constructor
          · rintro ⟨tx, hk, hm⟩
            obtain ⟨tx', hk', ht⟩ := hs.symm.some_of_some hk
            have hkw : k ≠ w.transaction.hash := by
              rintro rfl
              rw [hn2] at hk
              cases hk
            exact ⟨tx', by rw [if_neg hkw, hk'], ht ▸ hm⟩
          · rintro ⟨tx, hk, hm⟩
            split_ifs at hk with hkw
            · cases hk
              exact absurd hm htp
            · obtain ⟨tx', hk', ht⟩ := hs.some_of_some hk
              exact ⟨tx', hk', ht ▸ hm⟩
    · rw [hold removed r2 hrem]
      simp only [transactions, collect_insert hn', Multiset.add_cons, hs.collect]
    · rw [hold removed r2 hrem]
      exact Multiset.le_add_right _ _

-- A tag that is mapped leads to a ready transaction, so nothing else is forgotten.
theorem nextPruned_spec (h : r.Provides []) (tags : List T) : nextPruned tags r = (none, r) ∨
    ∃ tag hash tx rest, nextPruned tags r = (some (tag, tx, rest), { r with
      providedTags := update r.providedTags tag none
      ready := r.ready.erase hash }) ∧
      r.providedTags tag = some hash ∧ r.ready[hash]? = some tx := by
  induction tags
  case nil => exact .inl rfl
  case cons tag tags hi =>
    rw [nextPruned]
    cases hp : r.providedTags tag
    case none =>
      have hsame :
          ({ r with providedTags := update r.providedTags tag none } : ReadyTransactions H T) =
            r := by
        rw [← hp, Function.update_eq_self]
      simp only [hsame]
      exact hi
    case some hash =>
      obtain ⟨tx, hr, -⟩ := (h.provided tag (by simp) hash).mp hp
      simp only [Option.bind_some, hr]
      exact .inr ⟨tag, hash, tx, tags, rfl, hp, hr⟩

omit [DecidableEq T] in
theorem sameRefs_findPrevious (hash : H) (provided : T → Option H) (tags : List T)
    (ready : Std.ExtTreeMap H (ReadyTx H T)) :
    SameRefs (findPrevious hash provided tags ready).2 ready := by
  induction tags generalizing ready
  case nil => exact .refl _
  case cons tag tags hi =>
    rw [findPrevious]
    split
    case h_1 other tx he =>
      simp only [Option.bind_eq_some_iff, Option.map_eq_some_iff] at he
      obtain ⟨_, -, _, hr, rfl, rfl⟩ := he
      exact (hi _).trans (.insert hr rfl)
    case h_2 => exact hi ready

omit [DecidableEq T] in
theorem foldl_unlock (hashes : List H) (r : ReadyTransactions H T) :
    SameRefs (hashes.foldl unlock r).ready r.ready ∧
      (hashes.foldl unlock r).providedTags = r.providedTags ∧
      (hashes.foldl unlock r).insertionId = r.insertionId := by
  induction hashes generalizing r
  case nil => exact ⟨.refl _, rfl, rfl⟩
  case cons hash hashes hi =>
    have hone : SameRefs (unlock r hash).ready r.ready ∧
      (unlock r hash).providedTags = r.providedTags ∧
        (unlock r hash).insertionId = r.insertionId := by
      rw [unlock]
      split
      case h_1 tx hr => exact ⟨.insert hr rfl, rfl, rfl⟩
      case h_2 => exact ⟨.refl _, rfl, rfl⟩
    obtain ⟨h1, h2, h3⟩ := hi (unlock r hash)
    exact ⟨h1.trans hone.1, h2.trans hone.2.1, h3.trans hone.2.2⟩

theorem clearProvided_spec (hash : H) (current : T) (tags : List T) (provided : T → Option H)
    (hn : tags.Nodup) (h : ∀ t ∈ tags, provided t = if current = t then none else some hash) :
    clearProvided hash current tags provided = .ok fun t =>
      if t ∈ tags then none else provided t := by
  induction tags generalizing provided
  case nil => simp [clearProvided]
  case cons tag tags hi =>
    obtain ⟨hnot, hn⟩ := List.nodup_cons.mp hn
    obtain ⟨htag, htags⟩ := List.forall_mem_cons.mp h
    rw [clearProvided, if_pos htag]
    have hrest (t) (ht : t ∈ tags) : update provided tag none t = if current = t then none
        else some hash := by
      have hne : t ≠ tag := fun he => hnot (he ▸ ht)
      rw [update_of_ne hne]
      exact htags t ht
    rw [hi _ hn hrest]
    refine congrArg _ (funext fun t => ?_)
    by_cases ht : t = tag <;> simp [ht]

theorem pruneOne_spec (h : r.Provides []) (hp : r.providedTags tag = some hash)
    (hr : r.ready[hash]? = some tx) (hn : tx.transaction.transaction.provides.Nodup) :
    ∃ tags r', ({ r with
      providedTags := update r.providedTags tag none
      ready := r.ready.erase hash } : ReadyTransactions H T).pruneOne tag tx = .ok (tags, r') ∧
      r'.Provides [] ∧ r.Removes [tx.transaction.transaction] r' := by
  have hhash := h.hash hash tx hr
  have htag : tag ∈ tx.transaction.transaction.provides := by
    obtain ⟨tx', hr', hm⟩ := (h.provided tag (by simp) hash).mp hp
    rw [hr] at hr'
    cases hr'
    exact hm
  rw [pruneOne, hhash]
  simp only
  generalize hf : findPrevious hash (update r.providedTags tag none)
    tx.transaction.transaction.requires (r.ready.erase hash) = found
  have hs1 : SameRefs found.2 (r.ready.erase hash) := hf ▸ sameRefs_findPrevious _ _ _ _
  obtain ⟨tags, ready⟩ := found
  generalize hu : tx.unlocks.foldl unlock ({ r with
    providedTags := update r.providedTags tag none
    ready := ready
    best := r.best.erase tx.transaction.rank } : ReadyTransactions H T) = r1
  obtain ⟨hs2, hpt, hid⟩ := hu ▸ foldl_unlock tx.unlocks ({ r with
    providedTags := update r.providedTags tag none
    ready := ready
    best := r.best.erase tx.transaction.rank } : ReadyTransactions H T)
  simp only at hs2 hpt hid
  have hs := hs2.trans hs1
  have hprovided : ∀ t ∈ tx.transaction.transaction.provides,
      r1.providedTags t = if tag = t then none else some hash := by
    intro t ht
    rw [hpt]
    by_cases he : tag = t
    · simp [he]
    · rw [if_neg he, update_of_ne (Ne.symm he)]
      exact (h.provided t (by simp) hash).mpr ⟨tx, hr, ht⟩
  have hclear := clearProvided_spec hash tag tx.transaction.transaction.provides
    r1.providedTags hn hprovided
  simp only [hclear]
  refine ⟨_, _, rfl, h.erased hr hs fun t _ => ?_, removes_of_erase hr hs hid⟩
  change (if t ∈ tx.transaction.transaction.provides then none else r1.providedTags t) = _
  split_ifs with hm
  · rfl
  · have hne : t ≠ tag := fun he => hm (he ▸ htag)
    rw [hpt, update_of_ne hne]

theorem pruneLoop_spec (rounds : Nat) (tags : List T) (h : r.Provides [])
    (hsize : rounds = r.ready.size)
    (hn : ∀ (k : H) tx, r.ready[k]? = some tx → tx.transaction.transaction.provides.Nodup) :
    ∃ removed r', pruneLoop rounds tags r = .ok (removed, r') ∧ r'.Provides [] ∧
      r.Removes removed r' := by
  induction rounds generalizing tags r
  case zero =>
    have hempty : r.ready = ∅ := eq_empty_iff_size_eq_zero.mpr hsize.symm
    rw [pruneLoop]
    rcases nextPruned_spec h tags with hnone | ⟨tag, hash, tx, rest, -, -, hr⟩
    · exact ⟨[], r, by rw [hnone], h, .refl r⟩
    · simp [hempty] at hr
  case succ rounds hi =>
    rw [pruneLoop]
    rcases nextPruned_spec h tags with hnone | ⟨tag, hash, tx, rest, hsome, hp, hr⟩
    · exact ⟨[], r, by rw [hnone], h, .refl r⟩
    · obtain ⟨tags', r', he, hp', hone⟩ := pruneOne_spec h hp hr (hn hash tx hr)
      have hsize' : rounds = r'.ready.size := by
        have := size_of_removes hone
        omega
      obtain ⟨removed, r'', he', hp'', hrem⟩ :=
        hi (tags'.reverse ++ rest) hp' hsize' fun k tx' hk => by
        obtain ⟨tx0, hk0, ht⟩ := hone.keeps k tx' hk
        rw [← ht]
        exact hn k tx0 hk0
      refine ⟨tx.transaction.transaction :: removed, r'', ?_, hp'', hone.trans hrem⟩
      rw [hsome]
      simp only [he, he']

end ReadyTransactions

end TransactionPool
