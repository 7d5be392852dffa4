import RostroModel.TransactionPool.Base
import RostroModel.TransactionPool.Waiting
import RostroModel.TransactionPool.Provided

namespace TransactionPool

open Std.ExtTreeMap ReadyTransactions FutureTransactions
open Multiset
  (add_le_add_left add_le_add_right coe_add cons_add le_add_left map_cons mem_add mem_map nodup_cons
    singleton_add ofList)

variable {H T : Type} {w : WaitingTransaction H T} {ready stack : List (WaitingTransaction H T)}
  {tx : Transaction H T} {pending pending' : Multiset (Transaction H T)}

-- Transactions that are in no queue.
def taken (l : List (WaitingTransaction H T)) : Multiset (Transaction H T) := l.map (·.transaction)

@[simp]
theorem taken_nil : taken ([] : List (WaitingTransaction H T)) = 0 := rfl

theorem taken_cons : taken (w :: stack) = w.transaction ::ₘ taken stack := rfl

theorem taken_eq_zero : taken stack = 0 ↔ stack = [] := by
  rw [taken, Multiset.coe_eq_zero, List.map_eq_nil_iff]

theorem taken_append : taken (ready ++ stack) = taken ready + taken stack := by
  rw [taken, List.map_append]
  rfl

theorem taken_reverse : taken ready.reverse = taken ready := by
  rw [taken, List.map_reverse, Multiset.coe_reverse]
  rfl

variable [LinearOrder H] {order : Orders H} {pool pool' : BasePool H T}
  {future future' : FutureTransactions H T}

def BasePool.transactions (pool : BasePool H T) : Multiset (Transaction H T) :=
  pool.future.transactions + pool.ready.transactions

theorem FutureTransactions.Promotes.taken (h : Promotes future ready future') :
    future.transactions = taken ready + future'.transactions :=
  h.transactions

theorem FutureTransactions.Promotes.stack_ready (h : Promotes future ready future')
    (hs : ∀ w ∈ stack, w.isReady) :
    ∀ w ∈ ready.reverse ++ stack, w.isReady := by
  intro w hw
  rcases List.mem_append.mp hw with hw | hw
  · exact h.isReady w (List.mem_reverse.mp hw)
  · exact hs w hw

theorem FutureTransactions.Promotes.size (h : Promotes future ready future') :
    future.waiting.size = ready.length + future'.waiting.size := by
  have hc := congrArg Multiset.card h.transactions
  simpa only [FutureTransactions.transactions, card_collect, Multiset.card_add, Multiset.coe_card,
    List.length_map]
    using hc

-- The worst transactions are removed one after the other, each with all that depend on it.
inductive Evicts [DecidableEq T] : BasePool H T → List (Transaction H T) → BasePool H T → Prop
  | refl (p : BasePool H T) : Evicts p [] p
  | step (p : BasePool H T) (hashes) {removed p'} : Evicts (p.removeSubtree hashes).2 removed p' →
    Evicts p ((p.removeSubtree hashes).1 ++ removed) p'

theorem enforceReady_evicts [DecidableEq T] (limit : Limit) (order : Orders H) (rounds : Nat)
    (pool : BasePool H T) :
    Evicts pool (BasePool.enforceReady limit order rounds pool).1
      (BasePool.enforceReady limit order rounds pool).2 := by
  induction rounds generalizing pool order
  case zero => exact .refl _
  case succ rounds hi =>
    rw [BasePool.enforceReady]
    split_ifs
    · split
      · exact .step _ _ (hi ..)
      · exact .refl _
    · exact .refl _

theorem enforceFuture_evicts [DecidableEq T] (limit : Limit) (order : Orders H) (rounds : Nat)
    (pool : BasePool H T) :
    Evicts pool (BasePool.enforceFuture limit order rounds pool).1
      (BasePool.enforceFuture limit order rounds pool).2 := by
  induction rounds generalizing pool order
  case zero => exact .refl _
  case succ rounds hi =>
    rw [BasePool.enforceFuture]
    split_ifs
    · split
      · exact .step _ _ (hi ..)
      · exact .refl _
    · exact .refl _

-- The two queues are consistent and have no transaction in common, nor with those
-- that are about to be imported.
structure Sane (pool : BasePool H T) (pending : Multiset (Transaction H T)) : Prop where
  waits : pool.future.Waits
  provides : pool.ready.Provides []
  nodup : ((pending + pool.transactions).map (·.hash)).Nodup
  regular : ∀ tx ∈ pending + pool.transactions, Regular tx

namespace Sane

theorem empty : Sane ({} : BasePool H T) 0 := by
  have hf : ({} : BasePool H T).transactions = 0 := rfl
  refine ⟨waits_empty, provides_empty, ?_, ?_⟩ <;> simp [hf]

theorem of_le (h : Sane pool pending) (hw : pool'.future.Waits) (hp : pool'.ready.Provides [])
    (hle : pending' + pool'.transactions ≤ pending + pool.transactions) : Sane pool' pending' :=
  ⟨hw, hp, Multiset.nodup_of_le (Multiset.map_le_map hle) h.nodup,
    fun tx htx => h.regular tx (Multiset.mem_of_le hle htx)⟩

theorem not_queued (h : Sane pool (tx ::ₘ pending)) :
    pool.future.waiting[tx.hash]? = none ∧ pool.ready.ready[tx.hash]? = none := by
  have hn := h.nodup
  rw [cons_add, map_cons, nodup_cons, mem_map, not_exists] at hn
  constructor
  · rw [Option.eq_none_iff_forall_ne_some]
    intro w hw
    refine hn.1 w.transaction ⟨?_, h.waits.hash _ w hw⟩
    refine mem_add.mpr (.inr (mem_add.mpr (.inl ?_)))
    exact mem_collect.mpr ⟨_, w, hw, rfl⟩
  · rw [Option.eq_none_iff_forall_ne_some]
    intro t ht
    refine hn.1 t.transaction.transaction ⟨?_, h.provides.hash _ t ht⟩
    refine mem_add.mpr (.inr (mem_add.mpr (.inr ?_)))
    exact mem_collect.mpr ⟨_, t, ht, rfl⟩

theorem nodup_provides (h : Sane pool pending) (k : H) (t : ReadyTx H T)
    (hk : pool.ready.ready[k]? = some t) : t.transaction.transaction.provides.Nodup :=
  (h.regular _ (mem_add.mpr (.inr (mem_add.mpr (.inr (mem_collect.mpr ⟨k, t, hk, rfl⟩)))))).nodup

theorem top (h : Sane pool (taken (w :: stack) + pending)) :
    Sane pool (w.transaction ::ₘ (taken stack + pending)) ∧ Regular w.transaction := by
  rw [taken_cons, cons_add] at h
  exact ⟨h, h.regular _ (mem_add.mpr (.inl (Multiset.mem_cons_self _ _)))⟩

theorem promote {r' : ReadyTransactions H T}
    (h : Sane pool (w.transaction ::ₘ (taken stack + pending)))
    (hpro : Promotes pool.future ready future) (hp : r'.Provides [])
    (hle : r'.transactions ≤ w.transaction ::ₘ pool.ready.transactions) :
    Sane { pool with future, ready := r' } (taken (ready.reverse ++ stack) + pending) := by
  refine h.of_le hpro.waits hp ?_
  rw [BasePool.transactions, BasePool.transactions, hpro.taken, taken_append, taken_reverse]
  calc _ = taken stack + pending + (taken ready + future.transactions) + r'.transactions := by abel
    _ ≤ taken stack + pending + (taken ready + future.transactions) +
        (w.transaction ::ₘ pool.ready.transactions) := add_le_add_left hle
    _ = _ := by
        rw [← singleton_add, ← singleton_add]
        abel

theorem pend (h : Sane pool 0) (himp : ¬pool.isImported tx.hash) (hreg : Regular tx) :
    Sane pool (tx ::ₘ 0) := by
  have hnot : pool.future.waiting[tx.hash]? = none ∧ pool.ready.ready[tx.hash]? = none := by
    simpa [BasePool.isImported, FutureTransactions.contains, ReadyTransactions.contains] using himp
  refine ⟨h.waits, h.provides, ?_, ?_⟩
  · rw [cons_add, map_cons, nodup_cons]
    refine ⟨fun hmem => ?_, h.nodup⟩
    obtain ⟨tx', hin, hh⟩ := mem_map.mp hmem
    rw [zero_add, BasePool.transactions, mem_add, mem_transactions h.waits,
      h.provides.mem_transactions, hh, hnot.1, hnot.2] at hin
    simp at hin
  · intro tx' hin
    rw [cons_add, Multiset.mem_cons] at hin
    rcases hin with rfl | hin
    · exact hreg
    · exact h.regular tx' hin

variable [DecidableEq T]

theorem removeSubtree (h : Sane pool pending) (hashes : List H) :
    Sane (pool.removeSubtree hashes).2 pending := by
  obtain ⟨hp, hrem, -⟩ := removeSubtree_spec h.provides hashes
  obtain ⟨hw, htr⟩ := remove_spec h.waits hashes
  refine h.of_le hw hp (add_le_add_left (add_le_add ?_ ?_))
  · rw [htr]
    exact le_add_left _ _
  · rw [hrem.transactions]
    exact le_add_left _ _

theorem evicts (h : Sane pool pending) (he : Evicts pool removed pool') : Sane pool' pending := by
  induction he
  case refl => exact h
  case step hi => exact hi (h.removeSubtree _)

theorem pruneFuture (h : Sane pool 0) (order : Orders H) (tags : List T) :
    pool.transactions = ofList (pool.pruneFuture order tags).1 +
      (pool.pruneFuture order tags).2.transactions ∧ Sane (pool.pruneFuture order tags).2 0 := by
  obtain ⟨hw, htr⟩ := remove_spec h.waits
    (((pool.future.values order).filter fun w =>
      w.transaction.provides.any (· ∈ tags)).map (·.transaction.hash))
  have htr' : pool.future.transactions =
      ofList (pool.pruneFuture order tags).1 +
        (pool.pruneFuture order tags).2.future.transactions := htr
  refine ⟨?_, h.of_le hw h.provides (add_le_add_left (add_le_add_right ?_))⟩
  · rw [BasePool.transactions, BasePool.transactions, htr', add_assoc]
    rfl
  · rw [htr']
    exact le_add_left _ _

end Sane

end TransactionPool
