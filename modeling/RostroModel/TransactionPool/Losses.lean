import RostroModel.TransactionPool.Panics

namespace TransactionPool

open ReadyTransactions FutureTransactions
open Multiset (coe_add mem_add ofList)

variable {H T : Type} [LinearOrder H] [DecidableEq T] {order : Orders H} {pool pool' : BasePool H T}
  {tx : Transaction H T} {pending all all' : Multiset (Transaction H T)}

def PruneStatus.reports (status : PruneStatus H T) (tx : Transaction H T) : Prop :=
  tx ∈ status.pruned ∨ tx.hash ∈ status.failed ∨ ∃ imported ∈ status.promoted, imported.reports tx

-- If the ready queue does not take an imported transaction, nothing waits for its tags. If it does
-- not take one that a pruning promotes, nothing becomes ready by its tags.
def Careful (order : Orders H) (pool : BasePool H T) : Call H T → Prop
  | .import tx now => ∀ e pool', pool.import order tx now = .ok (.error e, pool') → e.ofReady →
    ∀ t ∈ tx.provides, pool.future.wantedTags t = none
  | .pruneTags tags => ∀ toImport pruned pool',
    BasePool.pruneEach (order.sub 1) tags (pool.pruneFuture (order.sub 0) tags).2 =
      .ok (toImport, pruned, pool') →
    KeepsEach (order.sub 2) toImport pool'
  | _ => True

theorem removeSubtree_accounts (h : Sane pool pending) (hashes : List H) :
    pool.transactions = ofList (pool.removeSubtree hashes).1 +
      (pool.removeSubtree hashes).2.transactions := by
  obtain ⟨-, hrem, -⟩ := removeSubtree_spec h.provides hashes
  obtain ⟨-, htr⟩ := remove_spec h.waits hashes
  simp only [BasePool.transactions, BasePool.removeSubtree]
  rw [hrem.transactions, htr, ← coe_add]
  abel

theorem Evicts.accounts (h : Evicts pool removed pool') (hs : Sane pool pending) :
    pool.transactions = ofList removed + pool'.transactions := by
  induction h
  case refl => simp
  case step hashes _ _ _ hi =>
    rw [removeSubtree_accounts hs hashes, hi (hs.removeSubtree _), ← coe_add, add_assoc]

-- A transaction provides a tag, another one waits, and a third one waits for
-- what the second one provides.
def sampleCalls : List (Call Nat Nat) :=
  [.import { hash := 1, priority := 5, provides := [1] } 0,
    .import { hash := 2, requires := [2], provides := [3] } 1,
    .import { hash := 4, requires := [3], provides := [4] } 2]

end TransactionPool
