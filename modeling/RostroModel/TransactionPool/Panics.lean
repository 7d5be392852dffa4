import RostroModel.TransactionPool.Imports

namespace TransactionPool

open Std.ExtTreeMap ReadyTransactions FutureTransactions
open Multiset (add_le_add_left add_le_add_right cons_add)

variable {H T : Type} [LinearOrder H] [DecidableEq T] {order : Orders H} {pool : BasePool H T}
  {tx : Transaction H T} {pending : Multiset (Transaction H T)}

namespace Sane

theorem «import» (horder : order.Permutes) (h : Sane pool 0) (hreg : Regular tx) (now : Nat) :
    ∃ result pool', pool.import order tx now = .ok (result, pool') ∧ Sane pool' 0 := by
  rw [BasePool.import]
  split
  case isTrue => exact ⟨_, pool, rfl, h⟩
  case isFalse himp =>
    have hpend := h.pend himp hreg
    simp only
    split_ifs with hr
    · obtain ⟨result, pool', -, he, hs, -⟩ := hpend.importToReady horder hr
      exact ⟨result, pool', he, hs⟩
    · exact ⟨_, pool, rfl, h⟩
    · obtain ⟨future, he, hwaits, htr⟩ :=
        FutureTransactions.import_spec h.waits hr hpend.not_queued.1
      rw [he]
      refine ⟨_, _, rfl, hpend.of_le hwaits h.provides (le_of_eq ?_)⟩
      simp only [BasePool.transactions, htr, WaitingTransaction.new, cons_add, zero_add]

theorem pruneTags (horder : order.Permutes) (h : Sane pool 0) (tags : List T) :
    ∃ status pool', pool.pruneTags order tags = .ok (status, pool') ∧ Sane pool' 0 := by
  obtain ⟨toImport, pruned, pool1, he1, hr, hs1, -⟩ :=
    (h.pruneFuture (order.sub 0) tags).2.pruneEach (horder.sub 1) tags
  obtain ⟨promoted, failed, pool2, -, -, he2, hs2, -⟩ := hs1.importEach (horder.sub 2) toImport hr
  rw [BasePool.pruneTags]
  simp only [he1, he2]
  exact ⟨_, pool2, rfl, hs2⟩

end Sane

-- A transaction that is imported provides no tag twice and no tag that it requires.
def Call.Regular : Call H T → Prop
  | .import tx _ => ReadyTransactions.Regular tx
  | _ => True

theorem Sane.perform (horder : order.Permutes) (h : Sane pool 0) {call : Call H T}
    (hreg : call.Regular) : ∃ pool', perform order pool call = .ok pool' ∧ Sane pool' 0 := by
  cases call
  case «import» tx now =>
    obtain ⟨result, pool', he, hs⟩ := h.import horder hreg now
    exact ⟨pool', by rw [TransactionPool.perform, he]; rfl, hs⟩
  case removeSubtree hashes => exact ⟨_, rfl, h.removeSubtree hashes⟩
  case pruneTags tags =>
    obtain ⟨status, pool', he, hs⟩ := h.pruneTags horder tags
    exact ⟨pool', by rw [TransactionPool.perform, he]; rfl, hs⟩
  case enforceLimits ready future =>
    exact ⟨_, rfl, (h.evicts (enforceReady_evicts ..)).evicts (enforceFuture_evicts ..)⟩
  case clearFuture =>
    refine ⟨_, rfl, h.of_le waits_empty h.provides (add_le_add_left ?_)⟩
    exact add_le_add_right (Multiset.zero_le _)
  case clearRecentlyPruned => exact ⟨_, rfl, h.waits, h.provides, h.nodup, h.regular⟩
  case rejectFutureTransactions reject => exact ⟨_, rfl, h.waits, h.provides, h.nodup, h.regular⟩

theorem Sane.performAll (horder : order.Permutes) (calls : List (Call H T)) (h : Sane pool 0)
    (hreg : ∀ call ∈ calls, call.Regular) :
    ∃ pool', performAll order calls pool = .ok pool' ∧ Sane pool' 0 := by
  induction calls generalizing pool order
  case nil => exact ⟨pool, rfl, h⟩
  case cons call calls hi =>
    obtain ⟨hcall, hcalls⟩ := List.forall_mem_cons.mp hreg
    obtain ⟨pool1, he, hs⟩ := h.perform (horder.sub 0) hcall
    obtain ⟨pool', he', hs'⟩ := hi (horder.sub 1) hs hcalls
    exact ⟨pool', by rw [TransactionPool.performAll, he]; exact he', hs'⟩

-- What the two proofs in the source say.
structure Linked (pool : BasePool H T) : Prop where
  hashReady : ∀ tag hash, pool.ready.providedTags tag = some hash →
    ∃ tx, pool.ready.ready[hash]? = some tx ∧ tag ∈ tx.transaction.transaction.provides
  waitingProof : ∀ tag hashes, pool.future.wantedTags tag = some hashes →
    ∀ hash ∈ hashes, hash ∈ pool.future.waiting

omit [DecidableEq T] in
theorem Sane.linked (h : Sane pool pending) : Linked pool := by
  constructor
  case hashReady => exact fun tag hash => (h.provides.provided tag (by simp) hash).mp
  case waitingProof =>
    intro tag hashes ht hash hm
    obtain ⟨w, hw, -⟩ := h.waits.wanted tag hashes ht hash hm
    rw [mem_iff_isSome_getElem?, hw]
    rfl

-- Whatever is done with regular transactions and however hash maps are iterated, nothing panics.
theorem no_panic (horder : order.Permutes) (calls : List (Call H T))
    (hreg : ∀ call ∈ calls, call.Regular) :
    ∃ pool', TransactionPool.performAll order calls {} = .ok pool' ∧ Linked pool' := by
  obtain ⟨pool', he, hs⟩ := Sane.empty.performAll horder calls hreg
  exact ⟨pool', he, hs.linked⟩

-- Every other iteration is backwards.
def sampleOrder : Orders Nat :=
  fun path l => if path.sum % 2 = 0 then l else l.reverse

theorem sampleOrder_permutes : sampleOrder.Permutes := by
  intro path l
  rw [sampleOrder]
  split_ifs
  · exact .refl l
  · exact l.reverse_perm

theorem no_panic_sample :
    ∃ pool', performAll sampleOrder [Call.import { hash := 1, provides := [1, 2] } 0,
      .pruneTags [1]]
      ({} : BasePool Nat Nat) = .ok pool' ∧ Linked pool' :=
  no_panic sampleOrder_permutes _ (by simpa [Call.Regular] using ⟨by decide, by decide⟩)

-- A tag that is provided twice, and one that is provided and required.
theorem panic_sample :
    performAll sampleOrder [Call.import { hash := 1, provides := [1, 2, 2] } 0, .pruneTags [1]]
      ({} : BasePool Nat Nat) = .error .providedTag ∧
    performAll sampleOrder [Call.import { hash := 1, provides := [1] } 0,
        .import { hash := 2, priority := 2, requires := [1], provides := [1] } 1]
      ({} : BasePool Nat Nat) = .error .hashReady :=
  ⟨rfl, rfl⟩

end TransactionPool
