import RostroModel.TransactionPool.Sanity

-- What the imports to the ready queue do with the transactions.
namespace TransactionPool

open Std.ExtTreeMap ReadyTransactions FutureTransactions
open Multiset
  (add_le_add_left add_le_add_right coe_add cons_add le_add_left mem_add mem_of_le ofList
  singleton_add)

variable {H T : Type} {w : WaitingTransaction H T} {ready stack : List (WaitingTransaction H T)}
  {tx tx' : Transaction H T} {pending part part' : Multiset (Transaction H T)}

theorem hash_ne_of_nodup (h : ((part + part').map (·.hash)).Nodup) (ht : tx ∈ part)
    (ht' : tx' ∈ part') :
    tx.hash ≠ tx'.hash := by
  rw [Multiset.map_add, Multiset.nodup_add] at h
  exact fun he => Multiset.disjoint_left.mp h.2.2 (Multiset.mem_map_of_mem _ ht)
    (he ▸ Multiset.mem_map_of_mem _ ht')

-- The transactions that the loop has imported or given up.
def BasePool.Outcome.hashes (out : BasePool.Outcome H T) : List H :=
  out.promoted ++ out.removed.map (·.hash)

theorem BasePool.Outcome.mem_hashes {out : BasePool.Outcome H T} {hash : H} :
    hash ∈ out.hashes ↔ hash ∈ out.promoted ∨ ∃ tx ∈ out.removed, tx.hash = hash := by
  simp [BasePool.Outcome.hashes]

theorem BasePool.Outcome.mem_hashes_remove [DecidableEq H] {out : BasePool.Outcome H T} {hash : H}
    (h : hash ∈ out.hashes ∨ hash = tx.hash) :
    hash ∈ { out with
      promoted := out.promoted.filter (· ≠ tx.hash)
      removed := out.removed ++ [tx] : BasePool.Outcome H T }.hashes := by
  simp only [BasePool.Outcome.mem_hashes] at h ⊢
  by_cases ht : hash = tx.hash
  · exact .inr ⟨tx, by simp, ht.symm⟩
  · refine (h.resolve_right ht).imp (fun hp => ?_) ?_
    · simp [hp, ht]
    · exact fun ⟨tx', hr, he⟩ => ⟨tx', List.mem_append_left _ hr, he⟩

theorem BasePool.Outcome.mem_hashes_promote [DecidableEq H] {out : BasePool.Outcome H T} {hash : H}
    {replaced : List (Transaction H T)} (h : hash ∈ out.hashes ∨ hash = tx.hash) :
    hash ∈ { out with
      promoted := (out.promoted ++ [tx.hash]).filter fun hash => replaced.all (hash ≠ ·.hash)
      removed := out.removed ++ replaced : BasePool.Outcome H T }.hashes := by
  simp only [BasePool.Outcome.mem_hashes] at h ⊢
  by_cases hr : ∃ tx' ∈ replaced, tx'.hash = hash
  · obtain ⟨tx', hr, he⟩ := hr
    exact .inr ⟨tx', List.mem_append_right _ hr, he⟩
  · have hall : ∀ tx' ∈ replaced, hash ≠ tx'.hash := fun tx' ht he => hr ⟨tx', ht, he.symm⟩
    rcases h with (hp | ⟨tx', ht, he⟩) | rfl
    · exact .inl (List.mem_filter.mpr ⟨List.mem_append_left _ hp, by simpa using hall⟩)
    · exact .inr ⟨tx', List.mem_append_left _ ht, he⟩
    · exact .inl (List.mem_filter.mpr ⟨by simp, by simpa using hall⟩)

variable [LinearOrder H] {order : Orders H} {pool pool' : BasePool H T}
  {future future' : FutureTransactions H T} {out out' : BasePool.Outcome H T}

-- The loop takes everything from the stack, with what it adds from the
-- future queue. Nothing gets lost.
structure Passes (stack : List (WaitingTransaction H T)) (out : BasePool.Outcome H T)
    (pool : BasePool H T) (out' : BasePool.Outcome H T) (pool' : BasePool H T) : Prop where
  failed : out'.failed = out.failed
  transactions : ofList out.removed + (taken stack + pool.transactions) =
    ofList out'.removed + pool'.transactions
  future : pool'.future.transactions ≤ pool.future.transactions
  unwanted : ∀ t, pool.future.wantedTags t = none → pool'.future.wantedTags t = none
  hashes : ∀ hash, hash ∈ out.hashes ∨ hash ∈ stack.map (·.transaction.hash) → hash ∈ out'.hashes

theorem Passes.nil : Passes [] out pool out pool where
  failed := rfl
  transactions := by simp
  future := le_rfl
  unwanted _ := id
  hashes _ h := by simpa using h

-- One round: the top of the stack is imported or removed.
theorem Passes.cons {r : ReadyTransactions H T} {one : BasePool.Outcome H T}
    {removed : List (Transaction H T)}
    (h : Passes (ready.reverse ++ stack) one { pool with future, ready := r } out' pool')
    (hpro : Promotes pool.future ready future) (hf : one.failed = out.failed)
    (hr : one.removed = out.removed ++ removed)
    (htr : w.transaction ::ₘ pool.ready.transactions = ofList removed + r.transactions)
    (hh : ∀ hash, hash ∈ out.hashes ∨ hash = w.transaction.hash → hash ∈ one.hashes) :
    Passes (w :: stack) out pool out' pool' := by
  constructor
  case failed => exact h.failed.trans hf
  case transactions =>
    rw [← h.transactions, hr, taken_cons, taken_append, taken_reverse]
    simp only [BasePool.transactions]
    rw [hpro.taken, ← coe_add, ← singleton_add]
    rw [← singleton_add] at htr
    calc _ = ofList out.removed + taken stack + taken ready + future.transactions +
          ({w.transaction} + pool.ready.transactions) := by abel
      _ = _ := by
        rw [htr]
        abel
  case future =>
    refine h.future.trans ?_
    rw [hpro.taken]
    exact le_add_left _ _
  case unwanted => exact fun t ht => h.unwanted t (hpro.unwanted t ht)
  case hashes =>
    intro hash hmem
    apply h.hashes
    simp only [List.map_cons, List.mem_cons] at hmem
    rcases hmem with hmem | hmem | hmem
    · exact .inl (hh hash (.inl hmem))
    · exact .inl (hh hash (.inr hmem))
    · exact .inr (by simp [hmem])

variable [DecidableEq T]

-- No waiting transaction becomes ready by the tags.
def PromotesNone (order : Orders H) (future : FutureTransactions H T) (tags : List T) : Prop :=
  ∃ future', future.satisfyTags order tags = .ok ([], future')

-- What an import tells: the transactions that it removed, or the one that it could not import.
def reported (tx : Transaction H T) : Except (Error H) (Imported H T) → Multiset (Transaction H T)
  | .ok (.ready _ _ _ removed) => removed
  | .ok (.future _) => 0
  | .error _ => {tx}

def Imported.reports : Imported H T → Transaction H T → Prop
  | .ready _ _ failed removed, tx => tx ∈ removed ∨ tx.hash ∈ failed
  | .future _, _ => False

-- The errors of the ready queue.
def Error.ofReady : Error H → Bool
  | .tooLowPriority _ _ | .cycleDetected => true
  | .alreadyImported _ | .rejectedFutureTransaction => false

-- An import to the ready queue. It loses what it has promoted if it fails.
structure Settles (order : Orders H) (pool : BasePool H T) (tx : Transaction H T)
    (result : Except (Error H) (Imported H T)) (pool' : BasePool H T)
    (lost : Multiset (Transaction H T)) : Prop where
  imported : ∀ imported, result = .ok imported →
    ∃ promoted removed, imported = .ready tx.hash promoted [] removed
  error : ∀ e, result = .error e → e.ofReady
  rejected : ∀ e, result = .error e → (∀ t ∈ tx.provides, pool.future.wantedTags t = none) →
    pool' = { pool with ready := { pool.ready with insertionId := pool.ready.insertionId + 1 } }
  unwanted : ∀ t ∈ tx.provides, pool'.future.wantedTags t = none
  transactions : tx ::ₘ pool.transactions = reported tx result + lost + pool'.transactions
  lost_iff : lost = 0 ↔ ∀ e, result = .error e → PromotesNone (order.sub 0) pool.future tx.provides

-- Transactions are imported one after the other. If an import fails, none becomes ready by it.
def KeepsEach : Orders H → List (WaitingTransaction H T) → BasePool H T → Prop
  | _, [], _ => True
  | order, w :: rest, pool =>
    ∀ result pool', pool.importToReady (order.sub 0) w = .ok (result, pool') →
    (∀ e, result = .error e →
      PromotesNone ((order.sub 0).sub 0) pool.future w.transaction.provides) ∧
      KeepsEach (order.sub 1) rest pool'

-- What the imports tell, and what they lose.
structure SettlesEach (order : Orders H) (toImport : List (WaitingTransaction H T))
    (pool : BasePool H T) (promoted : List (Imported H T)) (failed : List H) (pool' : BasePool H T)
    (told lost : Multiset (Transaction H T)) : Prop where
  transactions : taken toImport + pool.transactions = told + lost + pool'.transactions
  reports : ∀ tx ∈ told, tx.hash ∈ failed ∨ ∃ imported ∈ promoted, imported.reports tx
  of_failed : ∀ hash ∈ failed, ∃ tx ∈ told, tx.hash = hash
  of_promoted : ∀ imported ∈ promoted, ∀ tx, imported.reports tx → tx ∈ told
  lost_iff : lost = 0 ↔ KeepsEach order toImport pool

namespace Sane

theorem pruneEach (horder : order.Permutes) (tags : List T) (h : Sane pool pending) :
    ∃ toImport pruned pool', BasePool.pruneEach order tags pool = .ok (toImport, pruned, pool') ∧
      (∀ w ∈ toImport, w.isReady) ∧ Sane pool' (taken toImport + pending) ∧
      pool.transactions = ofList pruned + (taken toImport + pool'.transactions) := by
  induction tags generalizing pool pending order
  case nil => exact ⟨[], [], pool, rfl, by simp, by simpa using h, by simp⟩
  case cons tag tags hi =>
    obtain ⟨ready, future, he, hpro, -⟩ := satisfyTags_spec (horder.sub 0) h.waits [tag]
    obtain ⟨removed, r', hprune, hp, hrem⟩ :=
      pruneLoop_spec pool.ready.ready.size [tag] h.provides rfl
      h.nodup_provides
    have hone : pool.transactions = ofList removed +
        (taken ready + ({ pool with future, ready := r' } : BasePool H T).transactions) := by
      simp only [BasePool.transactions]
      rw [hpro.taken, hrem.transactions]
      abel
    have h' : Sane { pool with future, ready := r' } (taken ready + pending) := by
      refine h.of_le hpro.waits hp ?_
      rw [hone, add_comm (taken ready), add_assoc]
      exact add_le_add_left (le_add_left _ _)
    obtain ⟨toImport, pruned, pool', hrest, hready, hs, hall⟩ := hi (horder.sub 1) h'
    rw [BasePool.pruneEach, he]
    simp only [ReadyTransactions.pruneTags, hprune, hrest]
    refine ⟨_, _, pool', rfl, ?_, ?_, ?_⟩
    · intro w hw
      rcases List.mem_append.mp hw with hw | hw
      · exact hpro.isReady w hw
      · exact hready w hw
    · rw [taken_append, add_comm (taken _), add_assoc]
      exact hs
    · rw [hone, hall, taken_append, ← coe_add]
      abel

omit [DecidableEq T] in
theorem nodup_cons (h : Sane pool (tx ::ₘ pending)) :
    ((tx ::ₘ pool.transactions).map (·.hash)).Nodup := by
  refine Multiset.nodup_of_le (Multiset.map_le_map ?_) h.nodup
  rw [cons_add]
  exact Multiset.cons_le_cons _ (le_add_left _ _)

omit [DecidableEq T] in
theorem notMem (h : Sane pool (tx ::ₘ pending)) : tx ∉ pool.transactions :=
  (Multiset.nodup_cons.mp h.nodup_cons.of_map).1

theorem importLoop_nil (order : Orders H) (rounds : Nat) (first : Bool) (out : BasePool.Outcome H T)
    (pool : BasePool H T) :
    BasePool.importLoop order rounds first [] out pool = .ok (.ok out, pool) := by
  cases rounds <;> rfl

theorem importLoop (horder : order.Permutes) (rounds : Nat) (stack : List (WaitingTransaction H T))
    (out : BasePool.Outcome H T) (hr : ∀ w ∈ stack, w.isReady)
    (h : Sane pool (taken stack + pending))
    (hrounds : stack.length + pool.future.waiting.size ≤ rounds) :
    ∃ out' pool', BasePool.importLoop order rounds false stack out pool = .ok (.ok out', pool') ∧
      Sane pool' pending ∧ Passes stack out pool out' pool' := by
  induction rounds generalizing stack out pool order
  case zero =>
    obtain rfl : stack = [] := List.length_eq_zero_iff.mp (by omega)
    exact ⟨out, pool, rfl, by simpa using h, .nil⟩
  case succ rounds hi =>
    cases stack
    case nil => exact ⟨out, pool, rfl, by simpa using h, .nil⟩
    case cons w stack =>
      obtain ⟨hw, hstack⟩ := List.forall_mem_cons.mp hr
      obtain ⟨h, hreg⟩ := h.top
      obtain ⟨ready, future, he, hpro, -⟩ :=
        satisfyTags_spec (horder.sub 0) h.waits w.transaction.provides
      have hready := hpro.stack_ready hstack
      have hsize : (ready.reverse ++ stack).length + future.waiting.size ≤ rounds := by
        have hc := hpro.size
        simp only [List.length_cons, List.length_append, List.length_reverse] at hrounds ⊢
        omega
      rw [BasePool.importLoop]
      rcases import_spec (horder.sub 1) h.provides hw h.not_queued.2 hreg with
        ⟨old, new, r', hi', rfl⟩ | ⟨removed, r', hi', hp, htr, -⟩
      · have hs : Sane { pool with
            future, ready := { pool.ready with insertionId := pool.ready.insertionId + 1 } }
            (taken (ready.reverse ++ stack) + pending) :=
          h.promote hpro ⟨h.provides.hash, h.provides.provided⟩ (Multiset.le_cons_self _ _)
        simp only [he, hi', Bool.false_eq_true, if_false]
        obtain ⟨out', pool', hrun, hs', hpass⟩ :=
          hi (horder.sub 2) (ready.reverse ++ stack) _ hready hs hsize
        refine ⟨out', pool', hrun, hs', hpass.cons hpro rfl rfl ?_ ?_⟩
        · rfl
        · exact fun hash => BasePool.Outcome.mem_hashes_remove
      · have hs := h.promote hpro hp (htr ▸ le_add_left _ _)
        simp only [he, hi', Bool.false_eq_true, if_false]
        obtain ⟨out', pool', hrun, hs', hpass⟩ :=
          hi (horder.sub 2) (ready.reverse ++ stack) _ hready hs hsize
        exact ⟨out', pool', hrun, hs', hpass.cons hpro rfl rfl htr fun hash =>
          BasePool.Outcome.mem_hashes_promote⟩

-- What was promoted is not in the pool any more once the promoted ones are removed.
theorem notMem_of_promoted (h : Sane pool' pending) (hp : Passes stack out pool out' pool')
    (hn : ((ofList out'.removed + pool'.transactions).map (·.hash)).Nodup) (hw : w ∈ stack)
    (hf : w.transaction ∉ pool.future.transactions) :
    w.transaction ∉ ({ pool' with ready := (pool'.ready.removeSubtree out'.promoted).2 } :
      BasePool H T).transactions := by
  obtain ⟨hprov, hrem, hgone⟩ := removeSubtree_spec h.provides out'.promoted
  intro hmem
  rcases mem_add.mp hmem with hfut | hready
  · exact hf (mem_of_le hp.future hfut)
  · obtain ⟨t, ht, -⟩ := hprov.mem_transactions.mp hready
    have hout : w.transaction.hash ∈ out'.hashes := hp.hashes _ (.inr (List.mem_map_of_mem hw))
    rcases BasePool.Outcome.mem_hashes.mp hout with hprom | ⟨tx, htx, he⟩
    · rw [hgone _ hprom] at ht
      cases ht
    · have hold : w.transaction ∈ pool'.ready.transactions := by
        rw [hrem.transactions]
        exact mem_add.mpr (.inr hready)
      exact hash_ne_of_nodup hn htx (mem_add.mpr (.inr hold)) he

-- The imported transaction was pushed out, and what it has promoted is removed with it.
theorem lost_of_cycle {r : ReadyTransactions H T} (h : Sane pool (tx ::ₘ pending))
    (h' : Sane pool' pending) (hpro : Promotes pool.future ready future)
    (hp : Passes ready.reverse out { pool with future, ready := r } out' pool')
    (hall : tx ::ₘ pool.transactions = ofList out'.removed + pool'.transactions)
    (hout : tx ∈ out'.removed) (hw : w ∈ ready) :
    ∃ lost, lost ≠ 0 ∧ tx ::ₘ pool.transactions = {tx} + lost +
      ({ pool' with ready := (pool'.ready.removeSubtree out'.promoted).2 } :
        BasePool H T).transactions := by
  obtain ⟨rest, hrest⟩ := Multiset.exists_cons_of_mem (show tx ∈ ofList out'.removed from hout)
  obtain ⟨-, hrem, -⟩ := removeSubtree_spec h'.provides out'.promoted
  have hsplit : tx ::ₘ pool.transactions =
      {tx} + (rest + ofList (pool'.ready.removeSubtree out'.promoted).1) +
        ({ pool' with ready := (pool'.ready.removeSubtree out'.promoted).2 } :
          BasePool H T).transactions := by
    rw [hall, hrest, ← singleton_add]
    simp only [BasePool.transactions]
    rw [hrem.transactions]
    abel
  refine ⟨_, ?_, hsplit⟩
  intro hz
  -- Where is the first of the promoted ones?
  have hmem : w.transaction ∈ pool.future.transactions := by
    rw [hpro.taken]
    exact mem_add.mpr (.inl (List.mem_map_of_mem hw))
  have hleft : w.transaction ∉ future.transactions := by
    have hn : ((taken ready + future.transactions).map (·.hash)).Nodup := by
      refine Multiset.nodup_of_le (Multiset.map_le_map ?_) h.nodup_cons
      rw [← hpro.taken]
      exact (Multiset.le_add_right _ _).trans (Multiset.le_cons_self _ _)
    exact fun hf => hash_ne_of_nodup hn (List.mem_map_of_mem hw) hf rfl
  have hin : w.transaction ∈ tx ::ₘ pool.transactions :=
    Multiset.mem_cons_of_mem (mem_add.mpr (.inl hmem))
  rw [hsplit, hz, add_zero, mem_add, Multiset.mem_singleton] at hin
  rcases hin with rfl | hin
  · exact h.notMem (mem_add.mpr (.inl hmem))
  · exact h'.notMem_of_promoted hp (hall ▸ h.nodup_cons) (List.mem_reverse.mpr hw) hleft hin

theorem promotesNone_iff
    (he : pool.future.satisfyTags (order.sub 0) tx.provides = .ok (ready, future)) :
    PromotesNone (order.sub 0) pool.future tx.provides ↔ ready = [] := by
  constructor
  · rintro ⟨_, he'⟩
    cases he.symm.trans he'
    rfl
  · rintro rfl
    exact ⟨future, he⟩

-- The priority is too low. What was promoted is in no queue.
theorem settles_of_tooLow {old new : Nat}
    (he : pool.future.satisfyTags (order.sub 0) tx.provides = .ok (ready, future))
    (hpro : Promotes pool.future ready future)
    (hclear : ∀ t ∈ tx.provides, future.wantedTags t = none) :
    Settles order pool tx (.error (.tooLowPriority old new))
      { pool with
        future, ready := { pool.ready with insertionId := pool.ready.insertionId + 1 } }
      (taken ready) := by
  constructor
  case imported => rintro _ ⟨⟩
  case error =>
    rintro _ ⟨⟩
    rfl
  case rejected =>
    intro e _ hun
    rw [satisfyTags_unwanted hun] at he
    cases he
    rfl
  case unwanted => exact hclear
  case transactions =>
    simp only [reported, BasePool.transactions]
    rw [hpro.taken, ← singleton_add, add_assoc, add_assoc]
    rfl
  case lost_iff =>
    rw [taken_eq_zero, ← promotesNone_iff he]
    exact ⟨fun hnone _ _ => hnone, fun hnone => hnone _ rfl⟩

-- The imported transaction was pushed out by what it has promoted.
theorem settles_of_cycle {lost : Multiset (Transaction H T)}
    (he : pool.future.satisfyTags (order.sub 0) tx.provides = .ok (ready, future))
    (hne : ready ≠ []) (hlost : lost ≠ 0)
    (hclear : ∀ t ∈ tx.provides, pool'.future.wantedTags t = none)
    (hall : tx ::ₘ pool.transactions = {tx} + lost + pool'.transactions) :
    Settles order pool tx (.error .cycleDetected) pool' lost := by
  constructor
  case imported => rintro _ ⟨⟩
  case error =>
    rintro _ ⟨⟩
    rfl
  case rejected =>
    intro _ _ hun
    rw [satisfyTags_unwanted hun] at he
    cases he
    exact absurd rfl hne
  case unwanted => exact hclear
  case transactions => exact hall
  case lost_iff =>
    exact iff_of_false hlost fun hno => hne ((promotesNone_iff he).mp (hno _ rfl))

theorem importToReady (horder : order.Permutes) (hw : w.isReady)
    (h : Sane pool (w.transaction ::ₘ pending)) :
    ∃ result pool' lost, pool.importToReady order w = .ok (result, pool') ∧ Sane pool' pending ∧
      Settles order pool w.transaction result pool' lost := by
  obtain ⟨ready, future, he, hpro, hclear⟩ :=
    satisfyTags_spec (horder.sub 0) h.waits w.transaction.provides
  have hreg : Regular w.transaction := h.regular _ (mem_add.mpr (.inl (Multiset.mem_cons_self _ _)))
  have h0 : Sane pool (w.transaction ::ₘ (taken [] + pending)) := by simpa using h
  rw [BasePool.importToReady, BasePool.importLoop]
  rcases import_spec (horder.sub 1) h.provides hw h.not_queued.2 hreg with
    ⟨old, new, r', hi, rfl⟩ | ⟨removed, r', hi, hp, htr, hsub⟩
  · have hs : Sane { pool with
        future, ready := { pool.ready with insertionId := pool.ready.insertionId + 1 } }
        (taken (ready.reverse ++ []) + pending) :=
      h0.promote hpro ⟨h.provides.hash, h.provides.provided⟩ (Multiset.le_cons_self _ _)
    simp only [he, hi, if_true]
    exact ⟨_, _, taken ready, rfl,
      hs.of_le hs.waits hs.provides (add_le_add_right (le_add_left _ _)),
      settles_of_tooLow he hpro hclear⟩
  · have hs := h0.promote hpro hp (htr ▸ le_add_left _ _)
    rw [List.append_nil] at hs
    have hsize : ready.reverse.length + future.waiting.size ≤ pool.future.waiting.size := by
      rw [hpro.size, List.length_reverse]
    obtain ⟨out, pool', hrun, hs', hpass⟩ :=
      importLoop (horder.sub 2) pool.future.waiting.size ready.reverse
      { removed } (fun w' hw' => hpro.isReady w' (List.mem_reverse.mp hw')) hs hsize
    have hall : w.transaction ::ₘ pool.transactions = ofList out.removed + pool'.transactions := by
      rw [← hpass.transactions, taken_reverse]
      simp only [BasePool.transactions]
      rw [hpro.taken, ← Multiset.add_cons, htr]
      abel
    have hclear' : ∀ t ∈ w.transaction.provides, pool'.future.wantedTags t = none :=
      fun t ht => hpass.unwanted t (hclear t ht)
    simp only [he, hi, List.append_nil, if_true, List.filter_nil, List.nil_append, hrun]
    split_ifs with hcycle
    · obtain ⟨tx, htx, heq⟩ := List.any_eq_true.mp hcycle
      obtain rfl : tx = w.transaction := Multiset.inj_on_of_nodup_map h.nodup_cons tx
        (hall ▸ mem_add.mpr (.inl htx)) _ (Multiset.mem_cons_self _ _) (of_decide_eq_true heq)
      have hne : ready ≠ [] := by
        rintro rfl
        rw [List.reverse_nil, importLoop_nil] at hrun
        cases hrun
        exact h.notMem (mem_add.mpr (.inr (mem_of_le hsub htx)))
      obtain ⟨p, hpr⟩ := List.exists_mem_of_ne_nil ready hne
      obtain ⟨lost, hlost, hsplit⟩ := lost_of_cycle h hs' hpro hpass hall htx hpr
      obtain ⟨hprov, hrem, -⟩ := removeSubtree_spec hs'.provides out.promoted
      refine ⟨_, _, lost, rfl, hs'.of_le hs'.waits hprov (add_le_add_left (add_le_add_left ?_)),
        settles_of_cycle he hne hlost hclear' hsplit⟩
      rw [hrem.transactions]
      exact le_add_left _ _
    · refine ⟨_, pool', 0, rfl, hs', ?_⟩
      constructor
      case imported =>
        rintro _ ⟨⟩
        exact ⟨out.promoted, out.removed, by rw [hpass.failed]⟩
      case error => rintro _ ⟨⟩
      case rejected => rintro _ ⟨⟩
      case unwanted => exact hclear'
      case transactions =>
        rw [hall, add_zero]
        rfl
      case lost_iff =>
        refine iff_of_true rfl ?_
        rintro _ ⟨⟩

theorem importEach (horder : order.Permutes) (toImport : List (WaitingTransaction H T))
    (hr : ∀ w ∈ toImport, w.isReady) (h : Sane pool (taken toImport + pending)) :
    ∃ promoted failed pool' told lost, BasePool.importEach order toImport pool =
      .ok (promoted, failed, pool') ∧
      Sane pool' pending ∧ SettlesEach order toImport pool promoted failed pool' told lost := by
  induction toImport generalizing pool order
  case nil =>
    refine ⟨[], [], pool, 0, 0, rfl, by simpa using h, by simp, by simp, by simp, by simp, ?_⟩
    exact iff_of_true rfl trivial
  case cons w rest hi =>
    obtain ⟨hw, hrest⟩ := List.forall_mem_cons.mp hr
    obtain ⟨result, pool1, lost1, he, hs, hset⟩ := h.top.1.importToReady (horder.sub 0) hw
    obtain ⟨promoted, failed, pool', told, lost, he', hs', heach⟩ := hi (horder.sub 1) hrest hs
    have hall : taken (w :: rest) + pool.transactions =
        reported w.transaction result + told + (lost1 + lost) + pool'.transactions := by
      rw [taken_cons, cons_add, ← Multiset.add_cons, hset.transactions]
      calc _ = reported w.transaction result + lost1 + (taken rest + pool1.transactions) := by abel
        _ = _ := by
          rw [heach.transactions]
          abel
    have hlost : lost1 + lost = 0 ↔ KeepsEach order (w :: rest) pool := by
      rw [add_eq_zero, hset.lost_iff, heach.lost_iff, KeepsEach]
      simp [he]
    rw [BasePool.importEach, he]
    simp only [he']
    cases result
    case error e =>
      refine ⟨_, _, pool', _, _, rfl, hs', hall, ?_, ?_, ?_, hlost⟩
      · intro tx htx
        rcases mem_add.mp htx with htx | htx
        · exact .inl (Multiset.mem_singleton.mp htx ▸ List.mem_cons_self)
        · exact (heach.reports tx htx).imp_left (List.mem_cons_of_mem _)
      · intro hash hmem
        rcases List.mem_cons.mp hmem with rfl | hmem
        · exact ⟨_, mem_add.mpr (.inl (Multiset.mem_singleton_self _)), rfl⟩
        · obtain ⟨tx, htx, he⟩ := heach.of_failed hash hmem
          exact ⟨tx, mem_add.mpr (.inr htx), he⟩
      · exact fun imported him tx hrep =>
          mem_add.mpr (.inr (heach.of_promoted imported him tx hrep))
    case ok imported =>
      obtain ⟨promoted', removed, rfl⟩ := hset.imported imported rfl
      refine ⟨_, _, pool', _, _, rfl, hs', hall, ?_, ?_, ?_, hlost⟩
      · intro tx htx
        rcases mem_add.mp htx with htx | htx
        · exact .inr ⟨_, List.mem_cons_self, .inl htx⟩
        · refine (heach.reports tx htx).imp_right ?_
          exact fun ⟨imported, him, hrep⟩ => ⟨imported, List.mem_cons_of_mem _ him, hrep⟩
      · intro hash hmem
        obtain ⟨tx, htx, he⟩ := heach.of_failed hash hmem
        exact ⟨tx, mem_add.mpr (.inr htx), he⟩
      · intro imported him tx hrep
        rcases List.mem_cons.mp him with rfl | him
        · exact mem_add.mpr (.inl (hrep.resolve_right List.not_mem_nil))
        · exact mem_add.mpr (.inr (heach.of_promoted imported him tx hrep))

end Sane

end TransactionPool
