import RostroModel.TransactionPool.Future

namespace TransactionPool

open Std.ExtTreeMap
open Function (update update_of_ne update_self)

variable {H T : Type} [LinearOrder H] [DecidableEq T]

namespace FutureTransactions

variable {order : Orders H} {future : FutureTransactions H T} {w : WaitingTransaction H T}
  {hash : H} {hashes : List H} {tag : T} {tags : List T} {wanted : T → Option (List H)}

def transactions (future : FutureTransactions H T) : Multiset (Transaction H T) :=
  future.waiting.collect (·.transaction)

-- Every hash from `wanted_tags` is present in `waiting`, where it misses the tag.
structure Waits (future : FutureTransactions H T) : Prop where
  hash : ∀ (h : H) w, future.waiting[h]? = some w → w.transaction.hash = h
  nodup : ∀ t hs, future.wantedTags t = some hs → hs.Nodup
  wanted : ∀ t hs, future.wantedTags t = some hs → ∀ h ∈ hs,
    ∃ w, future.waiting[h]? = some w ∧ t ∈ w.missingTags

omit [DecidableEq T] in
theorem mem_transactions (h : future.Waits) :
    tx ∈ future.transactions ↔ ∃ w, future.waiting[tx.hash]? = some w ∧ w.transaction = tx := by
  rw [transactions, mem_collect]
  constructor
  · rintro ⟨k, w, hw, rfl⟩
    rw [h.hash k w hw]
    exact ⟨w, hw, rfl⟩
  · rintro ⟨w, hw, rfl⟩
    exact ⟨_, w, hw, rfl⟩

omit [DecidableEq T] in
theorem waits_empty : ({} : FutureTransactions H T).Waits := by
  constructor <;> simp

omit [DecidableEq T] in
theorem Waits.leave (h : future.Waits) (hwanted : ∀ t hs, wanted t = some hs →
      hash ∉ hs ∧ ∃ hs', future.wantedTags t = some hs' ∧ hs.Sublist hs') :
    ({ wantedTags := wanted, waiting := future.waiting.erase hash } :
      FutureTransactions H T).Waits := by
  constructor
  case hash =>
    intro k w hw
    rw [lookup_erase] at hw
    split_ifs at hw with hk
    exact h.hash k w hw
  case nodup =>
    intro t hs ht
    obtain ⟨-, hs', ht', hsub⟩ := hwanted t hs ht
    exact (h.nodup t hs' ht').sublist hsub
  case wanted =>
    intro t hs ht k hk
    obtain ⟨hn, hs', ht', hsub⟩ := hwanted t hs ht
    have hne : k ≠ hash := fun he => hn (he ▸ hk)
    rw [lookup_erase_ne hne]
    exact h.wanted t hs' ht' k (hsub.subset hk)

omit [LinearOrder H] [DecidableEq T] in
theorem ne_of_free (ht : wanted tag = none) (hts : wanted t = some hs) : t ≠ tag := by
  rintro rfl
  rw [ht] at hts
  cases hts

theorem Waits.satisfy (h : future.Waits) (hw : future.waiting[hash]? = some w)
    (ht : future.wantedTags tag = none) :
    ({ future with waiting := future.waiting.insert hash (w.satisfyTag tag) } :
      FutureTransactions H T).Waits := by
  constructor
  case hash =>
    intro k w' hw'
    rw [lookup_insert] at hw'
    split_ifs at hw' with hk
    · cases hw'
      rw [hk]
      exact h.hash hash w hw
    · exact h.hash k w' hw'
  case nodup => exact h.nodup
  case wanted =>
    intro t hs hts k hk
    obtain ⟨w', hw', hm⟩ := h.wanted t hs hts k hk
    rw [lookup_insert]
    split_ifs with he
    · subst he
      rw [hw] at hw'
      cases hw'
      exact ⟨_, rfl, (List.mem_erase_of_ne (ne_of_free ht hts)).mpr hm⟩
    · exact ⟨w', hw', hm⟩

-- What the loops do: some transactions became ready and left, the others stay.
structure Promotes (future : FutureTransactions H T) (ready : List (WaitingTransaction H T))
    (future' : FutureTransactions H T) : Prop where
  waits : future'.Waits
  isReady : ∀ w ∈ ready, w.isReady
  transactions : future.transactions = Multiset.ofList (ready.map (·.transaction)) +
    future'.transactions
  unwanted : ∀ t, future.wantedTags t = none → future'.wantedTags t = none

theorem satisfyWanted_spec (h : future.Waits) (ht : future.wantedTags tag = none)
    (hn : hashes.Nodup) (hm : ∀ k ∈ hashes, ∃ w, future.waiting[k]? = some w) :
    ∃ ready future', satisfyWanted tag hashes future = .ok (ready, future') ∧
      future'.wantedTags = future.wantedTags ∧ Promotes future ready future' := by
  induction hashes generalizing future
  case nil => exact ⟨[], future, rfl, rfl, h, by simp, by simp, fun _ => id⟩
  case cons hash rest hi =>
    obtain ⟨hnot, hn⟩ := List.nodup_cons.mp hn
    obtain ⟨⟨w, hw⟩, hm⟩ := List.forall_mem_cons.mp hm
    have hrest (k) (hk : k ∈ rest) : k ≠ hash := fun he => hnot (he ▸ hk)
    rw [satisfyWanted, hw]
    simp only
    split
    case isTrue hr =>
      have hfree (t hs) (hts : future.wantedTags t = some hs) : hash ∉ hs := by
        intro hmem
        obtain ⟨w', hw', hmiss⟩ := h.wanted t hs hts hash hmem
        rw [hw] at hw'
        cases hw'
        have hin := (List.mem_erase_of_ne (ne_of_free ht hts)).mpr hmiss
        have hnil : w.missingTags.erase tag = [] := of_decide_eq_true hr
        rw [hnil] at hin
        cases hin
      have hm' (k) (hk : k ∈ rest) : ∃ w, (future.waiting.erase hash)[k]? = some w := by
        rw [lookup_erase_ne (hrest k hk)]
        exact hm k hk
      obtain ⟨ready, future', he, hwt, hp⟩ :=
        hi (h.leave fun t hs hts => ⟨hfree t hs hts, hs, hts, .refl _⟩) ht hn hm'
      refine ⟨w.satisfyTag tag :: ready, future', by rw [he], hwt, hp.waits, ?_, ?_, hp.unwanted⟩
      · exact List.forall_mem_cons.mpr ⟨hr, hp.isReady⟩
      · rw [transactions, collect_erase hw]
        exact congrArg _ hp.transactions
    case isFalse =>
      have hm' (k) (hk : k ∈ rest) : ∃ w',
          (future.waiting.insert hash (w.satisfyTag tag))[k]? = some w' := by
        rw [lookup_insert_ne (hrest k hk)]
        exact hm k hk
      obtain ⟨ready, future', he, hwt, hp⟩ := hi (h.satisfy hw ht) ht hn hm'
      refine ⟨ready, future', he, hwt, hp.waits, hp.isReady, ?_, hp.unwanted⟩
      rw [← hp.transactions]
      have hsame : (future.waiting.insert hash (w.satisfyTag tag)).collect (·.transaction) =
          future.waiting.collect (·.transaction) := collect_insert_same hw rfl
      exact hsame.symm

-- The tags are not wanted any more.
theorem satisfyTags_spec (horder : order.Permutes) (h : future.Waits) (tags : List T) :
    ∃ ready future', satisfyTags order tags future = .ok (ready, future') ∧
      Promotes future ready future' ∧
      ∀ t ∈ tags, future'.wantedTags t = none := by
  induction tags generalizing future order
  case nil => exact ⟨[], future, rfl, ⟨h, by simp, by simp, fun _ => id⟩, by simp⟩
  case cons tag rest hi =>
    rw [satisfyTags]
    cases ht : future.wantedTags tag
    case none =>
      obtain ⟨ready, future', he, hp, hclear⟩ := hi (horder.sub 0) h
      exact ⟨ready, future', he, hp, List.forall_mem_cons.mpr ⟨hp.unwanted tag ht, hclear⟩⟩
    case some hashes =>
      have h' : ({ future with wantedTags := update future.wantedTags tag none } :
          FutureTransactions H T).Waits := by
        have hold (t hs) (hts : update future.wantedTags tag none t = some hs) :
            future.wantedTags t = some hs := by
          by_cases he : t = tag
          · subst he
            simp at hts
          · rwa [update_of_ne he] at hts
        exact ⟨h.hash, fun t hs hts => h.nodup t hs (hold t hs hts), fun t hs hts =>
          h.wanted t hs (hold t hs hts)⟩
      have hfree : update future.wantedTags tag none tag = none := update_self ..
      have hnodup : (order.here hashes).Nodup :=
        (horder.here hashes).nodup_iff.mpr (h.nodup tag hashes ht)
      obtain ⟨ready, future1, he1, hwt, hp1⟩ := satisfyWanted_spec h' hfree hnodup
        fun k hk => (h.wanted tag hashes ht k ((horder.here hashes).mem_iff.mp hk)).imp
          fun _ => And.left
      obtain ⟨ready', future2, he2, hp2, hclear⟩ := hi (horder.sub 0) hp1.waits
      have hgone (t) (ht' : update future.wantedTags tag none t = none) :
          future2.wantedTags t = none :=
        hp2.unwanted t (hwt ▸ ht')
      refine ⟨ready ++ ready', future2, by simp only [he1, he2], ⟨hp2.waits, ?_, ?_, ?_⟩,
        List.forall_mem_cons.mpr ⟨hgone tag hfree, hclear⟩⟩
      · intro w hw
        rcases List.mem_append.mp hw with hw | hw
        · exact hp1.isReady w hw
        · exact hp2.isReady w hw
      · rw [List.map_append, ← Multiset.coe_add, add_assoc, ← hp2.transactions]
        exact hp1.transactions
      · intro t htn
        apply hgone
        rw [Function.update_apply]
        split_ifs
        · rfl
        · exact htn

theorem satisfyTags_unwanted (h : ∀ t ∈ tags, future.wantedTags t = none) :
    satisfyTags order tags future = .ok ([], future) := by
  induction tags generalizing order
  case nil => rfl
  case cons tag tags hi =>
    obtain ⟨htag, htags⟩ := List.forall_mem_cons.mp h
    rw [satisfyTags, htag]
    exact hi htags

theorem addWanted_eq_some (hn : ∀ hs, wanted t = some hs → hs.Nodup)
    (h : addWanted hash wanted t' t = some hs) :
    hs.Nodup ∧ ∀ k ∈ hs, (k = hash ∧ t = t') ∨ ∃ hs', wanted t = some hs' ∧ k ∈ hs' := by
  rw [addWanted] at h
  by_cases he : t = t'
  case pos =>
    subst he
    rw [update_self] at h
    cases h
    cases hw : wanted t
    case none => simp
    case some l =>
      exact ⟨(hn l hw).insert, fun k hk => (List.mem_insert_iff.mp hk).imp (⟨·, rfl⟩) (⟨l, rfl, ·⟩)⟩
  case neg =>
    rw [update_of_ne he] at h
    exact ⟨hn hs h, fun k hk => .inr ⟨hs, h, hk⟩⟩

theorem foldl_addWanted (hn : ∀ hs, wanted t = some hs → hs.Nodup)
    (h : tags.foldl (addWanted hash) wanted t = some hs) :
    hs.Nodup ∧ ∀ k ∈ hs, (k = hash ∧ t ∈ tags) ∨ ∃ hs', wanted t = some hs' ∧ k ∈ hs' := by
  induction tags generalizing wanted
  case nil => exact ⟨hn hs h, fun k hk => .inr ⟨hs, h, hk⟩⟩
  case cons t' tags hi =>
    obtain ⟨h1, h2⟩ := hi (fun _ hs' => (addWanted_eq_some hn hs').1) h
    refine ⟨h1, fun k hk => ?_⟩
    rcases h2 k hk with ⟨hk, ht⟩ | ⟨hs', hs'', hk⟩
    · exact .inl ⟨hk, List.mem_cons_of_mem _ ht⟩
    · exact ((addWanted_eq_some hn hs'').2 k hk).imp_left fun ⟨hk, ht⟩ =>
        ⟨hk, ht ▸ List.mem_cons_self⟩

theorem import_spec (h : future.Waits) (hr : ¬w.isReady)
    (hn : future.waiting[w.transaction.hash]? = none) :
    ∃ future', future.import w = .ok future' ∧ future'.Waits ∧
      future'.transactions = w.transaction ::ₘ future.transactions := by
  have hmem : w.transaction.hash ∉ future.waiting := by
    rw [mem_iff_isSome_getElem?, hn]
    simp
  rw [FutureTransactions.import, if_neg hr, if_neg hmem]
  refine ⟨_, rfl, ?_, collect_insert hn⟩
  constructor
  case hash =>
    intro k w' hw'
    simp only [lookup_insert] at hw'
    split_ifs at hw' with hk
    · cases hw'
      exact hk.symm
    · exact h.hash k w' hw'
  case nodup => exact fun t hs hts => (foldl_addWanted (h.nodup t) hts).1
  case wanted =>
    intro t hs hts k hk
    simp only [lookup_insert]
    rcases (foldl_addWanted (h.nodup t) hts).2 k hk with ⟨rfl, hl⟩ | ⟨hs', hs'', hk⟩
    · exact ⟨w, by simp, hl⟩
    · obtain ⟨w', hw', hm⟩ := h.wanted t hs' hs'' k hk
      have hne : k ≠ w.transaction.hash := by
        rintro rfl
        rw [hn] at hw'
        cases hw'
      exact ⟨w', by simp [hne, hw'], hm⟩

theorem removeWanted_eq_some (h : removeWanted hash wanted t' t = some hs) :
    ∃ hs', wanted t = some hs' ∧ hs.Sublist hs' ∧ (t = t' → hs = hs'.erase hash) := by
  rw [removeWanted] at h
  cases hw : wanted t'
  case none =>
    simp only [hw] at h
    refine ⟨hs, h, .refl _, fun he => ?_⟩
    cases (he ▸ hw).symm.trans h
  case some hs' =>
    simp only [hw] at h
    by_cases he : t = t'
    · subst he
      split_ifs at h
      · simp at h
      · rw [update_self] at h
        cases h
        exact ⟨hs', hw, List.erase_sublist, fun _ => rfl⟩
    · have hsame : wanted t = some hs := by split_ifs at h <;> rwa [update_of_ne he] at h
      exact ⟨hs, hsame, .refl _, fun h => absurd h he⟩

-- Removing a transaction from the sets of the tags it misses.
theorem foldl_removeWanted (h : tags.foldl (removeWanted hash) wanted t = some hs) :
    ∃ hs', wanted t = some hs' ∧ hs.Sublist hs' ∧ (t ∈ tags → hs'.Nodup → hash ∉ hs) := by
  induction tags generalizing wanted
  case nil => exact ⟨hs, h, .refl _, by simp⟩
  case cons t' tags hi =>
    obtain ⟨hs1, h1, hsub1, hno⟩ := hi h
    obtain ⟨hs', h', hsub, he⟩ := removeWanted_eq_some h1
    refine ⟨hs', h', hsub1.trans hsub, fun ht hn hmem => ?_⟩
    rcases List.mem_cons.mp ht with ht | ht
    · exact hn.not_mem_erase (he ht ▸ hsub1.subset hmem)
    · exact hno ht (hn.sublist hsub) hmem

theorem remove_spec (h : future.Waits) (hashes : List H) : (remove hashes future).2.Waits ∧
      future.transactions = Multiset.ofList (remove hashes future).1 +
        (remove hashes future).2.transactions := by
  induction hashes generalizing future
  case nil => exact ⟨h, by simp [remove]⟩
  case cons hash rest hi =>
    rw [remove]
    cases hw : future.waiting[hash]?
    case none => exact hi h
    case some w =>
      have h1 : ({ wantedTags := w.missingTags.foldl (removeWanted hash) future.wantedTags
                   waiting := future.waiting.erase hash } : FutureTransactions H T).Waits := by
        apply h.leave
        intro t hs hts
        obtain ⟨hs', h', hsub, hno⟩ := foldl_removeWanted hts
        refine ⟨fun hmem => ?_, hs', h', hsub⟩
        obtain ⟨w', hw', hm⟩ := h.wanted t hs' h' hash (hsub.subset hmem)
        cases hw.symm.trans hw'
        exact hno hm (h.nodup t hs' h') hmem
      obtain ⟨h2, ht⟩ := hi h1
      refine ⟨h2, ?_⟩
      rw [transactions, collect_erase hw]
      exact congrArg _ ht

end FutureTransactions

end TransactionPool
