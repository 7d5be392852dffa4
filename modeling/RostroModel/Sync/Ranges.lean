import RostroModel.Sync.Blocks

namespace Sync

open Function (update update_of_ne update_self)
open List (mem_append pairwise_cons range')

namespace BlockCollection

open Std.ExtTreeMap

variable {P B K : Type} {number : B → Nat} {blocks : Std.ExtTreeMap Nat (BlockRangeState P B)}

-- Every range has a block, and a range ends before the next one starts.
structure Separate (blocks : Std.ExtTreeMap Nat (BlockRangeState P B)) : Prop where
  pos : ∀ (a : Nat) (s : BlockRangeState P B), blocks[a]? = some s → 0 < s.len
  apart : ∀ (a : Nat) (s : BlockRangeState P B) (b : Nat) (t : BlockRangeState P B),
    blocks[a]? = some s → blocks[b]? = some t → a < b → a + s.len ≤ b

-- The blocks of a complete range have the numbers from its start on.
def Numbered (number : B → Nat) (start : Nat) : BlockRangeState P B → Prop
  | .complete blocks => blocks.map (number ·.block) = List.range' start blocks.length
  | _ => True

def IsQueued : BlockRangeState P B → Prop
  | .queued _ => True
  | _ => False

-- What holds of the ranges, of those that are queued for import, and of the numbers that were
-- handed out and not cleared since.
structure Invariant (number : B → Nat) (blocks : Std.ExtTreeMap Nat (BlockRangeState P B))
    (queued : K → Option (Nat × Nat)) (delivered : List Nat) : Prop where
  separate : Separate blocks
  numbered : ∀ (a : Nat) (s : BlockRangeState P B), blocks[a]? = some s → Numbered number a s
  inQueue : ∀ k start stop, queued k = some (start, stop) →
    start < stop ∧ blocks[start]? = some (BlockRangeState.queued (stop - start))
  once : ∀ k k' start stop stop', queued k = some (start, stop) →
    queued k' = some (start, stop') → k = k'
  delivered : ∀ n ∈ delivered, ∃ start len : Nat,
    blocks[start]? = some (BlockRangeState.queued len) ∧ start ≤ n ∧ n < start + len

namespace Separate

variable {a : Nat} {s : BlockRangeState P B}

variable (h : Separate blocks)
include h

theorem eq_of_mem (ha : blocks[a]? = some s) (hb : blocks[b]? = some t) (h1 : a ≤ n)
    (h2 : n < a + s.len) (h3 : b ≤ n) (h4 : n < b + t.len) : a = b := by
  rcases Nat.lt_trichotomy a b with hlt | he | hlt
  · have := h.apart a s b t ha hb hlt
    omega
  · exact he
  · have := h.apart b t a s hb ha hlt
    omega

theorem insert (hs : 0 < s.len)
    (hf : ∀ (b : Nat) (t : BlockRangeState P B), b ≠ a → blocks[b]? = some t →
      b + t.len ≤ a ∨ a + s.len ≤ b) :
    Separate (blocks.insert a s) := by
  constructor
  case pos =>
    intro b t hb
    rw [lookup_insert] at hb
    split_ifs at hb
    · cases hb
      exact hs
    · exact h.pos b t hb
  case apart =>
    intro b t b' t' hb hb' hlt
    rw [lookup_insert] at hb hb'
    split_ifs at hb hb' with hba hb'a hb'a
    · omega
    · cases hb
      rcases hf b' t' hb'a hb' with hle | hle <;> omega
    · cases hb'
      rcases hf b t hba hb with hle | hle <;> omega
    · exact h.apart b t b' t' hb hb' hlt

theorem erase (a : Nat) : Separate (blocks.erase a) := by
  have hl (b : Nat) (t) (hb : (blocks.erase a)[b]? = some t) : blocks[b]? = some t := by
    rw [lookup_erase] at hb
    split_ifs at hb
    exact hb
  exact ⟨fun b t hb => h.pos b t (hl b t hb),
    fun b t b' t' hb hb' => h.apart b t b' t' (hl b t hb) (hl b' t' hb')⟩

theorem free_of_shorter {s' : BlockRangeState P B} (ha : blocks[a]? = some s)
    (hl : s'.len ≤ s.len) (b : Nat) (t : BlockRangeState P B) (hne : b ≠ a)
    (hb : blocks[b]? = some t) : b + t.len ≤ a ∨ a + s'.len ≤ b := by
  rcases Nat.lt_or_gt_of_ne hne with hlt | hgt
  · exact .inl (h.apart b t a s hb ha hlt)
  · have := h.apart a s b t ha hb hgt
    exact .inr (by omega)

end Separate

namespace Invariant

variable {queued : K → Option (Nat × Nat)} {delivered : List Nat} {a : Nat}
  {s : BlockRangeState P B}

variable (h : Invariant number blocks queued delivered)
include h

theorem insert (hold : ∀ s ∈ blocks[a]?, ¬IsQueued s) (hs : 0 < s.len) (hn : Numbered number a s)
    (hf : ∀ (b : Nat) (t : BlockRangeState P B), b ≠ a → blocks[b]? = some t →
      b + t.len ≤ a ∨ a + s.len ≤ b) :
    Invariant number (blocks.insert a s) queued delivered := by
  have hq (b len : Nat) (hb : blocks[b]? = some (BlockRangeState.queued len)) :
      (blocks.insert a s)[b]? = some (BlockRangeState.queued len) := by
    rw [lookup_insert_ne]
    · exact hb
    · rintro rfl
      exact hold (.queued len) hb trivial
  refine ⟨h.separate.insert hs hf, fun b t hb => ?_,
    fun k start stop hk => ?_, h.once, fun n hm => ?_⟩
  · rw [lookup_insert] at hb
    split_ifs at hb with hba
    · cases hb
      exact hba ▸ hn
    · exact h.numbered b t hb
  · exact (h.inQueue k start stop hk).imp_right (hq start _)
  · obtain ⟨start, len, hb, hle⟩ := h.delivered n hm
    exact ⟨start, len, hq start len hb, hle⟩

theorem erase (hold : ∀ s ∈ blocks[a]?, ¬IsQueued s) :
    Invariant number (blocks.erase a) queued delivered := by
  have hq (b len : Nat) (hb : blocks[b]? = some (BlockRangeState.queued len)) :
      (blocks.erase a)[b]? = some (BlockRangeState.queued len) := by
    rw [lookup_erase_ne]
    · exact hb
    · rintro rfl
      exact hold (.queued len) hb trivial
  refine ⟨h.separate.erase a, fun b t hb => ?_, fun k start stop hk => ?_, h.once, fun n hm => ?_⟩
  · rw [lookup_erase] at hb
    split_ifs at hb
    exact h.numbered b t hb
  · exact (h.inQueue k start stop hk).imp_right (hq start _)
  · obtain ⟨start, len, hb, hle⟩ := h.delivered n hm
    exact ⟨start, len, hq start len hb, hle⟩

theorem not_delivered (ha : blocks[a]? = some s)
    (hs : ¬IsQueued s) (h1 : a ≤ n) (h2 : n < a + s.len) : n ∉ delivered := by
  intro hm
  obtain ⟨start, len, hb, h3, h4⟩ := h.delivered n hm
  cases h.separate.eq_of_mem ha hb h1 h2 h3 h4
  rw [ha] at hb
  cases hb
  exact hs trivial

-- A complete range that is handed out.
theorem queue [DecidableEq K] (ha : blocks[a]? = some (.complete ready)) (k : K) :
    Invariant number (blocks.insert a (.queued ready.length))
      (update queued k (some (a, a + ready.length)))
      (delivered ++ ready.map (number ·.block)) := by
  have hpos : 0 < ready.length := h.separate.pos a _ ha
  have hq (b len : Nat) (hb : blocks[b]? = some (BlockRangeState.queued len)) :
      (blocks.insert a (.queued ready.length))[b]? = some (BlockRangeState.queued len) := by
    rw [lookup_insert_ne]
    · exact hb
    · rintro rfl
      rw [ha] at hb
      cases hb
  -- Nothing is queued from the start of a complete range.
  have hnew (k' stop) : queued k' ≠ some (a, stop) := by
    intro hk
    have hb := (h.inQueue k' a stop hk).2
    rw [ha] at hb
    cases hb
  refine ⟨h.separate.insert hpos (h.separate.free_of_shorter ha (le_refl _)), fun b t hb => ?_,
    fun k' start stop hk => ?_, fun k1 k2 start stop stop' h1 h2 => ?_, fun n hm => ?_⟩
  · rw [lookup_insert] at hb
    split_ifs at hb
    · cases hb
      trivial
    · exact h.numbered b t hb
  · by_cases hkk : k' = k
    case pos =>
      subst hkk
      rw [update_self] at hk
      cases hk
      refine ⟨by omega, ?_⟩
      rw [getElem?_insert_self, Nat.add_sub_cancel_left]
    case neg =>
      rw [update_of_ne hkk] at hk
      exact (h.inQueue k' start stop hk).imp_right (hq start _)
  · by_cases hk1 : k1 = k <;> by_cases hk2 : k2 = k
    · rw [hk1, hk2]
    · subst hk1
      rw [update_self] at h1
      rw [update_of_ne hk2] at h2
      cases h1
      exact absurd h2 (hnew k2 stop')
    · subst hk2
      rw [update_self] at h2
      rw [update_of_ne hk1] at h1
      cases h2
      exact absurd h1 (hnew k1 stop)
    · rw [update_of_ne hk1] at h1
      rw [update_of_ne hk2] at h2
      exact h.once k1 k2 start stop stop' h1 h2
  · rcases mem_append.mp hm with hm | hm
    · obtain ⟨start, len, hb, hle⟩ := h.delivered n hm
      exact ⟨start, len, hq start len hb, hle⟩
    · rw [show ready.map (number ·.block) = range' a ready.length from h.numbered a _ ha,
        List.mem_range'_1] at hm
      exact ⟨a, ready.length, getElem?_insert_self, hm⟩

-- A range that was handed out and is imported now.
theorem clear [DecidableEq K] {start stop : Nat} (hk : queued k = some (start, stop)) :
    Invariant number ((range' start (stop - start)).foldl (·.erase ·) blocks)
      (update queued k none) (delivered.filter fun n => ¬(start ≤ n ∧ n < stop)) := by
  obtain ⟨hlt, hs⟩ := h.inQueue k start stop hk
  -- No other range starts in it.
  have hother (b : Nat) (t) (hb : blocks[b]? = some t) (h1 : start ≤ b) (h2 : b < stop) :
      b = start := by
    have hpos := h.separate.pos b t hb
    refine (h.separate.eq_of_mem hs hb h1 ?_ (le_refl b) (by omega)).symm
    simp only [BlockRangeState.len]
    omega
  have hl (b : Nat) : ((range' start (stop - start)).foldl (·.erase ·) blocks)[b]? =
      if start ≤ b ∧ b < stop then none else blocks[b]? := by
    rw [lookup_foldl_erase]
    simp only [List.mem_range'_1]
    congr 1
    simp only [eq_iff_iff]
    omega
  have hsub (b : Nat) (t) (hb : ((range' start (stop - start)).foldl (·.erase ·) blocks)[b]? =
      some t) : blocks[b]? = some t := by
    rw [hl] at hb
    split_ifs at hb
    exact hb
  have hkeep (b : Nat) (t) (hb : blocks[b]? = some t) (hne : b ≠ start) :
      ((range' start (stop - start)).foldl (·.erase ·) blocks)[b]? = some t := by
    rw [hl, if_neg fun hr => hne (hother b t hb hr.1 hr.2)]
    exact hb
  refine ⟨⟨fun b t hb => h.separate.pos b t (hsub b t hb), fun b t b' t' hb hb' =>
    h.separate.apart b t b' t' (hsub b t hb) (hsub b' t' hb')⟩,
    fun b t hb => h.numbered b t (hsub b t hb), fun k' a b hk' => ?_, fun k1 k2 a b b' h1 h2 => ?_,
    fun n hm => ?_⟩
  · by_cases hkk : k' = k
    case pos =>
      rw [hkk, update_self] at hk'
      cases hk'
    case neg =>
      rw [update_of_ne hkk] at hk'
      obtain ⟨hab, hq⟩ := h.inQueue k' a b hk'
      refine ⟨hab, hkeep a _ hq fun he => ?_⟩
      subst he
      exact hkk (h.once k' k a b stop hk' hk)
  · have hne (k') (e) (hk' : update queued k none k' = some e) : queued k' = some e := by
      by_cases hkk : k' = k
      · rw [hkk, update_self] at hk'
        cases hk'
      · rwa [update_of_ne hkk] at hk'
    exact h.once k1 k2 a b b' (hne k1 _ h1) (hne k2 _ h2)
  · obtain ⟨hm, hout⟩ := List.mem_filter.mp hm
    obtain ⟨a, len, hq, h1, h2⟩ := h.delivered n hm
    refine ⟨a, len, hkeep a _ hq fun he => ?_, h1, h2⟩
    subst he
    rw [hs] at hq
    cases hq
    simp only [decide_eq_true_eq] at hout
    omega

end Invariant

section FindRange

variable {firstDifferent count maxParallel : Nat}

-- A range to download: one that is downloaded already, or one that is free of all ranges.
def Suitable (l : List (Nat × BlockRangeState P B)) (range : Nat × Nat) : Prop :=
  range.1 < range.2 ∧
    ((∃ len downloading, (range.1, .downloading len downloading) ∈ l ∧ range.2 = range.1 + len) ∨
      ∀ e ∈ l, e.1 + e.2.len ≤ range.1 ∨ range.2 ≤ e.1)

def InOrder (l : List (Nat × BlockRangeState P B)) : Prop :=
  l.Pairwise (fun e e' => e.1 + e.2.len ≤ e'.1) ∧ ∀ e ∈ l, 0 < e.2.len

variable {l rest : List (Nat × BlockRangeState P B)} {start : Nat} {s : BlockRangeState P B}

theorem gapAfter_suitable (ho : InOrder (l ++ (start, s) :: rest))
    (hc : 0 < count) (h : gapAfter firstDifferent count (start + s.len) rest.head? = some r) :
    Suitable (l ++ (start, s) :: rest) r.1 := by
  have hp := List.pairwise_append.mp ho.1
  have hp' := pairwise_cons.mp hp.2.1
  have hbefore (e) (he : e ∈ l) : e.1 + e.2.len ≤ start + s.len :=
    (hp.2.2 e he (start, s) List.mem_cons_self).trans (Nat.le_add_right ..)
  cases rest
  case nil =>
    simp only [List.head?_nil, gapAfter] at h
    split_ifs at h
    cases h
    refine ⟨by simp only; omega, .inr fun e he => .inl ?_⟩
    rcases mem_append.mp he with he | he
    · exact hbefore e he
    · cases List.mem_singleton.mp he
      exact le_refl _
  case cons next rest =>
    simp only [List.head?_cons, gapAfter] at h
    split_ifs at h with hg
    cases h
    refine ⟨by simp only; omega, .inr fun e he => ?_⟩
    simp only [mem_append, List.mem_cons] at he
    rcases he with he | rfl | rfl | he
    · exact .inl (hbefore e he)
    · exact .inl (le_refl _)
    · exact .inr (Nat.min_le_left ..)
    · have hn := (pairwise_cons.mp hp'.2).1 e he
      exact .inr (by simp only; omega)

theorem candidate_suitable (ho : InOrder (l ++ rest)) (hc : 0 < count)
    (h : candidate firstDifferent count maxParallel l.getLast? rest.head? = some r) :
    Suitable (l ++ rest) r.1 := by
  rcases List.eq_nil_or_concat l with rfl | ⟨l, ⟨start, s⟩, rfl⟩
  · cases rest
    case nil =>
      cases h
      exact ⟨by simp only; omega, .inr (by simp)⟩
    case cons next rest =>
      simp only [List.getLast?_nil, List.head?_cons, candidate] at h
      split_ifs at h
      cases h
      refine ⟨by simp only; omega, .inr fun e he => .inr ?_⟩
      rcases List.mem_cons.mp he with rfl | he
      · exact Nat.min_le_right ..
      · have hn := (pairwise_cons.mp ho.1).1 e he
        simp only
        omega
  · simp only [List.concat_eq_append, List.append_assoc, List.getLast?_concat] at ho h ⊢
    cases s
    case downloading len downloading =>
      simp only [candidate] at h
      split_ifs at h
      · cases h
        have hpos : 0 < len := ho.2 (start, .downloading len downloading) (by simp)
        exact ⟨by simp only; omega, .inl ⟨len, downloading, by simp, rfl⟩⟩
      · exact gapAfter_suitable ho hc h
    all_goals exact gapAfter_suitable ho hc h

-- The loop from any place in the list.
theorem findRange_suitable (hc : 0 < count) (ho : InOrder (l ++ rest)) :
    Suitable (l ++ rest) (findRange firstDifferent count maxParallel l.getLast? rest).1 := by
  induction rest generalizing l
  case nil =>
    rw [findRange]
    cases h : candidate firstDifferent count maxParallel l.getLast? none
    case some r => exact candidate_suitable ho hc h
    case none =>
      -- All ranges end before the first block that is needed.
      simp only [Option.getD_none, List.append_nil] at ho ⊢
      rcases List.eq_nil_or_concat l with rfl | ⟨l, ⟨start, s⟩, rfl⟩
      · cases h
      · simp only [List.concat_eq_append, List.getLast?_concat] at ho h ⊢
        have hlast : start + s.len < firstDifferent := by
          cases s
          all_goals simp only [candidate, gapAfter] at h
          all_goals split_ifs at h
          all_goals simp only [BlockRangeState.len] at *
          all_goals omega
        refine ⟨by simp only; omega, .inr fun e he => .inl ?_⟩
        rcases mem_append.mp he with he | he
        · have hp := (List.pairwise_append.mp ho.1).2.2 e he (start, s) (List.mem_singleton_self _)
          omega
        · cases List.mem_singleton.mp he
          simp only
          omega
  case cons next rest hi =>
    rw [findRange]
    cases h : candidate firstDifferent count maxParallel l.getLast? (some next)
    case some r => exact candidate_suitable ho hc h
    case none =>
      have hi := hi (l := l ++ [next])
      simp only [List.getLast?_concat, List.append_assoc] at hi
      exact hi ho

end FindRange

theorem Separate.inOrder (h : Separate blocks) : InOrder blocks.toList := by
  refine ⟨?_, fun e he => h.pos e.1 e.2 (mem_toList_iff_getElem?_eq_some.mp he)⟩
  refine blocks.ordered_keys_toList.imp_of_mem fun {e e'} he he' hlt => ?_
  exact h.apart e.1 e.2 e'.1 e'.2 (mem_toList_iff_getElem?_eq_some.mp he)
    (mem_toList_iff_getElem?_eq_some.mp he') (compare_lt_iff_lt.mp hlt)

section Steps

variable {c : BlockCollection P B K} {delivered : List Nat}

-- The invariant of a collection.
abbrev Consistent (number : B → Nat) (c : BlockCollection P B K) (delivered : List Nat) : Prop :=
  Invariant number c.blocks c.queuedBlocks delivered

theorem neededBlocks_consistent [DecidableEq P] (h : c.Consistent number delivered) (r : Request P)
    (hc : 0 < r.count) :
    ∃ range c', c.neededBlocks r = some (range, c') ∧ c'.Consistent number delivered := by
  rw [neededBlocks]
  split_ifs with hbest
  case pos => exact ⟨none, c, rfl, h⟩
  case neg =>
    have hs : Suitable c.blocks.toList
        (findRange (r.common + 1) r.count r.maxParallel none c.blocks.toList).1 :=
      findRange_suitable (l := []) hc h.separate.inOrder
    generalize findRange (r.common + 1) r.count r.maxParallel none c.blocks.toList = found at hs ⊢
    obtain ⟨⟨start, stop⟩, d⟩ := found
    obtain ⟨hlt, hs⟩ := hs
    simp only at hlt hs ⊢
    split_ifs with h1 h2 h3
    · exact ⟨none, c, rfl, h⟩
    · exact ⟨none, c, rfl, h⟩
    · omega
    · refine ⟨_, _, rfl, ?_⟩
      have hlen : 0 < (BlockRangeState.downloading (min (r.peerBest + 1) stop - start) (d + 1) :
          BlockRangeState P B).len := by
        simp only [BlockRangeState.len]
        omega
      rcases hs with ⟨len, d', hm, rfl⟩ | hf
      · have hm := mem_toList_iff_getElem?_eq_some.mp hm
        apply h.insert _ hlen trivial
        · apply h.separate.free_of_shorter hm
          simp only [BlockRangeState.len]
          omega
        · rw [hm]
          rintro _ ⟨⟩ ⟨⟩
      · have hfree (b : Nat) (t) (hb : c.blocks[b]? = some t) : b + t.len ≤ start ∨ stop ≤ b :=
          hf (b, t) (mem_toList_iff_getElem?_eq_some.mpr hb)
        apply h.insert _ hlen trivial
        · intro b t _ hb
          change b + t.len ≤ start ∨ start + (min (r.peerBest + 1) stop - start) ≤ b
          rcases hfree b t hb with hle | hle <;> omega
        · intro t ht
          have hpos := h.separate.pos start t ht
          rcases hfree start t ht with hle | hle <;> omega

-- What `clear_peer_download` does to the ranges: one that is downloaded may
-- lose a peer, or be taken out.
inductive Released (blocks : Std.ExtTreeMap Nat (BlockRangeState P B)) :
    Std.ExtTreeMap Nat (BlockRangeState P B) → Prop
  | unchanged : Released blocks blocks
  | fewer {start len : Nat} {d d' : Nat} : blocks[start]? = some (.downloading len d) →
    Released blocks (blocks.insert start (.downloading len d'))
  | removed {start len : Nat} {d : Nat} : blocks[start]? = some (.downloading len d) →
    Released blocks (blocks.erase start)

theorem clearPeerDownload_released [DecidableEq P] (c : BlockCollection P B K) (who : P) :
    Released c.blocks (c.clearPeerDownload who).blocks ∧
      (c.clearPeerDownload who).queuedBlocks = c.queuedBlocks := by
  rw [clearPeerDownload]
  rcases c.peerRequests who with _ | start
  case none => exact ⟨.unchanged, rfl⟩
  case some =>
    simp only
    rcases hs : c.blocks[start]? with _ | ⟨len, d⟩ | _ | _
    case some.downloading =>
      simp only
      split_ifs
      · exact ⟨.fewer hs, rfl⟩
      · exact ⟨.removed hs, rfl⟩
    all_goals exact ⟨.unchanged, rfl⟩

namespace Released

variable {blocks' : Std.ExtTreeMap Nat (BlockRangeState P B)} {a : Nat} {s : BlockRangeState P B}

variable (h : Released blocks blocks')
include h

theorem before (hs : blocks'[a]? = some s) :
    ∃ s', blocks[a]? = some s' ∧ s'.len = s.len ∧ (IsQueued s → IsQueued s') := by
  cases h
  case unchanged => exact ⟨s, hs, rfl, id⟩
  case fewer start len d d' hd =>
    rw [lookup_insert] at hs
    split_ifs at hs with ha
    · cases hs
      exact ⟨.downloading len d, ha ▸ hd, rfl, nofun⟩
    · exact ⟨s, hs, rfl, id⟩
  case removed =>
    rw [lookup_erase] at hs
    split_ifs at hs
    exact ⟨s, hs, rfl, id⟩

theorem complete (hs : blocks[a]? = some (.complete ready)) :
    blocks'[a]? = some (.complete ready) := by
  cases h
  case unchanged => exact hs
  case fewer hd =>
    rw [lookup_insert_ne, hs]
    rintro rfl
    rw [hd] at hs
    cases hs
  case removed hd =>
    rw [lookup_erase_ne, hs]
    rintro rfl
    rw [hd] at hs
    cases hs

theorem invariant {queued : K → Option (Nat × Nat)}
    (hi : Invariant number blocks queued delivered) :
    Invariant number blocks' queued delivered := by
  have hold {start len d : Nat} (hd : blocks[start]? = some (.downloading len d)) :
      ∀ s ∈ blocks[start]?, ¬IsQueued s := by
    rw [hd]
    rintro _ ⟨⟩ ⟨⟩
  cases h
  case unchanged => exact hi
  case fewer start len d d' hd =>
    have hpos := hi.separate.pos start _ hd
    exact hi.insert (s := .downloading len d') (hold hd) hpos trivial
      (hi.separate.free_of_shorter hd (le_refl len))
  case removed hd => exact hi.erase (hold hd)

end Released

-- An answer is in time if there are at least as many blocks in its range as it brings.
def InTime (c : BlockCollection P B K) (start count : Nat) : Prop :=
  count = 0 ∨ (∃ len downloading, c.blocks[start]? = some (.downloading len downloading) ∧
    count ≤ len) ∨
    ∃ existing, c.blocks[start]? = some (.complete existing) ∧ count ≤ existing.length

theorem respond_consistent [DecidableEq P] (h : c.Consistent number delivered) {start : Nat}
    {answer : List B} (who : P) (ht : c.InTime start answer.length)
    (hn : answer.map number = range' start answer.length) :
    ((c.clearPeerDownload who).insert start answer who).Consistent number delivered := by
  obtain ⟨hr, hq⟩ := clearPeerDownload_released c who
  have h' : (c.clearPeerDownload who).Consistent number delivered := by
    rw [Consistent, hq]
    exact hr.invariant h
  rw [insert]
  split_ifs with he hd
  · exact h'
  · exact h'
  · rcases ht with h0 | ⟨len, d, hs, hle⟩ | ⟨existing, hs, hle⟩
    · exact absurd (List.isEmpty_iff_length_eq_zero.mpr h0) he
    · apply h'.insert
      · intro t hst hqueued
        obtain ⟨t', ht', -, hback⟩ := hr.before hst
        rw [hs] at ht'
        cases ht'
        exact hback hqueued
      · simpa [BlockRangeState.len, List.length_pos_iff] using he
      · simpa [Numbered, Function.comp_def] using hn
      · intro b t hne hb
        obtain ⟨t', hb', hlen, -⟩ := hr.before hb
        rw [← hlen]
        apply h.separate.free_of_shorter hs _ b t' hne hb'
        simpa [BlockRangeState.len] using hle
    · rw [hr.complete hs] at hd
      simp [isDownloaded, hle] at hd

theorem clearQueued_consistent [DecidableEq K] (h : c.Consistent number delivered) (k : K) :
    (c.clearQueued k).Consistent number
      ((c.queuedBlocks k).elim delivered fun r => delivered.filter fun n =>
        ¬(r.1 ≤ n ∧ n < r.2)) := by
  rw [clearQueued]
  rcases hk : c.queuedBlocks k with _ | ⟨start, stop⟩
  case none => exact h
  case some => exact h.clear hk

def numbers (number : B → Nat) (ready : List (BlockData P B)) : List Nat :=
  ready.map (number ·.block)

-- What the loop of `ready_blocks` has collected: consecutive blocks, of which the last one is
-- before the ranges that follow.
structure Collected (number : B → Nat) (ready : List (BlockData P B)) (prev : Nat)
    (rest : List (Nat × BlockRangeState P B)) : Prop where
  consecutive : ∃ first, numbers number ready = List.range' first ready.length ∧
    (ready ≠ [] → prev = first + ready.length)
  before : ready ≠ [] → ∀ e ∈ rest, prev ≤ e.1

variable {rest : List (Nat × BlockRangeState P B)}

theorem Collected.tail (h : Collected number ready prev (e :: rest)) :
    Collected number ready prev rest :=
  ⟨h.consecutive, fun hr e' he => h.before hr e' (List.mem_cons_of_mem _ he)⟩

-- A complete range that does not start after the collected blocks starts right behind them.
theorem Collected.append {ready blocks : List (BlockData P B)} {prev start : Nat}
    (h : Collected number ready prev ((start, .complete blocks) :: rest)) (hle : start ≤ prev)
    (hn : numbers number blocks = range' start blocks.length)
    (hrest : ∀ e ∈ rest, start + blocks.length ≤ e.1) :
    Collected number (ready ++ blocks) (start + blocks.length) rest := by
  obtain ⟨first, hf, hprev⟩ := h.consecutive
  refine ⟨?_, fun _ => hrest⟩
  by_cases hr : ready = []
  case pos =>
    subst hr
    exact ⟨start, by simpa using hn, fun _ => by simp⟩
  case neg =>
    have hge := h.before hr _ List.mem_cons_self
    have hp := hprev hr
    have hs : start = first + ready.length := by
      omega
    refine ⟨first, ?_, fun _ => by rw [List.length_append]; omega⟩
    rw [numbers, List.map_append, List.length_append, ← List.range'_append_1, ← hs]
    exact congrArg₂ (· ++ ·) hf hn

variable [DecidableEq K] {hash : B → K}

theorem readyLoop_spec (h : c.Consistent number (delivered ++ numbers number ready))
    (ho : InOrder rest) (hrest : ∀ e ∈ rest, c.blocks[e.1]? = some e.2)
    (hc : Collected number ready prev rest) (hnew : ∀ n ∈ numbers number ready, n ∉ delivered) :
    (readyLoop hash c prev ready rest).2.Consistent number
        (delivered ++ numbers number (readyLoop hash c prev ready rest).1) ∧
      (∃ first, numbers number (readyLoop hash c prev ready rest).1 =
        range' first (readyLoop hash c prev ready rest).1.length) ∧
      ∀ n ∈ numbers number (readyLoop hash c prev ready rest).1, n ∉ delivered := by
  have hdone : ∃ first, numbers number ready = range' first ready.length :=
    hc.consecutive.imp fun _ => And.left
  induction rest generalizing c prev ready
  case nil => exact ⟨h, hdone, hnew⟩
  case cons e rest hi =>
    obtain ⟨start, range⟩ := e
    obtain ⟨hhead, htail⟩ := List.forall_mem_cons.mp hrest
    have hp := pairwise_cons.mp ho.1
    have ho' : InOrder rest := ⟨hp.2, fun e he => ho.2 e (List.mem_cons_of_mem _ he)⟩
    by_cases hlt : prev < start
    case pos =>
      rw [readyLoop.eq_def]
      simp only [hlt]
      exact ⟨h, hdone, hnew⟩
    case neg =>
      rw [readyLoop.eq_def]
      simp only [hlt]
      cases range
      case downloading => exact ⟨h, hdone, hnew⟩
      case queued => exact hi h ho' htail hc.tail hnew hdone
      case complete blocks =>
        have hn : numbers number blocks = range' start blocks.length := h.numbered start _ hhead
        have hpos : 0 < blocks.length := ho.2 _ List.mem_cons_self
        have hc' := hc.append (not_lt.mp hlt) hn fun e he => hp.1 e he
        obtain ⟨first, others, rfl⟩ := List.exists_cons_of_length_pos hpos
        apply hi _ ho' _ hc' _ (hc'.consecutive.imp fun _ => And.left)
        · have hq := h.queue hhead (hash first.block)
          rw [List.append_assoc, numbers, ← List.map_append] at hq
          exact hq
        · intro e he
          have hlt := hp.1 e he
          rw [queue, lookup_insert_ne]
          · exact htail e he
          · simp only [BlockRangeState.len] at hlt
            omega
        · intro n hm
          rw [numbers, List.map_append, mem_append] at hm
          rcases hm with hm | hm
          · exact hnew n hm
          · have hr : n ∈ range' start (first :: others).length := hn ▸ hm
            rw [List.mem_range'_1] at hr
            have hnot := h.not_delivered hhead not_false hr.1 hr.2
            exact fun hd => hnot (List.mem_append_left _ hd)

theorem readyBlocks_spec (h : c.Consistent number delivered) («from» : Nat) :
    (c.readyBlocks hash «from»).2.Consistent number
        (delivered ++ numbers number (c.readyBlocks hash «from»).1) ∧
      (∃ first, numbers number (c.readyBlocks hash «from»).1 =
        range' first (c.readyBlocks hash «from»).1.length) ∧
      ∀ n ∈ numbers number (c.readyBlocks hash «from»).1, n ∉ delivered := by
  apply readyLoop_spec
  · simpa [numbers] using h
  · exact h.separate.inOrder
  · exact fun e he => mem_toList_iff_getElem?_eq_some.mp he
  · exact ⟨⟨0, rfl, fun h => absurd rfl h⟩, fun h => absurd rfl h⟩
  · simp [numbers]

end Steps
end BlockCollection

open BlockCollection

-- A collection with the requests that are not answered, each with its peer and range, and the
-- numbers of the blocks that were handed out and not cleared since.
structure Download (P B K : Type) where
  collection : BlockCollection P B K := {}
  requests : List (P × Nat × Nat) := []
  delivered : List Nat := []

namespace Download

variable [DecidableEq P] [DecidableEq K] (hash : B → K) (number : B → Nat)

-- The answer to a request, of which only the first blocks may be there.
def respond (d : Download P B K) (request : P × Nat × Nat) (answer : List B) : Download P B K :=
  { d with
    collection := (d.collection.clearPeerDownload request.1).insert request.2.1 answer request.1
    requests := d.requests.erase request }

def ready (d : Download P B K) («from» : Nat) : Download P B K :=
  { d with
    collection := (d.collection.readyBlocks hash «from»).2
    delivered := d.delivered ++ numbers number (d.collection.readyBlocks hash «from»).1 }

def clear (d : Download P B K) (k : K) : Download P B K :=
  { d with
    collection := d.collection.clearQueued k
    delivered := (d.collection.queuedBlocks k).elim d.delivered fun r =>
      d.delivered.filter fun n => ¬(r.1 ≤ n ∧ n < r.2) }

-- The runs in which every answer meets the condition on the collection, the requested start and the
-- number of blocks.
inductive Run (condition : BlockCollection P B K → Nat → Nat → Prop) : Download P B K → Prop
  | empty : Run condition {}
  | request {d range collection} (r : Request P) : Run condition d → 0 < r.count →
    d.collection.neededBlocks r = some (range, collection) →
    Run condition { d with collection, requests := d.requests ++ range.toList.map (r.who, ·) }
  | respond {d} (request answer) : Run condition d → request ∈ d.requests →
    request.2.1 + answer.length ≤ request.2.2 →
    answer.map number = List.range' request.2.1 answer.length →
    condition d.collection request.2.1 answer.length → Run condition (d.respond request answer)
  | ready {d} («from») : Run condition d → Run condition (d.ready hash number «from»)
  | clear {d} (k) : Run condition d → Run condition (d.clear k)

-- The ranges have no block in common, the blocks that are handed out next are consecutive, and none
-- of them was handed out before. A request does not panic.
structure Safe (d : Download P B K) : Prop where
  disjoint : ∀ (a b : Nat) (s t : BlockRangeState P B) (n : Nat), d.collection.blocks[a]? = some s →
    d.collection.blocks[b]? = some t → a ≤ n → n < a + s.len → b ≤ n → n < b + t.len → a = b
  consecutive : ∀ «from», ∃ first, numbers number (d.collection.readyBlocks hash «from»).1 =
    List.range' first (d.collection.readyBlocks hash «from»).1.length
  once : ∀ «from», ∀ n ∈ numbers number (d.collection.readyBlocks hash «from»).1, n ∉ d.delivered
  noPanic : ∀ r : Request P, 0 < r.count → (d.collection.neededBlocks r).isSome

variable {hash number} {d : Download P B K}

theorem Run.consistent (h : Run hash number InTime d) :
    d.collection.Consistent number d.delivered := by
  induction h
  case empty =>
    refine ⟨⟨?_, ?_⟩, ?_, ?_, ?_, ?_⟩
    all_goals simp
  case request d range collection r _ hc hr hi =>
    obtain ⟨range', c', hr', hi'⟩ := neededBlocks_consistent hi r hc
    rw [hr] at hr'
    cases hr'
    exact hi'
  case respond request answer _ _ _ hn ht hi => exact respond_consistent hi request.1 ht hn
  case ready «from» _ hi => exact (readyBlocks_spec hi «from»).1
  case clear k _ hi => exact clearQueued_consistent hi k

theorem safe_of_inTime (h : Run hash number InTime d) : d.Safe hash number := by
  have hc := h.consistent
  constructor
  case disjoint =>
    intro a b s t n ha hb h₁ h₂ h₃ h₄
    exact hc.separate.eq_of_mem ha hb h₁ h₂ h₃ h₄
  case consecutive => exact fun «from» => (readyBlocks_spec hc «from»).2.1
  case once => exact fun «from» => (readyBlocks_spec hc «from»).2.2
  case noPanic =>
    intro r hr
    obtain ⟨range, c', he, -⟩ := neededBlocks_consistent hc r hr
    rw [he]
    rfl

-- Requests of ten blocks, from peers with different best blocks. A block
-- is its number and its hash.
def sampleRequest (who peerBest : Nat) : Request Nat where
  who := who
  count := 10
  peerBest := peerBest
  common := 0
  maxParallel := 2
  maxAhead := 100

theorem sampleRun_safe : ∃ d : Download Nat Nat Nat, Run id id InTime d ∧
    d.delivered = [1, 2, 3, 4, 5, 6, 7, 8, 9, 10] ∧ d.Safe id id := by
  have h₀ : Run id id InTime ({} : Download Nat Nat Nat) := .empty
  have h₁ := h₀.request (sampleRequest 1 100) (by decide) rfl
  have h₂ := h₁.respond (1, 1, 11) [1, 2, 3, 4, 5, 6, 7, 8, 9, 10] (by decide)
    (by decide) (by decide)
    (.inr (.inl ⟨10, 1, rfl, by decide⟩))
  have h₃ := h₂.ready 1
  exact ⟨_, h₃, rfl, safe_of_inTime h₃⟩

-- The second peer has fewer blocks, so that the range becomes shorter and the third one is asked
-- for what follows. The answer of the first peer then overlaps with the next range.
theorem sampleRun_overlaps : ∃ d : Download Nat Nat Nat, Run id id (fun _ _ _ => True) d ∧
    numbers id (d.collection.readyBlocks id 1).1 =
      [1, 2, 3, 4, 5, 6, 7, 8, 9, 10, 6, 7, 8, 9, 10, 11, 12, 13, 14, 15] ∧ ¬d.Safe id id := by
  have h₀ : Run id id (fun _ _ _ => True) ({} : Download Nat Nat Nat) := .empty
  have h₁ := h₀.request (sampleRequest 1 100) (by decide) rfl
  have h₂ := h₁.request (sampleRequest 2 5) (by decide) rfl
  have h₃ := h₂.request (sampleRequest 3 100) (by decide) rfl
  have h₄ := h₃.respond (1, 1, 11) [1, 2, 3, 4, 5, 6, 7, 8, 9, 10] (by decide)
    (by decide) (by decide)
    trivial
  have h₅ := h₄.respond (3, 6, 16) [6, 7, 8, 9, 10, 11, 12, 13, 14, 15] (by decide) (by decide)
    (by decide) trivial
  refine ⟨_, h₅, rfl, fun hs => ?_⟩
  exact absurd (hs.disjoint 1 6 _ _ 6 rfl rfl (by decide) (by decide) (by decide) (by decide))
    (by decide)

end Download
end Sync
