import RostroModel.Statements.Accounting

namespace Statements

open Std.ExtTreeMap
open List (append_nil filter_append length_map mem_append mem_append_left mem_filter mem_map
  mem_singleton)

variable {H A T K C : Type}

def Listed.size (l : List (Listed H C)) : Nat :=
  (l.map (·.2.2)).sum

theorem size_append (l l' : List (Listed H C)) :
    Listed.size (l ++ l') = Listed.size l + Listed.size l' := by
  simp [Listed.size]

theorem size_perm {l l' : List (Listed H C)} (h : l.Perm l') : Listed.size l = Listed.size l' :=
  (h.map _).sum_eq

theorem size_le_of_sublist {l l' : List (Listed H C)} (h : l.Sublist l') :
    Listed.size l ≤ Listed.size l' :=
  (h.map _).sum_le_sum (by simp)

section Choice

variable [DecidableEq C] (s : Statement H T K C) (l : List (Listed H C))

def sameChannel (e : Listed H C) : Bool :=
  s.channel.isSome && e.2.1 = s.channel

def lowerExpiry (e : Listed H C) : Bool :=
  e.1.expiry < s.expiry

def replaced : List (Listed H C) :=
  l.filter (sameChannel s)

def others : List (Listed H C) :=
  l.filter fun e => !sameChannel s e

-- The statement that is replaced and the first of the other ones.
def evict (n : Nat) : List (Listed H C) :=
  replaced s l ++ (others s l).take n

variable {s l}

theorem others_append (l l' : List (Listed H C)) : others s (l ++ l') = others s l ++ others s l' :=
  filter_append ..

theorem evict_append (done rest : List (Listed H C)) :
    evict s (done ++ rest) (others s done).length = replaced s (done ++ rest) ++ others s done := by
  rw [evict, others_append, List.take_left]

theorem evict_append_drop (n : Nat) : (evict s l n ++ (others s l).drop n).Perm l := by
  rw [evict, List.append_assoc, List.take_append_drop]
  exact List.filter_append_perm _ l

theorem evict_perm (h : (others s l).length ≤ n) : (evict s l n).Perm l := by
  simpa only [List.drop_of_length_le h, append_nil] using evict_append_drop (s := s) (l := l) n

end Choice

variable [LinearOrder H] [LinearOrder A] [DecidableEq C]

section Fits

variable (index : Index H A T K C) (a : A) (s : Statement H T K C) (allowance : StatementAllowance)

def AccountFits (l : List (Listed H C)) : Prop :=
  Index.accountSatisfied s allowance (index.record a) l.length (Listed.size l)

def StoreFits (l : List (Listed H C)) : Prop :=
  index.storeSatisfied s l.length (Listed.size l)

-- The first `n` other statements are the shortest prefix with which the account has room.
structure Shortest (n : Nat) : Prop where
  lower : ∀ e ∈ evict s (listed index a) n, lowerExpiry s e
  fits : AccountFits index a s allowance (evict s (listed index a) n)
  before : ∀ m < n, ¬AccountFits index a s allowance (evict s (listed index a) m)

-- A set of statements of the account that may be evicted for the new one. The one of the same
-- channel has to be among them.
structure Admissible (l : List (Listed H C)) : Prop where
  sublist : l.Sublist (listed index a)
  lower : ∀ e ∈ l, lowerExpiry s e
  channel : ∀ e ∈ listed index a, sameChannel s e → e ∈ l

variable [DecidableEq T] [DecidableEq K]

-- Quotas and priorities are respected.
structure Admission (currentTime : Nat) : Prop where
  accepted : ∀ evicted, (index.insert s allowance a currentTime).1 = .ok evicted →
    ((index.insert s allowance a currentTime).2.record a).byPriority.size ≤ allowance.maxCount ∧
    ((index.insert s allowance a currentTime).2.record a).dataSize ≤ allowance.maxSize ∧
    (index.insert s allowance a currentTime).2.entries.size ≤ index.config.maxTotalStatements ∧
    (index.insert s allowance a currentTime).2.totalSize ≤ index.config.maxTotalSize ∧
    ∃ n, Shortest index a s allowance n ∧ evicted = (evict s (listed index a) n).map (·.1.hash)
  rejected : ∀ e, (index.insert s allowance a currentTime).1 = .error e →
    (index.insert s allowance a currentTime).2 = index ∧
    ∀ l, Admissible index a s l → ¬(AccountFits index a s allowance l ∧ StoreFits index s l)

-- If no statement is allowed, there is another reason to reject. If the store has no room once the
-- account has, it has none if all lower statements of the account are evicted.
structure Covered : Prop where
  count : allowance.maxCount = 0 → allowance.maxSize < s.dataLen ∨
    (∃ e ∈ listed index a, ¬lowerExpiry s e) ∨ ¬StoreFits index s (listed index a)
  store : ∀ n, Shortest index a s allowance n → ¬StoreFits index s (evict s (listed index a) n) →
    ¬StoreFits index s ((listed index a).filter (lowerExpiry s))

end Fits

section Loop

variable {s : Statement H T K C} {allowance : StatementAllowance} {rec : StatementsForAccount H C}
  {l : List (Listed H C)}

-- What the loop over the statements returns: the account has room with the first `n` other ones,
-- all of them are evicted, or the next one does not have a lower expiry.
inductive LoopSpec (s : Statement H T K C) (l : List (Listed H C))
    (fits : List (Listed H C) → Prop) :
    Except RejectionReason (List H × Nat) → Prop
  | stop (n) : (∀ m < n, ¬fits (evict s l m)) → (∀ e ∈ (others s l).take n, lowerExpiry s e) →
    (fits (evict s l n) ∨ (others s l).length ≤ n) →
    LoopSpec s l fits (.ok ((evict s l n).map (·.1.hash), Listed.size (evict s l n)))
  | full (n) {e expiry} : (∀ m ≤ n, ¬fits (evict s l m)) → (others s l)[n]? = some e →
    ¬lowerExpiry s e →
    LoopSpec s l fits (.error (.accountFull s.expiry expiry))

omit [LinearOrder A] in
theorem evictLower_spec (hn : (l.map (·.1.hash)).Nodup) (done rest : List (Listed H C))
    (hl : l = done ++ rest) (hbefore : ∀ m < (others s done).length,
      ¬Index.accountSatisfied s allowance rec (evict s l m).length (Listed.size (evict s l m)))
    (hlower : ∀ e ∈ others s done, lowerExpiry s e) :
    LoopSpec s l
      (fun l => Index.accountSatisfied s allowance rec l.length (Listed.size l))
      (Index.evictLower s allowance rec rest ((evict s l (others s done).length).map (·.1.hash))
        (Listed.size (evict s l (others s done).length))) := by
  induction rest generalizing done
  case nil =>
    rw [append_nil] at hl
    subst hl
    exact .stop _ hbefore (by simpa using hlower) (.inr (le_refl _))
  case cons x rest hi =>
    have hl' : l = done ++ [x] ++ rest := by simp [hl]
    have hev := hl ▸ evict_append (s := s) done (x :: rest)
    rw [Index.evictLower, length_map]
    split
    case isTrue hsat =>
      refine .stop _ hbefore ?_ (.inl hsat)
      rw [hl, others_append, List.take_left]
      exact hlower
    case isFalse hsat =>
      by_cases hsame : sameChannel s x
      case pos =>
        -- The statement of the same channel is accounted for already.
        have hod : others s (done ++ [x]) = others s done := by
          simp [others, hsame]
        have hmem : x.1.hash ∈ (evict s l (others s done).length).map (·.1.hash) := by
          refine mem_map.mpr ⟨x, ?_, rfl⟩
          rw [hev]
          exact mem_append_left _ (mem_filter.mpr ⟨by simp [hl], hsame⟩)
        rw [if_pos hmem]
        have hi := hi (done ++ [x]) hl'
        rw [hod] at hi
        exact hi hbefore hlower
      case neg =>
        have hod : others s (done ++ [x]) = others s done ++ [x] := by
          simp [others, hsame]
        have hnew : x.1.hash ∉ (evict s l (others s done).length).map (·.1.hash) := by
          intro hmem
          obtain ⟨e, he, hh⟩ := mem_map.mp hmem
          have hel : e ∈ l := (evict_append_drop (s := s) _).subset (mem_append_left _ he)
          have hx : x ∈ l := by simp [hl]
          cases List.inj_on_of_nodup_map hn hel hx hh
          rw [hev, mem_append] at he
          rcases he with he | he
          · exact hsame (mem_filter.mp he).2
          · have hnd := hn.of_map
            rw [hl, List.nodup_append] at hnd
            exact hnd.2.2 _ (mem_filter.mp he).1 _ List.mem_cons_self rfl
        rw [if_neg hnew]
        have hbefore' (m) (hm : m < (others s done).length + 1) :
            ¬Index.accountSatisfied s allowance rec (evict s l m).length
              (Listed.size (evict s l m)) := by
          rcases Nat.lt_succ_iff_lt_or_eq.mp hm with hm | rfl
          · exact hbefore m hm
          · exact hsat
        split
        case isTrue hexp =>
          refine .full (others s done).length (e := x)
            (fun m hm => hbefore' m (by omega)) ?_ (by simpa [lowerExpiry] using hexp)
          rw [hl', others_append, hod]
          simp
        case isFalse hexp =>
          have hnext : evict s l (others s (done ++ [x])).length =
              evict s l (others s done).length ++ [x] := by
            have hev' := hl' ▸ evict_append (s := s) (done ++ [x]) rest
            rw [hev, hev', hod, List.append_assoc]
          have hi := hi (done ++ [x]) hl'
          rw [hnext, List.map_append, size_append] at hi
          apply hi
          · rw [hod, List.length_append]
            exact hbefore'
          · intro e he
            rw [hod, mem_append, mem_singleton] at he
            rcases he with he | rfl
            · exact hlower e he
            · exact decide_eq_true (not_le.mp hexp)

end Loop

section Listing

variable {index : Index H A T K C} {live : Live H A T K C} {a : A} {s : Statement H T K C}
  {e e' : Listed H C} {exact : Prop}

section

omit [DecidableEq C]

section

variable (h : Tracked exact index live)
include h

theorem mem_listed : e ∈ listed index a ↔
    ∃ s, live e.1.hash = some (a, s) ∧ s.expiry = e.1.expiry ∧ e.2 = (s.channel, s.dataLen) := by
  rw [listed, mem_toList_iff_getElem?_eq_some, ← (h.accounts a).byPriority, PriorityKey.mk_eta]

theorem eq_of_hash_eq (he : e ∈ listed index a) (he' : e' ∈ listed index a)
    (hh : e.1.hash = e'.1.hash) : e = e' := by
  obtain ⟨s, hs, hx, hv⟩ := (mem_listed h).mp he
  obtain ⟨s', hs', hx', hv'⟩ := (mem_listed h).mp he'
  rw [hh, hs'] at hs
  cases hs
  have hk : e.1 = e'.1 := by
    rw [← PriorityKey.mk_eta e.1, ← PriorityKey.mk_eta e'.1, ← hx, ← hx', hh]
  exact Prod.ext hk (hv.trans hv'.symm)

theorem nodup_hashes : ((listed index a).map (·.1.hash)).Nodup :=
  nodup_toList.map_on fun _ he _ he' hh => eq_of_hash_eq h he he' hh

theorem size_listed (hx : exact) : Listed.size (listed index a) = (index.record a).dataSize :=
  ((h.accounts a).dataSize.eq hx).symm

end

theorem length_listed : (listed index a).length = (index.record a).byPriority.size :=
  length_toList

theorem sorted_listed : (listed index a).Pairwise fun e e' => e.1.expiry ≤ e'.1.expiry := by
  refine (index.record a).byPriority.ordered_keys_toList.imp fun {e e'} hlt => ?_
  have hlt : e.1 < e'.1 := compare_lt_iff_lt.mp hlt
  rcases Prod.Lex.lt_iff.mp hlt with hlt | ⟨heq, -⟩
  · exact hlt.le
  · exact heq.le

end

-- The record of a channel is the statement of the account in that channel.
theorem replaced_eq (h : Tracked exact index live) :
    (s.channel.bind (index.record a).channels = none ∧ replaced s (listed index a) = []) ∨
    ∃ hash expiry len, s.channel.bind (index.record a).channels = some (hash, expiry) ∧
      (index.record a).byPriority[PriorityKey.mk expiry hash]? = some (s.channel, len) ∧
      replaced s (listed index a) = [(PriorityKey.mk expiry hash, s.channel, len)] := by
  have hsame (e) (he : e ∈ listed index a) (hc : sameChannel s e) :
      s.channel.bind (index.record a).channels = some (e.1.hash, e.1.expiry) := by
    obtain ⟨s', hs', hx, hv⟩ := (mem_listed h).mp he
    simp only [sameChannel, Bool.and_eq_true, decide_eq_true_eq] at hc
    obtain ⟨c, hsc⟩ := Option.isSome_iff_exists.mp hc.1
    rw [hsc, Option.bind_some, (h.accounts a).channels]
    refine ⟨s', hs', ?_, hx⟩
    rw [← hsc, ← hc.2, hv]
  cases hb : s.channel.bind (index.record a).channels
  case none =>
    refine .inl ⟨rfl, List.filter_eq_nil_iff.mpr fun e he hc => ?_⟩
    rw [hsame e he hc] at hb
    cases hb
  case some entry =>
    obtain ⟨hash, expiry⟩ := entry
    obtain ⟨c, hsc, hch⟩ := Option.bind_eq_some_iff.mp hb
    obtain ⟨s', hs', hc', rfl⟩ := ((h.accounts a).channels c hash expiry).mp hch
    have hlook := (h.accounts a).lookup hs'
    rw [hc', ← hsc] at hlook
    refine .inr ⟨hash, s'.expiry, s'.dataLen, rfl, hlook, ?_⟩
    apply List.perm_singleton.mp
    have hnd : (replaced s (listed index a)).Nodup := nodup_toList.filter _
    rw [List.perm_ext_iff_of_nodup hnd (List.nodup_singleton _)]
    intro e
    rw [replaced, mem_filter, mem_singleton]
    constructor
    · rintro ⟨he, hsc'⟩
      have heq := hsame e he hsc'
      rw [hb] at heq
      apply eq_of_hash_eq h he
      · exact mem_toList_iff_getElem?_eq_some.mpr hlook
      · exact (congrArg Prod.fst (Option.some.inj heq)).symm
    · rintro rfl
      exact ⟨mem_toList_iff_getElem?_eq_some.mpr hlook, by simp [sameChannel, hsc]⟩

-- The channel rule rejects the statement, or the loop decides.
theorem evictions_spec (h : Tracked exact index live) (allowance : StatementAllowance) :
    (∃ e ∈ listed index a, sameChannel s e ∧ ¬lowerExpiry s e ∧ ∃ r,
      index.evictions s allowance a = .error r) ∨
    ((∀ e ∈ replaced s (listed index a), lowerExpiry s e) ∧
      LoopSpec s (listed index a) (AccountFits index a s allowance)
        (index.evictions s allowance a)) := by
  cases hr : index.accounts[a]?
  case none =>
    have hl : listed index a = [] := by simp [listed, Index.record, hr]
    rw [Index.evictions, hr, hl]
    exact .inr ⟨by simp [replaced], .stop 0 (by simp) (by simp [others]) (.inr (by simp [others]))⟩
  case some rec =>
    have hrec : index.record a = rec := by simp [Index.record, hr]
    have hzero : evict s (listed index a) (others s ([] : List (Listed H C))).length =
        replaced s (listed index a) := by
      simp [evict, others]
    have hloop : LoopSpec s (listed index a) (AccountFits index a s allowance)
        (Index.evictLower s allowance (index.record a) (listed index a)
          ((replaced s (listed index a)).map (·.1.hash))
            (Listed.size (replaced s (listed index a)))) :=
      hzero ▸ evictLower_spec (nodup_hashes h) [] (listed index a) rfl (by simp [others])
        (by simp [others])
    rw [Index.evictions, hr]
    simp only [Index.replacedInChannel, ← hrec]
    rcases replaced_eq (s := s) (a := a) h with ⟨hb, hrep⟩ | ⟨hash, expiry, len, hb, hlook, hrep⟩
    · rw [hrep] at hloop ⊢
      simp only [hb]
      exact .inr ⟨by simp, hloop⟩
    · have hmem : (PriorityKey.mk expiry hash, s.channel, len) ∈ listed index a :=
        mem_toList_iff_getElem?_eq_some.mpr hlook
      have hsame : sameChannel s (PriorityKey.mk expiry hash, s.channel, len) := by
        have := hrep ▸ List.mem_singleton_self (PriorityKey.mk expiry hash, s.channel, len)
        exact (mem_filter.mp this).2
      simp only [hb, hlook]
      by_cases hx : s.expiry ≤ expiry
      · rw [if_pos hx]
        refine .inl ⟨_, hmem, hsame, fun hlow => ?_, _, rfl⟩
        exact absurd (of_decide_eq_true hlow) (not_lt.mpr hx)
      · rw [if_neg hx]
        rw [hrep] at hloop ⊢
        refine .inr ⟨?_, hloop⟩
        simp only [mem_singleton, forall_eq, lowerExpiry, decide_eq_true_eq]
        exact not_le.mp hx

end Listing

section Outcome

variable {index : Index H A T K C} {live : Live H A T K C} {a : A} {s : Statement H T K C}
  {allowance : StatementAllowance} {l l' : List (Listed H C)} {n : Nat}

section

omit [DecidableEq C]

theorem accountFits_iff : AccountFits index a s allowance l ↔
    (index.record a).dataSize - Listed.size l + s.dataLen ≤ allowance.maxSize ∧
      (index.record a).byPriority.size + 1 - l.length ≤ allowance.maxCount := by
  simp [AccountFits, Index.accountSatisfied]

theorem storeFits_iff : StoreFits index s l ↔
    index.totalSize - Listed.size l + s.dataLen ≤ index.config.maxTotalSize ∧
      index.entries.size + 1 - l.length ≤ index.config.maxTotalStatements := by
  simp [StoreFits, Index.storeSatisfied]

theorem AccountFits.mono (h : AccountFits index a s allowance l) (hl : l.length ≤ l'.length)
    (hs : Listed.size l ≤ Listed.size l') : AccountFits index a s allowance l' := by
  rw [accountFits_iff] at h ⊢
  omega

theorem StoreFits.mono (h : StoreFits index s l) (hl : l.length ≤ l'.length)
    (hs : Listed.size l ≤ Listed.size l') : StoreFits index s l' := by
  rw [storeFits_iff] at h ⊢
  omega

theorem dataLen_le (h : AccountFits index a s allowance l) : s.dataLen ≤ allowance.maxSize := by
  rw [accountFits_iff] at h
  omega

theorem maxCount_pos (h : AccountFits index a s allowance l)
    (hl : l.length ≤ (listed index a).length) :
    0 < allowance.maxCount := by
  rw [accountFits_iff, ← length_listed] at h
  omega

end

theorem evict_lower_sublist (h : ∀ e ∈ evict s (listed index a) n, lowerExpiry s e) :
    ∃ rest, ((listed index a).filter (lowerExpiry s)).Perm
      (evict s (listed index a) n ++ rest) := by
  refine ⟨((others s (listed index a)).drop n).filter (lowerExpiry s),
    ((evict_append_drop (s := s) n).symm.filter _).trans ?_⟩
  rw [filter_append, List.filter_eq_self.mpr h]

theorem Admissible.le (h : Admissible index a s l) :
    l.length ≤ ((listed index a).filter (lowerExpiry s)).length ∧
      Listed.size l ≤ Listed.size ((listed index a).filter (lowerExpiry s)) := by
  have hs : l.Sublist ((listed index a).filter (lowerExpiry s)) := by
    rw [← List.filter_eq_self.mpr h.lower]
    exact h.sublist.filter _
  exact ⟨hs.length_le, size_le_of_sublist hs⟩

theorem Shortest.le (h : Shortest index a s allowance n) :
    (evict s (listed index a) n).length ≤ ((listed index a).filter (lowerExpiry s)).length ∧
      Listed.size (evict s (listed index a) n) ≤
        Listed.size ((listed index a).filter (lowerExpiry s)) := by
  obtain ⟨rest, hp⟩ := evict_lower_sublist h.lower
  have hl := hp.length_eq
  have hs := size_perm hp
  rw [List.length_append] at hl
  rw [size_append] at hs
  omega

theorem Shortest.unique (h : Shortest index a s allowance n) (h' : Shortest index a s allowance m) :
    n = m := by
  rcases Nat.lt_trichotomy n m with hlt | he | hlt
  · exact absurd h.fits (h'.before n hlt)
  · exact he
  · exact absurd h'.fits (h.before m hlt)

theorem admissible_lower (h : ∀ e ∈ replaced s (listed index a), lowerExpiry s e) :
    Admissible index a s ((listed index a).filter (lowerExpiry s)) := by
  refine ⟨List.filter_sublist, fun e he => (mem_filter.mp he).2, fun e he hc => ?_⟩
  exact mem_filter.mpr ⟨he, h e (mem_filter.mpr ⟨he, hc⟩)⟩

theorem not_shortest_of_maxCount (h : allowance.maxCount = 0) :
    ¬Shortest index a s allowance n := by
  intro hs
  have hle := hs.le.1.trans (List.length_filter_le _ _)
  have := maxCount_pos hs.fits hle
  omega

-- If the loop stops at a statement that does not have a lower expiry, all others with a
-- lower one were evicted in vain.
theorem not_fits_of_full
    (h : ∀ m ≤ n, ¬AccountFits index a s allowance (evict s (listed index a) m))
    (he : (others s (listed index a))[n]? = some e) (hn : ¬lowerExpiry s e) :
    ¬AccountFits index a s allowance ((listed index a).filter (lowerExpiry s)) := by
  intro hf
  apply h n (le_refl n)
  -- What follows in the list has no lower expiry either.
  have hdrop : ((others s (listed index a)).drop n).filter (lowerExpiry s) = [] := by
    rw [List.filter_eq_nil_iff]
    intro x hx hlow
    obtain ⟨hlt, rfl⟩ := List.getElem?_eq_some_iff.mp he
    rw [List.drop_eq_getElem_cons hlt] at hx
    have hsort : (others s (listed index a)).Pairwise fun e e' => e.1.expiry ≤ e'.1.expiry :=
      sorted_listed.filter _
    rw [← List.take_append_drop n (others s (listed index a)), List.drop_eq_getElem_cons hlt,
      List.pairwise_append] at hsort
    rcases List.mem_cons.mp hx with rfl | hx
    · exact hn hlow
    · have hle := (List.pairwise_cons.mp hsort.2.1).1 x hx
      exact hn (decide_eq_true (hle.trans_lt (of_decide_eq_true hlow)))
  have hp : ((listed index a).filter (lowerExpiry s)).Perm
      ((evict s (listed index a) n).filter (lowerExpiry s)) := by
    refine ((evict_append_drop (s := s) n).symm.filter _).trans ?_
    rw [filter_append, hdrop, append_nil]
  apply hf.mono
  · exact hp.length_eq.trans_le (List.length_filter_le _ _)
  · exact (size_perm hp).trans_le (size_le_of_sublist List.filter_sublist)

end Outcome

section Insertion

variable [DecidableEq T] [DecidableEq K]
variable {index : Index H A T K C} {live : Live H A T K C} {a : A} {s : Statement H T K C}
  {allowance : StatementAllowance} {l : List (Listed H C)} {n : Nat} (now : Nat)

section

variable (h : Accounted index live)
include h

theorem entries_expireAll (l : List (Listed H C)) :
    (index.expireAll (l.map (·.1.hash)) now).entries =
      ((l.map fun e => (e.1.hash, a, e.1.expiry, e.2.2)).map (·.1)).foldl (·.erase ·)
        index.entries := by
  refine ext_getElem? fun k => ?_
  rw [lookup_foldl_erase, (h.expireAll _ now).entries, h.entries, without]
  simp only [List.map_map, Function.comp_def]
  split_ifs <;> rfl

section

variable (hl : ∀ e ∈ l, e ∈ listed index a)
include hl

theorem byPriority_expireAll : ((index.expireAll (l.map (·.1.hash)) now).record a).byPriority =
      (l.map (·.1)).foldl (·.erase ·) (index.record a).byPriority := by
  refine ext_getElem? fun k => Option.ext fun v => ?_
  rw [lookup_foldl_erase, ← PriorityKey.mk_eta k,
    ((h.expireAll _ now).accounts a).byPriority, PriorityKey.mk_eta]
  by_cases hk : k ∈ l.map (·.1)
  case pos =>
    obtain ⟨e, he, rfl⟩ := mem_map.mp hk
    have hh : e.1.hash ∈ l.map (·.1.hash) := List.mem_map_of_mem he
    simp [hk, without, hh]
  case neg =>
    rw [if_neg hk, ← PriorityKey.mk_eta k, (h.accounts a).byPriority]
    refine exists_congr fun s' => and_congr_left fun hxv => ?_
    obtain ⟨hx, hv⟩ := hxv
    rw [without]
    split_ifs with hh
    · refine iff_of_false (by simp) fun hs' => hk ?_
      obtain ⟨e, he, heq⟩ := mem_map.mp hh
      have hmem : ((k, v) : Listed H C) ∈ listed index a := (mem_listed h).mpr ⟨s', hs', hx, hv⟩
      exact mem_map.mpr ⟨e, he, congrArg Prod.fst (eq_of_hash_eq h (hl e he) hmem heq)⟩
    · rfl

theorem record_sizes_expireAll (hn : (l.map (·.1.hash)).Nodup) :
    ((index.expireAll (l.map (·.1.hash)) now).record a).byPriority.size + l.length =
        (index.record a).byPriority.size ∧
      ((index.expireAll (l.map (·.1.hash)) now).record a).dataSize + Listed.size l =
        (index.record a).dataSize := by
  have hpresent (e) (he : e ∈ l) : (index.record a).byPriority[e.1]? = some e.2 :=
    mem_toList_iff_getElem?_eq_some.mp (hl e he)
  have hnk : (l.map (·.1)).Nodup := by
    have hm : l.map (·.1.hash) = (l.map (·.1)).map PriorityKey.hash := by simp
    rw [hm] at hn
    exact hn.of_map
  have hcount := sumBy_foldl_erase (f := fun _ _ => 1) hnk hpresent
  have hsize := sumBy_foldl_erase (f := fun _ v => v.2) hnk hpresent
  rw [← byPriority_expireAll now h hl] at hcount hsize
  rw [((h.expireAll _ now).accounts a).dataSize.eq trivial, (h.accounts a).dataSize.eq trivial]
  refine ⟨?_, hsize⟩
  simpa [sumBy_one] using hcount

theorem store_sizes_expireAll (hn : (l.map (·.1.hash)).Nodup) :
    (index.expireAll (l.map (·.1.hash)) now).entries.size + l.length = index.entries.size ∧
      (index.expireAll (l.map (·.1.hash)) now).totalSize + Listed.size l = index.totalSize := by
  have hnk : ((l.map fun e => (e.1.hash, a, e.1.expiry, e.2.2)).map (·.1)).Nodup := by
    simpa [Function.comp_def] using hn
  have hpresent : ∀ e ∈ l.map fun e => (e.1.hash, a, e.1.expiry, e.2.2),
      index.entries[e.1]? = some e.2 := by
    rw [List.forall_mem_map]
    intro e he
    obtain ⟨s', hs', hx, hv⟩ := (mem_listed h).mp (hl e he)
    simp [h.entries, hs', hx, hv]
  have hcount := sumBy_foldl_erase (f := fun _ _ => 1) hnk hpresent
  have hsize := sumBy_foldl_erase (f := fun _ e => e.2.2) hnk hpresent
  rw [← entries_expireAll now h l] at hcount hsize
  rw [(h.expireAll _ now).totalSize.eq trivial, h.totalSize.eq trivial]
  refine ⟨?_, ?_⟩
  · simpa [sumBy_one, Function.comp_def] using hcount
  · simpa [Listed.size, Function.comp_def] using hsize

end

theorem sizes_insertNew (hs : live s.hash = none) :
    ((index.insertNew s.hash a s true).record a).byPriority.size =
      (index.record a).byPriority.size + 1 ∧
      ((index.insertNew s.hash a s true).record a).dataSize =
        (index.record a).dataSize + s.dataLen ∧
      (index.insertNew s.hash a s true).entries.size = index.entries.size + 1 ∧
      (index.insertNew s.hash a s true).totalSize = index.totalSize + s.dataLen := by
  have hentry : index.entries[s.hash]? = none := by
    rw [h.entries, hs]
    rfl
  have hrec : (index.insertNew s.hash a s true).record a =
      (index.record a).insert s.hash s.channel s.expiry s.dataLen := by
    simp [Index.record, Index.insertNew]
  rw [hrec]
  refine ⟨?_, rfl, ?_, rfl⟩
  · rw [StatementsForAccount.insert, ← sumBy_one,
      sumBy_insert ((h.accounts a).lookup_none hs s.expiry), sumBy_one]
  · simp only [Index.insertNew, ← sumBy_one, sumBy_insert hentry]

end

variable {now}

-- The evictions of the loop are within the constraints, so the index is afterwards.
theorem admission_of_accepted (h : Accounted index live) (hs : live s.hash = none)
    (hn : Shortest index a s allowance n) (hf : StoreFits index s (evict s (listed index a) n))
    (he : index.insert s allowance a now = (.ok ((evict s (listed index a) n).map (·.1.hash)),
      (index.expireAll ((evict s (listed index a) n).map (·.1.hash)) now).insertNew
        s.hash a s true)) :
    Admission index a s allowance now := by
  have hmem (e) (he : e ∈ evict s (listed index a) n) : e ∈ listed index a :=
    (evict_append_drop n).subset (mem_append_left _ he)
  have hnd : ((evict s (listed index a) n).map (·.1.hash)).Nodup := by
    have hp := ((evict_append_drop (s := s) n).map (·.1.hash)).nodup_iff.mpr
      (nodup_hashes (a := a) h)
    rw [List.map_append] at hp
    exact hp.of_append_left
  obtain ⟨hr1, hr2⟩ := record_sizes_expireAll now h hmem hnd
  obtain ⟨hs1, hs2⟩ := store_sizes_expireAll now h hmem hnd
  have hgone : without live ((evict s (listed index a) n).map (·.1.hash)) s.hash = none := by
    rw [without]
    split_ifs
    · rfl
    · exact hs
  obtain ⟨hi1, hi2, hi3, hi4⟩ := sizes_insertNew (a := a) (h.expireAll _ now) hgone
  have ha := accountFits_iff.mp hn.fits
  have hf := storeFits_iff.mp hf
  constructor
  case accepted =>
    intro evicted hok
    rw [he] at hok ⊢
    cases hok
    refine ⟨?_, ?_, ?_, ?_, n, hn, rfl⟩
    all_goals simp only [hi4]; omega
  case rejected =>
    intro e herr
    rw [he] at herr
    cases herr

theorem admission_of_rejected (he : index.insert s allowance a now = (.error r, index)) :
    Admission index a s allowance now ↔
      ∀ l, Admissible index a s l → ¬(AccountFits index a s allowance l ∧ StoreFits index s l) := by
  constructor
  · intro h
    exact (h.rejected r (by rw [he])).2
  · intro h
    refine ⟨fun evicted hok => ?_, fun e herr => ⟨by rw [he], h⟩⟩
    rw [he] at hok
    cases hok

section

variable (hd : s.dataLen ≤ allowance.maxSize)
include hd

theorem insert_of_error (he : index.evictions s allowance a = .error r) :
    index.insert s allowance a now = (.error r, index) := by
  rw [Index.insert, if_neg (not_lt.mpr hd), he]

variable (he : index.evictions s allowance a = .ok (l.map (·.1.hash), Listed.size l))
include he

theorem insert_of_fits (hf : StoreFits index s l) :
    index.insert s allowance a now = (.ok (l.map (·.1.hash)),
      (index.expireAll (l.map (·.1.hash)) now).insertNew s.hash a s true) := by
  rw [StoreFits] at hf
  rw [Index.insert, if_neg (not_lt.mpr hd), he]
  simp only [length_map, hf, if_true]

theorem insert_of_full (hf : ¬StoreFits index s l) :
    index.insert s allowance a now = (.error .storeFull, index) := by
  rw [StoreFits] at hf
  rw [Index.insert, if_neg (not_lt.mpr hd), he]
  simp only [length_map, hf, Bool.false_eq_true, if_false]

end

-- The account has room once the first `n` other statements are gone. Only the store may have none.
theorem admission_of_shortest (h : Accounted index live) (hs : live s.hash = none)
    (hd : s.dataLen ≤ allowance.maxSize) (hn : Shortest index a s allowance n)
    (he : index.evictions s allowance a =
      .ok ((evict s (listed index a) n).map (·.1.hash), Listed.size (evict s (listed index a) n))) :
    Admission index a s allowance now ↔ Covered index a s allowance := by
  have hcount (h0 : allowance.maxCount = 0) := not_shortest_of_maxCount h0 hn
  by_cases hf : StoreFits index s (evict s (listed index a) n)
  case pos =>
    refine iff_of_true (admission_of_accepted h hs hn hf (insert_of_fits hd he hf))
      ⟨fun h0 => (hcount h0).elim, ?_⟩
    intro m hm hfm
    rw [hm.unique hn] at hfm
    exact absurd hf hfm
  case neg =>
    rw [admission_of_rejected (insert_of_full hd he hf)]
    constructor
    · intro hadm
      refine ⟨fun h0 => (hcount h0).elim, fun m hm _ hfit => ?_⟩
      have hlow : ∀ e ∈ replaced s (listed index a), lowerExpiry s e :=
        fun e he => hn.lower e (mem_append_left _ he)
      exact hadm _ (admissible_lower hlow) ⟨hn.fits.mono hn.le.1 hn.le.2, hfit⟩
    · intro hcov l hl hfit
      exact hcov.store n hn hf (hfit.2.mono hl.le.1 hl.le.2)

-- All statements are gone and the account still has no room, which is so only if none is allowed.
theorem admission_of_exhausted (h : Accounted index live) (hd : s.dataLen ≤ allowance.maxSize)
    (hlow : ∀ e ∈ evict s (listed index a) n, lowerExpiry s e)
    (hn : ¬AccountFits index a s allowance (evict s (listed index a) n))
    (hall : (others s (listed index a)).length ≤ n)
    (he : index.evictions s allowance a =
      .ok ((evict s (listed index a) n).map (·.1.hash), Listed.size (evict s (listed index a) n))) :
    Admission index a s allowance now ↔ Covered index a s allowance := by
  have hp : (evict s (listed index a) n).Perm (listed index a) := evict_perm hall
  have hcount : allowance.maxCount = 0 := by
    rw [accountFits_iff, size_perm hp, hp.length_eq, size_listed h trivial, length_listed] at hn
    omega
  by_cases hf : StoreFits index s (evict s (listed index a) n)
  case pos =>
    refine iff_of_false (fun hadm => ?_) fun hcov => ?_
    · obtain ⟨-, -, -, -, m, hm, -⟩ := hadm.accepted _ (by rw [insert_of_fits hd he hf])
      exact not_shortest_of_maxCount hcount hm
    · rcases hcov.count hcount with hlt | ⟨e, hmem, hne⟩ | hstore
      · omega
      · exact hne (hlow e (hp.mem_iff.mpr hmem))
      · exact hstore (hf.mono hp.length_eq.le (size_perm hp).le)
  case neg =>
    rw [admission_of_rejected (insert_of_full hd he hf)]
    refine iff_of_true (fun l hl hfit => ?_) ⟨fun _ => .inr (.inr fun hstore => ?_), fun m hm => ?_⟩
    · have := maxCount_pos hfit.1 hl.sublist.length_le
      omega
    · exact hf (hstore.mono hp.length_eq.ge (size_perm hp).ge)
    · exact absurd hm (not_shortest_of_maxCount hcount)

-- Quotas and priorities are respected exactly if no statement is let in where none is allowed and
-- the store is not full only because too few statements of the account were evicted.
theorem admission_iff (h : Accounted index live) (hs : live s.hash = none) :
    Admission index a s allowance now ↔ Covered index a s allowance := by
  by_cases hd : s.dataLen ≤ allowance.maxSize
  case neg =>
    have hins : index.insert s allowance a now =
        (.error (.dataTooLarge s.dataLen allowance.maxSize), index) := by
      rw [Index.insert, if_pos (not_le.mp hd)]
    rw [admission_of_rejected hins]
    refine iff_of_true (fun l _ hfit => hd (dataLen_le hfit.1)) ⟨fun _ => .inl (not_le.mp hd), ?_⟩
    intro n hn
    exact absurd (dataLen_le hn.fits) hd
  case pos =>
    rcases evictions_spec (a := a) (s := s) h allowance with ⟨e, he, hc, hlow, r, herr⟩ |
      ⟨hrep, hloop⟩
    · -- The statement of the same channel must be replaced and cannot be.
      rw [admission_of_rejected (insert_of_error hd herr)]
      refine iff_of_true (fun l hl _ => hlow (hl.lower e (hl.channel e he hc)))
        ⟨fun _ => .inr (.inl ⟨e, he, hlow⟩), fun n hn => ?_⟩
      exact absurd (hn.lower e (mem_append_left _ (mem_filter.mpr ⟨he, hc⟩))) hlow
    · generalize hev : index.evictions s allowance a = result at hloop
      cases hloop
      case full n e expiry hbefore he hlow =>
        have hnot := not_fits_of_full hbefore he hlow
        have hmem : e ∈ listed index a := (mem_filter.mp (List.mem_of_getElem? he)).1
        rw [admission_of_rejected (insert_of_error hd hev)]
        refine iff_of_true (fun l hl hfit => hnot (hfit.1.mono hl.le.1 hl.le.2))
          ⟨fun _ => .inr (.inl ⟨e, hmem, hlow⟩), fun m hm => ?_⟩
        exact absurd (hm.fits.mono hm.le.1 hm.le.2) hnot
      case stop n hbefore hlow hstop =>
        have hall : ∀ e ∈ evict s (listed index a) n, lowerExpiry s e := by
          intro e he
          rcases mem_append.mp he with he | he
          · exact hrep e he
          · exact hlow e he
        by_cases hfit : AccountFits index a s allowance (evict s (listed index a) n)
        case pos => exact admission_of_shortest h hs hd ⟨hall, hfit, hbefore⟩ hev
        case neg => exact admission_of_exhausted h hd hall hfit (hstop.resolve_left hfit) hev

end Insertion

def sampleStatement : Statement Nat Nat Nat Nat where
  hash := 1
  channel := some 5
  expiry := 100
  dataLen := 10

-- A store with three statements of account 7, one of them in a channel, and one of another account.
def sampleStored (hash expiry : Nat) (channel : Option Nat) : Statement Nat Nat Nat Nat :=
  { hash, channel, expiry, dataLen := 4 }

def sampleStore : Index Nat Nat Nat Nat Nat :=
  let index : Index Nat Nat Nat Nat Nat :=
    { config := { maxTotalStatements := 4, maxTotalSize := 20 } }
  let index := index.insertNew 2 7 (sampleStored 2 30 (some 5)) true
  let index := index.insertNew 3 7 (sampleStored 3 10 none) true
  let index := index.insertNew 4 7 (sampleStored 4 20 none) true
  index.insertNew 5 8 (sampleStored 5 1 none) true

theorem accounted_sampleStore : ∃ live, Accounted sampleStore live ∧ live 1 = none := by
  refine ⟨_, .insertNew (.insertNew (.insertNew (.insertNew (.empty _) rfl ?_ _) rfl ?_ _) rfl ?_ _)
    rfl ?_ _, rfl⟩
  all_goals simp [Free, sampleStored]

-- The statement of the channel and the lowest one of the others are evicted for the new one.
theorem sampleStatement_admission :
    (sampleStore.insert sampleStatement { maxCount := 3, maxSize := 15 } 7 0).1 = .ok [2, 3] ∧
      Admission sampleStore 7 sampleStatement { maxCount := 3, maxSize := 15 } 0 := by
  obtain ⟨live, h, hs⟩ := accounted_sampleStore
  refine ⟨by decide +kernel, (admission_iff h hs).mpr ⟨by simp, ?_⟩⟩
  have hn : Shortest sampleStore 7 sampleStatement { maxCount := 3, maxSize := 15 } 1 := by
    constructor
    case lower => decide +kernel
    case fits => unfold AccountFits; decide +kernel
    case before => unfold AccountFits; decide +kernel
  have hf : StoreFits sampleStore sampleStatement
      (evict sampleStatement (listed sampleStore 7) 1) := by
    unfold StoreFits
    decide +kernel
  intro n hn' hf'
  rw [hn'.unique hn] at hf'
  exact absurd hf hf'

-- No statement is allowed, and the statement is accepted.
theorem sampleStatement_above_count :
    ¬Admission ({} : Index Nat Nat Nat Nat Nat) 7 sampleStatement
      { maxCount := 0, maxSize := 100 } 0 := by
  intro h
  have hle := (h.accepted [] (by decide +kernel)).1
  revert hle
  decide +kernel

end Statements
