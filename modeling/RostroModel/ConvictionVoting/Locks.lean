import RostroModel.ConvictionVoting.Effects

namespace ConvictionVoting

open Std (ExtTreeMap)
open List (mem_map)
open Function (update update_of_ne update_self)

variable {A C P : Type} [LinearOrder P]

-- An amount covers whatever the voting of an account has locked.
structure Voting.Within (n : Nat) (v : Voting A P) : Prop where
  prior : v.prior.amount ≤ n
  votes : ∀ (p : P) x, v.votes[p]? = some x → x.balance ≤ n
  balance : ∀ d, v = .delegating d → d.balance ≤ n

section Within

variable {v : Voting A P} {n m k : Nat}

theorem foldl_max_le {l : List Nat} : l.foldl max k ≤ n ↔ k ≤ n ∧ ∀ m ∈ l, m ≤ n := by
  induction l generalizing k with
  | nil => simp
  | cons m r hi =>
    rw [List.foldl_cons, hi, max_le_iff, List.forall_mem_cons, and_assoc]

theorem lockedBalance_le_iff : v.lockedBalance ≤ n ↔ v.Within n := by
  cases v with
  | casting c =>
    rw [Voting.lockedBalance, foldl_max_le]
    constructor
    · rintro ⟨hp, hv⟩
      refine ⟨hp, fun p x hx => ?_, fun d hd => by cases hd⟩
      exact hv _ (List.mem_map_of_mem (f := fun y : P × AccountVote => y.2.balance)
        (ExtTreeMap.mem_toList_iff_getElem?_eq_some.mpr hx))
    · intro h
      refine ⟨h.prior, fun m hm => ?_⟩
      obtain ⟨y, hy, rfl⟩ := mem_map.mp hm
      exact h.votes y.1 y.2 (ExtTreeMap.mem_toList_iff_getElem?_eq_some.mp hy)
  | delegating d =>
    rw [Voting.lockedBalance, max_le_iff]
    constructor
    · rintro ⟨hb, hp⟩
      refine ⟨hp, fun p x hx => ?_, fun e he => ?_⟩
      · cases (ExtTreeMap.getElem?_empty.symm.trans hx : none = some x)
      · rw [← Voting.delegating.inj he]
        exact hb
    · exact fun h => ⟨h.balance d rfl, h.prior⟩

theorem Voting.Within.mono (h : v.Within m) (hm : m ≤ n) : v.Within n :=
  lockedBalance_le_iff.mp ((lockedBalance_le_iff.mpr h).trans hm)

theorem Voting.Within.setCommon (h : v.Within n) : (Voting.setCommon d v.prior v).Within n := by
  cases v with
  | casting c => exact ⟨h.prior, h.votes, fun e he => by cases he⟩
  | delegating b =>
    refine ⟨h.prior, h.votes, fun e he => ?_⟩
    rw [← Voting.delegating.inj he]
    exact h.balance b rfl

theorem PriorLock.rejig_le {l : PriorLock} : (l.rejig now).amount ≤ l.amount := by
  rw [PriorLock.rejig]
  split_ifs
  · exact Nat.zero_le _
  · exact Nat.le_refl _

theorem Voting.Within.rejig (h : v.Within n) : (v.rejig now).Within n := by
  cases v with
  | casting c => exact ⟨PriorLock.rejig_le.trans h.prior, h.votes, fun e he => by cases he⟩
  | delegating b =>
    refine ⟨PriorLock.rejig_le.trans h.prior, h.votes, fun e he => ?_⟩
    rw [← Voting.delegating.inj he]
    exact h.balance b rfl

end Within

variable [DecidableEq A] [DecidableEq C]

-- Each class with something locked has an entry that covers it, and the lock covers all entries.
structure Secured (cfg : Config C) (vf : VotingFor A C P) (locks : A → List (C × Nat))
    (lock : A → Nat) : Prop where
  classes : ∀ a, ∀ x ∈ locks a, x.1 ∈ cfg.classes
  nodup : ∀ a, ((locks a).map Prod.fst).Nodup
  top : ∀ a, ∀ x ∈ locks a, x.2 ≤ lock a
  empty : ∀ a, locks a = [] → lock a = 0
  cover : ∀ a c, (vf a c).Within 0 ∨ ∃ n, (c, n) ∈ locks a ∧ (vf a c).Within n

namespace Secured

variable {cfg : Config C} {vf : VotingFor A C P} {locks : A → List (C × Nat)} {lock : A → Nat}
variable {s : State A C P} {who a : A} {cl c : C} {v : Voting A P} {n amount : Nat}

omit [DecidableEq A] [DecidableEq C] in
theorem within (h : Secured cfg vf locks lock) : (vf a c).Within (lock a) := by
  rcases h.cover a c with h0 | ⟨n, hn, hw⟩
  · exact h0.mono (Nat.zero_le _)
  · exact hw.mono (h.top a (c, n) hn)

theorem set (h : Secured cfg vf locks lock) (hv : ∀ n, (vf who cl).Within n → v.Within n) :
    Secured cfg (setFor vf who cl v) locks lock := by
  refine ⟨h.classes, h.nodup, h.top, h.empty, fun a c => ?_⟩
  rcases h.cover a c with h0 | ⟨n, hn, hw⟩
  · exact .inl (setFor_ind (hv 0) h0)
  · exact .inr ⟨n, hn, setFor_ind (hv n) hw⟩

variable {l : List (C × Nat)}

omit [DecidableEq C] in
theorem length_lt (hc : ∀ x ∈ l, x.1 ∈ cfg.classes) (hn : (l.map Prod.fst).Nodup)
    (hcl : cl ∈ cfg.classes) (hout : cl ∉ l.map Prod.fst) : l.length < cfg.classes.length := by
  have hsub : (cl :: l.map Prod.fst) ⊆ cfg.classes := by
    intro x hx
    rcases List.mem_cons.mp hx with rfl | hx
    · exact hcl
    · obtain ⟨y, hy, rfl⟩ := mem_map.mp hx
      exact hc y hy
  have hle := (List.nodup_cons.mpr ⟨hout, hn⟩).subperm hsub |>.length_le
  rw [List.length_cons, List.length_map] at hle
  exact hle

theorem any_iff : l.any (·.1 = cl) = true ↔ cl ∈ l.map Prod.fst := by
  rw [List.any_eq_true, mem_map]
  simp only [decide_eq_true_eq]

section

variable (h : Secured cfg vf locks lock)
include h

omit [DecidableEq A] [DecidableEq C] in
theorem within_of_mem (hm : (c, n) ∈ locks a) : (vf a c).Within n := by
  rcases h.cover a c with h0 | ⟨m, hm', hw⟩
  · exact h0.mono (Nat.zero_le _)
  · have heq : (c, m) = (c, n) := List.inj_on_of_nodup_map (h.nodup a) hm' hm rfl
    rw [← (Prod.mk.inj heq).2]
    exact hw

omit [DecidableEq A] [DecidableEq C] in
theorem within_zero (hout : c ∉ (locks a).map Prod.fst) : (vf a c).Within 0 := by
  rcases h.cover a c with h0 | ⟨n, hn, _⟩
  · exact h0
  · exact absurd (List.mem_map_of_mem (f := Prod.fst) hn) hout

theorem relock (hmem : ∀ x ∈ l, x.1 ∈ cfg.classes ∧ x.2 ≤ n) (hnodup : (l.map Prod.fst).Nodup)
    (hnil : l = [] → n = 0) (hnew : v.Within 0 ∨ ∃ m, (cl, m) ∈ l ∧ v.Within m)
    (hkeep : ∀ x ∈ locks who, x.1 ≠ cl → x ∈ l) :
    Secured cfg (setFor vf who cl v) (update locks who l) (update lock who n) := by
  constructor
  case classes =>
    refine (Function.forall_update_iff locks fun _ l => ∀ x ∈ l, x.1 ∈ cfg.classes).mpr ?_
    exact ⟨fun x hx => (hmem x hx).1, fun a _ => h.classes a⟩
  case nodup =>
    refine (Function.forall_update_iff locks fun _ l => (l.map Prod.fst).Nodup).mpr ?_
    exact ⟨hnodup, fun a _ => h.nodup a⟩
  case top =>
    intro a
    by_cases ha : a = who
    · simpa only [ha, update_self] using fun x hx => (hmem x hx).2
    · simpa only [update_of_ne ha] using h.top a
  case empty =>
    intro a
    by_cases ha : a = who
    · simpa only [ha, update_self] using hnil
    · simpa only [update_of_ne ha] using h.empty a
  case cover =>
    intro a c
    by_cases ha : a = who
    · subst ha
      rw [update_self]
      by_cases hc : c = cl
      · subst hc
        rw [setFor_same]
        exact hnew
      · rw [setFor_class hc]
        rcases h.cover a c with h0 | ⟨m, hm, hw⟩
        · exact .inl h0
        · exact .inr ⟨m, hkeep (c, m) hm hc, hw⟩
    · rw [setFor_account ha, update_of_ne ha]
      exact h.cover a c

theorem relock_push (hcl : cl ∈ cfg.classes) (hout : cl ∉ l.map Prod.fst)
    (hmem : ∀ x ∈ l, x.1 ∈ cfg.classes) (hnodup : (l.map Prod.fst).Nodup)
    (htop : ∀ x ∈ State.pushLock cfg l cl amount, x.2 ≤ n) (hv : v.Within amount)
    (hkeep : ∀ x ∈ locks who, x.1 ≠ cl → x ∈ l) :
    Secured cfg (setFor vf who cl v) (update locks who (State.pushLock cfg l cl amount))
      (update lock who n) := by
  rw [State.pushLock, if_pos (length_lt hmem hnodup hcl hout)] at htop ⊢
  refine h.relock (fun x hx => ⟨?_, htop x hx⟩) ?_ (by simp) (.inr ⟨amount, by simp, hv⟩)
    fun x hx hc => List.mem_append_left _ (hkeep x hx hc)
  · rcases List.mem_append.mp hx with hx | hx
    · exact hmem x hx
    · rw [List.mem_singleton.mp hx]
      exact hcl
  · rw [List.map_append]
    exact List.nodup_append.mpr ⟨hnodup, List.nodup_singleton _, fun x hx y hy => by
      rw [List.mem_singleton.mp hy]
      exact fun heq : x = cl => hout (heq ▸ hx)⟩

end

-- The lock is extended when something more is locked.
theorem extend (h : Secured cfg s.votingFor s.classLocksFor s.lock) (hcl : cl ∈ cfg.classes)
    (hv : ∀ n, (s.votingFor who cl).Within n → amount ≤ n → v.Within n) :
    Secured cfg (setFor s.votingFor who cl v) (s.extendLock cfg who cl amount).classLocksFor
      (s.extendLock cfg who cl amount).lock := by
  rw [State.extendLock]
  split_ifs with hany
  · -- The entry of the class is raised.
    obtain ⟨⟨cl', m⟩, hm, rfl⟩ := mem_map.mp (any_iff.mp hany)
    refine h.relock (fun x hx => ?_) ?_ (fun hnil => ?_) (.inr ⟨max m amount, ?_, ?_⟩)
      fun x hx hc => ?_
    · obtain ⟨y, hy, rfl⟩ := mem_map.mp hx
      have htop := h.top who y hy
      split_ifs
      · exact ⟨h.classes who y hy, max_le_max_right amount htop⟩
      · exact ⟨h.classes who y hy, htop.trans (le_max_left _ _)⟩
    · rw [List.map_map, List.map_congr_left (g := Prod.fst) fun x _ => by
        rw [Function.comp_apply]
        split_ifs <;> rfl]
      exact h.nodup who
    · rw [List.map_eq_nil_iff.mp hnil] at hm
      cases hm
    · exact mem_map.mpr ⟨(cl', m), hm, if_pos rfl⟩
    · exact hv _ ((h.within_of_mem hm).mono (le_max_left _ _)) (le_max_right _ _)
    · exact mem_map.mpr ⟨x, hx, if_neg hc⟩
  · -- The class gets an entry.
    have hout : cl ∉ (s.classLocksFor who).map Prod.fst := fun hin => hany (any_iff.mpr hin)
    refine h.relock_push hcl hout (h.classes who) (h.nodup who) (fun x hx => ?_)
      (hv _ ((h.within_zero hout).mono (Nat.zero_le _)) (Nat.le_refl _)) fun x hx _ => hx
    rw [State.pushLock, if_pos (length_lt (h.classes who) (h.nodup who) hcl hout)] at hx
    rcases List.mem_append.mp hx with hx | hx
    · exact (h.top who x hx).trans (le_max_left _ _)
    · rw [List.mem_singleton.mp hx]
      exact le_max_right _ _

theorem le_max_getD {l : List Nat} (h : n ∈ l) : n ≤ l.max?.getD 0 := by
  cases hm : l.max? with
  | none =>
    rw [List.max?_eq_none_iff.mp hm] at h
    cases h
  | some m => exact (List.max?_eq_some_iff.mp hm).2 n h

-- The lock is computed again for one class.
theorem update (h : Secured cfg s.votingFor s.classLocksFor s.lock) :
    Secured cfg (s.updateLock cfg cl who).votingFor (s.updateLock cfg cl who).classLocksFor
      (s.updateLock cfg cl who).lock := by
  have hmem : ∀ x ∈ (s.classLocksFor who).filter (fun x => x.1 ≠ cl), x.1 ∈ cfg.classes :=
    fun x hx => h.classes who x (List.mem_filter.mp hx).1
  have hnodup : (((s.classLocksFor who).filter fun x => x.1 ≠ cl).map Prod.fst).Nodup :=
    (h.nodup who).sublist (List.filter_sublist.map _)
  have hkeep : ∀ x ∈ s.classLocksFor who, x.1 ≠ cl →
      x ∈ (s.classLocksFor who).filter (fun x => x.1 ≠ cl) :=
    fun x hx hc => List.mem_filter.mpr ⟨hx, by simpa using hc⟩
  rw [State.updateLock]
  generalize hv : (s.votingFor who cl).rejig s.now = v
  split_ifs with hzero
  · refine h.relock (fun x hx => ⟨hmem x hx, le_max_getD (List.mem_map_of_mem hx)⟩) hnodup
      (fun hnil => by rw [hnil]; rfl) (.inl ?_) hkeep
    exact lockedBalance_le_iff.mp (Nat.le_of_eq hzero)
  · -- Something is locked, so that the class had an entry.
    have hcl : cl ∈ cfg.classes := by
      rcases h.cover who cl with h0 | ⟨n, hn, _⟩
      · have h0' : v.Within 0 := by
          rw [← hv]
          exact h0.rejig
        exact absurd (Nat.le_zero.mp (lockedBalance_le_iff.mpr h0')) hzero
      · exact h.classes who (cl, n) hn
    refine h.relock_push hcl (fun hin => ?_) hmem hnodup
      (fun x hx => le_max_getD (List.mem_map_of_mem hx))
        (lockedBalance_le_iff.mp (Nat.le_refl _)) hkeep
    obtain ⟨x, hx, hxc⟩ := mem_map.mp hin
    have hne := (List.mem_filter.mp hx).2
    simp only [decide_eq_true_eq] at hne
    exact hne hxc

end Secured

-- What is known about the polls: the class of an ongoing one, and that only opened ones exist.
structure Known (cfg : Config C) (s : State A C P) : Prop where
  classes : ∀ p t c, s.polls p = .ongoing t c → c ∈ cfg.classes
  opened : ∀ p, p ∉ s.opened → s.polls p = .none

section Effects

variable {cfg : Config C} {s s' : State A C P} {a who : A} {c cl : C} {p : P}

inductive PollEffect (cfg : Config C) (p : P) (s s' : State A C P) : Prop
  | same : s'.polls p = s.polls p → PollEffect cfg p s s'
  | count {t t' k} : s.polls p = .ongoing t k → s'.polls p = .ongoing t' k → PollEffect cfg p s s'
  | close {t k} : s.polls p = .ongoing t k → (∀ t c, s'.polls p ≠ .ongoing t c) →
    PollEffect cfg p s s'
  | start {k} : p ∉ s.opened → p ∈ s'.opened → k ∈ cfg.classes → s'.polls p = .ongoing 0 k →
    PollEffect cfg p s s'

omit [DecidableEq A] [DecidableEq C] in
theorem pollEffect_setPoll {k : C} (hq : s.polls q = .ongoing t k)
    (hs : s'.polls = update s.polls q (.ongoing t' k)) : PollEffect cfg p s s' := by
  by_cases hp : p = q
  · subst hp
    have hp' : s'.polls p = .ongoing t' k := by rw [hs, update_self]
    exact .count hq hp'
  · refine .same ?_
    rw [hs, update_of_ne hp]

omit [DecidableEq A] [DecidableEq C] in
theorem pollEffect_shift {f : Tally → Bool → Tally} {votes : ExtTreeMap P AccountVote compare}
    (hs : s'.polls = shiftPolls f votes.toList s.polls) : PollEffect cfg p s s' := by
  rcases @polls_of_shift C P _ f votes s.polls p with heq | ⟨t, t', k, ht, ht'⟩
  · exact .same (by rw [hs, heq])
  · exact .count ht (by rw [hs, ht'])

theorem effect_poll (h : Effect cfg s s') : PollEffect cfg p s s' := by
  cases h with
  | vote hp | retract hp => exact pollEffect_setPoll hp rfl
  | remove | accumulate | unlock | tick | none => exact .same rfl
  | delegate hne hcl hv hempty =>
    rw [increaseUpstream_eq]
    exact pollEffect_shift (f := fun tally aye => tally.increase aye _) rfl
  | undelegate hv =>
    rw [reduceUpstream_eq]
    exact pollEffect_shift (f := fun tally aye => tally.reduce aye _) rfl
  | @openPoll q k =>
    rw [State.openPoll]
    split_ifs with hq
    · by_cases hp : p = q
      · subst hp
        exact .start (List.forall_mem_ne.mp hq.1) List.mem_cons_self hq.2 (update_self _ _ _)
      · exact .same (update_of_ne hp _ _)
    · exact .same rfl
  | @closePoll q status hst =>
    rw [State.closePoll]
    cases hq : s.polls q with
    | none => exact .same rfl
    | completed fin approved => exact .same rfl
    | ongoing t k =>
      change PollEffect cfg p s (s.setPoll q status)
      by_cases hp : p = q
      · subst hp
        have hself : (s.setPoll p status).polls p = status := update_self _ _ _
        exact .close hq fun t' c' heq => hst t' c' (hself.symm.trans heq)
      · exact .same (update_of_ne hp _ _)

-- Polls are never forgotten, and blocks only pass.
theorem effect_grows (h : Effect cfg s s') : s.opened ⊆ s'.opened ∧ s.now ≤ s'.now := by
  cases h
  case tick => exact ⟨List.Subset.refl _, Nat.le_succ _⟩
  case openPoll =>
    rw [State.openPoll]
    split_ifs
    · exact ⟨List.subset_cons_self _ _, Nat.le_refl _⟩
    · exact ⟨List.Subset.refl _, Nat.le_refl _⟩
  case closePoll hst => rw [State.closePoll]; split <;> exact ⟨List.Subset.refl _, Nat.le_refl _⟩
  case delegate hne hcl hv hempty =>
    rw [increaseUpstream_eq]; exact ⟨List.Subset.refl _, Nat.le_refl _⟩
  case undelegate hv => rw [reduceUpstream_eq]; exact ⟨List.Subset.refl _, Nat.le_refl _⟩
  all_goals exact ⟨List.Subset.refl _, Nat.le_refl _⟩

theorem Known.effect (h : Known cfg s) (he : Effect cfg s s') : Known cfg s' := by
  constructor
  · intro p t c hp
    cases @effect_poll A C P _ _ _ cfg s s' p he with
    | same heq => exact h.classes p t c (heq ▸ hp)
    | count ht ht' =>
      rw [ht'] at hp
      obtain ⟨_, rfl⟩ := PollStatus.ongoing.inj hp
      exact h.classes p _ _ ht
    | close ht hnot => exact absurd hp (hnot t c)
    | start hout hin hk hs =>
      rw [hs] at hp
      obtain ⟨_, rfl⟩ := PollStatus.ongoing.inj hp
      exact hk
  · intro p hp
    have hnone := h.opened p fun hin => hp ((effect_grows he).1 hin)
    cases @effect_poll A C P _ _ _ cfg s s' p he with
    | same heq => rw [heq, hnone]
    | count ht ht' =>
      rw [hnone] at ht
      cases ht
    | close ht hnot =>
      rw [hnone] at ht
      cases ht
    | start hout hin hk hs => exact absurd hin hp

theorem Known.completed (h : Known cfg s) (he : Effect cfg s s')
    (hp : s.polls p = .completed e approved) : s'.polls p = .completed e approved := by
  cases @effect_poll A C P _ _ _ cfg s s' p he with
  | same heq => rw [heq, hp]
  | count ht ht' =>
    rw [hp] at ht
    cases ht
  | close ht hnot =>
    rw [hp] at ht
    cases ht
  | start hout hin hk hs =>
    rw [h.opened p hout] at hp
    cases hp

omit [DecidableEq A] in
theorem within_setCommon_iff {v : Voting A P} {n : Nat} :
    (Voting.setCommon d v.prior v).Within n ↔ v.Within n := by
  constructor
  · intro h
    cases v with
    | casting c => exact ⟨h.prior, h.votes, fun e he => by cases he⟩
    | delegating b =>
      refine ⟨h.prior, h.votes, fun e he => ?_⟩
      rw [← Voting.delegating.inj he]
      exact h.balance { b with delegations := d } rfl
  · exact Voting.Within.setCommon

theorem within_redelegate {f : Tally → Bool → Tally} {n : Nat} :
    ((s.redelegate who cl d f).votingFor a c).Within n ↔ (s.votingFor a c).Within n := by
  refine setFor_cases (Q := fun v => v.Within n ↔ (s.votingFor a c).Within n)
    (fun ha hc => ?_) Iff.rfl
  rw [ha, hc]
  exact within_setCommon_iff

theorem lockedIf_balance {x : AccountVote} {k b : Nat}
    (h : x.lockedIf (.status approved) = some (k, b)) : x.balance = b := by
  cases x with
  | standard vote balance =>
    obtain ⟨aye, conviction⟩ := vote
    cases conviction
    case none => cases h
    all_goals
      change (if aye = approved then some (_, balance) else none) = some (k, b) at h
      split_ifs at h
      exact (Prod.mk.inj (Option.some.inj h)).2
  | split aye nay => cases h
  | splitAbstain aye nay abstain => cases h

omit [DecidableEq A] in
theorem within_erase {k : Casting P} {n : Nat} (h : (Voting.casting k : Voting A P).Within n) :
    (Voting.casting { k with votes := k.votes.erase p } : Voting A P).Within n := by
  refine ⟨h.prior, fun q x hx => ?_, fun d hd => by cases hd⟩
  by_cases hq : q = p
  · subst hq
    have hnone : (k.votes.erase q)[q]? = none := by rw [ExtTreeMap.lookup_erase, if_pos rfl]
    cases (hnone.symm.trans hx : none = some x)
  · exact h.votes q x ((ExtTreeMap.lookup_erase_ne hq).symm.trans hx)

theorem Secured.redelegate (h : Secured cfg s.votingFor s.classLocksFor s.lock) :
    Secured cfg (s.redelegate who cl d f).votingFor s.classLocksFor s.lock :=
  h.set fun _ hw => hw.setCommon

structure Safe (cfg : Config C) (s : State A C P) : Prop where
  known : Known cfg s
  secured : Secured cfg s.votingFor s.classLocksFor s.lock

theorem Safe.effect (h : Safe cfg s) (he : Effect cfg s s') : Safe cfg s' := by
  refine ⟨h.known.effect he, ?_⟩
  have hs := h.secured
  cases he with
  | @vote who p x tally tally' cl k hp hv =>
    refine @Secured.extend A C P _ _ _ cfg s who cl _ x.balance hs
      (h.known.classes p tally cl hp) ?_
    intro n hw hx
    rw [hv] at hw
    refine ⟨hw.prior, fun q y hy => ?_, fun d hd => by cases hd⟩
    by_cases hq : q = p
    · subst hq
      have hins : (k.votes.insert q x)[q]? = some x := by rw [ExtTreeMap.lookup_insert, if_pos rfl]
      obtain rfl := Option.some.inj (hins.symm.trans hy)
      exact hx
    · exact hw.votes q y ((ExtTreeMap.lookup_insert_ne hq).symm.trans hy)
  | @retract who p x tally tally' cl k kc hp hv hx =>
    refine hs.set fun n hw => ?_
    rw [hv] at hw
    exact within_erase hw
  | @remove who p x cl k hv hx hf =>
    refine hs.set fun n hw => ?_
    rw [hv] at hw
    exact within_erase hw
  | @accumulate who p x cl k e approved m b hv hx hp hl =>
    refine hs.set fun n hw => ?_
    rw [hv] at hw
    have hb : b ≤ n := by
      rw [← lockedIf_balance hl]
      exact hw.votes p x hx
    have herase := within_erase (p := p) hw
    exact ⟨Nat.max_le.mpr ⟨hw.prior, hb⟩, herase.votes, fun d hd => by cases hd⟩
  | @delegate who cl target conviction balance k hne hcl hv hempty =>
    rw [increaseUpstream_eq]
    refine @Secured.extend A C P _ _ _ cfg (s.redelegate target cl _ _) who cl _ balance
      hs.redelegate hcl ?_
    intro n hw hb
    rw [within_redelegate, hv] at hw
    refine ⟨hw.prior, fun q y hy => ?_, fun d hd => ?_⟩
    · cases (ExtTreeMap.getElem?_empty.symm.trans hy : none = some y)
    · rw [← Voting.delegating.inj hd]
      exact hb
  | @undelegate who cl d hv =>
    rw [reduceUpstream_eq]
    refine hs.redelegate.set fun n hw => ?_
    rw [within_redelegate, hv] at hw
    refine ⟨Nat.max_le.mpr ⟨hw.prior, hw.balance d rfl⟩, fun q y hy => ?_, fun e he => by cases he⟩
    cases (ExtTreeMap.getElem?_empty.symm.trans hy : none = some y)
  | unlock => exact hs.update
  | tick => exact hs
  | none => exact hs
  | openPoll => rw [State.openPoll]; split_ifs <;> exact hs
  | closePoll hst => rw [State.closePoll]; split <;> exact hs

end Effects

end ConvictionVoting
