import RostroModel.ConvictionVoting.Locks

namespace ConvictionVoting

open Std (ExtTreeMap)

variable {A C P : Type} [DecidableEq A] [DecidableEq C] [LinearOrder P]

-- The prior lock keeps an amount until some block.
structure Covered (u b : Nat) (v : Voting A P) : Prop where
  deadline : u ≤ v.prior.until
  amount : b ≤ v.prior.amount

-- One of the votes that bind the amount is still there, or the prior lock keeps the amount.
def Pending (w : P → AccountVote → Prop) (u b : Nat) (v : Voting A P) : Prop :=
  (∃ p x, w p x ∧ v.votes[p]? = some x) ∨ Covered u b v

-- The votes lock the amount until the block, as the polls have ended.
def Binding (cfg : Config C) (s : State A C P) (w : P → AccountVote → Prop) (u b : Nat) : Prop :=
  ∀ p x, w p x → ∃ e approved k, s.polls p = .completed e approved ∧
    x.lockedIf (.status approved) = some (k, b) ∧ u = e + cfg.voteLockingPeriod * k

section Upstream

variable {vf : VotingFor A C P} {a t : A} {c cl : C} {d : Delegations}

theorem upstream_votes :
    (setFor vf t cl ((vf t cl).setCommon d (vf t cl).prior) a c).votes = (vf a c).votes := by
  refine setFor_ind (Q := fun v => v.votes = (vf a c).votes) (fun h => ?_) rfl
  rw [setCommon_votes, h]

theorem upstream_prior :
    (setFor vf t cl ((vf t cl).setCommon d (vf t cl).prior) a c).prior = (vf a c).prior := by
  refine setFor_ind (Q := fun v => v.prior = (vf a c).prior) (fun h => ?_) rfl
  rw [← h]
  cases vf t cl <;> rfl

theorem Pending.upstream {w : P → AccountVote → Prop} {u b : Nat} (h : Pending w u b (vf a c)) :
    Pending w u b (setFor vf t cl ((vf t cl).setCommon d (vf t cl).prior) a c) := by
  rcases h with ⟨p, x, hw, hx⟩ | hc
  · exact .inl ⟨p, x, hw, by rw [upstream_votes]; exact hx⟩
  · exact .inr ⟨by rw [upstream_prior]; exact hc.deadline, by rw [upstream_prior]; exact hc.amount⟩

end Upstream

section Kept

variable {cfg : Config C} {s s' : State A C P} {a : A} {c : C} {p : P} {x : AccountVote} {u b : Nat}
variable {w : P → AccountVote → Prop}

omit [DecidableEq A] [DecidableEq C] in
theorem Covered.rejig {v : Voting A P} (h : Covered u b v) (hn : s.now < u) :
    Covered u b (v.rejig s.now) := by
  have hlate : ¬ s.now ≥ v.prior.until := by
    have := h.deadline
    omega
  have heq : (v.rejig s.now).prior = v.prior := by
    cases v with
    | casting k => exact if_neg hlate
    | delegating d => exact if_neg hlate
  exact ⟨heq ▸ h.deadline, heq ▸ h.amount⟩

omit [DecidableEq A] [DecidableEq C] in
theorem Binding.ne_ongoing {t : Tally} (hb : Binding cfg s w u b) (hq : s.polls q = .ongoing t k)
    (hw : w p x) : p ≠ q := by
  rintro rfl
  obtain ⟨e, approved, _, hp, _⟩ := hb p x hw
  rw [hp] at hq
  cases hq

-- An account votes differently, and the prior lock does not shrink.
theorem Pending.recast {k k' : Casting P} (h : Pending w u b (s.votingFor a c))
    (hv : s.votingFor who cl = .casting k) (hvotes : ∀ p x, w p x → k.votes[p]? = some x →
      k'.votes[p]? = some x ∨ Covered u b (.casting k' : Voting A P))
    (hu : k.prior.until ≤ k'.prior.until) (hm : k.prior.amount ≤ k'.prior.amount) :
    Pending w u b (setFor s.votingFor who cl (.casting k') a c) := by
  refine setFor_ind (fun h => ?_) h
  rw [hv] at h
  rcases h with ⟨p, x, hw, hx⟩ | hc
  · exact (hvotes p x hw hx).imp_left fun hx => ⟨p, x, hw, hx⟩
  · exact .inr ⟨hc.deadline.trans hu, hc.amount.trans hm⟩

theorem Pending.effect (h : Pending w u b (s.votingFor a c)) (hb : Binding cfg s w u b)
    (hn : s.now < u) (he : Effect cfg s s') : Pending w u b (s'.votingFor a c) := by
  cases he with
  | vote hq hv =>
    refine h.recast hv (fun p x hw hx => .inl ?_) le_rfl le_rfl
    exact (ExtTreeMap.lookup_insert_ne (hb.ne_ongoing hq hw)).trans hx
  | retract hq hv hy =>
    refine h.recast hv (fun p x hw hx => .inl ?_) le_rfl le_rfl
    exact (ExtTreeMap.lookup_erase_ne (hb.ne_ongoing hq hw)).trans hx
  | @remove who q y cl kc hv hy hf =>
    refine h.recast hv (fun p x hw hx => .inl ?_) le_rfl le_rfl
    by_cases hne : p = q
    · -- The lock period would be over.
      subst hne
      obtain ⟨e, approved, k, hp, hl, hu⟩ := hb p x hw
      obtain rfl := Option.some.inj (hx.symm.trans hy)
      have := hf e approved k b hp hl
      omega
    · exact (ExtTreeMap.lookup_erase_ne hne).trans hx
  | @accumulate who q y cl kc e' ap m b' hv hy hq hl' =>
    refine h.recast hv (fun p x hw hx => ?_) (le_max_left _ _) (le_max_left _ _)
    by_cases hne : p = q
    · subst hne
      obtain ⟨e, approved, k, hp, hl, hu⟩ := hb p x hw
      obtain rfl := Option.some.inj (hx.symm.trans hy)
      rw [hp] at hq
      obtain ⟨rfl, rfl⟩ := PollStatus.completed.inj hq
      rw [hl] at hl'
      obtain ⟨rfl, rfl⟩ := Prod.mk.inj (Option.some.inj hl')
      subst hu
      exact .inr ⟨le_max_right _ _, le_max_right _ _⟩
    · exact .inl ((ExtTreeMap.lookup_erase_ne hne).trans hx)
  | delegate hne hcl hv hempty =>
    rw [increaseUpstream_eq]
    change Pending w u b (setFor (setFor s.votingFor _ _ _) _ _ _ a c)
    refine setFor_ind (fun h => ?_) h.upstream
    rcases h with ⟨p, x, _, hx⟩ | ⟨hd, hm⟩
    · rw [upstream_votes, hv] at hx
      cases ((hempty p).symm.trans hx : none = some x)
    · rw [upstream_prior, hv] at hd hm
      exact .inr ⟨hd, hm⟩
  | undelegate hv =>
    rw [reduceUpstream_eq]
    change Pending w u b (setFor (setFor s.votingFor _ _ _) _ _ _ a c)
    refine setFor_ind (fun h => ?_) h.upstream
    rcases h with ⟨p, x, _, hx⟩ | ⟨hd, hm⟩
    · rw [upstream_votes, hv] at hx
      cases (ExtTreeMap.getElem?_empty.symm.trans hx : none = some x)
    · rw [upstream_prior, hv] at hd hm
      exact .inr ⟨hd.trans (le_max_left _ _), hm.trans (le_max_left _ _)⟩
  | @unlock cl target =>
    refine setFor_ind (fun h => ?_) h
    rcases h with ⟨p, x, hw, hx⟩ | hc
    · refine .inl ⟨p, x, hw, ?_⟩
      rw [← hx]
      cases s.votingFor target cl <;> rfl
    · exact .inr (hc.rejig hn)
  | openPoll => rw [State.openPoll]; split_ifs <;> exact h
  | closePoll hst => rw [State.closePoll]; split <;> exact h
  | tick => exact h
  | none => exact h

theorem Binding.effect (hb : Binding cfg s w u b) (hs : Known cfg s) (he : Effect cfg s s') :
    Binding cfg s' w u b := by
  intro p x hw
  obtain ⟨e, approved, k, hp, hrest⟩ := hb p x hw
  exact ⟨e, approved, k, hs.completed he hp, hrest⟩

theorem until_accumulate {D : Nat → Prop} {l : PriorLock}
    (hl : l.until = 0 ∨ D l.until) (hn : D n) :
    (l.accumulate n m).until = 0 ∨ D (l.accumulate n m).until := by
  have hmax : (l.accumulate n m).until = max l.until n := rfl
  rw [hmax]
  rcases le_total l.until n with hle | hle
  · rw [max_eq_right hle]
    exact .inr hn
  · rw [max_eq_left hle]
    exact hl

omit [DecidableEq A] in
theorem until_rejig {v : Voting A P} : (v.rejig n).prior.until = 0 ∨
    (v.rejig n).prior.until = v.prior.until := by
  have hprior : (v.rejig n).prior = v.prior.rejig n := by cases v <;> rfl
  rw [hprior, PriorLock.rejig]
  split_ifs
  · exact .inl rfl
  · exact .inr rfl

theorem lockedIf_standard {vote : Vote} (h : vote.conviction ≠ .none) :
    (AccountVote.standard vote balance).lockedIf (.status vote.aye) =
      some (vote.conviction.lockPeriods, balance) := by
  obtain ⟨aye, conviction⟩ := vote
  cases conviction
  case none => exact absurd rfl h
  all_goals exact if_pos rfl

end Kept

section Runs

variable {cfg : Config C} {s s' : State A C P} {a : A} {c : C} {p : P} {x : AccountVote} {u b : Nat}
variable {w : P → AccountVote → Prop}
variable {ops : List (Op A C P)}

theorem Safe.runs (h : Safe cfg s) : Safe cfg (runs cfg s ops) := by
  induction ops generalizing s with
  | nil => exact h
  | cons op ops hi => exact hi (h.effect step_effect)

theorem runs_now : s.now ≤ (runs cfg s ops).now := by
  induction ops generalizing s with
  | nil => exact Nat.le_refl _
  | cons op ops hi =>
    have he : Effect cfg s (op.step cfg s) := step_effect
    exact (effect_grows he).2.trans hi

section

variable (h : Pending w u b (s.votingFor a c)) (hs : Safe cfg s) (hb : Binding cfg s w u b)
include h hs hb

theorem Pending.runs
    (hn : (runs cfg s ops).now < u) :
    Pending w u b ((ConvictionVoting.runs cfg s ops).votingFor a c) := by
  induction ops generalizing s with
  | nil => exact h
  | cons op ops hi =>
    have he : Effect cfg s (op.step cfg s) := step_effect
    have hnow : s.now < u := Nat.lt_of_le_of_lt runs_now hn
    exact hi (h.effect hb hnow he) (hs.effect he) (hb.effect hs.known he) hn

omit [DecidableEq A] [DecidableEq C] in
theorem Pending.le_lock : b ≤ s.lock a := by
  have hwithin : (s.votingFor a c).Within (s.lock a) := hs.secured.within
  rcases h with ⟨p, x, hw, hx⟩ | hc
  · obtain ⟨e, approved, k, _, hl, _⟩ := hb p x hw
    rw [← lockedIf_balance hl]
    exact hwithin.votes p x hx
  · exact hc.amount.trans hwithin.prior

end

theorem Binding.runs (hb : Binding cfg s w u b) (hs : Safe cfg s) :
    Binding cfg (ConvictionVoting.runs cfg s ops) w u b := by
  induction ops generalizing s with
  | nil => exact hb
  | cons op ops hi =>
    have he : Effect cfg s (op.step cfg s) := step_effect
    exact hi (hb.effect hs.known he) (hs.effect he)

theorem Pending.locked (h : Pending w u b (s.votingFor a c)) (hs : Safe cfg s)
    (hb : Binding cfg s w u b) (hn : (ConvictionVoting.runs cfg s ops).now < u) :
    b ≤ (ConvictionVoting.runs cfg s ops).lock a :=
  (h.runs hs hb hn).le_lock hs.runs (hb.runs hs)

-- The blocks at which the lock of an account may end: those of its votes on the winning side, and
-- those of the delegations that it has ended.
inductive Due (cfg : Config C) (s : State A C P) (ops : List (Op A C P)) (a : A) : Nat → Prop
  | vote {before rest p c x e approved k b} : ops = before ++ rest →
    (runs cfg s before).polls p = .completed e approved →
    ((runs cfg s before).votingFor a c).votes[p]? = some x →
    x.lockedIf (.status approved) = some (k, b) → Due cfg s ops a (e + cfg.voteLockingPeriod * k)
  | delegation {before op rest c d k} : ops = before ++ op :: rest →
    (runs cfg s before).votingFor a c = .delegating d →
    (op.step cfg (runs cfg s before)).votingFor a c = .casting k →
    Due cfg s ops a ((runs cfg s before).now + cfg.voteLockingPeriod * d.conviction.lockPeriods)

theorem Due.extend {rest : List (Op A C P)} (h : Due cfg s ops a u) :
    Due cfg s (ops ++ rest) a u := by
  cases h with
  | vote ho hp hx hl => exact .vote (by rw [ho, List.append_assoc]) hp hx hl
  | delegation ho hd hk => exact .delegation (by rw [ho, List.append_assoc]; rfl) hd hk

-- The block at which the lock of a vote or of a delegation that was just ended runs out.
def voteDeadline (cfg : Config C) (s : State A C P) (a : A) (c : C) (p : P) : Option Nat :=
  match s.polls p, (s.votingFor a c).votes[p]? with
  | .completed e approved, some x =>
    (x.lockedIf (.status approved)).map (e + cfg.voteLockingPeriod * ·.1)
  | _, _ => none

def delegationDeadline (cfg : Config C) (s s' : State A C P) (a : A) (c : C) : Option Nat :=
  match s.votingFor a c, s'.votingFor a c with
  | .delegating d, .casting _ => some (s.now + cfg.voteLockingPeriod * d.conviction.lockPeriods)
  | _, _ => none

theorem Due.le
    (hvote : ∀ i ≤ ops.length, ∀ c p, ∀ n ∈ voteDeadline cfg (runs cfg s (ops.take i)) a c p, n ≤ b)
    (hend : ∀ i ≤ ops.length, ∀ c, ∀ n ∈ delegationDeadline cfg (runs cfg s (ops.take i))
      (runs cfg s (ops.take (i + 1))) a c, n ≤ b) (h : Due cfg s ops a u) : u ≤ b := by
  cases h
  case vote before rest p c x e approved k m ho hp hx hl =>
    refine hvote before.length (by simp [ho]) c p _ ?_
    rw [ho, List.take_left, voteDeadline, hp, hx]
    simp [hl]
  case delegation before op rest c d k ho hd hk =>
    refine hend before.length (by simp [ho]) c _ ?_
    have hstep : runs cfg s (ops.take (before.length + 1)) = op.step cfg (runs cfg s before) := by
      rw [ho, List.take_length_add_append]
      exact List.foldl_append
    rw [hstep, ho, List.take_left, delegationDeadline, hd, hk]
    rfl

-- The block of the prior lock is that of a vote that was removed or of a delegation that was ended.
theorem prior_effect {D : Nat → Prop}
    (hvote : ∀ p x e approved k b, s.polls p = .completed e approved →
    (s.votingFor a c).votes[p]? = some x →
      x.lockedIf (.status approved) = some (k, b) → D (e + cfg.voteLockingPeriod * k))
    (hend : ∀ d k, s.votingFor a c = .delegating d → s'.votingFor a c = .casting k →
      D (s.now + cfg.voteLockingPeriod * d.conviction.lockPeriods))
    (h : (s.votingFor a c).prior.until = 0 ∨ D (s.votingFor a c).prior.until)
    (he : Effect cfg s s') :
    (s'.votingFor a c).prior.until = 0 ∨ D (s'.votingFor a c).prior.until := by
  let Q : Voting A P → Prop := fun v => v.prior.until = 0 ∨ D v.prior.until
  have hkept t cl d :
      Q (setFor s.votingFor t cl
        ((s.votingFor t cl).setCommon d (s.votingFor t cl).prior) a c) := by
    change _ ∨ _
    rw [upstream_prior]
    exact h
  cases he
  case vote hq hv | retract hq hv hy | remove hv hy hf =>
    refine setFor_cases (Q := Q) (fun ha hc => ?_) h
    subst ha hc
    rw [hv] at h
    exact h
  case accumulate p x _ _ e approved n b hv hy hq hl =>
    refine setFor_cases (Q := Q) (fun ha hc => ?_) h
    subst ha hc
    rw [hv] at h hvote
    exact until_accumulate h (hvote p x e approved n b hq hy hl)
  case delegate hne hcl hv hempty =>
    rw [increaseUpstream_eq]
    refine setFor_cases (Q := Q) (fun ha hc => ?_) (hkept _ _ _)
    subst ha hc
    rw [hv] at h
    exact h
  case undelegate d hv =>
    refine setFor_cases (Q := Q) (fun ha hc => ?_) ?_
    · subst ha hc
      rw [hv] at h
      exact until_accumulate h (hend d _ hv setFor_same)
    · rw [reduceUpstream_eq]
      exact hkept _ _ _
  case unlock =>
    refine setFor_cases (Q := Q) (fun ha hc => ?_) h
    subst ha hc
    have hrejig : ((s.votingFor a c).rejig s.now).prior.until = 0 ∨
        ((s.votingFor a c).rejig s.now).prior.until = (s.votingFor a c).prior.until := until_rejig
    rcases hrejig with h0 | heq
    · exact .inl h0
    · change _ ∨ _
      rw [heq]
      exact h
  case openPoll => rw [State.openPoll]; split_ifs <;> exact h
  case closePoll hst => rw [State.closePoll]; split <;> exact h
  all_goals exact h

theorem prior_due {t : Nat} : ((runs cfg { now := t } ops).votingFor a c).prior.until = 0 ∨
    Due cfg ({ now := t } : State A C P) ops a
      ((runs cfg { now := t } ops).votingFor a c).prior.until := by
  induction ops using List.reverseRecOn with
  | nil => exact .inl rfl
  | append_singleton ops op hi =>
    have hstep : runs cfg ({ now := t } : State A C P) (ops ++ [op]) =
      op.step cfg (runs cfg { now := t } ops) :=
      List.foldl_append
    rw [hstep]
    refine prior_effect ?_ ?_ (hi.imp_right Due.extend) step_effect
    · intro p x e approved k b hp hx hl
      exact .vote rfl hp hx hl
    · intro d k hd hk
      exact .delegation rfl hd hk

-- Nothing is locked any more: no vote, no delegation, and the prior lock has run out.
def Released (s : State A C P) (a : A) : Prop :=
  ∀ c, ∃ k, s.votingFor a c = .casting k ∧ (∀ p : P, k.votes[p]? = none) ∧ k.prior.until ≤ s.now

omit [DecidableEq A] in
theorem rejig_released {k : Casting P} (hv : ∀ p : P, k.votes[p]? = none) (hu : k.prior.until ≤ n) :
    ((Voting.casting k : Voting A P).rejig n).lockedBalance = 0 := by
  have hprior : k.prior.rejig n = {} := if_pos hu
  refine Nat.le_zero.mp (lockedBalance_le_iff.mpr ⟨?_, fun p x hx => ?_, fun d hd => by cases hd⟩)
  · change (k.prior.rejig n).amount ≤ 0
    rw [hprior]
  · cases ((hv p).symm.trans hx : none = some x)

theorem Released.unlock (h : Released s a) : Released (s.updateLock cfg c a) a ∧
    (s.updateLock cfg c a).classLocksFor a = (s.classLocksFor a).filter fun x => x.1 ≠ c := by
  obtain ⟨k, hk, hv, hu⟩ := h c
  constructor
  · intro c'
    have hQ : ∃ k', setFor s.votingFor a c ((s.votingFor a c).rejig s.now) a c' = .casting k' ∧
        (∀ p : P, k'.votes[p]? = none) ∧ k'.prior.until ≤ s.now := by
      refine setFor_cases
        (Q := fun v => ∃ k', v = .casting k' ∧ (∀ p : P, k'.votes[p]? = none) ∧
          k'.prior.until ≤ s.now)
        (fun _ hc => ?_) (h c')
      rw [hk]
      refine ⟨_, rfl, hv, ?_⟩
      have hprior : k.prior.rejig s.now = {} := if_pos hu
      rw [hprior]
      exact Nat.zero_le _
    exact hQ
  · have hzero : ((s.votingFor a c).rejig s.now).lockedBalance = 0 := by
      rw [hk]
      exact rejig_released hv hu
    rw [State.updateLock]
    dsimp only
    rw [Function.update_self, if_pos hzero]

theorem Released.runs {classes : List C} (h : Released s a) :
    (ConvictionVoting.runs cfg s (classes.map (.unlock · a))).classLocksFor a =
      (s.classLocksFor a).filter fun x => x.1 ∉ classes := by
  induction classes generalizing s with
  | nil =>
    refine (List.filter_eq_self.mpr fun x _ => ?_).symm
    exact decide_eq_true List.not_mem_nil
  | cons c rest hi =>
    obtain ⟨hr, hlocks⟩ := @Released.unlock A C P _ _ _ cfg s a c h
    refine (hi hr).trans ?_
    rw [hlocks, List.filter_filter]
    refine List.filter_congr fun x _ => ?_
    simp only [List.mem_cons, not_or, Bool.decide_and]
    exact Bool.and_comm _ _

omit [DecidableEq A] [DecidableEq C] in
theorem Safe.init {t : Nat} : Safe cfg ({ now := t } : State A C P) where
  known := by
    refine ⟨fun p t c hp => ?_, fun _ _ => rfl⟩
    cases hp
  secured := by
    refine ⟨fun _ x hx => absurd hx List.not_mem_nil, fun _ => List.nodup_nil,
      fun _ x hx => absurd hx List.not_mem_nil, fun _ _ => rfl, fun _ _ =>
        .inl ⟨Nat.le_refl 0, ?_, ?_⟩⟩
    · intro p x hx
      cases (ExtTreeMap.getElem?_empty.symm.trans hx : none = some x)
    · intro d hd
      cases hd

theorem undelegate_covered {d : Delegating A} (hd : s.votingFor a c = .delegating d)
    (h : tryUndelegate cfg a c s = .ok s') :
    Covered (s.now + cfg.voteLockingPeriod * d.conviction.lockPeriods) d.balance
      (s'.votingFor a c) := by
  rw [tryUndelegate, hd] at h
  dsimp only at h
  rw [now_reduceUpstream] at h
  obtain rfl := Except.ok.inj h
  change Covered _ _ (setFor _ a c
    (Voting.setCommon d.delegations (d.prior.accumulate _ d.balance) default) a c)
  rw [setFor_same]
  exact ⟨le_max_right _ _, le_max_right _ _⟩

theorem conviction_locks (cfg : Config C) (t : Nat) (ops : List (Op A C P)) (a : A) :
    let s := ConvictionVoting.runs cfg ({ now := t } : State A C P) ops
    (∀ c (p : P) (x : AccountVote), (s.votingFor a c).votes[p]? = some x → x.balance ≤ s.lock a) ∧
    (∀ c d, s.votingFor a c = .delegating d → d.balance ≤ s.lock a) ∧
    (∀ c (p : P) vote balance e rest, (s.votingFor a c).votes[p]? = some (.standard vote balance) →
      vote.conviction ≠ .none → s.polls p = .completed e vote.aye →
      (ConvictionVoting.runs cfg s rest).now <
        e + cfg.voteLockingPeriod * vote.conviction.lockPeriods →
      balance ≤ (ConvictionVoting.runs cfg s rest).lock a) ∧
    (∀ c d s' rest, s.votingFor a c = .delegating d → tryUndelegate cfg a c s = .ok s' →
      (ConvictionVoting.runs cfg s' rest).now <
        s.now + cfg.voteLockingPeriod * d.conviction.lockPeriods →
      d.balance ≤ (ConvictionVoting.runs cfg s' rest).lock a) ∧
    ∀ classes, cfg.classes ⊆ classes →
      (∀ c, ∃ k, s.votingFor a c = .casting k ∧ ∀ p : P, k.votes[p]? = none) →
      (∀ u, Due cfg { now := t } ops a u → u ≤ s.now) →
      (ConvictionVoting.runs cfg s (classes.map (.unlock · a))).classLocksFor a = [] ∧
        (ConvictionVoting.runs cfg s (classes.map (.unlock · a))).lock a = 0 := by
  intro s
  have hsafe : Safe cfg s := Safe.init.runs
  refine ⟨?_, ?_, ?_, ?_, ?_⟩
  · exact fun c p x hx => hsafe.secured.within.votes p x hx
  · exact fun c d hd => hsafe.secured.within.balance d hd
  · intro c p vote balance e rest hx hne hp hn
    let w : P → AccountVote → Prop := fun q y => q = p ∧ y = .standard vote balance
    have hpending : Pending w (e + cfg.voteLockingPeriod * vote.conviction.lockPeriods) balance
        (s.votingFor a c) :=
      .inl ⟨p, _, ⟨rfl, rfl⟩, hx⟩
    refine hpending.locked hsafe ?_ hn
    rintro q y ⟨rfl, rfl⟩
    exact ⟨e, vote.aye, _, hp, lockedIf_standard hne, rfl⟩
  · intro c d s' rest hd hs' hn
    let w : P → AccountVote → Prop := fun _ _ => False
    have hpending : Pending w (s.now + cfg.voteLockingPeriod * d.conviction.lockPeriods) d.balance
      (s'.votingFor a c) := .inr (undelegate_covered hd hs')
    exact hpending.locked (hsafe.effect (tryUndelegate_effect hs')) (fun _ _ hw => hw.elim) hn
  · intro classes hsub hcasting hdue
    have hreleased : Released s a := by
      intro c
      obtain ⟨k, hk, hv⟩ := hcasting c
      refine ⟨k, hk, hv, ?_⟩
      rcases @prior_due A C P _ _ _ cfg a c ops t with h0 | hd
      · change (s.votingFor a c).prior.until = 0 at h0
        rw [hk] at h0
        exact h0.le.trans (Nat.zero_le _)
      · have := hdue _ hd
        change (s.votingFor a c).prior.until ≤ _ at this
        rw [hk] at this
        exact this
    have hlocks : (ConvictionVoting.runs cfg s (classes.map (.unlock · a))).classLocksFor a =
        [] := by
      rw [hreleased.runs]
      refine List.filter_eq_nil_iff.mpr fun x hx => ?_
      have hin : x.1 ∈ classes := hsub (hsafe.secured.classes a x hx)
      simpa using hin
    have hafter : Safe cfg (ConvictionVoting.runs cfg s (classes.map (.unlock · a))) := hsafe.runs
    exact ⟨hlocks, hafter.secured.empty a hlocks⟩

def sampleConfig : Config Bool := ⟨4, 2, [false, true]⟩

-- A vote on the winning side in one class, and a delegation to a voter of the other class.
def sampleVotes : List (Op Bool Bool Bool) :=
  [.openPoll false false, .openPoll true true,
    .vote false false (.standard ⟨true, .locked2x⟩ 10) 30,
    .delegate false true true .locked1x 20 30,
    .vote true true (.standard ⟨false, .locked1x⟩ 5) 5, .tick, .completePoll false true]

-- Then the delegation ends, the vote is removed, and the periods of both pass.
def sampleEnds : List (Op Bool Bool Bool) :=
  sampleVotes ++ [.undelegate false true, .removeVote false (some false) false, .tick,
    .tick, .tick, .tick]

theorem sampleVotes_locked :
    let s := runs sampleConfig { now := 7 } sampleVotes
    (∀ rest, (runs sampleConfig s rest).now < 12 → 10 ≤ (runs sampleConfig s rest).lock false) ∧
    (∃ s', tryUndelegate sampleConfig false true s = .ok s' ∧ ∀ rest,
      (runs sampleConfig s' rest).now < 10 → 20 ≤ (runs sampleConfig s' rest).lock false) ∧
    let s := runs sampleConfig { now := 7 } sampleEnds
    s.lock false = 20 ∧
      (runs sampleConfig s ([true, false].map (.unlock · false))).lock false = 0 := by
  obtain ⟨_, _, hvote, hdelegated, _⟩ := conviction_locks sampleConfig 7 sampleVotes false
  obtain ⟨_, _, _, _, hunlock⟩ := conviction_locks sampleConfig 7 sampleEnds false
  refine ⟨?_, ⟨_, rfl, ?_⟩, by decide +kernel, ?_⟩
  · exact fun rest hn => hvote false false ⟨true, .locked2x⟩ 10 8 rest rfl (by decide) rfl hn
  · exact fun rest hn => hdelegated true ⟨20, true, .locked1x, {}, {}⟩ _ rest rfl rfl hn
  · refine (hunlock [true, false] (by decide) (fun c => ?_) fun u => Due.le ?_ ?_).2
    · cases c <;> exact ⟨_, rfl, fun p => by cases p <;> rfl⟩
    · decide +kernel
    · decide +kernel

end Runs

end ConvictionVoting
