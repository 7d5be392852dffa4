import RostroModel.ConvictionVoting.Pallet

namespace ConvictionVoting

open Std
open Function (update update_eq_self update_of_ne update_self)

variable {A C P : Type} [DecidableEq A] [DecidableEq C] [LinearOrder P]

def delegated (b : A) : Voting A P → Delegations
  | .delegating d => if d.target = b then d.conviction.votes d.balance else 0
  | .casting _ => 0

def following (v : AccountVote) (d : Delegations) : Tally :=
  match v.asStandard with
  | some approve => Tally.side approve d
  | none => 0

-- What the vote of an account contributes to the tally of a poll.
def contribution (p : P) (v : Voting A P) : Tally :=
  match v.votes[p]? with
  | some vote => following vote v.delegations + Tally.own vote
  | none => 0

abbrev VotingFor (A C P : Type) [LinearOrder P] :=
  A → C → Voting A P

def setFor (vf : VotingFor A C P) (who : A) («class» : C) (v : Voting A P) : VotingFor A C P :=
  update vf who (update (vf who) «class» v)

variable {v : AccountVote}

-- Delegations and tallies are the sums over the accounts of a finite set,
-- outside of which nobody votes.
structure Counted (S : Finset A) (vf : VotingFor A C P) (polls : P → PollStatus C)
    (opened : List P) : Prop where
  outside : ∀ a ∉ S, ∀ c, vf a c = default
  delegations : ∀ b c, (vf b c).delegations = ∑ a ∈ S, delegated b (vf a c)
  tallies : ∀ p t c, polls p = .ongoing t c → t = ∑ a ∈ S, contribution p (vf a c)
  classes : ∀ a c p v, (vf a c).votes[p]? = some v → ∀ t c', polls p = .ongoing t c' → c' = c
  voted : ∀ a c p v, (vf a c).votes[p]? = some v → p ∈ opened
  ongoing : ∀ p t c, polls p = .ongoing t c → p ∈ opened

section Sums

variable {S : Finset A} {vf : VotingFor A C P} {who target a : A} {cl c : C} {v w : Voting A P}
variable {M : Type} [AddCommMonoid M] {f : Voting A P → M}

theorem setFor_same : setFor vf who cl v who cl = v := by
  rw [setFor, update_self, update_self]

theorem setFor_account (h : a ≠ who) : setFor vf who cl v a c = vf a c := by
  rw [setFor, update_of_ne h]

theorem setFor_class (h : c ≠ cl) : setFor vf who cl v a c = vf a c := by
  by_cases ha : a = who
  · rw [ha, setFor, update_self, update_of_ne h]
  · exact setFor_account ha

theorem setFor_cases {Q : Voting A P → Prop} (hv : a = who → c = cl → Q v) (h : Q (vf a c)) :
    Q (setFor vf who cl v a c) := by
  by_cases hac : a = who ∧ c = cl
  · have hq : Q v := hv hac.1 hac.2
    rwa [hac.1, hac.2, setFor_same]
  · have heq : setFor vf who cl v a c = vf a c := by
      by_cases ha : a = who
      · exact setFor_class fun hc => hac ⟨ha, hc⟩
      · exact setFor_account ha
    rwa [heq]

theorem setFor_ind {Q : Voting A P → Prop} (hv : Q (vf who cl) → Q v) (h : Q (vf a c)) :
    Q (setFor vf who cl v a c) := by
  refine setFor_cases (fun ha hc => ?_) h
  subst ha hc
  exact hv h

theorem sum_setFor (hw : who ∈ S) :
    ∑ a ∈ S, f (setFor vf who cl v a cl) = f v + ∑ a ∈ S.erase who, f (vf a cl) := by
  rw [← Finset.add_sum_erase S _ hw, setFor_same]
  congr 1
  exact Finset.sum_congr rfl fun a ha => by rw [setFor_account (Finset.ne_of_mem_erase ha)]

theorem sum_setFor_class (h : c ≠ cl) : ∑ a ∈ S, f (setFor vf who cl v a c) = ∑ a ∈ S, f (vf a c) :=
  Finset.sum_congr rfl fun a _ => by rw [setFor_class h]

-- A change that the measure does not see.
theorem sum_setFor_eq (h : f v = f (vf who cl)) :
    ∑ a ∈ S, f (setFor vf who cl v a c) = ∑ a ∈ S, f (vf a c) := by
  apply Finset.sum_congr rfl
  intro a _
  exact setFor_cases (Q := fun w => f w = f (vf a c)) (fun ha hc => by rw [h, ha, hc]) rfl

end Sums

section Shift

variable {f : Tally → Bool → Tally} {polls : P → PollStatus C} {p : P}
omit [DecidableEq C]

-- How one poll follows the delegations of a vote on it.
def shifted (f : Tally → Bool → Tally) (v : AccountVote) (status : PollStatus C) : PollStatus C :=
  match v, status with
  | .standard vote _, .ongoing tally «class» => .ongoing (f tally vote.aye) «class»
  | _, status => status

theorem shiftPolls_cons :
    shiftPolls f (x :: r) polls = shiftPolls f r
      (update polls x.1 (shifted f x.2 (polls x.1))) := by
  obtain ⟨q, v⟩ := x
  rw [shiftPolls, List.foldl_cons]
  change shiftPolls f r _ = _
  congr 1
  cases v with
  | standard vote balance =>
    cases hs : polls q with
    | none => exact (Function.update_eq_self_iff.mpr hs.symm).symm
    | ongoing tally cl => rfl
    | completed fin approved => exact (Function.update_eq_self_iff.mpr hs.symm).symm
  | split aye nay => exact (update_eq_self q polls).symm
  | splitAbstain aye nay abstain => exact (update_eq_self q polls).symm

theorem shiftPolls_list {l : List (P × AccountVote)} (h : (l.map (·.1)).Nodup) :
    (∀ v, (p, v) ∈ l → shiftPolls f l polls p = shifted f v (polls p)) ∧
    (p ∉ l.map (·.1) → shiftPolls f l polls p = polls p) := by
  induction l generalizing polls with
  | nil => exact ⟨fun v hv => (List.not_mem_nil hv).elim, fun _ => rfl⟩
  | cons x r hi =>
    rw [List.map_cons, List.nodup_cons] at h
    obtain ⟨hx, hr⟩ := h
    rw [shiftPolls_cons]
    obtain ⟨hmem, hout⟩ := @hi (update polls x.1 (shifted f x.2 (polls x.1))) hr
    constructor
    · intro v hv
      rcases List.mem_cons.mp hv with rfl | hv
      · rw [hout hx, update_self]
      · have hne : p ≠ x.1 := fun heq => hx (heq ▸ List.mem_map_of_mem hv)
        rw [hmem v hv, update_of_ne hne]
    · intro hp
      rw [List.map_cons, List.mem_cons, not_or] at hp
      rw [hout hp.2, update_of_ne hp.1]

theorem shiftPolls_some {votes : ExtTreeMap P AccountVote compare} (h : votes[p]? = some v) :
    shiftPolls f votes.toList polls p = shifted f v (polls p) :=
  (shiftPolls_list ExtTreeMap.nodup_keys_toList).1 v
    (ExtTreeMap.mem_toList_iff_getElem?_eq_some.mpr h)

theorem shiftPolls_none {votes : ExtTreeMap P AccountVote compare} (h : votes[p]? = none) :
    shiftPolls f votes.toList polls p = polls p := by
  apply (shiftPolls_list ExtTreeMap.nodup_keys_toList).2
  intro hp
  obtain ⟨x, hx, rfl⟩ := List.mem_map.mp hp
  rw [ExtTreeMap.mem_toList_iff_getElem?_eq_some.mp hx] at h
  cases h

end Shift

section Steps

variable {S : Finset A} {vf : VotingFor A C P} {polls polls' : P → PollStatus C} {opened : List P}
variable {who target : A} {cl : C} {p : P} {old new : Casting P}

omit [DecidableEq A] in
theorem contribution_some (h : old.votes[p]? = some v) :
    contribution p (.casting old : Voting A P) = following v old.delegations + Tally.own v := by
  have hv : (Voting.casting old : Voting A P).votes[p]? = some v := h
  rw [contribution, hv]
  rfl

omit [DecidableEq A] in
theorem contribution_none {v : Voting A P} (h : v.votes[p]? = none) : contribution p v = 0 := by
  rw [contribution, h]

omit [DecidableEq A] in
theorem contribution_congr {v v' : Voting A P} (hx : v.votes[p]? = v'.votes[p]?)
    (hd : v.delegations = v'.delegations) : contribution p v = contribution p v' := by
  rw [contribution, contribution, hx, hd]

-- What the other accounts contribute.
def rest (S : Finset A) (vf : VotingFor A C P) (who : A) («class» : C) (p : P) : Tally :=
  ∑ a ∈ S.erase who, contribution p (vf a «class»)

-- One account changes its votes, and the tallies of the polls of the class with them.
theorem Counted.recast (h : Counted S vf polls opened) (hw : who ∈ S)
    (hv : vf who cl = .casting old) (hd : new.delegations = old.delegations)
    (hp : ∀ p t c, polls' p = .ongoing t c → ∃ t0, polls p = .ongoing t0 c ∧ (c ≠ cl → t = t0) ∧
      (c = cl → t = contribution p (.casting new : Voting A P) + rest S vf who cl p))
    (hc : ∀ p v, new.votes[p]? = some v → p ∈ opened ∧ ∀ t c, polls p = .ongoing t c → c = cl) :
    Counted S (setFor vf who cl (.casting new)) polls' opened := by
  have hdel : ∀ b, delegated b (Voting.casting new : Voting A P) = delegated b (vf who cl) := by
    intro b
    rw [hv]
    rfl
  have hvotes : ∀ a c p v, (setFor vf who cl (.casting new) a c).votes[p]? = some v →
      p ∈ opened ∧ ∀ t c', polls p = .ongoing t c' → c' = c := by
    intro a c p v
    refine setFor_cases (Q := fun w => w.votes[p]? = some v → _) (fun _ hcl => ?_) fun hvote => ?_
    · rw [hcl]
      exact hc p v
    · exact ⟨h.voted a c p v hvote, h.classes a c p v hvote⟩
  refine ⟨fun a ha c => ?_, fun b c => ?_, fun p t c ht => ?_, fun a c p v hvote t c' ht => ?_,
    fun a c p v hvote => (hvotes a c p v hvote).1, fun p t c ht => ?_⟩
  · rw [setFor_account fun heq : a = who => ha (heq ▸ hw)]
    exact h.outside a ha c
  · rw [sum_setFor_eq (hdel b), ← h.delegations]
    by_cases hb : b = who
    · by_cases hcl : c = cl
      · rw [hb, hcl, setFor_same, hv]
        exact hd
      · rw [setFor_class hcl]
    · rw [setFor_account hb]
  · obtain ⟨t0, ht0, hne, heq⟩ := hp p t c ht
    have hsum := h.tallies p t0 c ht0
    by_cases hcl : c = cl
    · subst hcl
      rw [sum_setFor hw]
      exact heq rfl
    · rw [sum_setFor_class hcl, ← hsum]
      exact hne hcl
  · obtain ⟨t0, ht0, _⟩ := hp p t c' ht
    exact (hvotes a c p v hvote).2 t0 c' ht0
  · obtain ⟨t0, ht0, _⟩ := hp p t c ht
    exact h.ongoing p t0 c ht0

theorem withoutVote_eq : withoutVote (following v d + Tally.own v + r) v d = .ok r := by
  have hcomm : following v d + Tally.own v + r = Tally.own v + (following v d + r) := by
    rw [add_comm (following v d), add_assoc]
  rw [withoutVote, hcomm, Tally.remove_own, following]
  cases v.asStandard with
  | none =>
    rw [zero_add]
    rfl
  | some approve =>
    change Except.ok ((Tally.side approve d + r).reduce approve d) = _
    rw [Tally.reduce_side]

omit [DecidableEq A] [DecidableEq C] in
theorem tallyBefore_eq {cfg : Config C} {r : Tally} :
    tallyBefore cfg (contribution p (.casting old : Voting A P) + r) old p = .ok r ∨
    tallyBefore cfg (contribution p (.casting old : Voting A P) + r) old p =
      .error .maxVotesReached := by
  cases hv : old.votes[p]? with
  | some v =>
    left
    rw [contribution_some hv, tallyBefore, hv]
    exact withoutVote_eq
  | none =>
    have hcon : contribution p (.casting old : Voting A P) = 0 := contribution_none hv
    rw [hcon, zero_add, tallyBefore, hv]
    by_cases hsize : old.votes.size < cfg.maxVotes
    · left
      rw [Except.ensure, if_pos hsize]
      rfl
    · right
      rw [Except.ensure, if_neg hsize]
      rfl

omit [DecidableEq C] in
theorem shifted_ongoing {f : Tally → Bool → Tally} {status : PollStatus C} {d d' : Delegations}
    (hf : ∀ (vote : Vote) (r : Tally), f (Tally.side vote.aye d + r) vote.aye =
      Tally.side vote.aye d' + r)
    (h : shifted f v status = .ongoing t c) :
    ∃ t0, status = .ongoing t0 c ∧ ∀ r, t0 = following v d + r → t = following v d' + r := by
  cases status with
  | none => cases v <;> cases h
  | completed fin approved => cases v <;> cases h
  | ongoing t0 c0 =>
    cases v <;> obtain ⟨rfl, rfl⟩ := PollStatus.ongoing.inj h
    case standard vote balance =>
      refine ⟨t0, rfl, fun r hr => ?_⟩
      rw [hr]
      exact hf vote r
    all_goals exact ⟨_, rfl, fun _ => id⟩

-- Two accounts change: the voting of one, and the delegations that the other one has from it.
theorem Counted.redirect {vt vw : Voting A P} {f : Tally → Bool → Tally}
    (h : Counted S vf polls opened) (hw : who ∈ S) (ht : target ∈ S) (hne : who ≠ target)
    (hvotes : vt.votes = (vf target cl).votes)
    (hdt : ∀ b, delegated b vt = delegated b (vf target cl))
    (hvo : ∀ p : P, (vf who cl).votes[p]? = none) (hvw : ∀ p : P, vw.votes[p]? = none)
    (hdw : vw.delegations = (vf who cl).delegations)
    (hother : ∀ b, b ≠ target → delegated b vw = delegated b (vf who cl))
    (htarget : ∀ r, (vf target cl).delegations = delegated target (vf who cl) + r →
      vt.delegations = delegated target vw + r)
    (hf : ∀ (vote : Vote) (r : Tally),
      f (Tally.side vote.aye (vf target cl).delegations + r) vote.aye =
      Tally.side vote.aye vt.delegations + r) :
    Counted S (setFor (setFor vf target cl vt) who cl vw)
      (shiftPolls f (vf target cl).votes.toList polls) opened := by
  have hzero : ∀ p, contribution p vw = contribution p (setFor vf target cl vt who cl) := by
    intro p
    rw [setFor_account hne, contribution, contribution, hvw p, hvo p]
  have hvote : ∀ a c (p : P) v, (setFor (setFor vf target cl vt) who cl vw a c).votes[p]? = some v →
      (vf a c).votes[p]? = some v := by
    intro a c p v
    refine setFor_cases (Q := fun w => w.votes[p]? = some v → _) (fun _ _ hv => ?_)
      (setFor_cases (Q := fun w => w.votes[p]? = some v → _) (fun ha hc => ?_) id)
    · rw [hvw p] at hv
      cases hv
    · rw [hvotes, ha, hc]
      exact id
  -- A poll stays ongoing, in its class.
  have hback : ∀ (p : P) t c, shiftPolls f (vf target cl).votes.toList polls p = .ongoing t c →
      ∃ t0, polls p = .ongoing t0 c ∧ ((vf target cl).votes[p]? = none → t = t0) ∧
        ∀ v, (vf target cl).votes[p]? = some v → c = cl ∧ ∀ r,
          t0 = following v (vf target cl).delegations + r → t = following v vt.delegations + r := by
    intro p t c hp
    cases hv : (vf target cl).votes[p]? with
    | none =>
      rw [shiftPolls_none hv] at hp
      exact ⟨t, hp, fun _ => rfl, fun v hv => by cases hv⟩
    | some v =>
      rw [shiftPolls_some hv] at hp
      obtain ⟨t0, hs, ht⟩ := shifted_ongoing hf hp
      refine ⟨t0, hs, fun hnone => by (cases hnone), fun v' hv' => ?_⟩
      obtain rfl := Option.some.inj hv'
      exact ⟨h.classes target cl p v hv t0 c hs, ht⟩
  refine ⟨fun a ha c => ?_, fun b c => ?_, fun p t c hp => ?_, fun a c p v hv t c' hp => ?_,
    fun a c p v hv => h.voted a c p v (hvote a c p v hv), fun p t c hp => ?_⟩
  · rw [setFor_account fun heq : a = who => ha (heq ▸ hw), setFor_account fun heq : a = target =>
      ha (heq ▸ ht)]
    exact h.outside a ha c
  · by_cases hc : c = cl
    · subst hc
      have hsum := h.delegations b c
      rw [← Finset.add_sum_erase S _ hw] at hsum
      have hrest : ∑ a ∈ S.erase who, delegated b (setFor vf target c vt a c) =
          ∑ a ∈ S.erase who, delegated b (vf a c) := sum_setFor_eq (hdt b)
      rw [sum_setFor hw, hrest]
      by_cases hb : b = target
      · subst hb
        rw [setFor_account (Ne.symm hne), setFor_same]
        exact htarget _ hsum
      · rw [hother b hb, ← hsum]
        by_cases hbw : b = who
        · rw [hbw, setFor_same]
          exact hdw
        · rw [setFor_account hbw, setFor_account hb]
    · rw [setFor_class hc, setFor_class hc, sum_setFor_class hc, sum_setFor_class hc]
      exact h.delegations b c
  · obtain ⟨t0, ht0, hnone, hsome⟩ := hback p t c hp
    have hsum := h.tallies p t0 c ht0
    rw [sum_setFor_eq (hzero p)]
    cases hv : (vf target cl).votes[p]? with
    | none   =>
      have hsame : contribution p vt = contribution p (vf target cl) := by
        rw [contribution, contribution, hvotes, hv]
      rw [sum_setFor_eq hsame, ← hsum]
      exact hnone hv
    | some v =>
      obtain ⟨rfl, heq⟩ := hsome v hv
      rw [← Finset.add_sum_erase S _ ht, contribution, hv] at hsum
      rw [sum_setFor ht, contribution, hvotes, hv, add_assoc]
      rw [add_assoc] at hsum
      exact heq _ hsum
  · obtain ⟨t0, ht0, _⟩ := hback p t c' hp
    exact h.classes a c p v (hvote a c p v hv) t0 c' ht0
  · obtain ⟨t0, ht0, _⟩ := hback p t c hp
    exact h.ongoing p t0 c ht0

end Steps

end ConvictionVoting
