import RostroModel.Coretime.Chain

namespace Coretime

open Broker (CoreAssignment)

variable {core core' : Core} {x y e : Accepted} {l r : List Accepted}

-- A run of one core: the block of the last advance, and what was accepted so far.
structure Log where
  core : Core := {}
  now : Nat
  accepted : List Accepted := []

inductive Op
  | assign (block lookahead begin : Nat) (assignments : List (CoreAssignment × Nat))
    (endHint : Option Nat)
  | advance

def Op.run (log : Log) : Op → Log
  | .assign block lookahead begin assignments endHint =>
    match log.core.assign block lookahead begin assignments endHint with
    | .ok core => { log with
      core
      accepted := accept log.accepted ⟨log.core.adjustedBegin block lookahead begin,
        assignments, endHint⟩ }
    | .error _ => log
  | .advance => { log with core := (log.core.advance true (log.now + 1)).1, now := log.now + 1 }

-- There is one advance per block, and the configuration has a lookahead.
def Op.Timely (log : Log) : Op → Prop
  | .assign block lookahead _ _ _ => (block = log.now ∨ block = log.now + 1) ∧ 1 ≤ lookahead
  | .advance => True

-- What is accepted begins after all schedules that were taken out of the queue, and a schedule that
-- has ended before it is looked at is the last one.
def Op.Careful (log : Log) : Op → Prop
  | .assign block lookahead begin _ _ => ∀ e ∈ log.accepted, log.core.schedules e.begin = none →
    e.begin < log.core.adjustedBegin block lookahead begin
  | .advance => Steady (log.now + 1) log.core

-- The work in force is the accepted schedule that has begun last, if it is still good.
structure InForce (now : Nat) (accepted : List Accepted) (work : Option WorkState) : Prop where
  latest : ∀ e ∈ accepted, e.begin ≤ now →
    (∀ e' ∈ accepted, e'.begin ≤ now → e'.begin ≤ e.begin) → Serves now work e
  none : (∀ e ∈ accepted, now < e.begin) → work = none

-- The schedules that were taken out of the queue come before those that are in it.
structure Split (log : Log) (done waiting : List Accepted) : Prop where
  accepted : log.accepted = done ++ waiting
  queued : Queued log.core waiting
  ordered : Increasing (done ++ waiting)
  past : ∀ e ∈ done, e.begin ≤ log.now
  later : ∀ e ∈ waiting.tail, log.now + 2 ≤ e.begin
  work : ∀ e, done.getLast? = some e → Serves log.now log.core.currentWork e
  idle : done = [] → log.core.currentWork = none

theorem acceptLast_append {y : Accepted} :
    acceptLast y (done ++ x :: r) e = y :: (done ++ acceptLast x r e) := by
  induction done generalizing y with
  | nil => rfl
  | cons d ds hi =>
    rw [List.cons_append, acceptLast, hi]
    rfl

theorem accept_append : accept (done ++ x :: r) e = done ++ accept (x :: r) e := by
  cases done with
  | nil => rfl
  | cons d ds => exact acceptLast_append

theorem accept_new (h : ∀ d ∈ done, d.begin < e.begin) : accept done e = done ++ [e] := by
  obtain rfl | ⟨init, d, rfl⟩ := done.eq_nil_or_concat'
  · rfl
  · have hd := h d (List.mem_append_right init (List.mem_singleton_self d))
    rw [accept_append, accept, acceptLast, if_neg (Nat.ne_of_lt hd), List.append_assoc]
    rfl

theorem mem_tail_acceptLast (h : z ∈ (acceptLast x r e).tail) : z ∈ r ∨ z.begin = e.begin := by
  cases r with
  | nil =>
    unfold acceptLast at h
    split_ifs at h
    · cases h
    · rw [List.mem_singleton.mp h]
      exact .inr rfl
  | cons y r => exact (mem_acceptLast h).imp_right And.left

theorem mem_accept (h : z ∈ accept l e) :
    z ∈ l ∨ z.begin = e.begin ∧ (z = e ∨ ∃ y ∈ l, z = y.merge e) := by
  cases l with
  | nil =>
    rw [List.mem_singleton.mp h]
    exact .inr ⟨rfl, .inl rfl⟩
  | cons x r => exact mem_acceptLast h

theorem claimQueueEnd_le (hq : Queued core (x :: r))
    (hle : lastOf x r ≤ core.adjustedBegin block lookahead begin) :
    block + 1 + lookahead ≤ core.adjustedBegin block lookahead begin := by
  have hqueue : core.queue = some ⟨x.begin, lastOf x r⟩ := hq.queue
  have hlast : x.begin ≤ lastOf x r := le_lastOf hq.ordered x List.mem_cons_self
  unfold Core.adjustedBegin Core.hasAssignmentsUntil at hle ⊢
  dsimp only at hle ⊢
  rw [hqueue] at hle ⊢
  split_ifs at hle ⊢ with h
  · exact Nat.le_refl _
  · by_cases hx : x.begin < block + 1 + lookahead
    · simp [hx] at h
      exact h
    · omega

theorem Split.assign (h : Split log done waiting)
    (ht : (Op.assign block lookahead begin assignments endHint).Timely log)
    (hc : (Op.assign block lookahead begin assignments endHint).Careful log) :
    ∃ waiting', Split ((Op.assign block lookahead begin assignments endHint).run log) done
      waiting' := by
  cases hok : log.core.assign block lookahead begin assignments endHint with
  | error e =>
    rw [Op.run, hok]
    exact ⟨waiting, h⟩
  | ok core' =>
    obtain ⟨hq', hwork, hlast⟩ := assign_queued h.queued hok
    rw [Op.run, hok]
    generalize he : (⟨log.core.adjustedBegin block lookahead begin, assignments, endHint⟩ :
      Accepted) = e at hq' hlast ⊢
    have hbegin : e.begin = log.core.adjustedBegin block lookahead begin := by rw [← he]
    obtain ⟨hdone, _, hbetween⟩ := List.pairwise_append.mp h.ordered
    have hafter : ∀ d ∈ done, d.begin < e.begin := by
      intro d hd
      rw [hbegin]
      apply hc d (by rw [h.accepted]; exact List.mem_append_left _ hd)
      rw [h.queued.schedules]
      exact stored_eq_none fun w hw => Nat.ne_of_gt (hbetween d hd w hw)
    refine ⟨accept waiting e, ⟨?_, hq', ?_, h.past, ?_, ?_, ?_⟩⟩
    · change accept log.accepted e = _
      rw [h.accepted]
      cases waiting with
      | nil => rw [List.append_nil, accept_new hafter]; rfl
      | cons x r => exact accept_append
    · refine List.pairwise_append.mpr ⟨hdone, hq'.ordered, fun d hd z hz => ?_⟩
      rcases mem_accept hz with hw | ⟨heq, _⟩
      · exact hbetween d hd z hw
      · rw [heq]
        exact hafter d hd
    · cases waiting with
      | nil => exact fun z hz => by cases hz
      | cons x r =>
        intro z hz
        have hend := claimQueueEnd_le h.queued (hbegin ▸ hlast x r rfl)
        rcases mem_tail_acceptLast hz with hw | heq
        · exact h.later z hw
        · obtain ⟨hblock, hlook⟩ := ht
          change log.now + 2 ≤ _
          omega
    · change ∀ e, done.getLast? = some e → Serves log.now core'.currentWork e
      rw [hwork]
      exact h.work
    · intro hd
      exact hwork.trans (h.idle hd)

theorem goodAt_mono (hle : now ≤ later) (h : goodAt later hint = true) :
    goodAt now hint = true := by
  cases hint with
  | none => rfl
  | some n =>
    simp only [goodAt, Option.all_some, decide_eq_true_eq] at h ⊢
    omega

theorem Serves.dropExpired (hle : now ≤ later)
    (h : Serves now work e) : Serves later (Core.dropExpired later work) e := by
  unfold Serves at h ⊢
  by_cases hl : goodAt later e.endHint = true
  · rw [if_pos (goodAt_mono hle hl)] at h
    obtain ⟨w, rfl, hw⟩ := h
    rw [if_pos hl]
    refine ⟨w, ?_, hw⟩
    simp [Core.dropExpired, hw.endHint, hl]
  · rw [if_neg hl]
    split_ifs at h with hn
    · obtain ⟨w, rfl, hw⟩ := h
      simp [Core.dropExpired, hw.endHint, hl]
    · rw [h]
      rfl

theorem advance_spec {now : Nat} :
    (core.advance true now).1.queue = (core.ensureWorkload true now).queue ∧
    (core.advance true now).1.schedules = (core.ensureWorkload true now).schedules ∧
    (∀ e, Serves now (core.ensureWorkload true now).currentWork e →
      Serves now (core.advance true now).1.currentWork e) ∧
    ((core.ensureWorkload true now).currentWork = none →
      (core.advance true now).1.currentWork = none) ∧
    ∀ w', (core.advance true now).1.currentWork = some w' →
      ∃ w, (core.ensureWorkload true now).currentWork = some w ∧ ∀ e, w.Runs e → w'.Runs e := by
  unfold Core.advance
  dsimp only
  cases hw : (core.ensureWorkload true now).currentWork with
  | none =>
    exact ⟨rfl, rfl, fun e h => by dsimp only; rw [hw]; exact h, fun _ => hw, fun w h =>
      ⟨w, hw ▸ h, fun _ => id⟩⟩
  | some w =>
    refine ⟨rfl, rfl, fun e h => ?_, nofun, fun w' h => ?_⟩
    case refine_2 =>
      cases h
      exact ⟨w, rfl, fun e hr => hr.serve⟩
    unfold Serves at h ⊢
    split_ifs at h ⊢ with hg
    obtain ⟨w', heq, hr⟩ := h
    obtain rfl := Option.some.inj heq
    exact ⟨_, rfl, hr.serve⟩

theorem Split.advance (h : Split log done waiting) (hc : Op.advance.Careful log) :
    ∃ done' waiting', Split (Op.advance.run log) done' waiting' ∧ ∀ e ∈ waiting',
      log.now + 1 < e.begin := by
  obtain ⟨hqueue, hsched, hserve, hnone, _⟩ := @advance_spec log.core (log.now + 1)
  have hqueued : ∀ {l}, Queued (log.core.ensureWorkload true (log.now + 1)) l →
      Queued (log.core.advance true (log.now + 1)).1 l :=
    fun hq => ⟨hsched.trans hq.schedules, hqueue.trans hq.queue, hq.ordered⟩
  -- Nothing is taken out of the queue.
  have hkeep (hw : ∀ e ∈ waiting.head?, log.now + 1 < e.begin) : ∃ done' waiting',
      Split (Op.advance.run log) done' waiting' ∧ ∀ e ∈ waiting', log.now + 1 < e.begin := by
    obtain ⟨hq, hwork⟩ := ensureWorkload_waiting h.queued hw
    have hall : ∀ e ∈ waiting, log.now + 1 < e.begin := by
      intro e he
      cases waiting with
      | nil => cases he
      | cons x r =>
        rcases List.mem_cons.mp he with rfl | he
        · exact hw e rfl
        · exact (hw x rfl).trans ((List.pairwise_cons.mp h.queued.ordered).1 e he)
    refine ⟨done, waiting, ⟨h.accepted, hqueued hq, h.ordered, ?_, ?_, ?_, ?_⟩, hall⟩
    · exact fun e he => (h.past e he).trans (Nat.le_succ _)
    · intro e he
      cases waiting with
      | nil => cases he
      | cons x r =>
        have := hw x rfl
        have := (List.pairwise_cons.mp h.queued.ordered).1 e he
        change log.now + 1 + 2 ≤ _
        omega
    · intro e he
      apply hserve
      rw [hwork]
      exact (h.work e he).dropExpired (Nat.le_succ _)
    · intro hd
      apply hnone
      rw [hwork, h.idle hd]
      rfl
  cases waiting with
  | nil => exact hkeep (fun e he => by cases he)
  | cons x r =>
    by_cases hx : x.begin ≤ log.now + 1
    · obtain ⟨hq, hserves⟩ := ensureWorkload_started h.queued hx hc
      obtain ⟨hxr, hr⟩ := List.pairwise_cons.mp h.queued.ordered
      refine ⟨done ++ [x], r, ⟨?_, hqueued hq, ?_, ?_, ?_, ?_, ?_⟩, fun e he => ?_⟩
      · rw [List.append_assoc]
        exact h.accepted
      · rw [List.append_assoc]
        exact h.ordered
      · intro e he
        rcases List.mem_append.mp he with he | he
        · exact (h.past e he).trans (Nat.le_succ _)
        · rw [List.mem_singleton.mp he]
          exact hx
      · intro e he
        cases r with
        | nil => cases he
        | cons y r =>
          have := h.later y List.mem_cons_self
          have := (List.pairwise_cons.mp hr).1 e he
          change log.now + 1 + 2 ≤ _
          omega
      · intro e he
        rw [List.getLast?_concat] at he
        obtain rfl := Option.some.inj he
        exact hserve _ hserves
      · intro hnil
        exact absurd hnil (by simp)
      · have := h.later e he
        omega
    · apply hkeep
      intro e he
      cases he
      omega

-- All that was accepted for a block, in this order.
def requestedAt (accepted : List Accepted) (b : Nat) : List (CoreAssignment × Nat) :=
  (accepted.filter (·.begin = b)).flatMap (·.assignments)

def Requested (accepted : List Accepted) (e : Accepted) : Prop :=
  e.assignments.Sublist (requestedAt accepted e.begin)

-- Each schedule of the queue, and the one that is the work, has nothing but what
-- was accepted for its block.
structure Unmixed (log : Log) (l : List Accepted) : Prop where
  queued : Queued log.core l
  requested : ∀ z ∈ l, Requested log.accepted z
  work : ∀ w, log.core.currentWork = some w → ∃ z, w.Runs z ∧ Requested log.accepted z

theorem requestedAt_single (h : e.begin = b) : requestedAt [e] b = e.assignments := by
  simp [requestedAt, h]

theorem requestedAt_cons : requestedAt (x :: l) b = requestedAt [x] b ++ requestedAt l b := by
  by_cases hx : x.begin = b <;> simp [requestedAt, hx]

theorem requestedAt_acceptLast :
    requestedAt (acceptLast x r e) b = requestedAt (x :: r) b ++ requestedAt [e] b := by
  induction r generalizing x with
  | nil =>
    rw [acceptLast]
    split
    case isTrue he => by_cases hb : e.begin = b <;> simp [requestedAt, Accepted.merge, he, hb]
    case isFalse => exact requestedAt_cons
  | cons y r hi => rw [acceptLast, requestedAt_cons, hi, ← List.append_assoc, ← requestedAt_cons]

theorem requestedAt_accept : requestedAt (accept l e) b = requestedAt l b ++ requestedAt [e] b := by
  cases l with
  | nil => rfl
  | cons x r => exact requestedAt_acceptLast

theorem Requested.accept (h : Requested l z) : Requested (accept l e) z := by
  rw [Requested, requestedAt_accept]
  exact h.trans (List.sublist_append_left _ _)

theorem Unmixed.run {log : Log} (h : Unmixed log l) (op : Op) : ∃ r, Unmixed (op.run log) r := by
  cases op with
  | assign block lookahead begin assignments endHint =>
    cases hok : log.core.assign block lookahead begin assignments endHint with
    | error e =>
      rw [Op.run, hok]
      exact ⟨l, h⟩
    | ok core' =>
      obtain ⟨hq, hwork, _⟩ := assign_queued h.queued hok
      rw [Op.run, hok]
      refine ⟨_, hq, fun z hz => ?_, fun w hw => ?_⟩
      · rcases mem_accept hz with hz | ⟨hb, hz⟩
        · exact (h.requested z hz).accept
        rw [Requested, requestedAt_accept, requestedAt_single hb.symm]
        rcases hz with rfl | ⟨y, hy, rfl⟩
        · exact List.sublist_append_right _ _
        · exact (h.requested y hy).append (List.Sublist.refl _)
      · have ⟨z, hr, hz⟩ := h.work w (hwork ▸ hw)
        exact ⟨z, hr, hz.accept⟩
  | advance =>
    obtain ⟨r, hr, hsub, hens⟩ := @ensureWorkload_queued _ _ (log.now + 1) h.queued
    obtain ⟨hqueue, hsched, _, _, hserved⟩ := @advance_spec log.core (log.now + 1)
    refine ⟨r, ⟨hsched.trans hr.schedules, hqueue.trans hr.queue, hr.ordered⟩,
      fun z hz => h.requested z (hsub hz), fun w' hw' => ?_⟩
    have ⟨w, hw, hruns⟩ := hserved w' hw'
    rcases hens w hw with hw | ⟨z, hz, hr⟩
    · have ⟨z, hr, hz⟩ := h.work w hw
      exact ⟨z, hruns z hr, hz⟩
    · exact ⟨z, hruns z hr, h.requested z hz⟩

def Log.runs (log : Log) (ops : List Op) : Log :=
  ops.foldl Op.run log

def CarefulRun : Log → List Op → Prop
  | _, [] => True
  | log, op :: ops => op.Timely log ∧ op.Careful log ∧ CarefulRun (op.run log) ops

theorem Unmixed.runs {log : Log} (h : Unmixed log l) (ops : List Op) :
    ∃ r, Unmixed (log.runs ops) r := by
  induction ops generalizing log l with
  | nil => exact ⟨l, h⟩
  | cons op ops hi =>
    obtain ⟨r, hr⟩ := h.run op
    exact hi hr

theorem unmixed_start {t : Nat} : Unmixed { now := t } [] :=
  ⟨⟨rfl, rfl, List.Pairwise.nil⟩, nofun, nofun⟩

theorem carefulRun_append :
    CarefulRun log (ops ++ ops') ↔ CarefulRun log ops ∧ CarefulRun (log.runs ops) ops' := by
  induction ops generalizing log with
  | nil => exact (iff_of_eq (true_and _)).symm
  | cons op ops hi =>
    rw [List.cons_append, CarefulRun, CarefulRun, hi, and_assoc, and_assoc]
    rfl

theorem runs_split (h : Split log done waiting)
    (hc : CarefulRun log ops) : ∃ done' waiting', Split (log.runs ops) done' waiting' := by
  induction ops generalizing log done waiting with
  | nil => exact ⟨done, waiting, h⟩
  | cons op ops hi =>
    obtain ⟨ht, hop, hc⟩ := hc
    cases op with
    | assign block lookahead begin assignments endHint =>
      obtain ⟨waiting', h'⟩ := h.assign ht hop
      exact hi h' hc
    | advance =>
      obtain ⟨done', waiting', h', _⟩ := h.advance hop
      exact hi h' hc

theorem split_start {t : Nat} : Split { now := t } [] [] where
  accepted := rfl
  queued := ⟨rfl, rfl, List.Pairwise.nil⟩
  ordered := List.Pairwise.nil
  past := fun e he => by cases he
  later := fun e he => by cases he
  work := fun e he => by cases he
  idle := fun _ => rfl

theorem Split.inForce (h : Split log done waiting)
    (hw : ∀ e ∈ waiting, log.now < e.begin) :
    InForce log.now log.accepted log.core.currentWork := by
  rw [h.accepted]
  obtain rfl | ⟨init, d, rfl⟩ := done.eq_nil_or_concat'
  · constructor
    · intro e he hle _
      exact absurd (hw e he) (not_lt.mpr hle)
    · exact fun _ => h.idle rfl
  · have hd : d ∈ init ++ [d] := List.mem_append_right init (List.mem_singleton_self d)
    have hpast : d.begin ≤ log.now := h.past d hd
    constructor
    · intro e he hle hmax
      rcases List.mem_append.mp he with hdone | hwait
      · rcases List.mem_append.mp hdone with hinit | hlast
        · have hlt : e.begin < d.begin :=
            (List.pairwise_append.mp (List.pairwise_append.mp h.ordered).1).2.2 e hinit d
              (List.mem_singleton_self d)
          exact absurd (hmax d (List.mem_append_left _ hd) hpast) (not_le.mpr hlt)
        · rw [List.mem_singleton.mp hlast]
          exact h.work d List.getLast?_concat
      · exact absurd (hw e hwait) (not_lt.mpr hle)
    · exact fun hnone => absurd (hnone d (List.mem_append_left _ hd)) (not_lt.mpr hpast)

-- The queue is a chain in every run. In a careful run it is what is left of the accepted schedules,
-- and after each advance the schedule that has begun last is in force.
theorem schedules_in_force {t : Nat} {ops : List Op} :
    (∃ waiting, Queued (Log.runs { now := t } ops).core waiting) ∧
    (CarefulRun { now := t } ops →
      (∃ done waiting, (Log.runs { now := t } ops).accepted = done ++ waiting ∧
        Queued (Log.runs { now := t } ops).core waiting) ∧
      (ops.getLast? = some .advance →
        InForce (Log.runs { now := t } ops).now (Log.runs { now := t } ops).accepted
          (Log.runs { now := t } ops).core.currentWork)) := by
  refine ⟨(unmixed_start.runs ops).imp fun _ => Unmixed.queued, fun hc => ⟨?_, fun hlast => ?_⟩⟩
  · obtain ⟨done, waiting, h⟩ := runs_split split_start hc
    exact ⟨done, waiting, h.accepted, h.queued⟩
  · obtain ⟨before, rfl⟩ := List.getLast?_eq_some_iff.mp hlast
    obtain ⟨hc, _, hsteady, _⟩ := carefulRun_append.mp hc
    obtain ⟨done, waiting, h⟩ := runs_split split_start hc
    obtain ⟨done', waiting', h', hw⟩ := h.advance hsteady
    rw [Log.runs, List.foldl_append]
    exact h'.inForce hw

-- A task from block 2 on, and another one from block 10 on.
def sampleOps : List Op :=
  [.assign 0 1 2 [(.task 1, 57600)] none, .assign 0 1 10 [(.task 2, 57600)] (some 20),
    .advance, .advance]

theorem sampleOps_careful : CarefulRun { now := 0 } sampleOps := by
  refine ⟨⟨.inl rfl, Nat.le_refl 1⟩, ?_, ⟨.inl rfl, Nat.le_refl 1⟩, ?_, trivial, ?_,
    trivial, ?_, trivial⟩
  · intro e he
    cases he
  · intro e he hnone
    rw [List.mem_singleton.mp he] at hnone
    cases hnone
  · intro queue s hq hle _ _
    obtain rfl : ⟨2, 10⟩ = queue := Option.some.inj hq
    cases Nat.le_of_succ_le_succ hle
  · intro queue s hq _ hs hgood
    obtain rfl : ⟨2, 10⟩ = queue := Option.some.inj hq
    obtain rfl : ⟨[(.task 1, 57600)], none, some 10⟩ = s := Option.some.inj hs
    cases hgood

theorem sampleOps_in_force : CarefulRun { now := 0 } sampleOps ∧
    InForce 2 [⟨2, [(.task 1, 57600)], none⟩, ⟨10, [(.task 2, 57600)], some 20⟩]
      (Log.runs { now := 0 } sampleOps).core.currentWork :=
  ⟨sampleOps_careful, (schedules_in_force.2 sampleOps_careful).2 rfl⟩

-- The first schedule ends before it begins. When its block comes, the next one is taken,
-- which is to begin at block 100.
def sampleSkip : List Op :=
  [.assign 0 1 3 [(.task 1, 57600)] (some 2), .assign 0 1 100 [(.task 2, 57600)] none,
    .advance, .advance, .advance]

theorem sampleSkip_early :
    (Log.runs { now := 0 } sampleSkip).now = 3 ∧
    (Log.runs { now := 0 } sampleSkip).accepted =
      [⟨3, [(.task 1, 57600)], some 2⟩, ⟨100, [(.task 2, 57600)], none⟩] ∧
    (∃ w, (Log.runs { now := 0 } sampleSkip).core.currentWork = some w ∧
      w.Runs ⟨100, [(.task 2, 57600)], none⟩) ∧
    ¬ InForce 3 [⟨3, [(.task 1, 57600)], some 2⟩, ⟨100, [(.task 2, 57600)], none⟩]
      (Log.runs { now := 0 } sampleSkip).core.currentWork := by
  refine ⟨rfl, rfl, ⟨_, rfl, rfl, rfl⟩, fun h => ?_⟩
  have hnone := h.latest ⟨3, [(.task 1, 57600)], some 2⟩ List.mem_cons_self
    (Nat.le_refl 3) (by decide)
  cases hnone

def parts (assignments : List (CoreAssignment × Nat)) : Nat :=
  (assignments.map Prod.snd).sum

theorem Requested.parts_le (h : Requested l z) (hle : ∀ b, parts (requestedAt l b) ≤ fullParts) :
    parts z.assignments ≤ fullParts :=
  ((h.map _).sum_le_sum fun _ _ => Nat.zero_le _).trans (hle z.begin)

-- A core is not over-committed if the schedules for each block are not, after
-- the adjustment of the blocks.
theorem never_overcommitted {t : Nat} (ops : List Op)
    (h : ∀ b, parts (requestedAt (Log.runs { now := t } ops).accepted b) ≤ fullParts) :
    (∀ b s, (Log.runs { now := t } ops).core.schedules b = some s →
      s.assignments.Sublist (requestedAt (Log.runs { now := t } ops).accepted b) ∧
        parts s.assignments ≤ fullParts) ∧
    ∀ w, (Log.runs { now := t } ops).core.currentWork = some w →
      ∃ e, w.Runs e ∧ Requested (Log.runs { now := t } ops).accepted e ∧
        parts e.assignments ≤ fullParts := by
  have ⟨l, hu⟩ := (@unmixed_start t).runs ops
  refine ⟨fun b s hs => ?_, fun w hw => ?_⟩
  · rw [hu.queued.schedules] at hs
    obtain ⟨e, he, rfl, hse⟩ := stored_eq_some hs
    rw [hse]
    exact ⟨hu.requested e he, (hu.requested e he).parts_le h⟩
  · have ⟨e, hr, he⟩ := hu.work w hw
    exact ⟨e, hr, he, he.parts_le h⟩

-- Two tasks share the core from block 2 on, by two calls. From block 3 on it is in the pool.
def sampleShared : List Op :=
  [.assign 0 1 2 [(.task 1, 28800)] none, .assign 0 1 2 [(.task 2, 28800)] none,
    .assign 0 1 3 [(.pool, 57600)] none, .advance, .advance]

theorem sampleShared_requested : parts (requestedAt
      [⟨2, [(.task 1, 28800), (.task 2, 28800)], none⟩, ⟨3, [(.pool, 57600)], none⟩] b) ≤
        fullParts := by
  by_cases h₂ : 2 = b
  · subst h₂
    decide
  by_cases h₃ : 3 = b
  · subst h₃
    decide
  simp [requestedAt, h₂, h₃, parts]

theorem sampleShared_committed :
    let log := Log.runs { now := 0 } sampleShared
    let next := Log.runs { now := 0 } (sampleShared ++ [.advance])
    (∃ s, log.core.schedules 3 = some s ∧ parts s.assignments ≤ fullParts) ∧
    (∃ w, log.core.currentWork = some w ∧ w.Runs ⟨2, [(.task 1, 28800), (.task 2, 28800)], none⟩ ∧
      ∃ e, w.Runs e ∧ Requested log.accepted e ∧ parts e.assignments ≤ fullParts) ∧
    ∃ w, next.core.currentWork = some w ∧ w.Runs ⟨3, [(.pool, 57600)], none⟩ ∧
      ∃ e, w.Runs e ∧ Requested next.accepted e ∧ parts e.assignments ≤ fullParts := by
  obtain ⟨hstored, hwork⟩ := never_overcommitted (t := 0) sampleShared
    fun b => sampleShared_requested
  obtain ⟨-, hnext⟩ := never_overcommitted (t := 0) (sampleShared ++ [Op.advance])
    fun b => sampleShared_requested
  exact ⟨⟨_, rfl, (hstored 3 _ rfl).2⟩, ⟨_, rfl, ⟨rfl, rfl⟩, hwork _ rfl⟩,
    ⟨_, rfl, ⟨rfl, rfl⟩, hnext _ rfl⟩⟩

-- Whole cores for blocks 2, 3 and 4. The last two are moved to the end of the
-- claim queue, where they meet.
def sampleMoved : List Op :=
  [.assign 0 10 2 [(.task 1, 57600)] none, .assign 0 10 3 [(.task 2, 57600)] none,
    .assign 0 10 4 [(.task 3, 57600)] none]

theorem sampleMoved_overcommitted :
    ∃ s, (Log.runs { now := 0 } sampleMoved).core.schedules 11 = some s ∧
    s.assignments = [(.task 2, 57600), (.task 3, 57600)] ∧ parts s.assignments = 2 * fullParts :=
  ⟨_, rfl, rfl, rfl⟩

end Coretime
