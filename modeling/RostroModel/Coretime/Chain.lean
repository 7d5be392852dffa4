import RostroModel.Coretime.Core

namespace Coretime

open Broker (CoreAssignment)
open List (mem_cons mem_cons_of_mem mem_cons_self pairwise_cons)
open Function (update update_comm update_idem update_of_ne update_self)

-- A schedule that was accepted, with the block from which on it is effective.
structure Accepted where
  begin : Nat
  assignments : List (CoreAssignment × Nat)
  endHint : Option Nat
  deriving DecidableEq

variable {core core' : Core} {x y e : Accepted} {l r : List Accepted}

def Accepted.merge (x e : Accepted) : Accepted :=
  ⟨x.begin, x.assignments ++ e.assignments, e.endHint⟩

-- What is accepted is appended, or added to the last schedule if that begins at the same block.
def acceptLast (x : Accepted) : List Accepted → Accepted → List Accepted
  | [], e => if x.begin = e.begin then [x.merge e] else [x, e]
  | y :: r, e => x :: acceptLast y r e

def accept : List Accepted → Accepted → List Accepted
  | [], e => [e]
  | x :: r, e => acceptLast x r e

def lastOf (x : Accepted) : List Accepted → Nat
  | [] => x.begin
  | y :: r => lastOf y r

-- How a list of schedules is stored, each with the begin of the next one.
def stored : List Accepted → Nat → Option Schedule
  | [] => fun _ => none
  | x :: r => update (stored r) x.begin (some ⟨x.assignments, x.endHint, r.head?.map (·.begin)⟩)

def descriptor : List Accepted → Option QueueDescriptor
  | [] => none
  | x :: r => some ⟨x.begin, lastOf x r⟩

def Increasing (l : List Accepted) : Prop :=
  l.Pairwise (·.begin < ·.begin)

-- The queue of a core is a chain, and nothing else is stored.
structure Queued (core : Core) (l : List Accepted) : Prop where
  schedules : core.schedules = stored l
  queue : core.queue = descriptor l
  ordered : Increasing l

theorem stored_eq_none (h : ∀ e ∈ l, e.begin ≠ b) : stored l b = none := by
  induction l with
  | nil => rfl
  | cons x r hi =>
    rw [stored, update_of_ne (Ne.symm (h x mem_cons_self))]
    exact hi fun e he => h e (mem_cons_of_mem x he)

theorem stored_eq_some (h : stored l b = some s) :
    ∃ e ∈ l, e.begin = b ∧ s.assignments = e.assignments := by
  induction l with
  | nil => cases h
  | cons x r hi =>
    by_cases hb : b = x.begin
    · rw [stored, hb, update_self] at h
      cases h
      exact ⟨x, mem_cons_self, hb.symm, rfl⟩
    · rw [stored, update_of_ne hb] at h
      have ⟨e, he, h⟩ := hi h
      exact ⟨e, mem_cons_of_mem x he, h⟩

theorem stored_first :
    stored (x :: r) x.begin = some ⟨x.assignments, x.endHint, r.head?.map (·.begin)⟩ := by
  rw [stored, update_self]

theorem stored_tail (h : Increasing (x :: r)) :
    update (stored (x :: r)) x.begin none = stored r := by
  rw [stored, update_idem]
  apply Function.update_eq_self_iff.mpr
  exact (stored_eq_none fun e he => Nat.ne_of_gt ((pairwise_cons.mp h).1 e he)).symm

theorem le_lastOf (h : Increasing (x :: r)) : ∀ e ∈ x :: r, e.begin ≤ lastOf x r := by
  induction r generalizing x with
  | nil =>
    intro e he
    rw [List.mem_singleton.mp he]
    exact Nat.le_refl _
  | cons y r hi =>
    obtain ⟨hx, hr⟩ := pairwise_cons.mp h
    intro e he
    rcases mem_cons.mp he with rfl | he
    · exact (Nat.le_of_lt (hx y mem_cons_self)).trans (hi hr y mem_cons_self)
    · exact hi hr e he

theorem linkLast_update {s : Nat → Option Schedule} {b last begin : Nat} (h : b ≠ last) :
    Core.linkLast (update s b v) last begin = update (Core.linkLast s last begin) b v := by
  unfold Core.linkLast
  split_ifs
  · rw [update_of_ne (Ne.symm h), update_comm (Ne.symm h)]
  · rfl

theorem putSchedule_update {s : Nat → Option Schedule} {b begin : Nat} (h : b ≠ begin) :
    Core.putSchedule (update s b v) begin as hint =
      update (Core.putSchedule s begin as hint) b v := by
  unfold Core.putSchedule
  rw [update_of_ne (Ne.symm h), update_comm (Ne.symm h)]

theorem acceptLast_ne_nil : ∃ z s, acceptLast x r e = z :: s ∧ z.begin = x.begin := by
  cases r with
  | nil =>
    unfold acceptLast
    split_ifs
    · exact ⟨_, _, rfl, rfl⟩
    · exact ⟨_, _, rfl, rfl⟩
  | cons y r => exact ⟨_, _, rfl, rfl⟩

theorem stored_acceptLast (h : Increasing (x :: r)) (hle : lastOf x r ≤ e.begin) :
    Core.putSchedule (Core.linkLast (stored (x :: r)) (lastOf x r) e.begin) e.begin
      e.assignments e.endHint = stored (acceptLast x r e) := by
  induction r generalizing x with
  | nil =>
    unfold acceptLast
    split_ifs with heq
    · rw [lastOf, Core.linkLast, Core.putSchedule]
      simp [stored, heq, Accepted.merge]
    · rw [lastOf] at hle ⊢
      rw [Core.linkLast, if_pos (by omega), Core.putSchedule]
      have hne : e.begin ≠ x.begin := Ne.symm heq
      simp only [stored, update_self, update_idem, update_of_ne hne]
      rw [update_comm hne]
      rfl
  | cons y r hi =>
    obtain ⟨hx, hr⟩ := pairwise_cons.mp h
    have hlast : y.begin ≤ lastOf y r := le_lastOf hr y mem_cons_self
    have hxy : x.begin < y.begin := hx y mem_cons_self
    obtain ⟨z, s, hz, hb⟩ := @acceptLast_ne_nil y e r
    have hle' : lastOf y r ≤ e.begin := hle
    rw [stored, lastOf, linkLast_update (by omega), putSchedule_update (by omega), hi hr hle,
      acceptLast, hz]
    change _ = update (stored (z :: s)) x.begin (some ⟨x.assignments, x.endHint, some z.begin⟩)
    rw [hb]
    rfl

theorem descriptor_acceptLast : descriptor (acceptLast x r e) = some ⟨x.begin, e.begin⟩ := by
  have hlast : ∀ {x z s}, acceptLast x r e = z :: s → lastOf z s = e.begin := by
    induction r with
    | nil =>
      intro x z s hz
      unfold acceptLast at hz
      split_ifs at hz with heq
      · obtain ⟨rfl, rfl⟩ := List.cons.inj hz
        exact heq
      · obtain ⟨rfl, rfl⟩ := List.cons.inj hz
        rfl
    | cons y r hi =>
      intro x z s hz
      obtain ⟨rfl, rfl⟩ := List.cons.inj hz
      obtain ⟨z, s, hz, _⟩ := @acceptLast_ne_nil y e r
      rw [hz]
      exact (hi hz : lastOf z s = e.begin)
  obtain ⟨z, s, hz, hb⟩ := @acceptLast_ne_nil x e r
  rw [hz, descriptor, hlast hz, hb]

theorem mem_acceptLast (h : z ∈ acceptLast x r e) :
    z ∈ x :: r ∨ z.begin = e.begin ∧ (z = e ∨ ∃ y ∈ x :: r, z = y.merge e) := by
  induction r generalizing x with
  | nil =>
    unfold acceptLast at h
    split_ifs at h with heq
    · rw [List.mem_singleton.mp h]
      exact .inr ⟨heq, .inr ⟨x, mem_cons_self, rfl⟩⟩
    · rcases mem_cons.mp h with rfl | h
      · exact .inl mem_cons_self
      · rw [List.mem_singleton.mp h]
        exact .inr ⟨rfl, .inl rfl⟩
  | cons y r hi =>
    rcases mem_cons.mp h with rfl | h
    · exact .inl mem_cons_self
    · rcases hi h with hw | ⟨heq, hz⟩
      · exact .inl (mem_cons_of_mem x hw)
      · exact .inr ⟨heq, hz.imp_right fun ⟨w, hw, hz⟩ => ⟨w, mem_cons_of_mem x hw, hz⟩⟩

theorem increasing_acceptLast (h : Increasing (x :: r)) (hle : lastOf x r ≤ e.begin) :
    Increasing (acceptLast x r e) := by
  induction r generalizing x with
  | nil =>
    unfold acceptLast
    split_ifs with heq
    · exact List.pairwise_singleton _ _
    · have hlt : x.begin < e.begin := Nat.lt_of_le_of_ne hle heq
      exact List.pairwise_pair.mpr hlt
  | cons y r hi =>
    obtain ⟨hx, hr⟩ := pairwise_cons.mp h
    refine pairwise_cons.mpr ⟨fun z hz => ?_, hi hr hle⟩
    have hlast : y.begin ≤ lastOf y r := le_lastOf hr y mem_cons_self
    have hxy : x.begin < y.begin := hx y mem_cons_self
    rcases mem_acceptLast hz with hw | ⟨heq, _⟩
    · exact hx z hw
    · have hle' : lastOf y r ≤ e.begin := hle
      omega

section Assign

variable {block lookahead begin : Nat} {assignments : List (CoreAssignment × Nat)}
  {endHint : Option Nat}

theorem assign_queued (hq : Queued core l)
    (h : core.assign block lookahead begin assignments endHint = .ok core') :
    let e : Accepted := ⟨core.adjustedBegin block lookahead begin, assignments, endHint⟩
    Queued core' (accept l e) ∧ core'.currentWork = core.currentWork ∧
      ∀ x r, l = x :: r → lastOf x r ≤ e.begin := by
  intro e
  rw [Core.assign, Except.bind_eq_ok] at h
  obtain ⟨_, _, h⟩ := h
  cases l with
  | nil =>
    have hnone : core.queue = none := hq.queue
    rw [hnone] at h
    obtain rfl := Except.ok.inj h
    refine ⟨⟨?_, rfl, List.pairwise_singleton _ _⟩, rfl, fun x r h => by cases h⟩
    change update core.schedules e.begin _ = _
    rw [hq.schedules]
    rfl
  | cons x r =>
    have hsome : core.queue = some ⟨x.begin, lastOf x r⟩ := hq.queue
    rw [hsome] at h
    rw [Except.bind_eq_ok] at h
    obtain ⟨_, hle, h⟩ := h
    have hle : lastOf x r ≤ e.begin := Except.ensure_eq_ok.mp hle
    obtain rfl := Except.ok.inj h
    refine ⟨⟨?_, ?_, increasing_acceptLast hq.ordered hle⟩, rfl, fun x' r' h => ?_⟩
    · change Core.putSchedule (Core.linkLast core.schedules (lastOf x r) e.begin)
        e.begin e.assignments
        e.endHint = _
      rw [hq.schedules]
      exact stored_acceptLast hq.ordered hle
    · exact (@descriptor_acceptLast x e r).symm
    · obtain ⟨rfl, rfl⟩ := List.cons.inj h
      exact hle

end Assign

section Workload

variable {now : Nat}

-- What is served has the assignments and the end of the schedule.
structure WorkState.Runs (w : WorkState) (e : Accepted) : Prop where
  assignments : w.assignments.map (fun a => (a.1, a.2.ratio)) = e.assignments
  endHint : w.endHint = e.endHint

theorem map_set_ratio {as : List (CoreAssignment × AssignmentState)} {i : Nat} {a : CoreAssignment}
    {s s' : AssignmentState} (h : as[i]? = some (a, s)) (hr : s'.ratio = s.ratio) :
    (as.set i (a, s')).map (fun a => (a.1, a.2.ratio)) = as.map fun a => (a.1, a.2.ratio) := by
  apply List.ext_getElem?
  intro j
  rw [List.getElem?_map, List.getElem?_map, List.getElem?_set]
  by_cases hij : i = j
  · subst hij
    have hlt : i < as.length := (List.getElem?_eq_some_iff.mp h).1
    rw [if_pos rfl, if_pos hlt, h, Option.map_some, Option.map_some, hr]
  · rw [if_neg hij]

theorem WorkState.Runs.serve {w : WorkState} (h : w.Runs e) : w.serve.1.Runs e := by
  unfold WorkState.serve
  dsimp only
  split
  · exact h
  case h_2 a s hs =>
    split_ifs
    · exact ⟨(map_set_ratio hs (by rfl)).trans h.assignments, h.endHint⟩
    · exact ⟨(map_set_ratio hs (by rfl)).trans h.assignments, h.endHint⟩

-- The work of a core is that of a schedule, as long as it is good.
def Serves (now : Nat) (work : Option WorkState) (e : Accepted) : Prop :=
  if goodAt now e.endHint then ∃ w, work = some w ∧ w.Runs e else work = none

theorem Schedule.work_runs {s : Schedule} (ha : s.assignments = e.assignments)
    (he : s.endHint = e.endHint) :
    s.work.Runs e := by
  refine ⟨?_, he⟩
  rw [Schedule.work, List.map_map, ← ha]
  exact List.map_id' _

-- The first schedule of the queue is not skipped unless it is the last one.
def Steady (now : Nat) (core : Core) : Prop :=
  ∀ queue s, core.queue = some queue → queue.first ≤ now → core.schedules queue.first = some s →
    goodAt now s.endHint = false → s.nextSchedule = none

theorem ensureWorkload_started (hq : Queued core (x :: r)) (hx : x.begin ≤ now)
    (hs : Steady now core) :
    Queued (core.ensureWorkload true now) r ∧
      Serves now (core.ensureWorkload true now).currentWork x := by
  have hfirst : core.schedules x.begin =
      some ⟨x.assignments, x.endHint, r.head?.map (·.begin)⟩ := by
    rw [hq.schedules, stored_first]
  have hr : Increasing r := (pairwise_cons.mp hq.ordered).2
  have hrest : update core.schedules x.begin none = stored r := by
    rw [hq.schedules]
    exact stored_tail hq.ordered
  have hlast : x.begin ≤ lastOf x r := le_lastOf hq.ordered x mem_cons_self
  obtain ⟨fuel, hfuel⟩ : ∃ fuel, lastOf x r + 1 - x.begin = fuel + 1 :=
    ⟨lastOf x r - x.begin, by omega⟩
  have hqueue : core.queue = some ⟨x.begin, lastOf x r⟩ := hq.queue
  unfold Core.ensureWorkload
  rw [hqueue]
  dsimp only
  rw [if_neg (not_lt.mpr hx), hfuel, Core.nextGood, hfirst]
  dsimp only
  rw [hrest]
  by_cases hgood : goodAt now x.endHint = true
  · rw [if_pos hgood]
    refine ⟨⟨rfl, ?_, hr⟩, ?_⟩
    · cases r <;> rfl
    · rw [Serves, if_pos hgood]
      exact ⟨_, rfl, Schedule.work_runs rfl rfl⟩
  · have hnone : r.head?.map (·.begin) = none := hs _ _ hqueue hx hfirst (by simpa using hgood)
    have hnil : r = [] := by
      cases r with
      | nil => rfl
      | cons y r => cases hnone
    subst hnil
    rw [if_neg hgood]
    refine ⟨⟨rfl, rfl, hr⟩, ?_⟩
    rw [Serves, if_neg hgood]
    rfl

theorem ensureWorkload_waiting (hq : Queued core l) (h : ∀ e ∈ l.head?, now < e.begin) :
    Queued (core.ensureWorkload true now) l ∧
      (core.ensureWorkload true now).currentWork = Core.dropExpired now core.currentWork := by
  unfold Core.ensureWorkload
  cases l with
  | nil =>
    have hqueue : core.queue = none := hq.queue
    rw [hqueue]
    exact ⟨⟨hq.schedules, rfl, hq.ordered⟩, rfl⟩
  | cons x r =>
    have hqueue : core.queue = some ⟨x.begin, lastOf x r⟩ := hq.queue
    rw [hqueue]
    dsimp only
    rw [if_pos (h x rfl)]
    exact ⟨⟨hq.schedules, rfl, hq.ordered⟩, rfl⟩

theorem nextGood_stored {fuel : Nat} (h : Increasing (x :: r)) (hf : lastOf x r < fuel + x.begin) :
    ∃ r', (Core.nextGood true now fuel x.begin (stored (x :: r))).2 = stored r' ∧
      Increasing r' ∧ r' ⊆ r ∧
      (((Core.nextGood true now fuel x.begin (stored (x :: r))).1.bind Schedule.nextSchedule).map
        fun first => ⟨first, lastOf x r⟩) = descriptor r' ∧
      ∀ s, (Core.nextGood true now fuel x.begin (stored (x :: r))).1 = some s →
        ∃ e ∈ x :: r, s.work.Runs e := by
  induction r generalizing x fuel with
  | nil =>
    have hx : x.begin ≤ lastOf x [] := le_lastOf h x mem_cons_self
    obtain ⟨fuel, rfl⟩ : ∃ n, fuel = n + 1 := ⟨fuel - 1, by omega⟩
    rw [Core.nextGood, stored_first]
    dsimp only
    rw [if_pos rfl, stored_tail h]
    split_ifs
    · refine ⟨[], rfl, List.Pairwise.nil, List.Subset.refl _, rfl, fun s hs => ?_⟩
      cases hs
      exact ⟨x, mem_cons_self, Schedule.work_runs rfl rfl⟩
    · exact ⟨[], rfl, List.Pairwise.nil, List.Subset.refl _, rfl, nofun⟩
  | cons y r hi =>
    have hx : x.begin ≤ lastOf x (y :: r) := le_lastOf h x mem_cons_self
    obtain ⟨fuel, rfl⟩ : ∃ n, fuel = n + 1 := ⟨fuel - 1, by omega⟩
    obtain ⟨hxr, hr⟩ := pairwise_cons.mp h
    have hxy : x.begin < y.begin := hxr y mem_cons_self
    rw [Core.nextGood, stored_first]
    dsimp only
    rw [stored_tail h]
    split
    case isTrue =>
      refine ⟨y :: r, rfl, hr, List.Subset.refl _, rfl, fun s hs => ?_⟩
      cases hs
      exact ⟨x, mem_cons_self, Schedule.work_runs rfl rfl⟩
    case isFalse =>
      have hf' : lastOf y r < fuel + y.begin := by
        rw [lastOf] at hf
        omega
      obtain ⟨r', hs, hi', hsub, hd, hw⟩ := hi hr hf'
      refine ⟨r', hs, hi', List.subset_cons_of_subset y hsub, hd, fun s hs => ?_⟩
      have ⟨e, he, hr⟩ := hw s hs
      exact ⟨e, mem_cons_of_mem x he, hr⟩

theorem ensureWorkload_queued (hq : Queued core l) :
    ∃ r, Queued (core.ensureWorkload true now) r ∧ r ⊆ l ∧
      ∀ w, (core.ensureWorkload true now).currentWork = some w →
        core.currentWork = some w ∨ ∃ e ∈ l, w.Runs e := by
  by_cases hw : ∀ e ∈ l.head?, now < e.begin
  · obtain ⟨hq, hwork⟩ := ensureWorkload_waiting hq hw
    refine ⟨l, hq, List.Subset.refl l, fun w h => .inl ?_⟩
    rw [hwork] at h
    exact (Option.filter_eq_some_iff.mp h).1
  cases l with
  | nil => exact absurd (fun e he => by cases he) hw
  | cons x r =>
    have hx : ¬ now < x.begin := fun hx => hw fun e he => by cases he; exact hx
    have hqueue : core.queue = some ⟨x.begin, lastOf x r⟩ := hq.queue
    have hf : lastOf x r < lastOf x r + 1 - x.begin + x.begin := by omega
    obtain ⟨r', hs, hr', hsub, hd, hw⟩ := @nextGood_stored _ _ now _ hq.ordered hf
    unfold Core.ensureWorkload
    rw [hqueue]
    dsimp only
    rw [if_neg hx, hq.schedules]
    refine ⟨r', ⟨hs, hd, hr'⟩, List.subset_cons_of_subset x hsub, fun w h => .inr ?_⟩
    obtain ⟨s, hs, rfl⟩ := Option.map_eq_some_iff.mp h
    exact hw s hs

end Workload

end Coretime

