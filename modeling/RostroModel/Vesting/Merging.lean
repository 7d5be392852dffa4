import RostroModel.Library.Except
import RostroModel.Vesting.Info

namespace Vesting

open Machine
open List (map_cons sum_cons)
open Except (bind_eq_ok ensure)

inductive Error
  | notVesting
  | scheduleIndexOutOfBounds
  | atMaxVestingSchedules
  deriving DecidableEq

inductive VestingAction
  | passive
  | remove (index : Nat)
  | merge (index₁ index₂ : Nat)

namespace VestingAction

def shouldRemove (index : Nat) : VestingAction → Bool
  | passive => false
  | remove index₁ => index₁ = index
  | merge index₁ index₂ => index₁ = index ∨ index₂ = index

def pickSchedules (action : VestingAction) (schedules : List VestingInfo) : List VestingInfo :=
  schedules.zipIdx.filterMap fun s => if action.shouldRemove s.2 then none else some s.1

end VestingAction

def reportScheduleUpdates (w now : Nat) (schedules : List VestingInfo) (action : VestingAction) :
    List VestingInfo × Nat :=
  let filtered := (action.pickSchedules schedules).filter fun s => s.lockedAt w now ≠ 0
  (filtered, filtered.foldl (fun total s => saturatingAdd w total (s.lockedAt w now)) 0)

def execAction (w now : Nat) (schedules : List VestingInfo) (action : VestingAction) :
    Except Error (List VestingInfo × Nat) :=
  match action with
  | .merge index₁ index₂ => do
    let schedule₁ ← Except.okOr schedules[index₁]? .scheduleIndexOutOfBounds
    let schedule₂ ← Except.okOr schedules[index₂]? .scheduleIndexOutOfBounds
    let (schedules, lockedNow) := reportScheduleUpdates w now schedules action
    match mergeVestingInfo w now schedule₁ schedule₂ with
    | some newSchedule => return (schedules ++ [newSchedule],
      saturatingAdd w lockedNow (newSchedule.lockedAt w now))
    | none => return (schedules, lockedNow)
  | _ => return reportScheduleUpdates w now schedules action

-- The schedules of an account, none if there are none, and the lock on its balance.
structure Account where
  schedules : List VestingInfo
  lock : Nat
  deriving DecidableEq

namespace Account

def writeVesting (max : Nat) (schedules : List VestingInfo) (lockedNow : Nat) :
    Except Error Account := do
  Except.ensure (schedules.length ≤ max) .atMaxVestingSchedules
  return ⟨schedules, lockedNow⟩

def doVest (w max now : Nat) (account : Account) : Except Error Account := do
  Except.ensure (account.schedules ≠ []) .notVesting
  let (schedules, lockedNow) ← execAction w now account.schedules .passive
  writeVesting max schedules lockedNow

def mergeSchedules (w max now index₁ index₂ : Nat) (account : Account) : Except Error Account :=
  if index₁ = index₂ then
    return account
  else do
    Except.ensure (account.schedules ≠ []) .notVesting
    let (schedules, lockedNow) ← execAction w now account.schedules (.merge index₁ index₂)
    writeVesting max schedules lockedNow

end Account

-- What the schedules lock at a block.
def total (w : Nat) (schedules : List VestingInfo) (t : Nat) : Nat :=
  (schedules.map (·.lockedAt w t)).sum

-- Neither the blocks up to the bound nor the balances overflow together.
structure Fits (w bound : Nat) (schedules : List VestingInfo) : Prop where
  valid : ∀ s ∈ schedules, s.isValid
  start : ∀ s ∈ schedules, s.startingBlock ≤ bound
  sum : bound + (schedules.map (·.locked)).sum ≤ maxValue w

variable {w max bound now t : Nat} {l l' : List VestingInfo} {s s₁ s₂ : VestingInfo}
  {action : VestingAction}

section Sums

variable {f : VestingInfo → Nat} {p : Nat → Bool} {i j k : Nat}

theorem sum_picked :
    (((l.zipIdx k).filterMap fun s => if p s.2 then none else some s.1).map f).sum +
    ((l.zipIdx k).map fun s => if p s.2 then f s.1 else 0).sum = (l.map f).sum := by
  induction l generalizing k with
  | nil => rfl
  | cons x r hi =>
    have hr := @hi (k + 1)
    rw [List.zipIdx_cons, List.filterMap_cons, map_cons, map_cons, sum_cons, sum_cons]
    cases hp : p k
    · simp only [Bool.false_eq_true, if_false, map_cons, sum_cons]
      omega
    · simp only [if_true]
      omega

theorem sum_at :
    ((l.zipIdx k).map fun s => if i + k = s.2 then f s.1 else 0).sum = (l[i]?.map f).getD 0 := by
  induction l generalizing i k with
  | nil => rfl
  | cons x r hi =>
    rw [List.zipIdx_cons, map_cons, sum_cons]
    cases i with
    | zero =>
      have hnone : ((r.zipIdx (k + 1)).map fun s => if 0 + k = s.2 then f s.1 else 0).sum = 0 := by
        apply List.sum_eq_zero
        intro y hy
        obtain ⟨s, hs, rfl⟩ := List.mem_map.mp hy
        have hle : k + 1 ≤ s.2 := List.le_snd_of_mem_zipIdx hs
        rw [if_neg (by omega)]
      rw [hnone]
      simp
    | succ i =>
      have hr := @hi i (k + 1)
      have hk : i + (k + 1) = i + 1 + k := by omega
      rw [hk] at hr
      rw [hr, if_neg (by omega), Nat.zero_add, List.getElem?_cons_succ]

theorem sum_pick_merge (hij : i ≠ j) (hi : l[i]? = some s₁) (hj : l[j]? = some s₂) :
    (((VestingAction.merge i j).pickSchedules l).map f).sum + (f s₁ + f s₂) = (l.map f).sum := by
  rw [← @sum_picked l f (fun index => (VestingAction.merge i j).shouldRemove index) 0]
  congr 1
  have h1 := @sum_at l f i 0
  have h2 := @sum_at l f j 0
  rw [hi, Option.map_some, Option.getD_some] at h1
  rw [hj, Option.map_some, Option.getD_some] at h2
  rw [← h1, ← h2, ← List.sum_map_add]
  congr 1
  apply List.map_congr_left
  intro x _
  simp only [VestingAction.shouldRemove]
  by_cases hx1 : i = x.2
  · have hx2 : ¬ j = x.2 := by omega
    simp [hx2]
  · simp [hx1]

end Sums

theorem pickSchedules_passive : VestingAction.passive.pickSchedules l = l := by
  rw [VestingAction.pickSchedules]
  simp [VestingAction.shouldRemove]

theorem mem_of_mem_pick (h : s ∈ action.pickSchedules l) : s ∈ l := by
  obtain ⟨x, hx, hs⟩ := List.mem_filterMap.mp h
  split_ifs at hs
  obtain rfl := Option.some.inj hs
  exact List.fst_mem_of_mem_zipIdx hx

section Totals

theorem total_append : total w (l ++ l') t = total w l t + total w l' t := by
  rw [total, List.map_append, List.sum_append]
  rfl

section

variable (h : ∀ s ∈ l, s.locked ≤ maxValue w)
include h

theorem total_le_locked : total w l t ≤ (l.map (·.locked)).sum :=
  List.sum_le_sum fun s hs => VestingInfo.lockedAt_le (h s hs)

theorem total_anti (ht : now ≤ t) : total w l t ≤ total w l now :=
  List.sum_le_sum fun s hs => VestingInfo.lockedAt_anti (h s hs) ht

theorem total_filter (ht : now ≤ t) :
    total w (l.filter fun s => s.lockedAt w now ≠ 0) t = total w l t := by
  induction l with
  | nil => rfl
  | cons x r hi =>
    have hr := hi fun s hs => h s (List.mem_cons_of_mem x hs)
    rw [List.filter_cons]
    by_cases hx : x.lockedAt w now = 0
    · have hle := VestingInfo.lockedAt_anti (h x List.mem_cons_self) ht
      have hzero : x.lockedAt w t = 0 := by omega
      rw [if_neg (by simpa using hx), hr, total, total, map_cons, sum_cons, hzero, Nat.zero_add]
    · rw [if_pos (by simpa using hx)]
      simp only [total, map_cons, sum_cons] at hr ⊢
      rw [hr]

end

theorem foldl_saturatingAdd (h : acc + total w l now ≤ maxValue w) :
    l.foldl (fun total s => saturatingAdd w total (s.lockedAt w now)) acc =
      acc + total w l now := by
  induction l generalizing acc with
  | nil => rfl
  | cons x r hi =>
    have hsum : total w (x :: r) now = x.lockedAt w now + total w r now := rfl
    rw [List.foldl_cons, saturatingAdd_of_le (by omega), hi (by omega), hsum, Nat.add_assoc]

end Totals

namespace Fits

section

variable (h : Fits w bound l)
include h

theorem locked_le (hs : s ∈ l) : bound + s.locked ≤ maxValue w := by
  have hle : s.locked ≤ (l.map (·.locked)).sum := List.le_sum_of_mem (List.mem_map_of_mem hs)
  have := h.sum
  omega

theorem locked : ∀ s ∈ l, s.locked ≤ maxValue w :=
  fun _ hs => (Nat.le_add_left _ _).trans (h.locked_le hs)

theorem single (hs : s ∈ l) : s.Fits w := by
  refine ⟨h.locked s hs, ?_⟩
  have hd := @VestingInfo.duration_le s
  have hv : s.locked ≠ 0 := (h.valid s hs).1
  have := h.start s hs
  have := h.locked_le hs
  omega

theorem total_le : total w l t ≤ maxValue w := by
  have := @total_le_locked w t l h.locked
  have := h.sum
  omega

theorem of_subset (hl : ∀ s ∈ l', s ∈ l)
    (hs : (l'.map (·.locked)).sum ≤ (l.map (·.locked)).sum) : Fits w bound l' where
  valid := fun s hs => h.valid s (hl s hs)
  start := fun s hs => h.start s (hl s hs)
  sum := (Nat.add_le_add_left hs bound).trans h.sum

theorem filter {p : VestingInfo → Bool} : Fits w bound (l.filter p) := by
  apply h.of_subset fun s hs => (List.mem_filter.mp hs).1
  exact (List.filter_sublist.map _).sum_le_sum (fun _ _ => Nat.zero_le _)

end

theorem report (h : Fits w bound (action.pickSchedules l)) : reportScheduleUpdates w now l action =
    ((action.pickSchedules l).filter fun s =>
      s.lockedAt w now ≠ 0, total w (action.pickSchedules l) now) := by
  rw [reportScheduleUpdates,
    foldl_saturatingAdd (by rw [Nat.zero_add]; exact h.filter.total_le), Nat.zero_add,
    total_filter h.locked (Nat.le_refl now)]

end Fits

namespace Account

variable {a a' b : Account} {i j start : Nat}

-- The lock covers what the schedules lock, and there is none without a schedule.
structure Sound (w max bound now : Nat) (a : Account) : Prop where
  fits : Fits w bound a.schedules
  length : a.schedules.length ≤ max
  covered : total w a.schedules now ≤ a.lock
  empty : a.schedules = [] → a.lock = 0

theorem Sound.mono (h : a.Sound w max bound start) (hn : start ≤ now) : a.Sound w max bound now :=
  ⟨h.fits, h.length, (total_anti h.fits.locked hn).trans h.covered, h.empty⟩

theorem writeVesting_eq (h : l.length ≤ max) :
    writeVesting max l lockedNow = .ok ⟨l, lockedNow⟩ := by
  rw [writeVesting, ensure, if_pos h]
  rfl

theorem doVest_eq (h : a.Sound w max bound now) (hne : a.schedules ≠ []) : a.doVest w max now =
    .ok ⟨a.schedules.filter fun s => s.lockedAt w now ≠ 0, total w a.schedules now⟩ := by
  have hfit : Fits w bound (VestingAction.passive.pickSchedules a.schedules) := by
    rw [pickSchedules_passive]
    exact h.fits
  have hlen : (a.schedules.filter fun s => s.lockedAt w now ≠ 0).length ≤ max :=
    (List.length_filter_le _ _).trans h.length
  have hexec : execAction w now a.schedules .passive =
      .ok (a.schedules.filter fun s => s.lockedAt w now ≠ 0, total w a.schedules now) := by
    change Except.ok (reportScheduleUpdates w now a.schedules .passive) = _
    rw [hfit.report, pickSchedules_passive]
  rw [doVest, ensure, if_pos hne, hexec]
  exact writeVesting_eq hlen

end Account

-- What merging two schedules of an account leaves.
theorem merge_cases (hf : Fits w bound l) (h1 : s₁ ∈ l) (h2 : s₂ ∈ l) (hn : now ≤ bound)
    (hs : s₁.locked + s₂.locked ≤ maxValue w) :
    (mergeVestingInfo w now s₁ s₂ = none ∧ ∀ t, now ≤ t → s₁.lockedAt w t + s₂.lockedAt w t = 0) ∨
    ∃ m, mergeVestingInfo w now s₁ s₂ = some m ∧ m.isValid ∧ m.startingBlock ≤ bound ∧
      m.locked ≤ s₁.locked + s₂.locked ∧
      ∀ t, now ≤ t → s₁.lockedAt w t + s₂.lockedAt w t ≤ m.lockedAt w t := by
  have hended : ∀ s ∈ l, s.endingBlockAsBalance w ≤ now → ∀ t, now ≤ t → s.lockedAt w t = 0 := by
    intro s hs he t ht
    rw [(hf.single hs).endingBlock] at he
    have hle := VestingInfo.lockedAt_le_mul (hf.locked s hs) (show s.startingBlock ≤ t by omega) he
    rw [Nat.sub_eq_zero_of_le ht, Nat.zero_mul] at hle
    exact Nat.le_zero.mp hle
  by_cases he1 : s₁.endingBlockAsBalance w ≤ now
  · by_cases he2 : s₂.endingBlockAsBalance w ≤ now
    · left
      refine ⟨if_pos ⟨he1, he2⟩, fun t ht => ?_⟩
      rw [hended s₁ h1 he1 t ht, hended s₂ h2 he2 t ht]
    · right
      refine ⟨s₂, ?_, hf.valid s₂ h2, hf.start s₂ h2, Nat.le_add_left _ _, fun t ht => ?_⟩
      · rw [mergeVestingInfo, if_neg (fun h => he2 h.2), if_pos he1]
      · rw [hended s₁ h1 he1 t ht, Nat.zero_add]
  · right
    by_cases he2 : s₂.endingBlockAsBalance w ≤ now
    · refine ⟨s₁, ?_, hf.valid s₁ h1, hf.start s₁ h1, Nat.le_add_right _ _, fun t ht => ?_⟩
      · rw [mergeVestingInfo, if_neg (fun h => he1 h.1), if_neg he1, if_pos he2]
      · rw [hended s₂ h2 he2 t ht, Nat.add_zero]
    · have hl1 := @VestingInfo.lockedAt_le w now s₁ (hf.locked s₁ h1)
      have hl2 := @VestingInfo.lockedAt_le w now s₂ (hf.locked s₂ h2)
      obtain ⟨m, hm, hv, hl, hst, _, hle⟩ :=
        merge_running (hf.single h1) (hf.single h2) (hf.valid s₁ h1)
        (hf.valid s₂ h2) (show s₁.lockedAt w now + s₂.lockedAt w now ≤ maxValue w by omega)
        (Nat.lt_of_not_le he1) (Nat.lt_of_not_le he2)
      have := hf.start s₁ h1
      have := hf.start s₂ h2
      exact ⟨m, hm, hv, by omega, by omega, hle⟩

namespace Account

variable {a a' b : Account} {i j start : Nat}

theorem mergeSchedules_cases (h : a.Sound w max bound now) (hn : now ≤ bound)
    (hm : a.mergeSchedules w max now i j = .ok a') : a' = a ∨
      (Fits w bound a'.schedules ∧ a'.schedules.length ≤ max ∧ a'.lock = total w a'.schedules now ∧
        ∀ t, now ≤ t → total w a.schedules t ≤ total w a'.schedules t) := by
  by_cases hij : i = j
  · rw [mergeSchedules, if_pos hij] at hm
    exact .inl (Except.ok.inj hm).symm
  right
  rw [mergeSchedules, if_neg hij] at hm
  obtain ⟨_, _, hm⟩ := bind_eq_ok.mp hm
  obtain ⟨out, hout, hm⟩ := bind_eq_ok.mp hm
  obtain ⟨_, hlen, hm⟩ := bind_eq_ok.mp hm
  obtain rfl := Except.ok.inj hm
  rw [Except.ensure_eq_ok] at hlen
  obtain ⟨s₁, hs1, hout⟩ := bind_eq_ok.mp hout
  obtain ⟨s₂, hs2, hout⟩ := bind_eq_ok.mp hout
  rw [Except.okOr_eq_ok] at hs1 hs2
  have hmem1 := List.mem_of_getElem? hs1
  have hmem2 := List.mem_of_getElem? hs2
  have hsum := @sum_pick_merge a.schedules s₁ s₂ (·.locked) i j hij hs1 hs2
  have htotal : ∀ t, total w ((VestingAction.merge i j).pickSchedules a.schedules) t +
      (s₁.lockedAt w t + s₂.lockedAt w t) = total w a.schedules t :=
    fun t => sum_pick_merge hij hs1 hs2
  have hfits := h.fits.sum
  have hpick : Fits w bound ((VestingAction.merge i j).pickSchedules a.schedules) :=
    h.fits.of_subset (fun s hs => mem_of_mem_pick hs) (by omega)
  rw [hpick.report] at hout
  generalize (VestingAction.merge i j).pickSchedules a.schedules = p at hpick htotal hsum hout
  rcases merge_cases h.fits hmem1 hmem2 hn (by omega) with ⟨hnone, hzero⟩ |
    ⟨m, hsome, hv, hst, hl, hle⟩
  · rw [hnone] at hout
    obtain rfl := Except.ok.inj hout
    refine ⟨hpick.filter, hlen, (total_filter hpick.locked (Nat.le_refl now)).symm, fun t ht => ?_⟩
    rw [total_filter hpick.locked ht, ← htotal t, hzero t ht]
    exact Nat.le_refl _
  · rw [hsome] at hout
    obtain rfl := Except.ok.inj hout
    have hsub : ((p.filter fun s => s.lockedAt w now ≠ 0).map (·.locked)).sum ≤
        (p.map (·.locked)).sum :=
      (List.filter_sublist.map _).sum_le_sum (fun _ _ => Nat.zero_le _)
    have hnew : Fits w bound ((p.filter fun s => s.lockedAt w now ≠ 0) ++ [m]) := by
      refine ⟨fun s hs => ?_, fun s hs => ?_, ?_⟩
      · rcases List.mem_append.mp hs with hs | hs
        · exact hpick.filter.valid s hs
        · rw [List.mem_singleton.mp hs]
          exact hv
      · rcases List.mem_append.mp hs with hs | hs
        · exact hpick.filter.start s hs
        · rw [List.mem_singleton.mp hs]
          exact hst
      · rw [List.map_append, List.sum_append, List.map_singleton, List.sum_singleton]
        omega
    have hadd : ∀ t, now ≤ t → total w ((p.filter fun s => s.lockedAt w now ≠ 0) ++ [m]) t =
        total w p t + m.lockedAt w t := by
      intro t ht
      rw [total_append, total_filter hpick.locked ht]
      rfl
    have hmax := @hnew.total_le w bound now
    refine ⟨hnew, hlen, ?_, fun t ht => ?_⟩
    · change saturatingAdd w _ _ = _
      rw [hadd now (Nat.le_refl now)] at hmax ⊢
      exact saturatingAdd_of_le hmax
    · rw [hadd t ht, ← htotal t]
      exact Nat.add_le_add_left (hle t ht) _

-- A call that fails changes nothing.
def settle (a : Account) : Except Error Account → Account
  | .ok a' => a'
  | .error _ => a

end Account

inductive Op
  | vest
  | merge (index₁ index₂ : Nat)

def Op.run (w max now : Nat) (a : Account) : Op → Account
  | vest => a.settle (a.doVest w max now)
  | merge i j => a.settle (a.mergeSchedules w max now i j)

-- Calls with the block in which they are made.
def runs (w max : Nat) : Account → List (Nat × Op) → Account
  | a, [] => a
  | a, op :: ops => runs w max (op.2.run w max op.1 a) ops

def Timed (bound : Nat) : Nat → List (Nat × Op) → Prop
  | _, [] => True
  | start, op :: r => start ≤ op.1 ∧ op.1 ≤ bound ∧ Timed bound op.1 r

-- The same calls, each merge replaced by a mere update of the lock.
def unmerged (ops : List (Nat × Op)) : List (Nat × Op) :=
  ops.map fun op => (op.1, .vest)

namespace Account

variable {a b : Account} {op : Op} {start : Nat}

-- The first account locks no less than the second one, now and later.
structure Ahead (w now : Nat) (a b : Account) : Prop where
  later : ∀ t, now ≤ t → total w b.schedules t ≤ total w a.schedules t
  lock : b.lock ≤ a.lock

section

variable (h : a.Sound w max bound now)
include h

theorem run_cases (hn : now ≤ bound) : op.run w max now a = a ∨
    (Fits w bound (op.run w max now a).schedules ∧ (op.run w max now a).schedules.length ≤ max ∧
      (op.run w max now a).lock = total w (op.run w max now a).schedules now ∧
      ∀ t, now ≤ t → total w a.schedules t ≤ total w (op.run w max now a).schedules t) := by
  cases op with
  | vest =>
    by_cases hne : a.schedules = []
    · left
      rw [Op.run, doVest, ensure, if_neg (not_not.mpr hne)]
      rfl
    · right
      rw [Op.run, doVest_eq h hne]
      refine ⟨h.fits.filter, (List.length_filter_le _ _).trans h.length, ?_, fun t ht => ?_⟩
      · exact (total_filter h.fits.locked (Nat.le_refl now)).symm
      · exact (total_filter h.fits.locked ht).ge
  | merge i j =>
    rw [Op.run]
    cases hm : a.mergeSchedules w max now i j with
    | error e => exact .inl rfl
    | ok a' => exact mergeSchedules_cases h hn hm

theorem Sound.run (hn : now ≤ bound) : (op.run w max now a).Sound w max bound now := by
  rcases @run_cases w max bound now a op h hn with heq | ⟨hf, hlen, hlock, _⟩
  · rw [heq]
    exact h
  · refine ⟨hf, hlen, hlock.ge, fun hnil => ?_⟩
    rw [hlock, hnil]
    rfl

theorem le_run (hn : now ≤ bound) (ht : now ≤ t) :
    total w a.schedules t ≤ total w (op.run w max now a).schedules t := by
  rcases @run_cases w max bound now a op h hn with heq | ⟨_, _, _, hle⟩
  · rw [heq]
  · exact hle t ht

theorem vest_lock : (Op.vest.run w max now a).lock = total w a.schedules now := by
  by_cases hne : a.schedules = []
  · rw [Op.run, doVest, ensure, if_neg (not_not.mpr hne)]
    change a.lock = _
    rw [h.empty hne, hne]
    rfl
  · rw [Op.run, doVest_eq h hne]
    rfl

theorem vest_total (ht : now ≤ t) :
    total w (Op.vest.run w max now a).schedules t = total w a.schedules t := by
  by_cases hne : a.schedules = []
  · rw [Op.run, doVest, ensure, if_neg (not_not.mpr hne)]
    rfl
  · rw [Op.run, doVest_eq h hne]
    exact total_filter h.fits.locked ht

end

theorem Ahead.run (h : Ahead w now a b) (ha : a.Sound w max bound now)
    (hb : b.Sound w max bound now) (hn : now ≤ bound) :
    Ahead w now (op.run w max now a) (Op.vest.run w max now b) := by
  constructor
  · intro t ht
    rw [vest_total hb ht]
    exact (h.later t ht).trans (le_run ha hn ht)
  · rw [vest_lock hb]
    calc total w b.schedules now ≤ total w a.schedules now := h.later now (Nat.le_refl now)
      _ ≤ total w (op.run w max now a).schedules now := le_run ha hn (Nat.le_refl now)
      _ ≤ (op.run w max now a).lock := (Sound.run ha hn).covered

theorem Ahead.runs (h : Ahead w start a b) (ha : a.Sound w max bound start)
    (hb : b.Sound w max bound start) (ho : Timed bound start ops) :
    (Vesting.runs w max b (unmerged ops)).lock ≤ (Vesting.runs w max a ops).lock ∧
    ∀ t, start ≤ t → (∀ op ∈ ops, op.1 ≤ t) →
      total w (Vesting.runs w max b (unmerged ops)).schedules t ≤
        total w (Vesting.runs w max a ops).schedules t := by
  induction ops generalizing a b start with
  | nil => exact ⟨h.lock, fun t ht _ => h.later t ht⟩
  | cons op r hi =>
    obtain ⟨hle, hn, ho⟩ := ho
    have h' : Ahead w op.1 a b := ⟨fun t ht => h.later t (hle.trans ht), h.lock⟩
    have ha' := ha.mono hle
    have hb' := hb.mono hle
    obtain ⟨hlock, htotal⟩ := hi (h'.run ha' hb' hn) (ha'.run hn) (hb'.run hn) ho
    exact ⟨hlock, fun t _ hall => htotal t (hall op List.mem_cons_self)
      fun op' hop' => hall op' (List.mem_cons_of_mem op hop')⟩

end Account

-- Merging keeps what is locked and locks no less later; so the lock of an account that merges is
-- never below that of the same account without merging.
theorem merging_never_early {w : Nat} :
    (∀ (s₁ s₂ : VestingInfo) (now : Nat), s₁.isValid → s₂.isValid → s₁.Fits w → s₂.Fits w →
      s₁.lockedAt w now + s₂.lockedAt w now ≤ maxValue w →
      now < s₁.endingBlockAsBalance w → now < s₂.endingBlockAsBalance w →
      ∃ m, mergeVestingInfo w now s₁ s₂ = some m ∧
        m.lockedAt w now = s₁.lockedAt w now + s₂.lockedAt w now ∧
        ∀ t, now ≤ t → s₁.lockedAt w t + s₂.lockedAt w t ≤ m.lockedAt w t) ∧
    (∀ (max bound start : Nat) (a : Account) (ops : List (Nat × Op)), a.Sound w max bound start →
      Timed bound start ops →
      (runs w max a (unmerged ops)).lock ≤ (runs w max a ops).lock ∧
      ∀ t, start ≤ t → (∀ op ∈ ops, op.1 ≤ t) →
        total w (runs w max a (unmerged ops)).schedules t ≤
          total w (runs w max a ops).schedules t) := by
  constructor
  · intro s₁ s₂ now hv₁ hv₂ hf₁ hf₂ hs h₁ h₂
    obtain ⟨m, hm, _, _, _, hnow, hle⟩ := merge_running hf₁ hf₂ hv₁ hv₂ hs h₁ h₂
    exact ⟨m, hm, hnow, hle⟩
  · intro max bound start a ops ha ho
    have hrefl : Account.Ahead w start a a := ⟨fun t _ => Nat.le_refl _, Nat.le_refl _⟩
    exact hrefl.runs ha ha ho

def sampleAccount : Account :=
  ⟨[⟨100, 10, 0⟩, ⟨70, 7, 5⟩], 170⟩

theorem sampleAccount_never_early :
    (∃ m, mergeVestingInfo 128 6 ⟨100, 10, 0⟩ ⟨70, 7, 5⟩ = some m ∧ m.lockedAt 128 6 = 103 ∧
      ∀ t, 6 ≤ t → VestingInfo.lockedAt 128 ⟨100, 10, 0⟩ t + VestingInfo.lockedAt 128 ⟨70, 7, 5⟩ t ≤
        m.lockedAt 128 t) ∧
    (runs 128 28 sampleAccount (unmerged [(6, .merge 0 1), (8, .vest)])).lock ≤
      (runs 128 28 sampleAccount [(6, .merge 0 1), (8, .vest)]).lock := by
  constructor
  · exact merging_never_early.1 ⟨100, 10, 0⟩ ⟨70, 7, 5⟩ 6 (by decide) (by decide)
      ⟨by decide, by decide⟩
      ⟨by decide, by decide⟩ (by decide) (by decide) (by decide)
  · refine (merging_never_early.2 28 1000 0 sampleAccount _ ⟨⟨?_, ?_, ?_⟩, ?_, ?_, ?_⟩ ?_).1
    · decide
    · decide
    · decide
    · decide
    · decide
    · decide
    · exact ⟨by decide, by decide, by decide, by decide, trivial⟩

end Vesting
