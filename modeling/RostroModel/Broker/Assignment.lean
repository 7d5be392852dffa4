import RostroModel.Broker.Tick

namespace Broker

open List (map_append mem_append mem_map mem_singleton pairwise_append)

-- The items of the schedule use different parts of the core, and each uses some.
structure Exact (l : List ScheduleItem) : Prop where
  nonvoid : ∀ i ∈ l, i.mask ≠ 0#80
  disjoint : BitMask.Disjoints (l.map (·.mask))

namespace Exact

variable {l l' : List ScheduleItem} {i : ScheduleItem}

theorem nil : Exact [] :=
  ⟨by simp, List.Pairwise.nil⟩

theorem singleton (h : i.mask ≠ 0#80) : Exact [i] :=
  ⟨by simpa using h, List.pairwise_singleton _ _⟩

theorem filter (h : Exact l) (p : ScheduleItem → Bool) : Exact (l.filter p) where
  nonvoid i hi := h.nonvoid i (List.mem_filter.mp hi).1
  disjoint := h.disjoint.sublist (List.filter_sublist.map _)

theorem append (h : Exact l) (h' : Exact l') (hd : ∀ i ∈ l, ∀ j ∈ l', i.mask &&& j.mask = 0#80) :
    Exact (l ++ l') := by
  constructor
  · intro i hi
    rcases mem_append.mp hi with hi | hi
    · exact h.nonvoid i hi
    · exact h'.nonvoid i hi
  · rw [BitMask.Disjoints, map_append, pairwise_append]
    refine ⟨h.disjoint, h'.disjoint, ?_⟩
    simp only [mem_map, forall_exists_index, and_imp, forall_apply_eq_imp_iff₂]
    exact hd

theorem of_append (h : Exact (l ++ [i])) : ∀ j ∈ l, j.mask &&& i.mask = 0#80 := by
  have hd := h.disjoint
  rw [BitMask.Disjoints, map_append, pairwise_append] at hd
  intro j hj
  exact hd.2.2 _ (List.mem_map_of_mem hj) _ (by simp)

theorem push (h : Exact l) (hi : i.mask ≠ 0#80) (hd : ∀ j ∈ l, j.mask &&& i.mask = 0#80) :
    Exact (l ++ [i]) := by
  apply h.append (singleton hi)
  simpa using hd

theorem length_le (h : Exact l) : l.length ≤ 80 := by
  have hl := h.disjoint.length_le
  simp only [mem_map, forall_exists_index, and_imp, forall_apply_eq_imp_iff₂, List.length_map] at hl
  exact hl h.nonvoid

theorem length_lt (h : Exact l) (hi : i.mask ≠ 0#80) (hd : ∀ j ∈ l, j.mask &&& i.mask = 0#80) :
    l.length < 80 := by
  have hl := (h.push hi hd).length_le
  rwa [List.length_append] at hl

theorem outside {schedule : Schedule} (h : Exact schedule.toList) (mask : CoreMask) :
    Exact (Schedule.outside schedule mask).toList :=
  h.filter _

end Exact

theorem mem_outside {i : ScheduleItem}
    (h : i ∈ (Schedule.outside schedule mask).toList) : i.mask &&& mask = 0#80 := by
  have hi := (List.mem_filter.mp h).2
  exact of_decide_eq_true hi

theorem complete_ne_zero : CoreMask.complete ≠ 0#80 := by
  decide

theorem mergedWorkload_exact {plan load : Schedule} (hp : Exact plan.toList)
    (hl : Exact load.toList) :
    Exact (mergedWorkload plan load) := by
  apply hp.append (hl.filter _)
  intro i hi j hj
  have hv : j.mask &&& BitMask.union (plan.toList.map (·.mask)) = 0#80 :=
    of_decide_eq_true (List.mem_filter.mp hj).2
  rw [BitVec.and_comm]
  exact BitMask.and_union_eq_zero.mp hv i.mask (List.mem_map_of_mem hi)

section Parts

variable {l l' : List (CoreAssignment × Nat)} {i : CoreAssignment × Nat}

def partsSum (l : List (CoreAssignment × Nat)) : Nat :=
  (l.map Prod.snd).sum

@[simp]
theorem partsSum_nil : partsSum [] = 0 :=
  rfl

@[simp]
theorem partsSum_cons : partsSum (i :: l) = i.2 + partsSum l := by
  simp [partsSum]

@[simp]
theorem partsSum_append : partsSum (l ++ l') = partsSum l + partsSum l' := by
  simp [partsSum]

theorem totalUsed_eq (h : partsSum l ≤ Machine.maxValue 16) : totalUsed l = partsSum l := by
  have hf : ∀ n, n + partsSum l ≤ Machine.maxValue 16 →
      l.foldl (fun total i => Machine.saturatingAdd 16 total i.2) n = n + partsSum l := by
    clear h
    induction l
    case nil => intro n _; rfl
    case cons i l hi =>
      intro n hn
      rw [partsSum_cons] at hn ⊢
      rw [List.foldl_cons, Machine.saturatingAdd_of_le (by omega), hi _ (by omega)]
      omega
  rw [totalUsed, hf 0 (by omega), Nat.zero_add]

theorem partsSum_withIdle (h : partsSum l ≤ 57600) : partsSum (withIdle l) = 57600 := by
  have ht : totalUsed l = partsSum l := totalUsed_eq (h.trans (by decide))
  rw [withIdle]
  split_ifs with hl
  · rw [partsSum_append, partsSum_cons, partsSum_nil]
    omega
  · omega

-- The assignments that are collected have increasing ranks.
def Increasing (l : List (CoreAssignment × Nat)) : Prop :=
  (l.map fun i => i.1.rank).Pairwise (· < ·)

theorem Increasing.nodup (h : Increasing l) : (l.map Prod.fst).Nodup := by
  have hn : ((l.map Prod.fst).map CoreAssignment.rank).Nodup := by
    rw [List.map_map]
    exact h.imp fun h => Nat.ne_of_lt h
  exact hn.of_map

-- One assignment is collected: its parts are added, to the last one or as a new one.
theorem pushAssignment_spec (h : Increasing l) (hi : ∀ j ∈ l, j.1.rank ≤ i.1.rank)
    (hs : partsSum l + i.2 ≤ Machine.maxValue 16) :
    Increasing (pushAssignment l i) ∧ partsSum (pushAssignment l i) = partsSum l + i.2 ∧
      ∀ j ∈ pushAssignment l i, j.1.rank ≤ i.1.rank := by
  rcases List.eq_nil_or_concat l with rfl | ⟨l, last, rfl⟩
  · refine ⟨List.pairwise_singleton _ _, ?_, ?_⟩
    · simp [pushAssignment]
    · simp [pushAssignment]
  · rw [List.concat_eq_append] at *
    rw [Increasing, map_append, pairwise_append] at h
    rw [partsSum_append, partsSum_cons] at hs
    have hl := hi last (by simp)
    have hlast : ∀ j ∈ l, j.1.rank < last.1.rank := by
      intro j hj
      exact h.2.2 _ (List.mem_map_of_mem hj) _ (by simp)
    rw [pushAssignment, List.getLast?_concat]
    dsimp only
    split_ifs with he
    · rw [List.dropLast_concat, Machine.wrappingAdd_of_lt (by omega)]
      refine ⟨?_, ?_, ?_⟩
      · rw [Increasing, map_append, pairwise_append]
        refine ⟨h.1, List.pairwise_singleton _ _, ?_⟩
        intro n hn m hm
        obtain ⟨j, hj, rfl⟩ := mem_map.mp hn
        rw [mem_singleton.mp hm]
        exact hlast j hj
      · simp only [partsSum_append, partsSum_cons]
        omega
      · intro j hj
        rcases mem_append.mp hj with hj | hj
        · exact (hlast j hj).le.trans hl
        · rw [mem_singleton.mp hj]
          exact hl
    · have hn : last.1.rank < i.1.rank :=
        lt_of_le_of_ne hl fun hr => he (CoreAssignment.rank_injective hr)
      refine ⟨?_, ?_, ?_⟩
      · rw [Increasing, map_append, pairwise_append]
        refine ⟨?_, List.pairwise_singleton _ _, ?_⟩
        · rw [map_append, pairwise_append]
          exact h
        · simp only [map_append, mem_append, mem_map, mem_singleton, List.map_cons,
            List.map_nil, forall_eq]
          rintro n (⟨j, hj, rfl⟩ | rfl)
          · exact (hlast j hj).trans hn
          · exact hn
      · simp only [partsSum_append, partsSum_cons, partsSum_nil, Nat.add_zero]
      · intro j hj
        rcases mem_append.mp hj with hj | hj
        · exact hi j hj
        · rw [mem_singleton.mp hj]

theorem foldl_pushAssignment (hl : l.Pairwise fun a b => a.1.rank ≤ b.1.rank) (h : Increasing m)
    (hi : ∀ a ∈ m, ∀ b ∈ l, a.1.rank ≤ b.1.rank)
    (hs : partsSum m + partsSum l ≤ Machine.maxValue 16) :
    Increasing (l.foldl pushAssignment m) ∧
      partsSum (l.foldl pushAssignment m) = partsSum m + partsSum l := by
  induction l generalizing m
  case nil => exact ⟨h, rfl⟩
  case cons i l hind =>
    rw [List.pairwise_cons] at hl
    rw [partsSum_cons] at hs
    obtain ⟨h1, h2, h3⟩ := pushAssignment_spec h (fun j hj =>
      hi j hj i (by simp)) (i := i) (by omega)
    obtain ⟨h4, h5⟩ := hind hl.2 h1 (fun a ha b hb => (h3 a ha).trans (hl.1 b hb)) (by omega)
    refine ⟨h4, ?_⟩
    rw [List.foldl_cons, partsSum_cons]
    omega

end Parts

instance : Std.Total assignmentLe where
  total a b := by
    rcases Nat.lt_trichotomy a.1.rank b.1.rank with h | h | h
    · exact .inl (.inl h)
    · rcases Nat.le_total a.2 b.2 with hp | hp
      · exact .inl (.inr ⟨CoreAssignment.rank_injective h, hp⟩)
      · exact .inr (.inr ⟨(CoreAssignment.rank_injective h).symm, hp⟩)
    · exact .inr (.inl h)

instance : IsTrans (CoreAssignment × Nat) assignmentLe where
  trans a b d := by
    rintro (h | ⟨h, hp⟩) (h' | ⟨h', hp'⟩)
    · exact .inl (h.trans h')
    · exact .inl (h' ▸ h)
    · exact .inl (h ▸ h')
    · exact .inr ⟨h.trans h', hp.trans hp'⟩

theorem rank_le_of_assignmentLe (h : assignmentLe a b) : a.1.rank ≤ b.1.rank := by
  rcases h with h | ⟨h, _⟩
  · exact h.le
  · rw [h]

theorem partsSum_map_le {l : List ScheduleItem} (h : Exact l) :
    partsSum (l.map partsOf57600) ≤ 57600 := by
  have hp : partsSum (l.map partsOf57600) = ((l.map (·.mask)).map BitMask.countOnes).sum * 720 := by
    clear h
    induction l
    case nil => rfl
    case cons i l hi =>
      simp only [List.map_cons, partsSum_cons, List.sum_cons, hi, Nat.add_mul]
      rfl
  have hs := h.disjoint.sum_le
  omega

-- What the relay chain is told for an exact schedule: distinct assignments
-- that make up the whole core.
structure Whole (l : List (CoreAssignment × Nat)) : Prop where
  nodup : (l.map Prod.fst).Nodup
  sum : partsSum l = 57600

theorem assignmentOf_whole {schedule : Schedule} (h : Exact schedule.toList) :
    Whole (assignmentOf schedule) := by
  have hw := partsSum_withIdle (partsSum_map_le h)
  have hp := List.perm_insertionSort assignmentLe (withIdle (schedule.toList.map partsOf57600))
  have hs : partsSum ((withIdle (schedule.toList.map partsOf57600)).insertionSort assignmentLe) =
      57600 := by
    rw [← hw]
    exact (hp.map Prod.snd).sum_eq
  have ho := List.pairwise_insertionSort assignmentLe (withIdle (schedule.toList.map partsOf57600))
  obtain ⟨h1, h2⟩ := foldl_pushAssignment (m := []) (ho.imp rank_le_of_assignmentLe)
    List.Pairwise.nil
    (by simp) (by rw [hs]; decide)
  refine ⟨h1.nodup, ?_⟩
  rw [assignmentOf, h2, hs]
  rfl

end Broker
