import Mathlib

-- Lookups in the ordered maps and sets of the standard library, for an order whose equivalence is
-- equality.

namespace Std

variable {α : Type} [LinearOrder α]

instance transCmp_of_linearOrder : TransCmp (compare : α → α → Ordering) :=
  inferInstance

instance lawfulEqCmp_of_linearOrder : LawfulEqCmp (compare : α → α → Ordering) :=
  inferInstance

end Std

namespace Std.ExtTreeMap

variable {α β : Type} {cmp : α → α → Ordering} [TransCmp cmp] [LawfulEqCmp cmp]
variable {t : ExtTreeMap α β cmp} {k a : α} {v : β}

theorem lookup_insert [DecidableEq α] : (t.insert k v)[a]? = if a = k then some v else t[a]? := by
  simp only [getElem?_insert, LawfulEqCmp.compare_eq_iff_eq, eq_comm (a := a)]

theorem lookup_insert_ne (h : a ≠ k) : (t.insert k v)[a]? = t[a]? := by
  simp [getElem?_insert, h.symm]

theorem insert_of_lookup [DecidableEq α] (h : t[k]? = some v) : t.insert k v = t := by
  refine ext_getElem? fun a => ?_
  rw [lookup_insert]
  split_ifs with ha
  · rw [ha, h]
  · rfl

theorem lookup_erase [DecidableEq α] : (t.erase k)[a]? = if a = k then none else t[a]? := by
  simp only [getElem?_erase, LawfulEqCmp.compare_eq_iff_eq, eq_comm (a := a)]

theorem lookup_erase_ne (h : a ≠ k) : (t.erase k)[a]? = t[a]? := by
  simp [getElem?_erase, h.symm]

theorem lookup_foldl_erase [DecidableEq α] (l : List α) :
    (l.foldl (·.erase ·) t)[a]? = if a ∈ l then none else t[a]? := by
  induction l generalizing t
  case nil => simp
  case cons k l hi =>
    rw [List.foldl_cons, hi, lookup_erase]
    by_cases hl : a ∈ l <;> by_cases hk : a = k <;> simp [hk]

theorem nodup_keys_toList : (t.toList.map (·.1)).Nodup := by
  rw [List.Nodup, List.pairwise_map]
  exact t.distinct_keys_toList.imp fun h e => by simp [e] at h

theorem toList_insert_empty : ((∅ : ExtTreeMap α β cmp).insert k v).toList = [(k, v)] := by
  have hl : ((∅ : ExtTreeMap α β cmp).insert k v).toList.length = 1 := by
    rw [length_toList, size_insert]
    simp
  obtain ⟨e, he⟩ := List.length_eq_one_iff.mp hl
  have hm : e ∈ ((∅ : ExtTreeMap α β cmp).insert k v).toList := by simp [he]
  rw [mem_toList_iff_getElem?_eq_some, getElem?_insert] at hm
  split_ifs at hm with hk
  · rw [he, LawfulEqCmp.eq_of_compare hk, Option.some.inj hm]
  · simp at hm

section Sum

def sumBy (f : α → β → Nat) (t : ExtTreeMap α β cmp) : Nat :=
  (t.toList.map fun e => f e.1 e.2).sum

variable {f : α → β → Nat}

theorem nodup_toList : t.toList.Nodup :=
  .of_map _ t.nodup_keys_toList

theorem toList_insert_perm [DecidableEq α] (h : t[k]? = none) :
    (t.insert k v).toList.Perm ((k, v) :: t.toList) := by
  have hk : (k, v) ∉ t.toList := by simp [h]
  rw [List.perm_ext_iff_of_nodup nodup_toList (List.nodup_cons.mpr ⟨hk, nodup_toList⟩)]
  rintro ⟨a, b⟩
  rw [mem_toList_iff_getElem?_eq_some, lookup_insert]
  split_ifs with ha
  · subst ha
    simp [h, eq_comm]
  · simp [ha]

theorem sumBy_insert [DecidableEq α] (h : t[k]? = none) :
    (t.insert k v).sumBy f = t.sumBy f + f k v := by
  rw [sumBy, ((toList_insert_perm h).map _).sum_eq, Nat.add_comm]
  rfl

theorem insert_erase [DecidableEq α] (h : t[k]? = some v) : (t.erase k).insert k v = t := by
  refine ext_getElem? fun a => ?_
  rw [lookup_insert, lookup_erase]
  split_ifs with ha
  · rw [ha, h]
  · rfl

theorem sumBy_erase [DecidableEq α] (h : t[k]? = some v) :
    (t.erase k).sumBy f = t.sumBy f - f k v := by
  have hs := sumBy_insert (f := f) (v := v) (getElem?_erase_self (t := t) (k := k))
  rw [insert_erase h] at hs
  omega

theorem le_sumBy [DecidableEq α] (h : t[k]? = some v) : f k v ≤ t.sumBy f := by
  have hs := sumBy_insert (f := f) (v := v) (getElem?_erase_self (t := t) (k := k))
  rw [insert_erase h] at hs
  omega

omit [LawfulEqCmp cmp] in
theorem sumBy_one : t.sumBy (fun _ _ => 1) = t.size := by
  simp [sumBy]

theorem sumBy_foldl_erase [DecidableEq α] {l : List (α × β)} (hn : (l.map (·.1)).Nodup)
    (h : ∀ e ∈ l, t[e.1]? = some e.2) :
    ((l.map (·.1)).foldl (·.erase ·) t).sumBy f + (l.map fun e => f e.1 e.2).sum = t.sumBy f := by
  induction l generalizing t
  case nil => simp
  case cons e l hi =>
    obtain ⟨he, hn⟩ := List.nodup_cons.mp hn
    obtain ⟨hk, hl⟩ := List.forall_mem_cons.mp h
    have hrest (e') (he' : e' ∈ l) : (t.erase e.1)[e'.1]? = some e'.2 := by
      have hne : e'.1 ≠ e.1 := fun heq => he (List.mem_map.mpr ⟨e', he', heq⟩)
      rw [lookup_erase_ne hne]
      exact hl e' he'
    have hs := hi hn hrest
    have hle := le_sumBy (f := f) hk
    rw [sumBy_erase hk] at hs
    simp only [List.map_cons, List.foldl_cons, List.sum_cons]
    omega

end Sum

section Collect

variable {γ : Type} {f : β → γ} {v' : β}

-- What a function makes of the values, with their multiplicities.
def collect (f : β → γ) (t : ExtTreeMap α β cmp) : Multiset γ :=
  Multiset.ofList (t.toList.map fun e => f e.2)

theorem mem_collect : x ∈ t.collect f ↔ ∃ (k : α) (v : β), t[k]? = some v ∧ f v = x := by
  simp [collect]

omit [LawfulEqCmp cmp] in
theorem card_collect : (t.collect f).card = t.size := by
  simp [collect]

theorem collect_congr {β' : Type} {g : β' → γ} {t' : ExtTreeMap α β' cmp}
    (h : ∀ k : α, (t[k]?).map f = (t'[k]?).map g) : t.collect f = t'.collect g := by
  have hl : (t.toList.map fun e => (e.1, f e.2)).Perm (t'.toList.map fun e => (e.1, g e.2)) := by
    have hn : (t.toList.map fun e => (e.1, f e.2)).Nodup :=
      .of_map (·.1) (by simpa [Function.comp_def] using t.nodup_keys_toList)
    have hn' : (t'.toList.map fun e => (e.1, g e.2)).Nodup :=
      .of_map (·.1) (by simpa [Function.comp_def] using t'.nodup_keys_toList)
    rw [List.perm_ext_iff_of_nodup hn hn']
    rintro ⟨k, x⟩
    have hk := h k
    rw [Option.ext_iff] at hk
    simpa using hk x
  exact Multiset.coe_eq_coe.mpr (by simpa [Function.comp_def] using hl.map (·.2))

variable [DecidableEq α]

theorem collect_insert (h : t[k]? = none) : (t.insert k v).collect f = f v ::ₘ t.collect f :=
  Multiset.coe_eq_coe.mpr ((toList_insert_perm h).map _)

theorem collect_erase (h : t[k]? = some v) : t.collect f = f v ::ₘ (t.erase k).collect f := by
  rw [← collect_insert getElem?_erase_self, insert_erase h]

theorem collect_insert_same (h : t[k]? = some v) (hf : f v' = f v) :
    (t.insert k v').collect f = t.collect f := by
  refine collect_congr fun a => ?_
  rw [lookup_insert]
  split_ifs with ha
  · rw [ha, h, Option.map_some, Option.map_some, hf]
  · rfl

end Collect

-- Rebuilds a map from what `f` makes of its entries, in the order of the keys. An entry for which
-- `f` returns nothing is dropped.
def traverse {ε γ : Type} (f : α → β → Except ε (Option γ)) (t : ExtTreeMap α β cmp) :
    Except ε (ExtTreeMap α γ cmp) :=
  t.toList.foldlM (fun acc e => do return (← f e.1 e.2).elim acc (acc.insert e.1)) ∅

section Traverse

variable {ε γ : Type} {f : α → β → Except ε (Option γ)}

theorem traverse_list {l : List (α × β)} (hn : (l.map (·.1)).Nodup) (acc : ExtTreeMap α γ cmp)
    (hf : ∀ e ∈ l, ∃ w, f e.1 e.2 = .ok w) (ha : ∀ e ∈ l, acc[e.1]? = none) :
    ∃ t', l.foldlM (fun acc e => do return (← f e.1 e.2).elim acc (acc.insert e.1)) acc = .ok t' ∧
      (∀ k ∉ l.map (·.1), t'[k]? = acc[k]?) ∧ ∀ e ∈ l, f e.1 e.2 = .ok t'[e.1]? := by
  induction l generalizing acc
  case nil => exact ⟨acc, rfl, by simp, by simp⟩
  case cons e l hi =>
    have ⟨he, hn⟩ := List.nodup_cons.mp hn
    have hne {e'} (h : e' ∈ l) : e'.1 ≠ e.1 := fun h' => he (List.mem_map.mpr ⟨e', h, h'⟩)
    obtain ⟨w, hw⟩ := hf e (by simp)
    let acc' := w.elim acc (acc.insert e.1)
    have hs (k : α) (hk : k ≠ e.1) : acc'[k]? = acc[k]? := by
      cases w
      case none => rfl
      case some => exact lookup_insert_ne hk
    have hk : acc'[e.1]? = w := by
      cases w
      case none => exact ha e (by simp)
      case some => exact getElem?_insert_self
    obtain ⟨t', ht, hout, hin⟩ := hi hn acc' (fun e' h => hf e' (by simp [h]))
      (fun e' h => (hs _ (hne h)).trans (ha e' (by simp [h])))
    refine ⟨t', by rw [List.foldlM_cons, hw]; exact ht, fun k hkn => ?_, ?_⟩
    · simp only [List.map_cons, List.mem_cons, not_or] at hkn
      rw [hout k hkn.2, hs k hkn.1]
    · simp only [List.mem_cons, forall_eq_or_imp]
      exact ⟨by rw [hout _ he, hk, hw], hin⟩

theorem traverse_eq_ok (h : ∀ k v, t[k]? = some v → ∃ w, f k v = .ok w) :
    ∃ t' : ExtTreeMap α γ cmp, t.traverse f = .ok t' ∧ (∀ k : α, t[k]? = none → t'[k]? = none) ∧
      ∀ k v, t[k]? = some v → f k v = .ok t'[k]? := by
  obtain ⟨t', ht, hout, hin⟩ := traverse_list (f := f) t.nodup_keys_toList
    (∅ : ExtTreeMap α γ cmp) (fun e he => h _ _ (mem_toList_iff_getElem?_eq_some.mp he))
    (fun _ _ => getElem?_empty)
  refine ⟨t', ht, fun k hk => ?_, fun k v hk => hin (k, v) (mem_toList_iff_getElem?_eq_some.mpr hk)⟩
  rw [hout k, getElem?_empty]
  simp only [List.mem_map, Prod.exists, exists_and_right, exists_eq_right, not_exists,
    mem_toList_iff_getElem?_eq_some, hk]
  simp

theorem traverse_map {g : α → β → γ} (h : ∀ k v, t[k]? = some v → f k v = .ok (some (g k v))) :
    t.traverse f = .ok (t.map g) := by
  obtain ⟨t', ht, hn, hs⟩ := traverse_eq_ok fun k v hk => ⟨_, h k v hk⟩
  rw [ht]
  refine congrArg _ (ext_getElem? fun k => ?_)
  rw [getElem?_map]
  cases hk : t[k]?
  case none => exact hn k hk
  case some v => exact Except.ok.inj ((hs k v hk).symm.trans (h k v hk))

end Traverse

section Update

variable {ε γ : Type} {u : ExtTreeMap α γ cmp} {t' : ExtTreeMap α β cmp}

-- Writes what `g` makes of each entry of another map and of what is stored under its key.
def merge (g : Option β → γ → β) (t : ExtTreeMap α β cmp) (u : ExtTreeMap α γ cmp) :
    ExtTreeMap α β cmp :=
  u.toList.foldl (fun acc e => acc.insert e.1 (g acc[e.1]? e.2)) t

-- The same with a function that can fail.
def update (g : α → Option β → γ → Except ε β) (t : ExtTreeMap α β cmp) (u : ExtTreeMap α γ cmp) :
    Except ε (ExtTreeMap α β cmp) :=
  u.toList.foldlM (fun acc e => do return acc.insert e.1 (← g e.1 acc[e.1]? e.2)) t

theorem lookup_toList_find {k : α} : (u[k]? = none ↔ ∀ v, (k, v) ∉ u.toList) ∧
    ∀ v, u[k]? = some v ↔ (k, v) ∈ u.toList := by
  refine ⟨?_, fun v => mem_toList_iff_getElem?_eq_some.symm⟩
  rw [Option.eq_none_iff_forall_ne_some]
  simp only [mem_toList_iff_getElem?_eq_some]

theorem merge_list {g : Option β → γ → β} {l : List (α × γ)} (hn : (l.map (·.1)).Nodup)
    (t : ExtTreeMap α β cmp) (k : α) :
    ((∀ v, (k, v) ∉ l) → (l.foldl (fun acc e => acc.insert e.1 (g acc[e.1]? e.2)) t)[k]? = t[k]?) ∧
    ∀ v, (k, v) ∈ l → (l.foldl (fun acc e => acc.insert e.1 (g acc[e.1]? e.2)) t)[k]? =
      some (g t[k]? v) := by
  induction l generalizing t
  case nil => simp
  case cons e l hi =>
    rw [List.map_cons, List.nodup_cons] at hn
    obtain ⟨h1, h2⟩ := hi hn.2 (t.insert e.1 (g t[e.1]? e.2))
    have hne : ∀ v, (e.1, v) ∉ l := fun v hv => hn.1 (List.mem_map.mpr ⟨_, hv, rfl⟩)
    refine ⟨fun h => ?_, fun v hv => ?_⟩
    · have hk : k ≠ e.1 := by
        rintro rfl
        exact h e.2 List.mem_cons_self
      rw [List.foldl_cons, h1 fun v hv => h v (List.mem_cons_of_mem _ hv), lookup_insert_ne hk]
    · rw [List.foldl_cons]
      obtain rfl | hv := List.mem_cons.mp hv
      · rw [h1 hne, getElem?_insert_self]
      · have hk : k ≠ e.1 := by
          rintro rfl
          exact hne v hv
        rw [h2 v hv, lookup_insert_ne hk]

theorem lookup_merge {g : Option β → γ → β} :
    (t.merge g u)[k]? = (u[k]?).elim t[k]? fun v => some (g t[k]? v) := by
  obtain ⟨h1, h2⟩ := merge_list (g := g) u.nodup_keys_toList t k
  cases hu : u[k]?
  case none => exact h1 (lookup_toList_find.1.mp hu)
  case some v => exact h2 v (mem_toList_iff_getElem?_eq_some.mpr hu)

theorem update_list {g : α → Option β → γ → Except ε β} {l : List (α × γ)}
    (hn : (l.map (·.1)).Nodup) (t : ExtTreeMap α β cmp) :
    l.foldlM (fun acc e => do return acc.insert e.1 (← g e.1 acc[e.1]? e.2)) t = .ok t' ↔
      ∀ k, ((∀ v, (k, v) ∉ l) → t'[k]? = t[k]?) ∧
        ∀ v, (k, v) ∈ l → ∃ w, g k t[k]? v = .ok w ∧ t'[k]? = some w := by
  induction l generalizing t
  case nil =>
    constructor
    · intro h
      cases h
      simp
    · intro h
      have he : t = t' := ext_getElem? fun k => ((h k).1 (by simp)).symm
      rw [he]
      rfl
  case cons e l hi =>
    rw [List.map_cons, List.nodup_cons] at hn
    have hne : ∀ v, (e.1, v) ∉ l := fun v hv => hn.1 (List.mem_map.mpr ⟨_, hv, rfl⟩)
    rw [List.foldlM_cons]
    cases hg : g e.1 t[e.1]? e.2
    case error err =>
      constructor
      · intro h
        cases h
      · intro h
        obtain ⟨w, hw, -⟩ := (h e.1).2 e.2 List.mem_cons_self
        rw [hg] at hw
        cases hw
    case ok w =>
      change l.foldlM _ (t.insert e.1 w) = Except.ok t' ↔ _
      rw [hi hn.2]
      refine forall_congr' fun k => ?_
      by_cases hk : k = e.1
      case pos =>
        subst hk
        rw [getElem?_insert_self]
        constructor
        · rintro ⟨h1, -⟩
          refine ⟨fun h => absurd List.mem_cons_self (h e.2), fun v hv => ?_⟩
          obtain hv | hv := List.mem_cons.mp hv
          · obtain rfl : v = e.2 := congrArg Prod.snd hv
            exact ⟨w, hg, h1 hne⟩
          · exact absurd hv (hne v)
        · rintro ⟨-, h2⟩
          refine ⟨fun _ => ?_, fun v hv => absurd hv (hne v)⟩
          obtain ⟨w', hw', ht⟩ := h2 e.2 List.mem_cons_self
          cases hg.symm.trans hw'
          exact ht
      case neg =>
        have hm (v : γ) : (k, v) ∈ e :: l ↔ (k, v) ∈ l := by
          rw [List.mem_cons, or_iff_right]
          rintro rfl
          exact hk rfl
        simp only [lookup_insert_ne hk, hm]

theorem update_eq_ok {g : α → Option β → γ → Except ε β} : t.update g u = .ok t' ↔
    ∀ k, (u[k]? = none → t'[k]? = t[k]?) ∧
      ∀ v, u[k]? = some v → ∃ w, g k t[k]? v = .ok w ∧ t'[k]? = some w := by
  rw [update, update_list u.nodup_keys_toList]
  refine forall_congr' fun k => ?_
  rw [lookup_toList_find.1]
  simp only [lookup_toList_find.2]

end Update

section Folds

variable {γ : Type} {l : List γ} {f : γ → α} {g : γ → β}

theorem lookup_foldl_insert_of_not_mem (h : k ∉ l.map f) :
    (l.foldl (fun t e => t.insert (f e) (g e)) t)[k]? = t[k]? := by
  induction l generalizing t
  case nil => rfl
  case cons e l hi =>
    rw [List.map_cons, List.mem_cons, not_or] at h
    rw [List.foldl_cons, hi h.2, lookup_insert_ne h.1]

theorem lookup_foldl_erase_of_not_mem (h : k ∉ l.map f) :
    (l.foldl (fun t e => t.erase (f e)) t)[k]? = t[k]? := by
  induction l generalizing t
  case nil => rfl
  case cons e l hi =>
    rw [List.map_cons, List.mem_cons, not_or] at h
    rw [List.foldl_cons, hi h.2, lookup_erase_ne h.1]

theorem lookup_foldl_erase_of_mem (h : k ∈ l.map f) :
    (l.foldl (fun t e => t.erase (f e)) t)[k]? = none := by
  induction l generalizing t
  case nil => simp at h
  case cons e l hi =>
    rw [List.foldl_cons]
    by_cases hm : k ∈ l.map f
    case pos => exact hi hm
    case neg =>
      rw [List.map_cons, List.mem_cons, or_iff_left hm] at h
      rw [lookup_foldl_erase_of_not_mem hm, h, getElem?_erase_self]

theorem foldl_erase_foldl_insert {l' : List γ} (h : ∀ e ∈ l', t[f e]? = none ∧ f e ∉ l.map f) :
    l'.foldl (fun t e => t.erase (f e)) ((l ++ l').foldl (fun t e => t.insert (f e) (g e)) t) =
      l.foldl (fun t e => t.insert (f e) (g e)) t := by
  apply ext_getElem?
  intro k
  rw [List.foldl_append]
  by_cases hm : k ∈ l'.map f
  case pos =>
    obtain ⟨e, he, rfl⟩ := List.mem_map.mp hm
    rw [lookup_foldl_erase_of_mem hm, lookup_foldl_insert_of_not_mem (h e he).2, (h e he).1]
  case neg => rw [lookup_foldl_erase_of_not_mem hm, lookup_foldl_insert_of_not_mem hm]

theorem lookup_foldl_insert (hn : (l.map f).Nodup) {v : β} :
    (l.foldl (fun t e => t.insert (f e) (g e)) (∅ : ExtTreeMap α β cmp))[k]? = some v ↔
      ∃ e ∈ l, f e = k ∧ g e = v := by
  induction l using List.reverseRecOn
  case nil => simp
  case append_singleton l e hi =>
    rw [List.map_append, List.nodup_append] at hn
    obtain ⟨hl, -, hne⟩ := hn
    rw [List.foldl_append, List.foldl_cons, List.foldl_nil]
    by_cases hk : k = f e
    case pos =>
      subst hk
      rw [getElem?_insert_self]
      constructor
      · intro h
        exact ⟨e, by simp, rfl, by simpa using h⟩
      · rintro ⟨e', hm, hf, rfl⟩
        obtain hm | hm := List.mem_append.mp hm
        · exact absurd hf (hne _ (List.mem_map.mpr ⟨e', hm, rfl⟩) _ (by simp))
        · rw [List.mem_singleton.mp hm]
    case neg =>
      rw [lookup_insert_ne hk, hi hl]
      constructor
      · rintro ⟨e', hm, h⟩
        exact ⟨e', List.mem_append_left _ hm, h⟩
      · rintro ⟨e', hm, hf, hg⟩
        obtain hm | hm := List.mem_append.mp hm
        · exact ⟨e', hm, hf, hg⟩
        · exact absurd (List.mem_singleton.mp hm ▸ hf).symm hk

theorem mem_foldl_insert_empty :
    k ∈ l.foldl (fun t e => t.insert (f e) (g e)) (∅ : ExtTreeMap α β cmp) ↔ k ∈ l.map f := by
  induction l using List.reverseRecOn
  case nil => simp
  case append_singleton l e hi =>
    rw [List.foldl_append, List.foldl_cons, List.foldl_nil, mem_insert,
      LawfulEqCmp.compare_eq_iff_eq, hi]
    simp [or_comm, eq_comm]

end Folds

section Total

variable {t : ExtTreeMap α Nat cmp} {v : Nat}

-- The sum of the values of a map.
def total (t : ExtTreeMap α Nat cmp) : Nat :=
  (t.toList.map (·.2)).sum

theorem total_eq_sum [DecidableEq α] (h : ∀ k : α, t[k]? ≠ none → k ∈ s) :
    t.total = ∑ k ∈ s, t[k]?.getD 0 := by
  have hv : ∀ e ∈ t.toList, e.2 = t[e.1]?.getD 0 := fun e he => by
    rw [mem_toList_iff_getElem?_eq_some.mp he, Option.getD_some]
  calc t.total
      = ((t.toList.map (·.1)).map fun k => t[k]?.getD 0).sum := by
        rw [total, List.map_map, List.map_congr_left hv]
        rfl
    _ = ∑ k ∈ (t.toList.map (·.1)).toFinset, t[k]?.getD 0 :=
        (List.sum_toFinset _ t.nodup_keys_toList).symm
    _ = ∑ k ∈ s, t[k]?.getD 0 := by
        refine Finset.sum_subset (fun k hk => h k ?_) fun k _ hk => ?_
        · obtain ⟨e, he, rfl⟩ := List.mem_map.mp (List.mem_toFinset.mp hk)
          simp [mem_toList_iff_getElem?_eq_some.mp he]
        · cases hg : t[k]?
          case none => rfl
          case some v =>
            refine absurd (List.mem_toFinset.mpr (List.mem_map.mpr ⟨(k, v), ?_, rfl⟩)) hk
            exact mem_toList_iff_getElem?_eq_some.mpr hg

theorem total_of_agree [DecidableEq α] {t' : ExtTreeMap α Nat cmp}
    (h : ∀ a : α, a ≠ k → t'[a]? = t[a]?) : t'.total + t[k]?.getD 0 = t.total + t'[k]?.getD 0 := by
  let s : Finset α := (t.toList.map (·.1)).toFinset ∪ {k}
  have hs : ∀ a : α, t[a]? ≠ none → a ∈ s := fun a ha => by
    obtain ⟨w, hw⟩ := Option.ne_none_iff_exists'.mp ha
    exact Finset.mem_union_left _ (List.mem_toFinset.mpr
      (List.mem_map.mpr ⟨(a, w), mem_toList_iff_getElem?_eq_some.mpr hw, rfl⟩))
  have hk : k ∈ s := Finset.mem_union_right _ (Finset.mem_singleton_self k)
  have hs' : ∀ a : α, t'[a]? ≠ none → a ∈ s := fun a ha => by
    by_cases he : a = k
    case pos => exact he ▸ hk
    case neg => exact hs a (h a he ▸ ha)
  rw [total_eq_sum hs, total_eq_sum hs', ← Finset.add_sum_erase _ _ hk,
    ← Finset.add_sum_erase _ _ hk, Finset.sum_congr rfl fun a ha => by
      rw [h a (Finset.ne_of_mem_erase ha)]]
  omega

theorem total_insert [DecidableEq α] : (t.insert k v).total + t[k]?.getD 0 = t.total + v := by
  have h := total_of_agree (t := t) (k := k) fun a ha => lookup_insert_ne (v := v) ha
  rwa [getElem?_insert_self, Option.getD_some] at h

theorem total_erase [DecidableEq α] : (t.erase k).total + t[k]?.getD 0 = t.total := by
  have h := total_of_agree (t := t) (k := k) fun a ha => lookup_erase_ne ha
  rwa [getElem?_erase_self, Option.getD_none, Nat.add_zero] at h

end Total

end Std.ExtTreeMap

namespace Std.ExtTreeSet

variable {α : Type} {cmp : α → α → Ordering} [TransCmp cmp] [LawfulEqCmp cmp]
variable {t : ExtTreeSet α cmp} {k a : α}

theorem mem_insert_iff : a ∈ t.insert k ↔ a = k ∨ a ∈ t := by
  simp only [mem_insert, LawfulEqCmp.compare_eq_iff_eq, eq_comm (a := a)]

theorem mem_foldl_insert {l : List α} : a ∈ l.foldl (·.insert ·) t ↔ a ∈ t ∨ a ∈ l := by
  induction l generalizing t
  case nil => simp
  case cons _ hi => rw [List.foldl_cons, hi, mem_insert_iff, List.mem_cons]; tauto

theorem mem_foldl_insert_map {γ : Type} {l : List γ} {f : γ → α} :
    a ∈ l.foldl (fun t e => t.insert (f e)) t ↔ a ∈ t ∨ a ∈ l.map f := by
  induction l generalizing t
  case nil => simp
  case cons e l hi => rw [List.foldl_cons, hi, mem_insert_iff, List.map_cons, List.mem_cons]; tauto

theorem mem_foldl_erase {γ : Type} {l : List γ} {f : γ → α} :
    a ∈ l.foldl (fun t e => t.erase (f e)) t ↔ a ∈ t ∧ a ∉ l.map f := by
  induction l generalizing t
  case nil => simp
  case cons e l hi =>
    rw [List.foldl_cons, hi, mem_erase, ne_eq, LawfulEqCmp.compare_eq_iff_eq, List.map_cons,
      List.mem_cons, eq_comm]
    tauto

theorem nodup_toList : t.toList.Nodup :=
  t.distinct_toList.imp fun h e => by simp [e] at h

end Std.ExtTreeSet
