import RostroModel.Library.TreeMap

-- Maps to sets of values, in which no key has the empty set.
namespace MultiMap

open Std.ExtTreeMap (lookup_insert)

variable {α β γ : Type} [LinearOrder α] [LinearOrder β]

def add (m : Std.ExtTreeMap α (Std.ExtTreeSet β)) (k : α) (v : β) :
    Std.ExtTreeMap α (Std.ExtTreeSet β) :=
  m.insert k (((m[k]?).getD ∅).insert v)

def remove (m : Std.ExtTreeMap α (Std.ExtTreeSet β)) (k : α) (v : β) :
    Std.ExtTreeMap α (Std.ExtTreeSet β) :=
  match m[k]? with
  | none => m
  | some set => if (set.erase v).isEmpty then m.erase k else m.insert k (set.erase v)

def values (m : Std.ExtTreeMap α (Std.ExtTreeSet β)) (k : α) : List β :=
  ((m[k]?).map (·.toList)).getD []

theorem nodup_values {m : Std.ExtTreeMap α (Std.ExtTreeSet β)} {k : α} : (values m k).Nodup := by
  rw [values]
  cases m[k]?
  case none => exact List.nodup_nil
  case some set => exact Std.ExtTreeSet.nodup_toList

-- The values of a multimap are the keys of a map whose entries have its key, and no set is empty.
structure Indexes (m : Std.ExtTreeMap α (Std.ExtTreeSet β)) (entries : Std.ExtTreeMap β γ)
    (key : γ → α) :
    Prop where
  mem : ∀ (k : α) (v : β), (∃ set, m[k]? = some set ∧ v ∈ set) ↔
    ∃ e, entries[v]? = some e ∧ key e = k
  nonempty : ∀ (k : α) set, m[k]? = some set → ∃ v, v ∈ set

namespace Indexes

variable {m : Std.ExtTreeMap α (Std.ExtTreeSet β)} {entries : Std.ExtTreeMap β γ} {key : γ → α}
variable {k : α} {v : β} {e : γ}

theorem empty : Indexes (∅ : Std.ExtTreeMap α (Std.ExtTreeSet β)) (∅ : Std.ExtTreeMap β γ) key where
  mem := by simp
  nonempty := by simp

variable (h : Indexes m entries key)
include h

theorem mem_values : v ∈ values m k ↔ ∃ e, entries[v]? = some e ∧ key e = k := by
  rw [← h.mem, values]
  cases m[k]? <;> simp

theorem add (hv : entries[v]? = none) :
    Indexes (MultiMap.add m (key e) v) (entries.insert v e) key where
  mem k' v' := by
    have hm := h.mem k' v'
    rw [MultiMap.add, lookup_insert, lookup_insert]
    by_cases hk : k' = key e
    case pos =>
      subst hk
      by_cases hv' : v' = v
      case pos =>
        subst hv'
        simp
      case neg =>
        rw [if_pos rfl, if_neg hv', ← hm]
        simp only [Option.some.injEq, exists_eq_left', Std.ExtTreeSet.mem_insert_iff, hv']
        cases m[key e]? <;> simp
    case neg =>
      rw [if_neg hk, hm]
      by_cases hv' : v' = v
      case pos =>
        subst hv'
        simp [hv, Ne.symm hk]
      case neg => rw [if_neg hv']
  nonempty k' set hs := by
    rw [MultiMap.add, lookup_insert] at hs
    split_ifs at hs
    · cases hs
      exact ⟨v, Std.ExtTreeSet.mem_insert_iff.mpr (.inl rfl)⟩
    · exact h.nonempty k' set hs

theorem modify (hv : entries[v]? = some e) (hk : key e' = key e) :
    Indexes m (entries.insert v e') key where
  mem k' v' := by
    rw [h.mem, lookup_insert]
    split_ifs with hv'
    · subst hv'
      simp [hv, hk]
    · rfl
  nonempty := h.nonempty

theorem lookup_remove (hv : entries[v]? = some e) :
    ∃ set, m[key e]? = some set ∧ MultiMap.remove m (key e) v =
      if (set.erase v).isEmpty then m.erase (key e) else m.insert (key e) (set.erase v) := by
  obtain ⟨set, hs, -⟩ := (h.mem (key e) v).mpr ⟨e, hv, rfl⟩
  exact ⟨set, hs, by simp only [MultiMap.remove, hs]⟩

theorem remove (hv : entries[v]? = some e) :
    Indexes (MultiMap.remove m (key e) v) (entries.erase v) key := by
  obtain ⟨set, hs, hr⟩ := h.lookup_remove hv
  have hmem (v' : β) : v' ∈ set.erase v ↔ v' ≠ v ∧ v' ∈ set := by
    rw [Std.ExtTreeSet.mem_erase, ne_eq, Std.LawfulEqCmp.compare_eq_iff_eq, eq_comm]
  have hset (v' : β) : v' ∈ set ↔ ∃ e', entries[v']? = some e' ∧ key e' = key e := by
    rw [← h.mem, hs]
    simp
  have hother (k' : α) (hk : k' ≠ key e) : (MultiMap.remove m (key e) v)[k']? = m[k']? := by
    rw [hr]
    split_ifs
    · exact Std.ExtTreeMap.lookup_erase_ne hk
    · exact Std.ExtTreeMap.lookup_insert_ne hk
  constructor
  · intro k' v'
    rw [Std.ExtTreeMap.lookup_erase]
    by_cases hk : k' = key e
    case neg =>
      rw [hother k' hk, h.mem]
      split_ifs with hv'
      · subst hv'
        simp [hv, Ne.symm hk]
      · rfl
    case pos =>
      subst hk
      have hiff : (∃ s, (MultiMap.remove m (key e) v)[key e]? = some s ∧ v' ∈ s) ↔
          v' ∈ set.erase v := by
        rw [hr]
        split_ifs with he
        · simp [Std.ExtTreeSet.isEmpty_iff.mp he]
        · simp
      rw [hiff, hmem, hset]
      split_ifs with hv' <;> simp [hv']
  · intro k' s hs'
    by_cases hk : k' = key e
    case neg => exact h.nonempty k' s (hother k' hk ▸ hs')
    case pos =>
      subst hk
      rw [hr] at hs'
      split_ifs at hs' with he
      · simp at hs'
      · rw [Std.ExtTreeMap.getElem?_insert_self] at hs'
        cases hs'
        by_contra hc
        refine he (Std.ExtTreeSet.isEmpty_iff.mpr ?_)
        apply Std.ExtTreeSet.ext_mem
        intro v'
        simp only [Std.ExtTreeSet.not_mem_empty, iff_false]
        exact fun hm => hc ⟨v', hm⟩

end Indexes
end MultiMap
