import Mathlib.Data.List.Basic

-- A map that may forget entries at any time. What it holds under a key was inserted under that key.
class CacheMap (M : Type) (α β : outParam Type) where
  get : M → α → Option β × M
  insert : M → α → β → M
  remove : M → α → M
  Holds : M → α → β → Prop
  holds_of_get {m k v} : (get m k).1 = some v → Holds m k v
  holds_of_holds_get {m k k' v} : Holds (get m k).2 k' v → Holds m k' v
  holds_of_holds_insert {m k v k' v'} : Holds (insert m k v) k' v' → k' = k ∧ v' = v ∨ Holds m k' v'
  holds_of_holds_remove {m k k' v} : Holds (remove m k) k' v → Holds m k' v

namespace CacheMap

variable {M α β : Type} [CacheMap M α β]

def All (P : α → β → Prop) (m : M) : Prop :=
  ∀ k v, Holds m k v → P k v

def Empty (m : M) : Prop :=
  ∀ k v, ¬Holds m k v

variable {m : M} {k : α} {v : β} {P : α → β → Prop}

theorem All.of_empty (h : Empty m) : All P m :=
  fun k v hv => absurd hv (h k v)

theorem All.remove (h : All P m) (k : α) : All P (remove m k) :=
  fun k' v hv => h k' v (holds_of_holds_remove hv)

theorem All.insert (h : All P m) (hv : P k v) : All P (insert m k v) := by
  intro k' v' hh
  rcases holds_of_holds_insert hh with ⟨rfl, rfl⟩ | hh
  · exact hv
  · exact h k' v' hh

theorem All.get (h : All P m) (k : α) : All P (get m k).2 ∧ ∀ v, (get m k).1 = some v → P k v :=
  ⟨fun k' v hv => h k' v (holds_of_holds_get hv), fun v hv => h k v (holds_of_get hv)⟩

end CacheMap

-- Holds the entries used last, up to a number of entries. The one used last is the first.
structure LruMap (α β : Type) where
  capacity : Nat
  entries : List (α × β) := []

namespace LruMap

variable {α β : Type} [DecidableEq α] (m : LruMap α β) (k : α) (v : β)

def remove : LruMap α β :=
  { m with entries := m.entries.filter (·.1 ≠ k) }

-- The oldest entry makes room.
def insert : LruMap α β :=
  { m with entries := ((k, v) :: (m.remove k).entries).take m.capacity }

def get : Option β × LruMap α β :=
  match m.entries.find? (·.1 = k) with
  | some e => (some e.2, { m with entries := e :: (m.remove k).entries })
  | none => (none, m)

variable {m k v}

theorem mem_of_get (h : (m.get k).1 = some v) : (k, v) ∈ m.entries := by
  rw [get] at h
  split at h
  case h_1 e he =>
    have hk : e.1 = k := by simpa using List.find?_some he
    cases h
    exact hk ▸ List.mem_of_find?_eq_some he
  case h_2 => cases h

theorem mem_of_mem_get (h : e ∈ (m.get k).2.entries) : e ∈ m.entries := by
  rw [get] at h
  split at h
  case h_1 he =>
    rcases List.mem_cons.mp h with rfl | h
    · exact List.mem_of_find?_eq_some he
    · exact (List.mem_filter.mp h).1
  case h_2 => exact h

instance : CacheMap (LruMap α β) α β where
  get := get
  insert := insert
  remove := remove
  Holds m k v := (k, v) ∈ m.entries
  holds_of_get := mem_of_get
  holds_of_holds_get := mem_of_mem_get
  holds_of_holds_insert h := by
    rcases List.mem_cons.mp (List.mem_of_mem_take h) with he | h
    · exact .inl (Prod.mk.inj he)
    · exact .inr (List.mem_filter.mp h).1
  holds_of_holds_remove h := (List.mem_filter.mp h).1

end LruMap
