import Mathlib

-- A list that carries a bound on its length.
@[ext]
structure BoundedVec (n : Nat) (α : Type) where
  toList : List α
  length_le : toList.length ≤ n
  deriving DecidableEq

namespace BoundedVec

variable {n : Nat} {α : Type} {v u : BoundedVec n α} {a : α} {l : List α}

def empty : BoundedVec n α :=
  ⟨[], Nat.zero_le n⟩

def tryPush (v : BoundedVec n α) (a : α) : Option (BoundedVec n α) :=
  if h : v.toList.length < n then
    some ⟨v.toList ++ [a], by rw [List.length_append]; exact h⟩
  else
    none

def retain (v : BoundedVec n α) (p : α → Bool) : BoundedVec n α :=
  ⟨v.toList.filter p, (List.length_filter_le p v.toList).trans v.length_le⟩

def truncateFrom (l : List α) : BoundedVec n α :=
  ⟨l.take n, List.length_take_le n l⟩

@[simp]
theorem toList_empty : (empty : BoundedVec n α).toList = [] :=
  rfl

theorem toList_truncateFrom (h : l.length ≤ n) : (truncateFrom l : BoundedVec n α).toList = l :=
  List.take_of_length_le h

theorem tryPush_eq_some :
    v.tryPush a = some u ↔ v.toList.length < n ∧ u.toList = v.toList ++ [a] := by
  rw [tryPush]
  split_ifs with h
  · simp [h, BoundedVec.ext_iff, eq_comm]
  · simp [h]

theorem exists_tryPush (h : v.toList.length < n) : ∃ u, v.tryPush a = some u := by
  rw [tryPush, dif_pos h]
  exact ⟨_, rfl⟩

end BoundedVec
