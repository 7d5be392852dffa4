import Mathlib

-- A stack of maps over a base map. A key may be present in any number of the layers, and what is
-- seen of it is its value in the innermost layer that holds it.
@[ext]
structure Layers (K W : Type) where
  base : K → Option W
  opened : List (K → Option W)

namespace Layers

variable {K W : Type} {l l' : Layers K W} {k k' : K} {w : W}

def empty : Layers K W where
  base _ := none
  opened := []

def depth (l : Layers K W) : Nat :=
  l.opened.length

def innermost (l : Layers K W) : K → Option W :=
  l.opened.headD l.base

-- All values of a key, the innermost first.
def versions (l : Layers K W) (k : K) : List W :=
  (l.opened ++ [l.base]).filterMap (· k)

def current (l : Layers K W) (k : K) : Option W :=
  (l.versions k).head?

def mapInnermost (l : Layers K W) (f : (K → Option W) → K → Option W) : Layers K W :=
  match l.opened with
  | [] => { l with base := f l.base }
  | t :: ts => { l with opened := f t :: ts }

def write [DecidableEq K] (l : Layers K W) (k : K) (w : W) : Layers K W :=
  l.mapInnermost (Function.update · k (some w))

def writeAll [DecidableEq K] (l : Layers K W) (ks : List K) (w : W) : Layers K W :=
  l.mapInnermost fun t k => if k ∈ ks then some w else t k

def start (l : Layers K W) : Layers K W :=
  { l with opened := (fun _ => none) :: l.opened }

def rollback (l : Layers K W) : Layers K W :=
  { l with opened := l.opened.tail }

-- Drops open layers until at most `n` are left.
def rollbackTo (l : Layers K W) (n : Nat) : Layers K W :=
  { l with opened := l.opened.drop (l.depth - n) }

def merge (t b : K → Option W) : K → Option W :=
  fun k => (t k).or (b k)

def commit (l : Layers K W) : Layers K W :=
  match l.opened with
  | [] => l
  | t :: ts => { l with opened := ts }.mapInnermost (merge t)

theorem versions_empty : (empty : Layers K W).versions k = [] :=
  rfl

theorem depth_mapInnermost {f} : (l.mapInnermost f).depth = l.depth := by
  unfold mapInnermost
  split <;> simp [depth, *]

theorem depth_write [DecidableEq K] : (l.write k w).depth = l.depth :=
  depth_mapInnermost

theorem depth_rollback : l.rollback.depth = l.depth - 1 := by
  simp [rollback, depth]

theorem depth_commit : l.commit.depth = l.depth - 1 := by
  unfold commit
  split
  case _ h => simp [depth, h]
  case _ t ts h => rw [depth_mapInnermost]; simp [depth, h]

theorem innermost_mapInnermost {f} : (l.mapInnermost f).innermost = f l.innermost := by
  unfold mapInnermost
  split <;> simp [innermost, *]

def below (l : Layers K W) (k : K) : List W :=
  match l.opened with
  | [] => []
  | _ :: ts => (ts ++ [l.base]).filterMap (· k)

theorem versions_eq : l.versions k = (l.innermost k).toList ++ l.below k := by
  unfold versions below innermost
  cases l.opened
  case nil => cases h : l.base k <;> simp [h]
  case cons t ts => cases h : t k <;> simp [h]

theorem below_mapInnermost {f} : (l.mapInnermost f).below k = l.below k := by
  unfold mapInnermost below
  cases h : l.opened <;> simp

theorem versions_mapInnermost {f} :
    (l.mapInnermost f).versions k = (f l.innermost k).toList ++ l.below k := by
  rw [versions_eq, innermost_mapInnermost, below_mapInnermost]

theorem versions_write_self [DecidableEq K] : (l.write k w).versions k = w :: l.below k := by
  simp [write, versions_mapInnermost]

theorem versions_write_ne [DecidableEq K] (h : k' ≠ k) :
    (l.write k w).versions k' = l.versions k' := by
  rw [write, versions_mapInnermost, Function.update_of_ne h, ← versions_eq]

theorem versions_eq_below (h : l.innermost k = none) : l.versions k = l.below k := by
  simp [versions_eq, h]

theorem versions_eq_cons (h : l.innermost k = some w) : l.versions k = w :: l.below k := by
  simp [versions_eq, h]

theorem rollback_versions (h : l.depth ≠ 0) : l.rollback.versions k = l.below k := by
  unfold depth at h
  unfold rollback versions below
  cases ho : l.opened <;> simp_all

theorem commit_versions_of_mem {t ts} (ho : l.opened = t :: ts) (h : t k = some w) :
    l.commit.versions k = w :: l.rollback.below k := by
  simp [commit, ho, versions_mapInnermost, merge, h, rollback]

theorem commit_versions_of_not_mem {t ts} (ho : l.opened = t :: ts) (h : t k = none) :
    l.commit.versions k = l.versions k := by
  rw [commit, ho]
  simp only [versions_mapInnermost, merge, h, Option.none_or]
  rw [← versions_eq]
  simp [versions, ho, h]

theorem current_commit : l.commit.current k = l.current k := by
  cases ho : l.opened
  case nil => simp [commit, ho]
  case cons t ts =>
    cases h : t k
    case none => rw [current, commit_versions_of_not_mem ho h, current]
    case some =>
      rw [current, commit_versions_of_mem ho h]
      simp [current, versions, ho, h]

theorem mapInnermost_mapInnermost {f g} :
    (l.mapInnermost f).mapInnermost g = l.mapInnermost (g ∘ f) := by
  unfold mapInnermost
  cases h : l.opened <;> simp

theorem mapInnermost_id : l.mapInnermost id = l := by
  obtain ⟨base, opened⟩ := l
  cases opened <;> rfl

theorem writeAll_nil [DecidableEq K] : l.writeAll [] w = l := by
  exact mapInnermost_id

theorem writeAll_cons [DecidableEq K] : l.writeAll (k :: ks) w = (l.write k w).writeAll ks w := by
  rw [writeAll, writeAll, write, mapInnermost_mapInnermost]
  congr 1
  funext t k'
  by_cases hk : k' = k <;> simp [hk]

theorem depth_rollbackTo : (l.rollbackTo n).depth = min l.depth n := by
  rw [rollbackTo, depth, List.length_drop, ← depth]
  omega

theorem rollbackTo_of_le (h : l.depth ≤ n) : l.rollbackTo n = l := by
  rw [rollbackTo, Nat.sub_eq_zero_of_le h, List.drop_zero]

theorem current_rollbackTo (h : ∀ t ∈ l.opened.take (l.depth - n), t k = none) :
    (l.rollbackTo n).current k = l.current k := by
  have hd : (l.opened.take (l.depth - n)).filterMap (· k) = [] :=
    List.filterMap_eq_nil_iff.mpr h
  have hv : l.versions k = (l.rollbackTo n).versions k := by
    rw [versions, ← List.take_append_drop (l.depth - n) l.opened, List.append_assoc,
      List.filterMap_append, hd, List.nil_append]
    rfl
  rw [current, current, hv]

theorem rollback_rollbackTo (h : n < l.depth) : l.rollback.rollbackTo n = l.rollbackTo n := by
  rw [rollbackTo, depth_rollback, rollback, ← List.drop_one, List.drop_drop]
  congr 2
  omega

end Layers
