import RostroModel.Library.BoundedVec

namespace Xcm

-- The junctions, one of which stands for a location that is not known further.
class Junction (J : Type) extends LinearOrder J where
  onlyChild : J

abbrev maxJunctions : Nat :=
  8

abbrev InteriorLocation (J : Type) :=
  BoundedVec maxJunctions J

@[ext]
structure Location (J : Type) where
  parents : Nat
  interior : InteriorLocation J
  parents_le : parents ≤ 255

variable {J : Type}

-- The derived order: first by the parents, then by the number of
-- junctions, then junction by junction.
def Location.key (l : Location J) : Nat ×ₗ (Nat ×ₗ List J) :=
  toLex (l.parents, toLex (l.interior.toList.length, l.interior.toList))

theorem Location.key_injective : Function.Injective (Location.key (J := J)) := by
  intro a b h
  have hp : a.parents = b.parents := congrArg (fun k => (ofLex k).1) h
  have hi : a.interior.toList = b.interior.toList := congrArg (fun k => (ofLex (ofLex k).2).2) h
  exact Location.ext hp (BoundedVec.ext hi)

variable [Junction J]

instance : LinearOrder (Location J) :=
  LinearOrder.lift' Location.key Location.key_injective

-- The junctions by which the context is reached from `n` parents up.
def invertLoop : Nat → List J → List J → Option (List J)
  | 0, _, junctions => some junctions
  | n + 1, itself, junctions =>
    if junctions.length < maxJunctions then
      invertLoop n itself.dropLast (itself.getLast?.getD Junction.onlyChild :: junctions)
    else
      none

theorem length_invertLoop {n : Nat} {itself junctions l : List J}
    (h : invertLoop n itself junctions = some l) (hj : junctions.length ≤ maxJunctions) :
    l.length ≤ maxJunctions := by
  induction n generalizing itself junctions
  case zero =>
    cases h
    exact hj
  case succ n hi =>
    rw [invertLoop] at h
    split_ifs at h with hl
    exact hi h hl

def invertTarget (context : InteriorLocation J) (target : Location J) : Option (Location J) :=
  match h : invertLoop target.parents context.toList [] with
  | none => none
  | some junctions =>
    some
      { parents := target.interior.toList.length
        interior := ⟨junctions, length_invertLoop h (Nat.zero_le _)⟩
        parents_le := target.interior.length_le.trans (by decide) }

-- The last junctions of the prefix cancel out with the parents of the suffix.
def cancel {α : Type} : Nat → List α → Nat × List α
  | 0, l => (0, l)
  | parents + 1, l => if l.isEmpty then (parents + 1, l) else cancel parents l.dropLast

theorem length_cancel {α : Type} {parents : Nat} {l : List α} :
    (cancel parents l).2.length = l.length - parents := by
  induction parents generalizing l
  case zero => rfl
  case succ parents hi =>
    rw [cancel]
    split_ifs with h
    · simp [List.isEmpty_iff.mp h]
    · rw [hi, List.length_dropLast]
      omega

def Location.prependWith (self front : Location J) : Option (Location J) :=
  let prependInterior := front.interior.toList.length - self.parents
  let finalInterior := self.interior.toList.length + prependInterior
  let suffixParents := self.parents - front.interior.toList.length
  let finalParents := front.parents + suffixParents
  if h : finalInterior > maxJunctions then
    none
  else if finalParents > 255 then
    none
  else
    let cancelled := cancel self.parents front.interior.toList
    some
      { parents := min (cancelled.1 + front.parents) 255
        interior := ⟨cancelled.2 ++ self.interior.toList, by
          rw [List.length_append, length_cancel]
          omega⟩
        parents_le := min_le_right _ _ }

-- Parents are dropped as long as the way back down is the one of the context.
def simplifyLoop (context : List J) : Nat → List J → Nat × List J
  | 0, l => (0, l)
  | parents + 1, l =>
    match l, context[context.length - (parents + 1)]? with
    | i :: l, some j => if i = j then simplifyLoop context parents l else (parents + 1, i :: l)
    | l, _ => (parents + 1, l)

theorem simplifyLoop_le {context l : List J} {parents : Nat} :
    (simplifyLoop context parents l).1 ≤ parents ∧
      (simplifyLoop context parents l).2.length ≤ l.length := by
  induction parents generalizing l
  case zero => exact ⟨le_rfl, le_rfl⟩
  case succ parents hi =>
    unfold simplifyLoop
    split
    · split_ifs
      · have ⟨h1, h2⟩ := hi (l := ‹List J›)
        exact ⟨by omega, by rw [List.length_cons]; omega⟩
      · exact ⟨le_rfl, le_rfl⟩
    · exact ⟨le_rfl, le_rfl⟩

def Location.simplify (self : Location J) (context : InteriorLocation J) : Location J :=
  if context.toList.length < self.parents then
    self
  else
    let simple := simplifyLoop context.toList self.parents self.interior.toList
    { parents := simple.1
      interior := ⟨simple.2, simplifyLoop_le.2.trans self.interior.length_le⟩
      parents_le := simplifyLoop_le.1.trans self.parents_le }

-- The location from the point of view of the target, unless it gets too long.
def Location.reanchor (self target : Location J) (context : InteriorLocation J) :
    Option (Location J) := do
  let invertedTarget ← invertTarget context target
  let self ← self.prependWith invertedTarget
  return self.simplify target.interior

end Xcm
