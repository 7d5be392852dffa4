import Mathlib

-- A binary tree built row by row: neighbours are paired up, and the last item of an odd row
-- is promoted to the row above.
namespace Pairing

variable {α β : Type} {f : α → α → α} {l : List α} {a : α} {p : Nat}

def row (f : α → α → α) : List α → List α
  | a :: b :: l => f a b :: row f l
  | l => l

@[simp]
theorem length_row (l : List α) : (row f l).length = (l.length + 1) / 2 := by
  fun_induction row f l
  case case1 a b l hi => simp; omega
  case case2 l h =>
    rcases l with _ | ⟨a, _ | ⟨b, l⟩⟩
    · simp
    · simp
    · exact absurd rfl (h a b l)

theorem row_ne_nil (h : l ≠ []) : row f l ≠ [] := by
  rw [← List.length_pos_iff] at h ⊢
  rw [length_row]
  omega

-- The item a position is paired up with.
def sibling (l : List α) (p : Nat) : Option α :=
  if p % 2 = 0 then l[p + 1]? else l[p - 1]?

theorem sibling_add_two {a b : α} : sibling (a :: b :: l) (p + 2) = sibling l p := by
  rw [sibling, sibling, Nat.add_mod_right]
  split_ifs with h
  · rfl
  · cases p
    case zero => simp at h
    case succ p => rfl

theorem sibling_eq_none (h : p < l.length) : sibling l p = none ↔ p + 1 = l.length ∧ p % 2 = 0 := by
  rw [sibling]
  split_ifs with hp <;> simp only [List.getElem?_eq_none_iff] <;> omega

-- The item at an even position is the left one of its pair.
def pair (f : α → α → α) (p : Nat) (a b : α) : α :=
  if p % 2 = 0 then f a b else f b a

theorem getElem?_row {a : α} (h : l[p]? = some a) :
    (row f l)[p / 2]? = some ((sibling l p).elim a (pair f p a)) := by
  fun_induction row f l generalizing p
  case case1 x y l hi =>
    rcases p with _ | _ | p
    · simp_all [sibling, pair]
    · simp_all [sibling, pair]
    · have hd : (p + 1 + 1) / 2 = p / 2 + 1 := by omega
      have hp : pair f (p + 1 + 1) a = pair f p a := by
        funext b
        rw [pair, pair, show p + 1 + 1 = p + 2 from rfl, Nat.add_mod_right]
      rw [sibling_add_two, hp, hd]
      exact hi h
  case case2 l hl =>
    rcases l with _ | ⟨x, _ | ⟨y, l⟩⟩
    · simp at h
    · cases p
      case zero => simp_all [sibling]
      case succ p => simp at h
    · exact absurd rfl (hl x y l)

theorem row_map {g : β → β → β} {h : α → β} (hf : ∀ a b, h (f a b) = g (h a) (h b)) (l : List α) :
    row g (l.map h) = (row f l).map h := by
  fun_induction row f l
  case case1 a b l hi => simp [row, hi, hf]
  case case2 l hl =>
    rcases l with _ | ⟨a, _ | ⟨b, l⟩⟩
    · rfl
    · rfl
    · exact absurd rfl (hl a b l)

@[elab_as_elim]
theorem row_induction (f : α → α → α) {motive : List α → Prop} (nil : motive [])
    (single : ∀ a, motive [a]) (step : ∀ l, 2 ≤ l.length → motive (row f l) → motive l)
    (l : List α) : motive l := by
  induction hn : l.length using Nat.strong_induction_on generalizing l
  case h n hi =>
    rcases l with _ | ⟨a, _ | ⟨b, l⟩⟩
    · exact nil
    · exact single a
    · apply step _ (by simp)
      refine hi _ ?_ _ rfl
      simp at hn ⊢
      omega

-- The item above all others.
def top (f : α → α → α) : List α → Option α
  | [] => none
  | [a] => some a
  | a :: b :: l => top f (f a b :: row f l)
termination_by l => l.length
decreasing_by simp; omega

@[simp]
theorem top_singleton : top f [a] = some a := by
  rw [top]

theorem top_row (h : 2 ≤ l.length) : top f (row f l) = top f l := by
  rcases l with _ | ⟨a, _ | ⟨b, l⟩⟩
  · simp at h
  · simp at h
  · rw [row, top]

theorem top_map {g : β → β → β} {h : α → β} (hf : ∀ a b, h (f a b) = g (h a) (h b)) (hl : l ≠ []) :
    top g (l.map h) = (top f l).map h := by
  induction l using row_induction f
  case nil => contradiction
  case single a => simp
  case step l h2 hi =>
    have hr : row f l ≠ [] := row_ne_nil hl
    rw [← top_row h2, ← hi hr, ← row_map hf, top_row (by simpa using h2)]

theorem isSome_top (h : l ≠ []) : (top f l).isSome := by
  induction l using row_induction f
  case nil => contradiction
  case single a => simp
  case step l h2 hi => exact top_row h2 ▸ hi (row_ne_nil h)

-- The siblings that are met on the way up from a position.
def siblings (f : α → α → α) : List α → Nat → List α
  | a :: b :: l, p => (sibling (a :: b :: l) p).toList ++ siblings f (f a b :: row f l) (p / 2)
  | _, _ => []
termination_by l => l.length
decreasing_by simp; omega

@[simp]
theorem siblings_singleton : siblings f [a] p = [] := by
  rw [siblings]
  simp

theorem siblings_row (h : 2 ≤ l.length) :
    siblings f l p = (sibling l p).toList ++ siblings f (row f l) (p / 2) := by
  rcases l with _ | ⟨a, _ | ⟨b, l⟩⟩
  · simp at h
  · simp at h
  · rw [siblings, row]

inductive PairTree (α : Type)
  | leaf (a : α)
  | node (l r : PairTree α)
  deriving DecidableEq

namespace PairTree

variable {t s : PairTree α} {path path' : List Bool} {h : α → β}

def map (h : α → β) : PairTree α → PairTree β
  | leaf a => leaf (h a)
  | node l r => node (l.map h) (r.map h)

-- The subtree at the end of a path from the root, on which `true` stands for the right branch.
def follow : PairTree α → List Bool → Option (PairTree α)
  | t, [] => some t
  | leaf _, _ :: _ => none
  | node l r, right :: path => (if right then r else l).follow path

def content? : PairTree α → Option α
  | leaf a => some a
  | node _ _ => none

theorem follow_append : t.follow (path ++ path') = (t.follow path).bind (·.follow path') := by
  induction path generalizing t
  case nil => rw [follow]; rfl
  case cons b path hi =>
    cases t
    case leaf => rfl
    case node => exact hi

theorem follow_map : (t.map h).follow path = (t.follow path).map (·.map h) := by
  induction path generalizing t
  case nil => rw [follow]; rfl
  case cons b path hi =>
    cases t
    case leaf => rfl
    case node l r => cases b <;> exact hi

theorem content?_map : (t.map h).content? = t.content?.map h := by
  cases t <;> rfl

theorem content?_follow_map (t : PairTree α) (h : α → β) (path : List Bool) :
    ((t.map h).follow path).bind content? = ((t.follow path).bind content?).map h := by
  rw [follow_map]
  cases t.follow path
  case none => rfl
  case some s => exact content?_map

end PairTree

def treeOf (l : List α) : Option (PairTree α) :=
  top .node (l.map .leaf)

theorem treeOf_map {h : α → β} (hl : l ≠ []) : treeOf (l.map h) = (treeOf l).map (·.map h) := by
  have hc : (l.map h).map PairTree.leaf = (l.map PairTree.leaf).map (·.map h) := by
    rw [List.map_map, List.map_map]
    rfl
  rw [treeOf, hc]
  exact top_map (fun _ _ => rfl) (by simpa using hl)

end Pairing
