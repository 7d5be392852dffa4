import RostroModel.ForkTree.Basic
import RostroModel.Library.Except

namespace ForkTree

variable {H N V E : Type}

@[elab_as_elim]
theorem Node.induction {P : Node H N V → Prop}
    (h : ∀ hash number data children, (∀ c ∈ children, P c) → P (.mk hash number data children))
    (node : Node H N V) : P node :=
  Node.rec (motive_1 := P) (motive_2 := fun nodes => ∀ c ∈ nodes, P c) h (by simp)
    (fun _ _ hc hcs => List.forall_mem_cons.mpr ⟨hc, hcs⟩) node

-- What a search below a node has met: no ancestor of the block, ancestors which were all rejected
-- by the predicate, or one that passes it.
inductive Found
  | miss
  | rejected
  | found (path : List Nat)
  deriving DecidableEq, Repr

namespace Found

def path? : Found → Option (List Nat)
  | found path => some path
  | _ => none

def under (i : Nat) : Found → Found
  | found path => found (i :: path)
  | result => result

end Found

open Node

variable [LinearOrder N] (hash : H) (number : N) (isDescendentOf : H → H → Except E Bool)
variable (predicate : V → Bool)

-- An ancestor was met. The node is the result if it passes the predicate.
def accept (data : V) : Found :=
  if predicate data then .found [] else .rejected

-- The node comes after what is below it, and is only queried if there was no ancestor.
def finish (h : H) (data : V) : Found → Except E Found
  | .found path => .ok (.found path)
  | .rejected => .ok (accept predicate data)
  | .miss => do
    if ← isDescendentOf h hash then pure (accept predicate data) else pure .miss

mutual

-- The search as a recursion over the tree.
def search : Node H N V → Except E Found
  | .mk h _ data children =>
    do finish hash isDescendentOf predicate h data (← searchChildren 0 children)

def searchChildren : Nat → List (Node H N V) → Except E Found
  | _, [] => .ok .miss
  | i, child :: children =>
    if child.number < number then
      match search child with
      | .ok .miss => searchChildren (i + 1) children
      | result => result.map (Found.under i)
    else searchChildren (i + 1) children

end

-- Once an ancestor was met, the stack is searched for the first node that passes the predicate.
def unwind : List (Node H N V × Nat) → Option (List (Node H N V × Nat))
  | [] => none
  | (node, _) :: stack => if predicate node.data then some stack else unwind stack

-- The loop, started at a node on top of a stack, goes on as the recursion says.
def Continues (stack : List (Node H N V × Nat)) (passes : Nat)
    (loop : Except E (Option (List (Node H N V × Nat)) × Bool)) : Except E Found → Prop
  | .error e => loop = .error e
  | .ok .miss => ∃ passes' ≥ passes,
    loop = searchLoop hash number isDescendentOf predicate passes' stack false
  | .ok .rejected => loop = .ok (unwind predicate stack, true)
  | .ok (.found path) =>
    ∃ above, loop = .ok (some (above ++ stack), true) ∧ (above.map (·.2 - 1)).reverse = path

variable {hash number isDescendentOf predicate}

theorem searchLoop_unwind {stack : List (Node H N V × Nat)} {passes : Nat}
    (h : stack.length < passes) :
    searchLoop hash number isDescendentOf predicate passes stack true =
      .ok (unwind predicate stack, true) := by
  induction stack generalizing passes
  case nil =>
    obtain ⟨passes, rfl⟩ := Nat.exists_eq_succ_of_ne_zero (Nat.ne_of_gt h)
    rfl
  case cons entry stack hi =>
    obtain ⟨passes, rfl⟩ := Nat.exists_eq_succ_of_ne_zero (Nat.ne_of_gt (Nat.zero_lt_of_lt h))
    have hp : stack.length < passes := by simpa using h
    by_cases hd : predicate entry.1.data <;> simp [searchLoop, unwind, hi hp, hd]

theorem Continues.mono {stack : List (Node H N V × Nat)} {passes passes' : Nat} {loop r}
    (hp : passes ≤ passes')
    (h : Continues hash number isDescendentOf predicate stack passes' loop r) :
    Continues hash number isDescendentOf predicate stack passes loop r := by
  rcases r with e | _ | _ | path
  case ok.miss =>
    obtain ⟨p, hp', hl⟩ := h
    exact ⟨p, hp.trans hp', hl⟩
  all_goals exact h

section Loop

variable {node : Node H N V} {i : Nat} {stack : List (Node H N V × Nat)} {passes : Nat}

theorem continues_here (hi : node.children[i]? = none) (hp : stack.length < passes) :
    Continues hash number isDescendentOf predicate stack passes
      (searchLoop hash number isDescendentOf predicate (passes + 1) ((node, i) :: stack) false)
      (finish hash isDescendentOf predicate node.hash node.data .miss) := by
  have hl : searchLoop hash number isDescendentOf predicate (passes + 1)
      ((node, i) :: stack) false = (do
        if ← isDescendentOf node.hash hash then
          if predicate node.data then .ok (some stack, true) else .ok (unwind predicate stack, true)
        else searchLoop hash number isDescendentOf predicate passes stack false) := by
    rw [searchLoop, hi]
    simp [searchLoop_unwind hp]
  rw [hl, finish]
  cases isDescendentOf node.hash hash
  case error => exact rfl
  case ok isDescendent =>
    cases isDescendent
    case false => exact ⟨passes, le_rfl, rfl⟩
    case true =>
      by_cases hd : predicate node.data <;> simp [accept, hd, Continues]

-- The part of the loop that is spent below the node of the top of the stack, from one of its
-- children on. The recursion is over the remaining children.
theorem continues_children (pre rest : List (Node H N V)) (hc : node.children = pre ++ rest)
    (ht : ∀ child ∈ rest, ∀ stack passes, stack.length < passes →
      Continues hash number isDescendentOf predicate stack passes
        (searchLoop hash number isDescendentOf predicate (2 * child.size - 1 + passes)
          ((child, 0) :: stack) false)
        (search hash number isDescendentOf predicate child))
    (hp : stack.length < passes) :
    Continues hash number isDescendentOf predicate stack passes
      (searchLoop hash number isDescendentOf predicate (2 * sizes rest + 1 + passes)
        ((node, pre.length) :: stack) false)
      (searchChildren hash number isDescendentOf predicate pre.length rest >>=
        finish hash isDescendentOf predicate node.hash node.data) := by
  induction rest generalizing pre passes
  case nil =>
    have hi : node.children[pre.length]? = none := by simp [hc]
    rw [sizes, Nat.add_comm 1]
    exact continues_here hi hp
  case cons child rest hi =>
    have hc' : node.children = (pre ++ [child]) ++ rest := by simp [hc]
    have ht' := List.forall_mem_cons.mp ht
    have hchild : node.children[pre.length]? = some child := by simp [hc]
    have hs : 1 ≤ child.size := by cases child; simp [size]
    -- One pass pushes the child if its number allows it.
    obtain ⟨k, hk⟩ : ∃ k, 2 * sizes (child :: rest) + 1 + passes = k + 1 :=
      ⟨2 * sizes (child :: rest) + passes, by omega⟩
    rw [hk, searchLoop, if_neg (by simp), hchild, searchChildren]
    rw [sizes] at hk
    have hi' (passes : Nat) (hp : stack.length < passes) := hi (pre ++ [child]) hc' ht'.2 hp
    simp only [List.length_append] at hi'
    by_cases hn : child.number < number
    case neg =>
      -- The passes that were meant for the child are left over.
      simp only [hn]
      have hb := hi' (2 * child.size - 1 + passes) (by omega)
      rw [show k = 2 * sizes rest + 1 + (2 * child.size - 1 + passes) by omega]
      exact hb.mono (Nat.le_add_left ..)
    case pos =>
      simp only [hn]
      have hb := ht'.1 ((node, pre.length + 1) :: stack) (2 * sizes rest + 1 + passes) (by
        simp only [List.length_cons]; omega)
      rw [show k = 2 * child.size - 1 + (2 * sizes rest + 1 + passes) by omega]
      generalize searchLoop hash number isDescendentOf predicate _ _ false = loop at hb ⊢
      rcases hr : search hash number isDescendentOf predicate child with e | _ | _ | path
      all_goals rw [hr] at hb
      case error => exact hb
      case ok.miss =>
        obtain ⟨p, hpp, rfl⟩ := hb
        obtain ⟨d, rfl⟩ := Nat.exists_eq_add_of_le hpp
        rw [Nat.add_assoc _ passes]
        exact (hi' (passes + d) (by omega)).mono (Nat.le_add_right ..)
      case ok.rejected =>
        change Continues hash number isDescendentOf predicate stack passes loop
          (.ok (accept predicate node.data))
        rw [Continues, unwind] at hb
        by_cases hd : predicate node.data <;> simpa [accept, Continues, hd] using hb
      case ok.found =>
        obtain ⟨above, hl, hpath⟩ := hb
        exact ⟨above ++ [(node, pre.length + 1)], by simpa using hl, by simp [hpath]⟩

theorem continues_node (node : Node H N V) : ∀ (stack : List (Node H N V × Nat)) (passes : Nat),
    stack.length < passes → Continues hash number isDescendentOf predicate stack passes
      (searchLoop hash number isDescendentOf predicate (2 * node.size - 1 + passes)
        ((node, 0) :: stack) false)
      (search hash number isDescendentOf predicate node) := by
  induction node using Node.induction
  case h h n data children hi =>
    intro stack passes hp
    have hc : (Node.mk h n data children).children = [] ++ children := rfl
    have hb := continues_children [] children hc hi hp
    rwa [show 2 * sizes children + 1 = 2 * (Node.mk h n data children).size - 1 by
      rw [size]; omega] at hb

end Loop

-- The search over the roots is the recursion, and a root is searched like a child.
theorem searchRoots_eq (i : Nat) (roots : List (Node H N V)) :
    searchRoots hash number isDescendentOf predicate i roots =
      (searchChildren hash number isDescendentOf predicate i roots).map Found.path? := by
  induction roots generalizing i
  case nil => rfl
  case cons root roots hi =>
    rw [searchRoots, searchChildren]
    by_cases hn : root.number < number
    case neg => rw [if_pos (not_lt.mp hn), if_neg hn, hi]
    case pos =>
      rw [if_neg (not_le.mpr hn), if_pos hn]
      have hs : 1 ≤ root.size := by cases root; simp [size]
      have hc : Continues hash number isDescendentOf predicate [] 1 _ _ :=
        continues_node root [] 1 Nat.one_pos
      rw [show 2 * root.size - 1 + 1 = 2 * root.size by omega] at hc
      rcases hr : search hash number isDescendentOf predicate root with e | _ | _ | path
      all_goals rw [hr] at hc
      case error => rw [show _ = _ from hc]; rfl
      case ok.miss =>
        obtain ⟨p, hp, hl⟩ := hc
        obtain ⟨p, rfl⟩ := Nat.exists_eq_add_of_le' hp
        rw [hl]
        exact hi (i + 1)
      case ok.rejected => rw [show _ = _ from hc]; rfl
      case ok.found =>
        obtain ⟨above, hl, hpath⟩ := hc
        rw [hl, Except.ok_bind, List.append_nil]
        simp only [hpath]
        rfl

theorem findNodeIndexWhere_eq (t : ForkTree H N V) :
    t.findNodeIndexWhere hash number isDescendentOf predicate =
      (searchChildren hash number isDescendentOf predicate 0 t.roots).map Found.path? :=
  searchRoots_eq 0 t.roots

theorem searchChildren_path (pre rest : List (Node H N V))
    (ht : ∀ child ∈ rest, ∀ path, search hash number isDescendentOf predicate child =
      .ok (.found path) →
      ∃ target, child.descend path = some target)
    (h : searchChildren hash number isDescendentOf predicate pre.length rest = .ok (.found path)) :
    ∃ target, nodeAt (pre ++ rest) path = some target := by
  induction rest generalizing pre
  case nil => simp [searchChildren] at h
  case cons child rest hi =>
    have ht' := List.forall_mem_cons.mp ht
    have hi' := hi (pre ++ [child]) ht'.2
    rw [List.length_append, List.append_assoc] at hi'
    rw [searchChildren] at h
    split_ifs at h with hn
    case neg => exact hi' h
    case pos =>
      rcases hr : search hash number isDescendentOf predicate child with e | _ | _ | p
      all_goals rw [hr] at h
      case ok.miss => exact hi' h
      case ok.found =>
        cases h
        obtain ⟨target, hd⟩ := ht'.1 p hr
        exact ⟨target, by simp [nodeAt, hd]⟩
      all_goals cases h

theorem path_of_accept {data : V} {path : List Nat} (h : accept predicate data = .found path) :
    path = [] := by
  unfold accept at h
  split_ifs at h
  cases h
  rfl

theorem search_path (node : Node H N V) : ∀ path,
    search hash number isDescendentOf predicate node = .ok (.found path) →
    ∃ target, node.descend path = some target := by
  induction node using Node.induction
  case h h n data children hi =>
    intro path hs
    rw [search] at hs
    rcases hr : searchChildren hash number isDescendentOf predicate 0 children with e | _ | _ | p
    all_goals rw [hr] at hs
    case error => cases hs
    case ok.found =>
      cases hs
      obtain ⟨target, ht⟩ := searchChildren_path [] children hi hr
      cases path
      case nil       => simp [nodeAt] at ht
      case cons i is => exact ⟨target, ht⟩
    case ok.rejected => exact ⟨_, by rw [path_of_accept (Except.ok.inj hs)]; rfl⟩
    case ok.miss =>
      rw [Except.ok_bind, finish] at hs
      cases hd : isDescendentOf h hash <;> rw [hd] at hs
      case error => cases hs
      case ok isDescendent =>
        cases isDescendent
        case false => cases hs
        case true  => exact ⟨_, by rw [path_of_accept (Except.ok.inj hs)]; rfl⟩

end ForkTree
