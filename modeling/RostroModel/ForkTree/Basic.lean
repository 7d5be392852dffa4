import Mathlib

inductive ForkTree.Node (H N V : Type)
  | mk (hash : H) (number : N) (data : V) (children : List (Node H N V))

-- A tree with several roots, which are ordered as they are stored.
@[ext]
structure ForkTree (H N V : Type) where
  roots : List (ForkTree.Node H N V) := []
  bestFinalizedNumber : Option N := none

namespace ForkTree

inductive Error (E : Type)
  | duplicate
  | unfinalizedAncestor
  | revert
  | client (error : E)
  deriving DecidableEq, Repr

inductive FinalizationResult (V : Type)
  | changed (data : Option V)
  | unchanged
  deriving DecidableEq, Repr

inductive FilterAction
  | remove
  | keepNode
  | keepTree
  deriving DecidableEq, Repr

variable {H N V E : Type}

namespace Node

def hash : Node H N V → H
  | mk hash .. => hash

def number : Node H N V → N
  | mk _ number .. => number

def data : Node H N V → V
  | mk _ _ data _ => data

def children : Node H N V → List (Node H N V)
  | mk _ _ _ children => children

def setChildren (node : Node H N V) (children : List (Node H N V)) : Node H N V :=
  mk node.hash node.number node.data children

section

variable (h : H) (n : N) (d : V) (cs : List (Node H N V))
include h n d cs

@[simp]
theorem hash_mk : (mk h n d cs).hash = h :=
  rfl

@[simp]
theorem number_mk : (mk h n d cs).number = n :=
  rfl

@[simp]
theorem data_mk : (mk h n d cs).data = d :=
  rfl

@[simp]
theorem children_mk : (mk h n d cs).children = cs :=
  rfl

end

@[simp]
theorem setChildren_mk (h : H) (n : N) (d : V) (cs cs' : List (Node H N V)) :
    (mk h n d cs).setChildren cs' = mk h n d cs' :=
  rfl

def pushChild (node child : Node H N V) : Node H N V :=
  node.setChildren (node.children ++ [child])

mutual

def size : Node H N V → Nat
  | mk _ _ _ children => sizes children + 1

def sizes : List (Node H N V) → Nat
  | [] => 0
  | node :: nodes => node.size + sizes nodes

end

theorem sizes_eq_sum (nodes : List (Node H N V)) : sizes nodes = (nodes.map size).sum := by
  induction nodes <;> simp_all [sizes]

theorem sizes_append (nodes nodes' : List (Node H N V)) :
    sizes (nodes ++ nodes') = sizes nodes + sizes nodes' := by
  simp [sizes_eq_sum]

theorem sizes_perm {nodes nodes' : List (Node H N V)} (h : nodes.Perm nodes') :
    sizes nodes = sizes nodes' := by
  rw [sizes_eq_sum, sizes_eq_sum]
  exact (h.map size).sum_eq

theorem size_eq (node : Node H N V) : node.size = sizes node.children + 1 := by
  cases node
  rfl

theorem size_le_of_mem (h : node ∈ nodes) : node.size ≤ sizes nodes := by
  rw [sizes_eq_sum]
  exact List.single_le_sum (by simp) _ (List.mem_map_of_mem h)

theorem sizes_le_of_sublist {nodes nodes' : List (Node H N V)} (h : nodes.Sublist nodes') :
    sizes nodes ≤ sizes nodes' := by
  rw [sizes_eq_sum, sizes_eq_sum]
  exact (h.map size).sum_le_sum (by simp)

theorem length_le_sizes (nodes : List (Node H N V)) : nodes.length ≤ sizes nodes := by
  induction nodes
  case nil => exact Nat.le_refl _
  case cons node nodes hi =>
    rw [sizes, size_eq, List.length_cons]
    omega

mutual

-- The length of the longest branch below the node.
def maxDepth : Node H N V → Nat
  | mk _ _ _ children => maxDepths children

def maxDepths : List (Node H N V) → Nat
  | [] => 0
  | node :: nodes => max (node.maxDepth + 1) (maxDepths nodes)

end

-- `sort_by_key` with the depth in decreasing order. The sort is stable.
def sortByDepth (nodes : List (Node H N V)) : List (Node H N V) :=
  nodes.insertionSort fun a b => b.maxDepth ≤ a.maxDepth

mutual

-- The depth of a node does not depend on the order of its children, so it does not matter that the
-- children are sorted after what is below them.
def rebalance : Node H N V → Node H N V
  | mk hash number data children => mk hash number data (sortByDepth (rebalanceAll children))

def rebalanceAll : List (Node H N V) → List (Node H N V)
  | [] => []
  | node :: nodes => node.rebalance :: rebalanceAll nodes

end

theorem rebalanceAll_eq (nodes : List (Node H N V)) : rebalanceAll nodes = nodes.map rebalance := by
  induction nodes <;> simp_all [rebalanceAll]

-- The node below this one at a path of indices.
def descend : Node H N V → List Nat → Option (Node H N V)
  | node, [] => some node
  | node, i :: path => node.children[i]?.bind (·.descend path)

theorem descend_size {node target : Node H N V}
    (h : node.descend path = some target) : target.size ≤ node.size := by
  induction path generalizing node
  case nil => cases h; exact Nat.le_refl _
  case cons i path hi =>
    obtain ⟨child, hc, hd⟩ := Option.bind_eq_some_iff.mp h
    have := hi hd
    have := size_le_of_mem (List.mem_of_getElem? hc)
    rw [size_eq node]
    omega

def modifyAt (f : Node H N V → Node H N V) : List Nat → Node H N V → Node H N V
  | [], node => f node
  | i :: path, node => node.setChildren (node.children.modify i (modifyAt f path))

end Node

open Node

def nodeAt (nodes : List (Node H N V)) : List Nat → Option (Node H N V)
  | [] => none
  | i :: path => nodes[i]?.bind (·.descend path)

def modifyAt (nodes : List (Node H N V)) (f : Node H N V → Node H N V) :
    List Nat → List (Node H N V)
  | [] => nodes
  | i :: path => nodes.modify i (Node.modifyAt f path)

-- Takes the node at a path out of the tree.
def detach : List (Node H N V) → List Nat → List (Node H N V)
  | nodes, [] => nodes
  | nodes, [i] => nodes.eraseIdx i
  | nodes, i :: j :: path =>
    nodes.modify i fun node => node.setChildren (detach node.children (j :: path))

-- `swap_remove`: the last element takes the place of the removed one.
def swapRemove {α : Type} (l : List α) (i : Nat) : List α :=
  match l.getLast? with
  | some last => (l.set i last).dropLast
  | none => l

theorem swapRemove_perm {α : Type} {l : List α} {i : Nat} {a : α} (h : l[i]? = some a) :
    l.Perm (a :: swapRemove l i) := by
  obtain ⟨hi, rfl⟩ := List.getElem?_eq_some_iff.mp h
  have hl : l ≠ [] := List.ne_nil_of_length_pos (by omega)
  obtain ⟨l, last, rfl⟩ : ∃ init last, l = init ++ [last] :=
    ⟨l.dropLast, l.getLast hl, (List.dropLast_append_getLast hl).symm⟩
  rw [swapRemove, List.getLast?_concat]
  rw [List.length_append] at hi
  rcases Nat.lt_or_eq_of_le (Nat.le_of_lt_succ hi) with hi | rfl
  · have hs : (l ++ [last]).set i last = l.set i last ++ [last] := List.set_append_left _ _ hi
    simp only [hs, List.dropLast_concat, List.getElem_append_left hi]
    calc l ++ [last]
      _ |>.Perm (last :: l) := List.perm_append_singleton last l
      _ |>.Perm (last :: l[i] :: l.eraseIdx i) :=
        (List.getElem_cons_eraseIdx_perm hi).symm.cons last
      _ |>.Perm (l[i] :: last :: l.eraseIdx i) := .swap ..
      _ |>.Perm (l[i] :: l.set i last) := (List.set_perm_cons_eraseIdx hi last).symm.cons _
  · simp

def rebalance (t : ForkTree H N V) : ForkTree H N V :=
  { t with roots := sortByDepth (rebalanceAll t.roots) }

variable [DecidableEq H] [LinearOrder N]

section Search

variable (hash : H) (number : N) (isDescendentOf : H → H → Except E Bool) (predicate : V → Bool)

-- The inner loop of `find_node_index_where`. The stack holds the nodes of the current branch with
-- the index of the next child to search into, the top first. Returns the stack that is left when a
-- node is found, and whether an ancestor was met at all.
def searchLoop : Nat → List (Node H N V × Nat) → Bool →
    Except E (Option (List (Node H N V × Nat)) × Bool)
  | 0, _, isDescendent => .ok (none, isDescendent)
  | _ + 1, [], isDescendent => .ok (none, isDescendent)
  | passes + 1, (node, i) :: stack, isDescendent =>
    match if isDescendent then none else node.children[i]? with
    | some child =>
      if child.number < number then
        searchLoop passes ((child, 0) :: (node, i + 1) :: stack) isDescendent
      else
        searchLoop passes ((node, i + 1) :: stack) isDescendent
    | none => do
      let isDescendent ← if isDescendent then pure true else isDescendentOf node.hash hash
      if isDescendent then
        if predicate node.data then
          .ok (some stack, true)
        else
          searchLoop passes stack true
      else
        searchLoop passes stack false

-- The outer loop. Every node below a root is visited once for itself and
-- once for each of its children.
def searchRoots : Nat → List (Node H N V) → Except E (Option (List Nat))
  | _, [] => .ok none
  | rootIdx, root :: roots =>
    if number ≤ root.number then
      searchRoots (rootIdx + 1) roots
    else do
      let (found, isDescendent) ←
        searchLoop hash number isDescendentOf predicate (2 * root.size) [(root, 0)] false
      match found with
      | some stack => .ok (some (rootIdx :: (stack.map (·.2 - 1)).reverse))
      | none => if isDescendent then .ok none else searchRoots (rootIdx + 1) roots

def findNodeIndexWhere (t : ForkTree H N V) : Except E (Option (List Nat)) :=
  searchRoots hash number isDescendentOf predicate 0 t.roots

end Search

-- No block may be imported or finalized below the best finalized one.
def reverts (t : ForkTree H N V) (number : N) : Bool :=
  t.bestFinalizedNumber.any (number ≤ ·)

section Operations

-- An operation returns the tree in any case, since what is done before an error is not undone.
variable (t : ForkTree H N V) (hash : H) (number : N) (isDescendentOf : H → H → Except E Bool)

def childrenAt : Option (List Nat) → List (Node H N V)
  | some path => (nodeAt t.roots path).elim [] Node.children
  | none => t.roots

def pushAt (node : Node H N V) : Option (List Nat) → ForkTree H N V
  | some path => { t with roots := modifyAt t.roots (·.pushChild node) path }
  | none => { t with roots := t.roots ++ [node] }

def importNode (data : V) : Except (Error E) Bool × ForkTree H N V :=
  if t.reverts number then (.error .revert, t) else
  match t.findNodeIndexWhere hash number isDescendentOf (fun _ => true) with
  | .error e => (.error (.client e), t)
  | .ok path =>
    let children := t.childrenAt path
    if children.any (·.hash = hash) then (.error .duplicate, t) else
    let t := t.pushAt (.mk hash number data []) path
    -- Rebalance may be required only if the branch depth was extended.
    (.ok path.isNone, if children.isEmpty then t.rebalance else t)

-- The last loop of `prune`. A child whose query fails is lost, and so are those after it.
def keepDescendents : List (Node H N V) → List (Node H N V) → List (Node H N V) →
    Except E Unit × List (Node H N V) × List (Node H N V)
  | [], kept, removed => (.ok (), kept, removed)
  | child :: children, kept, removed =>
    if child.number = number ∧ child.hash = hash then
      keepDescendents children (kept ++ [child]) removed
    else if number < child.number then
      match isDescendentOf hash child.hash with
      | .error e => (.error e, kept, removed)
      | .ok true => keepDescendents children (kept ++ [child]) removed
      | .ok false => keepDescendents children kept (removed ++ [child])
    else keepDescendents children kept (removed ++ [child])

mutual

-- The loop of `prune` from the new root down to the block: only the child that is an ancestor of
-- the block is kept. Returns the node as it is then, and the removed nodes.
def walk : Node H N V → List (Node H N V) → Except E Unit × Node H N V × List (Node H N V)
  | .mk h n data children, removed =>
    let (result, children, removed) := walkChildren children 0 children removed
    (result, .mk h n data children, removed)

def walkChildren (siblings : List (Node H N V)) : Nat → List (Node H N V) → List (Node H N V) →
    Except E Unit × List (Node H N V) × List (Node H N V)
  | _, [], removed =>
    keepDescendents hash number isDescendentOf siblings [] removed
  | idx, child :: children, removed =>
    if child.number < number then
      match isDescendentOf child.hash hash with
      | .error e => (.error e, siblings, removed)
      | .ok true =>
        let (result, child, removed) := walk child (removed ++ siblings.eraseIdx idx)
        (result, [child], removed)
      | .ok false => walkChildren siblings (idx + 1) children removed
    else walkChildren siblings (idx + 1) children removed

end

-- The removed nodes are returned as the stack of the iterator over them.
def prune (predicate : V → Bool) : Except (Error E) (List (Node H N V)) × ForkTree H N V :=
  match t.findNodeIndexWhere hash number isDescendentOf predicate with
  | .error e => (.error (.client e), t)
  | .ok none => (.ok [], t)
  | .ok (some path) =>
    match nodeAt t.roots path with
    | none      => (.ok [], t) -- not reached, a path that was found leads to a node
    | some root =>
      match walk hash number isDescendentOf root (detach t.roots path) with
      | (.error e, root, _) => (.error (.client e), { t with roots := [root] })
      | (.ok (), root, removed) =>
        (.ok removed, ({ t with roots := [root] } : ForkTree H N V).rebalance)

def finalizeRootAt (position : Nat) : Option (V × ForkTree H N V) :=
  t.roots[position]?.map fun node =>
    (node.data, { roots := node.children, bestFinalizedNumber := some node.number })

def finalizeRoot : Option (V × ForkTree H N V) :=
  (t.roots.findIdx? (·.hash = hash)).bind t.finalizeRootAt

-- The loops over the roots that were taken out of the tree: those to keep are put back. A root
-- whose query fails is lost, and so are those after it.
def retainRoots (retain : Node H N V → Except E Bool) :
    List (Node H N V) → List (Node H N V) → Bool → Except E Bool × List (Node H N V)
  | [], kept, changed => (.ok changed, kept)
  | root :: roots, kept, changed =>
    match retain root with
    | .error e => (.error e, kept)
    | .ok true => retainRoots retain roots (kept ++ [root]) changed
    | .ok false => retainRoots retain roots kept true

def finalizationResult (data : Option V) (changed : Bool) : FinalizationResult V :=
  if data.isSome || changed then .changed data else .unchanged

-- `root` is an ancestor of the block, which has to be finalized first.
def isUnfinalizedAncestor (root : Node H N V) : Except E Bool :=
  if root.number < number then isDescendentOf root.hash hash else .ok false

def isFinalizedBranch (root : Node H N V) : Except E Bool :=
  if number < root.number then isDescendentOf hash root.hash else .ok false

-- What is left once the roots are filtered.
def finishRetaining (data : Option V) :
    Except E Bool × List (Node H N V) → Except (Error E) (FinalizationResult V) × ForkTree H N V
  | (.error e, roots) => (.error (.client e), { t with roots })
  | (.ok changed, roots) =>
    (.ok (finalizationResult data changed), { roots, bestFinalizedNumber := some number })

def finalize : Except (Error E) (FinalizationResult V) × ForkTree H N V :=
  if t.reverts number then (.error .revert, t) else
  match t.finalizeRoot hash with
  | some (data, t) => (.ok (.changed (some data)), t)
  | none =>
    match t.roots.anyM (isUnfinalizedAncestor hash number isDescendentOf) with
    | .error e => (.error (.client e), t)
    | .ok true => (.error .unfinalizedAncestor, t)
    | .ok false =>
      finishRetaining t number none
        (retainRoots (isFinalizedBranch hash number isDescendentOf) t.roots [] false)

inductive Relation
  | finalized
  | descendant
  | ancestor
  | unrelated
  deriving DecidableEq, Repr

def relationOf (root : Node H N V) : Except E Relation := do
  if root.hash = hash then
    pure .finalized
  else if ← isFinalizedBranch hash number isDescendentOf root then
    pure .descendant
  else if ← isUnfinalizedAncestor hash number isDescendentOf root then
    pure .ancestor
  else
    pure .unrelated

-- The loop of `finalize_with_ancestors`. Every pass leaves fewer nodes to be looked at.
def openAncestors : Nat → ForkTree H N V → Nat → Bool →
    Except (Error E) (FinalizationResult V) × ForkTree H N V
  | 0, t, _, changed => (.ok (finalizationResult none changed), t)
  | passes + 1, t, idx, changed =>
    match t.roots[idx]? with
    | none =>
      (.ok (finalizationResult none changed), { t with bestFinalizedNumber := some number })
    | some root =>
      match relationOf hash number isDescendentOf root with
      | .error e => (.error (.client e), t)
      | .ok .finalized =>
        (.ok (.changed (some root.data)),
          { roots := root.children, bestFinalizedNumber := some root.number })
      | .ok .descendant => openAncestors passes t (idx + 1) changed
      | .ok .ancestor =>
        openAncestors passes { t with roots := swapRemove t.roots idx ++ root.children } idx true
      | .ok .unrelated => openAncestors passes { t with roots := swapRemove t.roots idx } idx true

def finalizeWithAncestors : Except (Error E) (FinalizationResult V) × ForkTree H N V :=
  if t.reverts number then (.error .revert, t) else
  match t.finalizeRoot hash with
  | some (data, t) => (.ok (.changed (some data)), t)
  | none => openAncestors hash number isDescendentOf (sizes t.roots + 1) t 0 false

def isAtOrBelow (node : Node H N V) : Except E Bool :=
  if node.hash = hash then .ok true else isDescendentOf node.hash hash

def isPastChild (child : Node H N V) : Except E Bool :=
  if child.number ≤ number then isAtOrBelow hash isDescendentOf child else .ok false

-- The root at the position that the first loop of `finalize_with_descendent_if` finds.
def findFinalizedRoot (predicate : V → Bool) :
    List (Node H N V) → Except (Error E) (Option (Node H N V))
  | [] => .ok none
  | root :: roots =>
    match if predicate root.data then isAtOrBelow hash isDescendentOf root else .ok false with
    | .error e => .error (.client e)
    | .ok false => findFinalizedRoot predicate roots
    | .ok true =>
      match root.children.anyM (isPastChild hash number isDescendentOf) with
      | .error e => .error (.client e)
      | .ok true => .error .unfinalizedAncestor
      | .ok false => .ok (some root)

def isRetained (root : Node H N V) : Except E Bool := do
  if ← isFinalizedBranch hash number isDescendentOf root then
    pure true
  else if root.number = number ∧ root.hash = hash then
    pure true
  else
    isDescendentOf root.hash hash

def finalizeWithDescendentIf (predicate : V → Bool) :
    Except (Error E) (FinalizationResult V) × ForkTree H N V :=
  if t.reverts number then (.error .revert, t) else
  match findFinalizedRoot hash number isDescendentOf predicate t.roots with
  | .error e => (.error e, t)
  | .ok none =>
    finishRetaining t number none
      (retainRoots (isRetained hash number isDescendentOf) t.roots [] false)
  | .ok (some node) =>
    finishRetaining { t with bestFinalizedNumber := some node.number } number (some node.data)
      (retainRoots (isRetained hash number isDescendentOf) node.children [] false)

end Operations

section DrainFilter

variable (filter : H → N → V → FilterAction)

-- The nodes that are kept, each with the index of its parent among them, and the removed
-- ones. A root has no parent.
structure Drained (H N V : Type) where
  retained : List (Option Nat × Node H N V) := []
  removed : List (Node H N V) := []
  nextQueue : List (Option Nat × Node H N V) := []

def drainNode (d : Drained H N V) (entry : Option Nat × Node H N V) : Drained H N V :=
  let (parentIdx, node) := entry
  match filter node.hash node.number node.data with
  | .keepNode =>
    { d with
      retained := d.retained ++ [(parentIdx, node.setChildren [])]
      nextQueue := d.nextQueue ++ node.children.reverse.map (some d.retained.length, ·) }
  | .keepTree => { d with retained := d.retained ++ [(parentIdx, node)] }
  | .remove => { d with removed := d.removed ++ [node] }

-- Every pass processes one level of the tree.
def drainQueue : Nat → List (Option Nat × Node H N V) → Drained H N V → Drained H N V
  | 0, _, d => d
  | passes + 1, queue, d =>
    if queue.isEmpty then d else
    let d := queue.foldl (drainNode filter) { d with nextQueue := [] }
    drainQueue passes d.nextQueue d

-- Attaches the retained nodes to their parents, the last one first.
def rebuild : Nat → List (Option Nat × Node H N V) → List (Node H N V) → List (Node H N V)
  | 0, _, roots => roots
  | count + 1, retained, roots =>
    match retained.getLast? with
    | none => roots
    | some (none, node) => rebuild count retained.dropLast (roots ++ [node])
    | some (some parent, node) =>
      rebuild count (retained.dropLast.modify parent fun e => (e.1, e.2.pushChild node)) roots

def drainFilter (t : ForkTree H N V) : List (Node H N V) × ForkTree H N V :=
  let d := drainQueue filter (sizes t.roots + 1) (t.roots.reverse.map (none, ·)) {}
  let t := { t with roots := rebuild d.retained.length d.retained [] }
  (d.removed, if d.removed.isEmpty then t else t.rebalance)

end DrainFilter
end ForkTree
