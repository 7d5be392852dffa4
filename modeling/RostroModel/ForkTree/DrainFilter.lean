import RostroModel.ForkTree.Basic

namespace ForkTree

open Node

variable {H N V : Type} (filter : H → N → V → FilterAction)

mutual

-- What `drain_filter` is for, as a recursion over the tree.
def filterTree : Node H N V → Option (Node H N V)
  | .mk h n d children =>
    match filter h n d with
    | .keepNode => some (.mk h n d (filterForest children))
    | .keepTree => some (.mk h n d children)
    | .remove => none

def filterForest : List (Node H N V) → List (Node H N V)
  | [] => []
  | node :: nodes => (filterTree node).toList ++ filterForest nodes

end

section Level

abbrev Entry (H N V : Type) := Option Nat × Node H N V

-- What one level of the queue adds to the retained nodes, before the children are attached to them.
def keptEntry (entry : Entry H N V) : Option (Entry H N V) :=
  match filter entry.2.hash entry.2.number entry.2.data with
  | .keepNode => some (entry.1, entry.2.setChildren [])
  | .keepTree => some entry
  | .remove => none

def removedEntry (entry : Entry H N V) : Option (Node H N V) :=
  match filter entry.2.hash entry.2.number entry.2.data with
  | .keepNode => none
  | .keepTree => none
  | .remove => some entry.2

def filteredEntry (entry : Entry H N V) : Option (Entry H N V) :=
  (filterTree filter entry.2).map (entry.1, ·)

-- The queue of the next level, if the first node that is retained gets the given index.
def nextLevel : Nat → List (Entry H N V) → List (Entry H N V)
  | _, [] => []
  | i, entry :: queue =>
    match filter entry.2.hash entry.2.number entry.2.data with
    | .keepNode => entry.2.children.reverse.map (some i, ·) ++ nextLevel (i + 1) queue
    | .keepTree => nextLevel (i + 1) queue
    | .remove => nextLevel i queue

def queueSize (queue : List (Entry H N V)) : Nat :=
  (queue.map (·.2.size)).sum

def attach (state : List (Entry H N V) × List (Node H N V)) (entry : Entry H N V) :
    List (Entry H N V) × List (Node H N V) :=
  match entry.1 with
  | none => (state.1, state.2 ++ [entry.2])
  | some parent => (state.1.modify parent fun e => (e.1, e.2.pushChild entry.2), state.2)

variable {filter}

theorem filterForest_eq (nodes : List (Node H N V)) :
    filterForest filter nodes = nodes.filterMap (filterTree filter) := by
  induction nodes
  case nil => rfl
  case cons node nodes hi =>
    rw [filterForest, hi, List.filterMap_cons]
    cases filterTree filter node <;> rfl

theorem foldl_drainNode (queue : List (Entry H N V)) (d : Drained H N V) :
    queue.foldl (drainNode filter) d =
      { retained := d.retained ++ queue.filterMap (keptEntry filter)
        removed := d.removed ++ queue.filterMap (removedEntry filter)
        nextQueue := d.nextQueue ++ nextLevel filter d.retained.length queue } := by
  induction queue generalizing d
  case nil => simp [nextLevel]
  case cons entry queue hi =>
    rw [List.foldl_cons, hi, nextLevel]
    cases hf : filter entry.2.hash entry.2.number entry.2.data
      <;> simp [drainNode, keptEntry, removedEntry, hf]

theorem modify_append_left {α : Type} (l1 l2 : List α) (i : Nat) (f : α → α) (h : i < l1.length) :
    (l1 ++ l2).modify i f = l1.modify i f ++ l2 := by
  induction l1 generalizing i
  case nil => exact absurd h (Nat.not_lt_zero i)
  case cons a l1 hi =>
    cases i
    case zero => rfl
    case succ i => simpa using hi i (Nat.lt_of_succ_lt_succ h)

theorem modify_length {α : Type} (pre post : List α) (a : α) (f : α → α) :
    (pre ++ a :: post).modify pre.length f = pre ++ f a :: post := by
  induction pre <;> simp_all

theorem foldl_attach_children (pre post : List (Entry H N V)) (p : Option Nat) (node : Node H N V)
    (nodes roots : List (Node H N V)) :
    (nodes.map ((some pre.length, ·) : Node H N V → Entry H N V)).foldl attach
      (pre ++ (p, node) :: post, roots) =
      (pre ++ (p, node.setChildren (node.children ++ nodes)) :: post, roots) := by
  induction nodes generalizing node
  case nil => cases node; simp
  case cons child nodes hi =>
    rw [List.map_cons, List.foldl_cons]
    have ha : attach (pre ++ (p, node) :: post, roots) (some pre.length, child) =
        (pre ++ (p, node.pushChild child) :: post, roots) := by
      simp [attach, modify_length]
    rw [ha, hi]
    cases node
    simp [pushChild]

-- Once the next level is filtered and attached, this level is filtered too.
theorem foldl_attach_nextLevel (queue pre : List (Entry H N V)) (roots : List (Node H N V)) :
    ((nextLevel filter pre.length queue).filterMap (filteredEntry filter)).reverse.foldl attach
      (pre ++ queue.filterMap (keptEntry filter), roots) =
      (pre ++ queue.filterMap (filteredEntry filter), roots) := by
  induction queue generalizing pre
  case nil => rfl
  case cons entry queue hi =>
    obtain ⟨p, h, n, d, children⟩ := entry
    have hi' (e : Entry H N V) := hi (pre ++ [e])
    simp only [List.length_append, List.length_singleton, List.append_assoc,
      List.singleton_append] at hi'
    cases hf : filter h n d
    case remove =>
      simpa [nextLevel, keptEntry, filteredEntry, filterTree, hf] using hi pre
    case keepTree =>
      simpa [nextLevel, keptEntry, filteredEntry, filterTree, hf] using hi' (p, .mk h n d children)
    case keepNode =>
      have hc : (children.reverse.map ((some pre.length, ·) : Node H N V → Entry H N V)).filterMap
          (filteredEntry filter) =
          ((filterForest filter children).map (some pre.length, ·)).reverse := by
        simp [filterForest_eq, List.filterMap_map, List.filterMap_reverse, List.map_filterMap,
          Function.comp_def, filteredEntry]
      have ha := foldl_attach_children pre (queue.filterMap (filteredEntry filter)) p (.mk h n d [])
      have hn : nextLevel filter pre.length ((p, .mk h n d children) :: queue) =
          children.reverse.map (some pre.length, ·) ++ nextLevel filter (pre.length + 1) queue := by
        simp [nextLevel, hf]
      have hk : keptEntry filter (p, .mk h n d children) = some (p, .mk h n d []) := by
        simp [keptEntry, hf]
      have he : filteredEntry filter (p, .mk h n d children) =
          some (p, .mk h n d (filterForest filter children)) := by
        simp [filteredEntry, filterTree, hf]
      rw [hn, List.filterMap_append, hc, List.reverse_append, List.reverse_reverse,
        List.foldl_append, List.filterMap_cons_some hk, List.filterMap_cons_some he, hi', ha]
      simp

end Level

section Rebuild

variable {filter}

def Placed (count : Nat) (entries : List (Entry H N V)) : Prop :=
  ∀ entry ∈ entries, ∀ parent ∈ entry.1, parent < count

def rebuildAll (state : List (Entry H N V) × List (Node H N V)) : List (Node H N V) :=
  rebuild state.1.length state.1 state.2

theorem rebuildAll_append_singleton (entries : List (Entry H N V)) (entry : Entry H N V)
    (roots : List (Node H N V)) :
    rebuildAll (entries ++ [entry], roots) = rebuildAll (attach (entries, roots) entry) := by
  obtain ⟨p, node⟩ := entry
  cases p <;> simp [rebuildAll, rebuild, attach]

theorem rebuildAll_append (entries level : List (Entry H N V)) (roots : List (Node H N V))
    (h : Placed entries.length level) :
    rebuildAll (entries ++ level, roots) =
      rebuildAll (level.reverse.foldl attach (entries, roots)) := by
  induction level using List.reverseRecOn generalizing entries roots
  case nil => simp
  case append_singleton level entry hi =>
    have hl : Placed entries.length level := fun e he => h e (List.mem_append_left _ he)
    rw [← List.append_assoc, rebuildAll_append_singleton, List.reverse_append]
    obtain ⟨p, node⟩ := entry
    cases p
    case none => exact hi entries _ hl
    case some parent =>
      have hp : parent < entries.length := h (some parent, node) (by simp) parent rfl
      have ha : attach (entries ++ level, roots) (some parent, node) =
          (entries.modify parent (fun e => (e.1, e.2.pushChild node)) ++ level, roots) := by
        simp [attach, modify_append_left _ _ _ _ hp]
      rw [ha]
      exact hi _ _ (by simpa using hl)

theorem placed_nextLevel (queue : List (Entry H N V)) (i : Nat) :
    Placed (i + (queue.filterMap (keptEntry filter)).length) (nextLevel filter i queue) := by
  induction queue generalizing i
  case nil => simp [Placed, nextLevel]
  case cons entry queue hi =>
    rw [nextLevel, List.filterMap_cons]
    cases hf : filter entry.2.hash entry.2.number entry.2.data
    case remove => simpa [keptEntry, hf] using hi i
    all_goals
      have hl := hi (i + 1)
      rw [add_assoc, add_comm 1] at hl
      simp only [keptEntry, hf]
    case keepTree => exact hl
    case keepNode =>
      intro e he
      cases List.mem_append.mp he
      case inr he => exact hl e he
      case inl he =>
        obtain ⟨child, -, rfl⟩ := List.mem_map.mp he
        simp

variable (filter)

theorem queueSize_nextLevel (queue : List (Entry H N V)) (i : Nat) :
    queueSize (nextLevel filter i queue) + queue.length ≤ queueSize queue := by
  induction queue generalizing i
  case nil => simp [nextLevel]
  case cons entry queue hi =>
    obtain ⟨p, h, n, d, children⟩ := entry
    have hq (l1 l2 : List (Entry H N V)) : queueSize (l1 ++ l2) = queueSize l1 + queueSize l2 := by
      simp [queueSize]
    have hc : queueSize (children.reverse.map ((some i, ·) : Node H N V → Entry H N V)) =
        sizes children := by
      simp [queueSize, sizes_eq_sum, Function.comp_def]
    have hs : queueSize ((p, .mk h n d children) :: queue) =
        sizes children + 1 + queueSize queue := by
      simp [queueSize, size]
    have h1 := hi i
    have h2 := hi (i + 1)
    rw [nextLevel, List.length_cons]
    cases hf : filter h n d <;> simp only [hash_mk, number_mk, data_mk, children_mk, hf, hq]
      <;> omega

theorem rebuildAll_drainQueue (passes : Nat) (queue : List (Entry H N V)) (d : Drained H N V)
    (hp : Placed d.retained.length queue) (hs : queueSize queue ≤ passes) :
    rebuildAll ((drainQueue filter passes queue d).retained, []) =
      rebuildAll ((queue.filterMap (filteredEntry filter)).reverse.foldl attach
        (d.retained, [])) := by
  induction passes generalizing queue d
  case zero =>
    have hq : queue = [] := by
      have := queueSize_nextLevel filter queue 0
      apply List.length_eq_zero_iff.mp
      omega
    simp [hq, drainQueue]
  case succ passes hi =>
    rw [drainQueue]
    split
    case isTrue hq => simp [List.isEmpty_iff.mp hq]
    case isFalse hq =>
      have hl : queue.length ≠ 0 := by simpa using hq
      have hn := queueSize_nextLevel filter queue d.retained.length
      have hr := @foldl_drainNode _ _ _ filter queue { d with nextQueue := [] }
      simp only [List.nil_append] at hr
      have hf : Placed d.retained.length (queue.filterMap (filteredEntry filter)) := by
        intro e he
        obtain ⟨e', hm, he'⟩ := List.mem_filterMap.mp he
        simp only [filteredEntry, Option.map_eq_some_iff] at he'
        obtain ⟨node, -, rfl⟩ := he'
        exact hp e' hm
      rw [hr, hi]
      · rw [foldl_attach_nextLevel, rebuildAll_append _ _ _ hf]
      · simpa using placed_nextLevel queue d.retained.length
      · dsimp only
        omega

theorem foldl_attach_roots (nodes roots : List (Node H N V)) :
    (nodes.map ((none, ·) : Node H N V → Entry H N V)).foldl attach ([], roots) =
      ([], roots ++ nodes) := by
  induction nodes generalizing roots <;> simp_all [attach]

-- The queue of `drain_filter` takes the tree apart level by level, and the nodes it keeps are put
-- together again in the order they had.
theorem drainFilter_roots (t : ForkTree H N V) :
    (drainFilter filter t).2 = { t with roots := filterForest filter t.roots } ∨
      (drainFilter filter t).2 = rebalance { t with roots := filterForest filter t.roots } := by
  have hq : queueSize (t.roots.reverse.map ((none, ·) : Node H N V → Entry H N V)) =
      sizes t.roots := by
    simp [queueSize, sizes_eq_sum, Function.comp_def]
  have hf : ((t.roots.reverse.map ((none, ·) : Node H N V → Entry H N V)).filterMap
      (filteredEntry filter)).reverse = (filterForest filter t.roots).map (none, ·) := by
    simp [filterForest_eq, List.filterMap_map, List.filterMap_reverse, List.map_filterMap,
      Function.comp_def, filteredEntry]
  have hr := rebuildAll_drainQueue filter (sizes t.roots + 1)
    (t.roots.reverse.map (none, ·)) {} (by simp [Placed]) (by omega)
  rw [hf, foldl_attach_roots] at hr
  have hd : rebuildAll (([], [] ++ filterForest filter t.roots) :
      List (Entry H N V) × List (Node H N V)) = filterForest filter t.roots := rfl
  rw [hd] at hr
  simp only [drainFilter]
  split
  · exact .inl (by rw [← hr]; rfl)
  · exact .inr (by rw [← hr]; rfl)

end Rebuild
end ForkTree
