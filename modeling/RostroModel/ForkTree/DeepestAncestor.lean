import RostroModel.ForkTree.DescendentFinality

namespace ForkTree

open Node

variable {H N V E : Type} [LinearOrder N]

section Lookup

variable (hash : H) (number : N) (isDescendentOf : H → H → Except E Bool) (predicate : V → Bool)

-- The fold over the path that `find_node_where` makes. An index that is out of range panics.
def onPath (roots : List (Node H N V)) (path : List Nat) : Option (Node H N V) := do
  let children ← (path.take (path.length - 1)).foldlM (fun curr i =>
    curr[i]?.map Node.children) roots
  let last ← path[path.length - 1]?
  children[last]?

def findNodeWhere (t : ForkTree H N V) : Except E (Option (Option (Node H N V))) :=
  (t.findNodeIndexWhere hash number isDescendentOf predicate).map fun path =>
    path.map (onPath t.roots)

-- The node that is found, and the tree after something is written through the reference to it.
def findNodeWhereMut (t : ForkTree H N V) (write : Node H N V → Node H N V) :
    Except E (Option (Option (Node H N V) × ForkTree H N V)) :=
  (t.findNodeIndexWhere hash number isDescendentOf predicate).map fun path => path.map fun path =>
    (onPath t.roots path, { t with roots := modifyAt t.roots write path })

end Lookup

section Paths

variable {nodes : List (Node H N V)} {target : Node H N V} {path : List Nat}

omit [LinearOrder N]

theorem onPath_cons (i j : Nat) : onPath nodes (i :: j :: path) =
    nodes[i]?.bind fun node => onPath node.children (j :: path) := by
  rw [onPath]
  have hlen : (i :: j :: path).length - 1 = (j :: path).length - 1 + 1 := by simp
  rw [hlen, List.take_succ_cons, List.foldlM_cons]
  cases nodes[i]? with
  | none => rfl
  | some node => rfl

theorem onPath_eq (i : Nat) : onPath nodes (i :: path) = nodeAt nodes (i :: path) := by
  induction path generalizing nodes i with
  | nil =>
    rw [nodeAt]
    cases hi : nodes[i]? with
    | none => exact hi
    | some node => exact hi
  | cons j path hi =>
    rw [onPath_cons, nodeAt]
    cases nodes[i]? with
    | none => rfl
    | some node => exact hi j

theorem onPath_of_nodeAt (h : nodeAt nodes path = some target) :
    onPath nodes path = some target := by
  cases path
  case nil => cases h
  case cons i path => rw [onPath_eq, h]

theorem descend_modifyAt {node : Node H N V} (write : Node H N V → Node H N V)
    (h : node.descend path = some target) :
    (node.modifyAt write path).descend path = some (write target) := by
  induction path generalizing node
  case nil => cases h; rfl
  case cons i path hi =>
    obtain ⟨child, hc, hd⟩ := Option.bind_eq_some_iff.mp h
    rw [Node.modifyAt, descend, setChildren, children_mk, List.getElem?_modify_eq, hc]
    exact hi hd

theorem nodeAt_modifyAt (write : Node H N V → Node H N V) (h : nodeAt nodes path = some target) :
    nodeAt (modifyAt nodes write path) path = some (write target) := by
  cases path
  case nil => cases h
  case cons i path =>
    obtain ⟨root, hr, hd⟩ := Option.bind_eq_some_iff.mp h
    rw [ForkTree.modifyAt, nodeAt, List.getElem?_modify_eq, hr]
    exact descend_modifyAt write hd

end Paths

section Spec

variable (A : Ancestry H N) (x : H) (number : N) (predicate : V → Bool)

-- The nodes that a search for a block looks at: its ancestors, as far as
-- the number lets them through.
def Visible (node : Node H N V) : Prop :=
  node.number < number ∧ A.isDescendentOf node.hash x

def Sought (node : Node H N V) : Prop :=
  Visible A x number node ∧ predicate node.data

-- The sought node that is below all others.
structure Deepest (nodes : List (Node H N V)) (target : Node H N V) : Prop where
  sought : Sought A x number predicate target
  others : ∀ a ∈ nodes, Sought A x number predicate a → A.AtOrAbove a.hash target.hash

-- What is found below some nodes.
inductive Outcome (nodes : List (Node H N V)) (lookup : List Nat → Option (Node H N V)) :
    Except E Found → Prop
  | miss : (∀ a ∈ nodes, ¬Visible A x number a) → Outcome nodes lookup (.ok .miss)
  | rejected : (∃ a ∈ nodes, Visible A x number a) → (∀ a ∈ nodes, ¬Sought A x number predicate a) →
    Outcome nodes lookup (.ok .rejected)
  | found {path target} : lookup path = some target → target ∈ nodes →
    Deepest A x number predicate nodes target → Outcome nodes lookup (.ok (.found path))

variable {A x number predicate}

theorem Ancestry.Mirrored.not_visible (h : A.Mirrored node) (hn : ¬node.number < number) :
    ∀ a ∈ node.nodes, ¬Visible A x number a := by
  intro a ha hv
  rcases mem_nodes.mp ha with rfl | hd
  · exact hn hv.1
  · have hb := h.descends (hash_mem_of_mem hd)
    refine hn (lt_trans ?_ hv.1)
    rw [h.number_eq, (h.mirrored_of_mem ha).number_eq]
    exact A.number_lt hb

theorem not_visible_of_unrelated {s t a b : Node H N V} (h : A.Unrelated s t) (ha : a ∈ s.nodes)
    (hb : b ∈ t.nodes) (hv : Visible A x number a) : ¬Visible A x number b := by
  intro hv'
  have hs : a.hash ∈ s.hashes := by
    rw [hashes_eq]
    exact List.mem_map_of_mem ha
  have ht : b.hash ∈ t.hashes := by
    rw [hashes_eq]
    exact List.mem_map_of_mem hb
  exact (h a.hash hs b.hash ht).not_below hv'.2 hv.2

theorem Outcome.extend {nodes all : List (Node H N V)}
    {lookup lookup' : List Nat → Option (Node H N V)} {found : Found} (f : Found → Found)
    (hmiss : f .miss = .miss) (hrej : f .rejected = .rejected)
    (hfound : ∀ path target, lookup path = some target →
      ∃ path', f (.found path) = .found path' ∧ lookup' path' = some target)
    (h : Outcome A x number predicate nodes lookup (.ok found : Except E Found))
    (hsub : nodes ⊆ all) (hall : ∀ a ∈ all, Visible A x number a → a ∈ nodes) :
    Outcome A x number predicate all lookup' (.ok (f found) : Except E Found) := by
  cases h with
  | miss hno =>
    rw [hmiss]
    exact .miss fun a ha hv => hno a (hall a ha hv) hv
  | rejected hsome hno =>
    obtain ⟨a, ha, hv⟩ := hsome
    rw [hrej]
    exact .rejected ⟨a, hsub ha, hv⟩ fun b hb hs => hno b (hall b hb hs.1) hs
  | @found path target hl ht hd =>
    obtain ⟨path', hp, hl'⟩ := hfound path target hl
    rw [hp]
    exact .found hl' (hsub ht) ⟨hd.sought, fun a ha hs => hd.others a (hall a ha hs.1) hs⟩

theorem Outcome.visible {nodes : List (Node H N V)} {lookup : List Nat → Option (Node H N V)}
    {found : Found} (h : Outcome A x number predicate nodes lookup (.ok found : Except E Found))
    (hne : found ≠ .miss) :
    ∃ a ∈ nodes, Visible A x number a := by
  cases h with
  | miss _ => exact absurd rfl hne
  | rejected hsome _ => exact hsome
  | found _ ht hd => exact ⟨_, ht, hd.sought.1⟩

theorem Outcome.isOk {nodes : List (Node H N V)} {lookup : List Nat → Option (Node H N V)}
    (h : Outcome A x number predicate nodes lookup r) : ∃ found, r = .ok found := by
  cases h with
  | miss _ => exact ⟨_, rfl⟩
  | rejected _ _ => exact ⟨_, rfl⟩
  | found _ _ _ => exact ⟨_, rfl⟩

theorem searchChildren_outcome (pre : List (Node H N V)) {rest : List (Node H N V)}
    (hf : A.MirroredForest rest)
    (ht : ∀ child ∈ rest, child.number < number →
      Outcome A x number predicate child.nodes child.descend
      (search x number (A.query E) predicate child)) :
    Outcome A x number predicate (nodesAll rest) (nodeAt (pre ++ rest))
      (searchChildren x number (A.query E) predicate pre.length rest) := by
  induction rest generalizing pre
  case nil => exact .miss (by simp [nodesAll])
  case cons child rest hi =>
    have ht' := List.forall_mem_cons.mp ht
    have hm := hf.trees child List.mem_cons_self
    have hf' : A.MirroredForest rest := hf.sublist (List.sublist_cons_self child rest)
    -- The children that follow decide if nothing of this one is visible.
    have hrest (hno : ∀ a ∈ child.nodes, ¬Visible A x number a) :
        Outcome A x number predicate (nodesAll (child :: rest)) (nodeAt (pre ++ child :: rest))
          (searchChildren x number (A.query E) predicate (pre.length + 1) rest) := by
      have hi' := hi (pre ++ [child]) hf' ht'.2
      rw [List.length_append, List.length_singleton, List.append_assoc] at hi'
      obtain ⟨found, hfound⟩ := hi'.isOk
      rw [hfound] at hi' ⊢
      refine hi'.extend id rfl rfl (fun path target hl => ⟨path, rfl, hl⟩)
        (List.subset_append_right _ _) fun a ha hv => ?_
      exact (List.mem_append.mp ha).elim (fun ha => absurd hv (hno a ha)) id
    rw [searchChildren]
    split
    case isFalse hn => exact hrest (hm.not_visible hn)
    case isTrue hn =>
      have hs := ht'.1 hn
      obtain ⟨found, hfound⟩ := hs.isOk
      rw [hfound] at hs ⊢
      by_cases hne : found = .miss
      · subst hne
        cases hs
        case miss hno => exact hrest hno
      · -- An ancestor is below this child, so that there is none below those that follow.
        obtain ⟨b, hb, hv⟩ := hs.visible hne
        have hext : Outcome A x number predicate (nodesAll (child :: rest))
          (nodeAt (pre ++ child :: rest))
            (.ok (found.under pre.length) : Except E Found) := by
          refine hs.extend (Found.under pre.length) rfl rfl (fun path target hl => ⟨_, rfl, ?_⟩)
            (List.subset_append_left _ _) fun a ha hva => ?_
          · simpa [nodeAt] using hl
          · rcases List.mem_append.mp ha with ha | ha
            · exact ha
            · obtain ⟨s, hs', ha⟩ := mem_nodesAll.mp ha
              have hu := List.rel_of_pairwise_cons hf.unrelated hs'
              exact absurd hva (not_visible_of_unrelated hu hb ha hv)
        cases found
        case miss => exact absurd rfl hne
        case rejected => exact hext
        case found => exact hext

theorem search_outcome (hm : A.Mirrored node) (hn : node.number < number) :
    Outcome A x number predicate node.nodes node.descend
      (search x number (A.query E) predicate node) := by
  induction node using Node.induction
  case h h n data children hi =>
    have hf := hm.children
    have hself : Node.mk h n data children ∈ (Node.mk h n data children).nodes :=
      mem_nodes.mpr (.inl rfl)
    have hs : Outcome A x number predicate (nodesAll children) (nodeAt children)
        (searchChildren x number (A.query E) predicate 0 children) :=
      searchChildren_outcome [] hf fun c hc hlt => hi c hc (hf.trees c hc) hlt
    have hsub : nodesAll children ⊆ (Node.mk h n data children).nodes := fun a ha =>
      mem_nodes.mpr (.inr ha)
    -- The node is the result if it is visible, passes the predicate, and nothing below it does.
    have haccept (hv : A.isDescendentOf h x)
      (hno : ∀ a ∈ nodesAll children, ¬Sought A x number predicate a) :
        Outcome A x number predicate (Node.mk h n data children).nodes
          (Node.mk h n data children).descend
          (.ok (accept predicate data) : Except E Found) := by
      rw [accept]
      split_ifs with hp
      · refine .found rfl hself ⟨⟨⟨hn, hv⟩, hp⟩, fun a ha hs => ?_⟩
        rcases mem_nodes.mp ha with rfl | ha
        · exact .inl rfl
        · exact absurd hs (hno a ha)
      · refine .rejected ⟨_, hself, hn, hv⟩ fun a ha hs => ?_
        rcases mem_nodes.mp ha with rfl | ha
        · exact hp hs.2
        · exact hno a ha hs
    rw [search]
    obtain ⟨found, hfound⟩ := hs.isOk
    rw [hfound] at hs ⊢
    rw [Except.ok_bind]
    cases hs
    case found path target hl ht hd =>
      refine .found ?_ (hsub ht) ⟨hd.sought, fun a ha hs => ?_⟩
      · cases path
        case nil => cases hl
        case cons => exact hl
      · rcases mem_nodes.mp ha with rfl | ha
        · exact .inr (hm.descends (hash_mem_of_mem ht))
        · exact hd.others a ha hs
    case rejected hsome hno =>
      obtain ⟨a, ha, hv⟩ := hsome
      exact haccept (A.trans (hm.descends (hash_mem_of_mem ha)) hv.2) hno
    case miss hno =>
      rw [finish, Ancestry.query]
      by_cases hx : A.isDescendentOf h x
      · rw [hx]
        exact haccept hx fun a ha hs => hno a ha hs.1
      · rw [Bool.eq_false_iff.mpr hx]
        refine .miss fun a ha hv => ?_
        rcases mem_nodes.mp ha with rfl | ha
        · exact hx hv.2
        · exact hno a ha hv

end Spec

section Main

variable {A : Ancestry H N} {x : H} {t : ForkTree H N V}

theorem findNodeIndexWhere_outcome (hm : A.MirroredForest t.roots) (x : H) (number : N)
    (predicate : V → Bool) :
    ∃ found, t.findNodeIndexWhere x number (A.query E) predicate = .ok found.path? ∧
      Outcome A x number predicate (nodesAll t.roots) (nodeAt t.roots)
        (.ok found : Except E Found) := by
  have hs : Outcome A x number predicate (nodesAll t.roots) (nodeAt t.roots)
      (searchChildren x number (A.query E) predicate 0 t.roots) :=
    searchChildren_outcome [] hm fun root hr hn => search_outcome (hm.trees root hr) hn
  obtain ⟨found, hfound⟩ := hs.isOk
  refine ⟨found, ?_, hfound ▸ hs⟩
  rw [findNodeIndexWhere_eq, hfound]
  rfl

theorem findNodeIndexWhere_deepest (hm : A.MirroredForest t.roots) (x : H) (number : N)
    (predicate : V → Bool) :
    ∃ result, t.findNodeIndexWhere x number (A.query E) predicate = .ok result ∧
      (result.isSome ↔ ∃ a ∈ nodesAll t.roots, Sought A x number predicate a) ∧
      (∀ path, result = some path → ∃ target ∈ nodesAll t.roots,
        nodeAt t.roots path = some target ∧
        Deepest A x number predicate (nodesAll t.roots) target ∧
        findNodeWhere x number (A.query E) predicate t = .ok (some (some target)) ∧
        ∀ write, findNodeWhereMut x number (A.query E) predicate t write =
            .ok (some (some target, { t with roots := modifyAt t.roots write path })) ∧
          nodeAt (modifyAt t.roots write path) path = some (write target)) ∧
      -- The number of the block lets all its ancestors through.
      (A.numberOf x ≤ number → ∀ a ∈ nodesAll t.roots,
        Sought A x number predicate a ↔ A.isDescendentOf a.hash x ∧ predicate a.data) := by
  obtain ⟨found, heq, hs⟩ := findNodeIndexWhere_outcome (E := E) hm x number predicate
  refine ⟨found.path?, heq, ?_, fun path hp => ?_, fun hn a ha => ?_⟩
  · cases hs
    case miss hno => exact iff_of_false (by simp [Found.path?]) fun ⟨a, ha, hs⟩ => hno a ha hs.1
    case rejected _ hno => exact iff_of_false (by simp [Found.path?]) fun ⟨a, ha, hs⟩ => hno a ha hs
    case found hl ht hd => exact iff_of_true (by simp [Found.path?]) ⟨_, ht, hd.sought⟩
  · cases hs
    case miss => cases hp
    case rejected => cases hp
    case found path' target hl ht hd =>
      cases hp
      refine ⟨target, ht, hl, hd, ?_, fun write => ⟨?_, nodeAt_modifyAt write hl⟩⟩
      · rw [findNodeWhere, heq]
        exact congrArg (fun r => Except.ok (some r)) (onPath_of_nodeAt hl)
      · rw [findNodeWhereMut, heq]
        exact congrArg (fun r => Except.ok (some (r, _))) (onPath_of_nodeAt hl)
  · constructor
    · exact fun h => ⟨h.1.2, h.2⟩
    · intro h
      refine ⟨⟨lt_of_lt_of_le ?_ hn, h.1⟩, h.2⟩
      rw [(hm.mirrored_of_mem ha).number_eq]
      exact A.number_lt h.1

-- Two chains, one of which has a node whose data is rejected.
def sampleForest : ForkTree (Bool × Nat) Nat Bool where
  roots := [.mk (true, 1) 1 true [.mk (true, 3) 3 false [.mk (true, 4) 4 true []]],
    .mk (false, 2) 2 true []]

theorem sampleForest_mirrored : twoChains.MirroredForest sampleForest.roots := by
  let leaf : Node (Bool × Nat) Nat Bool := .mk (true, 4) (twoChains.numberOf (true, 4)) true []
  let mid : Node (Bool × Nat) Nat Bool := .mk (true, 3) (twoChains.numberOf (true, 3)) false [leaf]
  let top : Node (Bool × Nat) Nat Bool := .mk (true, 1) (twoChains.numberOf (true, 1)) true [mid]
  let other : Node (Bool × Nat) Nat Bool := .mk (false, 2) (twoChains.numberOf (false, 2)) true []
  have hleaf : twoChains.Mirrored leaf := .mk (by simp [hashesAll]) .nil (by simp)
  have hmid : twoChains.Mirrored mid :=
    .mk (by decide) (List.pairwise_singleton _ _) (by simpa using hleaf)
  have htop : twoChains.Mirrored top :=
    .mk (by decide) (List.pairwise_singleton _ _) (by simpa using hmid)
  have hother : twoChains.Mirrored other := .mk (by simp [hashesAll]) .nil (by simp)
  have hfst : ∀ a ∈ top.hashes, a.1 = true := by decide
  have hsnd : ∀ b ∈ other.hashes, b.1 = false := by decide
  change twoChains.MirroredForest [top, other]
  refine ⟨List.pairwise_pair.mpr fun a ha b hb => ?_, by simpa using ⟨htop, hother⟩⟩
  refine ⟨?_, ?_, ?_⟩ <;> grind [twoChains]

theorem sampleForest_deepest : ∃ target, nodeAt sampleForest.roots [0] = some target ∧
    Deepest twoChains (true, 4) 4 id (nodesAll sampleForest.roots) target := by
  obtain ⟨result, hr, -, hpath, -⟩ :=
    findNodeIndexWhere_deepest (E := Empty) sampleForest_mirrored (true, 4) 4 id
  have hres : result = some [0] := Except.ok.inj (hr.symm.trans rfl)
  obtain ⟨target, -, hl, hd, -⟩ := hpath [0] hres
  exact ⟨target, hl, hd⟩

-- A number that is not greater than that of an ancestor hides it.
theorem sampleForest_hidden : twoChains.MirroredForest sampleForest.roots ∧
    sampleForest.findNodeIndexWhere (true, 4) 1 (twoChains.query Empty) id = .ok none ∧
    ∃ a ∈ nodesAll sampleForest.roots, twoChains.isDescendentOf a.hash (true, 4) ∧ id a.data :=
  ⟨sampleForest_mirrored, rfl, .mk (true, 1) 1 true _, List.mem_cons_self, rfl, rfl⟩

end Main
end ForkTree
