import RostroModel.ForkTree.Restriction

namespace ForkTree

variable {H N V E : Type}

namespace Node

mutual

def nodes : Node H N V → List (Node H N V)
  | node@(.mk _ _ _ children) => node :: nodesAll children

def nodesAll : List (Node H N V) → List (Node H N V)
  | [] => []
  | node :: nodes => node.nodes ++ nodesAll nodes

end

-- The subtree below a node, without the node.
def descendants (node : Node H N V) : List (Node H N V) :=
  nodesAll node.children

variable {nodes : List (Node H N V)}

theorem mem_nodesAll {a : Node H N V} : a ∈ nodesAll nodes ↔ ∃ node ∈ nodes, a ∈ node.nodes := by
  induction nodes <;> simp_all [nodesAll]

theorem mem_nodes {node a : Node H N V} : a ∈ node.nodes ↔ a = node ∨ a ∈ node.descendants := by
  cases node
  simp [nodes, descendants]

theorem hashesAll_of_hashes (h : ∀ node ∈ nodes, node.hashes = node.nodes.map hash) :
    hashesAll nodes = (nodesAll nodes).map hash := by
  induction nodes <;> simp_all [hashesAll, nodesAll]

theorem hashes_eq (node : Node H N V) : node.hashes = node.nodes.map hash := by
  induction node using Node.induction
  case h h n d children hi => simp [hashes, nodes, hashesAll_of_hashes hi]

theorem hashesAll_eq (nodes : List (Node H N V)) : hashesAll nodes = (nodesAll nodes).map hash :=
  hashesAll_of_hashes fun node _ => hashes_eq node

theorem hash_mem_of_mem {x : Node H N V} (h : x ∈ nodesAll nodes) : x.hash ∈ hashesAll nodes := by
  rw [hashesAll_eq]
  exact List.mem_map_of_mem h

theorem nodes_subset {node x : Node H N V} (h : x ∈ node.nodes) : x.nodes ⊆ node.nodes := by
  induction node using Node.induction
  case h h n d children hi =>
    cases mem_nodes.mp h
    case inl he => rw [he]; exact List.Subset.refl _
    case inr hx =>
      obtain ⟨child, hc, hx⟩ := mem_nodesAll.mp hx
      intro y hy
      exact mem_nodes.mpr (.inr (mem_nodesAll.mpr ⟨child, hc, hi child hc hx hy⟩))

theorem descendants_subset {x : Node H N V} (h : x ∈ nodesAll nodes) :
    x.descendants ⊆ nodesAll nodes := by
  obtain ⟨node, hn, hx⟩ := mem_nodesAll.mp h
  intro y hy
  exact mem_nodesAll.mpr ⟨node, hn, nodes_subset hx (mem_nodes.mpr (.inr hy))⟩

theorem mem_nodes_of_descend {node target : Node H N V}
    (h : node.descend path = some target) : target ∈ node.nodes := by
  induction path generalizing node
  case nil => cases h; exact mem_nodes.mpr (.inl rfl)
  case cons i path hi =>
    obtain ⟨child, hc, hd⟩ := Option.bind_eq_some_iff.mp h
    exact mem_nodes.mpr (.inr (mem_nodesAll.mpr ⟨child, List.mem_of_getElem? hc, hi hd⟩))

theorem mem_nodesAll_of_nodeAt (h : nodeAt nodes path = some target) : target ∈ nodesAll nodes := by
  cases path
  case nil => cases h
  case cons i path =>
    obtain ⟨root, hr, hd⟩ := Option.bind_eq_some_iff.mp h
    exact mem_nodesAll.mpr ⟨root, List.mem_of_getElem? hr, mem_nodes_of_descend hd⟩

theorem any_eq_false_of_not_mem [DecidableEq H] {x : H}
    (h : x ∉ hashesAll nodes) : nodes.any (·.hash = x) = false := by
  rw [List.any_eq_false]
  intro node hn he
  exact h (mem_hashesAll.mpr ⟨node, hn, of_decide_eq_true he ▸ hash_mem_hashes node⟩)

end Node

open Node

variable [LinearOrder N] {A : Ancestry H N}

namespace Ancestry

variable {nodes : List (Node H N V)} {node x y : Node H N V} {a : H}

theorem Mirrored.mirrored_of_mem (h : A.Mirrored node) (hx : x ∈ node.nodes) : A.Mirrored x := by
  induction node using Node.induction
  case h h n d children hi =>
    cases mem_nodes.mp hx
    case inl he => exact he ▸ ‹_›
    case inr hx =>
      obtain ⟨child, hc, hx⟩ := mem_nodesAll.mp hx
      exact hi child hc (Mirrored.children ‹_› |>.trees child hc) hx

namespace MirroredForest

theorem mirrored_of_mem (h : A.MirroredForest nodes) (hx : x ∈ nodesAll nodes) : A.Mirrored x := by
  obtain ⟨node, hn, hx⟩ := mem_nodesAll.mp hx
  exact (h.trees node hn).mirrored_of_mem hx

theorem descends_of_trees (h : A.MirroredForest nodes)
    (ht : ∀ node ∈ nodes, x ∈ node.nodes → a ∈ node.hashes → a ∈ hashesAll x.children)
    (hx : x ∈ nodesAll nodes) (ha : a ∈ hashesAll nodes) (hd : A.isDescendentOf x.hash a) :
    a ∈ hashesAll x.children := by
  obtain ⟨s, hs, hx⟩ := mem_nodesAll.mp hx
  obtain ⟨t, ht', ha⟩ := mem_hashesAll.mp ha
  by_cases he : s = t
  case pos => exact ht t ht' (he ▸ hx) ha
  case neg =>
    have hu := h.unrelated.forall hs ht' he
    have hxs : x.hash ∈ s.hashes := by
      rw [hashes_eq]
      exact List.mem_map_of_mem hx
    exact absurd hd (hu x.hash hxs a ha).1

theorem nodup_of_trees (h : A.MirroredForest nodes) (ht : ∀ node ∈ nodes, node.hashes.Nodup) :
    (hashesAll nodes).Nodup := by
  induction nodes
  case nil => exact .nil
  case cons node nodes hi =>
    obtain ⟨hn, ht⟩ := List.forall_mem_cons.mp ht
    refine hn.append (hi (h.sublist (List.sublist_cons_self node nodes)) ht) fun a ha hb => ?_
    obtain ⟨t, ht, hb⟩ := mem_hashesAll.mp hb
    exact (List.rel_of_pairwise_cons h.unrelated ht a ha a hb).2.2 rfl

end MirroredForest

theorem Mirrored.nodup (h : A.Mirrored node) : node.hashes.Nodup := by
  induction node using Node.induction
  case h h' n d children hi =>
    have hm : A.Mirrored (.mk h' n d children) := ‹_›
    refine .cons (fun hb => A.irrefl _ (hm.descends hb)) ?_
    exact hm.children.nodup_of_trees fun c hc => hi c hc (hm.children.trees c hc)

theorem Mirrored.mem_hashesAll_children (h : A.Mirrored node) (hx : x ∈ node.nodes)
    (ha : a ∈ node.hashes) (hd : A.isDescendentOf x.hash a) : a ∈ hashesAll x.children := by
  induction node using Node.induction
  case h h' n d children hi =>
    have hm : A.Mirrored (.mk h' n d children) := ‹_›
    cases mem_nodes.mp hx <;> cases mem_hashes.mp ha
    case inl.inl hx ha =>
      subst hx ha
      exact absurd hd (A.irrefl _)
    case inl.inr hx ha => exact hx ▸ ha
    case inr.inl hx ha =>
      subst ha
      exact absurd hd (A.asymm (hm.descends (hash_mem_of_mem hx)))
    case inr.inr hx ha =>
      refine hm.children.descends_of_trees (fun child hc hx ha => ?_) hx ha hd
      exact hi child hc (hm.children.trees child hc) hx ha

namespace MirroredForest

theorem mem_hashesAll_children (h : A.MirroredForest nodes) (hx : x ∈ nodesAll nodes)
    (ha : a ∈ hashesAll nodes) (hd : A.isDescendentOf x.hash a) : a ∈ hashesAll x.children :=
  h.descends_of_trees (fun node hn hx ha =>
    (h.trees node hn).mem_hashesAll_children hx ha hd) hx ha hd

theorem nodup (h : A.MirroredForest nodes) : (hashesAll nodes).Nodup :=
  h.nodup_of_trees fun node hn => (h.trees node hn).nodup

theorem mem_descendants_iff (h : A.MirroredForest nodes) (hx : x ∈ nodesAll nodes)
    (hy : y ∈ nodesAll nodes) : y ∈ x.descendants ↔ A.isDescendentOf x.hash y.hash := by
  constructor
  case mp =>
    intro hd
    exact (h.mirrored_of_mem hx).descends (hash_mem_of_mem hd)
  case mpr =>
    intro hd
    have hm := h.mem_hashesAll_children hx (hash_mem_of_mem hy) hd
    rw [hashesAll_eq] at hm
    obtain ⟨y', hy', he⟩ := List.mem_map.mp hm
    have hn := h.nodup
    rw [hashesAll_eq] at hn
    exact List.inj_on_of_nodup_map hn (descendants_subset hx hy') hy he ▸ hy'

end MirroredForest
end Ancestry

section Import

variable {t : ForkTree H N V} {x : H}

-- The search of `import` finds the deepest ancestor of the block.
theorem findNodeIndexWhere_spec (h : A.MirroredForest t.roots) :
    SearchSpec A x (hashesAll t.roots) (nodeAt t.roots)
      (searchChildren x (A.numberOf x) (A.query E) (fun _ => true) 0 t.roots) :=
  searchChildren_spec [] h.trees fun node hn => search_spec (h.trees node hn)

theorem mem_children_of_deepest (hm : A.Mirrored target)
    (hd : DeepestAncestor A x target) (hx : x ∈ hashesAll target.children) :
    ∃ child ∈ target.children, child.hash = x := by
  obtain ⟨child, hc, hx⟩ := mem_hashesAll.mp hx
  cases mem_hashes.mp hx
  case inl he => exact ⟨child, hc, he.symm⟩
  case inr hx =>
    have ha := (hm.children.trees child hc).descends hx
    exact absurd ha (hd.2 child.hash (mem_hashesAll.mpr ⟨child, hc, hash_mem_hashes child⟩))

theorem mirroredForest_push_root (data : V) (h : A.MirroredForest t.roots)
    (hx : x ∉ hashesAll t.roots) (ha : ∀ a ∈ hashesAll t.roots, ¬A.isDescendentOf a x)
    (hn : ∀ a ∈ hashesAll t.roots, ¬A.isDescendentOf x a) :
    A.MirroredForest (t.roots ++ [.mk x (A.numberOf x) data []]) := by
  refine h.append (.singleton (.mk (by simp [hashesAll]) .nil (by simp)))
    fun s hs t ht a has b hbt => ?_
  cases List.mem_singleton.mp ht
  cases List.mem_singleton.mp hbt
  have has' := mem_hashesAll.mpr ⟨s, hs, has⟩
  exact ⟨ha a has', hn a has', fun he => hx (he ▸ has')⟩

theorem rebalance_spec {t' : ForkTree H N V} (c : Bool) (hm : A.MirroredForest t'.roots)
    (hs : ∀ a ∈ hashesAll t'.roots, a ∈ hashesAll t.roots ∨ a = x) :
    A.MirroredForest (if c then t'.rebalance else t').roots ∧
      hashesAll (if c then t'.rebalance else t').roots ⊆ x :: hashesAll t.roots := by
  have hr : Restricts A t'.roots (if c then t'.rebalance else t').roots := by
    cases c
    case true => exact .rebalance t'
    case false => exact .refl
  exact ⟨hr.keeps hm, fun a ha => List.mem_cons.mpr (hs a (hr.subset ha)).symm⟩

variable [DecidableEq H]

theorem importNode_of_mem (h : A.MirroredForest t.roots) (hx : x ∈ hashesAll t.roots) (data : V) :
    t.importNode x (A.numberOf x) (A.query E) data = (.error .duplicate, t) ∨
      t.importNode x (A.numberOf x) (A.query E) data = (.error .revert, t) := by
  rw [importNode, findNodeIndexWhere_eq]
  split_ifs
  case pos => exact .inr rfl
  case neg =>
    have hs := findNodeIndexWhere_spec (E := E) (x := x) h
    generalize searchChildren x _ _ _ 0 t.roots = r at hs ⊢
    cases hs
    case miss hn =>
      obtain ⟨root, hr, hx⟩ := mem_hashesAll.mp hx
      have hany : t.roots.any (·.hash = x) := by
        cases mem_hashes.mp hx
        case inl he => simpa using ⟨root, hr, he.symm⟩
        case inr hx =>
          have ha := (h.trees root hr).descends hx
          exact absurd ha (hn root.hash (mem_hashesAll.mpr ⟨root, hr, hash_mem_hashes root⟩))
      simp [Except.map, Found.path?, childrenAt, hany]
    case found path target hl hd =>
      have ht := mem_nodesAll_of_nodeAt hl
      have hany : target.children.any (·.hash = x) := by
        simpa using mem_children_of_deepest (h.mirrored_of_mem ht) hd
          (h.mem_hashesAll_children ht hx hd.1)
      simp [Except.map, Found.path?, childrenAt, hl, hany]

theorem importNode_of_not_mem (h : A.MirroredForest t.roots) (hx : x ∉ hashesAll t.roots)
    (hn : ∀ a ∈ hashesAll t.roots, ¬A.isDescendentOf x a) (data : V) :
    t.importNode x (A.numberOf x) (A.query E) data = (.error .revert, t) ∨
      ∃ isRoot t', t.importNode x (A.numberOf x) (A.query E) data = (.ok isRoot, t') ∧
        A.MirroredForest t'.roots ∧ hashesAll t'.roots ⊆ x :: hashesAll t.roots := by
  rw [importNode, findNodeIndexWhere_eq]
  split_ifs
  case pos => exact .inl rfl
  case neg =>
    have hs := findNodeIndexWhere_spec (E := E) (x := x) h
    generalize searchChildren x _ _ _ 0 t.roots = r at hs ⊢
    apply Or.inr
    cases hs
    case miss ha =>
      have hany := any_eq_false_of_not_mem hx
      simp only [Except.map, Found.path?, childrenAt, hany]
      refine ⟨_, _, rfl, rebalance_spec _ (mirroredForest_push_root data h hx ha hn) fun a ha => ?_⟩
      simpa [pushAt, hashesAll_append, hashesAll, hashes] using ha
    case found path target hl hd =>
      have hsub := ((Restricts.nodeAt (A := A) hl).trans .children).subset
      have hany := any_eq_false_of_not_mem fun hx' => hx (hsub hx')
      simp only [Except.map, Found.path?, childrenAt, hl, Option.elim_some, hany]
      obtain ⟨hm, hs⟩ := mirroredForest_insert data h hl hd hx hn
      exact ⟨_, _, rfl, rebalance_spec _ hm hs⟩

end Import

section Run

variable [DecidableEq H] (A E)

-- The operations other than `import`, with the number that the block has.
inductive Operation (H N V : Type)
  | prune (hash : H) (predicate : V → Bool)
  | finalize (hash : H)
  | finalizeWithAncestors (hash : H)
  | finalizeWithDescendentIf (hash : H) (predicate : V → Bool)
  | drainFilter (filter : H → N → V → FilterAction)

def Operation.run (t : ForkTree H N V) : Operation H N V → ForkTree H N V
  | .prune h predicate => (t.prune h (A.numberOf h) (A.query E) predicate).2
  | .finalize h => (t.finalize h (A.numberOf h) (A.query E)).2
  | .finalizeWithAncestors h => (t.finalizeWithAncestors h (A.numberOf h) (A.query E)).2
  | .finalizeWithDescendentIf h predicate =>
    (t.finalizeWithDescendentIf h (A.numberOf h) (A.query E) predicate).2
  | .drainFilter filter => (ForkTree.drainFilter filter t).2

def importBlock (t : ForkTree H N V) (hash : H) (data : V) :
    Except (Error E) Bool × ForkTree H N V :=
  t.importNode hash (A.numberOf hash) (A.query E) data

def recordImport (hash : H) (imported : List H) : Except (Error E) Bool → List H
  | .ok _ => hash :: imported
  | .error _ => imported

-- The runs from the empty tree in which no block is imported after one of its descendants.
inductive Run : List H → ForkTree H N V → Prop
  | empty : Run [] {}
  | importBlock {imported t} (hash data) : Run imported t →
    (∀ b ∈ imported, ¬A.isDescendentOf hash b) →
    Run (recordImport E hash imported (importBlock E A t hash data).1)
      (importBlock E A t hash data).2
  | operation {imported t} (op : Operation H N V) : Run imported t → Run imported (op.run E A t)

variable {E A} {t : ForkTree H N V} {imported : List H}

theorem Operation.restricts (op : Operation H N V) : Restricts A t.roots (op.run E A t).roots := by
  cases op
  case prune => exact .prune ..
  case finalize => exact .finalize ..
  case finalizeWithAncestors => exact .finalizeWithAncestors ..
  case finalizeWithDescendentIf => exact .finalizeWithDescendentIf ..
  case drainFilter => exact .drainFilter ..

theorem Run.mirrored (h : Run E A imported t) :
    A.MirroredForest t.roots ∧ hashesAll t.roots ⊆ imported := by
  induction h
  case empty => exact ⟨.nil, by simp [hashesAll]⟩
  case operation op _ hi =>
    exact ⟨op.restricts.keeps hi.1, List.Subset.trans op.restricts.subset hi.2⟩
  case importBlock imported t x data _ hn hi =>
    obtain ⟨hm, hs⟩ := hi
    rw [ForkTree.importBlock]
    by_cases hx : x ∈ hashesAll t.roots
    case pos =>
      rcases importNode_of_mem (E := E) hm hx data with he | he <;> rw [he] <;> exact ⟨hm, hs⟩
    case neg =>
      rcases importNode_of_not_mem (E := E) hm hx (fun a ha => hn a (hs ha)) data with
        he | ⟨isRoot, t', he, hm', hs'⟩ <;> rw [he]
      · exact ⟨hm, hs⟩
      · exact ⟨hm', List.Subset.trans hs' (List.cons_subset_cons x hs)⟩

theorem forkTree_mirrors_ancestry (h : Run E A imported t) :
    (∀ x ∈ nodesAll t.roots, ∀ y ∈ nodesAll t.roots,
      y ∈ x.descendants ↔ A.isDescendentOf x.hash y.hash) ∧
    (∀ x ∈ nodesAll t.roots, ∀ child ∈ x.children, x.number < child.number) ∧
    ((nodesAll t.roots).map Node.hash).Nodup ∧
    ∀ x ∈ nodesAll t.roots, ∀ data,
      t.importNode x.hash x.number (A.query E) data = (.error .duplicate, t) ∨
      t.importNode x.hash x.number (A.query E) data = (.error .revert, t) := by
  have hm := h.mirrored.1
  refine ⟨fun x hx y hy => hm.mem_descendants_iff hx hy, fun x hx child hc => ?_,
    hashesAll_eq t.roots ▸ hm.nodup, fun x hx data => ?_⟩
  · have hx' := hm.mirrored_of_mem hx
    have hc' := hx'.children.trees child hc
    rw [hx'.number_eq, hc'.number_eq]
    exact A.number_lt (hx'.descends (mem_hashesAll.mpr ⟨child, hc, hash_mem_hashes child⟩))
  · rw [(hm.mirrored_of_mem hx).number_eq]
    exact importNode_of_mem hm (hash_mem_of_mem hx) data

def twoChains : Ancestry (Bool × Nat) Nat where
  isDescendentOf a b := a.1 = b.1 ∧ a.2 < b.2
  numberOf a := a.2
  trans h h' := by grind
  chain h h' := by grind
  number_lt h := by grind

-- A run with a fork at the roots, whose first branch is finalized in the end.
theorem mirrors_ancestry_of_two_chains :
    ∃ imported, ∃ t : ForkTree (Bool × Nat) Nat Unit, Run Empty twoChains imported t ∧
      (nodesAll t.roots).map Node.hash = [(true, 3), (true, 5)] ∧
      ∀ x ∈ nodesAll t.roots, ∀ y ∈ nodesAll t.roots,
        y ∈ x.descendants ↔ twoChains.isDescendentOf x.hash y.hash := by
  have h := Run.operation (.finalize (true, 1))
    (.importBlock (true, 5) ()
      (.importBlock (true, 3) ()
        (.importBlock (false, 2) ()
          (.importBlock (true, 1) () (.empty (E := Empty) (A := twoChains)) (by decide))
          (by decide))
        (by decide))
      (by decide))
  exact ⟨_, _, h, rfl, (forkTree_mirrors_ancestry h).1⟩

end Run
end ForkTree
