import RostroModel.ForkTree.Insertion
import RostroModel.ForkTree.DrainFilter

namespace ForkTree

open Node

variable {H N V E : Type}

theorem retainRoots_sublist (retain : Node H N V → Except E Bool) (nodes kept : List (Node H N V))
    (changed : Bool) : (retainRoots retain nodes kept changed).2.Sublist (kept ++ nodes) := by
  induction nodes generalizing kept changed
  case nil => simp [retainRoots]
  case cons node nodes hi =>
    rw [retainRoots]
    cases retain node
    case error e => exact List.sublist_append_left kept _
    case ok below =>
      cases below
      case true => simpa using hi (kept ++ [node]) changed
      case false =>
        exact (hi kept true).trans ((List.sublist_cons_self node nodes).append_left kept)

variable [LinearOrder N]

section Keep

variable [DecidableEq H] (hash : H) (number : N) (query : H → H → Except E Bool)

-- A child of the last ancestor that `prune` does not remove.
def isKept (child : Node H N V) : Except E Bool :=
  if child.number = number ∧ child.hash = hash then .ok true else
  isFinalizedBranch hash number query child

theorem keepDescendents_eq (nodes kept removed : List (Node H N V)) (changed : Bool) :
    (keepDescendents hash number query nodes kept removed).1 =
      (retainRoots (isKept hash number query) nodes kept changed).1.map (fun _ => ()) ∧
    (keepDescendents hash number query nodes kept removed).2.1 =
      (retainRoots (isKept hash number query) nodes kept changed).2 := by
  induction nodes generalizing kept removed changed
  case nil => exact ⟨rfl, rfl⟩
  case cons child nodes hi =>
    rw [keepDescendents, retainRoots, isKept, isFinalizedBranch]
    split_ifs
    · exact hi ..
    · cases query hash child.hash
      case error e => exact ⟨rfl, rfl⟩
      case ok below => cases below <;> exact hi ..
    · exact hi ..

end Keep

-- What any operation but `import` does to the roots: no new block shows up, and the trees that are
-- left mirror the ancestry if those before did.
structure Restricts (A : Ancestry H N) (nodes nodes' : List (Node H N V)) : Prop where
  subset : hashesAll nodes' ⊆ hashesAll nodes
  keeps : A.MirroredForest nodes → A.MirroredForest nodes'

namespace Restricts

variable {A : Ancestry H N} {nodes nodes' nodes'' : List (Node H N V)} {node : Node H N V}

theorem refl : Restricts A nodes nodes :=
  ⟨List.Subset.refl _, id⟩

theorem trans (h : Restricts A nodes nodes') (h' : Restricts A nodes' nodes'') :
    Restricts A nodes nodes'' :=
  ⟨List.Subset.trans h'.subset h.subset, h'.keeps ∘ h.keeps⟩

theorem of_sublist (h : nodes'.Sublist nodes) : Restricts A nodes nodes' :=
  ⟨hashesAll_subset h.subset, (·.sublist h)⟩

theorem of_perm (h : nodes.Perm nodes') : Restricts A nodes nodes' :=
  ⟨hashesAll_subset h.symm.subset, (·.perm h)⟩

theorem of_mem (h : node ∈ nodes) : Restricts A nodes [node] :=
  of_sublist (List.singleton_sublist.mpr h)

theorem open_root : Restricts A (node :: nodes) (nodes ++ node.children) := by
  refine ⟨fun a ha => ?_, (·.cons_children)⟩
  obtain ⟨t, ht, ha⟩ := mem_hashesAll.mp ha
  cases List.mem_append.mp ht
  case inl ht => exact mem_hashesAll.mpr ⟨t, by simp [ht], ha⟩
  case inr ht => exact mem_hashesAll.mpr ⟨node, by simp, mem_hashes_of_child ht ha⟩

theorem children : Restricts A [node] node.children :=
  open_root

theorem mirrored_of_singleton (h : A.MirroredForest [node]) : A.Mirrored node :=
  h.trees node (List.mem_singleton_self node)

theorem setChildren (node : Node H N V) (h : Restricts A node.children nodes) :
    Restricts A [node] [node.setChildren nodes] := by
  constructor
  case subset =>
    intro a ha
    rw [hashesAll, hashesAll, List.append_nil] at ha ⊢
    cases List.mem_cons.mp ha
    case inl he => exact he ▸ hash_mem_hashes node
    case inr hc => exact mem_hashes.mpr (.inr (h.subset hc))
  case keeps =>
    intro hm
    have hn := mirrored_of_singleton hm
    rw [Node.setChildren, hn.number_eq]
    exact .singleton (.mk' (fun b hb => hn.descends (h.subset hb)) (h.keeps hn.children))

theorem filterMap {f : Node H N V → Option (Node H N V)}
    (h : ∀ t ∈ nodes, ∀ t' ∈ f t, Restricts A [t] [t']) :
    Restricts A nodes (nodes.filterMap f) := by
  have hsub {t t'} (ht : t ∈ nodes) (ht' : f t = some t') : t'.hashes ⊆ t.hashes := by
    simpa [hashesAll] using (h t ht t' ht').subset
  constructor
  case subset =>
    intro a ha
    obtain ⟨t', hm, ha⟩ := mem_hashesAll.mp ha
    obtain ⟨t, ht, ht'⟩ := List.mem_filterMap.mp hm
    exact mem_hashesAll.mpr ⟨t, ht, hsub ht ht' ha⟩
  case keeps =>
    intro hm
    constructor
    case unrelated =>
      apply List.pairwise_filterMap.mpr
      apply hm.unrelated.imp_of_mem
      intro s t hs ht hu s' hs' t' ht'
      exact hu.mono (hsub hs hs') (hsub ht ht')
    case trees =>
      intro t' hm'
      obtain ⟨t, ht, ht'⟩ := List.mem_filterMap.mp hm'
      exact mirrored_of_singleton ((h t ht t' ht').keeps (.singleton (hm.trees t ht)))

theorem map {f : Node H N V → Node H N V} (h : ∀ t ∈ nodes, Restricts A [t] [f t]) :
    Restricts A nodes (nodes.map f) := by
  rw [← List.filterMap_eq_map]
  apply filterMap
  intro t ht t' ht'
  cases ht'
  exact h t ht

theorem sortByDepth : Restricts A nodes (sortByDepth nodes) :=
  of_perm (List.perm_insertionSort _ nodes).symm

theorem rebalanceNode (node : Node H N V) : Restricts A [node] [node.rebalance] := by
  induction node using Node.induction
  case h h n d children hi =>
    rw [Node.rebalance, rebalanceAll_eq]
    exact setChildren (.mk h n d children) ((map hi).trans sortByDepth)

theorem rebalance (t : ForkTree H N V) : Restricts A t.roots t.rebalance.roots := by
  rw [ForkTree.rebalance, rebalanceAll_eq]
  exact (map fun node _ => rebalanceNode node).trans sortByDepth

theorem filterTree (filter : H → N → V → FilterAction) (node : Node H N V) :
    ∀ node' ∈ filterTree filter node, Restricts A [node] [node'] := by
  induction node using Node.induction
  case h h n d children hi =>
    intro node' hn
    rw [ForkTree.filterTree] at hn
    cases hf : filter h n d <;> rw [hf] at hn <;> cases hn
    case keepTree.refl => exact refl
    case keepNode.refl =>
      rw [filterForest_eq]
      exact setChildren (.mk h n d children) (filterMap hi)

theorem drainFilter (filter : H → N → V → FilterAction) (t : ForkTree H N V) :
    Restricts A t.roots (drainFilter filter t).2.roots := by
  have hf : Restricts A t.roots (filterForest filter t.roots) := by
    rw [filterForest_eq]
    exact filterMap fun node _ => filterTree filter node
  rcases drainFilter_roots filter t with h | h <;> rw [h]
  · exact hf
  · exact hf.trans (rebalance { t with roots := _ })

theorem descend (h : node.descend path = some target) : Restricts A [node] [target] := by
  induction path generalizing node
  case nil => cases h; exact refl
  case cons i path hi =>
    obtain ⟨child, hc, hd⟩ := Option.bind_eq_some_iff.mp h
    exact (children.trans (of_mem (List.mem_of_getElem? hc))).trans (hi hd)

theorem nodeAt (h : nodeAt nodes path = some target) : Restricts A nodes [target] := by
  cases path
  case nil => cases h
  case cons i path =>
    obtain ⟨root, hr, hd⟩ := Option.bind_eq_some_iff.mp h
    exact (of_mem (List.mem_of_getElem? hr)).trans (descend hd)

theorem finishRetaining (number : N) (t : ForkTree H N V) (data : Option V)
    (retain : Node H N V → Except E Bool) :
    Restricts A nodes
      (finishRetaining t number data (retainRoots retain nodes [] false)).2.roots := by
  have hs := retainRoots_sublist retain nodes [] false
  generalize retainRoots retain nodes [] false = r at hs ⊢
  obtain ⟨result, kept⟩ := r
  cases result <;> exact of_sublist hs

section Operations

variable [DecidableEq H] (hash : H) (number : N) (query : H → H → Except E Bool)

theorem keepDescendents_sublist (nodes kept removed : List (Node H N V)) :
    (keepDescendents hash number query nodes kept removed).2.1.Sublist (kept ++ nodes) := by
  rw [(keepDescendents_eq hash number query nodes kept removed false).2]
  exact retainRoots_sublist _ nodes kept false

theorem walkChildren (hr : rest ⊆ siblings) (hw : ∀ child ∈ rest, ∀ removed,
      Restricts A [child] [(walk hash number query child removed).2.1])
    (idx : Nat) (removed : List (Node H N V)) :
    Restricts A siblings (walkChildren hash number query siblings idx rest removed).2.1 := by
  induction rest generalizing idx
  case nil =>
    exact of_sublist (keepDescendents_sublist hash number query siblings [] removed)
  case cons child rest hi =>
    obtain ⟨hc, hr⟩ := List.cons_subset.mp hr
    obtain ⟨hw, hws⟩ := List.forall_mem_cons.mp hw
    rw [ForkTree.walkChildren]
    split_ifs
    · cases query child.hash hash
      case error e => exact refl
      case ok below =>
        cases below
        case false => exact hi hr hws _
        case true => exact (of_mem hc).trans (hw _)
    · exact hi hr hws _

theorem walk (node : Node H N V) : ∀ removed,
    Restricts A [node] [(walk hash number query node removed).2.1] := by
  induction node using Node.induction
  case h h n d children hi =>
    intro removed
    exact setChildren (.mk h n d children)
      (walkChildren hash number query (List.Subset.refl _) hi 0 removed)

theorem prune (predicate : V → Bool) (t : ForkTree H N V) :
    Restricts A t.roots (t.prune hash number query predicate).2.roots := by
  rw [ForkTree.prune]
  cases t.findNodeIndexWhere hash number query predicate
  case error e => exact refl
  case ok path =>
    cases path
    case none => exact refl
    case some path =>
      cases hn : ForkTree.nodeAt t.roots path
      case none => simp only [hn]; exact refl
      case some root =>
        simp only [hn]
        have hw := (nodeAt hn).trans
          (walk (A := A) hash number query root (detach t.roots path))
        generalize ForkTree.walk hash number query root (detach t.roots path) = r at hw ⊢
        obtain ⟨result, root, removed⟩ := r
        cases result
        case error e => exact hw
        case ok => exact hw.trans (rebalance { t with roots := [root] })

theorem finalizeRoot {t t' : ForkTree H N V} {data : V}
    (h : t.finalizeRoot hash = some (data, t')) :
    Restricts A t.roots t'.roots := by
  obtain ⟨i, -, hi⟩ := Option.bind_eq_some_iff.mp h
  obtain ⟨node, hn, ht⟩ := Option.map_eq_some_iff.mp hi
  cases ht
  exact (of_mem (List.mem_of_getElem? hn)).trans children

theorem finalize (t : ForkTree H N V) :
    Restricts A t.roots (t.finalize hash number query).2.roots := by
  rw [ForkTree.finalize]
  split_ifs
  · exact refl
  · cases hf : t.finalizeRoot hash
    case some r => exact finalizeRoot hash hf
    case none =>
      cases t.roots.anyM (isUnfinalizedAncestor hash number query)
      case error e => exact refl
      case ok ancestor =>
        cases ancestor
        case true => exact refl
        case false => exact finishRetaining number t none _

theorem openAncestors (passes : Nat) (t : ForkTree H N V) (idx : Nat) (changed : Bool) :
    Restricts A t.roots (openAncestors hash number query passes t idx changed).2.roots := by
  induction passes generalizing t idx changed
  case zero => exact refl
  case succ passes hi =>
    rw [ForkTree.openAncestors]
    cases hr : t.roots[idx]?
    case none => exact refl
    case some root =>
      dsimp only
      cases relationOf hash number query root
      case error e => exact refl
      case ok relation =>
        have hp : Restricts A t.roots (root :: swapRemove t.roots idx) :=
          of_perm (swapRemove_perm hr)
        cases relation
        case finalized => exact (of_mem (List.mem_of_getElem? hr)).trans children
        case descendant => exact hi t (idx + 1) changed
        case ancestor => exact (hp.trans open_root).trans (hi { t with roots := _ } idx true)
        case unrelated =>
          exact (hp.trans (of_sublist (List.sublist_cons_self _ _))).trans
            (hi { t with roots := _ } idx true)

theorem finalizeWithAncestors (t : ForkTree H N V) :
    Restricts A t.roots (t.finalizeWithAncestors hash number query).2.roots := by
  rw [ForkTree.finalizeWithAncestors]
  split_ifs
  · exact refl
  · cases hf : t.finalizeRoot hash
    case some r => exact finalizeRoot hash hf
    case none => exact openAncestors hash number query _ t 0 false

theorem findFinalizedRoot_mem {predicate : V → Bool} {nodes : List (Node H N V)} {node : Node H N V}
    (h : findFinalizedRoot hash number query predicate nodes = .ok (some node)) :
    node ∈ nodes := by
  induction nodes
  case nil => cases h
  case cons root nodes hi =>
    rw [findFinalizedRoot] at h
    split at h
    · cases h
    · exact List.mem_cons_of_mem _ (hi h)
    · split at h <;> cases h
      exact List.mem_cons_self

theorem finalizeWithDescendentIf (predicate : V → Bool) (t : ForkTree H N V) :
    Restricts A t.roots (t.finalizeWithDescendentIf hash number query predicate).2.roots := by
  rw [ForkTree.finalizeWithDescendentIf]
  split_ifs
  · exact refl
  · cases hf : findFinalizedRoot hash number query predicate t.roots
    case error e => exact refl
    case ok found =>
      cases found
      case none => exact finishRetaining number t none _
      case some node =>
        have hm := findFinalizedRoot_mem hash number query hf
        exact ((of_mem hm).trans children).trans (finishRetaining number _ _ _)

end Operations
end Restricts
end ForkTree
