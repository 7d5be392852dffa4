import RostroModel.ForkTree.Mirror

namespace ForkTree

variable {H N V E : Type} [DecidableEq H] [LinearOrder N]
variable (hash : H) (number : N) (isDescendentOf : H → H → Except E Bool) (predicate : V → Bool)

-- The loop over the nodes in pre-order. The first one that the block finalizes decides.
def findFinalized (roots : List (Node H N V)) :
    List (Node H N V) → Except (Error E) (Option Bool)
  | [] => .ok none
  | node :: nodes =>
    match if predicate node.data then isAtOrBelow hash isDescendentOf node else .ok false with
    | .error e => .error (.client e)
    | .ok false => findFinalized roots nodes
    | .ok true =>
      match node.children.anyM (isPastChild hash number isDescendentOf) with
      | .error e => .error (.client e)
      | .ok true => .error .unfinalizedAncestor
      | .ok false => .ok (some (roots.any (·.hash = node.hash)))

def finalizesAnyWithDescendentIf (t : ForkTree H N V) : Except (Error E) (Option Bool) :=
  if t.reverts number then .error .revert else
  findFinalized hash number isDescendentOf predicate t.roots (Node.nodesAll t.roots)

variable {hash number isDescendentOf predicate} {roots : List (Node H N V)}

-- What the first loop of `finalize_with_descendent_if` finds.
theorem findFinalizedRoot_eq_some
    (h : findFinalizedRoot hash number isDescendentOf predicate roots = .ok (some node)) :
    node ∈ roots ∧ predicate node.data ∧ isAtOrBelow hash isDescendentOf node = .ok true := by
  induction roots
  case nil => cases h
  case cons root roots hi =>
    rw [findFinalizedRoot] at h
    by_cases hp : predicate root.data
    case neg =>
      simp only [hp] at h
      exact (hi h).imp_left (List.mem_cons_of_mem _)
    case pos =>
      rw [if_pos hp] at h
      rcases hq : isAtOrBelow hash isDescendentOf root with e | _ | _
      all_goals rw [hq] at h
      case error => cases h
      case ok.false => exact (hi h).imp_left (List.mem_cons_of_mem _)
      case ok.true =>
        rcases hc : root.children.anyM (isPastChild hash number isDescendentOf) with e | _ | _
        all_goals simp only [hc] at h
        all_goals cases h
        exact ⟨List.mem_cons_self, hp, hq⟩

variable {t : ForkTree H N V}

omit [DecidableEq H] [LinearOrder N] in
theorem finishRetaining_eq_changed
    (h : (finishRetaining t number found r).1 = .ok (.changed (some data))) :
    found = some data := by
  rcases r with ⟨_ | changed, roots⟩
  case error => cases h
  case ok =>
    rw [finishRetaining, finalizationResult] at h
    split_ifs at h
    all_goals cases h
    rfl

variable {nodes : List (Node H N V)}

variable {node : Node H N V}

variable {e : H × V}

theorem finalizeWithDescendentIf_eq_changed
    (h : (t.finalizeWithDescendentIf hash number isDescendentOf predicate).1 =
      .ok (.changed (some data))) :
    ∃ node ∈ t.roots, node.data = data ∧ predicate data ∧
      isAtOrBelow hash isDescendentOf node = .ok true := by
  rw [finalizeWithDescendentIf] at h
  split_ifs at h
  case neg =>
    rcases hf : findFinalizedRoot hash number isDescendentOf predicate t.roots with e | _ | node
    all_goals simp only [hf] at h
    case error => cases h
    case ok.none => cases finishRetaining_eq_changed h
    case ok.some =>
      cases finishRetaining_eq_changed h
      obtain ⟨hm, hp, hq⟩ := findFinalizedRoot_eq_some hf
      exact ⟨node, hm, rfl, hp, hq⟩

namespace Node

-- The blocks of a forest with their data.
def entries (nodes : List (Node H N V)) : List (H × V) :=
  (nodesAll nodes).map fun node => (node.hash, node.data)

omit [DecidableEq H] [LinearOrder N]

theorem nodesAll_append (nodes nodes' : List (Node H N V)) :
    nodesAll (nodes ++ nodes') = nodesAll nodes ++ nodesAll nodes' := by
  induction nodes <;> simp_all [nodesAll]

theorem entries_append (nodes nodes' : List (Node H N V)) :
    entries (nodes ++ nodes') = entries nodes ++ entries nodes' := by
  simp [entries, nodesAll_append]

theorem entries_cons (node : Node H N V) (nodes : List (Node H N V)) :
    entries (node :: nodes) = (node.hash, node.data) ::
      (entries node.children ++ entries nodes) := by
  cases node
  simp [entries, nodesAll, Node.nodes]

theorem entries_perm {nodes nodes' : List (Node H N V)} (h : nodes.Perm nodes') :
    (entries nodes).Perm (entries nodes') := by
  induction h
  case nil => exact .refl _
  case cons node nodes nodes' _ hi =>
    rw [entries_cons, entries_cons]
    exact (hi.append_left _).cons _
  case swap a b nodes =>
    rw [show b :: a :: nodes = [b] ++ [a] ++ nodes from rfl,
      show a :: b :: nodes = [a] ++ [b] ++ nodes from rfl]
    simp only [entries_append]
    exact List.perm_append_comm.append_right _
  case trans _ _ hi hi' => exact hi.trans hi'

theorem mem_entries_singleton :
    e ∈ entries [node] ↔ e = (node.hash, node.data) ∨ e ∈ entries node.children := by
  rw [entries_cons]
  simp [entries, nodesAll]

theorem mem_entries : e ∈ entries nodes ↔ ∃ node ∈ nodes, e ∈ entries [node] := by
  induction nodes
  case nil => simp [entries, nodesAll]
  case cons node nodes hi =>
    rw [show node :: nodes = [node] ++ nodes from rfl, entries_append, List.mem_append, hi]
    simp

theorem mem_entries_of_mem (h : node ∈ nodesAll nodes) : (node.hash, node.data) ∈ entries nodes :=
  List.mem_map_of_mem h

theorem fst_mem_of_mem_entries (h : e ∈ entries nodes) : e.1 ∈ hashesAll nodes := by
  obtain ⟨node, hn, rfl⟩ := List.mem_map.mp h
  exact hash_mem_of_mem hn

theorem mem_nodesAll_of_root (h : node ∈ nodes) : node ∈ nodesAll nodes :=
  mem_nodesAll.mpr ⟨node, h, mem_nodes.mpr (.inl rfl)⟩

theorem entries_modify {i : Nat} {f : Node H N V → Node H N V} {es : List (H × V)}
    (hi : nodes[i]? = some node) (hf : (entries [f node]).Perm (es ++ entries [node])) :
    (entries (nodes.modify i f)).Perm (es ++ entries nodes) := by
  induction nodes generalizing i
  case nil => cases hi
  case cons n nodes ih =>
    have hc (m : Node H N V) (ms : List (Node H N V)) : entries (m :: ms) =
        entries [m] ++ entries ms :=
      entries_append [m] ms
    cases i
    case zero =>
      cases hi
      rw [List.modify_zero_cons, hc, hc node, ← List.append_assoc]
      exact hf.append_right _
    case succ i =>
      rw [List.modify_succ_cons, hc, hc n nodes]
      refine ((ih hi).append_left _).trans ?_
      rw [← List.append_assoc, ← List.append_assoc]
      exact List.perm_append_comm.append_right _

theorem entries_setChildren (node : Node H N V) {es : List (H × V)}
    (h : (entries nodes).Perm (es ++ entries node.children)) :
    (entries [node.setChildren nodes]).Perm (es ++ entries [node]) := by
  rw [entries_cons, entries_cons]
  simp only [setChildren, hash_mk, data_mk, children_mk, entries, nodesAll, List.map_nil,
    List.append_nil] at h ⊢
  exact (h.cons _).trans List.perm_middle.symm

theorem entries_modifyAt {node target : Node H N V} {path : List Nat} (leaf : Node H N V)
    (h : node.descend path = some target) :
    (entries [node.modifyAt (·.pushChild leaf) path]).Perm (entries [leaf] ++ entries [node]) := by
  induction path generalizing node
  case nil =>
    apply entries_setChildren
    rw [entries_append]
    exact List.perm_append_comm
  case cons i path hi =>
    obtain ⟨child, hc, hd⟩ := Option.bind_eq_some_iff.mp h
    exact entries_setChildren node (entries_modify hc (hi hd))

theorem entries_rebalanceAll
    (h : ∀ node ∈ nodes, (entries [node.rebalance]).Perm (entries [node])) :
    (entries (rebalanceAll nodes)).Perm (entries nodes) := by
  induction nodes
  case nil => exact .refl _
  case cons node nodes hi =>
    obtain ⟨hn, hns⟩ := List.forall_mem_cons.mp h
    calc entries (node.rebalance :: rebalanceAll nodes)
      _ = entries [node.rebalance] ++ entries (rebalanceAll nodes) :=
        entries_append [node.rebalance] _
      _ |>.Perm (entries [node] ++ entries nodes) := hn.append (hi hns)
      _ = entries (node :: nodes) := (entries_append [node] nodes).symm

theorem entries_rebalance (node : Node H N V) :
    (entries [node.rebalance]).Perm (entries [node]) := by
  induction node using Node.induction
  case h h n d children hi =>
    have hp : (entries (sortByDepth (rebalanceAll children))).Perm ([] ++ entries children) :=
      (entries_perm (List.perm_insertionSort _ _)).trans (entries_rebalanceAll hi)
    exact entries_setChildren (.mk h n d children) hp

end Node

open Node

omit [DecidableEq H] [LinearOrder N] in
theorem entries_rebalanced (t : ForkTree H N V) :
    (entries t.rebalance.roots).Perm (entries t.roots) :=
  (entries_perm (List.perm_insertionSort _ _)).trans
    (entries_rebalanceAll fun node _ => entries_rebalance node)

omit [DecidableEq H] in
theorem findNodeIndexWhere_path
    (h : t.findNodeIndexWhere hash number isDescendentOf predicate = .ok (some path)) :
    ∃ target, nodeAt t.roots path = some target := by
  rw [findNodeIndexWhere_eq] at h
  obtain ⟨found, hf, hp⟩ := Except.map_eq_ok.mp h
  cases found
  all_goals cases hp
  exact searchChildren_path [] t.roots (fun child _ => search_path child) hf

-- An import that succeeds adds the block with its data, and nothing else.
theorem importNode_entries {data : V} {isRoot : Bool} {t' : ForkTree H N V}
    (h : t.importNode hash number isDescendentOf data = (.ok isRoot, t')) :
    (entries t'.roots).Perm ((hash, data) :: entries t.roots) ∧
      t'.bestFinalizedNumber = t.bestFinalizedNumber ∧ t.reverts number = false := by
  have hl : entries [(.mk hash number data [] : Node H N V)] = [(hash, data)] := by
    simp [entries, nodesAll, Node.nodes]
  rw [importNode] at h
  by_cases hrev : t.reverts number
  case pos => rw [if_pos hrev] at h; cases h
  case neg =>
    rw [if_neg hrev] at h
    rcases hf : t.findNodeIndexWhere hash number isDescendentOf (fun _ => true) with _ | path
    all_goals simp only [hf] at h
    case error => cases h
    case ok =>
      have hp : (entries (t.pushAt (.mk hash number data []) path).roots).Perm
          ((hash, data) :: entries t.roots) := by
        cases path
        case none =>
          rw [pushAt, entries_append]
          exact List.perm_append_comm
        case some path =>
          obtain ⟨target, ht⟩ := findNodeIndexWhere_path hf
          cases path
          case nil => cases ht
          case cons i path =>
            obtain ⟨root, hr, hd⟩ := Option.bind_eq_some_iff.mp ht
            exact entries_modify hr (hl ▸ entries_modifyAt _ hd)
      have hb : (t.pushAt (.mk hash number data []) path).bestFinalizedNumber =
          t.bestFinalizedNumber := by
        cases path <;> rfl
      split_ifs at h
      all_goals cases h
      · exact ⟨(entries_rebalanced _).trans hp, hb, by simpa using hrev⟩
      · exact ⟨hp, hb, by simpa using hrev⟩

section Mirrored

variable {A : Ancestry H N} {x : H} {t : ForkTree H N V}

-- The block `a` is `x` or an ancestor of it.
def Ancestry.AtOrAbove (A : Ancestry H N) (a x : H) : Prop :=
  a = x ∨ A.isDescendentOf a x

instance (A : Ancestry H N) (a x : H) : Decidable (A.AtOrAbove a x) :=
  inferInstanceAs (Decidable (_ ∨ _))

-- The roots that are left when a block is finalized.
def Ancestry.Retains (A : Ancestry H N) (x : H) (root : Node H N V) : Prop :=
  A.isDescendentOf x root.hash ∨ A.AtOrAbove root.hash x

instance (A : Ancestry H N) (x : H) (root : Node H N V) : Decidable (A.Retains x root) :=
  inferInstanceAs (Decidable (_ ∨ _))

omit [DecidableEq H] in
theorem Ancestry.AtOrAbove.trans (h : A.AtOrAbove a b) (h' : A.AtOrAbove b c) :
    A.AtOrAbove a c := by
  rcases h with rfl | h
  · exact h'
  · rcases h' with rfl | h'
    · exact .inr h
    · exact .inr (A.trans h h')

omit [DecidableEq H] in
theorem Ancestry.AtOrAbove.number_le (h : A.AtOrAbove a b) : A.numberOf a ≤ A.numberOf b := by
  rcases h with rfl | h
  · exact le_refl _
  · exact (A.number_lt h).le

omit [DecidableEq H] in
theorem Ancestry.AtOrAbove.chain (ha : A.AtOrAbove a c) (hb : A.AtOrAbove b c) :
    A.AtOrAbove a b ∨ A.isDescendentOf b a := by
  rcases ha with rfl | ha
  · exact hb.elim (fun h => .inl (.inl h.symm)) .inr
  · rcases hb with rfl | hb
    · exact .inl (.inr ha)
    · rcases A.chain ha hb with he | hab | hba
      · exact .inl (.inl he)
      · exact .inl (.inr hab)
      · exact .inr hba

omit [DecidableEq H] in
theorem Ancestry.Mirrored.atOrAbove (h : A.Mirrored node)
    (he : e ∈ entries [node]) : A.AtOrAbove node.hash e.1 := by
  rcases mem_entries_singleton.mp he with rfl | he
  · exact .inl rfl
  · exact .inr (h.descends (fst_mem_of_mem_entries he))

omit [DecidableEq H] in
theorem Ancestry.MirroredForest.mem_entries_of_atOrAbove
    (h : A.MirroredForest nodes) {root : Node H N V} (hr : root ∈ nodes)
    (he : e ∈ entries nodes) (ha : A.AtOrAbove root.hash e.1) : e ∈ entries [root] := by
  obtain ⟨node, hn, he⟩ := mem_entries.mp he
  by_cases hs : root = node
  case pos => exact hs ▸ he
  case neg =>
    have hf := fst_mem_of_mem_entries he
    rw [hashesAll, hashesAll, List.append_nil] at hf
    have hap := h.unrelated.forall hr hn hs root.hash (hash_mem_hashes root) e.1 hf
    exact (ha.elim hap.2.2 fun hd => hap.1 hd).elim

omit [DecidableEq H] in
theorem Ancestry.MirroredForest.root_unique (h : A.MirroredForest nodes)
    {r r' : Node H N V} (hr : r ∈ nodes) (hr' : r' ∈ nodes) (ha : A.AtOrAbove r.hash x)
    (ha' : A.AtOrAbove r'.hash x) : r = r' := by
  by_contra hne
  have hap := h.unrelated.forall hr hr' hne r.hash (hash_mem_hashes r) r'.hash (hash_mem_hashes r')
  rcases ha.chain ha' with (he | hd) | hd
  · exact hap.2.2 he
  · exact hap.1 hd
  · exact hap.2.1 hd

theorem isAtOrBelow_query (node : Node H N V) :
    isAtOrBelow x (A.query E) node = .ok (decide (A.AtOrAbove node.hash x)) := by
  rw [isAtOrBelow]
  by_cases he : node.hash = x
  case pos => simp [he, Ancestry.AtOrAbove]
  case neg => simp [he, Ancestry.AtOrAbove, Ancestry.query]

theorem query_of_not (h : ¬(predicate node.data ∧ A.AtOrAbove node.hash x)) :
    (if predicate node.data then isAtOrBelow x (A.query E) node else .ok false) = .ok false := by
  split_ifs with hp
  · rw [isAtOrBelow_query]
    simpa using fun ha => h ⟨hp, ha⟩
  · rfl

omit [DecidableEq H] in
theorem isFinalizedBranch_query {root : Node H N V} (hm : A.Mirrored root) :
    isFinalizedBranch x (A.numberOf x) (A.query E) root = .ok (A.isDescendentOf x root.hash) := by
  rw [isFinalizedBranch, hm.number_eq]
  split_ifs with hn
  case pos => rfl
  case neg =>
    cases hd : A.isDescendentOf x root.hash
    case false => rfl
    case true => exact absurd (A.number_lt hd) hn

theorem isRetained_query (hm : A.Mirrored root) :
    isRetained x (A.numberOf x) (A.query E) root = .ok (decide (A.Retains x root)) := by
  rw [isRetained, isFinalizedBranch_query hm, hm.number_eq]
  by_cases hd : A.isDescendentOf x root.hash
  case pos => simp [hd, Ancestry.Retains]
  case neg =>
    by_cases he : root.hash = x
    case pos => simp [he, Ancestry.Retains, Ancestry.AtOrAbove]
    case neg => simp [hd, he, Ancestry.Retains, Ancestry.AtOrAbove, Ancestry.query]

omit [DecidableEq H] [LinearOrder N] in
theorem retainRoots_filter {retain : Node H N V → Except E Bool} {p : Node H N V → Bool}
    (h : ∀ node ∈ nodes, retain node = .ok (p node)) (kept : List (Node H N V)) (changed : Bool) :
    ∃ changed', retainRoots retain nodes kept changed = (.ok changed', kept ++ nodes.filter p) := by
  induction nodes generalizing kept changed
  case nil => exact ⟨changed, by simp [retainRoots]⟩
  case cons node nodes hi =>
    obtain ⟨hn, hns⟩ := List.forall_mem_cons.mp h
    rw [retainRoots, hn]
    cases hp : p node
    case true =>
      obtain ⟨c, hc⟩ := hi hns (kept ++ [node]) changed
      exact ⟨c, by simp [hp, hc]⟩
    case false =>
      obtain ⟨c, hc⟩ := hi hns kept true
      exact ⟨c, by simp [hp, hc]⟩

theorem retainRoots_query (hm : ∀ node ∈ nodes, A.Mirrored node) (kept : List (Node H N V))
    (changed : Bool) :
    ∃ changed', retainRoots (isRetained x (A.numberOf x) (A.query E)) nodes kept changed =
      (.ok changed', kept ++ nodes.filter fun node => A.Retains x node) :=
  retainRoots_filter (fun node hn => isRetained_query (hm node hn)) kept changed

-- Nothing below a node that the block finalizes is finalized with it.
def ClearBelow (A : Ancestry H N) (x : H) (predicate : V → Bool) (nodes : List (Node H N V)) :
    Prop :=
  ∀ node ∈ nodes, predicate node.data → A.AtOrAbove node.hash x →
    ∀ child ∈ node.children, A.numberOf x < child.number

omit [DecidableEq H] [LinearOrder N] in
theorem anyM_of_false {p : Node H N V → Except E Bool}
    (h : ∀ node ∈ nodes, p node = .ok false) : nodes.anyM p = .ok false := by
  induction nodes
  case nil => rfl
  case cons node nodes hi =>
    obtain ⟨hn, hns⟩ := List.forall_mem_cons.mp h
    rw [List.anyM, hn]
    exact hi hns

theorem anyM_isPastChild (h : ∀ child ∈ nodes, A.numberOf x < child.number) :
    nodes.anyM (isPastChild x (A.numberOf x) (A.query E)) = .ok false :=
  anyM_of_false fun child hc => by rw [isPastChild, if_neg (not_le.mpr (h child hc))]

theorem findFinalizedRoot_spec (hc : ClearBelow A x predicate nodes) :
    (∃ root ∈ nodes, predicate root.data ∧ A.AtOrAbove root.hash x ∧
      findFinalizedRoot x (A.numberOf x) (A.query E) predicate nodes = .ok (some root)) ∨
    ((∀ root ∈ nodes, predicate root.data → ¬A.AtOrAbove root.hash x) ∧
      findFinalizedRoot x (A.numberOf x) (A.query E) predicate nodes = .ok none) := by
  induction nodes
  case nil => exact .inr ⟨by simp, rfl⟩
  case cons root nodes hi =>
    rw [findFinalizedRoot]
    by_cases hr : predicate root.data ∧ A.AtOrAbove root.hash x
    case pos =>
      obtain ⟨hp, ha⟩ := hr
      simp [hp, ha, isAtOrBelow_query, anyM_isPastChild (E := E) (hc root List.mem_cons_self hp ha)]
    case neg =>
      rw [query_of_not hr]
      cases hi fun node hn => hc node (List.mem_cons_of_mem _ hn)
      case inl h =>
        obtain ⟨r, hm, hp, ha, he⟩ := h
        exact .inl ⟨r, List.mem_cons_of_mem _ hm, hp, ha, he⟩
      case inr h =>
        refine .inr ⟨List.forall_mem_cons.mpr ⟨fun hp ha => hr ⟨hp, ha⟩, h.1⟩, h.2⟩

theorem finalizeWithDescendentIf_spec (hm : A.MirroredForest t.roots)
    (hrev : t.reverts (A.numberOf x) = false) (hc : ClearBelow A x predicate t.roots) :
    (∃ root ∈ t.roots, predicate root.data ∧ A.AtOrAbove root.hash x ∧
      t.finalizeWithDescendentIf x (A.numberOf x)
        (A.query E) predicate = (.ok (.changed (some root.data)),
          { roots := root.children.filter fun node => A.Retains x node
            bestFinalizedNumber := some (A.numberOf x) })) ∨
    ((∀ root ∈ t.roots, predicate root.data → ¬A.AtOrAbove root.hash x) ∧
      ∃ changed, t.finalizeWithDescendentIf x (A.numberOf x) (A.query E) predicate =
        (.ok (finalizationResult none changed),
          { roots := t.roots.filter fun node => A.Retains x node
            bestFinalizedNumber := some (A.numberOf x) })) := by
  rw [finalizeWithDescendentIf, if_neg (by simp [hrev])]
  cases findFinalizedRoot_spec (E := E) hc
  case inl h =>
    obtain ⟨root, hr, hp, ha, hf⟩ := h
    obtain ⟨changed, he⟩ := retainRoots_query (E := E) (x := x)
      (hm.trees root hr).children.trees [] false
    refine .inl ⟨root, hr, hp, ha, ?_⟩
    simp [hf, he, finishRetaining, finalizationResult]
  case inr h =>
    obtain ⟨changed, he⟩ := retainRoots_query (E := E) (x := x) hm.trees [] false
    exact .inr ⟨h.1, changed, by simp [h.2, he, finishRetaining]⟩

theorem findFinalized_spec (hc : ClearBelow A x predicate nodes)
    (hr : ∀ node ∈ nodes, predicate node.data → A.AtOrAbove node.hash x → node ∈ roots) :
    findFinalized x (A.numberOf x) (A.query E) predicate roots nodes =
      .ok (if ∃ node ∈ nodes, predicate node.data ∧ A.AtOrAbove node.hash x then some true
        else none) := by
  induction nodes
  case nil => simp [findFinalized]
  case cons node nodes hi =>
    have hc' : ClearBelow A x predicate nodes := fun n hn => hc n (List.mem_cons_of_mem _ hn)
    have hi := hi hc' fun n hn => hr n (List.mem_cons_of_mem _ hn)
    rw [findFinalized]
    by_cases hp : predicate node.data ∧ A.AtOrAbove node.hash x
    case pos =>
      have hm := hr node List.mem_cons_self hp.1 hp.2
      have ha := anyM_isPastChild (E := E) (hc node List.mem_cons_self hp.1 hp.2)
      have hany : roots.any (·.hash = node.hash) := List.any_eq_true.mpr ⟨node, hm, by simp⟩
      simp [hp.1, hp.2, isAtOrBelow_query, ha, hany]
    case neg =>
      rw [query_of_not hp]
      simp only [hi, List.mem_cons, exists_eq_or_imp, hp, false_or]

end Mirrored
end ForkTree
