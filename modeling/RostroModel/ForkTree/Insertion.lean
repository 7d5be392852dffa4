import RostroModel.ForkTree.Ancestry

namespace ForkTree

open Node

variable {H N V : Type} {x : H}

theorem hash_mem_of_descend {node target : Node H N V}
    (h : node.descend path = some target) : target.hash ∈ node.hashes := by
  induction path generalizing node
  case nil => cases h; exact hash_mem_hashes target
  case cons i path hi =>
    obtain ⟨child, hc, hd⟩ := Option.bind_eq_some_iff.mp h
    exact mem_hashes_of_child (List.mem_of_getElem? hc) (hi hd)

theorem modify_eq_set {α : Type} {l : List α} {i : Nat} {a : α} {f : α → α} (h : l[i]? = some a) :
    l.modify i f = l.set i (f a) := by
  rw [List.modify_eq_set_getElem?, h]
  rfl

theorem mem_hashesAll_modify {nodes : List (Node H N V)} {i : Nat} {t : Node H N V} {f}
    (hi : nodes[i]? = some t) (hf : ∀ a ∈ (f t).hashes, a ∈ t.hashes ∨ a = x) :
    ∀ a ∈ hashesAll (nodes.modify i f), a ∈ hashesAll nodes ∨ a = x := by
  intro a ha
  rw [modify_eq_set hi] at ha
  obtain ⟨node, hn, ha⟩ := mem_hashesAll.mp ha
  rcases List.mem_or_eq_of_mem_set hn with hn | rfl
  · exact .inl (mem_hashesAll.mpr ⟨node, hn, ha⟩)
  · exact (hf a ha).imp_left fun ha => mem_hashesAll.mpr ⟨t, List.mem_of_getElem? hi, ha⟩

variable [LinearOrder N] {A : Ancestry H N}

-- The query that never fails.
def Ancestry.query (A : Ancestry H N) (E : Type) (a b : H) : Except E Bool :=
  .ok (A.isDescendentOf a b)

-- A node is an ancestor of the block, and no node below it is.
def DeepestAncestor (A : Ancestry H N) (x : H) (target : Node H N V) : Prop :=
  A.isDescendentOf target.hash x ∧ ∀ a ∈ hashesAll target.children, ¬A.isDescendentOf a x

section Search

variable {E : Type}

-- What a search for a block finds if all ancestors are accepted.
inductive SearchSpec (A : Ancestry H N) (x : H) (hs : List H)
    (lookup : List Nat → Option (Node H N V)) : Except E Found → Prop
  | miss : (∀ a ∈ hs, ¬A.isDescendentOf a x) → SearchSpec A x hs lookup (.ok .miss)
  | found {path target} : lookup path = some target → DeepestAncestor A x target →
    SearchSpec A x hs lookup (.ok (.found path))

theorem searchChildren_spec (pre : List (Node H N V)) (hm : ∀ t ∈ rest, A.Mirrored t)
    (ht : ∀ child ∈ rest, SearchSpec A x child.hashes child.descend
      (search x (A.numberOf x) (A.query E) (fun _ => true) child)) :
    SearchSpec A x (hashesAll rest) (nodeAt (pre ++ rest))
      (searchChildren x (A.numberOf x) (A.query E) (fun _ => true) pre.length rest) := by
  induction rest generalizing pre
  case nil => exact .miss (by simp [hashesAll])
  case cons child rest hi =>
    have hm' := List.forall_mem_cons.mp hm
    have ht' := List.forall_mem_cons.mp ht
    -- The children that follow, if there is no ancestor of the block below this one.
    have hrest (hc : ∀ a ∈ child.hashes, ¬A.isDescendentOf a x) :
        SearchSpec A x (hashesAll (child :: rest)) (nodeAt (pre ++ child :: rest))
          (searchChildren x (A.numberOf x) (A.query E) (fun _ => true) (pre.length + 1) rest) := by
      have hi' := hi (pre ++ [child]) hm'.2 ht'.2
      rw [List.length_append, List.append_assoc] at hi'
      generalize searchChildren x (A.numberOf x) (A.query E) (fun _ => true) _ rest = r at hi' ⊢
      cases hi'
      case miss hr =>
        refine .miss fun a ha => ?_
        exact (List.mem_append.mp ha).elim (hc a) (hr a)
      case found hl hd => exact .found hl hd
    rw [searchChildren]
    split
    case isFalse hn => exact hrest (hm'.1.no_ancestor hn)
    case isTrue =>
      have hs := ht'.1
      generalize search x (A.numberOf x) (A.query E) (fun _ => true) child = r at hs ⊢
      cases hs
      case miss hc => exact hrest hc
      case found hl hd => exact .found (by simpa [nodeAt] using hl) hd

theorem search_spec {node : Node H N V} (hm : A.Mirrored node) :
    SearchSpec A x node.hashes node.descend
      (search x (A.numberOf x) (A.query E) (fun _ => true) node) := by
  induction node using Node.induction
  case h h n data children hi =>
    have hf := hm.children
    have hs : SearchSpec A x (hashesAll children) (nodeAt children)
        (searchChildren x (A.numberOf x) (A.query E) (fun _ => true) 0 children) :=
      searchChildren_spec [] hf.trees fun c hc => hi c hc (hf.trees c hc)
    change SearchSpec A x _ _
      (searchChildren x (A.numberOf x) (A.query E) (fun _ => true) 0 children >>= _)
    generalize searchChildren x (A.numberOf x) (A.query E) (fun _ => true) 0 children = r at hs ⊢
    cases hs
    case found path target hl hd =>
      cases path
      case nil => simp [nodeAt] at hl
      case cons => exact .found hl hd
    case miss hc =>
      rw [Except.ok_bind, finish, Ancestry.query, Except.ok_bind]
      by_cases hx : A.isDescendentOf h x
      case pos =>
        simp only [hx]
        exact .found rfl ⟨hx, hc⟩
      case neg =>
        simp only [hx]
        refine .miss fun a ha => ?_
        rcases mem_hashes.mp ha with rfl | hb
        · exact hx
        · exact hc a hb

end Search

section Insert

variable {nodes : List (Node H N V)} {node target leaf : Node H N V}

theorem mirroredForest_modify (hf : A.MirroredForest nodes) {i : Nat} {f}
    (hi : nodes[i]? = some node) (hm : A.Mirrored (f node))
    (hh : ∀ a ∈ (f node).hashes, a ∈ node.hashes ∨ a = x) (hd : A.isDescendentOf node.hash x)
    (hx : x ∉ hashesAll nodes) (hn : ∀ a ∈ hashesAll nodes, ¬A.isDescendentOf x a) :
    A.MirroredForest (nodes.modify i f) := by
  rw [modify_eq_set hi]
  refine hf.set hi hm fun a ha => (hh a ha).imp_right ?_
  rintro rfl s hs hu b hb
  have hb' := mem_hashesAll.mpr ⟨s, hs, hb⟩
  have hap := (hu node.hash (hash_mem_hashes node) b hb).symm
  exact ⟨hn b hb', hap.not_below hd, fun he => hx (he ▸ hb')⟩

theorem insert_step {f} (hf : A.MirroredForest nodes)
    (hi : nodes[i]? = some node) (hd : node.descend path = some target)
    (ht : DeepestAncestor A x target) (hx : x ∉ hashesAll nodes)
    (hn : ∀ a ∈ hashesAll nodes, ¬A.isDescendentOf x a)
    (h : x ∉ node.hashes → (∀ a ∈ node.hashes, ¬A.isDescendentOf x a) →
      A.Mirrored (f node) ∧ ∀ a ∈ (f node).hashes, a ∈ node.hashes ∨ a = x) :
    A.MirroredForest (nodes.modify i f) ∧ ∀ a ∈ hashesAll (nodes.modify i f),
      a ∈ hashesAll nodes ∨ a = x := by
  have hsub {a} (ha : a ∈ node.hashes) : a ∈ hashesAll nodes :=
    mem_hashesAll.mpr ⟨node, List.mem_of_getElem? hi, ha⟩
  obtain ⟨hm, hh⟩ := h (fun h => hx (hsub h)) fun a ha => hn a (hsub ha)
  refine ⟨mirroredForest_modify hf hi hm hh ?_ hx hn, mem_hashesAll_modify hi hh⟩
  rcases mem_hashes.mp (hash_mem_of_descend hd) with he | hb
  · exact he ▸ ht.1
  · exact A.trans ((hf.trees node (List.mem_of_getElem? hi)).descends hb) ht.1

theorem mirrored_setChildren (hm : A.Mirrored node) (hx : A.isDescendentOf node.hash x)
    (hf : A.MirroredForest nodes)
    (hh : ∀ a ∈ hashesAll nodes, a ∈ hashesAll node.children ∨ a = x) :
    A.Mirrored (node.setChildren nodes) ∧ ∀ a ∈ (node.setChildren nodes).hashes,
      a ∈ node.hashes ∨ a = x := by
  rw [setChildren, hm.number_eq]
  refine ⟨.mk' (fun b hb => ?_) hf, fun a ha => ?_⟩
  · rcases hh b hb with hb | rfl
    · exact hm.descends hb
    · exact hx
  · rcases List.mem_cons.mp ha with rfl | hb
    · exact .inl (hash_mem_hashes node)
    · exact (hh a hb).imp_left fun ha => mem_hashes.mpr (.inr ha)

-- A leaf that is pushed to the deepest ancestor of its block.
theorem mirrored_insert (data : V) (hm : A.Mirrored node)
    (hd : node.descend path = some target) (ht : DeepestAncestor A x target) (hx : x ∉ node.hashes)
    (hn : ∀ a ∈ node.hashes, ¬A.isDescendentOf x a) :
    A.Mirrored (node.modifyAt (·.pushChild (.mk x (A.numberOf x) data [])) path) ∧
      ∀ a ∈ (node.modifyAt (·.pushChild (.mk x (A.numberOf x) data [])) path).hashes,
        a ∈ node.hashes ∨ a = x := by
  induction path generalizing node
  case nil =>
    cases hd
    have hleaf : A.Mirrored (.mk x (A.numberOf x) data [] : Node H N V) :=
      .mk (by simp [hashesAll]) .nil (by simp)
    refine mirrored_setChildren hm ht.1 (hm.children.append (.singleton hleaf) ?_) fun a ha => ?_
    · intro s hs t ht' a ha b hb
      cases List.mem_singleton.mp ht'
      cases List.mem_singleton.mp hb
      have ha' := mem_hashesAll.mpr ⟨s, hs, ha⟩
      have hb' := mem_hashes.mpr (.inr ha')
      exact ⟨ht.2 a ha', hn a hb', fun he => hx (he ▸ hb')⟩
    · obtain ⟨c, hc, ha⟩ := mem_hashesAll.mp ha
      rcases List.mem_append.mp hc with hc | hc
      · exact .inl (mem_hashesAll.mpr ⟨c, hc, ha⟩)
      · cases List.mem_singleton.mp hc
        exact .inr (List.mem_singleton.mp ha)
  case cons i path hi =>
    obtain ⟨child, hc, hd⟩ := Option.bind_eq_some_iff.mp hd
    have hmc := hm.children.trees child (List.mem_of_getElem? hc)
    obtain ⟨hf, hh⟩ := insert_step hm.children hc hd ht (fun h => hx (mem_hashes.mpr (.inr h)))
      (fun a ha => hn a (mem_hashes.mpr (.inr ha))) (hi hmc hd)
    refine mirrored_setChildren hm (A.trans (hm.descends ?_) ht.1) hf hh
    exact mem_hashesAll.mpr ⟨child, List.mem_of_getElem? hc, hash_mem_of_descend hd⟩

theorem mirroredForest_insert (data : V) (hf : A.MirroredForest nodes)
    (hd : nodeAt nodes path = some target) (ht : DeepestAncestor A x target)
    (hx : x ∉ hashesAll nodes) (hn : ∀ a ∈ hashesAll nodes, ¬A.isDescendentOf x a) :
    A.MirroredForest (modifyAt nodes (·.pushChild (.mk x (A.numberOf x) data [])) path) ∧
      ∀ a ∈ hashesAll (modifyAt nodes (·.pushChild (.mk x (A.numberOf x) data [])) path),
        a ∈ hashesAll nodes ∨ a = x := by
  cases path
  case nil => simp [nodeAt] at hd
  case cons i path =>
    obtain ⟨node, hi, hd⟩ := Option.bind_eq_some_iff.mp hd
    exact insert_step hf hi hd ht hx hn
      (mirrored_insert data (hf.trees node (List.mem_of_getElem? hi)) hd ht)

end Insert
end ForkTree
