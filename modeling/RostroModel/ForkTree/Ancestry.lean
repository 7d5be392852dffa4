import RostroModel.ForkTree.Search

namespace ForkTree

variable {H N V : Type}

namespace Node

mutual

def hashes : Node H N V → List H
  | .mk hash _ _ children => hash :: hashesAll children

def hashesAll : List (Node H N V) → List H
  | [] => []
  | node :: nodes => node.hashes ++ hashesAll nodes

end

theorem mem_hashesAll {nodes : List (Node H N V)} :
    a ∈ hashesAll nodes ↔ ∃ node ∈ nodes, a ∈ node.hashes := by
  induction nodes <;> simp_all [hashesAll]

theorem hashesAll_append (nodes nodes' : List (Node H N V)) :
    hashesAll (nodes ++ nodes') = hashesAll nodes ++ hashesAll nodes' := by
  induction nodes <;> simp_all [hashesAll]

theorem hashesAll_subset {nodes nodes' : List (Node H N V)} (h : nodes' ⊆ nodes) :
    hashesAll nodes' ⊆ hashesAll nodes := by
  intro a ha
  obtain ⟨t, ht, ha⟩ := mem_hashesAll.mp ha
  exact mem_hashesAll.mpr ⟨t, h ht, ha⟩

theorem hash_mem_hashes (node : Node H N V) : node.hash ∈ node.hashes := by
  cases node
  simp [hashes]

theorem mem_hashes {node : Node H N V} :
    a ∈ node.hashes ↔ a = node.hash ∨ a ∈ hashesAll node.children := by
  cases node
  simp [hashes]

theorem mem_hashes_of_child {node child : Node H N V} (hc : child ∈ node.children)
    (ha : a ∈ child.hashes) : a ∈ node.hashes := by
  cases node
  exact List.mem_cons_of_mem _ (mem_hashesAll.mpr ⟨child, hc, ha⟩)

end Node

open Node

variable [LinearOrder N]

-- The relation between blocks that a tree mirrors. `isDescendentOf a b` says that `b` is a
-- descendant of `a`. The ancestors of a block form a chain, along which the numbers grow.
structure Ancestry (H N : Type) [LinearOrder N] where
  isDescendentOf : H → H → Bool
  numberOf : H → N
  trans : ∀ {a b c}, isDescendentOf a b → isDescendentOf b c → isDescendentOf a c
  chain : ∀ {a b c}, isDescendentOf a c → isDescendentOf b c →
    a = b ∨ isDescendentOf a b ∨ isDescendentOf b a
  number_lt : ∀ {a b}, isDescendentOf a b → numberOf a < numberOf b

namespace Ancestry

variable (A : Ancestry H N)

theorem irrefl (a : H) : ¬A.isDescendentOf a a :=
  fun h => lt_irrefl _ (A.number_lt h)

theorem asymm (h : A.isDescendentOf a b) : ¬A.isDescendentOf b a :=
  fun h' => A.irrefl a (A.trans h h')

-- Neither of two blocks is at or below the other one.
def Apart (a b : H) : Prop :=
  ¬A.isDescendentOf a b ∧ ¬A.isDescendentOf b a ∧ a ≠ b

def Unrelated (s t : Node H N V) : Prop :=
  ∀ a ∈ s.hashes, ∀ b ∈ t.hashes, A.Apart a b

-- A tree that mirrors the ancestry: below a node are descendants of it, and the branches below a
-- node have nothing to do with each other.
inductive Mirrored : Node H N V → Prop
  | mk {hash data children} : (∀ b ∈ hashesAll children, A.isDescendentOf hash b) →
    children.Pairwise A.Unrelated → (∀ c ∈ children, Mirrored c) →
    Mirrored (.mk hash (A.numberOf hash) data children)

structure MirroredForest (nodes : List (Node H N V)) : Prop where
  unrelated : nodes.Pairwise A.Unrelated
  trees : ∀ t ∈ nodes, A.Mirrored t

variable {A}

theorem Apart.symm (h : A.Apart a b) : A.Apart b a :=
  ⟨h.2.1, h.1, h.2.2.symm⟩

theorem Apart.not_below (h : A.Apart a b) (hb : A.isDescendentOf b x) : ¬A.isDescendentOf a x :=
  fun ha => by
    rcases A.chain ha hb with he | hab | hba
    · exact h.2.2 he
    · exact h.1 hab
    · exact h.2.1 hba

theorem Unrelated.symm (h : A.Unrelated s t) : A.Unrelated t s :=
  fun a ha b hb => (h b hb a ha).symm

instance : Std.Symm (A.Unrelated (V := V)) where
  symm _ _ := Unrelated.symm

theorem Unrelated.mono {s t s' t' : Node H N V} (h : A.Unrelated s t) (hs : s'.hashes ⊆ s.hashes)
    (ht : t'.hashes ⊆ t.hashes) : A.Unrelated s' t' :=
  fun a ha b hb => h a (hs ha) b (ht hb)

namespace Mirrored

variable {node : Node H N V}

theorem number_eq (h : A.Mirrored node) : node.number = A.numberOf node.hash := by
  cases h
  rfl

theorem children (h : A.Mirrored node) : A.MirroredForest node.children := by
  cases h
  exact ⟨‹_›, ‹_›⟩

theorem descends (h : A.Mirrored node) (hb : b ∈ hashesAll node.children) :
    A.isDescendentOf node.hash b := by
  cases h
  case mk hd _ _ => exact hd b hb

theorem mk' {hash data children} (hb : ∀ b ∈ hashesAll children, A.isDescendentOf hash b)
    (hf : A.MirroredForest children) :
    A.Mirrored (.mk hash (A.numberOf hash) data children : Node H N V) :=
  .mk hb hf.unrelated hf.trees

theorem no_ancestor (h : A.Mirrored node) (hn : ¬node.number < A.numberOf x) :
    ∀ a ∈ node.hashes, ¬A.isDescendentOf a x := by
  intro a ha hax
  rw [h.number_eq] at hn
  rcases mem_hashes.mp ha with rfl | hb
  · exact hn (A.number_lt hax)
  · exact hn (lt_trans (A.number_lt (h.descends hb)) (A.number_lt hax))

end Mirrored

namespace MirroredForest

variable {nodes nodes' : List (Node H N V)}

theorem nil : A.MirroredForest ([] : List (Node H N V)) :=
  ⟨.nil, by simp⟩

theorem singleton {node : Node H N V} (h : A.Mirrored node) : A.MirroredForest [node] :=
  ⟨List.pairwise_singleton _ _, by simpa using h⟩

section

variable (h : A.MirroredForest nodes)
include h

theorem sublist (hs : nodes'.Sublist nodes) : A.MirroredForest nodes' :=
  ⟨h.unrelated.sublist hs, fun t ht => h.trees t (hs.subset ht)⟩

theorem perm (hp : nodes.Perm nodes') : A.MirroredForest nodes' :=
  ⟨h.unrelated.perm hp Unrelated.symm, fun t ht => h.trees t (hp.mem_iff.mpr ht)⟩

theorem append (h' : A.MirroredForest nodes')
    (hu : ∀ s ∈ nodes, ∀ t ∈ nodes', A.Unrelated s t) : A.MirroredForest (nodes ++ nodes') :=
  ⟨List.pairwise_append.mpr ⟨h.unrelated, h'.unrelated, hu⟩,
    fun t ht => (List.mem_append.mp ht).elim (h.trees t) (h'.trees t)⟩

theorem unrelated_of_ne {i j : Nat} {s t : Node H N V} (hij : i ≠ j)
    (hs : nodes[i]? = some s) (ht : nodes[j]? = some t) : A.Unrelated s t := by
  obtain ⟨hi, rfl⟩ := List.getElem?_eq_some_iff.mp hs
  obtain ⟨hj, rfl⟩ := List.getElem?_eq_some_iff.mp ht
  rcases Nat.lt_or_gt_of_ne hij with hlt | hgt
  · exact List.pairwise_iff_getElem.mp h.unrelated i j hi hj hlt
  · exact (List.pairwise_iff_getElem.mp h.unrelated j i hj hi hgt).symm

end

theorem cons_children {node : Node H N V} (h : A.MirroredForest (node :: nodes)) :
    A.MirroredForest (nodes ++ node.children) := by
  have hu := List.pairwise_cons.mp h.unrelated
  refine append ⟨hu.2, fun t ht => h.trees t (by simp [ht])⟩ (h.trees node (by simp)).children ?_
  intro s hs t ht
  exact (hu.1 s hs).symm.mono (List.Subset.refl _) fun a ha => mem_hashes_of_child ht ha

-- Changing one tree of a forest so that nothing in it touches the others.
theorem set (h : A.MirroredForest nodes) {i : Nat} {t t' : Node H N V} (hi : nodes[i]? = some t)
    (ht : A.Mirrored t')
    (hu : ∀ a ∈ t'.hashes, a ∈ t.hashes ∨ ∀ s ∈ nodes, A.Unrelated t s →
      ∀ b ∈ s.hashes, A.Apart a b) :
    A.MirroredForest (nodes.set i t') := by
  refine ⟨List.pairwise_iff_getElem.mpr fun j k hj hk hjk => ?_, fun s hs => ?_⟩
  · have hone {s} (hm : s ∈ nodes) (hs : A.Unrelated t s) : A.Unrelated t' s := fun a ha b hb =>
      (hu a ha).elim (fun ha => hs a ha b hb) fun hap => hap s hm hs b hb
    rw [List.length_set] at hj hk
    rw [List.getElem_set, List.getElem_set]
    split_ifs with hij hik hik
    · omega
    · exact hone (List.getElem_mem hk)
        (h.unrelated_of_ne (by omega) hi (List.getElem?_eq_getElem hk))
    · exact (hone (List.getElem_mem hj)
        (h.unrelated_of_ne (by omega) hi (List.getElem?_eq_getElem hj))).symm
    · exact List.pairwise_iff_getElem.mp h.unrelated j k hj hk hjk
  · rcases List.mem_or_eq_of_mem_set hs with hs | rfl
    · exact h.trees s hs
    · exact ht

end MirroredForest
end Ancestry
end ForkTree
