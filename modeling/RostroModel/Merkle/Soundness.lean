import RostroModel.Merkle.Completeness

namespace Merkle

open Pairing
open PairTree (content? follow follow_append)

variable {H : Hasher}

def digest (H : Hasher) : PairTree (List UInt8) → H.Out
  | .leaf content => H.hash content
  | .node l r => H.node (digest H l) (digest H r)

def hashed (H : Hasher) : PairTree (List UInt8) → List (List UInt8)
  | .leaf content => [content]
  | .node l r => Hasher.combined (digest H l) (digest H r) :: (hashed H l ++ hashed H r)

def hashedByRoot (H : Hasher) (leaves : List (List UInt8)) : List (List UInt8) :=
  (treeOf leaves).elim [] (hashed H)

def hashedOnTheWay : Cursor H → List H.Out → List (List UInt8)
  | _, [] => []
  | c, b :: proof => c.combined b :: hashedOnTheWay (c.up b) proof

def hashedByVerify (proof : List H.Out) (numberOfLeaves leafIndex : Nat) (content : List UInt8) :
    List (List UInt8) :=
  content :: hashedOnTheWay ⟨H.hash content, leafIndex, numberOfLeaves⟩ proof

-- The hasher is injective on the strings it is given.
def CollisionFree (H : Hasher) (strings : List (List UInt8)) : Prop :=
  ∀ x ∈ strings, ∀ y ∈ strings, H.hash x = H.hash y → x = y

instance {strings : List (List UInt8)} : Decidable (CollisionFree H strings) :=
  inferInstanceAs (Decidable (∀ x ∈ strings, ∀ y ∈ strings, H.hash x = H.hash y → x = y))

-- The branches the verifier takes its nodes for, from the leaf upwards.
def sides : Nat → Nat → Nat → List Bool
  | _, _, 0 => []
  | position, width, k + 1 => onRight position width :: sides (position / 2) ((width - 1) / 2 + 1) k

-- The leaf to which a proof of some length really leads, if the verifier is
-- asked about some other leaf.
def landing (numberOfLeaves leafIndex proofLength : Nat) : Option Nat :=
  if leafIndex < numberOfLeaves then
    (treeOf (List.range numberOfLeaves)).bind fun t =>
      (t.follow (sides leafIndex numberOfLeaves proofLength).reverse).bind content?
  else
    none

theorem length_combined (a b : H.Out) : (Hasher.combined a b).length = 2 * H.length := by
  rw [Hasher.combined, List.length_append, a.toList_length, b.toList_length]
  omega

theorem combined_inj {a b a' b' : H.Out} (h : Hasher.combined a b = Hasher.combined a' b') :
    a = a' ∧ b = b' := by
  have ⟨h1, h2⟩ := List.append_inj h (by rw [a.toList_length, a'.toList_length])
  exact ⟨List.Vector.toList_injective h1, List.Vector.toList_injective h2⟩

theorem length_cursor_combined (c : Cursor H) (b : H.Out) :
    (c.combined b).length = 2 * H.length := by
  rw [Cursor.combined]
  split_ifs <;> exact length_combined _ _

section Descent

variable {t s : PairTree (List UInt8)} {path : List Bool}

theorem hashed_follow (h : t.follow path = some s) : ∀ x ∈ hashed H s, x ∈ hashed H t := by
  induction path generalizing t
  case nil =>
    cases h
    exact fun _ => id
  case cons b path hi =>
    cases t
    case leaf => cases h
    case node l r =>
      intro x hx
      have hx := hi h x hx
      rw [hashed]
      cases b <;> simp_all

-- No leaf of the tree is as long as what is hashed for a node.
def Separated (H : Hasher) (t : PairTree (List UInt8)) : Prop :=
  ∀ path content, t.follow path = some (.leaf content) → content.length ≠ 2 * H.length

variable {strings : List (List UInt8)} {c : Cursor H} {proof : List H.Out}

-- By induction on the proof: what the verifier is given must be the digest of the subtree
-- to which its branches lead.
theorem follow_sides (ht : Separated H t) (hs : CollisionFree H strings)
    (h1 : ∀ x ∈ hashed H t, x ∈ strings) (h2 : ∀ x ∈ hashedOnTheWay c proof, x ∈ strings)
    (h : (proof.foldl Cursor.up c).computed = digest H t) :
    ∃ s, t.follow (sides c.position c.width proof.length).reverse = some s ∧
      digest H s = c.computed := by
  induction proof generalizing c
  case nil => exact ⟨t, by rw [List.length_nil, sides, List.reverse_nil, follow], h.symm⟩
  case cons b proof hi =>
    obtain ⟨s, hf, hd⟩ := hi (fun x hx => h2 x (by simp [hashedOnTheWay, hx])) h
    have hc : c.combined b ∈ strings := h2 _ (by simp [hashedOnTheWay])
    have hm := hashed_follow (H := H) hf
    cases s
    case leaf content =>
      have he := hs content (h1 _ (hm _ (by simp [hashed]))) _ hc hd
      exact absurd (he ▸ length_cursor_combined c b) (ht _ _ hf)
    case node l r =>
      have he := hs _ (h1 _ (hm _ (by simp [hashed]))) _ hc hd
      refine ⟨if onRight c.position c.width then r else l, ?_, ?_⟩
      · rw [List.length_cons, sides, List.reverse_cons, follow_append]
        rw [Cursor.up] at hf
        rw [hf]
        rfl
      · rw [Cursor.combined] at he
        split_ifs at he ⊢ with hr
        · exact (combined_inj he).2
        · exact (combined_inj he).1

theorem exists_proof {k : Nat} (hf : t.follow (sides c.position c.width k).reverse = some s)
    (hd : digest H s = c.computed) :
    ∃ proof : List H.Out, proof.length = k ∧ (proof.foldl Cursor.up c).computed = digest H t ∧
      ∀ x ∈ hashedOnTheWay c proof, x ∈ hashed H t := by
  induction k generalizing c s
  case zero =>
    cases hf
    exact ⟨[], rfl, hd.symm, by simp [hashedOnTheWay]⟩
  case succ k hi =>
    rw [sides, List.reverse_cons, follow_append, Option.bind_eq_some_iff] at hf
    obtain ⟨s', hf', hs⟩ := hf
    cases s'
    case leaf => cases hs
    case node l r =>
      cases hs
      let b := if onRight c.position c.width then digest H l else digest H r
      have hc : c.combined b = Hasher.combined (digest H l) (digest H r) := by
        rw [Cursor.combined, ← hd]
        simp only [b]
        split_ifs <;> rfl
      have hu : digest H (.node l r) = (c.up b).computed := by
        rw [Cursor.up, hc]
        rfl
      obtain ⟨proof, hl, hp, hx⟩ := hi (c := c.up b) hf' hu
      refine ⟨b :: proof, by rw [List.length_cons, hl], hp, ?_⟩
      intro x hx'
      rw [hashedOnTheWay, List.mem_cons] at hx'
      rcases hx' with rfl | hx'
      · exact hashed_follow hf' _ (by simp [hashed, hc])
      · exact hx x hx'

end Descent

section Leaves

variable {leaves : List (List UInt8)}

-- The shape of the tree does not depend on what the leaves are.
theorem treeOf_range (h : leaves ≠ []) :
    (treeOf (List.range leaves.length)).map (·.map (leaves[·]?)) =
      (treeOf leaves).map (·.map some) := by
  have hr : List.range leaves.length ≠ [] := by
    simpa using h
  have hm : (List.range leaves.length).map (leaves[·]?) = leaves.map some := by
    apply List.ext_getElem (by simp)
    intro j h1 h2
    simp at h2 ⊢
  rw [← treeOf_map hr, hm, treeOf_map h]

theorem merkleRoot_eq (h : leaves ≠ []) :
    some (merkleRoot H leaves) = (treeOf leaves).map (digest H) := by
  have hm : leaves.map H.hash = (leaves.map PairTree.leaf).map (digest H) := by
    rw [List.map_map]
    rfl
  rw [merkleRoot, merkleRootRaw, merkelize_fst _ _ (by simpa using h), hm]
  exact top_map (fun _ _ => rfl) (by simpa using h)

variable {t : PairTree (List UInt8)} {i k : Nat}

theorem content?_follow {s : PairTree Nat} (path : List Bool) (ht : treeOf leaves = some t)
    (hs : treeOf (List.range leaves.length) = some s) (h : leaves ≠ []) :
    ((t.follow path).bind content?).map some =
      ((s.follow path).bind content?).map (leaves[·]?) := by
  have hr := treeOf_range h
  rw [ht, hs] at hr
  have hm : s.map (leaves[·]?) = t.map some := Option.some.inj hr
  rw [← PairTree.content?_follow_map, ← PairTree.content?_follow_map, hm]

theorem exists_treeOf {α : Type} {l : List α} (h : l ≠ []) : ∃ t, treeOf l = some t :=
  Option.isSome_iff_exists.mp (isSome_top (by simpa using h))

theorem content?_landing (ht : treeOf leaves = some t) (hi : i < leaves.length) :
    ((t.follow (sides i leaves.length k).reverse).bind content?).map some =
      (landing leaves.length i k).map (leaves[·]?) := by
  have hn : leaves ≠ [] := List.ne_nil_of_length_pos (by omega)
  obtain ⟨s, hs⟩ := exists_treeOf (l := List.range leaves.length) (by simpa using hn)
  rw [content?_follow _ ht hs hn, landing, if_pos hi, hs]
  rfl

theorem separated_of_leaves (ht : treeOf leaves = some t) (hn : leaves ≠ [])
    (h : ∀ l ∈ leaves, l.length ≠ 2 * H.length) : Separated H t := by
  intro path content hf
  obtain ⟨s, hs⟩ := exists_treeOf (l := List.range leaves.length) (by simpa using hn)
  have hc := content?_follow path ht hs hn
  rw [hf, Option.bind_some, content?, Option.map_some, eq_comm, Option.map_eq_some_iff] at hc
  obtain ⟨j, _, hj⟩ := hc
  exact h content (List.mem_of_getElem? hj)

theorem verifyProof_eq_true {proof : List H.Out} {content : List UInt8}
    (ht : treeOf leaves = some t) (hi : i < leaves.length) :
    verifyProof (merkleRoot H leaves) proof leaves.length i (.value content) = true ↔
      (proof.foldl Cursor.up ⟨H.hash content, i, leaves.length⟩).computed = digest H t := by
  have hr := merkleRoot_eq (H := H) (List.ne_nil_of_length_pos (by omega : 0 < leaves.length))
  rw [ht] at hr
  rw [verifyProof, if_neg (by omega), decide_eq_true_iff, Option.some.inj hr]
  exact eq_comm

-- A proof of some length shows the leaf it is said to be for, whatever its items and the content of
-- the leaf, exactly if it leads to that leaf or to one with the same content.
theorem verifyProof_sound_iff (leaves : List (List UInt8)) (i k : Nat)
    (hl : ∀ l ∈ leaves, l.length ≠ 2 * H.length) (hc : CollisionFree H (hashedByRoot H leaves)) :
    (∀ (proof : List H.Out) (content : List UInt8), proof.length = k →
      content.length ≠ 2 * H.length →
      CollisionFree H (hashedByRoot H leaves ++ hashedByVerify proof leaves.length i content) →
      verifyProof (merkleRoot H leaves) proof leaves.length i (.value content) = true →
        leaves[i]? = some content) ↔
    ∀ j, landing leaves.length i k = some j → leaves[j]? = leaves[i]? := by
  rcases Nat.lt_or_ge i leaves.length with hi | hi
  case inr =>
    have hf {root : H.Out} {proof : List H.Out} {leaf : Leaf H} :
        verifyProof root proof leaves.length i leaf = false := if_pos hi
    simp [hf, landing, Nat.not_lt.mpr hi]
  have hn : leaves ≠ [] := List.ne_nil_of_length_pos (by omega)
  obtain ⟨t, ht⟩ := exists_treeOf hn
  have hs : Separated H t := separated_of_leaves ht hn hl
  have hr : hashedByRoot H leaves = hashed H t := by rw [hashedByRoot, ht]; rfl
  rw [hr] at hc ⊢
  constructor
  case mp =>
    intro h j hj
    have hf := content?_landing ht hi (k := k)
    rw [hj, Option.map_some, Option.map_eq_some_iff] at hf
    obtain ⟨content, hf, hcj⟩ := hf
    obtain ⟨s, hf, hcs⟩ := Option.bind_eq_some_iff.mp hf
    cases s
    case node => cases hcs
    case leaf =>
      cases hcs
      obtain ⟨proof, hk, hv, hm⟩ :=
        exists_proof (H := H) (c := ⟨H.hash content, i, leaves.length⟩) hf rfl
      -- the verifier hashes nothing that has not been hashed for the root
      have hsub : ∀ x ∈ hashed H t ++ hashedByVerify proof leaves.length i content,
          x ∈ hashed H t := by
        intro x hx
        rw [List.mem_append, hashedByVerify, List.mem_cons] at hx
        rcases hx with hx | rfl | hx
        · exact hx
        · exact hashed_follow hf _ (by simp [hashed])
        · exact hm x hx
      rw [← hcj]
      apply Eq.symm
      apply h proof content hk (hs _ _ hf)
      · exact fun x hx y hy => hc x (hsub x hx) y (hsub y hy)
      · exact (verifyProof_eq_true ht hi).mpr hv
  case mpr =>
    intro h proof content hk hlen hc hv
    rw [verifyProof_eq_true ht hi] at hv
    have hm : content ∈ hashed H t ++ hashedByVerify proof leaves.length i content := by
      simp [hashedByVerify]
    obtain ⟨s, hf, hd⟩ := follow_sides hs hc (fun x hx => List.mem_append_left _ hx)
      (fun x hx => List.mem_append_right _ (List.mem_cons_of_mem _ hx)) hv
    have hsub := hashed_follow (H := H) hf
    cases s
    case node l r =>
      have he := hc _ (List.mem_append_left _ (hsub _ (by simp [hashed]))) _ hm hd
      exact absurd (he ▸ length_combined _ _) hlen
    case leaf content' =>
      have he := hc content' (List.mem_append_left _ (hsub _ (by simp [hashed]))) _ hm hd
      have hl := content?_landing ht hi (k := k)
      rw [← hk, hf, he, Option.bind_some, content?, Option.map_some, eq_comm,
        Option.map_eq_some_iff] at hl
      obtain ⟨j, hj, hcj⟩ := hl
      rw [← h j (hk ▸ hj), hcj]

theorem treeOf_sample {α : Type} (a b c : α) :
    treeOf [a, b, c] = some (.node (.node (.leaf a) (.leaf b)) (.leaf c)) := by
  simp [treeOf, top, row]

theorem hashedByRoot_sample :
    hashedByRoot sampleHasher sampleLeaves = [[13, 4], [2, 3], [1], [2], [3]] := by
  rw [hashedByRoot, sampleLeaves, treeOf_sample]
  decide

theorem landing_sample : landing 3 1 2 = some 1 := by
  have hr : List.range 3 = [0, 1, 2] := by decide
  rw [landing, hr, treeOf_sample]
  decide

-- A proof of two items can only show the leaf it is for.
theorem sampleLeaves_sound : landing 3 1 2 = some 1 ∧
    ∀ (proof : List sampleHasher.Out) (content : List UInt8), proof.length = 2 →
      content.length ≠ 2 → CollisionFree sampleHasher (hashedByRoot sampleHasher sampleLeaves ++
        hashedByVerify proof sampleLeaves.length 1 content) →
      verifyProof (merkleRoot sampleHasher sampleLeaves) proof sampleLeaves.length 1
        (.value content) = true →
        sampleLeaves[1]? = some content := by
  refine ⟨landing_sample, ?_⟩
  refine (verifyProof_sound_iff sampleLeaves 1 2 (by decide) ?_).mpr ?_
  · rw [hashedByRoot_sample]
    decide
  · intro j hj
    cases landing_sample.symm.trans hj
    rfl

-- With the digest of the first two leaves as its only item, a proof of the third leaf is
-- accepted for the second one.
theorem sampleThird_accepted_as_second :
    CollisionFree sampleHasher (hashedByRoot sampleHasher sampleLeaves ++
      hashedByVerify [sampleHasher.node (sampleHasher.hash [1]) (sampleHasher.hash [2])]
        sampleLeaves.length 1 [3]) ∧
    verifyProof (merkleRoot sampleHasher sampleLeaves)
      [sampleHasher.node (sampleHasher.hash [1]) (sampleHasher.hash [2])] sampleLeaves.length 1
        (.value [3]) = true ∧
    sampleLeaves[1]? ≠ some [3] := by
  rw [hashedByRoot_sample]
  decide

end Leaves

end Merkle
