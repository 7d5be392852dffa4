import RostroModel.Merkle.Tree

namespace Merkle

open Pairing

variable {H : Hasher} {l next : List H.Out} {index fuel : Nat}

section Visitor

variable {σ : Type} {visitor : Visitor H.Out σ} {v : σ}

theorem merkelizeRow_of_ne_nil (h : next ≠ []) :
    (merkelizeRow H visitor l index next v).1 = .error (next ++ row H.node l) := by
  fun_induction merkelizeRow H visitor l index next v
  case case1 a b l index next v hi => simp [hi, row]
  case case2 next _ _ he => exact absurd (List.isEmpty_iff.mp he) h
  case case3 a index next v _ he hi => simp [hi, row]
  case case4 => simp [row]

theorem merkelizeRow_of_two_le (visitor : Visitor H.Out σ) (v : σ) (h : 2 ≤ l.length) :
    merkelizeRow H visitor l 0 [] v =
      (.error (row H.node l), (merkelizeRow H visitor l 0 [] v).2) := by
  rcases l with _ | ⟨a, _ | ⟨b, l⟩⟩
  · simp at h
  · simp at h
  · rw [merkelizeRow]
    exact Prod.ext (merkelizeRow_of_ne_nil (by simp)) rfl

theorem merkelizeLoop_of_two_le (h : 2 ≤ l.length) : merkelizeLoop H visitor (fuel + 1) l v =
      merkelizeLoop H visitor fuel (row H.node l)
        (merkelizeRow H visitor l 0 [] (visitor.moveUp v)).2 := by
  rw [merkelizeLoop, merkelizeRow_of_two_le visitor (visitor.moveUp v) h]

-- The length of the row is enough fuel for all the rows above.
theorem merkelizeLoop_fst (h : l ≠ []) (hf : l.length ≤ fuel) :
    some (merkelizeLoop H visitor fuel l v).1 = top H.node l := by
  induction fuel generalizing l v
  case zero => exact absurd (List.length_eq_zero_iff.mp (Nat.le_zero.mp hf)) h
  case succ fuel hi =>
    rcases l with _ | ⟨a, _ | ⟨b, l⟩⟩
    · contradiction
    · rw [top_singleton]
      rfl
    · have h2 : 2 ≤ (a :: b :: l).length := by simp
      rw [merkelizeLoop_of_two_le h2, hi (row_ne_nil h) (by rw [length_row]; omega), top_row h2]

theorem merkelize_of_two_le (h : 2 ≤ l.length) : merkelize H visitor l v =
      merkelizeLoop H visitor (row H.node l).length (row H.node l)
        (merkelizeRow H visitor l 0 [] v).2 := by
  rw [merkelize, merkelizeRow_of_two_le visitor v h]
  split
  case h_1 he => cases he
  case h_2 he =>
    have hn := Except.error.inj (Prod.mk.inj he).1
    rw [List.eq_nil_iff_length_eq_zero, length_row] at hn
    omega
  case h_3 he => cases he; rfl

theorem merkelize_fst (visitor : Visitor H.Out σ) (v : σ) (h : l ≠ []) :
    some (merkelize H visitor l v).1 = top H.node l := by
  rcases l with _ | ⟨a, _ | ⟨b, l⟩⟩
  · contradiction
  · rw [top_singleton]
    rfl
  · have h2 : 2 ≤ (a :: b :: l).length := by simp
    rw [merkelize_of_two_le h2, merkelizeLoop_fst (row_ne_nil h) le_rfl, top_row h2]

end Visitor

section Collection

open ProofCollection

variable {c : ProofCollection H.Out}

@[simp]
theorem push_none : c.push none = c := by
  simp [push]

theorem visit_eq (h : index + 1 < 2 ^ 32) : visit index left right c =
      c.push (if c.position = index then right else if c.position = index + 1 then left
        else none) := by
  have hw : Machine.wrappingAdd 32 index 1 = index + 1 := Nat.mod_eq_of_lt h
  simp only [visit]
  split_ifs with h1 h2 h2 <;> simp_all [push]

theorem visit_none : visit index none none c = c := by
  simp [visit]

@[simp]
theorem push_position : (c.push a).position = c.position :=
  rfl

theorem visit_last (h : index + [a].length < 2 ^ 32) (hp : c.position < index + [a].length) :
    visit index (some a) none c = c := by
  rw [List.length_singleton] at h hp
  rw [visit_eq h, if_neg (by omega : c.position ≠ index + 1), ite_self, push_none]

theorem single_unchanged (hp : c.position < index + [a].length) :
    (if c.position < index then c else c.push (sibling [a] (c.position - index))) = c := by
  rw [List.length_singleton] at hp
  split_ifs with h
  · rfl
  · have he : c.position - index = 0 := by omega
    rw [he]
    exact push_none

-- The row adds the sibling of the position to the proof.
theorem merkelizeRow_snd (h : index + l.length < 2 ^ 32) (hp : c.position < index + l.length) :
    (merkelizeRow H visitor l index next c).2 =
      if c.position < index then c else c.push (sibling l (c.position - index)) := by
  fun_induction merkelizeRow H visitor l index next c
  case case1 a b l index next c hi =>
    have hw : Machine.wrappingAdd 32 index 2 = index + 2 := Nat.mod_eq_of_lt (by simp at h; omega)
    have hv : visitor.visit index (some a) (some b) c =
        c.push (if c.position = index then b else if c.position = index + 1 then a else none) :=
      visit_eq (by simp at h; omega)
    rw [hw, hv] at hi
    rw [hw, hv, hi (by simp at h; omega) (by simp at hp ⊢; omega)]
    rw [push_position]
    rcases Nat.lt_or_ge c.position (index + 2) with hc | hc
    · rw [if_pos hc]
      split_ifs with h1 h2 h3 h4
      · omega
      · rw [h1, Nat.sub_self]
        rfl
      · omega
      · rw [h3, Nat.add_sub_cancel_left]
        rfl
      · exact push_none
      · omega
    · have hs : c.position - index = c.position - (index + 2) + 2 := by omega
      rw [if_neg (by omega), if_neg (by omega), if_neg (by omega), if_neg (by omega), push_none, hs,
        sibling_add_two]
  case case2 a index next c _ he =>
    exact (visit_last h hp).trans (single_unchanged hp).symm
  case case3 a index next c _ he hi =>
    exact visit_none.trans <| (visit_last h hp).trans (single_unchanged hp).symm
  case case4 =>
    rw [List.length_nil, Nat.add_zero] at hp
    rw [if_pos hp]
    exact visit_none

theorem merkelizeRow_collect (h : l.length < 2 ^ 32) (hp : c.position < l.length) :
    (merkelizeRow H visitor l 0 [] c).2 = c.push (sibling l c.position) := by
  rw [merkelizeRow_snd (by omega) (by omega), if_neg (Nat.not_lt_zero _), Nat.sub_zero]

theorem merkelizeLoop_collect (h : l.length < 2 ^ 32) (hf : l.length ≤ fuel)
    (hp : c.position / 2 < l.length) :
    (merkelizeLoop H visitor fuel l c).2.proof = c.proof ++ siblings H.node l (c.position / 2) := by
  induction fuel generalizing l c
  case zero => omega
  case succ fuel hi =>
    rcases l with _ | ⟨a, _ | ⟨b, l⟩⟩
    · simp at hp
    · rw [siblings_singleton, List.append_nil]
      have hc : (merkelizeRow H visitor [a] 0 [] c.moveUp).2 = c.moveUp :=
        visit_last (by simp) (by simpa [moveUp] using hp)
      exact (congrArg ProofCollection.proof hc :)
    · have h2 : 2 ≤ (a :: b :: l).length := by simp
      have hr := length_row (f := H.node) (a :: b :: l)
      have hc : (merkelizeRow H visitor (a :: b :: l) 0 [] c.moveUp).2 =
          c.moveUp.push (sibling (a :: b :: l) (c.position / 2)) :=
        merkelizeRow_collect h hp
      have hm : visitor.moveUp c = c.moveUp := rfl
      rw [merkelizeLoop_of_two_le h2, hm, hc, hi (by omega) (by omega), siblings_row h2]
      · simp [push, moveUp]
      · simp only [push_position, moveUp]
        omega

theorem merkelize_collect {p : Nat} (h : l.length < 2 ^ 32) (hp : p < l.length) :
    (merkelize H visitor l { position := p }).2.proof = siblings H.node l p := by
  rcases l with _ | ⟨a, _ | ⟨b, l⟩⟩
  · simp at hp
  · rw [siblings_singleton]
    exact congrArg ProofCollection.proof (visit_last (c := { position := p }) h (by simpa using hp))
  · have h2 : 2 ≤ (a :: b :: l).length := by simp
    have hr := length_row (f := H.node) (a :: b :: l)
    rw [merkelize_of_two_le h2, merkelizeRow_collect h hp,
      merkelizeLoop_collect (by omega) le_rfl (by simp only [push_position]; omega),
      siblings_row h2]
    simp [push]

end Collection

theorem filter_zipIdx_of_lt {T : Type} (leaves : List T) (h : k + leaves.length ≤ 2 ^ 32)
    (hk : i < k) : (leaves.zipIdx k).filter (fun l => l.2 % 2 ^ 32 = i) = [] := by
  rw [List.filter_eq_nil_iff]
  rintro ⟨l, j⟩ hm
  have ⟨h1, h2, _⟩ := List.mem_zipIdx hm
  rw [decide_eq_true_eq]
  omega

theorem filter_zipIdx {T : Type} {leaves : List T} (h : k + leaves.length ≤ 2 ^ 32) (hk : k ≤ i) :
    (leaves.zipIdx k).filter (fun l => l.2 % 2 ^ 32 = i) = (leaves[i - k]?.map (·, i)).toList := by
  induction leaves generalizing k
  case nil => rfl
  case cons l leaves hi =>
    rw [List.length_cons] at h
    have hm : k % 2 ^ 32 = k := Nat.mod_eq_of_lt (by omega)
    rw [List.zipIdx_cons, List.filter_cons, hm]
    rcases Nat.eq_or_lt_of_le hk with rfl | hk
    · have hn := filter_zipIdx_of_lt leaves (by omega) (Nat.lt_succ_self k)
      rw [if_pos (by simp), hn, Nat.sub_self]
      rfl
    · have hs : i - k = i - (k + 1) + 1 := by omega
      rw [if_neg (by simpa using Nat.ne_of_lt hk), hi (by omega) hk, hs, List.getElem?_cons_succ]

theorem requestedLeaf_eq {T : Type} {leaves : List T} (h : leaves.length ≤ 2 ^ 32) :
    requestedLeaf leaves i = leaves[i]? := by
  rw [requestedLeaf, filter_zipIdx (by omega) (Nat.zero_le i)]
  cases leaves[i]? <;> rfl

section Verify

variable {c : Cursor H} {p n : Nat}

-- The verifier counts a level for each item of the proof, and the tree one for each row. They agree
-- until the position is the last one of its row; from there on it is the last one for both.
def Aligned (c : Cursor H) (p n : Nat) : Prop :=
  (c.position = p ∧ c.width = n) ∨ (p + 1 = n ∧ c.position + 1 = c.width)

theorem Aligned.onRight (h : Aligned c p n) (hl : p % 2 = 1 ∨ p + 1 < n) :
    Merkle.onRight c.position c.width = decide (p % 2 = 1) := by
  rw [Merkle.onRight]
  rcases h with ⟨rfl, rfl⟩ | ⟨hn, hc⟩ <;> rw [decide_eq_decide] <;> omega

theorem Aligned.up (h : Aligned c p n) (hp : p < n) : Aligned (c.up b) (p / 2) ((n + 1) / 2) := by
  simp only [Aligned, Cursor.up]
  rcases h with ⟨rfl, rfl⟩ | ⟨hn, hc⟩
  · left
    omega
  · right
    omega

theorem Aligned.promoted (h : Aligned c p n) (hp : p + 1 = n) (he : p % 2 = 0) :
    Aligned c (p / 2) ((n + 1) / 2) := by
  rcases h with ⟨rfl, rfl⟩ | ⟨hn, hc⟩
  · right
    omega
  · right
    omega

-- By induction over the rows: the siblings lead the verifier to the root.
theorem climb_siblings (hl : l[p]? = some c.computed) (hc : Aligned c p l.length) :
    some ((siblings H.node l p).foldl Cursor.up c).computed = top H.node l := by
  induction l using row_induction H.node generalizing c p
  case nil => simp at hl
  case single a =>
    obtain ⟨rfl, ha⟩ : p = 0 ∧ a = c.computed := by
      cases p
      case zero => simpa using hl
      case succ p => simp at hl
    simp [ha]
  case step l h2 hi =>
    have hp : p < l.length := (List.getElem?_eq_some_iff.mp hl).1
    have hr := getElem?_row (f := H.node) hl
    rw [siblings_row h2, ← top_row h2]
    cases hs : sibling l p
    case none =>
      rw [hs] at hr
      have ⟨h₁, h₂⟩ := (sibling_eq_none hp).mp hs
      exact hi hr (length_row l ▸ hc.promoted h₁ h₂)
    case some b =>
      rw [hs] at hr
      have hne : p % 2 = 1 ∨ p + 1 < l.length := by
        by_contra hn
        have := (sibling_eq_none hp).mpr (by omega)
        simp [hs] at this
      refine hi ?_ (length_row l ▸ hc.up hp)
      rw [hr, Option.elim_some, pair, Cursor.up, Cursor.combined, hc.onRight hne]
      rcases Nat.mod_two_eq_zero_or_one p with h | h <;> simp [h, Hasher.node]

end Verify

theorem proofWith_complete {T : Type} (toHash : T → H.Out) (toLeaf : T → Leaf H) {leaves : List T}
    (ht : ∀ l, (toLeaf l).leafHash = toHash l) (hn : leaves.length < 2 ^ 32)
    (hi : i < leaves.length) :
    ∃ p, proofWith H toHash leaves i = some p ∧ p.root = merkleRootRaw H (leaves.map toHash) ∧
      p.numberOfLeaves = leaves.length ∧ p.leafIndex = i ∧ leaves[i]? = some p.leaf ∧
      verifyProof p.root p.proof leaves.length i (toLeaf p.leaf) = true := by
  have hne : leaves.map toHash ≠ [] := by
    rw [← List.length_pos_iff, List.length_map]
    omega
  have hg := List.getElem?_eq_getElem hi
  have hv : (leaves.map toHash)[i]? = some (toHash leaves[i]) := by rw [List.getElem?_map, hg]; rfl
  have hr := merkelize_fst ProofCollection.visitor { position := i } hne
  rw [proofWith, requestedLeaf_eq hn.le, hg]
  refine ⟨_, rfl, ?root, Nat.mod_eq_of_lt hn, rfl, rfl, ?verify⟩
  case root => exact Option.some.inj (hr.trans (merkelize_fst _ _ hne).symm)
  case verify =>
    rw [verifyProof, if_neg (by omega), decide_eq_true_iff,
      merkelize_collect (by simpa using hn) (by simpa using hi)]
    have hc := climb_siblings (c := ⟨(toLeaf leaves[i]).leafHash, i, leaves.length⟩) (ht _ ▸ hv)
      (.inl ⟨rfl, (List.length_map _).symm⟩)
    exact Option.some.inj (hr.trans hc.symm)

-- Every leaf has a proof, from the contents of the leaves as from their hashes.
theorem merkleProof_complete (leaves : List (List UInt8)) (hashes : List H.Out) (i j : Nat)
    (hl : leaves.length < 2 ^ 32) (hi : i < leaves.length) (hh : hashes.length < 2 ^ 32)
    (hj : j < hashes.length) :
    (∃ p, merkleProof H leaves i = some p ∧ p.root = merkleRoot H leaves ∧
      p.numberOfLeaves = leaves.length ∧ p.leafIndex = i ∧ leaves[i]? = some p.leaf ∧
      verifyProof p.root p.proof leaves.length i (.value p.leaf) = true) ∧
    ∃ p, merkleProofRaw H hashes j = some p ∧ p.root = merkleRootRaw H hashes ∧
      p.numberOfLeaves = hashes.length ∧ p.leafIndex = j ∧ hashes[j]? = some p.leaf ∧
      verifyProof p.root p.proof hashes.length j (.hash p.leaf) = true := by
  constructor
  · exact proofWith_complete H.hash .value (fun _ => rfl) hl hi
  · have h := proofWith_complete id .hash (fun _ => rfl) hh hj
    rwa [List.map_id] at h

def sampleHasher : Hasher where
  length := 1
  hash s := ⟨[s.foldl (fun h b => 3 * h + b + 1) 0], rfl⟩

def sampleLeaves : List (List UInt8) :=
  [[1], [2], [3]]

theorem sampleHasher_proof_complete :
    (∃ p, merkleProof sampleHasher sampleLeaves 1 = some p ∧
      p.root = merkleRoot sampleHasher sampleLeaves ∧
      p.numberOfLeaves = sampleLeaves.length ∧ p.leafIndex = 1 ∧ sampleLeaves[1]? = some p.leaf ∧
      verifyProof p.root p.proof sampleLeaves.length 1 (.value p.leaf) = true) ∧
    ∃ p, merkleProofRaw sampleHasher [sampleHasher.hash [5]] 0 = some p ∧
      p.root = merkleRootRaw sampleHasher [sampleHasher.hash [5]] ∧ p.numberOfLeaves = 1 ∧
        p.leafIndex = 0 ∧
      [sampleHasher.hash [5]][0]? = some p.leaf ∧
        verifyProof p.root p.proof 1 0 (.hash p.leaf) = true :=
  merkleProof_complete sampleLeaves [sampleHasher.hash [5]] 1 0 (by decide) (by decide)
    (by decide) (by decide)

end Merkle
