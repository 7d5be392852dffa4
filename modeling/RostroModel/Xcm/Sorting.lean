import RostroModel.Xcm.Holding

namespace Xcm

variable {AssetId AssetInstance : Type} [LinearOrder AssetId] [LinearOrder AssetInstance]
variable {a b m : Asset AssetId AssetInstance} {l : List (Asset AssetId AssetInstance)}
  {id : AssetId}

namespace Asset

-- What has to be equal for two assets to be the same one.
def key (a : Asset AssetId AssetInstance) : Bool ×ₗ (AssetId ×ₗ WithBot AssetInstance) :=
  match a.fungibility with
  | .fungible _ => toLex (false, toLex (a.id, ⊥))
  | .nonFungible inst => toLex (true, toLex (a.id, (inst : WithBot AssetInstance)))

def amountOf (a : Asset AssetId AssetInstance) (id : AssetId) : Nat :=
  match a.fungibility with
  | .fungible amount => if a.id = id then amount else 0
  | .nonFungible _ => 0

theorem merge?_eq_none : a.merge? b = none ↔ a.key ≠ b.key := by
  obtain ⟨i, x⟩ := a
  obtain ⟨j, y⟩ := b
  cases x <;> cases y <;> by_cases h : i = j <;> simp [merge?, key]

theorem key_merge? (h : a.merge? b = some m) : m.key = a.key := by
  obtain ⟨i, x⟩ := a
  obtain ⟨j, y⟩ := b
  rw [merge?] at h
  split_ifs at h
  cases x <;> cases y <;> simp only [Option.some.injEq, reduceCtorEq,
    Option.ite_none_right_eq_some] at h
  case fungible.fungible => rw [← h]; rfl
  case nonFungible.nonFungible => rw [← h.2]

theorem amountOf_merge? (h : a.merge? b = some m)
    (hm : a.amountOf id + b.amountOf id ≤ Machine.maxValue 128) :
    m.amountOf id = a.amountOf id + b.amountOf id := by
  obtain ⟨i, x⟩ := a
  obtain ⟨j, y⟩ := b
  rw [merge?] at h
  split_ifs at h with hj
  obtain rfl : i = j := hj
  cases x <;> cases y <;> simp at h
  case fungible.fungible x y =>
    simp only [amountOf, ← h] at hm ⊢
    split_ifs at hm ⊢
    · exact Machine.saturatingAdd_of_le hm
    · rfl
  case nonFungible.nonFungible => simp [amountOf, ← h.2]

def order (a : Asset AssetId AssetInstance) : Bool ×ₗ (AssetId ×ₗ (Nat ⊕ₗ AssetInstance)) :=
  match a.fungibility with
  | .fungible amount => toLex (false, toLex (a.id, Sum.inlₗ amount))
  | .nonFungible inst => toLex (true, toLex (a.id, Sum.inrₗ inst))

theorem le_iff : a.le b = true ↔ a.order ≤ b.order := by
  obtain ⟨i, x⟩ := a
  obtain ⟨j, y⟩ := b
  cases x <;> cases y <;> simp [le, order, Prod.Lex.le_iff]

theorem key_le (h : a.le b = true) : a.key ≤ b.key := by
  obtain ⟨i, x⟩ := a
  obtain ⟨j, y⟩ := b
  cases x <;> cases y <;> simp [le, key, Prod.Lex.le_iff] at h ⊢
  case fungible.fungible => tauto
  case nonFungible.nonFungible => exact h

end Asset

theorem pairwise_mergeSort : (l.mergeSort Asset.le).Pairwise (·.key ≤ ·.key) := by
  refine (List.pairwise_mergeSort ?_ ?_ l).imp Asset.key_le
  · intro a b c h1 h2
    rw [Asset.le_iff] at *
    exact h1.trans h2
  · intro a b
    rw [Bool.or_eq_true, Asset.le_iff, Asset.le_iff]
    exact le_total _ _

-- Sorted, and no asset twice.
def Canonical (l : List (Asset AssetId AssetInstance)) : Prop :=
  l.Pairwise (·.key < ·.key)

def total (l : List (Asset AssetId AssetInstance)) (id : AssetId) : Nat :=
  (l.map (·.amountOf id)).sum

omit [LinearOrder AssetInstance] in
theorem total_cons : total (a :: l) id = a.amountOf id + total l id :=
  List.sum_cons

omit [LinearOrder AssetInstance] in
theorem total_perm (h : l.Perm l') : total l id = total l' id :=
  (h.map _).sum_eq

namespace Assets

theorem mergeLoop_canonical (h : (a :: l).Pairwise (·.key ≤ ·.key)) :
    Canonical (mergeLoop a l) ∧ ∀ x ∈ mergeLoop a l, a.key ≤ x.key := by
  induction l generalizing a
  case nil => simp [mergeLoop, Canonical]
  case cons b l hi =>
    have ⟨ha, hb⟩ := List.pairwise_cons.mp h
    rw [mergeLoop]
    cases hm : a.merge? b
    case some m =>
      have hk := Asset.key_merge? hm
      rw [← hk]
      refine hi (List.pairwise_cons.mpr ⟨fun x hx => ?_, hb.of_cons⟩)
      rw [hk]
      exact ha x (List.mem_cons_of_mem b hx)
    case none =>
      have hlt := lt_of_le_of_ne (ha b List.mem_cons_self) (Asset.merge?_eq_none.mp hm)
      obtain ⟨h1, h2⟩ := hi hb
      have hx : ∀ x ∈ mergeLoop b l, a.key < x.key := fun x hx => hlt.trans_le (h2 x hx)
      refine ⟨List.pairwise_cons.mpr ⟨hx, h1⟩, ?_⟩
      rw [List.forall_mem_cons]
      exact ⟨le_rfl, fun x h => (hx x h).le⟩

theorem mem_mergeLoop :
    ⟨id, .nonFungible inst⟩ ∈ mergeLoop a l ↔ ⟨id, .nonFungible inst⟩ ∈ a :: l := by
  induction l generalizing a
  case nil => rfl
  case cons b l hi =>
    rw [mergeLoop]
    cases hm : a.merge? b
    case none => simp [hi]
    case some m =>
      obtain ⟨i, x⟩ := a
      obtain ⟨j, y⟩ := b
      rw [Asset.merge?] at hm
      cases x <;> cases y <;> simp at hm <;> simp_all [← hm]

theorem total_mergeLoop (h : total (a :: l) id ≤ Machine.maxValue 128) :
    total (mergeLoop a l) id = total (a :: l) id := by
  induction l generalizing a
  case nil => rfl
  case cons b l hi =>
    rw [mergeLoop]
    cases hm : a.merge? b
    case none =>
      rw [total_cons] at h
      rw [total_cons, total_cons, hi (by omega)]
    case some m =>
      rw [total_cons, total_cons] at h
      have hs := Asset.amountOf_merge? hm (by omega : a.amountOf id + b.amountOf id ≤ _)
      rw [hi (by rw [total_cons]; omega), total_cons, total_cons, total_cons, hs, Nat.add_assoc]

theorem canonical_ofList : Canonical (ofList l).inner := by
  have hs := pairwise_mergeSort (l := l)
  rw [ofList]
  cases hl : l.mergeSort Asset.le
  case nil => exact .nil
  case cons => exact (mergeLoop_canonical (hl ▸ hs)).1

theorem mem_ofList : ⟨id, .nonFungible inst⟩ ∈ (ofList l).inner ↔ ⟨id, .nonFungible inst⟩ ∈ l := by
  rw [← (l.mergeSort_perm Asset.le).mem_iff, ofList]
  cases l.mergeSort Asset.le
  case nil => rfl
  case cons => exact mem_mergeLoop

theorem total_ofList (h : total l id ≤ Machine.maxValue 128) :
    total (ofList l).inner id = total l id := by
  rw [← total_perm (l.mergeSort_perm Asset.le)] at *
  rw [ofList]
  cases hl : l.mergeSort Asset.le
  case nil => rfl
  case cons => exact total_mergeLoop (hl ▸ h)

end Assets

end Xcm
