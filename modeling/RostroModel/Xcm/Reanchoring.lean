import RostroModel.Xcm.Location
import RostroModel.Xcm.Sorting

namespace Xcm

namespace AssetsInHolding

open Std (ExtTreeMap ExtTreeSet)

variable {AssetId AssetInstance : Type} [LinearOrder AssetId] [LinearOrder AssetInstance]
variable {self failedBin : AssetsInHolding AssetId AssetInstance} {id : AssetId}

def amountOf (self : AssetsInHolding AssetId AssetInstance) (id : AssetId) : Nat :=
  self.fungible[id]?.getD 0

theorem foldl_insertFungible (l : List (AssetId × Nat)) : l.foldl insertFungible self =
      { self with fungible := l.foldl (fun t e => t.insert e.1 e.2) self.fungible } := by
  induction l generalizing self
  case nil => rfl
  case cons e l hi => exact hi

theorem foldl_insertNonFungible (l : List (AssetId ×ₗ AssetInstance)) :
    l.foldl insertNonFungible self =
      { self with nonFungible := l.foldl .insert self.nonFungible } := by
  induction l generalizing self
  case nil => rfl
  case cons e l hi => exact hi

theorem mem_foldl_insert {α : Type} [LinearOrder α] {t : ExtTreeSet α} {l : List α} {x : α} :
    x ∈ l.foldl .insert t ↔ x ∈ t ∨ x ∈ l := by
  induction l generalizing t
  case nil => simp
  case cons e l hi =>
    rw [List.foldl_cons, hi, ExtTreeSet.mem_insert, List.mem_cons,
      Std.LawfulEqCmp.compare_eq_iff_eq, eq_comm (a := x)]
    tauto

variable {reanchor : AssetId → Option AssetId}

-- The amount of all assets that become `id`.
def amountTo (self : AssetsInHolding AssetId AssetInstance) (reanchor : AssetId → Option AssetId)
    (id : AssetId) : Nat :=
  ((self.fungible.toList.filter fun e => reanchor e.1 = some id).map Prod.snd).sum

-- Nothing is dropped and nothing is counted twice.
structure Conserves (holding failedBin : AssetsInHolding AssetId AssetInstance)
    (reanchor : AssetId → Option AssetId) : Prop where
  failed : ∀ id, (holding.reanchorAndBurnLocal reanchor failedBin).2.amountOf id =
    failedBin.amountOf id + if (reanchor id).isNone then holding.amountOf id else 0
  failedNonFungible : ∀ e, e ∈ (holding.reanchorAndBurnLocal reanchor failedBin).2.nonFungible ↔
    e ∈ failedBin.nonFungible ∨ e ∈ holding.nonFungible ∧ (reanchor (ofLex e).1).isNone
  returned : ∀ id, total (holding.reanchorAndBurnLocal reanchor failedBin).1.inner id =
    holding.amountTo reanchor id
  returnedNonFungible : ∀ id inst,
    ⟨id, .nonFungible inst⟩ ∈ (holding.reanchorAndBurnLocal reanchor failedBin).1.inner ↔
      ∃ e ∈ holding.nonFungible, reanchor (ofLex e).1 = some id ∧ (ofLex e).2 = inst
  canonical : Canonical (holding.reanchorAndBurnLocal reanchor failedBin).1.inner

theorem failed_amountOf : (self.reanchorAndBurnLocal reanchor failedBin).2.amountOf id =
      if (reanchor id).isNone ∧ id ∈ self.fungible then self.amountOf id
      else failedBin.amountOf id := by
  rw [reanchorAndBurnLocal, foldl_insertFungible, foldl_insertNonFungible, amountOf]
  have hn : ((self.fungible.toList.filter fun e => (reanchor e.1).isNone).map (·.1)).Nodup :=
    (List.filter_sublist.map _).nodup self.fungible.nodup_keys_toList
  obtain ⟨h1, h2⟩ := ExtTreeMap.merge_list (g := fun _ v => v) hn failedBin.fungible id
  split_ifs with h
  · obtain ⟨amount, ha⟩ : ∃ amount, self.fungible[id]? = some amount :=
      Option.isSome_iff_exists.mp (ExtTreeMap.isSome_getElem?_iff_mem.mpr h.2)
    rw [h2 amount, amountOf, ha]
    rw [List.mem_filter, ExtTreeMap.mem_toList_iff_getElem?_eq_some]
    exact ⟨ha, h.1⟩
  · rw [h1, amountOf]
    intro amount hm
    rw [List.mem_filter, ExtTreeMap.mem_toList_iff_getElem?_eq_some] at hm
    exact h ⟨hm.2, ExtTreeMap.isSome_getElem?_iff_mem.mp (by rw [hm.1]; rfl)⟩

theorem failed_nonFungible (e : AssetId ×ₗ AssetInstance) :
    e ∈ (self.reanchorAndBurnLocal reanchor failedBin).2.nonFungible ↔
      e ∈ failedBin.nonFungible ∨ e ∈ self.nonFungible ∧ (reanchor (ofLex e).1).isNone := by
  rw [reanchorAndBurnLocal, foldl_insertFungible, foldl_insertNonFungible, mem_foldl_insert,
    List.mem_filter, ExtTreeSet.mem_toList]

omit [LinearOrder AssetInstance] in
theorem total_append : total (l ++ l') id = total l id + total l' id := by
  rw [total, List.map_append, List.sum_append]
  rfl

theorem total_reanchored : total (self.reanchored reanchor) id = self.amountTo reanchor id := by
  have hn (l : List (AssetId ×ₗ AssetInstance)) : total (l.filterMap fun e =>
      (reanchor (ofLex e).1).map fun id => nonFungibleAsset (toLex (id, (ofLex e).2))) id = 0 := by
    induction l
    case nil => rfl
    case cons e l hi =>
      cases hr : reanchor (ofLex e).1 <;> simp [hr, total_cons, hi, Asset.amountOf]
  have hf (l : List (AssetId × Nat)) : total (l.filterMap fun e =>
      (reanchor e.1).map fun id => (fungibleAsset (id, e.2) : Asset AssetId AssetInstance)) id =
      ((l.filter fun e => reanchor e.1 = some id).map Prod.snd).sum := by
    induction l
    case nil => rfl
    case cons e l hi =>
      cases hr : reanchor e.1
      case none => simp [hr, hi]
      case some j => by_cases hj : j = id <;> simp [hr, total_cons, hi, Asset.amountOf, hj]
  rw [reanchored, total_append, hn, hf, amountTo, Nat.add_zero]

theorem mem_reanchored : ⟨id, .nonFungible inst⟩ ∈ self.reanchored reanchor ↔
      ∃ e ∈ self.nonFungible, reanchor (ofLex e).1 = some id ∧ (ofLex e).2 = inst := by
  simp only [reanchored, List.mem_append, List.mem_filterMap, Option.map_eq_some_iff,
    ExtTreeSet.mem_toList, fungibleAsset, nonFungibleAsset, Asset.mk.injEq, reduceCtorEq, and_false,
    exists_false, false_or, ofLex_toLex, Fungibility.nonFungible.injEq]
  constructor
  · rintro ⟨e, he, _, hr, rfl, hi⟩
    exact ⟨e, he, hr, hi⟩
  · rintro ⟨e, he, hr, hi⟩
    exact ⟨e, he, id, hr, rfl, hi⟩

theorem conserves_iff (h : ∀ id, self.amountTo reanchor id ≤ Machine.maxValue 128) :
    Conserves self failedBin reanchor ↔
      ∀ id, id ∈ self.fungible → reanchor id = none → failedBin.amountOf id = 0 := by
  constructor
  case mp =>
    intro hc id hm hr
    have hf := hc.failed id
    rw [failed_amountOf, if_pos ⟨by rw [hr]; rfl, hm⟩, if_pos (by rw [hr]; rfl)] at hf
    omega
  case mpr =>
    intro hb
    have ht (id : AssetId) : total ((self.reanchored reanchor).mergeSort Asset.le) id =
        self.amountTo reanchor id := by
      rw [total_perm (List.mergeSort_perm _ _), total_reanchored]
    refine ⟨fun id => ?_, failed_nonFungible, fun id => ?_,
      fun id inst => ?_, Assets.canonical_ofList⟩
    case refine_1 =>
      rw [failed_amountOf]
      by_cases hm : id ∈ self.fungible
      · cases hr : reanchor id
        case none => simp [hm, hb id hm hr]
        case some j => simp
      · have hz : self.amountOf id = 0 := by
          rw [amountOf, ExtTreeMap.getElem?_eq_none hm]
          rfl
        simp [hm, hz]
    case refine_2 => exact (Assets.total_ofList (ht id ▸ h id)).trans (ht id)
    case refine_3 =>
      refine Assets.mem_ofList.trans ?_
      rw [(List.mergeSort_perm _ _).mem_iff]
      exact mem_reanchored

section Location

variable {J Inst : Type} [Junction J] [LinearOrder Inst]

-- For every holding and failed bin, target and context.
theorem reanchor_conserves_iff (holding failedBin : AssetsInHolding (Location J) Inst)
    (target : Location J) (context : InteriorLocation J)
    (h : ∀ id, holding.amountTo (·.reanchor target context) id ≤ Machine.maxValue 128) :
    Conserves holding failedBin (·.reanchor target context) ↔
      ∀ id, id ∈ holding.fungible → id.reanchor target context = none → failedBin.amountOf id = 0 :=
  conserves_iff h

instance : Junction Nat where
  onlyChild := 0

def sampleTarget : Location Nat where
  parents := 1
  interior := .empty
  parents_le := by decide

def sampleContext : InteriorLocation Nat :=
  ⟨[9], by decide⟩

def sampleId : Location Nat where
  parents := 0
  interior := ⟨[1], by decide⟩
  parents_le := by decide

-- An asset whose location has no room for one more junction.
def sampleDeepId : Location Nat where
  parents := 0
  interior := ⟨[1, 2, 3, 4, 5, 6, 7, 8], by decide⟩
  parents_le := by decide

def sampleHolding (id : Location Nat) (amount : Nat) : AssetsInHolding (Location Nat) Nat :=
  ({} : AssetsInHolding (Location Nat) Nat).insertFungible (id, amount)

theorem amountOf_sampleHolding {id : Location Nat} :
    (sampleHolding id amount).amountOf id = amount := by
  simp [sampleHolding, insertFungible, amountOf]

theorem sampleDeepId_reanchor : sampleDeepId.reanchor sampleTarget sampleContext = none := by
  decide +kernel

theorem sampleHolding_conserved :
    Conserves (sampleHolding sampleDeepId 5) (sampleHolding sampleId 7)
      (·.reanchor sampleTarget sampleContext) := by
  refine (reanchor_conserves_iff _ _ sampleTarget sampleContext ?_).mpr ?_
  · intro id
    simp [amountTo, sampleHolding, insertFungible, ExtTreeMap.toList_insert_empty,
      sampleDeepId_reanchor]
  · intro id hm _
    have he : compare sampleDeepId id = .eq := by simpa [sampleHolding, insertFungible] using hm
    have hn : compare sampleId sampleDeepId ≠ .eq := by decide +kernel
    rw [← Std.LawfulEqCmp.eq_of_compare he]
    simp [sampleHolding, insertFungible, amountOf, hn]

-- The 7 units in the failed bin are lost.
theorem sampleDeepId_lost :
    sampleDeepId.reanchor sampleTarget sampleContext = none ∧
    ((sampleHolding sampleDeepId 5).reanchorAndBurnLocal (·.reanchor sampleTarget sampleContext)
      (sampleHolding sampleDeepId 7)).2.amountOf sampleDeepId = 5 ∧
    ¬Conserves (sampleHolding sampleDeepId 5) (sampleHolding sampleDeepId 7)
      (·.reanchor sampleTarget sampleContext) := by
  have hf : ((sampleHolding sampleDeepId 5).reanchorAndBurnLocal
    (·.reanchor sampleTarget sampleContext)
      (sampleHolding sampleDeepId 7)).2.amountOf sampleDeepId = 5 := by
    rw [failed_amountOf, amountOf_sampleHolding]
    simp [sampleDeepId_reanchor, sampleHolding, insertFungible]
  refine ⟨sampleDeepId_reanchor, hf, fun hc => ?_⟩
  have h := hc.failed sampleDeepId
  rw [amountOf_sampleHolding] at h
  omega

end Location

end AssetsInHolding

end Xcm
