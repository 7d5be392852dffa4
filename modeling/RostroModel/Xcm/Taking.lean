import RostroModel.Xcm.Reanchoring

namespace Xcm

open Std (ExtTreeMap ExtTreeSet)
open Option (elim_some map_some)
open Std.ExtTreeSet (mem_erase mem_insert)
open Std.ExtTreeMap (lookup_erase lookup_insert)
open List (filter_true foldl_cons map_append map_map mem_append mem_cons mem_map nil_append
  nodup_append nodup_cons pairwise_map)

variable {AssetId AssetInstance : Type} [LinearOrder AssetId] [LinearOrder AssetInstance]
variable {a b : Asset AssetId AssetInstance} {l : List (Asset AssetId AssetInstance)}

def takeLimit {α : Type} (limit : Option Nat) (l : List α) : List α :=
  limit.elim l l.take

theorem takeLimit_of_le {α : Type} {l : List α} (h : limit.all (l.length ≤ ·) = true) :
    takeLimit limit l = l := by
  cases limit
  case none => rfl
  case some n => exact List.take_of_length_le (by simpa using h)

namespace Assets

variable {masked : Assets AssetId AssetInstance}

theorem absorb_eq_none (h : ∀ x ∈ l, x.key ≠ a.key) : absorb a l = none := by
  induction l
  case nil => rfl
  case cons x l hi =>
    rw [List.forall_mem_cons] at h
    rw [absorb, Asset.merge?_eq_none.mpr h.1]
    simp [hi h.2]

omit [LinearOrder AssetId] [LinearOrder AssetInstance] in
theorem fresh_of_nodup {x : List (Asset AssetId AssetInstance)}
    (h : ((x ++ a :: l).map Asset.key).Nodup) :
    a.key ∉ x.map Asset.key := by
  rw [map_append, nodup_append] at h
  exact fun hm => h.2.2 _ hm _ (by simp) rfl

theorem push_perm (h : a.key ∉ masked.inner.map Asset.key) :
    (masked.push a).inner.Perm (masked.inner ++ [a]) := by
  rw [push, absorb_eq_none fun x hx he => h (he ▸ List.mem_map_of_mem hx)]
  exact List.mergeSort_perm _ _

theorem mergeLoop_eq (h : ((a :: l).map Asset.key).Nodup) : mergeLoop a l = a :: l := by
  induction l generalizing a
  case nil => rfl
  case cons b l hi =>
    have ⟨ha, hb⟩ := nodup_cons.mp h
    have hm : a.merge? b = none := Asset.merge?_eq_none.mpr fun he => ha (by simp [he])
    rw [mergeLoop, hm]
    exact congrArg _ (hi hb)

theorem ofList_perm (h : (l.map Asset.key).Nodup) : (ofList l).inner.Perm l := by
  have hp := l.mergeSort_perm Asset.le
  have hn := (hp.map Asset.key).nodup_iff.mpr h
  rw [ofList]
  cases hl : l.mergeSort Asset.le
  case nil =>
    rw [hl] at hp
    exact hp
  case cons a l =>
    rw [hl] at hn hp
    dsimp only
    rw [mergeLoop_eq hn]
    exact hp

end Assets

namespace AssetsInHolding

variable {self taken rest : AssetsInHolding AssetId AssetInstance} {limit : Option Nat}

variable {id : AssetId}

variable {amount : Nat}

theorem pushLimited_perm (limit : Option Nat) (masked : Assets AssetId AssetInstance)
    (hl : limit.all (masked.inner.length < ·) = true)
    (hn : ((masked.inner ++ l).map Asset.key).Nodup) :
    (pushLimited limit l masked).inner.Perm
      (masked.inner ++ takeLimit (limit.map (· - masked.inner.length)) l) := by
  induction l generalizing masked
  case nil =>
    rw [pushLimited]
    cases limit <;> simp [takeLimit]
  case cons a l hi =>
    have hp := Assets.push_perm (Assets.fresh_of_nodup hn)
    have hlen : (masked.push a).inner.length = masked.inner.length + 1 := by simp [hp.length_eq]
    rw [pushLimited]
    cases limit
    case none =>
      have hq : ((masked.push a).inner ++ l).Perm (masked.inner ++ a :: l) := by
        simpa using hp.append_right l
      exact (hi _ rfl ((hq.map _).nodup_iff.mpr hn)).trans hq
    case some n =>
      simp only [Option.any_some, map_some, takeLimit, elim_some, Option.all_some,
        decide_eq_true_eq] at hl ⊢
      have hs : n - masked.inner.length = n - (masked.inner.length + 1) + 1 := by omega
      have hq : ∀ l', ((masked.push a).inner ++ l').Perm (masked.inner ++ a :: l') := by
        intro l'
        simpa using hp.append_right l'
      rw [hs, List.take_succ_cons]
      split_ifs with hge
      · have hz : n - (masked.inner.length + 1) = 0 := by omega
        rw [hz]
        exact hp
      · have h := hi (masked.push a) (by simp; omega) (((hq l).map _).nodup_iff.mpr hn)
        simp only [hlen] at h
        exact h.trans (hq _)

section Assets

variable {e : AssetId × Nat} {n : AssetId ×ₗ AssetInstance}

theorem mem_assetsIter_fungible :
    ⟨id, .fungible amount⟩ ∈ self.assetsIter ↔ self.fungible[id]? = some amount := by
  simp only [assetsIter, fungibleAssetsIter, nonFungibleAssetsIter, mem_append, mem_map,
    Asset.mk.injEq, reduceCtorEq, and_false, exists_false, or_false, Fungibility.fungible.injEq,
    ← ExtTreeMap.mem_toList_iff_getElem?_eq_some]
  constructor
  · rintro ⟨e, he, rfl, rfl⟩
    exact he
  · exact fun h => ⟨_, h, rfl, rfl⟩

theorem mem_assetsIter_nonFungible :
    ⟨id, .nonFungible inst⟩ ∈ self.assetsIter ↔ toLex (id, inst) ∈ self.nonFungible := by
  simp only [assetsIter, fungibleAssetsIter, nonFungibleAssetsIter, mem_append, mem_map,
    Asset.mk.injEq, reduceCtorEq, and_false, exists_false, false_or, Fungibility.nonFungible.injEq,
    ExtTreeSet.mem_toList]
  constructor
  · rintro ⟨e, he, rfl, rfl⟩
    exact he
  · exact fun h => ⟨_, h, rfl, rfl⟩

theorem nodup_assetsIter : (self.assetsIter.map Asset.key).Nodup := by
  rw [assetsIter, map_append, nodup_append, fungibleAssetsIter, nonFungibleAssetsIter,
    map_map, map_map]
  refine ⟨?_, ?_, ?_⟩
  · rw [List.Nodup, pairwise_map]
    refine self.fungible.distinct_keys_toList.imp fun h he => h ?_
    simpa [Asset.key] using he
  · rw [List.Nodup, pairwise_map]
    refine self.nonFungible.distinct_toList.imp fun {x y} h he => h ?_
    rw [Std.LawfulEqCmp.compare_eq_iff_eq]
    have hp : ofLex x = ofLex y := by
      rw [Prod.ext_iff]
      simpa [Asset.key] using he
    exact ofLex_inj.mp hp
  · simp only [mem_map]
    rintro _ ⟨x, _, rfl⟩ _ ⟨y, _, rfl⟩ h
    simp [Asset.key] at h

theorem length_assetsIter : self.assetsIter.length = self.len := by
  simp [assetsIter, fungibleAssetsIter, nonFungibleAssetsIter, len]

theorem key_mem_fungible :
    (⟨id, .fungible amount⟩ : Asset AssetId AssetInstance).key ∈ self.assetsIter.map Asset.key ↔
      id ∈ self.fungible := by
  rw [mem_map, ← ExtTreeMap.isSome_getElem?_iff_mem, Option.isSome_iff_exists]
  constructor
  · rintro ⟨⟨i, x | x⟩, hm, hk⟩
    · rw [mem_assetsIter_fungible] at hm
      have hi : i = id := by simpa [Asset.key] using hk
      exact ⟨x, hi ▸ hm⟩
    · simp [Asset.key] at hk
  · rintro ⟨x, hx⟩
    exact ⟨_, mem_assetsIter_fungible.mpr hx, by simp [Asset.key]⟩

theorem key_mem_nonFungible {inst : AssetInstance} :
    (⟨id, .nonFungible inst⟩ : Asset AssetId AssetInstance).key ∈ self.assetsIter.map Asset.key ↔
      toLex (id, inst) ∈ self.nonFungible := by
  rw [mem_map, ← mem_assetsIter_nonFungible]
  constructor
  · rintro ⟨⟨i, x | x⟩, hm, hk⟩
    · simp [Asset.key] at hk
    · obtain ⟨rfl, rfl⟩ : i = id ∧ x = inst := by simpa [Asset.key] using hk
      exact hm
  · exact fun h => ⟨_, h, rfl⟩

theorem nodup_append_singleton (h : a.key ∉ self.assetsIter.map Asset.key) :
    (self.assetsIter ++ [a]).Nodup := by
  rw [nodup_append]
  refine ⟨.of_map _ nodup_assetsIter, List.nodup_singleton a, ?_⟩
  rintro x hx y hy rfl
  rw [List.mem_singleton] at hy
  exact h (mem_map.mpr ⟨x, hx, by rw [hy]⟩)

theorem perm_insertFungible (h : (fungibleAsset e).key ∉ self.assetsIter.map Asset.key) :
    (self.insertFungible e).assetsIter.Perm (self.assetsIter ++ [fungibleAsset e]) := by
  rw [List.perm_ext_iff_of_nodup (.of_map _ nodup_assetsIter) (nodup_append_singleton h)]
  rintro ⟨id, amount | inst⟩
  · rw [mem_assetsIter_fungible, mem_append, mem_assetsIter_fungible, insertFungible, lookup_insert]
    split_ifs with hi
    · have hn : self.fungible[id]? ≠ some amount := by
        intro hs
        exact h (mem_map.mpr ⟨_, mem_assetsIter_fungible.mpr hs, by simp [Asset.key, hi]⟩)
      rw [or_iff_right hn]
      simp [hi, eq_comm]
    · simp [hi]
  · rw [mem_assetsIter_nonFungible, mem_append, mem_assetsIter_nonFungible, insertFungible]
    simp

theorem perm_insertNonFungible (h : (nonFungibleAsset n).key ∉ self.assetsIter.map Asset.key) :
    (self.insertNonFungible n).assetsIter.Perm (self.assetsIter ++ [nonFungibleAsset n]) := by
  rw [List.perm_ext_iff_of_nodup (.of_map _ nodup_assetsIter) (nodup_append_singleton h)]
  rintro ⟨id, amount | inst⟩
  · rw [mem_assetsIter_fungible, mem_append, mem_assetsIter_fungible, insertNonFungible]
    simp
  · rw [mem_assetsIter_nonFungible, mem_append, mem_assetsIter_nonFungible, insertNonFungible,
      mem_insert, Std.LawfulEqCmp.compare_eq_iff_eq]
    have he : n = toLex (id, inst) ↔ (⟨id, .nonFungible inst⟩ : Asset AssetId AssetInstance) ∈
        [nonFungibleAsset n] := by
      rw [List.mem_singleton, Asset.mk.injEq, Fungibility.nonFungible.injEq]
      constructor
      · rintro rfl
        exact ⟨rfl, rfl⟩
      · rintro ⟨rfl, rfl⟩
        rfl
    tauto

end Assets

section Loop

variable {ε : Type} {ins : AssetsInHolding AssetId AssetInstance → ε →
  AssetsInHolding AssetId AssetInstance}
variable {asset : ε → Asset AssetId AssetInstance} {es : List ε}

def splitStep
    (ins : AssetsInHolding AssetId AssetInstance → ε → AssetsInHolding AssetId AssetInstance)
    (p : ε → Bool) (limit : Option Nat) (s : Split AssetId AssetInstance) (e : ε) :
    Split AssetId AssetInstance :=
  if p e ∧ limit.all (s.1.len < ·) then (ins s.1 e, s.2) else (s.1, ins s.2 e)

variable (hins : ∀ self e, (asset e).key ∉ self.assetsIter.map Asset.key →
  (ins self e).assetsIter.Perm (self.assetsIter ++ [asset e]))
include hins

theorem perm_foldl (hn : ((self.assetsIter ++ es.map asset).map Asset.key).Nodup) :
    (es.foldl ins self).assetsIter.Perm (self.assetsIter ++ es.map asset) := by
  induction es generalizing self
  case nil => simp
  case cons e es hi =>
    have hp := hins self e (Assets.fresh_of_nodup hn)
    have hq : ((ins self e).assetsIter ++ es.map asset).Perm
        (self.assetsIter ++ (e :: es).map asset) := by
      simpa using hp.append_right (es.map asset)
    exact (hi ((hq.map _).nodup_iff.mpr hn)).trans hq

variable (p : ε → Bool) (limit : Option Nat) (s : Split AssetId AssetInstance)

-- By induction on the list: the first ones that match are taken, up to the
-- limit, and the others are left.
theorem foldl_splitStep (hn : ((s.1.assetsIter ++ es.map asset).map Asset.key).Nodup) :
    ∃ left, es.Perm (takeLimit (limit.map (· - s.1.len)) (es.filter p) ++ left) ∧
      es.foldl (splitStep ins p limit) s =
        ((takeLimit (limit.map (· - s.1.len)) (es.filter p)).foldl ins s.1,
          left.foldl ins s.2) := by
  induction es generalizing s
  case nil => exact ⟨[], by cases limit <;> simp [takeLimit], by cases limit <;> simp [takeLimit]⟩
  case cons e es hi =>
    have hfresh := Assets.fresh_of_nodup hn
    rw [foldl_cons, splitStep]
    split_ifs with h
    · have hp := hins _ _ hfresh
      have hlen : (ins s.1 e).len = s.1.len + 1 := by simp [← length_assetsIter, hp.length_eq]
      have hq : ((ins s.1 e).assetsIter ++ es.map asset).Perm
          (s.1.assetsIter ++ (e :: es).map asset) := by
        simpa using hp.append_right (es.map asset)
      obtain ⟨left, h1, h2⟩ := hi (ins s.1 e, s.2) ((hq.map _).nodup_iff.mpr hn)
      have ht : takeLimit (limit.map (· - s.1.len)) ((e :: es).filter p) =
          e :: takeLimit (limit.map (· - (ins s.1 e).len)) (es.filter p) := by
        rw [List.filter_cons_of_pos h.1, hlen]
        cases limit
        case none => rfl
        case some n =>
          have hs : n - s.1.len = n - (s.1.len + 1) + 1 := by
            have := h.2
            simp at this
            omega
          simp only [map_some, takeLimit, elim_some, hs, List.take_succ_cons]
      rw [ht]
      exact ⟨left, h1.cons e, h2⟩
    · obtain ⟨left, h1, h2⟩ := hi (s.1, ins s.2 e) (by
        refine hn.sublist (List.Sublist.map _ ?_)
        exact (List.sublist_cons_self _ _).append_left _)
      have ht : takeLimit (limit.map (· - s.1.len)) ((e :: es).filter p) =
          takeLimit (limit.map (· - s.1.len)) (es.filter p) := by
        by_cases hp : p e
        · cases limit
          case none => simp [hp] at h
          case some n =>
            have hz : n - s.1.len = 0 := by
              simp [hp] at h
              omega
            simp [takeLimit, hz]
        · rw [List.filter_cons_of_neg hp]
      rw [ht]
      exact ⟨e :: left, (h1.cons e).trans List.perm_middle.symm, h2⟩

theorem splitStep_spec (h1 : ((s.1.assetsIter ++ es.map asset).map Asset.key).Nodup)
    (h2 : ((s.2.assetsIter ++ es.map asset).map Asset.key).Nodup) :
    (es.foldl (splitStep ins p limit) s).1.assetsIter.Perm
      (s.1.assetsIter ++ takeLimit (limit.map (· - s.1.len)) ((es.filter p).map asset)) ∧
    ((es.foldl (splitStep ins p limit) s).1.assetsIter ++
      (es.foldl (splitStep ins p limit) s).2.assetsIter).Perm
      (s.1.assetsIter ++ s.2.assetsIter ++ es.map asset) := by
  obtain ⟨left, hp, hf⟩ := foldl_splitStep hins p limit s h1
  have hm := hp.map asset
  rw [map_append] at hm
  have ht : (takeLimit (limit.map (· - s.1.len)) (es.filter p)).map asset =
      takeLimit (limit.map (· - s.1.len)) ((es.filter p).map asset) := by
    cases limit
    case none => rfl
    case some n => exact List.map_take
  generalize takeLimit (limit.map (· - s.1.len)) (es.filter p) = taken at *
  have hd {l : List (Asset AssetId AssetInstance)} (h : ((l ++ es.map asset).map Asset.key).Nodup) :
      ((l ++ (taken.map asset ++ left.map asset)).map Asset.key).Nodup :=
    ((hm.append_left l).map Asset.key).nodup_iff.mp h
  have hk := perm_foldl hins
    ((hd h1).sublist (((List.sublist_append_left _ _).append_left _).map _))
  have hl := perm_foldl hins
    ((hd h2).sublist (((List.sublist_append_right _ _).append_left _).map _))
  rw [hf, ← ht]
  refine ⟨hk, (hk.append hl).trans (.trans ?_ (hm.symm.append_left _))⟩
  rw [← Multiset.coe_eq_coe]
  simp only [← Multiset.coe_add]
  ac_rfl

end Loop

-- What has been taken is the list, and with what is left it is the whole.
structure Takes (whole : AssetsInHolding AssetId AssetInstance) (s : Split AssetId AssetInstance)
    (l : List (Asset AssetId AssetInstance)) : Prop where
  taken : s.1.assetsIter.Perm l
  all : (s.1.assetsIter ++ s.2.assetsIter).Perm whole.assetsIter

section Wild

theorem nodup_parts (self : AssetsInHolding AssetId AssetInstance) :
    (self.fungibleAssetsIter.map Asset.key).Nodup ∧
      (self.nonFungibleAssetsIter.map Asset.key).Nodup := by
  have h : (self.assetsIter.map Asset.key).Nodup := nodup_assetsIter
  rw [assetsIter, map_append, nodup_append] at h
  exact ⟨h.1, h.2.1⟩

theorem assetsIter_empty : ({} : AssetsInHolding AssetId AssetInstance).assetsIter = [] := by
  simp [assetsIter, fungibleAssetsIter, nonFungibleAssetsIter]

theorem len_empty : ({} : AssetsInHolding AssetId AssetInstance).len = 0 := by
  rw [← length_assetsIter, assetsIter_empty, List.length_nil]

theorem perm_insertFungible_empty (e : AssetId × Nat) :
    (({} : AssetsInHolding AssetId AssetInstance).insertFungible e).assetsIter.Perm
      [fungibleAsset e] := by
  refine (perm_insertFungible ?_).trans ?_
  · rw [assetsIter_empty]
    exact List.not_mem_nil
  · rw [assetsIter_empty]
    exact .refl _

theorem nodup_empty_append (h : (l.map Asset.key).Nodup) :
    ((({} : AssetsInHolding AssetId AssetInstance).assetsIter ++ l).map Asset.key).Nodup := by
  exact h

-- Taking fungible assets does not touch the others.
theorem foldl_fungible_clear (es : List (AssetId × Nat))
    (s : Split AssetId AssetInstance) (n : Nat) :
    (((es.foldl (fun s e => Split.fungible (s.1.len < n) s e) s).1,
      { (es.foldl (fun s e => Split.fungible (s.1.len < n) s e) s).2 with nonFungible := ∅ }) :
        Split AssetId AssetInstance) =
      es.foldl (splitStep insertFungible (fun _ => true) (some n))
        (s.1, { s.2 with nonFungible := ∅ }) := by
  induction es generalizing s
  case nil => rfl
  case cons e es hi =>
    rw [foldl_cons, foldl_cons, hi, splitStep, Split.fungible]
    simp only [Option.all_some, true_and]
    split_ifs <;> rfl

-- The first ones are taken, up to the limit, and the others are left.
theorem takeLimited_spec (n : Nat) : self.Takes (self.takeLimited n) (self.assetsIter.take n) := by
  have hs : (fun (s : Split AssetId AssetInstance) (e : AssetId ×ₗ AssetInstance) =>
      Split.nonFungible (s.1.len < n) s e) =
        splitStep insertNonFungible (fun _ => true) (some n) := by
    funext s e
    simp [Split.nonFungible, splitStep]
  have hf := foldl_fungible_clear self.fungible.toList ({}, { self with fungible := ∅ }) n
  rw [takeLimited]
  simp only [hs, hf]
  obtain ⟨h1, h2⟩ := splitStep_spec (fun _ _ => perm_insertFungible) (fun _ => true) (some n)
    (({}, {}) : Split AssetId AssetInstance) (nodup_empty_append self.nodup_parts.1)
      (nodup_empty_append self.nodup_parts.1)
  generalize self.fungible.toList.foldl (splitStep insertFungible (fun _ => true) (some n))
    (({}, {}) : Split AssetId AssetInstance) = s at *
  simp only [assetsIter_empty, len_empty, filter_true, nil_append, map_some, Nat.sub_zero,
    takeLimit, elim_some] at h1 h2
  have hn : ((s.1.assetsIter ++ s.2.assetsIter ++ self.nonFungibleAssetsIter).map
      Asset.key).Nodup :=
    ((h2.append_right _).map _).nodup_iff.mpr nodup_assetsIter
  obtain ⟨h3, h4⟩ := splitStep_spec (fun _ _ => perm_insertNonFungible) (fun _ => true) (some n) s
    (hn.sublist (((List.sublist_append_left _ _).append_right _).map _))
    (hn.sublist (((List.sublist_append_right _ _).append_right _).map _))
  have hl : n - s.1.len = n - self.fungibleAssetsIter.length := by
    rw [← length_assetsIter, h1.length_eq, List.length_take, fungibleAssetsIter, List.length_map]
    omega
  simp only [filter_true, map_some, hl] at h3
  have ht : self.assetsIter.take n = self.fungibleAssetsIter.take n ++
      self.nonFungibleAssetsIter.take (n - self.fungibleAssetsIter.length) := List.take_append
  rw [ht]
  exact ⟨h3.trans (h1.append_right _), h4.trans (h2.append_right _)⟩

theorem takeOfNonFungible_spec (id : AssetId) : self.Takes (self.takeOfNonFungible limit id)
    (takeLimit limit (self.nonFungibleAssetsIter.filter fun a => a.id = id)) := by
  have hs : (fun (s : Split AssetId AssetInstance) (e : AssetId ×ₗ AssetInstance) =>
      Split.nonFungible ((ofLex e).1 = id ∧ limit.all (s.1.len < ·)) s e) =
      splitStep insertNonFungible (fun e => (ofLex e).1 = id) limit := by
    funext s e
    simp [Split.nonFungible, splitStep]
  have hb : ({ self with nonFungible := ∅ } : AssetsInHolding AssetId AssetInstance).assetsIter =
      self.fungibleAssetsIter := by
    simp [assetsIter, fungibleAssetsIter, nonFungibleAssetsIter]
  obtain ⟨h1, h2⟩ := splitStep_spec (fun _ _ => perm_insertNonFungible) (fun e =>
    (ofLex e).1 = id) limit
    ({}, { self with nonFungible := ∅ }) (nodup_empty_append self.nodup_parts.2)
    (by rw [hb]; exact nodup_assetsIter)
  have hm : (self.nonFungible.toList.filter fun e => (ofLex e).1 = id).map nonFungibleAsset =
      self.nonFungibleAssetsIter.filter fun a => a.id = id := by
    rw [nonFungibleAssetsIter, List.filter_map]
    rfl
  simp only [len_empty, Nat.sub_zero, Option.map_id', hb, hm] at h1 h2
  rw [takeOfNonFungible, hs]
  exact ⟨h1, h2⟩

theorem filter_nonFungible (id : AssetId) :
    (self.assetsIter.filter fun a => a.fungibility.isKind .nonFungible ∧ a.id = id) =
      self.nonFungibleAssetsIter.filter fun a => a.id = id := by
  rw [assetsIter, List.filter_append, List.filter_eq_nil_iff.mpr]
  · apply List.filter_congr
    intro a ha
    obtain ⟨e, _, rfl⟩ := mem_map.mp ha
    simp [Fungibility.isKind]
  · intro a ha
    obtain ⟨e, _, rfl⟩ := mem_map.mp ha
    simp [Fungibility.isKind]

theorem filter_fungible (self : AssetsInHolding AssetId AssetInstance) (id : AssetId) :
    (self.assetsIter.filter fun a => a.fungibility.isKind .fungible ∧ a.id = id).Perm
      (self.fungible[id]?.map fun amount => ⟨id, .fungible amount⟩).toList := by
  rw [List.perm_ext_iff_of_nodup]
  · rintro ⟨i, amount | inst⟩
    · rw [List.mem_filter, mem_assetsIter_fungible]
      cases h : self.fungible[id]? <;> simp [Fungibility.isKind] <;> grind
    · rw [List.mem_filter]
      cases h : self.fungible[id]? <;> simp [Fungibility.isKind]
  · exact (List.Nodup.of_map _ nodup_assetsIter).filter _
  · cases self.fungible[id]? <;> simp

theorem takeAll_spec (limit : Option Nat) :
    self.Takes (self.takeAll limit) (takeLimit limit self.assetsIter) := by
  cases limit
  case none => constructor <;> simp [takeAll, takeLimit, assetsIter_empty]
  case some n =>
    simp only [takeAll, takeLimit, elim_some]
    split_ifs with h1 h2
    · rw [List.take_of_length_le (length_assetsIter.trans_le h1)]
      constructor <;> simp [assetsIter_empty]
    · constructor <;> simp [h2, assetsIter_empty]
    · exact takeLimited_spec n

-- There is at most one fungible asset of an id, so a limit makes no difference unless it is zero.
theorem takeLimit_filter_fungible (h : limit.all (· ≥ 1) = true) :
    takeLimit limit (self.assetsIter.filter fun a => a.fungibility.isKind .fungible ∧ a.id = id) =
      self.assetsIter.filter fun a => a.fungibility.isKind .fungible ∧ a.id = id := by
  apply takeLimit_of_le
  rw [(filter_fungible self id).length_eq]
  cases limit
  case none => rfl
  case some n => cases self.fungible[id]? <;> simp_all

theorem insert_erase (h : self.fungible[id]? = some amount) :
    ({ self with fungible := self.fungible.erase id } :
      AssetsInHolding AssetId AssetInstance).insertFungible (id, amount) = self := by
  have hf : (self.fungible.erase id).insert id amount = self.fungible := by
    apply ExtTreeMap.ext_getElem?
    intro k
    rw [lookup_insert, lookup_erase]
    split_ifs with hk
    · rw [hk, h]
    · rfl
  rw [insertFungible, hf]

theorem takeOfFungible_spec (limit : Option Nat) (id : AssetId) :
    self.Takes (self.takeOfFungible limit id)
    (takeLimit limit (self.assetsIter.filter fun a =>
      a.fungibility.isKind .fungible ∧ a.id = id)) := by
  rw [takeOfFungible]
  split_ifs with hl
  · rw [takeLimit_filter_fungible hl]
    have hp := filter_fungible self id
    cases ha : self.fungible[id]?
    case none =>
      rw [ha] at hp
      exact ⟨by rw [assetsIter_empty]; exact hp.symm, by simp [assetsIter_empty]⟩
    case some amount =>
      let rest : AssetsInHolding AssetId AssetInstance :=
        { self with fungible := self.fungible.erase id }
      have hs : rest.insertFungible (id, amount) = self := insert_erase ha
      have hf : (fungibleAsset (id, amount)).key ∉ rest.assetsIter.map Asset.key := by
        rw [key_mem_fungible]
        simp [rest]
      have h1 : (({} : AssetsInHolding AssetId AssetInstance).insertFungible
        (id, amount)).assetsIter.Perm
          [fungibleAsset (id, amount)] := perm_insertFungible_empty _
      have h2 := perm_insertFungible hf
      rw [hs] at h2
      rw [ha] at hp
      exact ⟨h1.trans hp.symm, (h1.append_right _).trans (List.perm_append_comm.trans h2.symm)⟩
  · cases limit
    case none   => simp at hl
    case some n =>
      have hz : n = 0 := by simpa using hl
      constructor <;> simp [takeLimit, hz, assetsIter_empty]

theorem takeOf_spec (limit : Option Nat) (id : AssetId) (kind : WildFungibility) :
    self.Takes (self.takeOf limit id kind)
    (takeLimit limit (self.assetsIter.filter fun a => a.fungibility.isKind kind ∧ a.id = id)) := by
  cases kind
  case fungible => exact takeOfFungible_spec limit id
  case nonFungible =>
    rw [filter_nonFungible]
    exact takeOfNonFungible_spec id

theorem minAll_perm (h : limit.any (· = 0) = false) :
    (self.minAll limit).inner.Perm (takeLimit limit self.assetsIter) := by
  rw [minAll]
  split_ifs with hl
  · rw [takeLimit_of_le (by rw [length_assetsIter]; exact hl)]
    exact Assets.ofList_perm nodup_assetsIter
  · have hp := pushLimited_perm limit {} (l := self.assetsIter)
      (by cases limit <;> simp_all [Nat.pos_iff_ne_zero]) (by simpa using nodup_assetsIter)
    simpa using hp

theorem minOf_perm (h : limit.any (· = 0) = false) (id : AssetId) (kind : WildFungibility) :
    (self.minOf limit id kind).inner.Perm
      (takeLimit limit (self.assetsIter.filter fun a =>
        a.fungibility.isKind kind ∧ a.id = id)) := by
  cases kind
  case fungible =>
    have hl : limit.all (· ≥ 1) = true := by
      cases limit <;> simp_all [Nat.one_le_iff_ne_zero]
    rw [takeLimit_filter_fungible hl]
    refine .trans ?_ (filter_fungible self id).symm
    rw [minOf]
    cases self.fungible[id]?
    case none   => rfl
    case some n => exact Assets.push_perm (by simp)
  case nonFungible =>
    rw [filter_nonFungible]
    have hp := pushLimited_perm limit {}
      (l := self.nonFungibleAssetsIter.filter fun a => a.id = id)
      (by cases limit <;> simp_all [Nat.pos_iff_ne_zero])
      (self.nodup_parts.2.sublist (List.filter_sublist.map _))
    rw [minOf]
    simpa using hp

end Wild

-- What has been taken and what is left make up the whole.
structure Balanced (whole : AssetsInHolding AssetId AssetInstance)
    (s : Split AssetId AssetInstance) : Prop where
  amount : ∀ id, s.1.amountOf id + s.2.amountOf id = whole.amountOf id
  mem : ∀ e, e ∈ s.1.nonFungible ∨ e ∈ s.2.nonFungible ↔ e ∈ whole.nonFungible
  disjoint : ∀ e, e ∈ s.1.nonFungible → e ∉ s.2.nonFungible

theorem sum_of_key {es : List (AssetId × Nat)} (hn : (es.map (·.1)).Nodup) :
    (∀ amount, (id, amount) ∈ es → (es.map fun e => if e.1 = id then e.2 else 0).sum = amount) ∧
      ((∀ amount, (id, amount) ∉ es) → (es.map fun e => if e.1 = id then e.2 else 0).sum = 0) := by
  induction es
  case nil => simp
  case cons e es hi =>
    have ⟨he, hn⟩ := nodup_cons.mp hn
    have ⟨h1, h2⟩ := hi hn
    rw [List.map_cons, List.sum_cons]
    by_cases hk : e.1 = id
    · have ho : ∀ amount, (id, amount) ∉ es := fun amount hm => he (mem_map.mpr ⟨_, hm, hk.symm⟩)
      rw [h2 ho, if_pos hk, Nat.add_zero]
      refine ⟨fun amount hm => ?_, fun h => absurd List.mem_cons_self (hk ▸ h e.2)⟩
      rcases mem_cons.mp hm with hm | hm
      · rw [← hm]
      · exact absurd hm (ho amount)
    · rw [if_neg hk, Nat.zero_add]
      refine ⟨fun amount hm => h1 amount ?_, fun h => h2 fun amount hm =>
        h amount (List.mem_cons_of_mem _ hm)⟩
      rcases mem_cons.mp hm with hm | hm
      · exact absurd (congrArg Prod.fst hm).symm hk
      · exact hm

theorem total_assetsIter (self : AssetsInHolding AssetId AssetInstance) (id : AssetId) :
    total self.assetsIter id = self.amountOf id := by
  have hz : total self.nonFungibleAssetsIter id = 0 := by
    rw [total, List.sum_eq_zero_iff]
    intro n hn
    obtain ⟨a, ha, rfl⟩ := mem_map.mp hn
    obtain ⟨e, _, rfl⟩ := mem_map.mp ha
    rfl
  have hf : total self.fungibleAssetsIter id =
      (self.fungible.toList.map fun e => if e.1 = id then e.2 else 0).sum := by
    rw [total, fungibleAssetsIter, map_map]
    rfl
  obtain ⟨h1, h2⟩ := sum_of_key self.fungible.nodup_keys_toList
  rw [assetsIter, total_append, hz, hf, amountOf]
  cases ha : self.fungible[id]?
  case none        => exact h2 (ExtTreeMap.lookup_toList_find.1.mp ha)
  case some amount => exact h1 amount (ExtTreeMap.mem_toList_iff_getElem?_eq_some.mpr ha)

theorem balanced_of_perm (h : (s.1.assetsIter ++ s.2.assetsIter).Perm self.assetsIter) :
    Balanced self s := by
  have hn := (h.map Asset.key).nodup_iff.mpr nodup_assetsIter
  rw [map_append, nodup_append] at hn
  refine ⟨fun id => ?_, fun e => ?_, fun e h1 h2 => ?_⟩
  · rw [← total_assetsIter, ← total_assetsIter, ← total_append, total_perm h, total_assetsIter]
  · obtain ⟨id, inst⟩ := e
    have hm := h.mem_iff (a := ⟨id, .nonFungible inst⟩)
    rw [mem_append] at hm
    simp only [mem_assetsIter_nonFungible] at hm
    exact hm
  · obtain ⟨id, inst⟩ := e
    exact hn.2.2 _ (key_mem_nonFungible.mpr h1) _ (key_mem_nonFungible.mpr h2) rfl

section Definite

variable {s : Split AssetId AssetInstance}

theorem subsumeAssets_single (h : id ∉ self.fungible) :
    self.subsumeAssets { fungible := (∅ : ExtTreeMap AssetId Nat).insert id amount } =
      self.insertFungible (id, amount) := by
  have he : (∅ : ExtTreeSet (AssetId ×ₗ AssetInstance)).toList = [] := by simp
  simp [subsumeAssets, ExtTreeMap.toList_insert_empty, subsumeFungible, h, he]

theorem lookup_left {t : ExtTreeMap AssetId Nat} {id j : AssetId} {left : Nat} :
    (if left = 0 then t.erase id else t.insert id left)[j]? =
      if j = id then (if left = 0 then none else some left) else t[j]? := by
  split_ifs <;> simp_all [lookup_insert, lookup_erase]

-- One definite asset moves as much of it as there is to what has been taken.
theorem definite_step (h : a.key ∉ s.1.assetsIter.map Asset.key) :
    (Split.definite s a).1.assetsIter.Perm (s.1.assetsIter ++ (s.2.maskDefinite a).toList) ∧
      (∀ b : Asset AssetId AssetInstance, b.key ≠ a.key →
        (Split.definite s a).2.maskDefinite b = s.2.maskDefinite b) ∧
      ∀ whole, Balanced whole s → Balanced whole (Split.definite s a) := by
  obtain ⟨id, amount | inst⟩ := a
  · rw [key_mem_fungible] at h
    rw [Split.definite, maskDefinite]
    cases hm : s.2.fungible[id]?
    case none   => simp
    case some m =>
      dsimp only
      rw [subsumeAssets_single h]
      refine ⟨perm_insertFungible (by rwa [key_mem_fungible]), fun b hb => ?_, fun whole hw => ?_⟩
      · obtain ⟨j, x | x⟩ := b
        · have hj : j ≠ id := by
            rintro rfl
            simp [Asset.key] at hb
          simp only [maskDefinite, lookup_left, if_neg hj]
        · rfl
      · refine ⟨fun j => ?_, hw.mem, hw.disjoint⟩
        rw [← hw.amount j]
        simp only [amountOf, insertFungible, lookup_left, lookup_insert]
        by_cases hj : j = id
        · rw [if_pos hj, if_pos hj, hj, ExtTreeMap.getElem?_eq_none h, hm]
          split_ifs with hz
          · simp
            omega
          · simp
        · rw [if_neg hj, if_neg hj]
  · rw [key_mem_nonFungible] at h
    rw [Split.definite, maskDefinite]
    dsimp only
    split_ifs with hm
    · refine ⟨perm_insertNonFungible (by rwa [key_mem_nonFungible]),
        fun b hb => ?_, fun whole hw => ?_⟩
      · obtain ⟨j, x | x⟩ := b
        · rfl
        · have hj : toLex (id, inst) ≠ toLex (j, x) := by
            intro he
            simp_all
          simp [maskDefinite, hj]
      · rw [ExtTreeSet.contains_iff_mem] at hm
        refine ⟨hw.amount, fun e => ?_, fun e h1 h2 => ?_⟩
        · rw [← hw.mem e]
          simp only [insertNonFungible, mem_insert, mem_erase, ne_eq,
            Std.LawfulEqCmp.compare_eq_iff_eq]
          grind
        · simp only [insertNonFungible, mem_insert, mem_erase, ne_eq,
            Std.LawfulEqCmp.compare_eq_iff_eq] at h1 h2
          exact hw.disjoint e (h1.resolve_left h2.1) h2.2
    · simp

theorem key_maskDefinite (h : self.maskDefinite a = some b) : b.key = a.key := by
  obtain ⟨id, amount | inst⟩ := a
  · obtain ⟨m, _, rfl⟩ := Option.map_eq_some_iff.mp h
    rfl
  · rw [maskDefinite] at h
    dsimp only at h
    split_ifs at h
    rw [← Option.some.inj h]

theorem nodup_masked (hn : ((x ++ a :: l).map Asset.key).Nodup)
    (hp : y.Perm (x ++ (self.maskDefinite a).toList)) : ((y ++ l).map Asset.key).Nodup := by
  refine ((hp.append_right l).map _).nodup_iff.mpr ?_
  cases hm : self.maskDefinite a
  case none =>
    refine hn.sublist (List.Sublist.map _ ?_)
    simp
  case some b =>
    have hk := key_maskDefinite hm
    simpa [hk] using hn

omit [LinearOrder AssetId] [LinearOrder AssetInstance] in
theorem perm_filterMap_cons {f : Asset AssetId AssetInstance → Option (Asset AssetId AssetInstance)}
    (hp : y.Perm (x ++ (f a).toList)) : (y ++ l.filterMap f).Perm (x ++ (a :: l).filterMap f) := by
  have hq := hp.append_right (l.filterMap f)
  rw [List.append_assoc] at hq
  rw [List.filterMap_cons]
  cases hs : f a <;> rw [hs] at hq <;> exact hq

-- By induction on the definite assets, of which none comes twice.
theorem foldl_definite (hn : ((s.1.assetsIter ++ l).map Asset.key).Nodup) :
    (l.foldl Split.definite s).1.assetsIter.Perm (s.1.assetsIter ++ l.filterMap s.2.maskDefinite) ∧
      ∀ whole, Balanced whole s → Balanced whole (l.foldl Split.definite s) := by
  induction l generalizing s
  case nil => simp
  case cons a l hi =>
    have hd := hn
    rw [map_append, nodup_append] at hn
    obtain ⟨hp, hm, hb⟩ := definite_step (Assets.fresh_of_nodup hd)
    have ⟨ha, hl⟩ := nodup_cons.mp hn.2.1
    have hk : ∀ b ∈ l, b.key ≠ a.key := fun b hb he => ha (he ▸ List.mem_map_of_mem hb)
    have hf : l.filterMap (Split.definite s a).2.maskDefinite = l.filterMap s.2.maskDefinite :=
      List.filterMap_congr fun b hb => hm b (hk b hb)
    obtain ⟨h1, h2⟩ := hi (s := Split.definite s a) (nodup_masked hd hp)
    rw [hf] at h1
    exact ⟨h1.trans (perm_filterMap_cons hp), fun whole hw => h2 whole (hb whole hw)⟩

theorem foldl_push (masked : Assets AssetId AssetInstance)
    (hn : ((masked.inner ++ l).map Asset.key).Nodup) :
    (l.foldl (fun masked a => (self.maskDefinite a).elim masked masked.push) masked).inner.Perm
      (masked.inner ++ l.filterMap self.maskDefinite) := by
  induction l generalizing masked
  case nil => simp
  case cons a l hi =>
    have hp : ((self.maskDefinite a).elim masked masked.push).inner.Perm
        (masked.inner ++ (self.maskDefinite a).toList) := by
      cases hm : self.maskDefinite a
      case none => simp
      case some b =>
        apply Assets.push_perm
        rw [key_maskDefinite hm]
        exact Assets.fresh_of_nodup hn
    exact (hi _ (nodup_masked hn hp)).trans (perm_filterMap_cons hp)

theorem ensureAsset_eq_ok : self.ensureAsset a = .ok () ↔ self.containsAsset a = true := by
  obtain ⟨id, amount | inst⟩ := a
  · rw [ensureAsset, containsAsset]
    cases self.fungible[id]? <;> simp
  · rw [ensureAsset, containsAsset]
    dsimp only
    split_ifs <;> simp_all

theorem ensureContains_eq_ok :
    self.ensureContains assets = .ok () ↔ self.containsAssets assets = true := by
  rw [ensureContains, containsAssets]
  induction assets.inner
  case nil => simp [pure, Except.pure]
  case cons a l hi =>
    rw [List.forM_cons, List.all_cons, Bool.and_eq_true, ← hi, ← ensureAsset_eq_ok,
      Except.bind_eq_ok]
    exact ⟨fun ⟨_, h1, h2⟩ => ⟨h1, h2⟩, fun ⟨h1, h2⟩ => ⟨(), h1, h2⟩⟩

end Definite

-- The assets of a wildcard, its count apart.
def covers (wild : WildAsset AssetId) (a : Asset AssetId AssetInstance) : Bool :=
  match wild with
  | .all => true
  | .allCounted _ => true
  | .allOf id kind => a.fungibility.isKind kind ∧ a.id = id
  | .allOfCounted id kind _ => a.fungibility.isKind kind ∧ a.id = id

-- What a filter selects: as much as there is of each definite asset, or the
-- first assets of the wildcard.
def selected (self : AssetsInHolding AssetId AssetInstance)
    (mask : AssetFilter AssetId AssetInstance) :
    List (Asset AssetId AssetInstance) :=
  match mask with
  | .definite assets => assets.inner.filterMap self.maskDefinite
  | .wild wild => takeLimit mask.limit (self.assetsIter.filter (covers wild))

def takeSplit (self : AssetsInHolding AssetId AssetInstance)
    (mask : AssetFilter AssetId AssetInstance) :
    Split AssetId AssetInstance :=
  match mask with
  | .wild .all => self.takeAll mask.limit
  | .wild (.allCounted _) => self.takeAll mask.limit
  | .wild (.allOf id kind) => self.takeOf mask.limit id kind
  | .wild (.allOfCounted id kind _) => self.takeOf mask.limit id kind
  | .definite assets => assets.inner.foldl Split.definite ({}, self)

theorem generalTake_saturating (mask : AssetFilter AssetId AssetInstance) :
    self.generalTake mask true = (.ok (self.takeSplit mask).1, (self.takeSplit mask).2) := by
  rcases mask with _ | (_ | _ | _ | _) <;> rfl

variable {mask : AssetFilter AssetId AssetInstance}

theorem takeSplit_spec (self : AssetsInHolding AssetId AssetInstance)
    (h : ∀ assets, mask = .definite assets → Canonical assets.inner) :
    (self.takeSplit mask).1.assetsIter.Perm (self.selected mask) ∧
      Balanced self (self.takeSplit mask) := by
  have hbalanced {s l} (ht : self.Takes s l) : s.1.assetsIter.Perm l ∧ Balanced self s :=
    ⟨ht.taken, balanced_of_perm ht.all⟩
  have hall (limit : Option Nat) : self.Takes (self.takeAll limit)
      (takeLimit limit (self.assetsIter.filter fun _ => true)) := by
    rw [filter_true]
    exact takeAll_spec limit
  rcases mask with assets | (_ | ⟨id, kind⟩ | n | ⟨id, kind, n⟩)
  · have hn : (((({} : AssetsInHolding AssetId AssetInstance).assetsIter) ++ assets.inner).map
        Asset.key).Nodup :=
      nodup_empty_append (pairwise_map.mpr ((h assets rfl).imp ne_of_lt))
    obtain ⟨h1, h2⟩ := foldl_definite (s := ({}, self)) hn
    exact ⟨h1, h2 self (balanced_of_perm (by rw [assetsIter_empty]; exact .refl _))⟩
  · exact hbalanced (hall none)
  · exact hbalanced (takeOf_spec none id kind)
  · exact hbalanced (hall (some n))
  · exact hbalanced (takeOf_spec (some n) id kind)

theorem min_spec (h : ∀ assets, mask = .definite assets → Canonical assets.inner) :
    (self.min mask).inner.Perm (self.selected mask) := by
  unfold AssetsInHolding.min
  split_ifs with hl
  · rcases mask with assets | (_ | _ | n | ⟨id, kind, n⟩)
    case wild.allCounted => simp_all [AssetFilter.limit, selected, takeLimit]
    case wild.allOfCounted => simp_all [AssetFilter.limit, selected, takeLimit]
    all_goals simp [AssetFilter.limit] at hl
  · rw [Bool.not_eq_true] at hl
    have hall : (self.minAll mask.limit).inner.Perm
        (takeLimit mask.limit (self.assetsIter.filter fun _ => true)) := by
      rw [filter_true]
      exact minAll_perm hl
    rcases mask with assets | (_ | ⟨id, kind⟩ | n | ⟨id, kind, n⟩)
    · exact foldl_push {} (pairwise_map.mpr ((h assets rfl).imp ne_of_lt))
    · exact hall
    · exact minOf_perm hl id kind
    · exact hall
    · exact minOf_perm hl id kind

theorem length_selected
    (h : AssetFilter.limit (.wild wild : AssetFilter AssetId AssetInstance) = some count) :
    (self.selected (.wild wild)).length =
      Nat.min count (self.assetsIter.filter wild.contains).length := by
  rw [selected, h, takeLimit, elim_some, List.length_take]
  cases count
  case zero => simp
  case succ count =>
    have hc : (covers wild : Asset AssetId AssetInstance → Bool) = wild.contains := by
      rcases wild with _ | _ | n | ⟨id, kind, n⟩ <;> simp [AssetFilter.limit] at h
        <;> subst h <;> rfl
    rw [hc]

theorem tryTake_cases (self : AssetsInHolding AssetId AssetInstance)
    (mask : AssetFilter AssetId AssetInstance) :
    (∃ assets e, mask = .definite assets ∧ self.containsAssets assets = false ∧
      self.tryTake mask = (.error e, self)) ∨
    (∀ assets, mask = .definite assets → self.containsAssets assets = true) ∧
      self.tryTake mask = (.ok (self.takeSplit mask).1, (self.takeSplit mask).2) := by
  rcases mask with assets | (_ | _ | _ | _)
  case definite =>
    have hc : self.ensureContains assets = .ok () ↔ self.containsAssets assets = true :=
      ensureContains_eq_ok
    rw [tryTake, generalTake]
    cases he : self.ensureContains assets
    case error e =>
      refine .inl ⟨assets, e, rfl, ?_, by simp⟩
      rw [← Bool.not_eq_true, ← hc, he]
      intro h
      cases h
    case ok u =>
      refine .inr ⟨?_, by simp [takeSplit]⟩
      rintro _ ⟨⟩
      exact hc.mp he
  all_goals
    refine .inr ⟨fun _ h => ?_, rfl⟩
    cases h

-- Taking from a holding is exact, for every holding and every filter.
theorem take_exact (self : AssetsInHolding AssetId AssetInstance)
    (mask : AssetFilter AssetId AssetInstance)
    (h : ∀ assets, mask = .definite assets → Canonical assets.inner) :
    ∃ taken rest, self.saturatingTake mask = (some taken, rest) ∧
      (self.min mask).inner.Perm taken.assetsIter ∧
      Balanced self (taken, rest) ∧
      ((∃ e, (self.tryTake mask).1 = .error e) ↔
        ∃ assets, mask = .definite assets ∧ self.containsAssets assets = false) ∧
      (∀ e, (self.tryTake mask).1 = .error e → (self.tryTake mask).2 = self) ∧
      (∀ t, (self.tryTake mask).1 = .ok t → t = taken ∧ (self.tryTake mask).2 = rest) ∧
      ∀ wild count, mask = .wild wild → mask.limit = some count →
        taken.len = Nat.min count (self.assetsIter.filter wild.contains).length := by
  obtain ⟨hp, hb⟩ := takeSplit_spec self h
  refine ⟨(self.takeSplit mask).1, (self.takeSplit mask).2, ?_, (min_spec h).trans hp.symm, hb, ?_⟩
  · rw [saturatingTake, generalTake_saturating]
    rfl
  rw [← and_assoc, ← and_assoc]
  refine ⟨?_, ?_⟩
  · rcases tryTake_cases self mask with ⟨assets, e, ha, hc, he⟩ | ⟨hc, he⟩ <;> rw [he]
    · exact ⟨⟨⟨fun _ => ⟨assets, ha, hc⟩, fun _ => ⟨e, rfl⟩⟩, fun _ _ => rfl⟩, nofun⟩
    · refine ⟨⟨⟨nofun, ?_⟩, nofun⟩, ?_⟩
      · rintro ⟨assets, ha, hf⟩
        exact absurd (hc assets ha) (by rw [hf]; decide)
      · rintro t ⟨⟩
        exact ⟨rfl, rfl⟩
  · rintro wild count rfl hl
    rw [← length_assetsIter, hp.length_eq, length_selected hl]

-- Two fungible assets and two instances of a third one.
def sampleMixed : AssetsInHolding Nat Nat where
  fungible := ((∅ : ExtTreeMap Nat Nat).insert 1 7).insert 2 4
  nonFungible := ((∅ : ExtTreeSet (Nat ×ₗ Nat)).insert (toLex (3, 10))).insert (toLex (3, 11))

-- More than there is of one of the assets.
def sampleDefinite : AssetFilter Nat Nat :=
  .definite ⟨[⟨1, .fungible 3⟩, ⟨2, .fungible 9⟩, ⟨3, .nonFungible 10⟩]⟩

def sampleWild : AssetFilter Nat Nat :=
  .wild (.allOfCounted 3 .nonFungible 1)

theorem sampleMixed_take_exact :
    (∃ taken rest, sampleMixed.saturatingTake sampleDefinite = (some taken, rest) ∧
      (sampleMixed.min sampleDefinite).inner.Perm taken.assetsIter ∧
        Balanced sampleMixed (taken, rest) ∧
      (∃ e, (sampleMixed.tryTake sampleDefinite).1 = .error e) ∧
      (sampleMixed.tryTake sampleDefinite).2 = sampleMixed) ∧
    ∃ taken rest, sampleMixed.saturatingTake sampleWild = (some taken, rest) ∧
      (sampleMixed.min sampleWild).inner.Perm taken.assetsIter ∧
        Balanced sampleMixed (taken, rest) ∧
      (sampleMixed.tryTake sampleWild).2 = rest ∧ taken.len = 1 := by
  have hcanonical : Canonical
      ([⟨1, .fungible 3⟩, ⟨2, .fungible 9⟩, ⟨3, .nonFungible 10⟩] : List (Asset Nat Nat)) := by
    simp [Canonical, Asset.key, Prod.Lex.toLex_lt_toLex]
  obtain ⟨t₁, r₁, hs₁, hm₁, hb₁, he₁, hf₁, -, -⟩ := take_exact sampleMixed sampleDefinite (by
    rintro _ ⟨⟩
    exact hcanonical)
  obtain ⟨t₂, r₂, hs₂, hm₂, hb₂, -, -, ho₂, hl₂⟩ := take_exact sampleMixed sampleWild (by
    rintro _ ⟨⟩)
  have herror : ∃ e, (sampleMixed.tryTake sampleDefinite).1 = .error e :=
    he₁.mpr ⟨_, rfl, by decide +kernel⟩
  refine ⟨⟨t₁, r₁, hs₁, hm₁, hb₁, herror, herror.elim hf₁⟩, t₂, r₂, hs₂, hm₂, hb₂,
    (ho₂ _ rfl).2, ?_⟩
  rw [hl₂ _ 1 rfl rfl]
  decide +kernel

end AssetsInHolding

end Xcm
