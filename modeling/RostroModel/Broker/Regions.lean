import RostroModel.Broker.Tick

namespace Broker

open Function (update update_of_ne update_self)

variable {Account : Type}

-- The least amount of coretime: one part of a core for one timeslice.
structure Cell where
  core : Nat
  timeslice : Nat
  bit : Fin 80

def cells (id : RegionId) («end» : Nat) : Set Cell :=
  { x | x.core = id.core ∧ id.begin ≤ x.timeslice ∧ x.timeslice < «end» ∧
    x.bit ∈ BitMask.ones id.mask }

instance (id : RegionId) («end» : Nat) (x : Cell) : Decidable (x ∈ cells id «end») :=
  inferInstanceAs (Decidable (_ ∧ _ ∧ _ ∧ _))

variable {id : RegionId}

theorem mem_cells {n : Nat} {x : Cell} : x ∈ cells id n ↔
      x.core = id.core ∧ id.begin ≤ x.timeslice ∧ x.timeslice < n ∧ x.bit ∈ BitMask.ones id.mask :=
  .rfl

theorem cells_subset {id id' : RegionId} {n n' : Nat} (hc : id'.core = id.core)
    (hb : id.begin ≤ id'.begin) (he : n' ≤ n) (hm : BitMask.ones id'.mask ⊆ BitMask.ones id.mask) :
    cells id' n' ⊆ cells id n := by
  intro x h
  exact ⟨h.1.trans hc, hb.trans h.2.1, lt_of_lt_of_le h.2.2.1 he, hm h.2.2.2⟩

theorem cells_partition {n pivot : Nat} (hb : id.begin ≤ pivot) (he : pivot ≤ n) :
    cells id pivot ∪ cells { id with begin := pivot } n = cells id n ∧
      Disjoint (cells id pivot) (cells { id with begin := pivot } n) := by
  constructor
  · ext x
    constructor
    · rintro (h | h)
      · exact ⟨h.1, h.2.1, h.2.2.1.trans_le he, h.2.2.2⟩
      · exact ⟨h.1, hb.trans h.2.1, h.2.2⟩
    · intro h
      rcases Nat.lt_or_ge x.timeslice pivot with hp | hp
      · exact .inl ⟨h.1, h.2.1, hp, h.2.2.2⟩
      · exact .inr ⟨h.1, hp, h.2.2⟩
  · rw [Set.disjoint_left]
    intro x h h'
    exact absurd h.2.2.1 (Nat.not_lt.mpr h'.2.1)

theorem cells_interlace {n : Nat} {pivot : CoreMask}
    (h : BitMask.ones pivot ⊆ BitMask.ones id.mask) :
    cells { id with mask := pivot } n ∪ cells { id with mask := id.mask ^^^ pivot } n = cells id n ∧
      Disjoint (cells { id with mask := pivot } n)
        (cells { id with mask := id.mask ^^^ pivot } n) := by
  constructor
  · ext x
    simp only [Set.mem_union, mem_cells, BitMask.ones_xor_of_subset h, Finset.mem_sdiff]
    constructor
    · rintro (hx | hx)
      · exact ⟨hx.1, hx.2.1, hx.2.2.1, h hx.2.2.2⟩
      · exact ⟨hx.1, hx.2.1, hx.2.2.1, hx.2.2.2.1⟩
    · intro hx
      by_cases hp : x.bit ∈ BitMask.ones pivot
      · exact .inl ⟨hx.1, hx.2.1, hx.2.2.1, hp⟩
      · exact .inr ⟨hx.1, hx.2.1, hx.2.2.1, hx.2.2.2, hp⟩
  · rw [Set.disjoint_left]
    intro x hx hx'
    rw [mem_cells, BitMask.ones_xor_of_subset h, Finset.mem_sdiff] at hx'
    exact hx'.2.2.2.2 hx.2.2.2

def issued (sale : Option SaleInfoRecord) : Set Cell :=
  { x | ∃ v, sale = some v ∧ x.timeslice < v.regionEnd ∧
      (x.timeslice < v.regionBegin ∨ x.core < v.firstCore + v.coresSold) }

abbrev Regions (Account : Type) := RegionId → Option (RegionRecord Account)

-- The live regions do not overlap, they were all issued by a sale, and each belongs to the account
-- to which its cells were last sold or transferred.
structure Sound (regions : Regions Account) (title : Cell → Option Account) (sold : Set Cell) :
    Prop where
  disjoint (id id' : RegionId) (r r' : RegionRecord Account) :
    regions id = some r → regions id' = some r' → id ≠ id' →
      Disjoint (cells id r.end) (cells id' r'.end)
  titled (id : RegionId) (r : RegionRecord Account) (x : Cell) :
    regions id = some r → x ∈ cells id r.end → r.owner.isSome ∧ title x = r.owner
  sold (id : RegionId) (r : RegionRecord Account) :
    regions id = some r → cells id r.end ⊆ sold

namespace Sound

variable {regions : Regions Account} {title : Cell → Option Account} {sold sold' : Set Cell}
  {id id' : RegionId} {r r' : RegionRecord Account}

variable (h : Sound regions title sold)
include h

theorem mono (hs : sold ⊆ sold') : Sound regions title sold' where
  disjoint := h.disjoint
  titled := h.titled
  sold id r hr _ hx := hs (h.sold id r hr hx)

theorem erase (id : RegionId) : Sound (update regions id none) title sold := by
  have hk : ∀ {k q}, update regions id none k = some q → regions k = some q := by
    intro k q hq
    by_cases he : k = id
    · rw [he, update_self] at hq
      cases hq
    · rwa [update_of_ne he] at hq
  constructor
  · intro k k' q q' hq hq'
    exact h.disjoint k k' q q' (hk hq) (hk hq')
  · intro k q x hq
    exact h.titled k q x (hk hq)
  · intro k q hq
    exact h.sold k q (hk hq)

theorem insert (hc : cells id r.end ⊆ sold)
    (ht : ∀ x ∈ cells id r.end, r.owner.isSome ∧ title x = r.owner)
    (hd : ∀ k q, k ≠ id → regions k = some q → Disjoint (cells id r.end) (cells k q.end)) :
    Sound (update regions id (some r)) title sold := by
  constructor
  · intro k k' q q' hq hq' hn
    by_cases he : k = id
    · subst he
      rw [update_self] at hq
      rw [update_of_ne (Ne.symm hn)] at hq'
      cases hq
      exact hd k' q' (Ne.symm hn) hq'
    · rw [update_of_ne he] at hq
      by_cases he' : k' = id
      · subst he'
        rw [update_self] at hq'
        cases hq'
        exact (hd k q he hq).symm
      · rw [update_of_ne he'] at hq'
        exact h.disjoint k k' q q' hq hq' hn
  · intro k q x hq
    by_cases he : k = id
    · subst he
      rw [update_self] at hq
      cases hq
      exact ht x
    · rw [update_of_ne he] at hq
      exact h.titled k q x hq
  · intro k q hq
    by_cases he : k = id
    · subst he
      rw [update_self] at hq
      cases hq
      exact hc
    · rw [update_of_ne he] at hq
      exact h.sold k q hq

theorem shrink (hr : regions id = some r) (hs : cells id' r'.end ⊆ cells id r.end)
    (ho : r'.owner = r.owner) :
    Sound (update (update regions id none) id' (some r')) title sold := by
  apply (h.erase id).insert
  · exact hs.trans (h.sold id r hr)
  · intro x hx
    rw [ho]
    exact h.titled id r x hr (hs hx)
  · intro k q hk hq
    by_cases he : k = id
    · rw [he, update_self] at hq
      cases hq
    · rw [update_of_ne he] at hq
      exact (h.disjoint id k r q hr hq (Ne.symm he)).mono_left hs

theorem split {r1 r2 : RegionRecord Account} (hr : regions id = some r)
    (h1 : cells id1 r1.end ⊆ cells id r.end) (h2 : cells id2 r2.end ⊆ cells id r.end)
    (hd : Disjoint (cells id1 r1.end) (cells id2 r2.end)) (ho1 : r1.owner = r.owner)
    (ho2 : r2.owner = r.owner) :
    Sound (update (update (update regions id none) id1 (some r1)) id2 (some r2))
      title sold := by
  apply (h.shrink hr h1 ho1).insert
  · exact h2.trans (h.sold id r hr)
  · intro x hx
    rw [ho2]
    exact h.titled id r x hr (h2 hx)
  · intro k q _ hq
    by_cases he : k = id1
    · rw [he, update_self] at hq
      cases hq
      exact he ▸ hd.symm
    · rw [update_of_ne he] at hq
      by_cases he' : k = id
      · rw [he', update_self] at hq
        cases hq
      · rw [update_of_ne he'] at hq
        exact (h.disjoint id k r q hr hq (Ne.symm he')).mono_left h2

end Sound

-- The cells of a region are given to an account.
def retitle (title : Cell → Option Account) (id : RegionId) («end» : Nat) (who : Account) :
    Cell → Option Account :=
  fun x => if x ∈ cells id «end» then some who else title x

variable {title : Cell → Option Account}

variable {who : Account}

theorem retitle_of_mem {n : Nat} {x : Cell} (h : x ∈ cells id n) :
    retitle title id n who x = some who :=
  if_pos h

theorem retitle_of_disjoint {n : Nat} {x : Cell} {t : Set Cell} (h : Disjoint (cells id n) t)
    (hx : x ∈ t) :
    retitle title id n who x = title x :=
  if_neg (Set.disjoint_right.mp h hx)

theorem Sound.retitle {regions : Regions Account} {sold : Set Cell} {r : RegionRecord Account}
    (h : Sound regions title sold) (ho : r.owner = some who) (hc : cells id r.end ⊆ sold)
    (hd : ∀ k q, k ≠ id → regions k = some q → Disjoint (cells id r.end) (cells k q.end)) :
    Sound (update regions id (some r)) (Broker.retitle title id r.end who) sold := by
  have he : Sound (update regions id none) (Broker.retitle title id r.end who) sold := by
    have h' := h.erase id
    refine ⟨h'.disjoint, ?_, h'.sold⟩
    intro k q x hq hx
    have hk : k ≠ id := by
      rintro rfl
      rw [update_self] at hq
      cases hq
    have hq' := hq
    rw [update_of_ne hk] at hq'
    rw [retitle_of_disjoint (hd k q hk hq') hx]
    exact h'.titled k q x hq hx
  have hi : Sound (update (update regions id none) id (some r)) _ sold := he.insert hc
    (fun x hx => ⟨ho ▸ rfl, (retitle_of_mem hx).trans ho.symm⟩)
    (by
      intro k q hk hq
      rw [update_of_ne hk] at hq
      exact hd k q hk hq)
  rwa [Function.update_idem] at hi

end Broker
