import RostroModel.Headers.Metadata
import Mathlib.Order.Basic
import Mathlib.Tactic.Common

namespace Headers

variable {H : Type}

-- A rooted tree of blocks. The number of a block says how far it is from the root.
structure BlockTree (H : Type) where
  header : H → Option (Header H)
  root : H
  first : ∃ h, header root = some h ∧ header h.parent = none
  parent : ∀ hash h, header hash = some h → hash ≠ root →
    ∃ p, header h.parent = some p ∧ h.number = p.number + 1

namespace BlockTree

variable {tree : BlockTree H} {a b c d : H} {h h' : Header H} {l l' : List (HashAndNumber H)}

-- The blocks from one down to an ancestor, which is excluded.
inductive Path (tree : BlockTree H) (c : H) : H → List (HashAndNumber H) → Prop
  | refl : Path tree c c []
  | step {b h p l} : tree.header b = some h → tree.header h.parent = some p →
    Path tree c h.parent l →
    Path tree c b (⟨h.number, b⟩ :: l)

-- The block or one of its ancestors.
def Above (tree : BlockTree H) (c b : H) : Prop :=
  ∃ l, tree.Path c b l

theorem Path.snoc (hp : tree.Path c b l) (hc : tree.header c = some h)
    (hd : tree.header h.parent = some h') :
    tree.Path h.parent b (l ++ [⟨h.number, c⟩]) := by
  induction hp
  case refl => exact .step hc hd .refl
  case step hb hpar hp hi => exact .step hb hpar hi

theorem Path.append (hp : tree.Path c b l) (hd : tree.Path d c l') : tree.Path d b (l ++ l') := by
  induction hp
  case refl => exact hd
  case step hb hpar hp hi => exact .step hb hpar hi

theorem Above.refl (b : H) : tree.Above b b :=
  ⟨[], .refl⟩

theorem Above.trans (hcb : tree.Above c b) (hdc : tree.Above d c) : tree.Above d b := by
  obtain ⟨l, hl⟩ := hcb
  obtain ⟨l', hl'⟩ := hdc
  exact ⟨l ++ l', hl.append hl'⟩

theorem above_parent (hb : tree.header b = some h) (hp : tree.header h.parent = some h') :
    tree.Above h.parent b :=
  ⟨[⟨h.number, b⟩], .step hb hp .refl⟩

theorem number_parent (hb : tree.header b = some h) (hp : tree.header h.parent = some h') :
    h.number = h'.number + 1 := by
  by_cases hr : b = tree.root
  · obtain ⟨r, hr1, hr2⟩ := tree.first
    rw [hr, hr1] at hb
    cases hb
    rw [hp] at hr2
    cases hr2
  · obtain ⟨p, hp', hn⟩ := tree.parent b h hb hr
    rw [hp] at hp'
    cases hp'
    exact hn

theorem Above.header (ha : tree.Above c b) (hb : tree.header b = some h) :
    ∃ h', tree.header c = some h' ∧ h'.number ≤ h.number := by
  obtain ⟨l, hl⟩ := ha
  induction hl generalizing h
  case refl => exact ⟨h, hb, Nat.le_refl _⟩
  case step hb' hpar hp hi =>
    rw [hb] at hb'
    cases hb'
    obtain ⟨h', hc, hn⟩ := hi hpar
    have := number_parent hb hpar
    exact ⟨h', hc, by omega⟩

theorem above_iff (hb : tree.header b = some h) (hp : tree.header h.parent = some h') :
    tree.Above c b ↔ c = b ∨ tree.Above c h.parent := by
  constructor
  · rintro ⟨l, hl⟩
    cases hl
    case refl => exact .inl rfl
    case step hpar hl hb' =>
      rw [hb] at hb'
      cases hb'
      exact .inr ⟨_, hl⟩
  · rintro (rfl | hc)
    · exact .refl c
    · exact (above_parent hb hp).trans hc

theorem Above.eq_of_number (ha : tree.Above c b) (hb : tree.header b = some h)
    (hc : tree.header c = some h') (hn : h.number ≤ h'.number) : c = b := by
  obtain ⟨l, hl⟩ := ha
  cases hl
  case refl => rfl
  case step hpar hl hb' =>
    rw [hb] at hb'
    cases hb'
    obtain ⟨c', hc', hle⟩ := Above.header ⟨_, hl⟩ hpar
    rw [hc] at hc'
    cases hc'
    have := number_parent hb hpar
    omega

theorem Above.of_number_le (hc : tree.Above c b) (hd : tree.Above d b) (hb : tree.header b = some h)
    (h1 : tree.header c = some hc') (h2 : tree.header d = some hd') (hn : hc'.number ≤ hd'.number) :
    tree.Above c d := by
  obtain ⟨l, hl⟩ := hd
  induction hl generalizing h
  case refl => exact hc
  case step b hh p l hb' hpar hl hi =>
    rw [hb] at hb'
    cases hb'
    rcases (above_iff hb hpar).mp hc with rfl | hc
    · obtain ⟨d', hd'', hle⟩ := Above.header ⟨_, hl⟩ hpar
      rw [h2] at hd''
      cases hd''
      rw [hb] at h1
      cases h1
      have := number_parent hb hpar
      omega
    · exact hi hc hpar

theorem root_above (hb : tree.header b = some h) : tree.Above tree.root b := by
  generalize hn : h.number = n
  induction n using Nat.strongRecOn generalizing b h
  case ind n hi =>
    by_cases hr : b = tree.root
    · exact hr ▸ .refl b
    · obtain ⟨p, hp, hnum⟩ := tree.parent b h hb hr
      exact (above_parent hb hp).trans (hi p.number (by omega) hp rfl)

theorem exists_parent_of_lt (ha : tree.header a = some h) (hb : tree.header b = some h')
    (hlt : h'.number < h.number) : ∃ p, tree.header h.parent = some p := by
  obtain ⟨r, hr, hle⟩ := (root_above hb).header hb
  have hne : a ≠ tree.root := by
    rintro rfl
    rw [ha] at hr
    cases hr
    omega
  obtain ⟨p, hp, -⟩ := tree.parent a h ha hne
  exact ⟨p, hp⟩

theorem exists_parent_of_ne (ha : tree.header a = some h) (hb : tree.header b = some h')
    (hle : h'.number ≤ h.number) (hne : a ≠ b) : ∃ p, tree.header h.parent = some p := by
  have hr : a ≠ tree.root := by
    rintro rfl
    exact hne ((root_above hb).eq_of_number hb ha hle)
  obtain ⟨p, hp, -⟩ := tree.parent a h ha hr
  exact ⟨p, hp⟩

-- The common ancestors of two blocks are the ancestors of this one.
def IsLowestCommonAncestor (tree : BlockTree H) (a b c : H) : Prop :=
  ∀ d, tree.Above d a ∧ tree.Above d b ↔ tree.Above d c

theorem common_of_above (ha : tree.header a = some h) (hc : tree.header c = some h')
    (hca : tree.Above c a) (hb : tree.header b = some hb') (hle : hb'.number ≤ h'.number) (d : H) :
    tree.Above d c ∧ tree.Above d b ↔ tree.Above d a ∧ tree.Above d b := by
  refine and_congr_left fun hdb => ⟨fun hdc => hca.trans hdc, fun hda => ?_⟩
  obtain ⟨d', hd, hn⟩ := hdb.header hb
  exact hda.of_number_le hca ha hd hc (by omega)

theorem common_of_parent (ha : tree.header a = some h) (hp : tree.header h.parent = some h')
    (hb : tree.header b = some hb') (hle : hb'.number ≤ h.number) (hne : a ≠ b) (d : H) :
    tree.Above d h.parent ∧ tree.Above d b ↔ tree.Above d a ∧ tree.Above d b := by
  refine and_congr_left fun hdb => ?_
  rw [above_iff ha hp]
  refine ⟨.inr, Or.rec (fun hd => ?_) id⟩
  subst hd
  exact absurd (hdb.eq_of_number hb ha hle) hne

theorem IsLowestCommonAncestor.unique (hc : tree.IsLowestCommonAncestor a b c)
    (hd : tree.IsLowestCommonAncestor a b d) (hh : tree.header c = some h) : c = d := by
  have hdc : tree.Above d c := (hc d).mp ((hd d).mpr (.refl d))
  have hcd : tree.Above c d := (hd c).mp ((hc c).mpr (.refl c))
  obtain ⟨h', hd', -⟩ := hdc.header hh
  obtain ⟨h'', hc', hn⟩ := hcd.header hd'
  rw [hh] at hc'
  cases hc'
  exact (hdc.eq_of_number hh hd' hn).symm

end BlockTree
end Headers
