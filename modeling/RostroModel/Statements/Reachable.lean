import RostroModel.Statements.Admission

namespace Statements

open Std.ExtTreeMap (mem_toList_iff_getElem?_eq_some)
open Function (update)

variable {H A T K C : Type} [LinearOrder H] [LinearOrder A] [DecidableEq C]

section Runs

variable [DecidableEq T] [DecidableEq K]

-- What is live after a call of `insert`.
def admitted (live : Live H A T K C) (a : A) (s : Statement H T K C) :
    Except RejectionReason (List H) → Live H A T K C
  | .ok evicted => update (without live evicted) s.hash (some (a, s))
  | .error _ => live

-- The index of a store, by the calls of submission, removal and maintenance. A statement that is
-- live may be submitted once more by some sources, and then the sizes are not exact any more.
inductive Reachable (exact : Prop) : Index H A T K C → Live H A T K C → Prop
  | new : Reachable exact { config } fun _ => none
  | insert (h : Reachable exact index live) (s allowance a now)
    (hs : live s.hash = none ∨ ¬exact ∧ live s.hash = some (a, s)) :
    Reachable exact (index.insert s allowance a now).2
      (admitted live a s (index.insert s allowance a now).1)
  | makeExpired (h : Reachable exact index live) (hash now) :
    Reachable exact (index.makeExpired hash now).2 (update live hash none)
  | maintain (h : Reachable exact index live) (now) : Reachable exact (index.maintain now).2 live
  | takeRecent (h : Reachable exact index live) : Reachable exact index.takeRecent.2 live

end Runs

variable {index : Index H A T K C} {live : Live H A T K C} {a : A} {s : Statement H T K C}
  {exact : Prop}

-- The statement of the same channel is among those that are evicted.
theorem free_without (h : Tracked exact index live) (n : Nat) :
    Free (without live ((evict s (listed index a) n).map (·.1.hash))) a s := by
  intro h' s' hl hs he
  rw [without] at hl
  split_ifs at hl with hm
  have hlook := mem_toList_iff_getElem?_eq_some.mpr ((h.accounts a).lookup hl)
  refine hm (List.mem_map.mpr ⟨_, List.mem_append_left _ (List.mem_filter.mpr ⟨hlook, ?_⟩), rfl⟩)
  simp [sameChannel, he, hs]

-- A live statement is not evicted for itself, since its expiry is not lower than its own.
theorem without_evict (h : Tracked exact index live) (hs : live s.hash = some (a, s))
    (hlow : ∀ e ∈ evict s (listed index a) n, lowerExpiry s e) :
    without live ((evict s (listed index a) n).map (·.1.hash)) s.hash = some (a, s) := by
  rw [without, if_neg, hs]
  intro hm
  obtain ⟨e, he, hh⟩ := List.mem_map.mp hm
  have hmem : e ∈ listed index a := (evict_append_drop n).subset (List.mem_append_left _ he)
  obtain ⟨s', hs', hx, -⟩ := (mem_listed h).mp hmem
  rw [hh, hs] at hs'
  cases hs'
  exact absurd (of_decide_eq_true (hlow e he)) (hx ▸ lt_irrefl _)

variable [DecidableEq T] [DecidableEq K]

theorem Tracked.insert (h : Tracked exact index live) (allowance now)
    (hs : live s.hash = none ∨ ¬exact ∧ live s.hash = some (a, s)) :
    Tracked exact (index.insert s allowance a now).2
      (admitted live a s (index.insert s allowance a now).1) := by
  rw [Index.insert]
  split_ifs
  case pos => exact h
  case neg =>
    obtain ⟨_, _, _, _, r, hr⟩ | ⟨hrep, hloop⟩ := evictions_spec (a := a) (s := s) h allowance
    case inl => simpa [hr, admitted] using h
    case inr =>
      generalize index.evictions s allowance a = result at hloop
      cases hloop
      case full => exact h
      case stop n _ hlow _ =>
        dsimp only
        split_ifs
        case neg => exact h
        case pos =>
          rcases hs with hs | ⟨hx, hs⟩
          · refine (h.expireAll _ now).insertNew ?_ (free_without h n) true
            simp [without, hs]
          · have hall : ∀ e ∈ evict s (listed index a) n, lowerExpiry s e :=
              fun e he => (List.mem_append.mp he).elim (hrep e) (hlow e)
            have hself := without_evict h hs hall
            rw [admitted, ← hself, Function.update_eq_self]
            exact (h.expireAll _ now).insertNew_live hself hx true

-- Priorities and channels are those of the live statements at any time, as admission
-- requires. So are the sizes as long as no live statement is submitted once more, and
-- after that they are not less.
theorem accounted_of_reachable (h : Reachable exact index live) : Tracked exact index live := by
  induction h
  case new => exact .empty _
  case insert hs hi => exact hi.insert _ _ hs
  case makeExpired hi => exact hi.makeExpired ..
  case maintain hi => exact ⟨hi.entries, hi.totalSize, hi.accounts, hi.nonempty⟩
  case takeRecent hi => exact ⟨hi.entries, hi.totalSize, hi.accounts, hi.nonempty⟩

-- The last statement replaces the first one in its channel and evicts the second one, then the one
-- of another account expires and the notes on the evicted ones are purged.
def sampleRun : Index Nat Nat Nat Nat Nat :=
  let index : Index Nat Nat Nat Nat Nat := {}
  let index := (index.insert (sampleStored 2 30 (some 5)) ⟨2, 8⟩ 7 0).2
  let index := (index.insert (sampleStored 3 10 none) ⟨2, 8⟩ 7 0).2
  let index := (index.insert (sampleStored 5 1 none) ⟨2, 8⟩ 8 0).2
  let index := (index.insert { sampleStatement with dataLen := 8 } ⟨2, 8⟩ 7 0).2
  ((index.makeExpired 5 0).2.maintain 1000).2.takeRecent.2

-- A statement is submitted twice.
def sampleTwice : Index Nat Nat Nat Nat Nat :=
  let index : Index Nat Nat Nat Nat Nat := {}
  let index := (index.insert (sampleStored 3 10 none) ⟨2, 8⟩ 7 0).2
  (index.insert (sampleStored 3 10 none) ⟨2, 8⟩ 7 0).2

theorem accounted_of_reachable_sample :
    (∃ live, Accounted sampleRun live) ∧ sampleRun.totalSize = 8 ∧
      listed sampleRun 7 = [(.mk 100 1, some 5, 8)] ∧
      (∃ live, Tracked False sampleTwice live) ∧ sampleTwice.totalSize = 8 ∧
      listed sampleTwice 7 = [(.mk 10 3, none, 4)] := by
  refine ⟨⟨_, accounted_of_reachable (.takeRecent (.maintain (.makeExpired
    (.insert (.insert (.insert (.insert .new _ _ _ _ (.inl ?_)) _ _ _ _ (.inl ?_))
      _ _ _ _ (.inl ?_)) _ _ _ _ (.inl ?_)) _ _) _))⟩, ?_, ?_,
    ⟨_, accounted_of_reachable
      (.insert (.insert .new _ _ _ _ (.inl ?_)) _ _ _ _ (.inr ⟨id, ?_⟩))⟩, ?_, ?_⟩
  all_goals decide +kernel

end Statements
