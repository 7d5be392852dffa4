import Mathlib.Init

-- Stateful computations that may fail: an invariant of the state holds afterwards in any case, and
-- the result, or the error, is as expected.
namespace EStateM

variable {ε σ α β : Type} {I : σ → Prop} {x : EStateM ε σ α} {f : α → EStateM ε σ β}
  {P P' : α → Prop} {Q : β → Prop} {E : ε → Prop}

def Triple (I : σ → Prop) (x : EStateM ε σ α) (P : α → Prop) (E : ε → Prop) : Prop :=
  ∀ s, I s → match x s with
    | .ok a s' => I s' ∧ P a
    | .error e s' => I s' ∧ E e

-- The state after the computation, whether it failed or not.
def finalState (x : EStateM ε σ α) (s : σ) : σ :=
  match x s with
  | .ok _ s' => s'
  | .error _ s' => s'

namespace Triple

theorem pure (h : P a) : Triple I (Pure.pure a : EStateM ε σ α) P E :=
  fun _ hs => ⟨hs, h⟩

theorem throw (h : E e) : Triple I (MonadExcept.throw e : EStateM ε σ α) P E :=
  fun _ hs => ⟨hs, h⟩

theorem modify {g : σ → σ} {P : PUnit → Prop} (hg : ∀ s, I s → I (g s)) (h : P ⟨⟩) :
    Triple I (modifyGet fun s => (⟨⟩, g s) : EStateM ε σ PUnit) P E :=
  fun s hs => ⟨hg s hs, h⟩

theorem ite {p : Prop} [Decidable p] {x y : EStateM ε σ α} (hx : p → Triple I x P E)
    (hy : ¬p → Triple I y P E) :
    Triple I (if p then x else y) P E := by
  split
  case isTrue h => exact hx h
  case isFalse h => exact hy h

theorem bind (hx : Triple I x P E) (hf : ∀ a, P a → Triple I (f a) Q E) :
    Triple I (x >>= f) Q E := by
  intro s hs
  have h := hx s hs
  change match EStateM.bind x f s with
    | .ok a s' => I s' ∧ Q a
    | .error e s' => I s' ∧ E e
  rw [EStateM.bind]
  generalize x s = r at h
  cases r
  case ok a s' => exact hf a h.2 s' h.1
  case error e s' => exact h

theorem mono (hx : Triple I x P E) (h : ∀ a, P a → P' a) : Triple I x P' E := by
  intro s hs
  have hr := hx s hs
  generalize x s = r at hr ⊢
  cases r
  case ok a s' => exact ⟨hr.1, h a hr.2⟩
  case error e s' => exact hr

theorem finalState (hx : Triple I x P E) (hs : I s) : I (EStateM.finalState x s) := by
  have hr := hx s hs
  rw [EStateM.finalState]
  generalize x s = r at hr ⊢
  cases r <;> exact hr.1

theorem eq_ok (hx : Triple I x P fun _ => False) (hs : I s) : ∃ a s', x s = .ok a s' ∧ P a := by
  have hr := hx s hs
  generalize x s = r at hr ⊢
  cases r
  case ok a s' => exact ⟨a, s', rfl, hr.2⟩
  case error => exact hr.2.elim

end Triple
end EStateM
