import RostroModel.Prospective.Representation

namespace Prospective

variable {Hash : Type} {c c' : Constraints Hash} {a b m : ConstraintModifications}

namespace ConstraintModifications

-- If both set a watermark, the second one is not behind the first.
def Follows (a b : ConstraintModifications) : Prop :=
  ∀ u v, a.hrmpWatermark = some u → b.hrmpWatermark = some v → u.watermark ≤ v.watermark

theorem ext_outbound (hp : a.requiredParent = b.requiredParent)
    (hw : a.hrmpWatermark = b.hrmpWatermark)
    (ho : ∀ id : Nat, a.outboundHrmp[id]? = b.outboundHrmp[id]?)
    (hu : a.umpMessagesSent = b.umpMessagesSent) (hb : a.umpBytesSent = b.umpBytesSent)
    (hd : a.dmpMessagesProcessed = b.dmpMessagesProcessed)
    (hc : a.codeUpgradeApplied = b.codeUpgradeApplied) : a = b := by
  have ho := Std.ExtTreeMap.ext_getElem? ho
  cases a
  simp_all

theorem stack_identity : a.stack identity = a := by
  apply ext_outbound
  case ho => intro id; simp [stack, identity, Std.ExtTreeMap.lookup_merge]
  all_goals simp [stack, identity]

theorem identity_stack : identity.stack a = a := by
  apply ext_outbound
  case ho =>
    intro id
    rw [stack, Std.ExtTreeMap.lookup_merge]
    cases a.outboundHrmp[id]? <;> simp [identity]
  all_goals simp [stack, identity]

theorem stack_assoc : (a.stack b).stack m = a.stack (b.stack m) := by
  apply ext_outbound
  case ho =>
    intro id
    simp only [stack, Std.ExtTreeMap.lookup_merge]
    cases m.outboundHrmp[id]? <;> cases b.outboundHrmp[id]? <;> simp [Nat.add_assoc]
  case hp => exact (Option.or_assoc ..).symm
  case hw => exact (Option.or_assoc ..).symm
  all_goals simp [stack, Nat.add_assoc, Bool.or_assoc]

end ConstraintModifications

namespace Constraints

theorem watermarksAfter_watermarksAfter {l : List Nat} (h : a.Follows b) :
    watermarksAfter (watermarksAfter l a.hrmpWatermark) b.hrmpWatermark =
      watermarksAfter l (a.stack b).hrmpWatermark := by
  change _ = watermarksAfter l (b.hrmpWatermark.or a.hrmpWatermark)
  cases hb : b.hrmpWatermark
  case none => rfl
  case some v =>
    cases ha : a.hrmpWatermark
    case none => rfl
    case some u =>
      exact leave_leave_of_le (h u v ha hb)

theorem modified_stack (hb : (c.modified a).Admits b) (h : a.Follows b) :
    c.modified (a.stack b) = (c.modified a).modified b := by
  rw [modified_modified hb, watermarksAfter_watermarksAfter h]
  rfl

-- Stacked modifications do what the two do one after the other.
theorem applyModifications_stack (hc : c.validWatermarks.Pairwise (· ≤ ·)) :
    (∀ a b c₁ c₂, c.applyModifications a = .ok c₁ → c₁.applyModifications b = .ok c₂ → a.Follows b →
      c.applyModifications (a.stack b) = .ok c₂) ∧
    (∀ a b m : ConstraintModifications, (a.stack b).stack m = a.stack (b.stack m) ∧
      a.stack .identity = a ∧ ConstraintModifications.identity.stack a = a) ∧
    ∀ m, c.checkModifications m = .ok () ↔ ∃ c', c.applyModifications m = .ok c' := by
  refine ⟨fun a b c₁ c₂ ha hb h => ?_, fun a b m => ?_, fun m => ?_⟩
  · obtain ⟨hma, rfl⟩ := (applyModifications_eq_ok hc).mp ha
    obtain ⟨hmb, rfl⟩ := (applyModifications_eq_ok (sorted_modified hc)).mp hb
    exact (applyModifications_eq_ok hc).mpr ⟨hma.stack hmb, (modified_stack hmb h).symm⟩
  · exact ⟨ConstraintModifications.stack_assoc, ConstraintModifications.stack_identity,
      ConstraintModifications.identity_stack⟩
  · rw [checkModifications_eq_ok]
    exact ⟨fun h => ⟨_, (applyModifications_eq_ok hc).mpr ⟨h, rfl⟩⟩,
      fun ⟨_, h⟩ => ((applyModifications_eq_ok hc).mp h).1⟩

-- Two updates of the watermark, the second one to a block that is allowed.
theorem sampleConstraints_stack :
    ∃ c₁ c₂, (FragmentChain.sampleConstraints [1, 3]).applyModifications
      { ConstraintModifications.identity with hrmpWatermark := some (.head 2) } = .ok c₁ ∧
    c₁.applyModifications { ConstraintModifications.identity with
      hrmpWatermark := some (.trunk 3) } = .ok c₂ ∧
    (FragmentChain.sampleConstraints [1, 3]).applyModifications
      (ConstraintModifications.stack { ConstraintModifications.identity with
        hrmpWatermark := some (.head 2) }
        { ConstraintModifications.identity with hrmpWatermark := some (.trunk 3) }) = .ok c₂ := by
  refine ⟨_, _, rfl, rfl, ?_⟩
  refine (applyModifications_stack (by decide)).1 _ _ _ _ rfl rfl fun u v hu hv => ?_
  cases hu
  cases hv
  decide

end Constraints

end Prospective
