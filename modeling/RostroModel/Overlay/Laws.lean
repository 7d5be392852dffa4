import RostroModel.Overlay.Entries
import RostroModel.Overlay.Tracking

namespace Overlay

open Std OverlayedMap
open OverlayedEntry

variable {codec : CompactCodec}

namespace OverlayedChangeSet

theorem undo_eq {t : InnerValue StorageEntry} {ts vs}
    (h : Represents codec (t.value :: OverlayedEntry.values ⟨ts⟩) vs) :
    ∃ e', (closing codec).undo ⟨t :: ts⟩ = .ok e' ∧
      e'.values = restored codec t.value (OverlayedEntry.values ⟨ts⟩) := by
  obtain ⟨value, extrinsics⟩ := t
  cases value
  case set => exact ⟨_, rfl, rfl⟩
  case remove => exact ⟨_, rfl, rfl⟩
  case append size =>
    cases size
    case none => exact ⟨_, rfl, rfl⟩
    case some =>
      cases ts
      case nil => exact absurd rfl h.parent_ne_nil
      case cons => exact ⟨_, rfl, rfl⟩

theorem merge_eq {t p : InnerValue StorageEntry} {ts w v vs}
    (h : Represents codec (t.value :: p.value :: OverlayedEntry.values ⟨ts⟩) (w :: v :: vs)) :
    ∃ e', (closing codec).merge ⟨t :: p :: ts⟩ = .ok e' ∧ Represents codec e'.values (w :: vs) := by
  obtain ⟨value, extrinsics⟩ := t
  obtain ⟨parent, extrinsics'⟩ := p
  simp only [closing, popTransaction, valueRef_cons, Except.ok_bind]
  split
  case _ => exact ⟨_, rfl, h.merge_append⟩
  case _ hc =>
    have hr := h.merge_replace fun _ _ _ _ _ _ _ _ he _ => hc _ _ _ _ he
    cases ts
    case nil => exact ⟨_, rfl, hr⟩
    case cons => exact ⟨_, rfl, hr⟩
  case _ hp hc =>
    have hr := h.merge_replace fun _ _ _ _ _ _ _ _ he hp => hc _ _ _ _ _ _ _ _ he hp
    refine ⟨_, rfl, ?_⟩
    cases parent
    case append size =>
      cases size
      case none => exact hr
      case some => exact (hp _ _ _ _ rfl).elim
    all_goals exact hr

theorem closing_lawful : (closing codec).Lawful (Represents codec) where
  length_eq h := h.length_eq
  undo {e} _ _ h := by
    obtain ⟨_ | ⟨t, ts⟩⟩ := e
    case nil => cases h
    case cons =>
      obtain ⟨e', he, hv⟩ := undo_eq h
      exact ⟨e', he, hv ▸ Represents.restored h⟩
  merge {e} _ _ _ h := by
    obtain ⟨_ | ⟨t, _ | ⟨p, ts⟩⟩⟩ := e
    case nil => cases h
    case cons.nil => exact absurd h.length_eq (by simp [values])
    case cons.cons => exact merge_eq h

theorem values_noteExtrinsic {e : OverlayedValue} {ts vs} (h : Represents codec ts vs)
    (hv : e.values = ts) (hn : ts ≠ []) (ext : Option UInt32) :
    ∃ e', e.noteExtrinsic ext = .ok e' ∧ Represents codec e'.values vs := by
  obtain ⟨e', he, hv'⟩ := noteExtrinsic_values (hv ▸ hn) ext
  exact ⟨e', he, by rw [hv', hv]; exact h⟩

theorem set_lawful (value : Option StorageValue) (ext : Option UInt32) :
    LawfulWrite (Represents codec) (·.set codec value · ext) (fun _ => value) where
  fresh {first} := by
    simp only [OverlayedEntry.set, List.isEmpty_nil, Bool.or_true]
    exact values_noteExtrinsic (Represents.nil.push value) rfl (by simp) ext
  push h := by
    exact values_noteExtrinsic (h.push value) rfl (by simp) ext
  replace {e _ _} h := by
    obtain ⟨_ | ⟨t, ts⟩⟩ := e
    case nil => cases h
    case cons =>
      obtain ⟨old, extrinsics⟩ := t
      -- Overwriting a version is dropping it and pushing another one.
      have hr := (Represents.restored h).push value
      cases old
      case append size =>
        cases size
        case none => exact values_noteExtrinsic hr rfl (by simp) ext
        case some =>
          cases ts
          case nil => exact absurd rfl h.parent_ne_nil
          case cons => exact values_noteExtrinsic hr rfl (by simp) ext
      all_goals exact values_noteExtrinsic hr rfl (by simp) ext

theorem append_lawful (element : StorageValue) (init : Unit → StorageValue) (ext : Option UInt32) :
    LawfulWrite (Represents codec) (·.append codec element · init ext)
      (fun vs => some (appended codec (vs.headD (some (init ()))) element)) where
  fresh {first} :=
    values_noteExtrinsic (Represents.nil.appendInit (init ()) element) rfl (by simp) ext
  push {e _ _} h := by
    obtain ⟨_ | ⟨t, ts⟩⟩ := e
    case nil => cases h
    case cons => exact values_noteExtrinsic (Represents.appendToParent h element) rfl (by simp) ext
  replace {e _ _} h := by
    obtain ⟨_ | ⟨t, ts⟩⟩ := e
    case nil => cases h
    case cons => exact values_noteExtrinsic (Represents.appendInPlace h element) rfl (by simp) ext

end OverlayedChangeSet

theorem closingOffchain_lawful {V : Type} : (closingOffchain (V := V)).Lawful (· = ·) where
  length_eq h := congrArg _ h
  undo {e} _ _ h := by
    obtain ⟨_ | ⟨t, ts⟩⟩ := e
    case nil => cases h
    case cons => cases h; exact ⟨_, rfl, rfl⟩
  merge {e} _ _ _ h := by
    obtain ⟨_ | ⟨t, _ | ⟨p, ts⟩⟩⟩ := e
    case cons.cons => cases h; exact ⟨_, rfl, rfl⟩
    all_goals cases h

theorem setOffchain_lawful {V : Type} (value : V) (ext : Option UInt32) :
    LawfulWrite (· = ·) (OverlayedEntry.setOffchain · value · ext) (fun _ => value) where
  fresh {first} := by
    have h := noteExtrinsic_values (e := push {} value) (by
      simp [OverlayedEntry.values, OverlayedEntry.push]) ext
    simpa [OverlayedEntry.setOffchain, OverlayedEntry.push, OverlayedEntry.values] using h
  push {e _ _} h := by
    obtain ⟨e', he, hv⟩ := OverlayedEntry.noteExtrinsic_values (e := e.push value) (by
      simp [values, push]) ext
    exact ⟨e', he, hv.trans (congrArg _ h)⟩
  replace {e _ _} h := by
    obtain ⟨_ | ⟨t, ts⟩⟩ := e
    case nil => cases h
    case cons =>
      cases h
      exact noteExtrinsic_values (e := ⟨{ t with value } :: ts⟩) (by
        simp [values]) ext

end Overlay
