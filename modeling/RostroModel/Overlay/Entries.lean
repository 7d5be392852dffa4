import RostroModel.Overlay.Map

namespace Overlay

open StorageAppend

variable (codec : CompactCodec)

-- The bytes at the front of a buffer whose length is materialized as `length`.
def prefixBytes (length : Option UInt32) : Bytes :=
  length.elim [] codec.encode

theorem prefixBytes_length (length : Option UInt32) :
    (prefixBytes codec length).length = lengthPrefix codec length := by
  cases length <;> simp [prefixBytes, lengthPrefix, codec.encode_length]

theorem replaceLength_prefixBytes (old : Option UInt32) (new : UInt32) (payload : Bytes) :
    replaceLength codec (prefixBytes codec old ++ payload) old new =
      codec.encode new ++ payload := by
  rw [replaceLength, ← prefixBytes_length, List.drop_left]

-- What `append_storage` makes of a value: the SCALE list with `element` at its end if the value
-- starts with a length, and a list of that one element if it does not.
def appended (value : Option StorageValue) (element : StorageValue) : StorageValue :=
  match value.bind codec.decode with
  | some n => codec.encode (n + 1) ++ (value.getD []).drop (codec.compactLen n) ++ element
  | none => codec.encode 1 ++ element

theorem appended_list (n : UInt32) (payload element : Bytes) :
    appended codec (some (codec.encode n ++ payload)) element =
      codec.encode (n + 1) ++ (payload ++ element) := by
  simp [appended, codec.decode_encode, ← codec.encode_length]

theorem appended_of_decode_none (h : codec.decode value = none)
    (element : Bytes) : appended codec (some value) element = codec.encode 1 ++ element := by
  simp [appended, h]

-- The versions of a storage entry, the newest first, stand for a list of values. A
-- version that has taken the buffer of its parent stands for its own value, and with the
-- buffer put back the versions below it stand for theirs. The last case says so without
-- naming the rollback that does it.
inductive Represents : List StorageEntry → List (Option StorageValue) → Prop
  | nil : Represents [] []
  | set {data ts vs} : Represents ts vs → Represents (.set data :: ts) (some data :: vs)
  | remove {ts vs} : Represents ts vs → Represents (.remove :: ts) (none :: vs)
  | append {payload length m ts vs} : Represents ts vs →
    Represents (.append (prefixBytes codec m ++ payload) length m none :: ts)
      (some (codec.encode length ++ payload) :: vs)
  | moved {payload length m n data' length' m' size' ts vs} : n ≤ payload.length →
    Represents (.append (prefixBytes codec m ++ payload.take n) length' m size' :: ts) vs →
    Represents
      (.append (prefixBytes codec m ++ payload) length m (some (n + lengthPrefix codec m')) ::
        .append data' length' m' size' :: ts)
      (some (codec.encode length ++ payload) :: vs)

-- The versions below the newest one once its buffer is back at its place.
def restored : StorageEntry → List StorageEntry → List StorageEntry
  | .append data _ mat (some size), parent :: ts =>
    restoreAppendToParent codec parent data mat size :: ts
  | _, ts => ts

namespace Represents

variable {codec} {ts : List StorageEntry} {vs : List (Option StorageValue)}

theorem length_eq (h : Represents codec ts vs) : ts.length = vs.length := by
  induction h <;> simp_all

theorem append_cases {data length mat size}
    (h : Represents codec (.append data length mat size :: ts) vs) :
    ∃ payload vs', data = prefixBytes codec mat ++ payload ∧
      vs = some (codec.encode length ++ payload) :: vs' ∧
      ((size = none ∧ Represents codec ts vs') ∨
        ∃ n data' length' mat' size' ts', size = some (n + lengthPrefix codec mat') ∧
          ts = .append data' length' mat' size' :: ts' ∧ n ≤ payload.length ∧
          Represents codec (.append (prefixBytes codec mat ++ payload.take n) length'
            mat size' :: ts')
            vs') := by
  cases h
  case append h => exact ⟨_, _, rfl, rfl, .inl ⟨rfl, h⟩⟩
  case moved hn h => exact ⟨_, _, rfl, rfl, .inr ⟨_, _, _, _, _, _, rfl, rfl, hn, h⟩⟩

theorem parent_ne_nil {data length mat size}
    (h : Represents codec (.append data length mat (some size) :: ts) vs) : ts ≠ [] := by
  obtain ⟨_, _, _, _, ⟨hs, _⟩ | ⟨_, _, _, _, _, _, _, rfl, _⟩⟩ := h.append_cases
  case inl => simp at hs
  case inr => simp

theorem rematerialize {payload length mat size} (mat' : Option UInt32)
    (h : Represents codec (.append (prefixBytes codec mat ++ payload) length mat size :: ts) vs) :
    Represents codec (.append (prefixBytes codec mat' ++ payload) length mat' size :: ts) vs := by
  generalize hl : StorageEntry.append _ _ _ _ :: ts = l at h
  induction h generalizing payload length mat size ts
  case append h _ =>
    simp only [List.cons.injEq, StorageEntry.append.injEq] at hl
    obtain ⟨⟨hd, rfl, rfl, rfl⟩, rfl⟩ := hl
    rw [List.append_cancel_left hd]
    exact .append h
  case moved hn h hi =>
    simp only [List.cons.injEq, StorageEntry.append.injEq] at hl
    obtain ⟨⟨hd, rfl, rfl, rfl⟩, rfl⟩ := hl
    rw [List.append_cancel_left hd]
    exact .moved hn (hi rfl)
  all_goals simp at hl

theorem toOption_head {e v} (h : Represents codec (e :: ts) (v :: vs)) : e.toOption codec = v := by
  cases h
  case set => rfl
  case remove => rfl
  all_goals
    simp only [StorageEntry.toOption, StorageEntry.materializeInPlace, replaceLength_prefixBytes]
    split <;> simp_all [StorageEntry.content, prefixBytes]

theorem materialize {e} (h : Represents codec (e :: ts) vs) :
    Represents codec (e.materializeInPlace codec :: ts) vs := by
  cases h
  case set h => exact .set h
  case remove h => exact .remove h
  all_goals
    simp only [StorageEntry.materializeInPlace, replaceLength_prefixBytes]
    split
  case append.isTrue h _ => exact .append h
  case append.isFalse h _ => exact .append (m := some _) h
  case moved.isTrue hn h _ => exact .moved hn h
  case moved.isFalse hn h _ => exact .moved (m := some _) hn (rematerialize _ h)

theorem restored {e v} (h : Represents codec (e :: ts) (v :: vs)) :
    Represents codec (restored codec e ts) vs := by
  cases h
  case moved payload length mat n data' length' mat' size' ts hn h =>
    -- The corrected size is the size of the payload behind the prefix that the buffer has now.
    have ht (new prev : Nat) : (if prev ≥ new then n + prev - ((new - prev) + (prev - new))
        else n + prev + ((new - prev) + (prev - new))) = new + n := by
      split_ifs <;> omega
    simp only [Overlay.restored, restoreAppendToParent, ht]
    rwa [← prefixBytes_length, List.take_length_add_append]
  all_goals assumption

section

variable (h : Represents codec ts vs)
include h

theorem push (value : Option StorageValue) :
    Represents codec (value.elim .remove .set :: ts) (value :: vs) := by
  cases value
  case none => exact .remove h
  case some => exact .set h

theorem push_singleton (element : StorageValue) :
    Represents codec (.append element 1 none none :: ts)
      (some (codec.encode 1 ++ element) :: vs) :=
  .append (m := none) h

theorem push_list (hd : codec.decode data = some n) (element : Bytes) :
    Represents codec (.append (data ++ element) (n + 1) (some n) none :: ts)
      (some (appended codec (some data) element) :: vs) := by
  obtain ⟨payload, rfl⟩ := codec.canonical hd
  rw [appended_list, List.append_assoc]
  exact .append (m := some n) h

theorem appendInit (init element : StorageValue) :
    Represents codec (OverlayedEntry.appendInit codec init element :: ts)
      (some (appended codec (some init) element) :: vs) := by
  unfold OverlayedEntry.appendInit extractLength
  split
  case _ hd => exact push_list h hd element
  case _ hd => rw [appended_of_decode_none codec hd]; exact push_singleton h element

end

theorem appendToParent {e v} (h : Represents codec (e :: ts) (v :: vs)) (element : StorageValue) :
    Represents codec
      ((OverlayedEntry.appendToParent codec e element).2 ::
        (OverlayedEntry.appendToParent codec e element).1 :: ts)
      (some (appended codec v element) :: v :: vs) := by
  cases h
  case remove h => exact push_singleton (.remove h) element
  case set data h =>
    simp only [OverlayedEntry.appendToParent]
    split
    case _ hd => exact push_list (.set h) hd element
    case _ hd => rw [appended_of_decode_none codec hd]; exact push_singleton (.set h) element
  -- An appended value gives its buffer away: the new version takes all of the payload, and cut back
  -- to its old length it is the payload of the parent again.
  all_goals
    simp only [OverlayedEntry.appendToParent, appendRaw, appended_list, List.append_assoc,
      List.length_append, prefixBytes_length, Nat.add_comm (lengthPrefix _ _)]
    refine .moved (by simp) ?_
    rw [List.take_left]
  case append h => exact .append h
  case moved hn h => exact .moved hn h

theorem appendInPlace {e v} (h : Represents codec (e :: ts) (v :: vs)) (element : StorageValue) :
    Represents codec (OverlayedEntry.appendInPlace codec e element :: ts)
      (some (appended codec v element) :: vs) := by
  cases h
  case remove h => exact push_singleton h element
  case set data h =>
    simp only [OverlayedEntry.appendInPlace]
    split
    case _ hd => exact push_list h hd element
    case _ hd => rw [appended_of_decode_none codec hd]; exact push_singleton h element
  all_goals
    simp only [OverlayedEntry.appendInPlace, appendRaw, appended_list, List.append_assoc]
  case append h => exact .append h
  case moved hn h =>
    refine .moved (by simp; omega) ?_
    rwa [List.take_append_of_le_length hn]

-- A version that is committed over an append it was moved from: the buffer stays and the new
-- version remembers what the overwritten one knew about its own parent.
theorem merge_append {data length mat size data' length' mat' keepMe w v} (h : Represents codec
      (.append data length mat (some size) :: .append data' length' mat' keepMe :: ts)
      (w :: v :: vs)) :
    Represents codec (.append data length mat keepMe :: ts) (w :: vs) := by
  cases h
  case moved payload n hn h =>
    have ⟨p, _, hp, hv, hs⟩ := append_cases h
    cases List.append_cancel_left hp
    cases hv
    cases hs
    case inl hs =>
      obtain ⟨rfl, hs⟩ := hs
      exact .append hs
    case inr hs =>
      obtain ⟨n', _, _, _, _, _, rfl, rfl, hn', hs⟩ := hs
      simp only [List.length_take, List.take_take] at hn' hs
      rw [Nat.min_eq_left (by omega)] at hs
      exact .moved (by omega) hs

theorem merge_replace {c p w v} (h : Represents codec (c :: p :: ts) (w :: v :: vs))
    (hc : ∀ data length mat size data' length' mat' size', c = .append data length mat (some size) →
      p ≠ .append data' length' mat' size') :
    Represents codec (c :: Overlay.restored codec p ts) (w :: vs) := by
  cases h
  case set h => exact .set h.restored
  case remove h => exact .remove h.restored
  case append h => exact .append h.restored
  case moved => exact absurd rfl (hc _ _ _ _ _ _ _ _ rfl)

end Represents
end Overlay
