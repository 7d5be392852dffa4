import RostroModel.Prospective.Emulator

namespace Prospective

open Except (bind_eq_ok ensure_eq_ok okOr pure_eq_ok)
open Std.ExtTreeMap (ext_getElem? getElem?_map lookup_merge update_eq_ok)

variable {Hash : Type} {c c' : Constraints Hash} {m m' : ConstraintModifications}

section Watermarks

variable {l : List Nat} {n : Nat}

-- What is left of the numbers once one is reached: this one, if it is there, and those above it.
def leave (l : List Nat) (n : Nat) : List Nat :=
  (l.filter (· = n)).take 1 ++ l.filter (n < ·)

theorem take_filter_eq (h : n ∈ l) : (l.filter (· = n)).take 1 = [n] := by
  have hm : n ∈ l.filter (· = n) := List.mem_filter.mpr ⟨h, by simp⟩
  obtain ⟨a, r, hr⟩ := List.exists_cons_of_ne_nil (List.ne_nil_of_mem hm)
  have ha : a = n := by
    have := hr ▸ List.mem_cons_self (a := a) (l := r)
    simpa using (List.mem_filter.mp this).2
  rw [hr, ha]
  rfl

theorem filter_eq_nil (h : n ∉ l) : l.filter (· = n) = [] := by
  rw [List.filter_eq_nil_iff]
  intro a ha he
  exact h (of_decide_eq_true he ▸ ha)

theorem mem_leave {m : Nat} : m ∈ leave l n ↔ m ∈ l ∧ n ≤ m := by
  by_cases hn : n ∈ l
  case pos =>
    rw [leave, take_filter_eq hn, List.mem_append, List.mem_singleton, List.mem_filter,
      decide_eq_true_iff]
    constructor
    · rintro (rfl | h)
      · exact ⟨hn, le_rfl⟩
      · exact ⟨h.1, h.2.le⟩
    · rintro ⟨hm, hle⟩
      obtain rfl | hlt := Nat.eq_or_lt_of_le hle
      · exact .inl rfl
      · exact .inr ⟨hm, hlt⟩
  case neg =>
    rw [leave, filter_eq_nil hn, List.take_nil, List.nil_append, List.mem_filter,
      decide_eq_true_iff]
    constructor
    · exact fun h => ⟨h.1, h.2.le⟩
    · rintro ⟨hm, hle⟩
      exact ⟨hm, lt_of_le_of_ne hle fun he => hn (he ▸ hm)⟩

theorem sorted_leave (h : l.Pairwise (· ≤ ·)) : (leave l n).Pairwise (· ≤ ·) := by
  have hf (p : Nat → Bool) : (l.filter p).Pairwise (· ≤ ·) := h.sublist List.filter_sublist
  refine List.pairwise_append.mpr ⟨(hf _).sublist (List.take_sublist 1 _), hf _,
    fun a ha b hb => ?_⟩
  have ha := (List.mem_filter.mp (List.mem_of_mem_take ha)).2
  have hb := (List.mem_filter.mp hb).2
  simp only [decide_eq_true_iff] at ha hb
  omega

-- The elements before a position are not above the number, and those after it are.
theorem filter_lt_eq_drop {i : Nat} (hb : ∀ j a, j < i → l[j]? = some a → a ≤ n)
    (ha : ∀ j a, i ≤ j → l[j]? = some a → n < a) : l.filter (n < ·) = l.drop i := by
  conv_lhs => rw [← List.take_append_drop i l]
  rw [List.filter_append]
  have h1 : (l.take i).filter (n < ·) = [] := by
    rw [List.filter_eq_nil_iff]
    intro a hm
    obtain ⟨j, hj⟩ := List.mem_iff_getElem?.mp hm
    rw [List.getElem?_take] at hj
    split_ifs at hj with hji
    simpa using hb j a hji hj
  have h2 : (l.drop i).filter (n < ·) = l.drop i := by
    rw [List.filter_eq_self]
    intro a hm
    obtain ⟨j, hj⟩ := List.mem_iff_getElem?.mp hm
    rw [List.getElem?_drop] at hj
    simpa using ha (i + j) a (Nat.le_add_right i j) hj
  rw [h1, h2, List.nil_append]

theorem binarySearch_ordered (h : l.Pairwise (· ≤ ·)) (n : Nat) :
    BinarySearch.Ordered (fun i => (l[i]?).elim .gt (compare · n)) l.length := by
  have hle {i j a b : Nat} (hij : i ≤ j) (hi : l[i]? = some a) (hj : l[j]? = some b) : a ≤ b := by
    obtain rfl | hlt := Nat.eq_or_lt_of_le hij
    · exact (Option.some.inj (hi.symm.trans hj)).le
    · obtain ⟨hi', rfl⟩ := List.getElem?_eq_some_iff.mp hi
      obtain ⟨hj', rfl⟩ := List.getElem?_eq_some_iff.mp hj
      exact List.pairwise_iff_getElem.mp h i j hi' hj' hlt
  constructor
  case lt_of_lt =>
    intro i j hij hj hlt
    have hb := List.getElem?_eq_getElem hj
    have ha := List.getElem?_eq_getElem (Nat.lt_of_le_of_lt hij hj)
    have hab := hle hij ha hb
    simp only [ha, hb, Option.elim_some, Nat.compare_eq_lt] at hlt ⊢
    omega
  case gt_of_gt =>
    intro i j hij hj hgt
    have hb := List.getElem?_eq_getElem hj
    have ha := List.getElem?_eq_getElem (Nat.lt_of_le_of_lt hij hj)
    have hab := hle hij ha hb
    simp only [ha, hb, Option.elim_some, Nat.compare_eq_gt] at hgt ⊢
    omega

theorem binarySearch_spec (h : l.Pairwise (· ≤ ·)) (n : Nat) : match binarySearch l n with
    | .ok i => n ∈ l ∧ l.drop i = leave l n
    | .error i => n ∉ l ∧ l.drop i = leave l n := by
  have hs := BinarySearch.search_spec (binarySearch_ordered h n)
  rw [binarySearch]
  have hcmp {j a : Nat} (hj : l[j]? = some a) : (l[j]?).elim .gt (compare · n) = compare a n := by
    rw [hj]; rfl
  cases hr : BinarySearch.search (fun i => (l[i]?).elim .gt (compare · n)) l.length
  all_goals
    rw [hr] at hs
    dsimp only at hs ⊢
  case ok i =>
    obtain ⟨hi, hc, ha⟩ := hs
    have hn : l[i]? = some n := by
      have hl := List.getElem?_eq_getElem hi
      rw [hcmp hl, Nat.compare_eq_eq] at hc
      rw [hl, hc]
    have hm := List.mem_of_getElem? hn
    refine ⟨hm, ?_⟩
    have hd : l.filter (n < ·) = l.drop (i + 1) := by
      refine filter_lt_eq_drop (fun j a hj hja => ?_) fun j a hj hja => ?_
      · by_contra hgt
        have hja' := hcmp hja
        have hg : compare a n = .gt := Nat.compare_eq_gt.mpr (by omega)
        have := (binarySearch_ordered h n).gt_of_gt j i (by omega) hi (hja'.trans hg)
        simp [hc] at this
      · have := ha j hj (List.getElem?_eq_some_iff.mp hja).1
        rw [hcmp hja, Nat.compare_eq_gt] at this
        exact this
    obtain ⟨hi', he⟩ := List.getElem?_eq_some_iff.mp hn
    rw [leave, take_filter_eq hm, hd, List.drop_eq_getElem_cons hi', he, List.singleton_append]
  case error i =>
    obtain ⟨hi, hb, ha⟩ := hs
    have hlt {j a : Nat} (hj : j < i) (hja : l[j]? = some a) : a < n := by
      have := hb j hj
      rwa [hcmp hja, Nat.compare_eq_lt] at this
    have hgt {j a : Nat} (hj : i ≤ j) (hja : l[j]? = some a) : n < a := by
      have := ha j hj (List.getElem?_eq_some_iff.mp hja).1
      rwa [hcmp hja, Nat.compare_eq_gt] at this
    have hn : n ∉ l := by
      intro hm
      obtain ⟨j, hj⟩ := List.mem_iff_getElem?.mp hm
      obtain hji | hji := Nat.lt_or_ge j i
      · exact absurd (hlt hji hj) (lt_irrefl n)
      · exact absurd (hgt hji hj) (lt_irrefl n)
    refine ⟨hn, ?_⟩
    rw [leave, filter_eq_nil hn, List.take_nil, List.nil_append,
      filter_lt_eq_drop (fun j a hj hja => (hlt hj hja).le) fun j a hj hja => hgt hj hja]

section Leave

variable {a b : Nat}

-- Nothing gets lost on the way to a number that is not below the one before it.
theorem leave_leave_of_le (h : a ≤ b) : leave (leave l a) b = leave l b := by
  have hlt : (leave l a).filter (b < ·) = l.filter (b < ·) := by
    have hnil : ((l.filter (· = a)).take 1).filter (b < ·) = [] := by
      rw [List.filter_eq_nil_iff]
      intro c hc
      have hc := (List.mem_filter.mp (List.mem_of_mem_take hc)).2
      simp only [decide_eq_true_iff] at hc ⊢
      omega
    rw [leave, List.filter_append, hnil, List.nil_append, List.filter_filter]
    refine List.filter_congr fun c _ => ?_
    rw [← Bool.decide_and, decide_eq_decide]
    omega
  have heq : ((leave l a).filter (· = b)).take 1 = (l.filter (· = b)).take 1 := by
    by_cases hb : b ∈ l
    case pos => rw [take_filter_eq hb, take_filter_eq (mem_leave.mpr ⟨hb, h⟩)]
    case neg => rw [filter_eq_nil hb, filter_eq_nil fun hm => hb (mem_leave.mp hm).1]
  rw [leave, heq, hlt]
  rfl

theorem leave_leave_of_lt (h : b < a) : leave (leave l a) b = leave l a := by
  have hb : b ∉ leave l a := fun hm => by
    have := (mem_leave.mp hm).2
    omega
  have hlt : (leave l a).filter (b < ·) = leave l a := by
    rw [List.filter_eq_self]
    intro c hc
    have := (mem_leave.mp hc).2
    simp only [decide_eq_true_iff]
    omega
  rw [leave, filter_eq_nil hb, hlt]
  rfl

theorem filter_le_eq (h : l.Pairwise (· ≤ ·)) :
    l.filter (a ≤ ·) = l.filter (· = a) ++ l.filter (a < ·) := by
  induction l
  case nil => rfl
  case cons c l hi =>
    obtain ⟨hc, hl⟩ := List.pairwise_cons.mp h
    rw [List.filter_cons, List.filter_cons, List.filter_cons, hi hl]
    rcases Nat.lt_trichotomy c a with hlt | rfl | hgt
    · simp [Nat.not_le_of_lt hlt, Nat.ne_of_lt hlt, Nat.lt_asymm hlt]
    · simp
    · -- The elements that follow are above it as well.
      have hnil : l.filter (· = a) = [] := filter_eq_nil fun hm => by
        have := hc a hm
        omega
      simp [hnil, hgt, hgt.le, (Nat.ne_of_lt hgt).symm]

theorem count_leave_of_lt (h : b < a) : (leave l b).count a = l.count a := by
  have h1 : ((l.filter (· = b)).take 1).count a = 0 := by
    rw [List.count_eq_zero]
    intro hm
    have := (List.mem_filter.mp (List.mem_of_mem_take hm)).2
    simp only [decide_eq_true_iff] at this
    omega
  rw [leave, List.count_append, h1, Nat.zero_add, List.count_filter (by simpa using h)]

theorem count_leave_self : (leave l a).count a ≤ 1 := by
  have h1 : ((l.filter (· = a)).take 1).count a ≤ 1 := by
    refine List.count_le_length.trans ?_
    rw [List.length_take]
    exact Nat.min_le_left 1 _
  have h2 : (l.filter (a < ·)).count a = 0 := by
    rw [List.count_eq_zero]
    simp
  rw [leave, List.count_append, h2]
  exact h1

-- A step back is only harmless if it does not pass a number, and starts
-- at one that is not repeated.
theorem leave_leave (h : l.Pairwise (· ≤ ·)) : leave (leave l a) b = leave l b ↔
    (∀ w ∈ l, b ≤ w → a ≤ w) ∧ (b < a → l.count a ≤ 1) := by
  obtain hlt | hle := Nat.lt_or_ge b a
  case inr =>
    exact iff_of_true (leave_leave_of_le hle) ⟨fun w _ hw => hle.trans hw, fun hlt => by omega⟩
  rw [leave_leave_of_lt hlt]
  constructor
  · intro he
    refine ⟨fun w hw hb => ?_, fun _ => ?_⟩
    · have hm := mem_leave.mpr ⟨hw, hb⟩
      rw [← he] at hm
      exact (mem_leave.mp hm).2
    · rw [← count_leave_of_lt hlt, ← he]
      exact count_leave_self
  · rintro ⟨hk, hc⟩
    have hb : b ∉ l := fun hm => by
      have := hk b hm le_rfl
      omega
    have hfilter : l.filter (b < ·) = l.filter (a ≤ ·) := by
      refine List.filter_congr fun w hw => ?_
      rw [decide_eq_decide]
      exact ⟨fun hbw => hk w hw hbw.le, fun haw => lt_of_lt_of_le hlt haw⟩
    have htake : (l.filter (· = a)).take 1 = l.filter (· = a) := by
      apply List.take_of_length_le
      have hlen := hc hlt
      rw [List.count_eq_length_filter] at hlen
      simpa [beq_eq_decide] using hlen
    rw [leave, leave, filter_eq_nil hb, htake, hfilter, filter_le_eq h]
    rfl

end Leave
end Watermarks

namespace Constraints

def watermarksAfter (watermarks : List Nat) (update : Option HrmpWatermarkUpdate) : List Nat :=
  (update.map fun u => leave watermarks u.watermark).getD watermarks

-- The constraints after modifications that they admit.
def modified (c : Constraints Hash) (m : ConstraintModifications) : Constraints Hash :=
  { c with
    requiredParent := m.requiredParent.getD c.requiredParent,
    validWatermarks := watermarksAfter c.validWatermarks m.hrmpWatermark,
    hrmpChannelsOut := c.hrmpChannelsOut.map fun id channel =>
      { bytesRemaining := channel.bytesRemaining - ((m.outboundHrmp[id]?).getD {}).bytesSubmitted,
        messagesRemaining :=
          channel.messagesRemaining - ((m.outboundHrmp[id]?).getD {}).messagesSubmitted },
    umpRemaining := c.umpRemaining - m.umpMessagesSent,
    umpRemainingBytes := c.umpRemainingBytes - m.umpBytesSent,
    dmpRemainingMessages := c.dmpRemainingMessages.drop m.dmpMessagesProcessed,
    validationCodeHash := if m.codeUpgradeApplied then (c.futureValidationCode.map (·.2)).getD
      c.validationCodeHash
      else c.validationCodeHash,
    futureValidationCode := if m.codeUpgradeApplied then none else c.futureValidationCode }

structure Admits (c : Constraints Hash) (m : ConstraintModifications) : Prop where
  watermark : ∀ n, m.hrmpWatermark = some (.trunk n) → n ∈ c.validWatermarks
  outbound : ∀ (id : Nat) mods, m.outboundHrmp[id]? = some mods →
    ∃ channel, c.hrmpChannelsOut[id]? = some channel ∧
    mods.bytesSubmitted ≤ channel.bytesRemaining ∧
      mods.messagesSubmitted ≤ channel.messagesRemaining
  ump : m.umpMessagesSent ≤ c.umpRemaining
  umpBytes : m.umpBytesSent ≤ c.umpRemainingBytes
  dmp : m.dmpMessagesProcessed ≤ c.dmpRemainingMessages.length
  code : m.codeUpgradeApplied → c.futureValidationCode.isSome

theorem submit_eq_ok {id : Nat} {outbound : Option OutboundHrmpChannelLimitations}
    {mods : OutboundHrmpChannelModification} {left : OutboundHrmpChannelLimitations} :
    submit id outbound mods = .ok left ↔ ∃ channel, outbound = some channel ∧
      mods.bytesSubmitted ≤ channel.bytesRemaining ∧
        mods.messagesSubmitted ≤ channel.messagesRemaining ∧
      left = ⟨channel.bytesRemaining - mods.bytesSubmitted,
        channel.messagesRemaining - mods.messagesSubmitted⟩ := by
  simp only [submit, bind_eq_ok, Except.okOr_eq_ok, ensure_eq_ok, pure_eq_ok,
    Except.ok.injEq]
  constructor
  · rintro ⟨channel, h, _, h1, _, h2, rfl⟩
    exact ⟨channel, h, h1, h2, rfl⟩
  · rintro ⟨channel, h, h1, h2, rfl⟩
    exact ⟨channel, h, (), h1, (), h2, rfl⟩

theorem update_submit_eq_ok {channels : Std.ExtTreeMap Nat OutboundHrmpChannelLimitations} :
    c.hrmpChannelsOut.update submit m.outboundHrmp = .ok channels ↔
      (∀ (id : Nat) mods, m.outboundHrmp[id]? = some mods →
        ∃ channel, c.hrmpChannelsOut[id]? = some channel ∧
        mods.bytesSubmitted ≤ channel.bytesRemaining ∧
          mods.messagesSubmitted ≤ channel.messagesRemaining) ∧
      channels = (c.modified m).hrmpChannelsOut := by
  rw [update_eq_ok]
  constructor
  · intro h
    refine ⟨fun id mods hm => ?_, ext_getElem? fun id => ?_⟩
    · obtain ⟨left, hl, -⟩ := (h id).2 mods hm
      obtain ⟨channel, hc, h1, h2, -⟩ := submit_eq_ok.mp hl
      exact ⟨channel, hc, h1, h2⟩
    · simp only [modified, getElem?_map]
      cases hm : m.outboundHrmp[id]?
      case none =>
        rw [(h id).1 hm]
        cases c.hrmpChannelsOut[id]? <;> rfl
      case some mods =>
        obtain ⟨left, hl, hr⟩ := (h id).2 mods hm
        obtain ⟨channel, hc, -, -, rfl⟩ := submit_eq_ok.mp hl
        rw [hr, hc]
        rfl
  · rintro ⟨h, rfl⟩ id
    simp only [modified, getElem?_map]
    constructor
    · intro hm
      rw [hm]
      cases c.hrmpChannelsOut[id]? <;> rfl
    · intro mods hm
      obtain ⟨channel, hc, h1, h2⟩ := h id mods hm
      refine ⟨_, submit_eq_ok.mpr ⟨channel, hc, h1, h2, rfl⟩, ?_⟩
      rw [hc, hm]
      rfl

theorem drainWatermarks_eq_ok {l l' : List Nat} (h : l.Pairwise (· ≤ ·)) :
    drainWatermarks l update = .ok l' ↔
      (∀ n, update = some (.trunk n) → n ∈ l) ∧ l' = watermarksAfter l update := by
  cases update
  case none => simp [drainWatermarks, watermarksAfter, eq_comm (a := l)]
  case some update =>
    have hs := binarySearch_spec h update.watermark
    simp only [drainWatermarks, watermarksAfter, Option.map_some, Option.getD_some,
      Option.some.injEq]
    cases hr : binarySearch l update.watermark
    all_goals
      rw [hr] at hs
      obtain ⟨hm, hd⟩ := hs
    case ok i =>
      simp only [hd, Except.ok.injEq]
      constructor
      · rintro rfl
        refine ⟨?_, rfl⟩
        rintro n rfl
        exact hm
      · exact fun h => h.2.symm
    case error i =>
      cases update
      case head n =>
        simp only [hd, Except.ok.injEq]
        constructor
        · rintro rfl
          exact ⟨by simp, rfl⟩
        · exact fun h => h.2.symm
      case trunk n =>
        simp only [reduceCtorEq, false_iff, not_and]
        exact fun h => absurd (h n rfl) hm

theorem checkModifications_eq_ok : c.checkModifications m = .ok u ↔ c.Admits m := by
  simp only [checkModifications, bind_eq_ok, ensure_eq_ok, update_submit_eq_ok]
  constructor
  · rintro ⟨_, h1, _, ⟨h2, -⟩, _, h3, _, h4, _, h5, h6⟩
    refine ⟨fun n hn => ?_, h2, h3, h4, h5, h6⟩
    simpa [hn] using h1
  · rintro ⟨h1, h2, h3, h4, h5, h6⟩
    refine ⟨(), ?_, _, ⟨h2, rfl⟩, (), h3, (), h4, (), h5, h6⟩
    cases hw : m.hrmpWatermark
    case none => rfl
    case some update =>
      cases update
      case head => rfl
      case trunk => simpa using h1 _ hw

theorem applyModifications_eq_ok (h : c.validWatermarks.Pairwise (· ≤ ·)) :
    c.applyModifications m = .ok c' ↔ c.Admits m ∧ c' = c.modified m := by
  have hcode (hash : Hash) : (if m.codeUpgradeApplied then
      okOr (c.futureValidationCode.map (·.2)) ModificationError.appliedNonexistentCodeUpgrade
    else .ok c.validationCodeHash) = .ok hash ↔
      (m.codeUpgradeApplied → c.futureValidationCode.isSome) ∧
        hash = (c.modified m).validationCodeHash := by
    rw [modified, eq_comm (a := hash)]
    cases m.codeUpgradeApplied
    case false => simp
    case true => cases c.futureValidationCode <;> simp
  simp only [applyModifications, bind_eq_ok, ensure_eq_ok, update_submit_eq_ok,
    drainWatermarks_eq_ok h, hcode, pure_eq_ok, Except.ok.injEq]
  constructor
  · rintro ⟨_, ⟨h1, rfl⟩, _, ⟨h2, rfl⟩, _, h3, _, h4, _, h5, _, ⟨h6, rfl⟩, rfl⟩
    exact ⟨⟨h1, h2, h3, h4, h5, h6⟩, rfl⟩
  · rintro ⟨⟨h1, h2, h3, h4, h5, h6⟩, rfl⟩
    exact ⟨_, ⟨h1, rfl⟩, _, ⟨h2, rfl⟩, (), h3, (), h4, (), h5, _, ⟨h6, rfl⟩, rfl⟩

theorem parent_of_apply (h : c.applyModifications m = .ok c') :
    c'.requiredParent = m.requiredParent.getD c.requiredParent ∧
      c'.minRelayParentNumber = c.minRelayParentNumber := by
  simp only [applyModifications, bind_eq_ok] at h
  obtain ⟨_, -, _, -, _, -, _, -, _, -, _, -, h⟩ := h
  cases h
  exact ⟨rfl, rfl⟩

theorem applyModifications_identity : c.applyModifications .identity = .ok c := by
  have hu : c.hrmpChannelsOut.update submit ∅ = .ok c.hrmpChannelsOut := by
    rw [update_eq_ok]
    simp
  simp [applyModifications, ConstraintModifications.identity, hu, Except.ensure, drainWatermarks]

section Stack

theorem mem_watermarksAfter {l : List Nat} {n : Nat} (h : n ∈ watermarksAfter l update) :
    n ∈ l := by
  cases update
  case none => exact h
  case some u => exact (mem_leave.mp h).1

theorem sorted_modified (h : c.validWatermarks.Pairwise (· ≤ ·)) :
    (c.modified m).validWatermarks.Pairwise (· ≤ ·) := by
  change (watermarksAfter c.validWatermarks m.hrmpWatermark).Pairwise (· ≤ ·)
  cases m.hrmpWatermark
  case none => exact h
  case some u => exact sorted_leave h

theorem lookup_stack_outboundHrmp {id : Nat} : ((m.stack m').outboundHrmp[id]?).getD {} =
    { bytesSubmitted := ((m.outboundHrmp[id]?).getD {}).bytesSubmitted +
        ((m'.outboundHrmp[id]?).getD {}).bytesSubmitted,
      messagesSubmitted := ((m.outboundHrmp[id]?).getD {}).messagesSubmitted +
        ((m'.outboundHrmp[id]?).getD {}).messagesSubmitted } := by
  rw [ConstraintModifications.stack, lookup_merge]
  cases m'.outboundHrmp[id]? <;> simp

theorem Admits.submitted_le (h : c.Admits m) {id : Nat} {channel : OutboundHrmpChannelLimitations}
    (hc : c.hrmpChannelsOut[id]? = some channel) :
    ((m.outboundHrmp[id]?).getD {}).bytesSubmitted ≤ channel.bytesRemaining ∧
      ((m.outboundHrmp[id]?).getD {}).messagesSubmitted ≤ channel.messagesRemaining := by
  cases hm : m.outboundHrmp[id]?
  case none => exact ⟨Nat.zero_le _, Nat.zero_le _⟩
  case some mods =>
    obtain ⟨channel', hc', hle⟩ := h.outbound id mods hm
    cases hc.symm.trans hc'
    exact hle

theorem Admits.stack (h : c.Admits m) (h' : (c.modified m).Admits m') : c.Admits (m.stack m') where
  watermark n hn := by
    change m'.hrmpWatermark.or m.hrmpWatermark = _ at hn
    cases hw : m'.hrmpWatermark
    case none   => exact h.watermark n (by simpa [hw] using hn)
    case some u => exact mem_watermarksAfter (h'.watermark n (by simpa [hw] using hn))
  outbound id mods hm := by
    rw [ConstraintModifications.stack, lookup_merge] at hm
    cases hm' : m'.outboundHrmp[id]?
    case none =>
      rw [hm'] at hm
      exact h.outbound id mods hm
    case some v =>
      rw [hm'] at hm
      cases hm
      obtain ⟨left, hl, hle⟩ := h'.outbound id v hm'
      rw [modified, getElem?_map] at hl
      obtain ⟨channel, hc, rfl⟩ := Option.map_eq_some_iff.mp hl
      have hs := h.submitted_le hc
      exact ⟨channel, hc, by dsimp only at hle ⊢; omega, by dsimp only at hle ⊢; omega⟩
  ump      := Nat.add_le_of_le_sub' h.ump h'.ump
  umpBytes := Nat.add_le_of_le_sub' h.umpBytes h'.umpBytes
  dmp      := by
    have hd := h'.dmp
    rw [modified, List.length_drop] at hd
    exact Nat.add_le_of_le_sub' h.dmp hd
  code hc  := by
    obtain hc | hc := Bool.or_eq_true_iff.mp hc
    · exact h.code hc
    · have hf := h'.code hc
      rw [modified] at hf
      cases hm : m.codeUpgradeApplied
      case false => simpa [hm] using hf
      case true  => exact h.code hm

theorem modified_modified (h' : (c.modified m).Admits m') :
    (c.modified m).modified m' = { c.modified (m.stack m') with
      validWatermarks := watermarksAfter (watermarksAfter c.validWatermarks m.hrmpWatermark)
        m'.hrmpWatermark } := by
  have hcode : m.codeUpgradeApplied = true → m'.codeUpgradeApplied = false := by
    intro hm
    by_contra hm'
    have hf := h'.code (Bool.eq_true_of_not_eq_false hm')
    simp [modified, hm] at hf
  have hchannels : ((c.modified m).modified m').hrmpChannelsOut =
      (c.modified (m.stack m')).hrmpChannelsOut := by
    apply ext_getElem?
    intro id
    simp only [modified, getElem?_map, Option.map_map, lookup_stack_outboundHrmp]
    congr 1
    funext channel
    simp [Nat.sub_sub]
  simp only [modified, ConstraintModifications.stack, Nat.sub_sub, List.drop_drop] at hchannels ⊢
  rw [hchannels]
  congr 1
  case e_requiredParent => cases m'.requiredParent <;> rfl
  -- An upgrade is not applied twice.
  all_goals by_cases hm : m.codeUpgradeApplied = true
  all_goals simp_all

end Stack
end Constraints

section Check

variable [LinearOrder Hash] {relayParent : RelayChainBlockInfo Hash}
  {commitments : CandidateCommitments}
variable {codeHash : Hash} {pvd : PersistedValidationData Hash}

-- What is known of the modifications of a candidate that was checked.
structure Checked (relayParent : RelayChainBlockInfo Hash) (c : Constraints Hash)
    (commitments : CandidateCommitments) (m : ConstraintModifications) : Prop where
  admits : c.Admits m
  requiredParent : m.requiredParent = some commitments.headData
  watermark : m.hrmpWatermark = some (if commitments.hrmpWatermark = relayParent.number
    then .head commitments.hrmpWatermark else .trunk commitments.hrmpWatermark)
  code : m.codeUpgradeApplied = c.futureValidationCode.any (·.1 ≤ relayParent.number)
  relayParent : c.minRelayParentNumber ≤ relayParent.number

theorem checkAgainstConstraints_eq_ok
    (h : checkAgainstConstraints relayParent c commitments codeHash pvd = .ok m) :
    Checked relayParent c commitments m := by
  simp only [checkAgainstConstraints, validateAgainstConstraints, validateCommitments, bind_eq_ok,
    pure_eq_ok, ensure_eq_ok, Except.ok.injEq, Except.mapError_eq_ok,
    Constraints.checkModifications_eq_ok] at h
  obtain ⟨_, -, _, ⟨_, ⟨_, -, _, -, _, hr, -⟩, _, -, _, -, _, -, ha⟩, rfl⟩ := h
  exact ⟨ha, rfl, rfl, rfl, hr⟩

theorem Fragment.checked (f : Fragment Hash) :
    Checked f.relayParent f.operatingConstraints f.candidate.commitments f.modifications :=
  checkAgainstConstraints_eq_ok f.valid

end Check
end Prospective
