import RostroModel.XcmpQueue.Queue

namespace XcmpQueue

open Function (update_of_ne)

variable {P : Type} [LinearOrder P] {config : Config} {p r : P}
variable {l l' : List (OutboundChannelDetails P)} {d d' : OutboundChannelDetails P}

-- There is one record per channel.
def Distinct (statuses : List (OutboundChannelDetails P)) : Prop :=
  (statuses.map (·.recipient)).Nodup

theorem find_recipient (h : find p l = some d) : d.recipient = p := by
  simpa using List.find?_some h

theorem find_eq_none_iff : find p l = none ↔ ∀ d ∈ l, d.recipient ≠ p := by
  simp [find]

theorem Distinct.find_iff (h : Distinct l) : find p l = some d ↔ d ∈ l ∧ d.recipient = p := by
  refine ⟨fun hf => ⟨List.mem_of_find?_eq_some hf, find_recipient hf⟩, ?_⟩
  rintro ⟨hm, rfl⟩
  have hs : (find d.recipient l).isSome := List.find?_isSome.mpr ⟨d, hm, by simp⟩
  obtain ⟨e, he⟩ := Option.isSome_iff_exists.mp hs
  rw [he, List.inj_on_of_nodup_map h (List.mem_of_find?_eq_some he) hm (find_recipient he)]

theorem Distinct.find_perm (h : Distinct l) (hp : l'.Perm l) : find p l' = find p l := by
  have h' : Distinct l' := (hp.map _).nodup_iff.mpr h
  apply Option.ext
  intro d
  rw [h.find_iff, h'.find_iff, hp.mem_iff]

section Changes

variable {f : OutboundChannelDetails P → OutboundChannelDetails P}
variable (hf : ∀ d, d.recipient = p → (f d).recipient = p)

include hf in
theorem find_updateFirst :
    find r (updateFirst p f l) = if r = p then (find p l).map f else find r l := by
  induction l with
  | nil => simp [updateFirst, find]
  | cons d ds hi =>
    by_cases hd : d.recipient = p
    · simp only [updateFirst]
      by_cases hr : r = p
      · subst hr
        simp [find, hd, hf d hd]
      · simp [find, hr, hd, hf d hd, Ne.symm hr]
    · simp only [updateFirst, if_neg hd]
      by_cases hr : r = p
      · subst hr
        simpa [find, hd] using hi
      · by_cases hdr : d.recipient = r
        · simp [find, hdr, hr]
        · simpa [find, hr, hdr] using hi

include hf in
theorem recipients_updateFirst : (updateFirst p f l).map (·.recipient) = l.map (·.recipient) := by
  induction l with
  | nil => rfl
  | cons d ds hi =>
    by_cases hd : d.recipient = p
    · simp [updateFirst, hd, hf d hd]
    · simp [updateFirst, hd, hi]

include hf in
theorem Distinct.updateFirst (h : Distinct l) : Distinct (updateFirst p f l) := by
  unfold Distinct
  rw [recipients_updateFirst hf]
  exact h

theorem removeFirst_sublist : (removeFirst p l).Sublist l := by
  induction l with
  | nil => exact List.Sublist.refl _
  | cons d ds hi =>
    by_cases hd : d.recipient = p
    · simp [removeFirst, hd]
    · simp only [removeFirst, if_neg hd]
      exact hi.cons_cons d

theorem Distinct.removeFirst (h : Distinct l) : Distinct (removeFirst p l) :=
  h.sublist (removeFirst_sublist.map _)

theorem find_removeFirst_ne (hr : r ≠ p) : find r (removeFirst p l) = find r l := by
  induction l with
  | nil => rfl
  | cons d ds hi =>
    by_cases hd : d.recipient = p
    · simp [removeFirst, find, hd, Ne.symm hr]
    · by_cases hdr : d.recipient = r
      · simp [removeFirst, find, hdr, hr]
      · simpa [removeFirst, find, hd, hdr] using hi

theorem Distinct.find_removeFirst (h : Distinct l) : find p (XcmpQueue.removeFirst p l) = none := by
  induction l with
  | nil => rfl
  | cons d ds hi =>
    obtain ⟨hd, hds⟩ := List.nodup_cons.mp h
    by_cases hp : d.recipient = p
    · subst hp
      rw [XcmpQueue.removeFirst, if_pos rfl, find_eq_none_iff]
      exact fun e he heq => hd (List.mem_map.mpr ⟨e, he, heq⟩)
    · simpa [XcmpQueue.removeFirst, find, hp] using hi hds

theorem find_append :
    find r (l ++ [d]) = (find r l).or (if d.recipient = r then some d else none) := by
  unfold find
  by_cases h : d.recipient = r <;> simp

theorem Distinct.append (h : Distinct l) (hd : find d.recipient l = none) :
    Distinct (l ++ [d]) := by
  unfold Distinct
  rw [List.map_append]
  apply List.Nodup.append h (by simp)
  intro a ha hb
  obtain ⟨e, he, rfl⟩ := List.mem_map.mp ha
  exact find_eq_none_iff.mp hd e he (by simpa using hb)

end Changes

-- The record of one channel is replaced, or a first one is added.
structure Replaces (p : P) (d : OutboundChannelDetails P) (l l' : List (OutboundChannelDetails P)) :
    Prop where
  distinct : Distinct l → Distinct l'
  here : find p l' = some d
  other : ∀ r, r ≠ p → find r l' = find r l

theorem Replaces.update {f : OutboundChannelDetails P → OutboundChannelDetails P}
    (h : find p l = some d) (hf : ∀ d, d.recipient = p → (f d).recipient = p) :
    Replaces p (f d) l (updateFirst p f l) where
  distinct := fun hl => hl.updateFirst hf
  here := by rw [find_updateFirst hf, if_pos rfl, h]; rfl
  other := fun r hr => by rw [find_updateFirst hf, if_neg hr]

theorem Replaces.push (h : find p l = none) (hd : d.recipient = p)
    (hl : tryPush config d l = some l') :
    Replaces p d l l' := by
  unfold tryPush at hl
  split_ifs at hl
  obtain rfl := Option.some.inj hl
  subst hd
  constructor
  case distinct => exact fun hl => hl.append h
  case here => rw [find_append, h]; simp
  case other => exact fun r hr => by rw [find_append]; simp [Ne.symm hr]

theorem Replaces.trans {l'' : List (OutboundChannelDetails P)} (h : Replaces p d l l')
    (h' : Replaces p d' l' l'') : Replaces p d' l l'' where
  distinct := fun hl => h'.distinct (h.distinct hl)
  here := h'.here
  other := fun r hr => (h'.other r hr).trans (h.other r hr)

def detailsOf (p : P) (l : List (OutboundChannelDetails P)) : OutboundChannelDetails P :=
  (find p l).getD { recipient := p }

theorem detailsOf_recipient : (detailsOf p l).recipient = p := by
  unfold detailsOf
  cases h : find p l
  case none => rfl
  case some d => exact find_recipient h

theorem Replaces.getOrInsert (h : tryGetOrInsertOutboundChannel p config l = some (d, l')) :
    d = detailsOf p l ∧ Replaces p d l l' := by
  unfold tryGetOrInsertOutboundChannel at h
  unfold detailsOf
  split at h
  case h_1 d' hd =>
    obtain ⟨rfl, rfl⟩ := Prod.mk.inj (Option.some.inj h)
    exact ⟨by rw [hd]; rfl, ⟨id, hd, fun _ _ => rfl⟩⟩
  case h_2 hd =>
    obtain ⟨statuses, hs, heq⟩ := Option.map_eq_some_iff.mp h
    obtain ⟨rfl, rfl⟩ := Prod.mk.inj heq
    exact ⟨by rw [hd]; rfl, Replaces.push hd rfl hs⟩

namespace Queue

variable {q q' : Queue P}

-- What a call for one channel leaves as it is for another.
structure Same (p : P) (q q' : Queue P) : Prop where
  details : find p q'.outboundXcmpStatus = find p q.outboundXcmpStatus
  messages : q'.outboundXcmpMessages p = q.outboundXcmpMessages p
  signal : q'.signalMessages p = q.signalMessages p
  suspended : p ∈ q'.inboundXcmpSuspended ↔ p ∈ q.inboundXcmpSuspended
  sent : q'.sent p = q.sent p
  handed : q'.handed p = q.handed p

theorem Same.refl : Same p q q := ⟨rfl, rfl, rfl, Iff.rfl, rfl, rfl⟩

theorem Same.trans {q'' : Queue P} (h : Same p q q') (h' : Same p q' q'') : Same p q q'' where
  details := h'.details.trans h.details
  messages := h'.messages.trans h.messages
  signal := h'.signal.trans h.signal
  suspended := h'.suspended.trans h.suspended
  sent := h'.sent.trans h.sent
  handed := h'.handed.trans h.handed

-- A call for one channel.
structure Targets (config : Config) (p : P) (q q' : Queue P) : Prop where
  distinct : Distinct q.outboundXcmpStatus → Distinct q'.outboundXcmpStatus
  other : ∀ r, r ≠ p → Same r q q'
  room : q.inboundXcmpSuspended.card ≤ config.maxInboundSuspended →
    q'.inboundXcmpSuspended.card ≤ config.maxInboundSuspended

theorem Targets.refl : Targets config p q q := ⟨id, fun _ _ => .refl, id⟩

theorem Targets.trans {q'' : Queue P} (h : Targets config p q q') (h' : Targets config p q' q'') :
    Targets config p q q'' where
  distinct := fun hl => h'.distinct (h.distinct hl)
  other := fun r hr => (h.other r hr).trans (h'.other r hr)
  room := fun hc => h'.room (h.room hc)

theorem Targets.records (h : Distinct q.outboundXcmpStatus → Distinct l')
    (ho : ∀ r, r ≠ p → find r l' = find r q.outboundXcmpStatus) :
    Targets config p q { q with outboundXcmpStatus := l' } where
  distinct := h
  other := fun r hr => ⟨ho r hr, rfl, rfl, Iff.rfl, rfl, rfl⟩
  room := id

-- The signals processed or sent never touch the pages of messages.
inductive Suspends (p : P) (q q' : Queue P) : Prop
  | ignored (h : q' = q)
  | noted (h : q' = { q with outboundXcmpStatus := q'.outboundXcmpStatus })
      (hr : Replaces p { detailsOf p q.outboundXcmpStatus with state := .suspended }
        q.outboundXcmpStatus q'.outboundXcmpStatus)

theorem suspendChannel_spec : Suspends p q (q.suspendChannel config p) := by
  unfold suspendChannel
  split
  case h_1 d hd =>
    apply Suspends.noted rfl
    have := Replaces.update (f := fun d => { d with state := .suspended }) hd (fun _ h => h)
    simpa [detailsOf, hd] using this
  case h_2 hd =>
    split
    case h_1 l' hl =>
      apply Suspends.noted rfl
      simpa [detailsOf, hd] using Replaces.push hd rfl hl
    case h_2 => exact .ignored rfl

inductive Resumes (p : P) (q q' : Queue P) : Prop
  | ignored (h : q' = q)
  | noted (d : OutboundChannelDetails P) (hd : find p q.outboundXcmpStatus = some d)
      (h : q' = { q with outboundXcmpStatus := q'.outboundXcmpStatus })
      (hr : Replaces p { d with state := .ok } q.outboundXcmpStatus q'.outboundXcmpStatus)
  | dropped (d : OutboundChannelDetails P) (hd : find p q.outboundXcmpStatus = some d)
      (he : d.firstIndex = d.lastIndex)
      (h : q' = { q with outboundXcmpStatus := removeFirst p q.outboundXcmpStatus })

theorem resumeChannel_spec : Resumes p q (q.resumeChannel p) := by
  unfold resumeChannel
  split
  case h_1 d hd =>
    split_ifs with he
    · exact .dropped d hd he rfl
    · exact .noted d hd rfl (Replaces.update (f := fun d => { d with state := .ok }) hd
        fun _ h => h)
  case h_2 => exact .ignored rfl

theorem Suspends.targets (h : Suspends p q q') : Targets config p q q' := by
  cases h
  case ignored h => subst h; exact .refl
  case noted h hr =>
    rw [h]
    exact .records hr.distinct hr.other

theorem Resumes.targets (h : Resumes p q q') : Targets config p q q' := by
  cases h
  case ignored h => subst h; exact .refl
  case noted d hd h hr =>
    rw [h]
    exact .records hr.distinct hr.other
  case dropped d hd he h =>
    rw [h]
    exact .records (fun hl => hl.removeFirst) fun r hr => find_removeFirst_ne hr

theorem noticeSupport_spec : q.noticeSupport config p = q ∨
    ∃ l', q.noticeSupport config p = { q with outboundXcmpStatus := l' } ∧
      Replaces p { detailsOf p q.outboundXcmpStatus with
        flags := { (detailsOf p q.outboundXcmpStatus).flags with
          concatenatedOpaqueVersionedXcmSupport := true } } q.outboundXcmpStatus l' := by
  unfold noticeSupport
  split
  case h_1 d l' hl =>
    obtain ⟨hd, hr⟩ := Replaces.getOrInsert hl
    subst hd
    refine Or.inr ⟨_, rfl, hr.trans ?_⟩
    exact Replaces.update (f := fun d => { d with
      flags := { d.flags with concatenatedOpaqueVersionedXcmSupport := true } }) hr.here
        fun _ h => h
  case h_2 => exact .inl rfl

theorem noticeSupport_targets : Targets config p q (q.noticeSupport config p) := by
  rcases @noticeSupport_spec P _ config p q with h | ⟨l', h, hr⟩
  · rw [h]
    exact .refl
  · rw [h]
    exact .records hr.distinct hr.other

structure Signals (p : P) (signal : ChannelSignal) (q q' : Queue P) : Prop where
  result : q' = { q with
    signalMessages := Function.update q.signalMessages p (some signal.page)
    outboundXcmpStatus := q'.outboundXcmpStatus
    sent := Function.update q.sent p (some signal)
    handed := Function.update q.handed p none }
  records : Replaces p { detailsOf p q.outboundXcmpStatus with signalsExist := true }
    q.outboundXcmpStatus q'.outboundXcmpStatus

theorem sendSignal_spec {signal : ChannelSignal} : q.sendSignal config p signal = (false, q) ∨
      ∃ q', q.sendSignal config p signal = (true, q') ∧ Signals p signal q q' := by
  unfold sendSignal
  cases hd : find p q.outboundXcmpStatus with
  | some d =>
    split_ifs
    · exact .inl rfl
    · refine Or.inr ⟨_, rfl, rfl, ?_⟩
      have := Replaces.update (f := fun d => { d with signalsExist := true }) hd (fun _ h => h)
      simpa [detailsOf, hd] using this
  | none =>
    cases hl : tryPush config { recipient := p, signalsExist := true } q.outboundXcmpStatus with
    | none => exact .inl rfl
    | some l' =>
      split_ifs
      · exact .inl rfl
      · refine Or.inr ⟨_, rfl, rfl, ?_⟩
        simpa [detailsOf, hd] using Replaces.push hd rfl hl

theorem Signals.targets {signal : ChannelSignal} (h : Signals p signal q q') :
    Targets config p q q' where
  distinct := h.records.distinct
  other := fun r hr => by
    rw [h.result]
    exact ⟨h.records.other r hr, rfl, update_of_ne hr _ _, Iff.rfl,
      update_of_ne hr _ _, update_of_ne hr _ _⟩
  room := fun hc => by rw [h.result]; exact hc

-- What a report about the queue of a chain does: a signal is sent, and the set of suspended chains
-- is changed unless it is full.
inductive Reports (config : Config) (p : P) (q q' : Queue P) : Prop
  | nothing (h : q' = q)
  | resumed (q₁ : Queue P) (hp : p ∈ q.inboundXcmpSuspended) (hs : Signals p .resume q q₁)
      (h : q' = { q₁ with inboundXcmpSuspended := q₁.inboundXcmpSuspended.erase p })
  | suspended (q₁ : Queue P) (hp : p ∉ q.inboundXcmpSuspended) (hs : Signals p .suspend q q₁)
      (hc : q.inboundXcmpSuspended.card < config.maxInboundSuspended)
      (h : q' = { q₁ with inboundXcmpSuspended := insert p q₁.inboundXcmpSuspended })
  | refused (hp : p ∉ q.inboundXcmpSuspended) (hs : Signals p .suspend q q')
      (hc : ¬q.inboundXcmpSuspended.card < config.maxInboundSuspended)

theorem Signals.suspended_eq (h : Signals p signal q q') :
    q'.inboundXcmpSuspended = q.inboundXcmpSuspended := by
  rw [h.result]

theorem onQueueChanged_spec {ready : Nat} :
    Reports config p q (q.onQueueChanged config p ready) := by
  unfold onQueueChanged
  split_ifs with hp _ _
  · rcases @sendSignal_spec P _ config p q .resume with h | ⟨q1, h, hs⟩
    · rw [h]
      exact .nothing rfl
    · rw [h]
      exact .resumed q1 hp hs rfl
  · exact .nothing rfl
  · rcases @sendSignal_spec P _ config p q .suspend with h | ⟨q1, h, hs⟩
    · rw [h]
      exact .nothing rfl
    · rw [h]
      dsimp only
      split_ifs with hc
      · rw [hs.suspended_eq] at hc
        exact .suspended q1 hp hs hc rfl
      · rw [hs.suspended_eq] at hc
        exact .refused hp hs hc
  · exact .nothing rfl

theorem Reports.targets (h : Reports config p q q') : Targets config p q q' := by
  cases h
  case nothing h => subst h; exact .refl
  case refused hp hs hc => exact hs.targets
  case resumed q1 hp hs h =>
    have ht : Targets config p q q1 := hs.targets
    subst h
    refine ⟨ht.distinct, fun r hr => ?_, fun hc => (Finset.card_erase_le).trans (ht.room hc)⟩
    have ho := ht.other r hr
    exact { ho with suspended := by simpa [hr] using ho.suspended }
  case suspended q1 hp hs hc h =>
    have ht : Targets config p q q1 := hs.targets
    subst h
    refine ⟨ht.distinct, fun r hr => ?_, fun _ => ?_⟩
    · have ho := ht.other r hr
      exact { ho with suspended := by simpa [hr] using ho.suspended }
    · change (insert p q1.inboundXcmpSuspended).card ≤ _
      rw [hs.suspended_eq]
      exact (Finset.card_insert_le _ _).trans hc

theorem handleSignals_targets :
    Targets config p q (handleSignals config p count data weight q).2 := by
  induction count generalizing data weight q with
  | zero => cases data <;> exact .refl
  | succ count hi =>
    cases data with
    | nil => exact .refl
    | cons byte data =>
      unfold handleSignals
      split
      · split_ifs
        · exact .refl
        · exact suspendChannel_spec.targets.trans hi
      · split_ifs
        · exact .refl
        · exact resumeChannel_spec.targets.trans hi
      · exact .refl

theorem reports_targets {ready : List Nat} :
    Targets config p q (ready.foldl (fun q ready => q.onQueueChanged config p ready) q) := by
  induction ready generalizing q with
  | nil => exact .refl
  | cons n ns hi => exact onQueueChanged_spec.targets.trans hi

theorem handlePage_targets {page : InboundPage P} :
    Targets config page.sender q (q.handlePage config page weight).2 := by
  unfold handlePage
  split
  · exact .refl
  · split
    · exact handleSignals_targets
    · exact reports_targets
    · exact noticeSupport_targets.trans reports_targets
    · exact .refl
    · exact .refl

-- Where a fragment goes: to the last page, or to a new one.
inductive Placed (q : Queue P) (p : P) (format : XcmpMessageFormat) (fragment : Page) (size : Nat)
    (d d' : OutboundChannelDetails P) (page : Page) : Prop
  | appended (old : Page) (h : d.firstIndex < d.lastIndex)
      (hold : old = (q.outboundXcmpMessages p (d.lastIndex - 1)).getD [])
      (hf : old.head?.bind XcmpMessageFormat.decode = some format)
      (hlen : old.length + fragment.length ≤ size) (hpage : page = old ++ fragment)
      (hlast : d'.lastIndex = d.lastIndex)
  | started (hpage : page = format.encode :: fragment)
    (hlast : d'.lastIndex = (d.lastIndex + 1) % 2 ^ 16)

structure Sends (q : Queue P) (p : P) (format : XcmpMessageFormat) (fragment : Page) (size : Nat)
    (d' : OutboundChannelDetails P) (page : Page) (q' : Queue P) : Prop where
  fits : fragment.length + 1 ≤ size
  placed : Placed q p format fragment size (detailsOf p q.outboundXcmpStatus) d' page
  first : d'.firstIndex = (detailsOf p q.outboundXcmpStatus).firstIndex
  signals : d'.signalsExist = (detailsOf p q.outboundXcmpStatus).signalsExist
  records : Replaces p d' q.outboundXcmpStatus q'.outboundXcmpStatus
  result : q' = { q with
    outboundXcmpMessages := Function.update q.outboundXcmpMessages p
      (Function.update (q.outboundXcmpMessages p)
        ((d'.lastIndex + (2 ^ 16 - 1)) % 2 ^ 16) (some page))
    outboundXcmpStatus := q'.outboundXcmpStatus }

section SendFragment

variable {format : XcmpMessageFormat} {fragment : Page} {info : Option Nat}

omit [LinearOrder P] in
theorem existingPage_eq_some (h : q.existingPage p d format fragment size = some page) :
    d.firstIndex < d.lastIndex ∧ page = (q.outboundXcmpMessages p (d.lastIndex - 1)).getD [] ∧
      page.head?.bind XcmpMessageFormat.decode = some format ∧
        page.length + fragment.length ≤ size := by
  unfold existingPage at h
  dsimp only at h
  split_ifs at h with h1 h2
  obtain rfl := Option.some.inj h
  exact ⟨h1, rfl, h2.1, h2.2⟩

theorem sendFragment_spec : (∃ e, q.sendFragment config info p format fragment = (.error e, q)) ∨
    ∃ size n q' d' page, info = some size ∧
      q.sendFragment config info p format fragment = (.ok n, q') ∧
      Sends q p format fragment (min size config.maxPageSize) d' page q' := by
  unfold sendFragment
  cases info with
  | none => exact .inl ⟨_, rfl⟩
  | some size =>
    dsimp only
    by_cases hfit : min size config.maxPageSize < fragment.length + 1
    · rw [if_pos hfit]
      exact .inl ⟨_, rfl⟩
    rw [if_neg hfit]
    cases hins : tryGetOrInsertOutboundChannel p config q.outboundXcmpStatus with
    | none => exact .inl ⟨_, rfl⟩
    | some details =>
      obtain ⟨d, l'⟩ := details
      obtain ⟨rfl, hr⟩ := Replaces.getOrInsert hins
      dsimp only
      generalize hd : (if format = .concatenatedOpaqueVersionedXcm then _ else _) = d
      have hfirst : d.firstIndex = (detailsOf p q.outboundXcmpStatus).firstIndex := by
        rw [← hd]; split_ifs <;> rfl
      have hlast : d.lastIndex = (detailsOf p q.outboundXcmpStatus).lastIndex := by
        rw [← hd]; split_ifs <;> rfl
      have hsig : d.signalsExist = (detailsOf p q.outboundXcmpStatus).signalsExist := by
        rw [← hd]; split_ifs <;> rfl
      have hrec : d.recipient = p := by
        rw [← hd]; split_ifs <;> exact detailsOf_recipient
      cases hex : q.existingPage p d format fragment (min size config.maxPageSize) with
      | some old =>
        obtain ⟨h1, h2, h3, h4⟩ := existingPage_eq_some hex
        split_ifs
        · exact .inl ⟨_, rfl⟩
        · refine Or.inr ⟨size, _, _, d, old ++ fragment, rfl, rfl, by omega, ?_, hfirst,
            hsig, ?_, rfl⟩
          · rw [hfirst, hlast] at h1
            rw [hlast] at h2
            exact .appended old h1 h2 h3 h4 rfl hlast
          · exact hr.trans (Replaces.update (f := fun _ => d) hr.here fun _ _ => hrec)
      | none =>
        split_ifs
        · exact .inl ⟨_, rfl⟩
        · refine Or.inr ⟨size, _, _, { d with lastIndex := (d.lastIndex + 1) % 2 ^ 16 },
            format.encode :: fragment, rfl, rfl, by omega, ?_, hfirst, hsig, ?_, rfl⟩
          · exact .started rfl (by dsimp only; rw [hlast])
          · exact hr.trans (Replaces.update (f := fun _ => { d with
              lastIndex := (d.lastIndex + 1) % 2 ^ 16 }) hr.here fun _ _ => hrec)

end SendFragment

theorem Sends.targets {format : XcmpMessageFormat} {fragment : Page} {size : Nat} {page : Page}
    (h : Sends q p format fragment size d' page q') : Targets config p q q' where
  distinct := h.records.distinct
  other := fun r hr => by
    rw [h.result]
    exact ⟨h.records.other r hr, update_of_ne hr _ _, rfl, Iff.rfl, rfl, rfl⟩
  room := fun hc => by rw [h.result]; exact hc

end Queue
end XcmpQueue
