import RostroModel.XcmpQueue.Taking

namespace XcmpQueue

open ChannelSignal (resume suspend)

theorem XcmpMessageFormat.encode_of_decode (h : decode byte = some format) :
    byte = format.encode := by
  unfold decode at h
  split at h <;> cases h <;> rfl

theorem ChannelSignal.encode_of_decode (h : decode byte = some signal) : byte = signal.encode := by
  unfold decode at h
  split at h <;> cases h <;> rfl

variable {P : Type} [LinearOrder P] {config : Config} {p r : P}

inductive Call (P : Type)
  | sendFragment (channelInfo : Option Nat) (p : P) (format : XcmpMessageFormat) (fragment : Page)
  | handleXcmpMessages (pages : List (InboundPage P)) (weight : Nat)
  | onQueueChanged (p : P) (readyPages : Nat)
  | takeOutboundMessages (maximumChannels : Nat) (excluded : List P) (status : P → ChannelStatus)

def Call.run (config : Config) (q : Queue P) : Call P → Queue P
  | .sendFragment channelInfo p format fragment =>
    (q.sendFragment config channelInfo p format fragment).2
  | .handleXcmpMessages pages weight => Queue.handleXcmpMessages config pages weight q
  | .onQueueChanged p readyPages => q.onQueueChanged config p readyPages
  | .takeOutboundMessages channels excluded status =>
    (q.takeOutboundMessages channels excluded status).2

namespace Queue

variable {q q' : Queue P}

def signalled (q : Queue P) (p : P) : Bool :=
  (find p q.outboundXcmpStatus).any (·.signalsExist)

-- The signal that waits for a channel.
def pending (q : Queue P) (p : P) : Option Page :=
  if q.signalled p then q.signalMessages p else none

theorem signalled_eq_detailsOf :
    q.signalled p = (detailsOf p q.outboundXcmpStatus).signalsExist := by
  unfold signalled detailsOf
  cases find p q.outboundXcmpStatus <;> rfl

-- The last signal waits for the channel or was handed out, and it says
-- whether the chain is suspended.
structure Faithful (config : Config) (p : P) (q : Queue P) : Prop where
  distinct : Distinct q.outboundXcmpStatus
  room : q.inboundXcmpSuspended.card ≤ config.maxInboundSuspended
  stored : q.signalled p = true → (q.signalMessages p).isSome
  latest : (q.pending p).or (q.handed p) = (q.sent p).map ChannelSignal.page
  suspended : p ∈ q.inboundXcmpSuspended ↔ q.sent p = some .suspend

structure KeepsSignal (p : P) (q q' : Queue P) : Prop where
  signalled : q'.signalled p = q.signalled p
  message : q'.signalMessages p = q.signalMessages p
  suspended : p ∈ q'.inboundXcmpSuspended ↔ p ∈ q.inboundXcmpSuspended
  sent : q'.sent p = q.sent p
  handed : q'.handed p = q.handed p

theorem KeepsSignal.refl : KeepsSignal p q q := ⟨rfl, rfl, Iff.rfl, rfl, rfl⟩

theorem KeepsSignal.trans {q'' : Queue P} (h : KeepsSignal p q q') (h' : KeepsSignal p q' q'') :
    KeepsSignal p q q'' where
  signalled := h'.signalled.trans h.signalled
  message := h'.message.trans h.message
  suspended := h'.suspended.trans h.suspended
  sent := h'.sent.trans h.sent
  handed := h'.handed.trans h.handed

theorem Same.keepsSignal (h : Same p q q') : KeepsSignal p q q' where
  signalled := by rw [signalled, h.details]; rfl
  message := h.signal
  suspended := h.suspended
  sent := h.sent
  handed := h.handed

theorem KeepsSignal.faithful (hk : KeepsSignal p q q') (h : Faithful config p q)
    (hd : Distinct q'.outboundXcmpStatus)
    (hr : q'.inboundXcmpSuspended.card ≤ config.maxInboundSuspended) : Faithful config p q' where
  distinct := hd
  room := hr
  stored := by rw [hk.signalled, hk.message]; exact h.stored
  latest := by
    have hp : q'.pending p = q.pending p := by rw [pending, hk.signalled, hk.message]; rfl
    rw [hp, hk.handed, hk.sent]
    exact h.latest
  suspended := by rw [hk.suspended, hk.sent]; exact h.suspended

theorem Faithful.keep (h : Faithful config p q) (ht : Targets config r q q')
    (hk : KeepsSignal p q q') :
    Faithful config p q' :=
  hk.faithful h (ht.distinct h.distinct) (ht.room h.room)

theorem Replaces.signalled
    (h : Replaces p d q.outboundXcmpStatus q'.outboundXcmpStatus) :
    q'.signalled p = d.signalsExist := by
  rw [Queue.signalled, h.here]
  rfl

-- Only the records change, and what the record says about signals does not.
theorem KeepsSignal.records (hr : Replaces p d q.outboundXcmpStatus l')
    (hd : d.signalsExist = q.signalled p) :
    KeepsSignal p q { q with outboundXcmpStatus := l' } :=
  ⟨(Replaces.signalled hr).trans hd, rfl, Iff.rfl, rfl, rfl⟩

theorem Suspends.keepsSignal (h : Suspends p q q') : KeepsSignal p q q' := by
  cases h
  case ignored h => subst h; exact .refl
  case noted h hr =>
    rw [h]
    exact .records hr signalled_eq_detailsOf.symm

-- A record that is empty has no signals, so that it can be dropped.
def Undisturbed (p : P) (q : Queue P) : Prop :=
  ∀ d, find p q.outboundXcmpStatus = some d → d.firstIndex = d.lastIndex → d.signalsExist = false

theorem Resumes.keepsSignal (h : Resumes p q q') (hl : Distinct q.outboundXcmpStatus)
    (hu : Undisturbed p q) : KeepsSignal p q q' := by
  cases h
  case ignored h => subst h; exact .refl
  case noted d hd h hr =>
    rw [h]
    exact .records hr (by rw [signalled, hd]; rfl)
  case dropped d hd he h =>
    subst h
    refine ⟨?_, rfl, Iff.rfl, rfl, rfl⟩
    rw [signalled, signalled, hl.find_removeFirst, hd]
    exact (hu d hd he).symm

theorem Suspends.undisturbed (h : Suspends p q q') (hu : Undisturbed p q) : Undisturbed p q' := by
  cases h
  case ignored h => subst h; exact hu
  case noted h hr =>
    intro d hd he
    obtain rfl := Option.some.inj (hr.here.symm.trans hd)
    unfold detailsOf at he ⊢
    cases hf : find p q.outboundXcmpStatus with
    | none => rfl
    | some d =>
      rw [hf] at he
      exact hu d hf he

theorem Resumes.undisturbed (h : Resumes p q q') (hl : Distinct q.outboundXcmpStatus)
    (hu : Undisturbed p q) : Undisturbed p q' := by
  cases h
  case ignored h => subst h; exact hu
  case noted d hd h hr =>
    intro d' hd' he
    obtain rfl := Option.some.inj (hr.here.symm.trans hd')
    exact hu d hd he
  case dropped d hd he h =>
    subst h
    intro d' hd'
    rw [hl.find_removeFirst] at hd'
    cases hd'

theorem handleSignals_keepsSignal {data : Page} (hl : Distinct q.outboundXcmpStatus)
    (h : resume.encode ∉ data.take count ∨ Undisturbed p q) :
    KeepsSignal p q (handleSignals config p count data weight q).2 := by
  induction count generalizing data weight q with
  | zero => cases data <;> exact .refl
  | succ count hi =>
    cases data with
    | nil => exact .refl
    | cons byte data =>
      rw [List.take_succ_cons, List.mem_cons, not_or] at h
      unfold handleSignals
      split
      case h_1 hb =>
        split_ifs
        · exact .refl
        · have hs : Suspends p q (q.suspendChannel config p) := suspendChannel_spec
          have ht : Targets config p q _ := hs.targets
          exact hs.keepsSignal.trans (hi (ht.distinct hl) (h.imp And.right hs.undisturbed))
      case h_2 hb =>
        have hu : Undisturbed p q :=
          h.resolve_left fun h => h.1 (ChannelSignal.encode_of_decode hb).symm
        split_ifs
        · exact .refl
        · have hs : Resumes p q (q.resumeChannel p) := resumeChannel_spec
          have ht : Targets config p q _ := hs.targets
          exact (hs.keepsSignal hl hu).trans (hi (ht.distinct hl) (.inr (hs.undisturbed hl hu)))
      case h_3 => exact .refl

theorem noticeSupport_keepsSignal : KeepsSignal p q (q.noticeSupport config p) := by
  rcases @noticeSupport_spec P _ config p q with h | ⟨l', h, hr⟩
  · rw [h]
    exact .refl
  · rw [h]
    exact .records hr signalled_eq_detailsOf.symm

-- There is room to note that a chain is suspended.
def Notable (config : Config) (p : P) (q : Queue P) : Prop :=
  p ∈ q.inboundXcmpSuspended ∨ q.inboundXcmpSuspended.card < config.maxInboundSuspended

theorem Signals.latest (h : Signals p signal q q') :
    q'.signalled p = true ∧ q'.signalMessages p = some signal.page ∧ q'.sent p = some signal ∧
      q'.handed p = none := by
  refine ⟨Replaces.signalled h.records, ?_, ?_, ?_⟩
  all_goals
    rw [h.result]
    exact Function.update_self ..

theorem Signals.pending (h : Signals p signal q q') : q'.pending p = some signal.page := by
  obtain ⟨h1, h2, _⟩ := h.latest
  rw [Queue.pending, if_pos h1, h2]

theorem Reports.faithful (h : Reports config p q q') (hf : Faithful config p q)
    (hn : Notable config p q) :
    Faithful config p q' ∧ Notable config p q' := by
  have ht : Targets config p q q' := h.targets
  cases h
  case nothing h => subst h; exact ⟨hf, hn⟩
  case refused hp hs hc => exact absurd (hn.resolve_left hp) hc
  case resumed q1 hp hs h =>
    obtain ⟨_, h2, h3, _⟩ := hs.latest
    have hpend := hs.pending
    have hq := hs.suspended_eq
    subst h
    refine ⟨⟨ht.distinct hf.distinct, ht.room hf.room, fun _ => ?_, ?_, ?_⟩, Or.inr ?_⟩
    · exact Option.isSome_iff_exists.mpr ⟨_, h2⟩
    · change (q1.pending p).or (q1.handed p) = (q1.sent p).map _
      rw [hpend, h3]
      rfl
    · change p ∈ q1.inboundXcmpSuspended.erase p ↔ q1.sent p = _
      rw [h3]
      simp
    · change (q1.inboundXcmpSuspended.erase p).card < _
      rw [hq]
      exact (Finset.card_erase_lt_of_mem hp).trans_le hf.room
  case suspended q1 hp hs hc h =>
    obtain ⟨_, h2, h3, _⟩ := hs.latest
    have hpend := hs.pending
    subst h
    refine ⟨⟨ht.distinct hf.distinct, ht.room hf.room, fun _ => ?_, ?_, ?_⟩,
      Or.inl (Finset.mem_insert_self _ _)⟩
    · exact Option.isSome_iff_exists.mpr ⟨_, h2⟩
    · change (q1.pending p).or (q1.handed p) = (q1.sent p).map _
      rw [hpend, h3]
      rfl
    · change p ∈ insert p q1.inboundXcmpSuspended ↔ q1.sent p = _
      rw [h3]
      simp

theorem Faithful.reports (hf : Faithful config p q) (hn : ready = [] ∨ Notable config p q) :
    Faithful config p (ready.foldl (fun q ready => q.onQueueChanged config p ready) q) := by
  induction ready generalizing q with
  | nil => exact hf
  | cons n ns hi =>
    obtain ⟨hf', hn'⟩ := Reports.faithful onQueueChanged_spec hf
      (hn.resolve_left (List.cons_ne_nil n ns))
    exact hi hf' (.inr hn')

-- A page from the chain itself resumes the channel only if its record has pages or no signals, and
-- there is room to note that the chain is suspended if its messages are reported.
def CarefulPage (config : Config) (p : P) (q : Queue P) (page : InboundPage P) : Prop :=
  page.sender = p →
    (∀ data, page.data = XcmpMessageFormat.signals.encode :: data →
      resume.encode ∉ data.take 3 ∨ Undisturbed p q) ∧
    (page.readyPages = [] ∨ Notable config p q)

theorem Faithful.handlePage (hf : Faithful config p q)
    (hc : CarefulPage config p q page) : Faithful config p (q.handlePage config page weight).2 := by
  by_cases hp : page.sender = p
  · obtain ⟨hsig, hready⟩ := hc hp
    subst hp
    unfold Queue.handlePage
    split
    case h_1 => exact hf
    case h_2 byte data hdata =>
      split
      case h_1 hb =>
        rw [XcmpMessageFormat.encode_of_decode hb] at hdata
        exact hf.keep handleSignals_targets
          (handleSignals_keepsSignal hf.distinct (hsig data hdata))
      case h_2 => exact hf.reports hready
      case h_3 =>
        have hf' : Faithful config page.sender (q.noticeSupport config page.sender) :=
          hf.keep noticeSupport_targets noticeSupport_keepsSignal
        apply hf'.reports
        apply hready.imp id
        intro hn
        rcases @noticeSupport_spec P _ config page.sender q with h | ⟨l', h, _⟩
        · rw [h]
          exact hn
        · rw [h]
          exact hn
      case h_4 => exact hf
      case h_5 => exact hf
  · have ht : Targets config page.sender q (q.handlePage config page weight).2 := handlePage_targets
    exact hf.keep ht (ht.other p (Ne.symm hp)).keepsSignal

-- Every page finds the queue in a state in which it is careful.
def CarefulPages (config : Config) (p : P) : List (InboundPage P) → Nat → Queue P → Prop
  | [], _, _ => True
  | page :: pages, weight, q => CarefulPage config p q page ∧
    CarefulPages config p pages (q.handlePage config page weight).1
      (q.handlePage config page weight).2

theorem Faithful.handleXcmpMessages (hf : Faithful config p q)
    (hc : CarefulPages config p pages weight q) :
    Faithful config p (Queue.handleXcmpMessages config pages weight q) := by
  induction pages generalizing q weight with
  | nil => exact hf
  | cons page ps hi => exact hi (hf.handlePage hc.1) hc.2

theorem Takes.quiet {ever : Nat} {d d' : OutboundChannelDetails P} {t t' : Taking P}
    (h : Takes ever d t d' t') (hd : d.signalsExist = false) :
    d'.signalsExist = false ∧ t'.signals = t.signals := by
  cases h
  case nothing => exact ⟨hd, rfl⟩
  case signal hs hm hsig hres => rw [hd] at hs; cases hs
  case message hs hi hm hsig hres => exact ⟨settle_signalsExist.trans hd, hsig⟩
  case notification flags hs hm hsig hres => exact ⟨settle_signalsExist.trans hd, hsig⟩

theorem Takes.loud {ever : Nat} {d d' : OutboundChannelDetails P} {t t' : Taking P}
    (h : Takes ever d t d' t') (hd : d.signalsExist = true) : d' = d ∧ t' = t ∨
      d'.signalsExist = false ∧ t'.signals d.recipient = none ∧ t'.result = t.result ++
          (handOut ever ((t.signals d.recipient).getD [])).map fun page => (d.recipient, page) := by
  cases h
  case nothing => exact .inl ⟨rfl, rfl⟩
  case signal hs hm hsig hres =>
    exact .inr ⟨settle_signalsExist, by rw [hsig]; exact Function.update_self .., hres⟩
  case message hs hi hm hsig hres => rw [hd] at hs; cases hs
  case notification flags hs hm hsig hres => rw [hd] at hs; cases hs

theorem Faithful.waiting (hf : Faithful config p q) (h : q.signalled p = true) :
    ∃ signal : ChannelSignal, q.signalMessages p = some signal.page ∧ q.sent p = some signal := by
  obtain ⟨page, hpage⟩ := Option.isSome_iff_exists.mp (hf.stored h)
  have hl := hf.latest
  rw [pending, if_pos h, hpage] at hl
  obtain ⟨signal, hs, rfl⟩ := Option.map_eq_some_iff.mp hl.symm
  exact ⟨signal, hpage, hs⟩

section Take

variable {status : P → ChannelStatus} {result : List (P × Page)}

theorem Outcome.keepsSignal (ho : Outcome p q status result q')
    (hs : q'.signalled p = q.signalled p) (hm : q'.signalMessages p = q.signalMessages p)
    (hp : q.signalled p = true → pagesFor p result = []) :
    KeepsSignal p q q' := by
  refine ⟨hs, hm, by rw [ho.suspended], by rw [ho.sent], ?_⟩
  rw [ho.handed]
  split_ifs with h
  · rw [hp h]
    rfl
  · rfl

theorem Outcome.faithful (ho : Outcome p q status result q') (hf : Faithful config p q)
    (hfit : ∀ now ever, status p = .ready now ever → suspend.page.length ≤ ever) :
    Faithful config p q' := by
  have hroom : q'.inboundXcmpSuspended.card ≤ config.maxInboundSuspended := by
    rw [ho.suspended]
    exact hf.room
  cases hd : find p q.outboundXcmpStatus with
  | none   =>
    obtain ⟨h1, _, h3, h4⟩ := ho.absent hd
    exact (ho.keepsSignal (by rw [signalled, signalled, h1, hd]) h3 fun _ => h4).faithful hf
      ho.distinct hroom
  | some d =>
    obtain ⟨t, t', d', _, hsig, hres, hcases, hd', _, hsig', hpages⟩ := ho.present d hd
    obtain rfl := find_recipient hd
    have hs : q.signalled d.recipient = d.signalsExist := by rw [signalled, hd]; rfl
    have hs' : q'.signalled d.recipient = d'.signalsExist := by rw [signalled, hd']; rfl
    have hquiet (h1 : d'.signalsExist = d.signalsExist)
      (h2 : t'.signals d.recipient = t.signals d.recipient)
        (h3 : d.signalsExist = true → pagesFor d.recipient t'.result = []) :
        Faithful config d.recipient q' := by
      refine (ho.keepsSignal (by rw [hs, hs', h1]) (by rw [hsig', h2, hsig]) ?_).faithful hf
        ho.distinct hroom
      intro h
      rw [hpages]
      exact h3 (hs.symm.trans h)
    rcases hcases with ⟨rfl, rfl⟩ | ⟨now, ever, hst, ht⟩
    · exact hquiet rfl rfl fun _ => hres
    · cases he : d.signalsExist with
      | false =>
        obtain ⟨h1, h2⟩ := ht.quiet he
        exact hquiet (h1.trans he.symm) (by rw [h2]) fun h => absurd (he.symm.trans h) (by simp)
      | true  =>
        rcases ht.loud he with ⟨rfl, rfl⟩ | ⟨h1, h2, h3⟩
        · exact hquiet rfl rfl fun _ => hres
        -- The signal that waits is handed out: it fits.
        obtain ⟨signal, hm, hsent⟩ := hf.waiting (hs.trans he)
        have hlen : ¬ever < signal.page.length := not_lt.mpr (hfit now ever hst)
        rw [hsig, hm, Option.getD_some, handOut, if_neg hlen] at h3
        have hpage : pagesFor d.recipient result = [signal.page] := by
          rw [hpages, h3, List.map_singleton, pagesFor_append, hres, if_pos rfl]
          rfl
        refine ⟨ho.distinct, hroom, fun h => ?_, ?_, ?_⟩
        · rw [hs', h1] at h
          cases h
        · have hh := ho.handed
          rw [hd, hpage] at hh
          rw [pending, hs', h1, hh, ho.sent, hsent]
          simp [he]
        · rw [ho.suspended, ho.sent]
          exact hf.suspended

end Take
end Queue

def Call.Open (p : P) : Call P → Prop
  | .takeOutboundMessages _ _ status => status p ≠ .closed
  | _ => True

-- No signal is dropped: a record with a signal that waits is not removed, what is signalled can be
-- noted, and a page for a signal is not too large.
def Call.Careful (config : Config) (p : P) (q : Queue P) : Call P → Prop
  | .sendFragment .. => True
  | .handleXcmpMessages pages weight => Queue.CarefulPages config p pages weight q
  | .onQueueChanged r _ => r = p → Queue.Notable config p q
  | .takeOutboundMessages _ _ status =>
    ∀ now ever, status p = .ready now ever → suspend.page.length ≤ ever

theorem Call.faithful {call : Call P} {q : Queue P} (hf : Queue.Faithful config p q)
    (ho : call.Open p) (hc : call.Careful config p q) :
    Queue.Faithful config p (call.run config q) := by
  cases call with
  | sendFragment info r format fragment =>
    rcases @Queue.sendFragment_spec P _ config r q format fragment info with
      ⟨e, h⟩ | ⟨size, n, q', d', page, _, h, hs⟩
    · rw [Call.run, h]
      exact hf
    · rw [Call.run, h]
      have ht : Queue.Targets config r q q' := hs.targets
      by_cases hr : p = r
      · subst hr
        refine hf.keep ht ?_
        have hsig : q'.signalled p = q.signalled p := by
          rw [Queue.Replaces.signalled hs.records, hs.signals, Queue.signalled_eq_detailsOf]
        rw [hs.result]
        exact ⟨hsig, rfl, Iff.rfl, rfl, rfl⟩
      · exact hf.keep ht (ht.other p hr).keepsSignal
  | handleXcmpMessages pages weight => exact hf.handleXcmpMessages hc
  | onQueueChanged r ready =>
    have hs : Queue.Reports config r q (q.onQueueChanged config r ready) :=
      Queue.onQueueChanged_spec
    by_cases hr : r = p
    · subst hr
      exact (hs.faithful hf (hc rfl)).1
    · exact hf.keep hs.targets (hs.targets.other p (Ne.symm hr)).keepsSignal
  | takeOutboundMessages channels excluded status =>
    exact (Queue.takeOutboundMessages_outcome hf.distinct ho).faithful hf hc

def CarefulRun (config : Config) (p : P) : List (Call P) → Queue P → Prop
  | [], _ => True
  | call :: calls, q =>
    call.Open p ∧ call.Careful config p q ∧ CarefulRun config p calls (call.run config q)

theorem faithful_run {q : Queue P} (hf : Queue.Faithful config p q)
    (hc : CarefulRun config p calls q) :
    Queue.Faithful config p (calls.foldl (Call.run config) q) := by
  induction calls generalizing q with
  | nil => exact hf
  | cons call cs hi => exact hi (Call.faithful hf hc.1 hc.2.1) hc.2.2

theorem faithful_empty : Queue.Faithful config p ({ queueConfig } : Queue P) := by
  refine ⟨List.nodup_nil, Nat.zero_le _, ?_, rfl, by simp⟩
  intro h
  cases h

-- The last signal for a chain waits for its channel until it is handed out, and it says
-- whether the chain is suspended.
theorem signals_not_lost (config : Config) (queueConfig : QueueConfigData) (p : P)
    (calls : List (Call P)) (h : CarefulRun config p calls { queueConfig }) :
    let q := calls.foldl (Call.run config) { queueConfig }
    (q.pending p).or (q.handed p) = (q.sent p).map ChannelSignal.page ∧
      (p ∈ q.inboundXcmpSuspended ↔ (q.pending p).or (q.handed p) = some suspend.page) := by
  have hf := faithful_run faithful_empty h
  refine ⟨hf.latest, ?_⟩
  rw [hf.latest, hf.suspended, Option.map_eq_some_iff]
  constructor
  · exact fun hs => ⟨_, hs, rfl⟩
  · rintro ⟨signal, hs, hpage⟩
    rw [hs]
    cases signal
    · rfl
    · exact absurd hpage (by decide)

def sampleConfig : Config where
  maxInboundSuspended := 2
  maxActiveOutboundChannels := 4
  maxPageSize := 8

-- A chain suspends its channel and resumes it. Meanwhile its own messages pile up, and the signal
-- for it is taken before or after it resumes the channel.
def sampleSignals (takenBefore : Bool) : List (Call Nat) :=
  [.handleXcmpMessages [{ sender := 7, data := [2, 0] }] 0, .onQueueChanged 7 32] ++
    (if takenBefore then [.takeOutboundMessages 4 [] fun _ => .ready 8 8] else []) ++
    [.handleXcmpMessages [{ sender := 7, data := [2, 1] }] 0,
      .takeOutboundMessages 4 [] fun _ => .ready 8 8]

theorem sampleSignals_not_lost :
    CarefulRun sampleConfig 7 (sampleSignals true) {} ∧
      let q := (sampleSignals true).foldl (Call.run sampleConfig) {}
      (q.pending 7).or (q.handed 7) = (q.sent 7).map ChannelSignal.page ∧
        (7 ∈ q.inboundXcmpSuspended ↔ (q.pending 7).or (q.handed 7) = some suspend.page) := by
  have hfit : ∀ now ever, ChannelStatus.ready 8 8 = .ready now ever →
      suspend.page.length ≤ ever := by
    intro now ever h
    cases h
    decide
  have hc : CarefulRun sampleConfig 7 (sampleSignals true) {} := by
    refine ⟨trivial, ⟨fun _ => ⟨fun data h => .inl ?_, .inl rfl⟩, trivial⟩, trivial,
      fun _ => .inr ?_, nofun, hfit, trivial, ⟨fun _ => ⟨fun data _ => .inr ?_, .inl rfl⟩, trivial⟩,
      nofun, hfit, trivial⟩
    · cases h
      decide
    · decide
    · intro d hd _
      have h : some false = some d.signalsExist :=
        congrArg (Option.map OutboundChannelDetails.signalsExist) hd
      exact (Option.some.inj h).symm
  exact ⟨hc, signals_not_lost sampleConfig {} 7 (sampleSignals true) hc⟩

-- The record is removed with the signal that waits: the chain is suspended and never gets to know.
theorem sampleSignals_lost :
    (∀ call ∈ sampleSignals false, call.Open 7) ∧
      let q := (sampleSignals false).foldl (Call.run sampleConfig) {}
      q.sent 7 = some .suspend ∧ 7 ∈ q.inboundXcmpSuspended ∧ q.pending 7 = none ∧
        q.handed 7 = none := by
  refine ⟨?_, rfl, by decide, rfl, rfl⟩
  simp [sampleSignals, Call.Open]

end XcmpQueue
