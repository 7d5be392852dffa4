import RostroModel.XcmpQueue.Signals

namespace XcmpQueue

open Function (update update_of_ne update_self)

theorem XcmpMessageFormat.decode_encode (format : XcmpMessageFormat) :
    decode format.encode = some format := by
  cases format <;> rfl

variable {P : Type} [LinearOrder P] {config : Config} {p r : P}

-- The fragments of a page have one format.
structure Batch where
  format : XcmpMessageFormat
  fragments : List Page
  deriving DecidableEq, Repr

namespace Batch

def page (b : Batch) : Page :=
  b.format.encode :: b.fragments.flatten

def contents (b : Batch) : List (XcmpMessageFormat × Page) :=
  b.fragments.map (b.format, ·)

def pagesAt (first : Nat) (stored : List Batch) (i : Nat) : Option Page :=
  if first ≤ i then stored[i - first]?.map page else none

theorem pagesAt_nil : pagesAt first [] = fun _ => none := by
  funext i
  simp [pagesAt]

theorem pagesAt_concat {stored : List Batch} : pagesAt first (stored ++ [b]) =
      update (pagesAt first stored) (first + stored.length) (some b.page) := by
  funext i
  unfold pagesAt
  by_cases hi : i = first + stored.length
  · subst hi
    simp
  · rw [update_of_ne hi]
    split_ifs with hf
    · by_cases hlt : i - first < stored.length
      · rw [List.getElem?_append_left hlt]
      · rw [List.getElem?_eq_none (by simp; omega), List.getElem?_eq_none (by omega)]
    · rfl

theorem pagesAt_tail {stored : List Batch} :
    pagesAt (first + 1) stored = update (pagesAt first (b :: stored)) first none := by
  funext i
  unfold pagesAt
  by_cases hi : i = first
  · subst hi
    simp
  · rw [update_of_ne hi]
    by_cases hf : first ≤ i
    · obtain ⟨k, rfl⟩ : ∃ k, i = first + 1 + k := ⟨i - first - 1, by omega⟩
      have h1 : first + 1 + k - (first + 1) = k := by omega
      have h2 : first + 1 + k - first = k + 1 := by omega
      rw [if_pos (by omega), if_pos hf, h1, h2, List.getElem?_cons_succ]
    · rw [if_neg (by omega), if_neg hf]

end Batch

-- What is sent to a channel: the pages of messages, and pages of the pallet's own.
inductive Item
  | batch (b : Batch)
  | signal (s : ChannelSignal)
  | notification
  deriving DecidableEq, Repr

def Item.page : Item → Page
  | .batch b => b.page
  | .signal s => s.page
  | .notification => [XcmpMessageFormat.concatenatedOpaqueVersionedXcm.encode]

def Item.batch? : Item → Option Batch
  | .batch b => some b
  | _ => none

-- The pages of a channel lie at the indices of its record.
structure Indexed (d : OutboundChannelDetails P) (messages : Nat → Option Page)
    (stored : List Batch) : Prop where
  last : d.lastIndex = d.firstIndex + stored.length
  bound : d.lastIndex < 2 ^ 16
  pages : messages = Batch.pagesAt d.firstIndex stored

namespace Indexed

variable {d d' : OutboundChannelDetails P} {messages : Nat → Option Page} {stored : List Batch}

omit [LinearOrder P] in
theorem congr (h : Indexed d messages stored) (hf : d'.firstIndex = d.firstIndex)
    (hl : d'.lastIndex = d.lastIndex) : Indexed d' messages stored :=
  ⟨by rw [hf, hl]; exact h.last, by rw [hl]; exact h.bound, by rw [hf]; exact h.pages⟩

omit [LinearOrder P] in
theorem restart (h : Indexed d messages stored) (he : d.firstIndex = d.lastIndex)
    (hf : d'.firstIndex = 0) (hl : d'.lastIndex = 0) : Indexed d' messages stored := by
  have hs : stored = [] := List.length_eq_zero_iff.mp (by have := h.last; omega)
  subst hs
  refine ⟨by rw [hf, hl]; rfl, by omega, ?_⟩
  rw [h.pages, Batch.pagesAt_nil, Batch.pagesAt_nil]

omit [LinearOrder P] in
theorem settle (h : Indexed d messages stored) : Indexed (Queue.settle d) messages stored := by
  unfold Queue.settle
  split_ifs with he
  · exact h.restart he rfl rfl
  · exact h

end Indexed

namespace Queue

variable {q q' : Queue P} {batches : List Batch}

-- The state of one channel.
structure Stored (p : P) (q : Queue P) (batches : List Batch) : Prop where
  distinct : Distinct q.outboundXcmpStatus
  indexed : Indexed (detailsOf p q.outboundXcmpStatus) (q.outboundXcmpMessages p) batches
  signal : q.signalled p = true → ∃ signal : ChannelSignal, q.signalMessages p = some signal.page

theorem Replaces.detailsOf_eq {d : OutboundChannelDetails P} (h : Replaces p d l l') :
    detailsOf p l' = d := by
  rw [detailsOf, h.here]
  rfl

theorem Same.stored (hs : Same p q q') (hd : Distinct q'.outboundXcmpStatus)
    (h : Stored p q batches) :
    Stored p q' batches := by
  refine ⟨hd, ?_, ?_⟩
  · rw [detailsOf, hs.details, hs.messages]
    exact h.indexed
  · rw [signalled, hs.details, hs.signal]
    exact h.signal

theorem Stored.records {d : OutboundChannelDetails P}
    (h : Stored p q batches) (hr : Replaces p d q.outboundXcmpStatus l')
    (hs : d.signalsExist = q.signalled p)
    (hf : d.firstIndex = (detailsOf p q.outboundXcmpStatus).firstIndex)
    (hl : d.lastIndex = (detailsOf p q.outboundXcmpStatus).lastIndex) :
    Stored p { q with outboundXcmpStatus := l' } batches := by
  refine ⟨hr.distinct h.distinct, ?_, ?_⟩
  · rw [Replaces.detailsOf_eq hr]
    exact h.indexed.congr hf hl
  · intro hsig
    exact h.signal (by rw [← hs]; simpa [signalled, hr.here] using hsig)

theorem Suspends.stored (hs : Suspends p q q') (h : Stored p q batches) : Stored p q' batches := by
  cases hs
  case ignored hq => subst hq; exact h
  case noted hq hr =>
    rw [hq]
    exact h.records hr signalled_eq_detailsOf.symm rfl rfl

theorem Resumes.stored (hs : Resumes p q q') (h : Stored p q batches) : Stored p q' batches := by
  cases hs
  case ignored hq => subst hq; exact h
  case noted d hd hq hr =>
    have hof : detailsOf p q.outboundXcmpStatus = d := by rw [detailsOf, hd]; rfl
    rw [hq]
    exact h.records hr (by rw [signalled, hd]; rfl) (by rw [hof]) (by rw [hof])
  case dropped d hd he hq =>
    -- The queue is empty, as it is for a fresh record.
    have hof : detailsOf p q.outboundXcmpStatus = d := by rw [detailsOf, hd]; rfl
    have hnone : find p (removeFirst p q.outboundXcmpStatus) = none := h.distinct.find_removeFirst
    subst hq
    refine ⟨h.distinct.removeFirst, ?_, ?_⟩
    · refine h.indexed.restart (by rw [hof]; exact he) ?_ ?_
      all_goals
        rw [detailsOf, hnone]
        rfl
    · rw [signalled, hnone]
      intro hsig
      cases hsig

theorem noticeSupport_stored (h : Stored p q batches) :
    Stored p (q.noticeSupport config p) batches := by
  rcases @noticeSupport_spec P _ config p q with hq | ⟨l', hq, hr⟩
  · rw [hq]
    exact h
  · rw [hq]
    exact h.records hr signalled_eq_detailsOf.symm rfl rfl

theorem Signals.stored (hs : Signals p signal q q') (h : Stored p q batches) :
    Stored p q' batches := by
  refine ⟨hs.records.distinct h.distinct, ?_, fun _ => ⟨signal, hs.latest.2.1⟩⟩
  rw [Replaces.detailsOf_eq hs.records, hs.result]
  exact h.indexed.congr rfl rfl

theorem Reports.stored (hr : Reports config p q q') (h : Stored p q batches) :
    Stored p q' batches := by
  cases hr
  case nothing hq => subst hq; exact h
  case refused hp hs hc => exact hs.stored h
  case resumed q1 hp hs hq =>
    have h1 := hs.stored h
    subst hq
    exact ⟨h1.distinct, h1.indexed, h1.signal⟩
  case suspended q1 hp hs hc hq =>
    have h1 := hs.stored h
    subst hq
    exact ⟨h1.distinct, h1.indexed, h1.signal⟩

section

variable (h : Stored p q batches)
include h

theorem Stored.handleSignals :
    Stored p (Queue.handleSignals config p count data weight q).2 batches := by
  induction count generalizing data weight q with
  | zero => cases data <;> exact h
  | succ count hi =>
    cases data with
    | nil => exact h
    | cons byte data =>
      unfold Queue.handleSignals
      split
      · split_ifs
        · exact h
        · exact hi (suspendChannel_spec.stored h)
      · split_ifs
        · exact h
        · exact hi (resumeChannel_spec.stored h)
      · exact h

theorem Stored.reports {ready : List Nat} :
    Stored p (ready.foldl (fun q ready => q.onQueueChanged config p ready) q) batches := by
  induction ready generalizing q with
  | nil => exact h
  | cons n ns hi => exact hi (onQueueChanged_spec.stored h)

theorem Stored.handlePage : Stored p (q.handlePage config page weight).2 batches := by
  by_cases hp : page.sender = p
  · subst hp
    unfold Queue.handlePage
    split
    · exact h
    · split
      · exact h.handleSignals
      · exact h.reports
      · exact (noticeSupport_stored h).reports
      · exact h
      · exact h
  · have ht : Targets config page.sender q (q.handlePage config page weight).2 := handlePage_targets
    exact (ht.other p (Ne.symm hp)).stored (ht.distinct h.distinct) h

theorem Stored.handleXcmpMessages :
    Stored p (Queue.handleXcmpMessages config pages weight q) batches := by
  induction pages generalizing q weight with
  | nil => exact h
  | cons page ps hi => exact hi h.handlePage

end

-- A fragment is added to the last page or starts a new one.
theorem Sends.stored {size : Nat}
    {d' : OutboundChannelDetails P} (hs : Sends q p format fragment size d' page q')
    (h : Stored p q batches) (hroom : (detailsOf p q.outboundXcmpStatus).lastIndex + 1 < 2 ^ 16) :
    ∃ batches', Stored p q' batches' ∧
      batches'.flatMap Batch.contents = batches.flatMap Batch.contents ++ [(format, fragment)] ∧
      ∀ b' ∈ batches', b' ∈ batches ∨ b'.page.length ≤ size := by
  have hsig : q'.signalled p = true → ∃ signal : ChannelSignal,
      q'.signalMessages p = some signal.page := by
    rw [Replaces.signalled hs.records, hs.signals, ← signalled_eq_detailsOf, hs.result]
    exact h.signal
  have hdist := hs.records.distinct h.distinct
  have hof := Replaces.detailsOf_eq hs.records
  have hmsg : q'.outboundXcmpMessages p =
      update (q.outboundXcmpMessages p) ((d'.lastIndex + (2 ^ 16 - 1)) % 2 ^ 16) (some page) := by
    rw [hs.result]
    exact update_self ..
  have hindexed := h.indexed
  have hplaced := hs.placed
  have hfirst := hs.first
  generalize detailsOf p q.outboundXcmpStatus = d at hroom hindexed hplaced hfirst
  have hlen := hindexed.last
  -- Either way there is a last batch, and it is the page that was written.
  have hplace (init : List Batch) (b : Batch) (hpage : page = b.page) (hinit : init ⊆ batches)
      (hle : init.length ≤ batches.length) (hlast : d'.lastIndex = d.firstIndex + init.length + 1)
      (hfit : page.length ≤ size)
        (hpages : update (Batch.pagesAt d.firstIndex batches) (d.firstIndex + init.length)
          (some b.page) = Batch.pagesAt d.firstIndex (init ++ [b])) :
      Stored p q' (init ++ [b]) ∧ ∀ c ∈ init ++ [b], c ∈ batches ∨ c.page.length ≤ size := by
    refine ⟨⟨hdist, ?_, hsig⟩, fun c hc => ?_⟩
    · have hidx : (d'.lastIndex + (2 ^ 16 - 1)) % 2 ^ 16 = d.firstIndex + init.length := by omega
      rw [hof]
      refine ⟨by rw [hfirst, hlast, List.length_append]; rfl, by omega, ?_⟩
      rw [hmsg, hidx, hindexed.pages, hfirst, hpage, hpages]
    · rcases List.mem_append.mp hc with hc | hc
      · exact .inl (hinit hc)
      · rw [List.mem_singleton.mp hc, ← hpage]
        exact .inr hfit
  cases hplaced
  case appended old hlt hold hf hfit hpage hlast =>
    -- The last page is the last batch, of the same format.
    obtain rfl | ⟨init, b, rfl⟩ := batches.eq_nil_or_concat'
    · rw [List.length_nil] at hlen
      omega
    rw [List.length_append, List.length_singleton] at hlen
    have hprev : d.lastIndex - 1 = d.firstIndex + init.length := by omega
    rw [hindexed.pages, Batch.pagesAt_concat, hprev, update_self, Option.getD_some] at hold
    subst hold
    have hformat : b.format = format :=
      Option.some.inj ((XcmpMessageFormat.decode_encode b.format).symm.trans hf)
    obtain ⟨hst, hsmall⟩ := hplace init { b with fragments := b.fragments ++ [fragment] }
      (by simp [hpage, Batch.page])
      (List.subset_append_left ..) (by simp) (by omega)
        (by rw [hpage, List.length_append]; exact hfit)
      (by rw [Batch.pagesAt_concat, Batch.pagesAt_concat, Function.update_idem])
    exact ⟨_, hst, by simp [Batch.contents, hformat], hsmall⟩
  case started hpage hlast =>
    obtain ⟨hst, hsmall⟩ := hplace batches { format, fragments := [fragment] }
      (by simp [hpage, Batch.page])
      (List.Subset.refl _) le_rfl (by rw [hlast, Nat.mod_eq_of_lt hroom, hlen])
        (by rw [hpage]; exact hs.fits)
      Batch.pagesAt_concat.symm
    exact ⟨_, hst, by simp [Batch.contents], hsmall⟩

theorem handOut_item {ever : Nat} {item : Item} (h : item.batch? = none) :
    ∃ items : List Item, handOut ever item.page = items.map Item.page ∧
      items.filterMap Item.batch? = [] := by
  unfold handOut
  split_ifs
  · exact ⟨[], rfl, rfl⟩
  · exact ⟨[item], rfl, by simp [h]⟩

section Take

variable {status : P → ChannelStatus} {result : List (P × Page)} {size : Nat}

-- What the loop leaves of a channel and delivers to it.
def Handled (p : P) (batches : List Batch) (d : OutboundChannelDetails P) (t : Taking P) : Prop :=
  ∃ (batches' : List Batch) (items : List Item), Indexed d (t.messages p) batches' ∧
    (d.signalsExist = true → ∃ s : ChannelSignal, t.signals p = some s.page) ∧
    pagesFor p t.result = items.map Item.page ∧ items.filterMap Item.batch? ++ batches' = batches

-- The first page is delivered, or none that has messages.
theorem Outcome.delivers (ho : Outcome p q status result q') (h : Stored p q batches)
    (hever : ∀ now ever, status p = .ready now ever → ever = size)
    (hsize : ∀ b ∈ batches, b.page.length ≤ size) :
    ∃ (batches' : List Batch) (items : List Item), Stored p q' batches' ∧
      pagesFor p result = items.map Item.page ∧
      items.filterMap Item.batch? ++ batches' = batches := by
  cases hd : find p q.outboundXcmpStatus with
  | none =>
    obtain ⟨h1, h2, _, h4⟩ := ho.absent hd
    refine ⟨batches, [], ⟨ho.distinct, ?_, ?_⟩, h4, rfl⟩
    · rw [detailsOf, h1, h2, ← hd]
      exact h.indexed
    · rw [signalled, h1]
      intro hsig
      cases hsig
  | some d =>
    obtain ⟨t, t', d', hmsg, hsig, hres, hcases, hd', hmsg', hsig', hpages⟩ := ho.present d hd
    obtain rfl := find_recipient hd
    have hindexed : Indexed d (t.messages d.recipient) batches := by
      have := h.indexed
      rwa [detailsOf, hd, Option.getD_some, ← hmsg] at this
    have hstored : d.signalsExist = true →
        ∃ s : ChannelSignal, t.signals d.recipient = some s.page := by
      have := h.signal
      rwa [signalled, hd, ← hsig] at this
    -- It suffices to look at the storage when the loop comes to the channel.
    suffices hloop : Handled d.recipient batches d' t' by
      obtain ⟨batches', items, h1, h2, h3, h4⟩ := hloop
      refine ⟨batches', items, ⟨ho.distinct, ?_, ?_⟩, hpages.trans h3, h4⟩
      · rw [detailsOf, hd', hmsg']
        exact h1
      · rw [signalled, hd', hsig']
        exact h2
    have hnothing : Handled d.recipient batches d t := ⟨batches, [], hindexed, hstored, hres, rfl⟩
    rcases hcases with ⟨rfl, rfl⟩ | ⟨now, ever, hst, ht⟩
    · exact hnothing
    cases ht
    case nothing => exact hnothing
    case signal hs hm hsg hr =>
      obtain ⟨s, hss⟩ := hstored hs
      obtain ⟨items, h1, h2⟩ := @handOut_item ever (.signal s) rfl
      refine ⟨batches, items, ?_, ?_, ?_, by rw [h2]; rfl⟩
      · rw [hm]
        apply Indexed.settle
        exact hindexed.congr rfl rfl
      · rw [settle_signalsExist]
        intro hsig
        cases hsig
      · rw [hr, pagesFor_handOut, hres, if_pos rfl, hss]
        exact h1
    case message hs hi hm hsg hr =>
      -- The first page is the first batch, which is not too large.
      cases batches with
      | nil =>
        have := hindexed.last
        rw [List.length_nil] at this
        omega
      | cons b rest =>
        have hb : t.messages d.recipient d.firstIndex = some b.page := by
          rw [hindexed.pages]
          simp [Batch.pagesAt]
        have hfit : ¬ever < b.page.length := by
          rw [hever now ever hst]
          exact not_lt.mpr (hsize b List.mem_cons_self)
        refine ⟨rest, [.batch b], ?_, ?_, ?_, rfl⟩
        · rw [hm, update_self]
          apply Indexed.settle
          refine ⟨?_, hindexed.bound, ?_⟩
          · have := hindexed.last
            rw [List.length_cons] at this
            dsimp only
            omega
          · rw [hindexed.pages, Batch.pagesAt_tail]
        · rw [settle_signalsExist, hsg]
          exact hstored
        · rw [hr, pagesFor_handOut, hres, if_pos rfl, hb, Option.getD_some, handOut, if_neg hfit]
          rfl
    case notification flags hs hm hsg hr =>
      obtain ⟨items, h1, h2⟩ := @handOut_item ever .notification rfl
      refine ⟨batches, items, ?_, ?_, ?_, by rw [h2]; rfl⟩
      · rw [hm]
        apply Indexed.settle
        exact hindexed.congr rfl rfl
      · rw [settle_signalsExist, hsg]
        exact hstored
      · rw [hr, pagesFor_handOut, hres, if_pos rfl]
        exact h1

end Take
end Queue

-- A queue, the fragments it accepted for a channel and the pages it delivered to it.
structure Log (P : Type) where
  queue : Queue P
  accepted : List (XcmpMessageFormat × Page) := []
  delivered : List Page := []

def Call.log (config : Config) (p : P) (log : Log P) : Call P → Log P
  | .sendFragment channelInfo r format fragment =>
    let (sent, queue) := log.queue.sendFragment config channelInfo r format fragment
    { log with
      queue
      accepted := if r = p ∧ sent.isOk then log.accepted ++ [(format, fragment)] else log.accepted }
  | .takeOutboundMessages channels excluded status =>
    let (result, queue) := log.queue.takeOutboundMessages channels excluded status
    { log with queue, delivered := log.delivered ++ Queue.pagesFor p result }
  | call => { log with queue := call.run config log.queue }

-- The channel stays open, and its maximum message size is the same all the time.
def Call.Constant (size : Nat) (p : P) : Call P → Prop
  | .sendFragment channelInfo r _ _ => r = p → channelInfo = some size
  | .takeOutboundMessages _ _ status =>
    status p ≠ .closed ∧ ∀ now ever, status p = .ready now ever → ever = size
  | _ => True

-- There is an index for one more page.
def Call.Spacious (p : P) (q : Queue P) : Call P → Prop
  | .sendFragment _ r _ _ => r = p → (detailsOf p q.outboundXcmpStatus).lastIndex + 1 < 2 ^ 16
  | _ => True

-- The pages that were delivered, and after them those that are stored, have the accepted fragments
-- in order. The pages stored are those of the indices.
structure Fifo (size : Nat) (p : P) (log : Log P) (items : List Item) (stored : List Batch) :
    Prop where
  delivered : log.delivered = items.map Item.page
  order : (items.filterMap Item.batch? ++ stored).flatMap Batch.contents = log.accepted
  small : ∀ b ∈ items.filterMap Item.batch? ++ stored, b.page.length ≤ size
  indexed : Indexed (detailsOf p log.queue.outboundXcmpStatus)
    (log.queue.outboundXcmpMessages p) stored

theorem Fifo.call {size : Nat} {batches : List Batch} {call : Call P}
    (h : Fifo size p log items batches) (hs : Queue.Stored p log.queue batches)
    (hconst : call.Constant size p) (hroom : call.Spacious p log.queue) :
    ∃ items' batches', Fifo size p (call.log config p log) items' batches' ∧
      Queue.Stored p (call.log config p log).queue batches' := by
  -- Calls that neither accept nor deliver anything for the channel.
  have hkeep : ∀ {queue : Queue P}, Queue.Stored p queue batches → ∃ items' batches',
      Fifo size p { log with queue } items' batches' ∧ Queue.Stored p queue batches' :=
    fun hq => ⟨items, batches, ⟨h.delivered, h.order, h.small, hq.indexed⟩, hq⟩
  cases call with
  | sendFragment info r format fragment =>
    rcases @Queue.sendFragment_spec P _ config r log.queue format fragment info with
      ⟨e, hq⟩ | ⟨size', n, q', d', page, hinfo, hq, hsend⟩
    · have hlog : Call.log config p log (.sendFragment info r format fragment) = log := by
        simp [Call.log, hq, Except.toBool]
      rw [hlog]
      exact ⟨items, batches, h, hs⟩
    · by_cases hr : r = p
      · subst hr
        obtain rfl := Option.some.inj (hinfo.symm.trans (hconst rfl))
        obtain ⟨batches', h1, h2, h3⟩ := hsend.stored hs (hroom rfl)
        have hlog : Call.log config r log (.sendFragment info r format fragment) =
            { log with queue := q', accepted := log.accepted ++ [(format, fragment)] } := by
          simp [Call.log, hq, Except.toBool]
        rw [hlog]
        refine ⟨items, batches', ⟨h.delivered, ?_, ?_, h1.indexed⟩, h1⟩
        · rw [List.flatMap_append, h2, ← List.append_assoc, ← List.flatMap_append, h.order]
        · intro b hb
          rcases List.mem_append.mp hb with hb | hb
          · exact h.small b (List.mem_append_left _ hb)
          · rcases h3 b hb with hb | hb
            · exact h.small b (List.mem_append_right _ hb)
            · exact hb.trans (min_le_left _ _)
      · have hlog : Call.log config p log (.sendFragment info r format fragment) =
            { log with queue := q' } := by
          simp [Call.log, hq, hr]
        have ht : Queue.Targets config r log.queue q' := hsend.targets
        rw [hlog]
        exact hkeep ((ht.other p (Ne.symm hr)).stored (ht.distinct hs.distinct) hs)
  | handleXcmpMessages pages weight => exact hkeep hs.handleXcmpMessages
  | onQueueChanged r ready =>
    have hrep : Queue.Reports config r log.queue _ :=
      @Queue.onQueueChanged_spec P _ config r log.queue ready
    by_cases hr : r = p
    · subst hr
      exact hkeep (hrep.stored hs)
    · exact hkeep ((hrep.targets.other p (Ne.symm hr)).stored
        (hrep.targets.distinct hs.distinct) hs)
  | takeOutboundMessages channels excluded status =>
    have ho := @Queue.takeOutboundMessages_outcome P _ p log.queue status excluded channels
      hs.distinct hconst.1
    obtain ⟨batches', items', h1, h2, h3⟩ := ho.delivers hs hconst.2
      fun b hb => h.small b (List.mem_append_right _ hb)
    have heq : (items ++ items').filterMap Item.batch? ++ batches' =
        items.filterMap Item.batch? ++ batches := by
      rw [List.filterMap_append, List.append_assoc, h3]
    refine ⟨items ++ items', batches', ⟨?_, ?_, ?_, h1.indexed⟩, h1⟩
    · change log.delivered ++ Queue.pagesFor p
        (log.queue.takeOutboundMessages channels excluded status).1 = _
      rw [h.delivered, h2, List.map_append]
    · rw [heq]
      exact h.order
    · rw [heq]
      exact h.small

def SpaciousRun (config : Config) (size : Nat) (p : P) : List (Call P) → Log P → Prop
  | [], _ => True
  | call :: calls, log => call.Constant size p ∧ call.Spacious p log.queue ∧
    SpaciousRun config size p calls (call.log config p log)

theorem Fifo.run {size : Nat} {batches : List Batch}
    (h : Fifo size p log items batches) (hs : Queue.Stored p log.queue batches)
    (hc : SpaciousRun config size p calls log) :
    ∃ items' batches', Fifo size p (calls.foldl (Call.log config p) log) items' batches' := by
  induction calls generalizing log items batches with
  | nil => exact ⟨items, batches, h⟩
  | cons call cs hi =>
    obtain ⟨items', batches', h', hs'⟩ := h.call hs hc.1 hc.2.1
    exact hi h' hs' hc.2.2

theorem stored_empty : Queue.Stored p ({ queueConfig } : Queue P) [] := by
  refine ⟨List.nodup_nil, ⟨rfl, Nat.two_pow_pos 16, Batch.pagesAt_nil.symm⟩, ?_⟩
  intro h
  cases h

theorem fifo_empty {size : Nat} : Fifo size p { queue := { queueConfig } } [] [] :=
  ⟨rfl, rfl, by simp, stored_empty.indexed⟩

-- Messages are neither lost nor reordered as long as the indices do not run out.
theorem lossless_fifo (config : Config) (queueConfig : QueueConfigData) (size : Nat) (p : P)
    (calls : List (Call P)) (h : SpaciousRun config size p calls { queue := { queueConfig } }) :
    ∃ items stored,
      Fifo size p (calls.foldl (Call.log config p) { queue := { queueConfig } }) items stored :=
  fifo_empty.run stored_empty h

def sampleSends : List (Call Nat) :=
  [.sendFragment (some 8) 7 .concatenatedVersionedXcm [1],
    .sendFragment (some 8) 7 .concatenatedVersionedXcm [2],
    .sendFragment (some 8) 7 .concatenatedEncodedBlob [3],
    .takeOutboundMessages 4 [] fun _ => .ready 8 8]

theorem sampleSends_lossless :
    SpaciousRun sampleConfig 8 7 sampleSends { queue := {} } ∧
      ∃ items stored,
        Fifo 8 7 (sampleSends.foldl (Call.log sampleConfig 7) { queue := {} }) items stored := by
  have h : SpaciousRun sampleConfig 8 7 sampleSends { queue := {} } := by
    refine ⟨fun _ => rfl, fun _ => by decide, fun _ => rfl, fun _ => by decide, fun _ => rfl,
      fun _ => by decide, ⟨nofun, fun now ever h => ?_⟩, trivial, trivial⟩
    cases h
    rfl
  exact ⟨h, lossless_fifo sampleConfig {} 8 7 sampleSends h⟩

section Overflow

-- Pages of one fragment, of which one is always left behind, so that the indices never start again.
def overflowConfig : Config where
  maxInboundSuspended := 1
  maxActiveOutboundChannels := 1
  maxPageSize := 2

def oneFragment : Call Nat :=
  .sendFragment (some 2) 7 .concatenatedVersionedXcm [1]

def onePage : Call Nat :=
  .takeOutboundMessages 1 [] fun _ => .ready 3 2

def rounds (n : Nat) : List (Call Nat) :=
  oneFragment :: (List.replicate n [oneFragment, onePage]).flatten

structure Backlog (k : Nat) (q : Queue Nat) : Prop where
  statuses : q.outboundXcmpStatus = [{ recipient := 7, firstIndex := k, lastIndex := k + 1 }]
  page : q.outboundXcmpMessages 7 k = some [0, 1]

theorem Backlog.send {q : Queue Nat} (h : Backlog k q) :
    (oneFragment.run overflowConfig q).outboundXcmpStatus =
        [{ recipient := 7, firstIndex := k, lastIndex := (k + 2) % 2 ^ 16 }] ∧
      (oneFragment.run overflowConfig q).outboundXcmpMessages 7 =
        update (q.outboundXcmpMessages 7) (((k + 2) % 2 ^ 16 + (2 ^ 16 - 1)) % 2 ^ 16)
          (some [0, 1]) := by
  have hpage : q.existingPage 7 { recipient := 7, firstIndex := k, lastIndex := k + 1 }
      .concatenatedVersionedXcm [1] 2 = none := by
    simp [Queue.existingPage, h.page]
  simp [oneFragment, Call.run, Queue.sendFragment, overflowConfig,
    tryGetOrInsertOutboundChannel, find, h.statuses, hpage, updateFirst, XcmpMessageFormat.encode]

theorem Backlog.round {q : Queue Nat} (h : Backlog k q) (hk : k + 2 < 2 ^ 16) :
    Backlog (k + 1) (onePage.run overflowConfig (oneFragment.run overflowConfig q)) := by
  obtain ⟨hst, hmsg⟩ := h.send
  generalize oneFragment.run overflowConfig q = q' at hst hmsg
  have hmod : (k + 2) % 2 ^ 16 = k + 2 := Nat.mod_eq_of_lt hk
  have hidx : (k + 2 + (2 ^ 16 - 1)) % 2 ^ 16 = k + 1 := by omega
  rw [hmod] at hst hmsg
  rw [hidx] at hmsg
  have hfirst : q'.outboundXcmpMessages 7 k = some [0, 1] := by
    rw [hmsg, update_of_ne (by omega), h.page]
  have hlast : q'.outboundXcmpMessages 7 (k + 1) = some [0, 1] := by rw [hmsg, update_self]
  constructor
  · simp [onePage, Call.run, Queue.takeOutboundMessages, hst, Queue.takeLoop, Queue.takeOne,
      Queue.fetchPage, hfirst]
  · simp [onePage, Call.run, Queue.takeOutboundMessages, hst, Queue.takeLoop, Queue.takeOne,
      Queue.fetchPage, hfirst, hlast]

theorem Backlog.rounds {q : Queue Nat} (h : Backlog k q) (hn : k + n + 1 < 2 ^ 16) : Backlog (k + n)
      ((List.replicate n [oneFragment, onePage]).flatten.foldl (Call.run overflowConfig) q) := by
  induction n generalizing k q with
  | zero => exact h
  | succ n hi =>
    have h' := hi (h.round (by omega)) (by omega)
    rwa [Nat.add_right_comm, Nat.add_assoc] at h'

theorem rounds_backlog (hn : n + 1 < 2 ^ 16) :
    Backlog n ((rounds n).foldl (Call.run overflowConfig) {}) := by
  have h : Backlog 0 (oneFragment.run overflowConfig {}) := by
    constructor
    all_goals simp [oneFragment, Call.run, Queue.sendFragment, overflowConfig, Queue.existingPage,
      tryGetOrInsertOutboundChannel, tryPush, find, updateFirst, XcmpMessageFormat.encode]
  have h' := h.rounds (n := n) (by omega)
  rwa [Nat.zero_add] at h'

theorem log_queue {config : Config} {calls : List (Call P)} :
    (calls.foldl (Call.log config p) log).queue = calls.foldl (Call.run config) log.queue := by
  induction calls generalizing log with
  | nil => rfl
  | cons call cs hi =>
    rw [List.foldl_cons, hi]
    cases call <;> rfl

-- With two pages in the queue the last index starts again at zero, and what is stored is lost.
theorem rounds_overflow :
    (∀ call ∈ rounds 65534 ++ [oneFragment], call.Constant 2 7) ∧
      ¬∃ items stored,
        Fifo 2 7 ((rounds 65534 ++ [oneFragment]).foldl (Call.log overflowConfig 7) { queue := {} })
          items stored := by
  constructor
  · intro call hc
    have hcall : call = oneFragment ∨ call = onePage := by
      simp only [rounds, List.cons_append, List.mem_cons, List.mem_append, List.mem_flatten,
        List.mem_replicate, List.not_mem_nil, or_false] at hc
      rcases hc with h | ⟨l, ⟨_, rfl⟩, h⟩ | h
      · exact .inl h
      · simpa using h
      · exact .inl h
    rcases hcall with rfl | rfl
    · exact fun _ => rfl
    · refine ⟨nofun, fun now ever h => ?_⟩
      cases h
      rfl
  · rintro ⟨items, stored, h⟩
    have hst := (rounds_backlog (n := 65534) (by omega)).send.1
    have hlast := h.indexed.last
    rw [log_queue, List.foldl_append, List.foldl_cons, List.foldl_nil, detailsOf,
      find, hst] at hlast
    simp at hlast
    omega

end Overflow
end XcmpQueue
