import Mathlib

namespace XcmpQueue

open Function (update)

-- Parachain ids.
variable {P : Type}

inductive XcmpMessageFormat
  | concatenatedVersionedXcm
  | concatenatedEncodedBlob
  | signals
  | concatenatedOpaqueVersionedXcm
  deriving DecidableEq, Repr

def XcmpMessageFormat.encode : XcmpMessageFormat → UInt8
  | .concatenatedVersionedXcm => 0
  | .concatenatedEncodedBlob => 1
  | .signals => 2
  | .concatenatedOpaqueVersionedXcm => 3

def XcmpMessageFormat.decode : UInt8 → Option XcmpMessageFormat
  | 0 => some .concatenatedVersionedXcm
  | 1 => some .concatenatedEncodedBlob
  | 2 => some .signals
  | 3 => some .concatenatedOpaqueVersionedXcm
  | _ => none

inductive ChannelSignal
  | suspend
  | resume
  deriving DecidableEq, Repr

def ChannelSignal.encode : ChannelSignal → UInt8
  | .suspend => 0
  | .resume => 1

def ChannelSignal.decode : UInt8 → Option ChannelSignal
  | 0 => some .suspend
  | 1 => some .resume
  | _ => none

-- The encoding of a page: its format and what is concatenated.
abbrev Page := List UInt8

def ChannelSignal.page (signal : ChannelSignal) : Page :=
  [XcmpMessageFormat.signals.encode, signal.encode]

inductive OutboundState
  | ok
  | suspended
  deriving DecidableEq, Repr

structure OutboundChannelFlags where
  concatenatedOpaqueVersionedXcmSupport : Bool := false
  concatenatedOpaqueVersionedXcmNotificationSent : Bool := false
  deriving DecidableEq, Repr

def OutboundChannelFlags.shouldSendNotification (flags : OutboundChannelFlags) : Bool :=
  !flags.concatenatedOpaqueVersionedXcmSupport &&
    !flags.concatenatedOpaqueVersionedXcmNotificationSent

-- The indices have 16 bits.
structure OutboundChannelDetails (P : Type) where
  recipient : P
  state : OutboundState := .ok
  signalsExist : Bool := false
  firstIndex : Nat := 0
  lastIndex : Nat := 0
  flags : OutboundChannelFlags := {}
  deriving DecidableEq, Repr

structure QueueConfigData where
  suspendThreshold : Nat := 32
  resumeThreshold : Nat := 8
  deriving DecidableEq, Repr

structure Config where
  maxInboundSuspended : Nat
  maxActiveOutboundChannels : Nat
  maxPageSize : Nat
  suspendChannelWeight : Nat := 0
  resumeChannelWeight : Nat := 0

-- A page from another chain. Its messages are enqueued by another pallet: what weight this takes,
-- and the numbers of ready pages it reports back meanwhile.
structure InboundPage (P : Type) where
  sender : P
  data : Page
  weight : Nat := 0
  readyPages : List Nat := []

inductive ChannelStatus
  | closed
  | full
  | ready (maxSizeNow maxSizeEver : Nat)
  deriving DecidableEq, Repr

inductive MessageSendError
  | noChannel
  | tooBig
  | tooManyChannels
  deriving DecidableEq, Repr

-- The last two fields are not stored. They keep the last signal that was stored for a chain, and
-- the page that was handed out for it since.
structure Queue (P : Type) where
  inboundXcmpSuspended : Finset P := ∅
  outboundXcmpStatus : List (OutboundChannelDetails P) := []
  outboundXcmpMessages : P → Nat → Option Page := fun _ _ => none
  signalMessages : P → Option Page := fun _ => none
  queueConfig : QueueConfigData := {}
  sent : P → Option ChannelSignal := fun _ => none
  handed : P → Option Page := fun _ => none

section Statuses

variable [DecidableEq P] (p : P)

def updateFirst (f : OutboundChannelDetails P → OutboundChannelDetails P) :
    List (OutboundChannelDetails P) → List (OutboundChannelDetails P)
  | [] => []
  | d :: details => if d.recipient = p then f d :: details else d :: updateFirst f details

def removeFirst : List (OutboundChannelDetails P) → List (OutboundChannelDetails P)
  | [] => []
  | d :: details => if d.recipient = p then details else d :: removeFirst details

-- The details of a channel.
def find (statuses : List (OutboundChannelDetails P)) : Option (OutboundChannelDetails P) :=
  statuses.find? (·.recipient = p)

-- A record is added if there is room for it.
def tryPush (config : Config) (d : OutboundChannelDetails P)
    (statuses : List (OutboundChannelDetails P)) :
    Option (List (OutboundChannelDetails P)) :=
  if statuses.length < config.maxActiveOutboundChannels then some (statuses ++ [d]) else none

def tryGetOrInsertOutboundChannel (config : Config) (statuses : List (OutboundChannelDetails P)) :
    Option (OutboundChannelDetails P × List (OutboundChannelDetails P)) :=
  match find p statuses with
  | some d => some (d, statuses)
  | none => (tryPush config { recipient := p } statuses).map ({ recipient := p }, ·)

end Statuses

namespace Queue

variable [DecidableEq P] (config : Config) (q : Queue P)

def existingPage (p : P) (d : OutboundChannelDetails P) (format : XcmpMessageFormat)
    (fragment : Page) (maxMessageSize : Nat) : Option Page :=
  if d.firstIndex < d.lastIndex then
    let page := (q.outboundXcmpMessages p (d.lastIndex - 1)).getD []
    if page.head?.bind XcmpMessageFormat.decode = some format ∧
      page.length + fragment.length ≤ maxMessageSize then
      some page
    else none
  else none

-- `channelInfo` is the maximum message size of the channel if there is one.
-- Returns the number of pages.
def sendFragment (channelInfo : Option Nat) (p : P) (format : XcmpMessageFormat) (fragment : Page) :
    Except MessageSendError Nat × Queue P :=
  match channelInfo with
  | none => (.error .noChannel, q)
  | some size =>
    let maxMessageSize := min size config.maxPageSize
    if maxMessageSize < fragment.length + 1 then (.error .tooBig, q) else
    match tryGetOrInsertOutboundChannel p config q.outboundXcmpStatus with
    | none => (.error .tooManyChannels, q)
    | some (d, statuses) =>
      let d :=
        if format = .concatenatedOpaqueVersionedXcm then
          { d with flags := { d.flags with
            concatenatedOpaqueVersionedXcmNotificationSent := true } }
        else d
      let (d, page) :=
        match q.existingPage p d format fragment maxMessageSize with
        | some page => (d, page ++ fragment)
        | none => ({ d with lastIndex := (d.lastIndex + 1) % 2 ^ 16 }, format.encode :: fragment)
      if config.maxPageSize < page.length then (.error .tooBig, q) else
      (.ok (d.lastIndex - d.firstIndex), { q with
        outboundXcmpMessages := update q.outboundXcmpMessages p
          (update (q.outboundXcmpMessages p) ((d.lastIndex + (2 ^ 16 - 1)) % 2 ^ 16) (some page))
        outboundXcmpStatus := updateFirst p (fun _ => d) statuses })

-- Whether the signal was stored.
def sendSignal (dest : P) (signal : ChannelSignal) : Bool × Queue P :=
  let statuses :=
    match find dest q.outboundXcmpStatus with
    | some _ =>
      some (updateFirst dest (fun d => { d with signalsExist := true }) q.outboundXcmpStatus)
    | none => tryPush config { recipient := dest, signalsExist := true } q.outboundXcmpStatus
  match statuses with
  | none => (false, q)
  | some statuses =>
    if config.maxPageSize < signal.page.length then (false, q) else
    (true, { q with
      signalMessages := update q.signalMessages dest (some signal.page)
      outboundXcmpStatus := statuses
      sent := update q.sent dest (some signal)
      handed := update q.handed dest none })

def suspendChannel (target : P) : Queue P :=
  match find target q.outboundXcmpStatus with
  | some _ => { q with
    outboundXcmpStatus := updateFirst target (fun d =>
      { d with state := .suspended }) q.outboundXcmpStatus }
  | none =>
    match tryPush config { recipient := target, state := .suspended } q.outboundXcmpStatus with
    | some outboundXcmpStatus => { q with outboundXcmpStatus }
    | none => q

def resumeChannel (target : P) : Queue P :=
  match find target q.outboundXcmpStatus with
  | some d =>
    if d.firstIndex = d.lastIndex then
      { q with outboundXcmpStatus := removeFirst target q.outboundXcmpStatus }
    else { q with
      outboundXcmpStatus := updateFirst target (fun d =>
        { d with state := .ok }) q.outboundXcmpStatus }
  | none => q

-- At most three signals of a page are processed, as long as there is weight for them.
def handleSignals (sender : P) : Nat → Page → Nat → Queue P → Nat × Queue P
  | 0, _, weight, q => (weight, q)
  | _ + 1, [], weight, q => (weight, q)
  | count + 1, byte :: data, weight, q =>
    match ChannelSignal.decode byte with
    | some .suspend =>
      if weight < config.suspendChannelWeight then (weight, q) else
      handleSignals sender count data (weight - config.suspendChannelWeight)
        (q.suspendChannel config sender)
    | some .resume =>
      if weight < config.resumeChannelWeight then (weight, q) else
      handleSignals sender count data (weight - config.resumeChannelWeight) (q.resumeChannel sender)
    | none => (weight, q)

-- The sender understands the format.
def noticeSupport (sender : P) : Queue P :=
  match tryGetOrInsertOutboundChannel sender config q.outboundXcmpStatus with
  | some (_, statuses) => { q with
    outboundXcmpStatus := updateFirst sender (fun d => { d with
      flags := { d.flags with concatenatedOpaqueVersionedXcmSupport := true } }) statuses }
  | none => q

def onQueueChanged (p : P) (readyPages : Nat) : Queue P :=
  if p ∈ q.inboundXcmpSuspended then
    if readyPages ≤ q.queueConfig.resumeThreshold then
      match q.sendSignal config p .resume with
      | (true, q) => { q with inboundXcmpSuspended := q.inboundXcmpSuspended.erase p }
      | (false, q) => q
    else q
  else
    if q.queueConfig.suspendThreshold ≤ readyPages then
      match q.sendSignal config p .suspend with
      | (true, q) =>
        if q.inboundXcmpSuspended.card < config.maxInboundSuspended then
          { q with inboundXcmpSuspended := insert p q.inboundXcmpSuspended }
        else q
      | (false, q) => q
    else q

-- The pages are reported while the messages of a page are enqueued.
def handlePage (page : InboundPage P) (weight : Nat) : Nat × Queue P :=
  match page.data with
  | [] => (weight, q)
  | byte :: data =>
    match XcmpMessageFormat.decode byte with
    | some .signals => handleSignals config page.sender 3 data weight q
    | some .concatenatedVersionedXcm =>
      (weight - page.weight,
        page.readyPages.foldl (fun q ready => q.onQueueChanged config page.sender ready) q)
    | some .concatenatedOpaqueVersionedXcm =>
      (weight - page.weight,
        page.readyPages.foldl (fun q ready => q.onQueueChanged config page.sender ready)
          (q.noticeSupport config page.sender))
    | some .concatenatedEncodedBlob => (weight, q)
    | none => (weight, q)

def handleXcmpMessages : List (InboundPage P) → Nat → Queue P → Queue P
  | [], _, q => q
  | page :: pages, weight, q =>
    let (weight, q) := q.handlePage config page weight
    handleXcmpMessages pages weight q

-- The storage that the loop of `take_outbound_messages` changes, and its result.
structure Taking (P : Type) where
  messages : P → Nat → Option Page
  signals : P → Option Page
  result : List (P × Page) := []

-- The page that is sent to an open channel, with the details afterwards.
def fetchPage (maxSizeNow : Nat) (d : OutboundChannelDetails P) (t : Taking P) :
    Option (Page × OutboundChannelDetails P × Taking P) :=
  if d.signalsExist then
    let page := (t.signals d.recipient).getD []
    if page.length < maxSizeNow then
      some (page, { d with signalsExist := false },
        { t with signals := update t.signals d.recipient none })
    else none
  else if d.state = .suspended then none
  else
    let page := (t.messages d.recipient d.firstIndex).getD []
    if d.firstIndex < d.lastIndex ∧ page.length < maxSizeNow then
      some (page, { d with firstIndex := d.firstIndex + 1 }, { t with
        messages := update t.messages d.recipient
          (update (t.messages d.recipient) d.firstIndex none) })
    else if d.flags.shouldSendNotification then
      some ([XcmpMessageFormat.concatenatedOpaqueVersionedXcm.encode],
        { d with flags := { d.flags with concatenatedOpaqueVersionedXcmNotificationSent := true } },
        t)
    else none

-- One channel. It is not retained if it is closed.
def takeOne (status : P → ChannelStatus) (excluded : List P) (maxMessageCount : Nat)
    (d : OutboundChannelDetails P) (t : Taking P) : Option (OutboundChannelDetails P) × Taking P :=
  match status d.recipient with
  | .closed => (none, { t with
    messages := update t.messages d.recipient fun i =>
      if d.firstIndex ≤ i ∧ i < d.lastIndex then none else t.messages d.recipient i
    signals := if d.signalsExist then update t.signals d.recipient none else t.signals })
  | .full => (some d, t)
  | .ready maxSizeNow maxSizeEver =>
    if d.recipient ∈ excluded then (some d, t) else
    if t.result.length = maxMessageCount then (some d, t) else
    match fetchPage maxSizeNow d t with
    | none => (some d, t)
    | some (page, d, t) =>
      (some (if d.firstIndex = d.lastIndex then { d with firstIndex := 0, lastIndex := 0 } else d),
        if maxSizeEver < page.length then t
        else { t with result := t.result ++ [(d.recipient, page)] })

def takeLoop (status : P → ChannelStatus) (excluded : List P) (maxMessageCount : Nat) :
    List (OutboundChannelDetails P) → Taking P → List (OutboundChannelDetails P) × Taking P
  | [], t => ([], t)
  | d :: details, t =>
    let (d, t) := takeOne status excluded maxMessageCount d t
    let (details, t) := takeLoop status excluded maxMessageCount details t
    (d.toList ++ details, t)

def pagesFor (p : P) (result : List (P × Page)) : List Page :=
  (result.filter (·.1 = p)).map (·.2)

-- A signal is handed out by a page for a channel that has signals.
def noteHanded (result : List (P × Page)) : P → Option Page :=
  fun p =>
    if (find p q.outboundXcmpStatus).any (·.signalsExist) then
      (pagesFor p result).head?.or (q.handed p)
    else q.handed p

end Queue

-- The pages of the result come in the order of the recipients.
def Queue.takeOutboundMessages [LinearOrder P] (q : Queue P) (maximumChannels : Nat)
    (excluded : List P) (status : P → ChannelStatus) : List (P × Page) × Queue P :=
  let count := min q.outboundXcmpStatus.length maximumChannels
  let (statuses, t) := Queue.takeLoop status excluded count q.outboundXcmpStatus
    { messages := q.outboundXcmpMessages, signals := q.signalMessages }
  let pruned := q.outboundXcmpStatus.length - statuses.length
  (t.result.mergeSort (fun a b => decide (a.1 ≤ b.1)), { q with
    outboundXcmpMessages := t.messages
    signalMessages := t.signals
    outboundXcmpStatus := statuses.rotate (t.result.length - pruned)
    handed := q.noteHanded t.result })

end XcmpQueue
