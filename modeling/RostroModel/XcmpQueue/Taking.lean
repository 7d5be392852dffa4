import RostroModel.XcmpQueue.Channels

namespace XcmpQueue.Queue

open Function (update_of_ne)

variable {P : Type} [LinearOrder P] {p r : P} {q : Queue P}
variable {l l₁ l₂ : List (OutboundChannelDetails P)} {d d' : OutboundChannelDetails P}
  {t t' : Taking P}
variable {status : P → ChannelStatus} {excluded : List P} {count now ever : Nat}

-- What the loop leaves as it is for a channel.
structure Untouched (p : P) (t t' : Taking P) : Prop where
  messages : t'.messages p = t.messages p
  signal : t'.signals p = t.signals p
  result : pagesFor p t'.result = pagesFor p t.result

theorem Untouched.refl : Untouched p t t := ⟨rfl, rfl, rfl⟩

theorem Untouched.trans (h : Untouched p t t') (h' : Untouched p t' t'') : Untouched p t t'' :=
  ⟨h'.messages.trans h.messages, h'.signal.trans h.signal, h'.result.trans h.result⟩

theorem pagesFor_append :
    pagesFor p (result ++ [(r, page)]) = pagesFor p result ++ if r = p then [page] else [] := by
  unfold pagesFor
  by_cases h : r = p <;> simp [h]

-- Indices start again once all pages are taken.
def settle (d : OutboundChannelDetails P) : OutboundChannelDetails P :=
  if d.firstIndex = d.lastIndex then { d with firstIndex := 0, lastIndex := 0 } else d

omit [LinearOrder P] in
theorem settle_recipient : (settle d).recipient = d.recipient := by
  unfold settle
  split_ifs <;> rfl

omit [LinearOrder P] in
theorem settle_signalsExist : (settle d).signalsExist = d.signalsExist := by
  unfold settle
  split_ifs <;> rfl

-- A page that is too large is dropped.
def handOut (ever : Nat) (page : Page) : List Page :=
  if ever < page.length then [] else [page]

-- What happens to a channel that is open.
inductive Takes (ever : Nat) (d : OutboundChannelDetails P) (t : Taking P) :
    OutboundChannelDetails P → Taking P → Prop
  | nothing : Takes ever d t d t
  | signal (t' : Taking P) (hs : d.signalsExist = true)
      (hm : t'.messages = t.messages)
      (hsig : t'.signals = Function.update t.signals d.recipient none)
      (hres : t'.result = t.result ++
        (handOut ever ((t.signals d.recipient).getD [])).map fun page => (d.recipient, page)) :
      Takes ever d t (settle { d with signalsExist := false }) t'
  | message (t' : Taking P) (hs : d.signalsExist = false) (hi : d.firstIndex < d.lastIndex)
      (hm : t'.messages = Function.update t.messages d.recipient
        (Function.update (t.messages d.recipient) d.firstIndex none))
          (hsig : t'.signals = t.signals)
      (hres : t'.result = t.result ++
        (handOut ever ((t.messages d.recipient d.firstIndex).getD [])).map fun page =>
          (d.recipient, page)) :
      Takes ever d t (settle { d with firstIndex := d.firstIndex + 1 }) t'
  | notification (t' : Taking P) (flags : OutboundChannelFlags) (hs : d.signalsExist = false)
      (hm : t'.messages = t.messages) (hsig : t'.signals = t.signals)
      (hres : t'.result = t.result ++
        (handOut ever [XcmpMessageFormat.concatenatedOpaqueVersionedXcm.encode]).map
          fun page => (d.recipient, page)) :
      Takes ever d t (settle { d with flags }) t'

-- The result after a page was fetched.
def Taking.handOut (ever : Nat) (r : P) (page : Page) (t : Taking P) : Taking P :=
  if ever < page.length then t else { t with result := t.result ++ [(r, page)] }

omit [LinearOrder P] in
theorem Taking.handOut_result : (t.handOut ever r page).result =
    t.result ++ (Queue.handOut ever page).map fun page => (r, page) := by
  unfold Taking.handOut Queue.handOut
  split_ifs <;> simp

omit [LinearOrder P] in
theorem Taking.handOut_storage : (t.handOut ever r page).messages = t.messages ∧
    (t.handOut ever r page).signals = t.signals := by
  unfold Taking.handOut
  split_ifs <;> exact ⟨rfl, rfl⟩

theorem takes_fetched (h : fetchPage now d t = some (page, d', t')) :
    Takes ever d t (settle d') (t'.handOut ever d'.recipient page) := by
  unfold fetchPage at h
  dsimp only at h
  split_ifs at h with hs hfit hst hi hn
  · obtain ⟨rfl, rfl, rfl⟩ := h
    exact .signal _ hs Taking.handOut_storage.1 Taking.handOut_storage.2 Taking.handOut_result
  · obtain ⟨rfl, rfl, rfl⟩ := h
    exact .message _ (by simpa using hs) hi.1 Taking.handOut_storage.1 Taking.handOut_storage.2
      Taking.handOut_result
  · obtain ⟨rfl, rfl, rfl⟩ := h
    exact .notification _ _ (by simpa using hs) Taking.handOut_storage.1 Taking.handOut_storage.2
      Taking.handOut_result

theorem takeOne_open (h : status d.recipient ≠ .closed) :
    (takeOne status excluded count d t).1 = some d ∧ (takeOne status excluded count d t).2 = t ∨
    ∃ now ever d' t', status d.recipient = .ready now ever ∧
      takeOne status excluded count d t = (some d', t') ∧ Takes ever d t d' t' := by
  unfold takeOne
  cases hst : status d.recipient with
  | closed => exact absurd hst h
  | full => exact .inl ⟨rfl, rfl⟩
  | ready now ever =>
    dsimp only
    split_ifs
    · exact .inl ⟨rfl, rfl⟩
    · exact .inl ⟨rfl, rfl⟩
    · cases hf : fetchPage now d t with
      | none => exact .inl ⟨rfl, rfl⟩
      | some fetched =>
        obtain ⟨page, d', t'⟩ := fetched
        exact .inr ⟨now, ever, settle d', t'.handOut ever d'.recipient page, rfl, rfl,
          takes_fetched hf⟩

theorem Takes.recipient (h : Takes ever d t d' t') : d'.recipient = d.recipient := by
  cases h
  case nothing => rfl
  all_goals exact settle_recipient

theorem pagesFor_handOut : pagesFor p (result ++ (handOut ever page).map fun page => (r, page)) =
      pagesFor p result ++ if r = p then handOut ever page else [] := by
  unfold handOut
  split_ifs <;> simp_all [pagesFor]

theorem Takes.untouched (h : Takes ever d t d' t') (hr : d.recipient ≠ p) : Untouched p t t' := by
  cases h
  case nothing => exact .refl
  all_goals
    rename_i hm hsig hres
    refine ⟨?_, ?_, ?_⟩
    · rw [hm]
      try exact update_of_ne (Ne.symm hr) _ _
    · rw [hsig]
      try exact update_of_ne (Ne.symm hr) _ _
    · rw [hres, pagesFor_handOut, if_neg hr, List.append_nil]

theorem takeOne_other (hr : d.recipient ≠ p) : Untouched p t (takeOne status excluded count d t).2 ∧
    ∀ d' ∈ (takeOne status excluded count d t).1, d'.recipient = d.recipient := by
  by_cases hc : status d.recipient = .closed
  · unfold takeOne
    rw [hc]
    refine ⟨⟨update_of_ne (Ne.symm hr) _ _, ?_, rfl⟩, by simp⟩
    dsimp only
    split_ifs
    · exact update_of_ne (Ne.symm hr) _ _
    · rfl
  · rcases takeOne_open hc with ⟨h1, h2⟩ | ⟨now, ever, d', t', _, h, ht⟩
    · rw [h1, h2]
      exact ⟨.refl, by simp⟩
    · rw [h]
      exact ⟨ht.untouched hr, by simp [ht.recipient]⟩

theorem takeOne_recipient :
    ∀ d' ∈ (takeOne status excluded count d t).1, d'.recipient = d.recipient := by
  by_cases hc : status d.recipient = .closed
  · unfold takeOne
    rw [hc]
    simp
  · rcases takeOne_open hc with ⟨h1, _⟩ | ⟨_, _, _, _, _, h, ht⟩
    · rw [h1]
      simp
    · rw [h]
      simp [ht.recipient]

theorem takeLoop_cons : takeLoop status excluded count (d :: l) t =
    ((takeOne status excluded count d t).1.toList ++
      (takeLoop status excluded count l (takeOne status excluded count d t).2).1,
      (takeLoop status excluded count l (takeOne status excluded count d t).2).2) := rfl

theorem takeLoop_append : takeLoop status excluded count (l₁ ++ l₂) t =
    ((takeLoop status excluded count l₁ t).1 ++
      (takeLoop status excluded count l₂ (takeLoop status excluded count l₁ t).2).1,
      (takeLoop status excluded count l₂ (takeLoop status excluded count l₁ t).2).2) := by
  induction l₁ generalizing t with
  | nil => rfl
  | cons d ds hi => simp only [List.cons_append, takeLoop_cons, hi, List.append_assoc]

theorem takeLoop_recipients :
    ((takeLoop status excluded count l t).1.map (·.recipient)).Sublist (l.map (·.recipient)) := by
  induction l generalizing t with
  | nil => exact List.Sublist.refl _
  | cons d ds hi =>
    rw [takeLoop_cons]
    cases h : (takeOne status excluded count d t).1 with
    | none => exact (hi).cons _
    | some d' =>
      have hd : d'.recipient = d.recipient := takeOne_recipient d' (by rw [h]; rfl)
      simpa [hd] using hi

theorem takeLoop_other (h : find p l = none) :
    Untouched p t (takeLoop status excluded count l t).2 ∧
    find p (takeLoop status excluded count l t).1 = none := by
  constructor
  · induction l generalizing t with
    | nil => exact .refl
    | cons d ds hi =>
      have hd := find_eq_none_iff.mp h
      exact (takeOne_other (hd d List.mem_cons_self)).1.trans
        (hi (find_eq_none_iff.mpr fun e he => hd e (List.mem_cons_of_mem d he)))
  · rw [find_eq_none_iff] at h ⊢
    intro d' hd' heq
    obtain ⟨e, he, hr⟩ := List.mem_map.mp (takeLoop_recipients.subset (List.mem_map_of_mem hd'))
    exact h e he (hr.trans heq)

theorem exists_split (hl : Distinct l) (h : find p l = some d) :
    ∃ l₁ l₂, l = l₁ ++ d :: l₂ ∧ find p l₁ = none ∧ find p l₂ = none := by
  obtain ⟨l₁, l₂, rfl⟩ := List.append_of_mem (List.mem_of_find?_eq_some h)
  obtain rfl := find_recipient h
  unfold Distinct at hl
  rw [List.map_append, List.nodup_append] at hl
  obtain ⟨_, h2, h1⟩ := hl
  refine ⟨l₁, l₂, rfl,
    find_eq_none_iff.mpr fun e he heq => ?_, find_eq_none_iff.mpr fun e he heq => ?_⟩
  · exact h1 _ (List.mem_map_of_mem he) _ List.mem_cons_self heq
  · exact (List.nodup_cons.mp h2).1 (List.mem_map.mpr ⟨e, he, heq⟩)

theorem takeLoop_present (hl : Distinct l) (ho : status p ≠ .closed) (h : find p l = some d) :
    ∃ t1 t2 d', Untouched p t t1 ∧
      (d' = d ∧ t2 = t1 ∨ ∃ now ever, status p = .ready now ever ∧ Takes ever d t1 d' t2) ∧
      find p (takeLoop status excluded count l t).1 = some d' ∧
      Untouched p t2 (takeLoop status excluded count l t).2 := by
  obtain ⟨l₁, l₂, rfl, h1, h2⟩ := exists_split hl h
  obtain rfl := find_recipient h
  rw [takeLoop_append, takeLoop_cons]
  obtain ⟨hu1, hf1⟩ := @takeLoop_other P _ d.recipient l₁ t status excluded count h1
  generalize takeLoop status excluded count l₁ t = loop1 at hu1 hf1
  obtain ⟨d', hd', hcases⟩ : ∃ d', (takeOne status excluded count d loop1.2).1 = some d' ∧
      (d' = d ∧ (takeOne status excluded count d loop1.2).2 = loop1.2 ∨
        ∃ now ever, status d.recipient = .ready now ever ∧
          Takes ever d loop1.2 d' (takeOne status excluded count d loop1.2).2) := by
    rcases takeOne_open ho with ⟨ho1, ho2⟩ | ⟨now, ever, d', t', hst, ho, ht⟩
    · exact ⟨d, ho1, .inl ⟨rfl, ho2⟩⟩
    · rw [ho]
      exact ⟨d', rfl, .inr ⟨now, ever, hst, ht⟩⟩
  refine ⟨loop1.2, (takeOne status excluded count d loop1.2).2, d', hu1, hcases, ?_,
    (takeLoop_other h2).1⟩
  have hrec : d'.recipient = d.recipient := by
    rcases hcases with ⟨rfl, _⟩ | ⟨_, _, _, ht⟩
    · rfl
    · exact ht.recipient
  unfold find at hf1 ⊢
  rw [List.find?_append, hf1, hd']
  simp [hrec]

theorem pagesFor_perm {result result' : List (P × Page)} (h : result'.Perm result)
    (hp : (pagesFor p result).length ≤ 1) : pagesFor p result' = pagesFor p result := by
  have hperm : (pagesFor p result').Perm (pagesFor p result) := (h.filter _).map _
  generalize pagesFor p result = pages at hp hperm
  match pages, hp with
  | [], _ => exact hperm.eq_nil
  | [page], _ => exact List.perm_singleton.mp hperm

-- How a call changes one channel, in terms of what the loop does when it comes to its record.
structure Outcome (p : P) (q : Queue P) (status : P → ChannelStatus) (result : List (P × Page))
    (q' : Queue P) :
    Prop where
  distinct : Distinct q'.outboundXcmpStatus
  suspended : q'.inboundXcmpSuspended = q.inboundXcmpSuspended
  sent : q'.sent = q.sent
  handed : q'.handed p = if (find p q.outboundXcmpStatus).any (·.signalsExist) then
    (pagesFor p result).head?.or (q.handed p) else q.handed p
  absent : find p q.outboundXcmpStatus = none → find p q'.outboundXcmpStatus = none ∧
    q'.outboundXcmpMessages p = q.outboundXcmpMessages p ∧
      q'.signalMessages p = q.signalMessages p ∧
    pagesFor p result = []
  present : ∀ d, find p q.outboundXcmpStatus = some d →
    ∃ t t' d', t.messages p = q.outboundXcmpMessages p ∧
    t.signals p = q.signalMessages p ∧ pagesFor p t.result = [] ∧
    (d' = d ∧ t' = t ∨ ∃ now ever, status p = .ready now ever ∧ Takes ever d t d' t') ∧
    find p q'.outboundXcmpStatus = some d' ∧ q'.outboundXcmpMessages p = t'.messages p ∧
    q'.signalMessages p = t'.signals p ∧ pagesFor p result = pagesFor p t'.result

theorem Takes.length_le (h : Takes ever d t d' t') (ht : pagesFor p t.result = []) :
    (pagesFor p t'.result).length ≤ 1 := by
  have hout : ∀ page, (if d.recipient = p then handOut ever page else []).length ≤ 1 := by
    intro page
    unfold handOut
    split_ifs <;> simp
  cases h
  case nothing => simp [ht]
  all_goals
    rename_i hres
    rw [hres, pagesFor_handOut, ht]
    exact hout _

theorem takeOutboundMessages_outcome {channels : Nat} (hl : Distinct q.outboundXcmpStatus)
    (ho : status p ≠ .closed) :
    Outcome p q status (q.takeOutboundMessages channels excluded status).1
      (q.takeOutboundMessages channels excluded status).2 := by
  unfold takeOutboundMessages
  generalize min q.outboundXcmpStatus.length channels = count
  generalize ht0 : ({ messages := q.outboundXcmpMessages, signals := q.signalMessages } :
    Taking P) = t0
  have hm0 : t0.messages = q.outboundXcmpMessages := by rw [← ht0]
  have hs0 : t0.signals = q.signalMessages := by rw [← ht0]
  have hr0 : t0.result = [] := by rw [← ht0]
  have hdist : Distinct (takeLoop status excluded count q.outboundXcmpStatus t0).1 :=
    hl.sublist takeLoop_recipients
  have hrot := fun n => hdist.find_perm (p := p) (List.rotate_perm _ n)
  -- At most one page is handed out for the channel, so that sorting does not matter.
  have hone : (pagesFor p
      (takeLoop status excluded count q.outboundXcmpStatus t0).2.result).length ≤ 1 := by
    cases hf : find p q.outboundXcmpStatus with
    | none => rw [(takeLoop_other hf).1.result, hr0]; exact Nat.zero_le 1
    | some d =>
      obtain ⟨t, t', d', hu, hcases, _, hu'⟩ := takeLoop_present hl ho hf
      have ht : pagesFor p t.result = [] := by rw [hu.result, hr0]; rfl
      rw [hu'.result]
      rcases hcases with ⟨_, rfl⟩ | ⟨_, _, _, htakes⟩
      · rw [ht]
        exact Nat.zero_le 1
      · exact htakes.length_le ht
  have hsort := pagesFor_perm (List.mergeSort_perm
    (takeLoop status excluded count q.outboundXcmpStatus t0).2.result fun a b =>
      decide (a.1 ≤ b.1)) hone
  constructor
  case distinct => exact ((List.rotate_perm _ _).map _).nodup_iff.mpr hdist
  case suspended => rfl
  case sent => rfl
  case handed =>
    rw [hsort]
    rfl
  case absent =>
    intro hf
    obtain ⟨hu, hf'⟩ := takeLoop_other (t := t0) hf
    refine ⟨(hrot _).trans hf', hu.messages.trans (congrFun hm0 p),
      hu.signal.trans (congrFun hs0 p), ?_⟩
    · rw [hsort, hu.result, hr0]
      rfl
  case present =>
    intro d hf
    obtain ⟨t, t', d', hu, hcases, hf', hu'⟩ := takeLoop_present (t := t0) hl ho hf
    refine ⟨t, t', d', ?_, ?_, ?_, hcases, (hrot _).trans hf', hu'.messages, hu'.signal, ?_⟩
    · rw [hu.messages, hm0]
    · rw [hu.signal, hs0]
    · rw [hu.result, hr0]
      rfl
    · rw [hsort, hu'.result]

end XcmpQueue.Queue
