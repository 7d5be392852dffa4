import RostroModel.Statements.Index

namespace Statements

open Std.ExtTreeMap

variable {H A T K C : Type}

variable {live : Live H A T K C} {hash : H} {a b : A} {s : Statement H T K C} {exact : Prop}

theorem PriorityKey.mk_inj : PriorityKey.mk e h = PriorityKey.mk e' h' ↔ e = e' ∧ h = h' := by
  simp [PriorityKey.mk]

theorem PriorityKey.mk_eta (key : PriorityKey H) : PriorityKey.mk key.expiry key.hash = key :=
  rfl

-- A size that is kept for some statements is never less than theirs, and not more if it is exact.
structure Sized (exact : Prop) (size sum : Nat) : Prop where
  le : sum ≤ size
  eq : exact → size = sum

theorem Sized.add {size sum : Nat} (h : Sized exact size sum) (n : Nat) :
    Sized exact (size + n) (sum + n) :=
  ⟨Nat.add_le_add_right h.le n, fun he => congrArg (· + n) (h.eq he)⟩

theorem Sized.sub {size sum : Nat} (h : Sized exact size sum) (n : Nat) :
    Sized exact (size - n) (sum - n) :=
  ⟨Nat.sub_le_sub_right h.le n, fun he => congrArg (· - n) (h.eq he)⟩

variable [LinearOrder H]

-- No live statement of the account is in the channel.
def Free (live : Live H A T K C) (a : A) (s : Statement H T K C) : Prop :=
  ∀ h s', live h = some (a, s') → s.channel.isSome → s'.channel ≠ s.channel

-- The record of an account describes exactly its live statements.
structure Describes (exact : Prop) (live : Live H A T K C) (a : A)
    (rec : StatementsForAccount H C) : Prop where
  byPriority : ∀ e h v, rec.byPriority[PriorityKey.mk e h]? = some v ↔
    ∃ s, live h = some (a, s) ∧ s.expiry = e ∧ v = (s.channel, s.dataLen)
  channels : ∀ c h e, rec.channels c = some (h, e) ↔
    ∃ s, live h = some (a, s) ∧ s.channel = some c ∧ s.expiry = e
  dataSize : Sized exact rec.dataSize (rec.byPriority.sumBy fun _ v => v.2)

namespace Describes

variable {rec : StatementsForAccount H C}

section

variable (h : Describes exact live a rec)
include h

theorem lookup (hl : live hash = some (a, s)) :
    rec.byPriority[PriorityKey.mk s.expiry hash]? = some (s.channel, s.dataLen) :=
  (h.byPriority s.expiry hash _).mpr ⟨s, hl, rfl, rfl⟩

theorem lookup_none (hl : live hash = none) (e : Nat) :
    rec.byPriority[PriorityKey.mk e hash]? = none := by
  rw [Option.eq_none_iff_forall_ne_some]
  intro v hv
  obtain ⟨s, hs, -⟩ := (h.byPriority e hash v).mp hv
  rw [hl] at hs
  cases hs

-- A statement of another account does not concern the record.
theorem update_of_ne (hl : ∀ s, live hash ≠ some (a, s)) (he : ∀ s, entry ≠ some (a, s)) :
    Describes exact (Function.update live hash entry) a rec := by
  have hiff (h' : H) (s) : Function.update live hash entry h' = some (a, s) ↔
      live h' = some (a, s) := by
    by_cases hh : h' = hash
    · subst hh
      rw [Function.update_self]
      exact ⟨fun h => absurd h (he s), fun h => absurd h (hl s)⟩
    · rw [Function.update_of_ne hh]
  constructor
  case byPriority => simpa only [hiff] using h.byPriority
  case channels => simpa only [hiff] using h.channels
  case dataSize => exact h.dataSize

theorem of_empty (he : rec.byPriority = ∅) : Describes exact live a {} := by
  have hnone (h' : H) (s) : live h' ≠ some (a, s) := by
    intro hl
    have hlook := h.lookup hl
    rw [he] at hlook
    simp at hlook
  refine ⟨fun e h' v => ?_, fun c h' e => ?_, le_rfl, fun _ => rfl⟩
  all_goals simp [hnone]

end

variable [DecidableEq C]

theorem remove (h : Describes exact live a rec) (hl : live hash = some (a, s)) :
    Describes exact (Function.update live hash none) a (rec.remove hash s.expiry) := by
  have hlook := h.lookup hl
  rw [StatementsForAccount.remove, hlook]
  constructor
  case byPriority =>
    intro e h' v
    simp only [lookup_erase, PriorityKey.mk_inj]
    by_cases hh : h' = hash
    · subst hh
      by_cases he : e = s.expiry
      · simp [he]
      · have hnot : rec.byPriority[PriorityKey.mk e h']? ≠ some v := by
          intro hv
          obtain ⟨s', hs', rfl, -⟩ := (h.byPriority e h' v).mp hv
          rw [hl] at hs'
          cases hs'
          exact he rfl
        simpa [he] using hnot
    · rw [Function.update_of_ne hh]
      simp [hh, h.byPriority e h' v]
  case channels =>
    intro c h' e
    by_cases hh : h' = hash
    · subst hh
      -- The channel of the statement is free now, and it has no other one.
      have hnot : s.channel ≠ some c → rec.channels c ≠ some (h', e) := by
        intro hsc hv
        obtain ⟨s', hs', hc', -⟩ := (h.channels c h' e).mp hv
        rw [hl] at hs'
        cases hs'
        exact hsc hc'
      cases hsc : s.channel
      case none => simpa using hnot (by simp [hsc])
      case some c' =>
        by_cases hcc : c = c'
        · simp [hcc]
        · simpa [Function.update_of_ne hcc] using hnot (by simpa [hsc] using Ne.symm hcc)
    · rw [Function.update_of_ne hh, ← h.channels c h' e]
      cases hsc : s.channel
      case none => rfl
      case some c' =>
        by_cases hcc : c = c'
        · subst hcc
          have hmine := (h.channels c hash s.expiry).mpr ⟨s, hl, hsc, rfl⟩
          simp [hmine, Ne.symm hh]
        · simp [Function.update_of_ne hcc]
  case dataSize =>
    rw [sumBy_erase hlook]
    exact h.dataSize.sub s.dataLen

theorem insert {rec : StatementsForAccount H C} (h : Describes exact live a rec)
    (hl : live hash = none) (hf : Free live a s) :
    Describes exact (Function.update live hash (some (a, s))) a
      (rec.insert hash s.channel s.expiry s.dataLen) := by
  constructor
  case byPriority =>
    intro e h' v
    have hb := h.byPriority e h' v
    simp only [StatementsForAccount.insert, lookup_insert, PriorityKey.mk_inj]
    by_cases hh : h' = hash
    case pos => grind [h.lookup_none hl e, Function.update]
    case neg => simpa [hh] using hb
  case channels =>
    intro c h' e
    have hc := h.channels c h' e
    cases hsc : s.channel
    case none => grind [StatementsForAccount.insert, Function.update]
    case some c' =>
      have hf' s' := hf h' s'
      simp only [StatementsForAccount.insert, Option.elim_some, Function.update_apply]
      grind
  case dataSize =>
    simp only [StatementsForAccount.insert, sumBy_insert (h.lookup_none hl s.expiry)]
    exact h.dataSize.add s.dataLen

-- The statement is counted once more if it is there already.
theorem insert_live {rec : StatementsForAccount H C} (h : Describes exact live a rec)
    (hl : live hash = some (a, s)) (hx : ¬exact) :
    Describes exact live a (rec.insert hash s.channel s.expiry s.dataLen) := by
  have hsame : rec.byPriority.insert (.mk s.expiry hash) (s.channel, s.dataLen) = rec.byPriority :=
    insert_of_lookup (h.lookup hl)
  constructor
  case byPriority =>
    rw [StatementsForAccount.insert, hsame]
    exact h.byPriority
  case channels =>
    intro c h' e
    rw [← h.channels, StatementsForAccount.insert]
    cases hsc : s.channel
    case none => rfl
    case some c' =>
      dsimp only
      rw [Option.elim_some, Function.update_apply]
      split_ifs with hc
      · rw [hc, (h.channels c' hash s.expiry).mpr ⟨s, hl, hsc, rfl⟩]
      · rfl
  case dataSize =>
    rw [StatementsForAccount.insert, hsame]
    exact ⟨h.dataSize.le.trans (Nat.le_add_right ..), fun he => absurd he hx⟩

end Describes

theorem without_nil : without live [] = live := by
  funext h
  simp [without]

theorem without_cons (hashes : List H) :
    without live (hash :: hashes) = without (Function.update live hash none) hashes := by
  funext h
  by_cases hh : h = hash <;> simp [without, hh]

variable [LinearOrder A] {index : Index H A T K C}

-- The entries, the sizes and the accounts are those of the live statements.
structure Tracked (exact : Prop) (index : Index H A T K C) (live : Live H A T K C) : Prop where
  entries : ∀ h : H, index.entries[h]? = (live h).map fun e => (e.1, e.2.expiry, e.2.dataLen)
  totalSize : Sized exact index.totalSize (index.entries.sumBy fun _ e => e.2.2)
  accounts : ∀ a, Describes exact live a (index.record a)
  nonempty : ∀ (a : A) (rec : StatementsForAccount H C), index.accounts[a]? = some rec →
    rec.byPriority ≠ ∅

abbrev Accounted (index : Index H A T K C) (live : Live H A T K C) : Prop :=
  Tracked True index live

namespace Tracked

theorem empty (config : Config) :
    Tracked exact ({ config } : Index H A T K C) (fun _ => none : Live H A T K C) := by
  constructor
  case entries => simp
  case totalSize => exact ⟨le_rfl, fun _ => rfl⟩
  case accounts =>
    intro a
    refine ⟨fun e h v => ?_, fun c h e => ?_, ?_⟩
    · simp [Index.record]
    · simp [Index.record]
    · exact ⟨Nat.zero_le _, fun _ => rfl⟩
  case nonempty => simp

theorem record_eq (h : Tracked exact index live) (hl : live hash = some (a, s)) :
    index.accounts[a]? = some (index.record a) := by
  cases hr : index.accounts[a]?
  case some rec => simp [Index.record, hr]
  case none =>
    have hlook := (h.accounts a).lookup hl
    rw [Index.record, hr] at hlook
    simp at hlook

variable [DecidableEq T] [DecidableEq K] [DecidableEq C]

-- The parts of `make_expired` that do not touch the accounts.
omit [DecidableEq C] in
theorem forgetTopics_eq (index : Index H A T K C) (hash : H) :
    (index.forgetTopics hash).entries = index.entries ∧
      (index.forgetTopics hash).totalSize = index.totalSize ∧
      (index.forgetTopics hash).accounts = index.accounts := by
  rw [Index.forgetTopics]
  split <;> exact ⟨rfl, rfl, rfl⟩

omit [DecidableEq T] [DecidableEq K] [DecidableEq C] in
theorem noteEvicted_eq (index : Index H A T K C) (hash : H) (expiry now : Nat) :
    (index.noteEvicted hash expiry now).entries = index.entries ∧
      (index.noteEvicted hash expiry now).totalSize = index.totalSize ∧
      (index.noteEvicted hash expiry now).accounts = index.accounts := by
  rw [Index.noteEvicted]
  split_ifs <;> exact ⟨rfl, rfl, rfl⟩

omit [DecidableEq T] [DecidableEq K] in
theorem removeFromAccount_eq {rec : StatementsForAccount H C} (hash : H) (expiry : Nat)
    (ha : index.accounts[a]? = some rec) (b : A) :
    (index.removeFromAccount a hash expiry).accounts[b]? = if b = a then
        if (rec.remove hash expiry).byPriority = ∅ then none else some (rec.remove hash expiry)
      else index.accounts[b]? := by
  simp only [Index.removeFromAccount, ha]
  by_cases he : (rec.remove hash expiry).byPriority = ∅
  · simp [he, lookup_erase]
  · simp [he, lookup_insert]

theorem makeExpired (h : Tracked exact index live) (hash : H) (now : Nat) :
    Tracked exact (index.makeExpired hash now).2 (Function.update live hash none) := by
  cases hl : live hash
  case none =>
    have hn : index.entries[hash]? = none := by rw [h.entries, hl]; rfl
    rw [Index.makeExpired, hn, ← hl, Function.update_eq_self]
    exact h
  case some e =>
    obtain ⟨a, s⟩ := e
    have he : index.entries[hash]? = some (a, s.expiry, s.dataLen) := by rw [h.entries, hl]; rfl
    have hrec := h.record_eq hl
    have hdesc := (h.accounts a).remove hl
    rw [Index.makeExpired, he]
    simp only
    generalize hi : ({ index with
      entries := index.entries.erase hash
      totalSize := index.totalSize - s.dataLen
      recent := index.recent.erase hash } : Index H A T K C) = index1
    obtain ⟨f1, f2, f3⟩ := forgetTopics_eq index1 hash
    obtain ⟨n1, n2, n3⟩ := noteEvicted_eq (index1.forgetTopics hash) hash s.expiry now
    generalize hj : (index1.forgetTopics hash).noteEvicted hash s.expiry now = index2 at n1 n2 n3
    rw [f1] at n1
    rw [f2] at n2
    rw [f3] at n3
    subst hi
    have hrec2 : index2.accounts[a]? = some (index.record a) := by rw [n3]; exact hrec
    have hacc := removeFromAccount_eq hash s.expiry hrec2
    have heq : (index2.removeFromAccount a hash s.expiry).entries = index2.entries ∧
        (index2.removeFromAccount a hash s.expiry).totalSize = index2.totalSize := by
      rw [Index.removeFromAccount, hrec2]
      exact ⟨rfl, rfl⟩
    constructor
    case entries =>
      intro h'
      rw [heq.1, n1, lookup_erase]
      by_cases hh : h' = hash
      · simp [hh]
      · simp [hh, h.entries h']
    case totalSize =>
      rw [heq.1, heq.2, n1, n2, sumBy_erase he]
      exact h.totalSize.sub s.dataLen
    case accounts =>
      intro b
      rw [Index.record, hacc b]
      by_cases hb : b = a
      · subst hb
        by_cases hemp : ((index.record b).remove hash s.expiry).byPriority = ∅
        · simpa [hemp] using hdesc.of_empty hemp
        · simpa [hemp] using hdesc
      · rw [if_neg hb, n3]
        apply (h.accounts b).update_of_ne
        · intro s' hs'
          rw [hl] at hs'
          cases hs'
          exact hb rfl
        · simp
    case nonempty =>
      intro b rec hb'
      rw [hacc b] at hb'
      split_ifs at hb' with hb hemp
      · cases hb'
        exact hemp
      · rw [n3] at hb'
        exact h.nonempty b rec hb'

theorem expireAll (h : Tracked exact index live) (hashes : List H) (now : Nat) :
    Tracked exact (index.expireAll hashes now) (without live hashes) := by
  induction hashes generalizing index live
  case nil => rwa [without_nil]
  case cons hash hashes hi =>
    rw [without_cons]
    exact hi (h.makeExpired hash now)

theorem nonempty_insertNew (h : Tracked exact index live) (hash : H) (a : A)
    (s : Statement H T K C) (isRecent) (b : A) (rec : StatementsForAccount H C)
    (hr : (index.insertNew hash a s isRecent).accounts[b]? = some rec) : rec.byPriority ≠ ∅ := by
  simp only [Index.insertNew, lookup_insert] at hr
  split_ifs at hr
  case pos =>
    cases hr
    exact fun he => by
      simpa [StatementsForAccount.insert] using congrArg (·[PriorityKey.mk s.expiry hash]?) he
  case neg => exact h.nonempty b rec hr

theorem insertNew (h : Tracked exact index live) (hl : live hash = none)
    (hf : Free live a s) (isRecent) :
    Tracked exact (index.insertNew hash a s isRecent)
      (Function.update live hash (some (a, s))) := by
  have hentry : index.entries[hash]? = none := by rw [h.entries, hl]; rfl
  constructor
  case entries =>
    intro h'
    by_cases hh : h' = hash
    case pos => simp [Index.insertNew, hh]
    case neg => simp [Index.insertNew, lookup_insert, hh, h.entries]
  case totalSize =>
    simp only [Index.insertNew, sumBy_insert hentry]
    exact h.totalSize.add s.dataLen
  case accounts =>
    intro b
    by_cases hb : b = a
    case pos =>
      subst hb
      simpa [Index.record, Index.insertNew] using (h.accounts b).insert hl hf
    case neg =>
      have hd : Describes exact (Function.update live hash (some (a, s))) b (index.record b) :=
        (h.accounts b).update_of_ne (by simp [hl]) (by simp [Ne.symm hb])
      simpa [Index.record, Index.insertNew, lookup_insert, hb] using hd
  case nonempty => exact h.nonempty_insertNew hash a s isRecent

theorem insertNew_live (h : Tracked exact index live) (hl : live hash = some (a, s))
    (hx : ¬exact) (isRecent) :
    Tracked exact (index.insertNew hash a s isRecent) live := by
  have hsame : index.entries.insert hash (a, s.expiry, s.dataLen) = index.entries := by
    apply insert_of_lookup
    rw [h.entries, hl]
    rfl
  constructor
  case entries =>
    rw [Index.insertNew, hsame]
    exact h.entries
  case totalSize =>
    rw [Index.insertNew, hsame]
    exact ⟨h.totalSize.le.trans (Nat.le_add_right ..), fun he => absurd he hx⟩
  case accounts =>
    intro b
    by_cases hb : b = a
    case pos =>
      subst hb
      simpa [Index.record, Index.insertNew] using (h.accounts b).insert_live hl hx
    case neg => simpa [Index.record, Index.insertNew, lookup_insert, hb] using h.accounts b
  case nonempty => exact h.nonempty_insertNew hash a s isRecent

end Tracked

end Statements
