import RostroModel.Assets.Ledger

namespace Assets.Ledger

open WithdrawConsequence (intoResult)
open Except (bind_eq_ok ensure ensure_eq_ok okOr_eq_ok toOption)

variable {AssetId AccountId : Type} {l l' : Ledger AssetId AccountId} {id id' : AssetId}
variable {who who' : AccountId} {amount actual : Nat}

-- All balances are balances of the source's type.
def Valid (l : Ledger AssetId AccountId) : Prop :=
  ∀ id who, l.balance id who ≤ maxBalance

-- What is left of a balance when an amount is taken: nothing, if it would be less than the minimum.
def leftOver (minBalance balance amount : Nat) : Nat :=
  if amount = 0 then balance
  else if balance - amount < minBalance then 0
  else balance - amount

theorem leftOver_le : leftOver m b a ≤ b - a := by
  rw [leftOver]
  split_ifs <;> omega

theorem balance_eq (h : l.accounts id who = some account) : l.balance id who = account.balance := by
  rw [balance, h]
  rfl

theorem balance_eq_zero (h : l.accounts id who = none) : l.balance id who = 0 := by
  rw [balance, h]
  rfl

-- A withdrawal that is possible is from an account that has the amount, and reports what is lost if
-- less than the minimum would be left.
theorem canDecrease_eq_ok (h : (l.canDecrease id who amount).intoResult = .ok dust) :
    ∃ details, l.assets id = some details ∧ details.status = .live ∧ amount ≤ details.supply ∧
      amount ≤ l.balance id who ∧
      (amount ≠ 0 →
        dust = if l.balance id who - amount <
          details.minBalance then l.balance id who - amount else 0) := by
  rw [canDecrease] at h
  cases ha : l.assets id
  case none => simp [ha, intoResult] at h
  case some details =>
    simp only [ha] at h
    have hl (h2 : details.status ≠ .frozen) (h3 : details.status ≠ .destroying) :
        details.status = .live := by
      cases hs : details.status <;> simp_all
    split_ifs at h with h1 h2 h3 h4
    case pos => simp [intoResult] at h
    case pos => simp [intoResult] at h
    case pos => simp [intoResult] at h
    case pos => exact ⟨details, rfl, hl h2 h3, by omega, by omega, fun h => absurd h4 h⟩
    case neg =>
      cases hb : l.accounts id who
      case none => simp [hb, intoResult] at h
      case some account =>
        rw [balance_eq hb]
        simp only [hb] at h
        split_ifs at h with h5 h6 h7
        case pos => simp [intoResult] at h
        case pos => simp [intoResult] at h
        all_goals
          cases h
          exact ⟨details, rfl, hl h2 h3, by omega, by omega, fun _ => by simp [h7]⟩

theorem reducibleBalance_eq_ok (h : l.reducibleBalance id who = .ok n) :
    ∃ details account, l.assets id = some details ∧ details.status = .live ∧
      l.accounts id who = some account ∧ n = min account.balance details.supply := by
  simp only [reducibleBalance, bind_eq_ok, okOr_eq_ok, ensure_eq_ok] at h
  obtain ⟨details, hd, -, hs, account, ha, -, -, h⟩ := h
  cases h
  exact ⟨details, account, hd, hs, ha, rfl⟩

theorem canIncrease_eq_ok (h : (l.canIncrease id who amount increaseSupply).intoResult = .ok u) :
    l.balance id who + amount ≤ maxBalance ∨ l.accounts id who = none := by
  cases hb : l.accounts id who
  case none => exact .inr rfl
  case some account =>
    rw [balance_eq hb]
    simp only [canIncrease, hb] at h
    cases ha : l.assets id
    case none => simp [ha, DepositConsequence.intoResult] at h
    case some details =>
      simp only [ha] at h
      split_ifs at h
      all_goals first
        | omega
        | simp [DepositConsequence.intoResult] at h

theorem canIncrease_of_le (h : l.totalIssuance id + amount ≤ maxBalance) :
    l.canIncrease id who amount true = l.canIncrease id who amount false := by
  rw [canIncrease, canIncrease]
  cases ha : l.assets id
  case none => rfl
  case some details =>
    have hs : l.totalIssuance id = details.supply := by rw [totalIssuance, ha]; rfl
    have hn : ¬maxBalance < details.supply + amount := by omega
    simp [hn]

theorem canIncrease_congr (ha : l'.assets = l.assets)
    (hb : l'.accounts id who = l.accounts id who)
    (hc : l'.canAccrueConsumers = l.canAccrueConsumers) :
    l'.canIncrease id who amount increaseSupply = l.canIncrease id who amount increaseSupply := by
  rw [canIncrease, canIncrease, ha, hb, hc]

theorem canIncrease_below_minimum
    (h : (l.canIncrease id who amount increaseSupply).intoResult = .ok u)
    (ha : l.assets id = some details) (hb : l.accounts id who = none) :
    details.minBalance ≤ amount := by
  rw [canIncrease] at h
  simp only [ha, hb] at h
  split_ifs at h
  all_goals first
    | omega
    | simp [DepositConsequence.intoResult] at h

section TotalIssuance

variable [DecidableEq AssetId]

@[simp]
theorem minimumBalance_setTotalIssuance :
    (l.setTotalIssuance id amount).minimumBalance id' = l.minimumBalance id' := by
  simp only [minimumBalance, setTotalIssuance, Function.update_apply]
  split_ifs with h
  · subst h
    cases l.assets id' <;> rfl
  · rfl

theorem totalIssuance_setTotalIssuance_ne (h : id' ≠ id) :
    (l.setTotalIssuance id amount).totalIssuance id' = l.totalIssuance id' := by
  simp [totalIssuance, setTotalIssuance, h]

theorem totalIssuance_setTotalIssuance (h : l.assets id = some details) :
    (l.setTotalIssuance id amount).totalIssuance id = amount := by
  simp [totalIssuance, setTotalIssuance, h]

end TotalIssuance

variable [DecidableEq AssetId] [DecidableEq AccountId]

theorem balance_setAccount : (l.setAccount id who account).balance id' who' =
      if id' = id ∧ who' = who then (account.map (·.balance)).getD 0 else l.balance id' who' := by
  simp only [balance, setAccount]
  by_cases h1 : id' = id
  case neg => simp [h1]
  case pos =>
    subst h1
    by_cases h2 : who' = who <;> simp [h2]

-- The account of `who` has another balance, and nothing else has changed.
structure Sets (l l' : Ledger AssetId AccountId) (id : AssetId) (who : AccountId) (balance : Nat) :
    Prop where
  assets : l'.assets = l.assets
  decimals : l'.decimals = l.decimals
  accrue : l'.canAccrueConsumers = l.canAccrueConsumers
  balance : l'.balance id who = balance
  other : ∀ id' who', ¬(id' = id ∧ who' = who) → l'.balance id' who' = l.balance id' who'
  accounts : ∀ who', who' ≠ who → l'.accounts id who' = l.accounts id who'

theorem sets_setAccount (account : Option AssetAccount) :
    Sets l (l.setAccount id who account) id who ((account.map (·.balance)).getD 0) where
  assets := rfl
  decimals := rfl
  accrue := rfl
  balance := by simp [balance_setAccount]
  other id' who' h := by rw [balance_setAccount, if_neg h]
  accounts who' h := by simp [setAccount, h]

theorem Sets.valid (h : Sets l l' id who b) (hv : l.Valid) (hb : b ≤ maxBalance) : l'.Valid := by
  intro id' who'
  by_cases he : id' = id ∧ who' = who
  case pos => rw [he.1, he.2, h.balance]; exact hb
  case neg => rw [h.other id' who' he]; exact hv id' who'

-- An account that has the amount is left with the rest, or with nothing.
theorem decreaseBalance_eq_ok (h : l.decreaseBalance id who amount = .ok (l', actual))
    (hv : l.Valid) (hs : amount ≤ l.totalIssuance id) (hb : amount ≤ l.balance id who) :
    Sets l l' id who (leftOver (l.minimumBalance id) (l.balance id who) amount) ∧
      actual = l.balance id who - leftOver (l.minimumBalance id) (l.balance id who) amount ∧
      (amount ≠ 0 → ∃ details, l.assets id = some details ∧ details.status = .live) := by
  rw [decreaseBalance] at h
  split_ifs at h with h0
  · cases h
    simp only [leftOver, h0, if_true]
    exact ⟨⟨rfl, rfl, rfl, rfl, fun _ _ _ => rfl, fun _ _ => rfl⟩, by omega, by simp⟩
  · simp only [prepDebit, bind_eq_ok, okOr_eq_ok, ensure_eq_ok] at h
    obtain ⟨details, ha, -, hl, debit, ⟨n, hn, dust, hd, hp⟩, account, hc, h⟩ := h
    obtain ⟨details', account', ha', -, hc', rfl⟩ := reducibleBalance_eq_ok hn
    cases ha.symm.trans ha'
    cases hc.symm.trans hc'
    have hbal := balance_eq hc
    have hsup : l.totalIssuance id = details.supply := by rw [totalIssuance, ha]; rfl
    have hmin : l.minimumBalance id = details.minBalance := by rw [minimumBalance, ha]; rfl
    have hm : min (min account.balance details.supply) amount = amount := by omega
    have hx := hv id who
    rw [hm] at hd hp
    obtain ⟨details', ha', -, -, -, hdust⟩ := canDecrease_eq_ok hd
    cases ha.symm.trans ha'
    have hd' : debit = amount + dust := by
      cases hp
      apply Machine.saturatingAdd_of_le
      rw [maxBalance] at hx
      split_ifs at hdust <;> omega
    have hleft : account.balance - debit =
        leftOver (l.minimumBalance id) (l.balance id who) amount := by
      rw [leftOver, if_neg h0, hmin]
      split_ifs at hdust ⊢ <;> omega
    have hmax : leftOver (l.minimumBalance id) (l.balance id who) amount < l.minimumBalance id →
        leftOver (l.minimumBalance id) (l.balance id who) amount = 0 := by
      rw [leftOver, if_neg h0]
      split_ifs <;> omega
    rw [← hmin, hleft] at h
    have hact : debit = l.balance id who - leftOver (l.minimumBalance id)
        (l.balance id who) amount := by
      split_ifs at hdust <;> omega
    split_ifs at h with hz
    all_goals
      cases h
      refine ⟨?_, hact, fun _ => ⟨details, ha, hl⟩⟩
    · have he : Sets l (l.setAccount id who none) id who 0 := sets_setAccount none
      rwa [show leftOver _ _ _ = 0 from hleft ▸ hmax (hleft ▸ hz.1)]
    · exact sets_setAccount (some _)

theorem increaseBalance_eq_ok (h : l.increaseBalance id who amount = .ok l') (hv : l.Valid)
    (hm : amount ≤ maxBalance) :
    Sets l l' id who (l.balance id who + amount) ∧ l.balance id who + amount ≤ maxBalance ∧
      (amount ≠ 0 → ∃ details, l.assets id = some details) := by
  rw [increaseBalance] at h
  split_ifs at h with h0
  · cases h
    subst h0
    exact ⟨⟨rfl, rfl, rfl, rfl, fun _ _ _ => rfl, fun _ _ => rfl⟩, hv id who, by simp⟩
  · simp only [bind_eq_ok, okOr_eq_ok] at h
    obtain ⟨_, hc, details, ha, -, -, h⟩ := h
    have hc := canIncrease_eq_ok hc
    cases hb : l.accounts id who
    case none =>
      simp only [hb, bind_eq_ok] at h
      obtain ⟨-, -, h⟩ := h
      cases h
      rw [balance_eq_zero hb, Nat.zero_add]
      exact ⟨sets_setAccount (some _), hm, fun _ => ⟨details, ha⟩⟩
    case some account =>
      simp only [hb] at h
      cases h
      have hle : account.balance + amount ≤ maxBalance := by
        rw [hb, balance_eq hb] at hc
        simpa using hc
      rw [balance_eq hb]
      refine ⟨?_, hle, fun _ => ⟨details, ha⟩⟩
      have he : Machine.saturatingAdd 128 account.balance amount = account.balance + amount :=
        Machine.saturatingAdd_of_le hle
      rw [he]
      exact sets_setAccount (some _)

theorem increaseBalance_isOk (ha : l.assets id = some details)
    (hl : details.status = .live) (hi : (l.canIncrease id who amount false).intoResult = .ok ())
    (hs : l.totalIssuance id + amount ≤ maxBalance) :
    ∃ l', l.increaseBalance id who amount = .ok l' := by
  rw [increaseBalance]
  split_ifs with h0
  · exact ⟨l, rfl⟩
  · rw [canIncrease_of_le hs, hi, ha]
    cases hb : l.accounts id who
    case some account => exact ⟨_, by simp [Except.okOr, hl]; rfl⟩
    case none =>
      have hmin := canIncrease_below_minimum hi ha hb
      exact ⟨_, by simp [Except.okOr, hl, hmin]; rfl⟩

-- What a transfer does to the balances.
structure Transfers (l l' : Ledger AssetId AccountId) (id : AssetId) (source dest : AccountId)
    (amount : Nat) : Prop where
  valid : l'.Valid
  assets : l'.assets = l.assets
  decimals : l'.decimals = l.decimals
  le : amount ≤ l.balance id source
  other : ∀ id' who, ¬(id' = id ∧ (who = source ∨ who = dest)) →
    l'.balance id' who = l.balance id' who
  same : source = dest → l' = l
  debited : source ≠ dest →
    l'.balance id source = leftOver (l.minimumBalance id) (l.balance id source) amount
  atLeast : source ≠ dest → l.balance id dest ≤ l'.balance id dest
  atMost : source ≠ dest → l'.balance id dest ≤ l.balance id dest + amount
  credited : source ≠ dest → l.totalIssuance id + amount ≤ maxBalance →
    l'.balance id dest = l.balance id dest + amount

theorem transfer_eq_ok (h : l.transfer id source dest amount = .ok l')
    (hv : l.Valid) : Transfers l l' id source dest amount := by
  simp only [transfer, bind_eq_ok] at h
  obtain ⟨dust, hd, _, hi, h⟩ := h
  obtain ⟨details, ha, hl, hs, hb, -⟩ := canDecrease_eq_ok hd
  have hsup : l.totalIssuance id = details.supply := by rw [totalIssuance, ha]; rfl
  split_ifs at h with he
  · cases h
    subst he
    exact ⟨hv, rfl, rfl, hb, fun _ _ _ => rfl, fun _ => rfl, fun h => absurd rfl h,
      fun h => absurd rfl h, fun h => absurd rfl h, fun h => absurd rfl h⟩
  · obtain ⟨⟨l1, debit⟩, h1, h⟩ := bind_eq_ok.mp h
    obtain ⟨hs1, -, hlive⟩ := decreaseBalance_eq_ok h1 hv (by omega) hb
    have hv1 : l1.Valid := hs1.valid hv (leftOver_le.trans ((Nat.sub_le _ _).trans (hv id source)))
    have hd1 : l1.balance id dest = l.balance id dest := hs1.other _ _ fun h => he h.2.symm
    have hm : amount ≤ maxBalance := hb.trans (hv id source)
    cases hinc : l1.increaseBalance id dest amount
    case error e =>
      simp only [hinc] at h
      cases h
      refine ⟨hv1, hs1.assets, hs1.decimals, hb, fun id' who hn => hs1.other _ _ fun h =>
        hn ⟨h.1, .inl h.2⟩, fun h => absurd h he, fun _ => hs1.balance, fun _ => hd1.ge, fun _ =>
          hd1 ▸ Nat.le_add_right _ _,
        fun _ hroom => ?_⟩
      have hi1 : l'.canIncrease id dest amount false = l.canIncrease id dest amount false :=
        canIncrease_congr hs1.assets (hs1.accounts dest (Ne.symm he)) hs1.accrue
      have hroom1 : l'.totalIssuance id + amount ≤ maxBalance := by
        rw [totalIssuance, hs1.assets]
        exact hroom
      obtain ⟨l2, h2⟩ := increaseBalance_isOk (hs1.assets ▸ ha) hl (hi1 ▸ hi) hroom1
      rw [hinc] at h2
      cases h2
    case ok l2 =>
      simp only [hinc] at h
      cases h
      obtain ⟨hs2, hm2, -⟩ := increaseBalance_eq_ok hinc hv1 hm
      have hdst : l'.balance id dest = l.balance id dest + amount := hs2.balance.trans (hd1 ▸ rfl)
      have hsrc : l'.balance id source = l1.balance id source := hs2.other _ _ fun h => he h.2
      constructor
      case valid => exact hs2.valid hv1 hm2
      case assets => exact hs2.assets.trans hs1.assets
      case decimals => exact hs2.decimals.trans hs1.decimals
      case le => exact hb
      case same => exact fun h => absurd h he
      case debited => exact fun _ => hsrc.trans hs1.balance
      case atLeast => exact fun _ => (Nat.le_add_right _ _).trans hdst.ge
      case atMost => exact fun _ => hdst.le
      case credited => exact fun _ _ => hdst
      case other =>
        intro id' who hn
        rw [hs2.other _ _ fun h => hn ⟨h.1, .inr h.2⟩, hs1.other _ _ fun h => hn ⟨h.1, .inl h.2⟩]

omit [DecidableEq AssetId] [DecidableEq AccountId] in
theorem Transfers.refl {source dest : AccountId} (hv : l.Valid) :
    Transfers l l id source dest 0 where
  valid := hv
  assets := rfl
  decimals := rfl
  le := Nat.zero_le _
  other _ _ _ := rfl
  same _ := rfl
  debited _ := rfl
  atLeast _ := le_rfl
  atMost _ := le_rfl
  credited _ _ := rfl

omit [DecidableEq AssetId] [DecidableEq AccountId] in
theorem Transfers.minimum (h : Transfers l l' id source dest amount) :
    l'.minimumBalance id' = l.minimumBalance id' := by
  rw [minimumBalance, minimumBalance, h.assets]

omit [DecidableEq AssetId] [DecidableEq AccountId] in
theorem Transfers.issuance (h : Transfers l l' id source dest amount) :
    l'.totalIssuance id' = l.totalIssuance id' := by
  rw [totalIssuance, totalIssuance, h.assets]

theorem Transfers.mono (h : Transfers l l' id source dest amount)
    (hw : who ≠ source) : l.balance id' who ≤ l'.balance id' who := by
  by_cases he : id' = id ∧ who = dest
  case pos =>
    obtain ⟨rfl, rfl⟩ := he
    exact h.atLeast hw.symm
  case neg =>
    apply (h.other id' who _).ge
    rintro ⟨hid, hs | hd⟩
    · exact hw hs
    · exact he ⟨hid, hd⟩

-- The balance of an account and the supply of its asset change together.
structure Issues (l l' : Ledger AssetId AccountId) (id : AssetId) (who : AccountId)
    (balance supply : Nat) : Prop where
  valid : l'.Valid
  decimals : l'.decimals = l.decimals
  minimum : ∀ id', l'.minimumBalance id' = l.minimumBalance id'
  balance : l'.balance id who = balance
  other : ∀ id' who', ¬(id' = id ∧ who' = who) → l'.balance id' who' = l.balance id' who'
  supply : l'.totalIssuance id = supply
  supplies : ∀ id', id' ≠ id → l'.totalIssuance id' = l.totalIssuance id'

omit [DecidableEq AssetId] [DecidableEq AccountId] in
theorem Issues.refl (hv : l.Valid) : Issues l l id who (l.balance id who) (l.totalIssuance id) where
  valid := hv
  decimals := rfl
  minimum _ := rfl
  balance := rfl
  other _ _ _ := rfl
  supply := rfl
  supplies _ _ := rfl

theorem Issues.mono (h : Issues l l' id who (l.balance id who + amount) n) :
    l.balance id' who' ≤ l'.balance id' who' := by
  by_cases he : id' = id ∧ who' = who
  case pos =>
    obtain ⟨rfl, rfl⟩ := he
    rw [h.balance]
    exact Nat.le_add_right _ _
  case neg => exact (h.other id' who' he).ge

omit [DecidableEq AccountId] in
theorem Sets.issues (h : Sets l l' id who b) (hv : l'.Valid)
    (hn : (∃ details, l.assets id = some details) ∨ n = l.totalIssuance id) :
    Issues l (l'.setTotalIssuance id n) id who b n where
  valid := hv
  decimals := h.decimals
  minimum id' := by rw [minimumBalance_setTotalIssuance, minimumBalance, minimumBalance, h.assets]
  balance := h.balance
  other := h.other
  supplies id' hne := by rw [totalIssuance_setTotalIssuance_ne hne, totalIssuance,
    totalIssuance, h.assets]
  supply := by
    cases ha : l.assets id
    case some details => exact totalIssuance_setTotalIssuance (h.assets ▸ ha)
    case none =>
      obtain ⟨details, hd⟩ | rfl := hn
      · rw [ha] at hd
        cases hd
      · simp [totalIssuance, setTotalIssuance, h.assets, ha]

theorem mintInto_eq_ok (h : l.mintInto id who amount = .ok l') (hv : l.Valid) :
    Issues l l' id who (l.balance id who + amount) (l.totalIssuance id + amount) := by
  simp only [mintInto, bind_eq_ok, ensure_eq_ok] at h
  obtain ⟨_, hm, l1, h1, h⟩ := h
  obtain ⟨hs, hle, hd⟩ := increaseBalance_eq_ok h1 hv (by omega)
  have ht : l1.totalIssuance id = l.totalIssuance id := by
    rw [totalIssuance, totalIssuance, hs.assets]
  have hsat : Machine.saturatingAdd 128 (l1.totalIssuance id) amount =
      l.totalIssuance id + amount := by
    rw [ht]
    exact Machine.saturatingAdd_of_le hm
  rw [hsat] at h
  cases h
  refine hs.issues (hs.valid hv hle) ?_
  by_cases h0 : amount = 0
  case pos => exact .inr (by rw [h0, Nat.add_zero])
  case neg => exact .inl (hd h0)

-- What is not left over is taken from the supply, too.
structure Burns (l l' : Ledger AssetId AccountId) (id : AssetId) (who : AccountId) (amount : Nat) :
    Prop where
  le : amount ≤ l.balance id who
  supply : amount ≤ l.totalIssuance id
  issues : Issues l l' id who (leftOver (l.minimumBalance id) (l.balance id who) amount)
    (l.totalIssuance id -
      (l.balance id who - leftOver (l.minimumBalance id) (l.balance id who) amount))

omit [DecidableEq AssetId] [DecidableEq AccountId] in
theorem Burns.refl (hv : l.Valid) : Burns l l id who 0 where
  le := Nat.zero_le _
  supply := Nat.zero_le _
  issues := by simpa [leftOver] using Issues.refl hv

theorem burnFrom_eq_ok (h : l.burnFrom id who amount = .ok l') (hv : l.Valid) :
    Burns l l' id who amount := by
  simp only [burnFrom, bind_eq_ok, ensure_eq_ok] at h
  obtain ⟨_, hm, _, hs, ⟨l1, actual⟩, h1, h⟩ := h
  rw [hm] at hs h1
  have hb : amount ≤ l.balance id who := by
    cases hr : l.reducibleBalance id who
    case error e =>
      simp [hr, toOption] at hm
      omega
    case ok n =>
      obtain ⟨details, account, -, -, ha, rfl⟩ := reducibleBalance_eq_ok hr
      rw [balance_eq ha]
      simp only [hr, toOption, Option.getD_some] at hm
      omega
  obtain ⟨hset, rfl, hd⟩ := decreaseBalance_eq_ok h1 hv hs hb
  have ht : l1.totalIssuance id = l.totalIssuance id := by
    rw [totalIssuance, totalIssuance, hset.assets]
  cases h
  refine ⟨hb, hs, ?_⟩
  rw [ht]
  refine hset.issues (hset.valid hv (leftOver_le.trans ((Nat.sub_le _ _).trans (hv id who)))) ?_
  by_cases h0 : amount = 0
  case neg =>
    obtain ⟨details, ha, -⟩ := hd h0
    exact .inl ⟨details, ha⟩
  case pos =>
    rw [leftOver, if_pos h0]
    omega

end Assets.Ledger
