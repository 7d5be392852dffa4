import RostroModel.Psm.Solvency

namespace Psm

open Assets

variable {AssetId AccountId : Type}

section Worth

variable {l l' : Ledger AssetId AccountId} {p : AssetId → ℚ} {assets : Finset AssetId}
variable {id : AssetId} {who : AccountId} {amount : Nat}

-- What the balances of an account are worth at given prices.
def worth (p : AssetId → ℚ) (assets : Finset AssetId) (l : Ledger AssetId AccountId)
    (who : AccountId) : ℚ :=
  ∑ id ∈ assets, p id * l.balance id who

theorem worth_congr (h : ∀ id, l'.balance id who = l.balance id who) :
    worth p assets l' who = worth p assets l who := by
  apply Finset.sum_congr rfl
  intro id _
  rw [h id]

theorem worth_of_agree [DecidableEq AssetId] (hid : id ∈ assets)
    (h : ∀ id', id' ≠ id → l'.balance id' who = l.balance id' who) :
    worth p assets l' who = worth p assets l who + p id *
      (l'.balance id who - l.balance id who) := by
  have he : ∑ id' ∈ assets.erase id, p id' * l'.balance id' who =
      ∑ id' ∈ assets.erase id, p id' * (l.balance id' who : ℚ) := by
    apply Finset.sum_congr rfl
    intro id' hm
    rw [h id' (Finset.ne_of_mem_erase hm)]
  rw [worth, worth, ← Finset.add_sum_erase _ _ hid, ← Finset.add_sum_erase _ _ hid, he]
  ring

namespace Ledger

open Assets.Ledger

variable [DecidableEq AssetId] {source dest : AccountId}

section

variable (h : Transfers l l' id source dest amount)
include h

theorem worth_sent (hid : id ∈ assets) (hp : 0 ≤ p id) (hne : source ≠ dest) :
    worth p assets l' source + p id * amount ≤ worth p assets l source := by
  have hb : l'.balance id source + amount ≤ l.balance id source := by
    have hle := h.le
    rw [h.debited hne]
    have := leftOver_le (m := l.minimumBalance id) (b := l.balance id source) (a := amount)
    omega
  have hb : (l'.balance id source : ℚ) + amount ≤ l.balance id source := by exact_mod_cast hb
  rw [worth_of_agree hid fun id' hne => h.other id' source fun he => hne he.1]
  nlinarith

theorem worth_received (hid : id ∈ assets) (hp : 0 ≤ p id) :
    worth p assets l' dest ≤ worth p assets l dest + p id * amount := by
  by_cases hne : source = dest
  case pos =>
    rw [h.same hne]
    have := mul_nonneg hp (Nat.cast_nonneg (α := ℚ) amount)
    linarith
  case neg =>
    have hb : (l'.balance id dest : ℚ) ≤ l.balance id dest + amount := by
      exact_mod_cast h.atMost hne
    rw [worth_of_agree hid fun id' hne => h.other id' dest fun he => hne he.1]
    nlinarith

omit [DecidableEq AssetId] in
theorem worth_transfer_ne (h1 : who ≠ source) (h2 : who ≠ dest) :
    worth p assets l' who = worth p assets l who := by
  apply worth_congr
  intro id'
  apply h.other
  rintro ⟨-, h | h⟩
  · exact h1 h
  · exact h2 h

end

theorem worth_issued {balance supply : Nat} (h : Issues l l' id who balance supply)
    (hid : id ∈ assets) :
    worth p assets l' who = worth p assets l who + p id * (balance - l.balance id who) := by
  rw [worth_of_agree hid fun id' hne => h.other id' who fun he => hne he.1, h.balance]

omit [DecidableEq AssetId] in
theorem worth_issued_ne {who' : AccountId} {balance supply : Nat}
    (h : Issues l l' id who balance supply) (hne : who' ≠ who) :
    worth p assets l' who' = worth p assets l who' := by
  apply worth_congr
  intro id'
  exact h.other id' who' fun he => hne he.2

end Ledger
end Worth

-- The internal value of a unit of an asset, from its decimals and those of the internal asset.
def price (int ext : Nat) : ℚ :=
  10 ^ ((int : ℤ) - (ext : ℤ))

theorem price_nonneg {int ext : Nat} : 0 ≤ price int ext := by
  rw [price]
  positivity

@[simp]
theorem price_self {int : Nat} : price int int = 1 := by
  simp [price]

theorem price_of_le {int ext : Nat} (h : ext ≤ int) : price int ext = 10 ^ (int - ext) := by
  rw [price, ← Nat.cast_sub h, zpow_natCast]

theorem price_mul {int ext : Nat} (h : int ≤ ext) : price int ext * 10 ^ (ext - int) = 1 := by
  rw [price, ← zpow_natCast, ← zpow_add₀ (by norm_num), Nat.cast_sub h]
  simp

theorem Par.price {ext int amount value : Nat} (h : Par ext int amount value) :
    Psm.price int ext * amount = value := by
  obtain ⟨h1, h2⟩ := h
  rw [rescale_eq_ok] at h1 h2
  obtain ⟨rfl, rfl⟩ | ⟨hd, -, -, rfl⟩ | ⟨hd, -, -⟩ := h1
  · simp
  · rw [price_of_le hd.le]
    push_cast
    ring
  · have : amount = value * 10 ^ (ext - int) := by omega
    subst this
    push_cast
    rw [mul_left_comm, price_mul hd.le, mul_one]

variable [LinearOrder AssetId] [DecidableEq AccountId]
variable {c : Config AssetId AccountId} {s s' : State AssetId AccountId}
variable {who signer : AccountId} {asset : AssetId} {amount : Nat} {assets : Finset AssetId}

section Value

-- What an account holds of some assets, in internal units.
def State.value (c : Config AssetId AccountId) (s : State AssetId AccountId)
    (assets : Finset AssetId) (who : AccountId) : ℚ :=
  worth (fun id => price (s.ledger.decimals c.internalAsset) (s.ledger.decimals id))
    assets s.ledger who

-- A call that fails changes nothing.
def State.execute (c : Config AssetId AccountId) (s : State AssetId AccountId)
    (call : Call AssetId AccountId) : State AssetId AccountId :=
  (s.dispatch c call).toOption.getD s

def State.executeAll (c : Config AssetId AccountId) (s : State AssetId AccountId)
    (calls : List (Call AssetId AccountId)) : State AssetId AccountId :=
  calls.foldl (State.execute c) s

-- The asset that a call swaps the internal one for or with.
def Call.swapped : Call AssetId AccountId → Option AssetId
  | .mint _ asset _ => some asset
  | .redeem _ asset _ => some asset
  | _ => none

def Call.feeCharged (c : Config AssetId AccountId) (s : State AssetId AccountId) :
    Call AssetId AccountId → Nat
  | .mint who asset amount => ((s.mint c who asset amount).toOption.map (·.2.fee)).getD 0
  | .redeem who asset amount => ((s.redeem c who asset amount).toOption.map (·.2.fee)).getD 0
  | _ => 0

-- The fees that an account is paid by others for a list of calls.
def feeIncome (c : Config AssetId AccountId) (who : AccountId) :
    State AssetId AccountId → List (Call AssetId AccountId) → Nat
  | _, [] => 0
  | s, call :: calls =>
    (if who = c.feeDestination ∧ call.signer ≠ some who then call.feeCharged c s else 0) +
      feeIncome c who (s.execute c call) calls

theorem feeIncome_of_ne (h : who ≠ c.feeDestination) (calls : List (Call AssetId AccountId)) :
    feeIncome c who s calls = 0 := by
  induction calls generalizing s
  case nil => rfl
  case cons call calls hi => rw [feeIncome, if_neg fun he => h he.1, hi]

section Mint

variable {a : MintAmounts} {ext int : Nat} {l₁ l₂ l₃ : Ledger AssetId AccountId}

namespace State.Mints

omit [DecidableEq AccountId] in
theorem decimals (h : Mints c s s' signer asset amount a ext int l₁ l₂ l₃) :
    s'.ledger.decimals = s.ledger.decimals := by
  rw [h.state]
  exact h.charged.decimals.trans (h.received.decimals.trans h.paid.decimals)

omit [DecidableEq AccountId] in
theorem value_eq (h : Mints c s s' signer asset amount a ext int l₁ l₂ l₃) : s'.value c assets who =
      worth (fun id => price int (s.ledger.decimals id)) assets l₃ who := by
  rw [State.value, h.decimals, h.swappable.liveInternal, h.state]

theorem value_le (h : Mints c s s' who asset amount a ext int l₁ l₂ l₃) (hw : who ≠ c.psmAccount)
    (hi : c.internalAsset ∈ assets) (ha : asset ∈ assets) :
    s'.value c assets who ≤ s.value c assets who := by
  rw [h.value_eq, State.value, h.swappable.liveInternal]
  set p := fun id => price int (s.ledger.decimals id) with hp
  have hpi : p c.internalAsset = 1 := by simp [hp, h.swappable.liveInternal]
  have hpa : p asset * a.effectiveExternal = a.internalEquivalent := by
    simpa [hp, h.swappable.liveExternal] using h.exact.par.price
  have hsplit : (a.internalToUser : ℚ) + a.fee = a.internalEquivalent := by
    exact_mod_cast h.exact.split
  have h1 := Ledger.worth_sent (p := p) h.paid ha price_nonneg hw
  have h2 := Ledger.worth_issued (p := p) h.received hi
  have h3 : worth p assets l₃ who ≤ worth p assets l₂ who + a.fee := by
    by_cases hf : who = c.feeDestination
    case pos =>
      subst hf
      rw [Ledger.worth_issued h.charged hi, hpi]
      push_cast
      linarith
    case neg =>
      rw [Ledger.worth_issued_ne h.charged hf]
      linarith
  rw [hpi] at h2
  push_cast at h2
  linarith

theorem value_other (h : Mints c s s' signer asset amount a ext int l₁ l₂ l₃)
    (hw : who ≠ c.psmAccount) (hs : who ≠ signer) (hi : c.internalAsset ∈ assets) :
    s'.value c assets who = s.value c assets who + if who =
      c.feeDestination then (a.fee : ℚ) else 0 := by
  rw [h.value_eq, State.value, h.swappable.liveInternal, ← Ledger.worth_transfer_ne h.paid hs hw,
    ← Ledger.worth_issued_ne h.received hs]
  split_ifs with hf
  · subst hf
    rw [Ledger.worth_issued h.charged hi, h.swappable.liveInternal]
    simp
  · rw [Ledger.worth_issued_ne h.charged hf, add_zero]

end State.Mints
end Mint

section Redeem

variable {a : RedeemAmounts} {ext int : Nat} {l₁ l₂ l₃ : Ledger AssetId AccountId}

namespace State.Redeems

omit [DecidableEq AccountId] in
theorem decimals (h : Redeems c s s' signer asset amount a ext int l₁ l₂ l₃) :
    s'.ledger.decimals = s.ledger.decimals := by
  rw [h.state]
  exact h.received.decimals.trans (h.burned.issues.decimals.trans h.charged.decimals)

omit [DecidableEq AccountId] in
theorem value_eq (h : Redeems c s s' signer asset amount a ext int l₁ l₂ l₃) :
    s'.value c assets who =
      worth (fun id => price int (s.ledger.decimals id)) assets l₃ who := by
  rw [State.value, h.decimals, h.swappable.liveInternal, h.state]

-- What is paid out is worth what is burned.
theorem value_le (h : Redeems c s s' who asset amount a ext int l₁ l₂ l₃)
    (hi : c.internalAsset ∈ assets) (ha : asset ∈ assets) :
    s'.value c assets who ≤ s.value c assets who := by
  rw [h.value_eq, State.value, h.swappable.liveInternal]
  set p := fun id => price int (s.ledger.decimals id) with hp
  have hpi : p c.internalAsset = 1 := by simp [hp, h.swappable.liveInternal]
  have hpa : p asset * a.externalOut = a.effectiveInternalNet := by
    simpa [hp, h.swappable.liveExternal] using h.exact.par.symm.price
  have h1 : worth p assets l₁ who ≤ worth p assets s.ledger who := by
    by_cases hf : who = c.feeDestination
    case pos => rw [h.charged.same hf]
    case neg =>
      have h1 := Ledger.worth_sent (p := p) h.charged hi price_nonneg hf
      have := mul_nonneg (price_nonneg : 0 ≤ p c.internalAsset) (Nat.cast_nonneg (α := ℚ) a.fee)
      linarith
  have h2 : worth p assets l₂ who + a.effectiveInternalNet ≤ worth p assets l₁ who := by
    have hle := h.burned.le
    have hb : l₂.balance c.internalAsset who + a.effectiveInternalNet ≤
        l₁.balance c.internalAsset who := by
      rw [h.burned.issues.balance]
      have := Assets.Ledger.leftOver_le (m := l₁.minimumBalance c.internalAsset)
        (b := l₁.balance c.internalAsset who) (a := a.effectiveInternalNet)
      omega
    have hb : (l₂.balance c.internalAsset who : ℚ) + a.effectiveInternalNet ≤
        l₁.balance c.internalAsset who := by exact_mod_cast hb
    rw [worth_of_agree hi fun id hne => h.burned.issues.other id who fun he => hne he.1, hpi]
    linarith
  have h3 := Ledger.worth_received (p := p) h.received ha price_nonneg
  linarith

theorem value_other (h : Redeems c s s' signer asset amount a ext int l₁ l₂ l₃)
    (hw : who ≠ c.psmAccount) (hs : who ≠ signer) (hi : c.internalAsset ∈ assets) :
    s'.value c assets who ≤ s.value c assets who + if who =
      c.feeDestination then (a.fee : ℚ) else 0 := by
  rw [h.value_eq, State.value, h.swappable.liveInternal, Ledger.worth_transfer_ne h.received hw hs,
    Ledger.worth_issued_ne h.burned.issues hs]
  split_ifs with hf
  · subst hf
    have h1 := Ledger.worth_received (p := fun id => price int (s.ledger.decimals id)) h.charged hi
    simpa [h.swappable.liveInternal] using h1
  · rw [Ledger.worth_transfer_ne h.charged hs hf, add_zero]

end State.Redeems
end Redeem

theorem State.execute_of_ok (h : s.dispatch c call = .ok s') : s.execute c call = s' := by
  rw [execute, h]
  rfl

theorem State.execute_of_error (h : s.dispatch c call = .error e) : s.execute c call = s := by
  rw [execute, h]
  rfl

theorem State.ledger_dispatch {call : Call AssetId AccountId} (hc : call.swapped = none)
    (h : s.dispatch c call = .ok s') : s'.ledger = s.ledger := by
  cases call <;> simp only [dispatch] at h
  case mint | redeem => cases hc
  case setMintingFee | setRedemptionFee | setAssetCeilingWeight | setAssetStatus =>
    obtain ⟨-, rfl⟩ := setForAsset_eq_ok h
    rfl
  all_goals
    simp only [setMaxPsmDebt, addExternalAsset, removeExternalAsset, Except.bind_eq_ok] at h
  case setMaxPsmDebt =>
    obtain ⟨-, -, h⟩ := h
    cases h
    rfl
  case addExternalAsset =>
    obtain ⟨-, -, -, -, -, -, -, -, -, -, -, -, -, -, h⟩ := h
    cases h
    rfl
  case removeExternalAsset =>
    obtain ⟨-, -, -, -, -, -, h⟩ := h
    cases h
    rfl

variable (hv : s.ledger.Valid) (hw : who ≠ c.psmAccount) (hi : c.internalAsset ∈ assets)
include hv hw hi

-- A call keeps balances valid, and gives an account nothing but the fees that others pay.
theorem State.value_execute {call : Call AssetId AccountId}
    (ha : ∀ asset ∈ call.swapped, asset ∈ assets) :
    (s.execute c call).ledger.Valid ∧
    (s.execute c call).value c assets who ≤ s.value c assets who +
      ((if who = c.feeDestination ∧ call.signer ≠ some who then call.feeCharged c s else 0 :
        Nat) : ℚ) := by
  cases hd : s.dispatch c call
  case error e =>
    rw [execute_of_error hd]
    exact ⟨hv, le_add_of_nonneg_right (Nat.cast_nonneg _)⟩
  case ok s' =>
    rw [execute_of_ok hd]
    cases call
    case mint signer asset amount =>
      obtain ⟨⟨s', a⟩, hm, rfl⟩ := Except.map_eq_ok.mp hd
      have hfee : (Call.mint signer asset amount).feeCharged c s = a.fee := by
        rw [Call.feeCharged, hm]
        rfl
      obtain ⟨ext, int, l₁, l₂, l₃, hm⟩ := mint_eq_ok hm hv
      refine ⟨hm.valid, ?_⟩
      by_cases hs : who = signer
      case pos =>
        subst hs
        exact (hm.value_le hw hi (ha asset rfl)).trans (le_add_of_nonneg_right (Nat.cast_nonneg _))
      case neg =>
        rw [hm.value_other hw hs hi, hfee]
        simp [Call.signer, Ne.symm hs]
    case redeem signer asset amount =>
      obtain ⟨⟨s', a⟩, hm, rfl⟩ := Except.map_eq_ok.mp hd
      have hfee : (Call.redeem signer asset amount).feeCharged c s = a.fee := by
        rw [Call.feeCharged, hm]
        rfl
      obtain ⟨ext, int, l₁, l₂, l₃, hm⟩ := redeem_eq_ok hm hv
      refine ⟨hm.valid, ?_⟩
      by_cases hs : who = signer
      case pos =>
        subst hs
        exact (hm.value_le hi (ha asset rfl)).trans (le_add_of_nonneg_right (Nat.cast_nonneg _))
      case neg =>
        rw [hfee]
        simpa [Call.signer, Ne.symm hs] using hm.value_other hw hs hi
    all_goals
      rw [State.value, ledger_dispatch rfl hd]
      exact ⟨hv, le_add_of_nonneg_right (Nat.cast_nonneg _)⟩

theorem State.value_executeAll (ha : ∀ call ∈ calls, ∀ asset ∈ call.swapped, asset ∈ assets) :
    (s.executeAll c calls).value c assets who ≤ s.value c assets who + feeIncome c who s calls := by
  induction calls generalizing s
  case nil => simp [executeAll]
  case cons call calls hcalls =>
    obtain ⟨hv', h⟩ := value_execute hv hw hi (ha call List.mem_cons_self)
    have hrest := hcalls hv' fun call' hm => ha call' (List.mem_cons_of_mem _ hm)
    change ((s.execute c call).executeAll c calls).value c assets who ≤ _
    rw [feeIncome]
    push_cast at h ⊢
    linarith

end Value

section Splitting

-- Swaps of one account for one asset, one after the other, with their amounts.
def State.mintAll (c : Config AssetId AccountId) (who : AccountId) (asset : AssetId) :
    State AssetId AccountId → List Nat → Except Error (State AssetId AccountId × List MintAmounts)
  | s, [] => .ok (s, [])
  | s, amount :: amounts => do
    let (s, a) ← s.mint c who asset amount
    let (s, as) ← mintAll c who asset s amounts
    return (s, a :: as)

def State.redeemAll (c : Config AssetId AccountId) (who : AccountId) (asset : AssetId) :
    State AssetId AccountId → List Nat → Except Error (State AssetId AccountId × List RedeemAmounts)
  | s, [] => .ok (s, [])
  | s, amount :: amounts => do
    let (s, a) ← s.redeem c who asset amount
    let (s, as) ← redeemAll c who asset s amounts
    return (s, a :: as)

-- The conversion when nothing overflows.
def converted (d d' amount : Nat) : Nat :=
  if d = d' then amount
  else if d < d' then amount * 10 ^ (d' - d)
  else amount / 10 ^ (d - d')

theorem converted_of_ok (h : rescale amount d d' = .ok value) : value = converted d d' amount := by
  rw [rescale_eq_ok] at h
  rw [converted]
  split_ifs <;> omega

-- What is left of an amount after a fee.
def Permill.net (fee : Permill) (amount : Nat) : Nat :=
  amount - fee.mulCeil amount

def Superadditive (f : Nat → Nat) : Prop :=
  ∀ x y, f x + f y ≤ f (x + y)

theorem Superadditive.mono {f : Nat → Nat} (h : Superadditive f) (hle : x ≤ y) : f x ≤ f y := by
  obtain ⟨z, rfl⟩ := Nat.exists_eq_add_of_le hle
  exact (Nat.le_add_right _ _).trans (h x z)

theorem Superadditive.comp {f g : Nat → Nat} (hf : Superadditive f) (hg : Superadditive g) :
    Superadditive (f ∘ g) :=
  fun x y => (hf _ _).trans (hf.mono (hg x y))

theorem Superadditive.sum_le {f : Nat → Nat} (h : Superadditive f) (xs : List Nat) :
    (xs.map f).sum ≤ f xs.sum := by
  induction xs
  case nil => exact Nat.zero_le _
  case cons x xs hi =>
    exact (Nat.add_le_add_left hi _).trans (h x xs.sum)

theorem converted_superadditive (d d' : Nat) : Superadditive (converted d d') := by
  intro x y
  rw [converted, converted, converted]
  split_ifs
  · rfl
  · rw [Nat.add_mul]
  · exact Nat.div_add_div_le_add_div

theorem Permill.net_superadditive (fee : Permill) : Superadditive fee.net :=
  fun _ _ => PerThing.sub_mulCeil_add_le fee.le (by decide)

variable {ext int : Nat}

theorem MintAmounts.Exact.received {a : MintAmounts} {fee : Permill}
    (h : a.Exact fee ext int amount) : a.internalToUser = fee.net (converted ext int amount) := by
  have hs := h.split
  rw [Permill.net, ← converted_of_ok h.value, ← h.fee]
  omega

theorem RedeemAmounts.Exact.received {a : RedeemAmounts} {fee : Permill}
    (h : a.Exact fee ext int amount) : a.externalOut = converted int ext (fee.net amount) := by
  rw [Permill.net, ← h.fee, ← h.net]
  exact converted_of_ok h.value

-- A swap leaves the decimals and fees as they are, so that each one yields
-- what it would at the start.
theorem State.mintAll_received (h : State.mintAll c who asset s amounts = .ok (s', as))
    (hv : s.ledger.Valid) (he : s.externalDecimals[asset]? = some ext)
    (hi : s.internalDecimals = some int) :
    as.map (·.internalToUser) = amounts.map ((s.mintingFeeOf asset).net ∘ converted ext int) := by
  induction amounts generalizing s as
  case nil =>
    cases h
    rfl
  case cons amount amounts hrest =>
    simp only [mintAll, Except.bind_eq_ok] at h
    obtain ⟨⟨s1, a⟩, h1, ⟨s2, as'⟩, h2, h⟩ := h
    cases h
    obtain ⟨ext', int', l₁, l₂, l₃, hm⟩ := mint_eq_ok h1 hv
    cases he.symm.trans hm.swappable.external
    cases hi.symm.trans hm.swappable.internal
    have hd := hrest h2 hm.valid (by rw [hm.state, he]) (by rw [hm.state, hi])
    have hfee : s1.mintingFeeOf asset = s.mintingFeeOf asset := by
      rw [hm.state, mintingFeeOf, mintingFeeOf]
    rw [List.map_cons, hd, hfee, hm.exact.received]
    rfl

theorem State.redeemAll_received
    (h : State.redeemAll c who asset s amounts = .ok (s', as)) (hv : s.ledger.Valid)
    (he : s.externalDecimals[asset]? = some ext) (hi : s.internalDecimals = some int) :
    as.map (·.externalOut) = amounts.map (converted int ext ∘ (s.redemptionFeeOf asset).net) := by
  induction amounts generalizing s as
  case nil =>
    cases h
    rfl
  case cons amount amounts hrest =>
    simp only [redeemAll, Except.bind_eq_ok] at h
    obtain ⟨⟨s1, a⟩, h1, ⟨s2, as'⟩, h2, h⟩ := h
    cases h
    obtain ⟨ext', int', l₁, l₂, l₃, hm⟩ := redeem_eq_ok h1 hv
    cases he.symm.trans hm.swappable.external
    cases hi.symm.trans hm.swappable.internal
    have hd := hrest h2 hm.valid (by rw [hm.state, he]) (by rw [hm.state, hi])
    have hfee : s1.redemptionFeeOf asset = s.redemptionFeeOf asset := by
      rw [hm.state, redemptionFeeOf, redemptionFeeOf]
    rw [List.map_cons, hd, hfee, hm.exact.received]
    rfl

end Splitting

theorem psm_no_free_value (hv : s.ledger.Valid) (hw : who ≠ c.psmAccount) :
    (∀ assets calls, c.internalAsset ∈ assets →
      (∀ call ∈ calls, ∀ asset ∈ call.swapped, asset ∈ assets) →
      (s.executeAll c calls).value c assets who ≤ s.value c assets who + feeIncome c who s calls ∧
      (who ≠ c.feeDestination → (s.executeAll c calls).value c assets who ≤ s.value c assets who)) ∧
    (∀ asset amounts s₁ as s₂ a, State.mintAll c who asset s amounts = .ok (s₁, as) →
      s.mint c who asset amounts.sum = .ok (s₂, a) →
      (as.map (·.internalToUser)).sum ≤ a.internalToUser) ∧
    (∀ asset amounts s₁ as s₂ a, State.redeemAll c who asset s amounts = .ok (s₁, as) →
      s.redeem c who asset amounts.sum = .ok (s₂, a) →
      (as.map (·.externalOut)).sum ≤ a.externalOut) := by
  refine ⟨?_, ?_, ?_⟩
  · intro assets calls hi ha
    have h := State.value_executeAll hv hw hi ha
    refine ⟨h, fun hf => ?_⟩
    simpa [feeIncome_of_ne hf] using h
  · intro asset amounts s₁ as s₂ a hs h
    obtain ⟨ext, int, l₁, l₂, l₃, hm⟩ := State.mint_eq_ok h hv
    rw [State.mintAll_received hs hv hm.swappable.external hm.swappable.internal, hm.exact.received]
    exact ((Permill.net_superadditive _).comp (converted_superadditive _ _)).sum_le amounts
  · intro asset amounts s₁ as s₂ a hs h
    obtain ⟨ext, int, l₁, l₂, l₃, hm⟩ := State.redeem_eq_ok h hv
    rw [State.redeemAll_received hs hv hm.swappable.external hm.swappable.internal,
      hm.exact.received]
    exact ((converted_superadditive _ _).comp (Permill.net_superadditive _)).sum_le amounts

section Samples

def sampleCalls : List (Call Nat Nat) :=
  [.setMintingFee .full 1 ⟨100000, by decide⟩, .mint 2 1 100, .redeem 2 1 50]

theorem psm_no_free_value_of_swaps :
    (sampleGenesis.executeAll sampleConfig sampleCalls).value sampleConfig {0, 1} 2 ≤
      sampleGenesis.value sampleConfig {0, 1} 2 := by
  have hv : sampleGenesis.ledger.Valid := sampleLedger_valid
  have h := psm_no_free_value (c := sampleConfig) hv (show 2 ≠ sampleConfig.psmAccount by decide)
  refine (h.1 {0, 1} sampleCalls (by decide) ?_).2 (by decide)
  simp [sampleCalls, Call.swapped]

theorem value_of_decimals {s : State Nat Nat} {who : Nat} (h : s.ledger.decimals = fun _ => 6) :
    s.value sampleConfig {0, 1} who = s.ledger.balance 0 who + s.ledger.balance 1 who := by
  simp [State.value, worth, h]

-- The account that fees go to has nothing at the start, and the fee of the
-- account that mints in the end.
theorem feeDestination_gains :
    sampleGenesis.ledger.Valid ∧ 1 ≠ sampleConfig.psmAccount ∧
    sampleGenesis.value sampleConfig {0, 1} 1 = 0 ∧
    (sampleGenesis.executeAll sampleConfig sampleCalls).value sampleConfig {0, 1} 1 = 10 := by
  refine ⟨sampleLedger_valid, by decide, ?_, ?_⟩
  · have h₀ : sampleGenesis.ledger.balance 0 1 = 0 := rfl
    have h₁ : sampleGenesis.ledger.balance 1 1 = 0 := rfl
    rw [value_of_decimals rfl, h₀, h₁]
    norm_num
  · have h₀ : (sampleGenesis.executeAll sampleConfig sampleCalls).ledger.balance 0 1 = 10 := rfl
    have h₁ : (sampleGenesis.executeAll sampleConfig sampleCalls).ledger.balance 1 1 = 0 := rfl
    rw [value_of_decimals rfl, h₀, h₁]
    norm_num

end Samples
end Psm
