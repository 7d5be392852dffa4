import RostroModel.Library.Except
import RostroModel.Library.Machine
import RostroModel.Library.TreeMap

namespace Xcm

open Std (ExtTreeMap ExtTreeSet)

inductive Fungibility (AssetInstance : Type)
  | fungible (amount : Nat)
  | nonFungible (inst : AssetInstance)
  deriving DecidableEq

structure Asset (AssetId AssetInstance : Type) where
  id : AssetId
  fungibility : Fungibility AssetInstance
  deriving DecidableEq

inductive WildFungibility
  | fungible
  | nonFungible
  deriving DecidableEq

inductive WildAsset (AssetId : Type)
  | all
  | allOf (id : AssetId) (fungibility : WildFungibility)
  | allCounted (count : Nat)
  | allOfCounted (id : AssetId) (fungibility : WildFungibility) (count : Nat)
  deriving DecidableEq

variable {AssetId AssetInstance : Type} [LinearOrder AssetId] [LinearOrder AssetInstance]

def Fungibility.isKind : Fungibility AssetInstance → WildFungibility → Bool
  | .fungible _, .fungible => true
  | .nonFungible _, .nonFungible => true
  | _, _ => false

def WildAsset.contains (wild : WildAsset AssetId) (inner : Asset AssetId AssetInstance) : Bool :=
  match wild with
  | .allOfCounted _ _ 0 => false
  | .allCounted 0 => false
  | .allOf id kind => inner.fungibility.isKind kind ∧ inner.id = id
  | .allOfCounted id kind _ => inner.fungibility.isKind kind ∧ inner.id = id
  | .all => true
  | .allCounted _ => true

namespace Asset

-- The order of assets: fungible ones first, then by their ids.
def le (a b : Asset AssetId AssetInstance) : Bool :=
  match a.fungibility, b.fungibility with
  | .fungible _, .nonFungible _ => true
  | .nonFungible _, .fungible _ => false
  | .fungible x, .fungible y => a.id < b.id ∨ a.id = b.id ∧ x ≤ y
  | .nonFungible x, .nonFungible y => a.id < b.id ∨ a.id = b.id ∧ x ≤ y

-- Two fungible assets of the same id become one, and so do two times the same instance.
def merge? (a b : Asset AssetId AssetInstance) : Option (Asset AssetId AssetInstance) :=
  if a.id = b.id then
    match a.fungibility, b.fungibility with
    | .fungible x, .fungible y => some ⟨a.id, .fungible (Machine.saturatingAdd 128 x y)⟩
    | .nonFungible x, .nonFungible y => if x = y then some a else none
    | _, _ => none
  else
    none

end Asset

structure Assets (AssetId AssetInstance : Type) where
  inner : List (Asset AssetId AssetInstance) := []
  deriving DecidableEq

inductive AssetFilter (AssetId AssetInstance : Type)
  | definite (assets : Assets AssetId AssetInstance)
  | wild (wild : WildAsset AssetId)

namespace AssetFilter

def limit : AssetFilter AssetId AssetInstance → Option Nat
  | .wild (.allCounted count) => some count
  | .wild (.allOfCounted _ _ count) => some count
  | _ => none

end AssetFilter

namespace Assets

-- The first asset of the list that takes up the new one.
def absorb (a : Asset AssetId AssetInstance) :
    List (Asset AssetId AssetInstance) → Option (List (Asset AssetId AssetInstance))
  | [] => none
  | x :: l =>
    match x.merge? a with
    | some m => some (m :: l)
    | none => (absorb a l).map (x :: ·)

def push (assets : Assets AssetId AssetInstance) (a : Asset AssetId AssetInstance) :
    Assets AssetId AssetInstance :=
  match absorb a assets.inner with
  | some inner => ⟨inner⟩
  | none => ⟨(assets.inner ++ [a]).mergeSort Asset.le⟩

def mergeLoop : Asset AssetId AssetInstance → List (Asset AssetId AssetInstance) →
    List (Asset AssetId AssetInstance)
  | a, [] => [a]
  | a, b :: l =>
    match a.merge? b with
    | some m => mergeLoop m l
    | none => a :: mergeLoop b l

def ofList (l : List (Asset AssetId AssetInstance)) : Assets AssetId AssetInstance :=
  match l.mergeSort Asset.le with
  | [] => {}
  | a :: l => ⟨mergeLoop a l⟩

end Assets

inductive TakeError (AssetId AssetInstance : Type)
  | assetUnderflow (asset : Asset AssetId AssetInstance)

structure AssetsInHolding (AssetId AssetInstance : Type) [LinearOrder AssetId]
    [LinearOrder AssetInstance] where
  fungible : ExtTreeMap AssetId Nat := ∅
  nonFungible : ExtTreeSet (AssetId ×ₗ AssetInstance) := ∅

namespace AssetsInHolding

abbrev fungibleAsset (e : AssetId × Nat) : Asset AssetId AssetInstance :=
  ⟨e.1, .fungible e.2⟩

abbrev nonFungibleAsset (e : AssetId ×ₗ AssetInstance) : Asset AssetId AssetInstance :=
  ⟨(ofLex e).1, .nonFungible (ofLex e).2⟩

variable (self : AssetsInHolding AssetId AssetInstance)

def len : Nat :=
  self.fungible.size + self.nonFungible.size

def fungibleAssetsIter : List (Asset AssetId AssetInstance) :=
  self.fungible.toList.map fungibleAsset

def nonFungibleAssetsIter : List (Asset AssetId AssetInstance) :=
  self.nonFungible.toList.map nonFungibleAsset

def assetsIter : List (Asset AssetId AssetInstance) :=
  self.fungibleAssetsIter ++ self.nonFungibleAssetsIter

def reanchored (reanchor : AssetId → Option AssetId) : List (Asset AssetId AssetInstance) :=
  (self.fungible.toList.filterMap fun e => (reanchor e.1).map fun id => fungibleAsset (id, e.2)) ++
    self.nonFungible.toList.filterMap fun e =>
      (reanchor (ofLex e).1).map fun id => nonFungibleAsset (toLex (id, (ofLex e).2))

def insertFungible (e : AssetId × Nat) : AssetsInHolding AssetId AssetInstance :=
  { self with fungible := self.fungible.insert e.1 e.2 }

def insertNonFungible (e : AssetId ×ₗ AssetInstance) : AssetsInHolding AssetId AssetInstance :=
  { self with nonFungible := self.nonFungible.insert e }

-- A credit is added to what is held of the same asset.
def subsumeFungible (e : AssetId × Nat) : AssetsInHolding AssetId AssetInstance :=
  self.insertFungible (e.1, self.fungible[e.1]?.elim e.2 (Machine.saturatingAdd 128 · e.2))

def subsumeAssets (assets : AssetsInHolding AssetId AssetInstance) :
    AssetsInHolding AssetId AssetInstance :=
  let self := assets.fungible.toList.foldl subsumeFungible self
  assets.nonFungible.toList.foldl insertNonFungible self

-- What could not be reanchored goes into the failed bin. There it takes the place of
-- what is held of the same asset.
def reanchorAndBurnLocal (reanchor : AssetId → Option AssetId)
    (failedBin : AssetsInHolding AssetId AssetInstance) :
    Assets AssetId AssetInstance × AssetsInHolding AssetId AssetInstance :=
  let fungible := self.fungible.toList.filterMap fun e => (reanchor e.1).map fun id =>
    fungibleAsset (id, e.2)
  let nonFungible := self.nonFungible.toList.filterMap fun e =>
    (reanchor (ofLex e).1).map fun id => nonFungibleAsset (toLex (id, (ofLex e).2))
  let failedBin := (self.fungible.toList.filter fun e =>
    (reanchor e.1).isNone).foldl insertFungible failedBin
  let failedBin := (self.nonFungible.toList.filter fun e => (reanchor (ofLex e).1).isNone).foldl
    insertNonFungible failedBin
  (.ofList ((fungible ++ nonFungible).mergeSort Asset.le), failedBin)

def containsAsset (asset : Asset AssetId AssetInstance) : Bool :=
  match asset.fungibility with
  | .fungible amount => self.fungible[asset.id]?.any (· ≥ amount)
  | .nonFungible inst => self.nonFungible.contains (toLex (asset.id, inst))

def containsAssets (assets : Assets AssetId AssetInstance) : Bool :=
  assets.inner.all self.containsAsset

def ensureAsset (asset : Asset AssetId AssetInstance) :
    Except (TakeError AssetId AssetInstance) Unit :=
  match asset.fungibility with
  | .fungible amount =>
    if self.fungible[asset.id]?.all (· < amount) then .error (.assetUnderflow asset) else .ok ()
  | .nonFungible inst =>
    if !self.nonFungible.contains (toLex (asset.id, inst)) then .error (.assetUnderflow asset)
    else .ok ()

-- Fails at the first asset that is not there, or not enough of it.
def ensureContains (assets : Assets AssetId AssetInstance) :
    Except (TakeError AssetId AssetInstance) Unit :=
  forM assets.inner self.ensureAsset

-- What has been taken, and what is left.
abbrev Split (AssetId AssetInstance : Type) [LinearOrder AssetId] [LinearOrder AssetInstance] :=
  AssetsInHolding AssetId AssetInstance × AssetsInHolding AssetId AssetInstance

def Split.fungible (take : Bool) (s : Split AssetId AssetInstance) (e : AssetId × Nat) :
    Split AssetId AssetInstance :=
  if take then (s.1.insertFungible e, s.2) else (s.1, s.2.insertFungible e)

def Split.nonFungible (take : Bool) (s : Split AssetId AssetInstance)
    (e : AssetId ×ₗ AssetInstance) :
    Split AssetId AssetInstance :=
  if take then (s.1.insertNonFungible e, s.2) else (s.1, s.2.insertNonFungible e)

-- Takes as much of a definite asset as there is, up to its amount.
def Split.definite (s : Split AssetId AssetInstance) (asset : Asset AssetId AssetInstance) :
    Split AssetId AssetInstance :=
  match asset.fungibility with
  | .fungible amount =>
    match s.2.fungible[asset.id]? with
    | none => s
    | some selfAmount =>
      let balance := min amount selfAmount
      let left := if selfAmount - balance = 0 then s.2.fungible.erase asset.id
        else s.2.fungible.insert asset.id (selfAmount - balance)
      (s.1.subsumeAssets { fungible := (∅ : ExtTreeMap AssetId Nat).insert asset.id balance },
        { s.2 with fungible := left })
  | .nonFungible inst =>
    let idInstance := toLex (asset.id, inst)
    if s.2.nonFungible.contains idInstance then
      (s.1.insertNonFungible idInstance,
        { s.2 with nonFungible := s.2.nonFungible.erase idInstance })
    else
      s

def takeLimited (limit : Nat) : Split AssetId AssetInstance :=
  let s : Split AssetId AssetInstance := ({}, { self with fungible := ∅ })
  let s := self.fungible.toList.foldl (fun s e => Split.fungible (s.1.len < limit) s e) s
  let s := (s.1, { s.2 with nonFungible := ∅ })
  self.nonFungible.toList.foldl (fun s e => Split.nonFungible (s.1.len < limit) s e) s

def takeAll (limit : Option Nat) : Split AssetId AssetInstance :=
  match limit with
  | none => (self, {})
  | some limit =>
    if self.len ≤ limit then (self, {}) else if limit = 0 then ({}, self)
    else self.takeLimited limit

def takeOfFungible (limit : Option Nat) (id : AssetId) : Split AssetId AssetInstance :=
  if limit.all (· ≥ 1) then
    match self.fungible[id]? with
    | none => ({}, self)
    | some amount => (({} : AssetsInHolding AssetId AssetInstance).insertFungible (id, amount),
        { self with fungible := self.fungible.erase id })
  else
    ({}, self)

def takeOfNonFungible (limit : Option Nat) (id : AssetId) : Split AssetId AssetInstance :=
  self.nonFungible.toList.foldl
    (fun s e => Split.nonFungible ((ofLex e).1 = id ∧ limit.all (s.1.len < ·)) s e)
    ({}, { self with nonFungible := ∅ })

def takeOf (limit : Option Nat) (id : AssetId) : WildFungibility → Split AssetId AssetInstance
  | .fungible => self.takeOfFungible limit id
  | .nonFungible => self.takeOfNonFungible limit id

-- Next to the result stands the holding after the call.
def generalTake (mask : AssetFilter AssetId AssetInstance) (saturate : Bool) :
    Except (TakeError AssetId AssetInstance) (AssetsInHolding AssetId AssetInstance) ×
      AssetsInHolding AssetId AssetInstance :=
  let ok (s : Split AssetId AssetInstance) :
      Except (TakeError AssetId AssetInstance) (AssetsInHolding AssetId AssetInstance) ×
        AssetsInHolding AssetId AssetInstance := (.ok s.1, s.2)
  match mask with
  | .wild .all => ok (self.takeAll mask.limit)
  | .wild (.allCounted _) => ok (self.takeAll mask.limit)
  | .wild (.allOf id kind) => ok (self.takeOf mask.limit id kind)
  | .wild (.allOfCounted id kind _) => ok (self.takeOf mask.limit id kind)
  | .definite assets =>
    match if saturate then .ok () else self.ensureContains assets with
    | .error e => (.error e, self)
    | .ok () => ok (assets.inner.foldl Split.definite ({}, self))

-- The call would panic on an error.
def saturatingTake (mask : AssetFilter AssetId AssetInstance) :
    Option (AssetsInHolding AssetId AssetInstance) × AssetsInHolding AssetId AssetInstance :=
  ((self.generalTake mask true).1.toOption, (self.generalTake mask true).2)

def tryTake (mask : AssetFilter AssetId AssetInstance) :
    Except (TakeError AssetId AssetInstance) (AssetsInHolding AssetId AssetInstance) ×
      AssetsInHolding AssetId AssetInstance :=
  self.generalTake mask false

def pushLimited (limit : Option Nat) :
    List (Asset AssetId AssetInstance) → Assets AssetId AssetInstance →
    Assets AssetId AssetInstance
  | [], masked => masked
  | a :: l, masked =>
    let masked := masked.push a
    if limit.any (masked.inner.length ≥ ·) then masked else pushLimited limit l masked

def minAll (limit : Option Nat) : Assets AssetId AssetInstance :=
  if limit.all (self.len ≤ ·) then .ofList self.assetsIter else pushLimited limit self.assetsIter {}

def minOf (limit : Option Nat) (id : AssetId) : WildFungibility → Assets AssetId AssetInstance
  | .fungible =>
    match self.fungible[id]? with
    | none => {}
    | some amount => ({} : Assets AssetId AssetInstance).push ⟨id, .fungible amount⟩
  | .nonFungible =>
    pushLimited limit (self.nonFungibleAssetsIter.filter fun a => a.id = id) {}

-- As much of a definite asset as there is, up to its amount.
def maskDefinite (asset : Asset AssetId AssetInstance) : Option (Asset AssetId AssetInstance) :=
  match asset.fungibility with
  | .fungible amount => self.fungible[asset.id]?.map fun m => ⟨asset.id, .fungible (min amount m)⟩
  | .nonFungible inst =>
    if self.nonFungible.contains (toLex (asset.id, inst)) then some asset else none

def min (mask : AssetFilter AssetId AssetInstance) : Assets AssetId AssetInstance :=
  if mask.limit.any (· = 0) then
    {}
  else
    match mask with
    | .wild .all => self.minAll mask.limit
    | .wild (.allCounted _) => self.minAll mask.limit
    | .wild (.allOf id kind) => self.minOf mask.limit id kind
    | .wild (.allOfCounted id kind _) => self.minOf mask.limit id kind
    | .definite assets =>
      assets.inner.foldl (fun masked a => (self.maskDefinite a).elim masked masked.push) {}

end AssetsInHolding

end Xcm
