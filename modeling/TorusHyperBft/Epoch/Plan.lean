import TorusHyperBft.Staking.Manager

namespace TorusHyperBft.Epoch

open Staking

/-! The validator set of the next epoch, planned one boundary ahead. -/

abbrev PubKey := BitVec 256

/-- One validator of a set, as it is installed in consensus. -/
structure PlanMember where
  address : Address
  pubkey : PubKey
  power : U64
  commissionBps : Bps
deriving DecidableEq

structure PendingKeyRotation where
  validator : Address
  newPubkey : PubKey
  effectiveEpoch : Nat
  submittedAtBlock : Nat
deriving DecidableEq

structure EpochRotationPlan where
  boundary : Nat
  members : List PlanMember
  deletes : List PubKey := []
  rotations : List (Address × PubKey) := []
  changed : Bool
deriving DecidableEq

def minActiveValidators : Nat := 4

def wei : Nat := 10 ^ 18

/-- The greater power first, then by address. -/
def Outranks (left right : PlanMember) : Prop :=
  right.power < left.power ∨ left.power = right.power ∧ left.address ≤ right.address

instance : DecidableRel Outranks := fun left right =>
  inferInstanceAs (Decidable (right.power < left.power ∨ _ ∧ _))

/-- The greater stake first, then by address. -/
def StakedMore (left right : ValidatorState) : Prop :=
  right.totalStake < left.totalStake ∨
    left.totalStake = right.totalStake ∧ left.address ≤ right.address

instance : DecidableRel StakedMore := fun left right =>
  inferInstanceAs (Decidable (right.totalStake < left.totalStake ∨ _ ∧ _))

def addresses (members : List PlanMember) : List Address := members.map PlanMember.address

def isEpochBoundary (height epochLength : Nat) : Bool :=
  decide (epochLength ≠ 0 ∧ height ≠ 0 ∧ height % epochLength = 0)

def epochForBlock (height epochLength : Nat) : Nat :=
  if epochLength = 0 then 0 else height / epochLength

def memberOf (validator : ValidatorState) : PlanMember where
  address := validator.address
  pubkey := validator.pubkey
  power := U64.ofNatSaturating (validator.totalStake.toNat / wei)
  commissionBps := validator.commissionBps

def computeNewValidatorSet (validators : List ValidatorState) (maxValidators : Nat) :
    List PlanMember :=
  let eligible := validators.filter fun validator =>
    validator.status = .active ∨ validator.status = .candidate
  ((eligible.insertionSort StakedMore).take maxValidators).map memberOf

def safeRotationCap (currentSetSize : Nat) : Nat := currentSetSize / 3

def missingFrom (others members : List PlanMember) : List Address :=
  ((addresses members).filter fun address => address ∉ addresses others).dedup.insertionSort (· ≤ ·)

section Cap

variable (oldSet newSet : List PlanMember)

def departures : List Address := missingFrom newSet oldSet

def arrivals : List Address := missingFrom oldSet newSet

def allowedSwaps (maxChanges : Nat) : Nat :=
  min (min (maxChanges / 2) (departures oldSet newSet).length) (arrivals oldSet newSet).length

def reseat (kept : List Address) (members : List PlanMember) : List PlanMember :=
  oldSet.foldl (fun members member =>
    if member.address ∈ kept ∧ member.address ∉ addresses members then members ++ [member]
    else members) members

def applyRotationCap (maxChanges : Nat) : List PlanMember :=
  if maxChanges = 0 then oldSet
  else if (departures oldSet newSet).length + (arrivals oldSet newSet).length ≤ maxChanges then
    newSet
  else
    let swaps := allowedSwaps oldSet newSet maxChanges
    let keptDepartures := (departures oldSet newSet).drop swaps
    let deferredArrivals := (arrivals oldSet newSet).drop swaps
    let retained := newSet.filter fun member => member.address ∉ deferredArrivals
    (reseat oldSet keptDepartures retained).insertionSort Outranks

def reseated : List PlanMember :=
  let departed := oldSet.filter fun member => member.address ∉ addresses newSet
  (departed.insertionSort Outranks).take (minActiveValidators - newSet.length)

def enforceMinimumFloor : List PlanMember :=
  if minActiveValidators ≤ newSet.length then newSet
  else if oldSet.length < minActiveValidators then newSet
  else (newSet ++ reseated oldSet newSet).insertionSort Outranks

end Cap

def rotateKey (rotations : List (Address × PubKey)) (member : PlanMember) : PlanMember :=
  match rotations.find? fun rotation => rotation.1 = member.address with
  | none => member
  | some rotation => { member with pubkey := rotation.2 }

def dueRotations (pending : List PendingKeyRotation) (epoch : Nat) : List (Address × PubKey) :=
  (pending.filter fun rotation => rotation.effectiveEpoch ≤ epoch).map fun rotation =>
    (rotation.validator, rotation.newPubkey)

/-- The set of the next epoch, before it is compared with the installed one. -/
def nextSet (validators : List ValidatorState) (rotations : List (Address × PubKey))
    (oldSet : List PlanMember) (maxValidators : Nat) : List PlanMember :=
  let newSet := (computeNewValidatorSet validators maxValidators).map (rotateKey rotations)
  let cap := safeRotationCap oldSet.length
  let capped := if 0 < cap then applyRotationCap oldSet newSet cap else newSet
  (enforceMinimumFloor oldSet capped).map (rotateKey rotations)

def planDeletes (validators : List ValidatorState) (oldSet members : List PlanMember) :
    List PubKey :=
  ((validators.map ValidatorState.pubkey ++ oldSet.map PlanMember.pubkey).filter fun key =>
    key ∉ members.map PlanMember.pubkey).dedup.insertionSort (· ≤ ·)

def planRotation (validators : List ValidatorState) (pending : List PendingKeyRotation)
    (current : Option (List PlanMember)) (maxValidators targetBoundary epochLength : Nat) :
    EpochRotationPlan :=
  let rotations := dueRotations pending (epochForBlock targetBoundary epochLength)
  let oldSet := current.getD []
  let members := nextSet validators rotations oldSet maxValidators
  if members.isEmpty then { boundary := targetBoundary, members := oldSet, changed := false }
  else if current = some members then { boundary := targetBoundary, members, changed := false }
  else
    { boundary := targetBoundary
      members
      deletes := planDeletes validators oldSet members
      rotations
      changed := true }

end TorusHyperBft.Epoch
