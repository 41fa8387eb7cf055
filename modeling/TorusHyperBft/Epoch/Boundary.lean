import TorusHyperBft.Epoch.Consensus
import TorusHyperBft.Staking.Conserved

namespace TorusHyperBft.Epoch

open Staking

/-! What the execution of blocks does to the rows the validator set is planned from. -/

structure LeaderStats where
  missRun : Nat := 0
  j : Nat := 0
  excludedAt : Option Nat := none
  readmitAfter : Nat := 0
  seenAt : Option Nat := none
deriving DecidableEq

structure DeadLeaderParams where
  missThreshold : Nat
  exclusionCap : Nat

/-- The staking rows and the rows of the epoch plans. -/
structure EpochState where
  staking : StakingManager
  pendingRotations : AList fun _ : Address => PendingKeyRotation := ∅
  current : Option (List PlanMember) := none
  plans : Nat → Option EpochRotationPlan := fun _ => none
  leaderStats : Address → LeaderStats := fun _ => {}
  leaderExcludedIndex : List Address := []
  lxCurrent : List ExcludedMember := []
  lxPlans : Nat → Option LeaderExclusionPlan := fun _ => none

namespace EpochState

def acceptsRotation (state : EpochState) (validator : Address) (newPubkey : PubKey) : Bool :=
  match state.staking.getValidator validator with
  | none => false
  | some val =>
    decide (val.status ≠ .jailed ∧ val.status ≠ .tombstoned) &&
      (state.pendingRotations.lookup validator).isNone &&
      state.staking.allValidators.all fun other => other.pubkey ≠ newPubkey

def submitKeyRotation (state : EpochState) (validator : Address) (newPubkey : PubKey)
    (currentEpoch currentBlock : Nat) : EpochState :=
  if state.acceptsRotation validator newPubkey then
    { state with
      pendingRotations := state.pendingRotations.insert validator
        { validator
          newPubkey
          effectiveEpoch := currentEpoch + 1
          submittedAtBlock := currentBlock } }
  else state

/-- One key rotation of a plan: the row gets the key, and the request is done. -/
def applyRotation (state : EpochState) (rotation : Address × PubKey) : EpochState :=
  { state with
    staking := match state.staking.getValidator rotation.1 with
      | some val => state.staking.putValidator rotation.1 { val with pubkey := rotation.2 }
      | none => state.staking
    pendingRotations := match state.pendingRotations.lookup rotation.1 with
      | some pending =>
        if pending.newPubkey = rotation.2 then state.pendingRotations.erase rotation.1
        else state.pendingRotations
      | none => state.pendingRotations }

def applyRotationPlan (state : EpochState) (plan : EpochRotationPlan) : EpochState :=
  let state := plan.rotations.foldl applyRotation state
  { state with
    staking := state.staking.updateValidatorStatuses (addresses plan.members)
    current := some plan.members }

def planFor (state : EpochState) (maxValidators boundary epochLength : Nat) : EpochRotationPlan :=
  planRotation state.staking.allValidators (state.pendingRotations.entries.map Sigma.snd)
    state.current maxValidators boundary epochLength

def executePlannedRotation (state : EpochState) (maxValidators height epochLength : Nat) :
    EpochState :=
  let pruned := { state with plans := Function.update state.plans (height - epochLength) none }
  let applied := match pruned.plans height with
    | some plan => pruned.applyRotationPlan plan
    | none => pruned
  let next := height + epochLength
  { applied with
    plans := Function.update applied.plans next
      (some (applied.planFor maxValidators next epochLength)) }

/-- The exclusions from a boundary on: those planned for it, or those of the members that stay. -/
def installedExclusions (state : EpochState) (height : Nat) : List ExcludedMember :=
  match state.lxPlans height with
  | some plan => plan.excluded
  | none => state.lxCurrent.filter fun excluded =>
    (state.current.getD []).any fun member =>
      member.address = excluded.address ∧ member.pubkey = excluded.pubkey

end EpochState

def LeaderStats.readmitted (stats : LeaderStats) : LeaderStats :=
  { stats with excludedAt := none, readmitAfter := 0, seenAt := none }

def PlanMember.excluded (member : PlanMember) : ExcludedMember where
  address := member.address
  pubkey := member.pubkey

/-- The longer miss run first, then by address. -/
def MissedMore (left right : LeaderStats × PlanMember) : Prop :=
  right.1.missRun < left.1.missRun ∨
    left.1.missRun = right.1.missRun ∧ left.2.address ≤ right.2.address

instance : DecidableRel MissedMore := fun left right =>
  inferInstanceAs (Decidable (right.1.missRun < left.1.missRun ∨ _ ∧ _))

/-- By address, then by key. -/
def ExcludedBefore (left right : ExcludedMember) : Prop :=
  left.address < right.address ∨ left.address = right.address ∧ left.pubkey ≤ right.pubkey

instance : DecidableRel ExcludedBefore := fun left right =>
  inferInstanceAs (Decidable (left.address < right.address ∨ _ ∧ _))

/-- What the choice of the excluded leaders carries along. -/
structure Exclusions where
  stats : Address → LeaderStats
  lifecycle : Finset Address
  desired : List ExcludedMember := []
  power : Nat := 0

namespace Exclusions

/-- A member that is excluded: re-admitted when it was seen and its time is over. -/
def review (stored : Address → LeaderStats) (windowFloor next : Nat) (choice : Exclusions)
    (member : PlanMember) : Exclusions :=
  let stats := stored member.address
  if stats.excludedAt.isSome then
    if stats.seenAt.any (windowFloor < ·) ∧ stats.readmitAfter ≤ next then
      { choice with
        stats := Function.update choice.stats member.address stats.readmitted
        lifecycle := choice.lifecycle.erase member.address }
    else
      { choice with
        desired := choice.desired ++ [member.excluded]
        power := choice.power + member.power.val }
  else choice

def leave (stored : Address → LeaderStats) (members : List PlanMember) (choice : Exclusions)
    (address : Address) : Exclusions :=
  if address ∈ addresses members then choice
  else
    { choice with
      stats := Function.update choice.stats address (stored address).readmitted
      lifecycle := choice.lifecycle.erase address }

def exclude (params : DeadLeaderParams) (epochLength next total : Nat) (choice : Exclusions)
    (candidate : LeaderStats × PlanMember) : Exclusions :=
  let (stats, member) := candidate
  let after := choice.power + member.power.val
  if total - after < total * 2 / 3 + 1 then choice
  else
    { stats := Function.update choice.stats member.address
        { missRun := 0
          j := min (stats.j + 1) params.exclusionCap
          excludedAt := some next
          readmitAfter := next + epochLength * 2 ^ min (min stats.j params.exclusionCap) 63
          seenAt := none }
      lifecycle := insert member.address choice.lifecycle
      desired := choice.desired ++ [member.excluded]
      power := after }

end Exclusions

namespace EpochState

def chooseExclusions (state : EpochState) (params : DeadLeaderParams) (members : List PlanMember)
    (height epochLength : Nat) : Exclusions :=
  let next := height + epochLength
  let total := (members.map fun member => member.power.val).sum
  let start : Exclusions :=
    { stats := state.leaderStats, lifecycle := state.leaderExcludedIndex.toFinset }
  let reviewed := members.foldl (Exclusions.review state.leaderStats (height - epochLength) next) start
  let left := state.leaderExcludedIndex.foldl (Exclusions.leave state.leaderStats members) reviewed
  let candidates := (members.map fun member => (state.leaderStats member.address, member)).filter
    fun candidate => candidate.1.excludedAt.isNone ∧ params.missThreshold ≤ candidate.1.missRun
  (candidates.insertionSort MissedMore).foldl (Exclusions.exclude params epochLength next total) left

def exclusionPlan (installed desired : List ExcludedMember) (members : List PlanMember)
    (boundary : Nat) : Option LeaderExclusionPlan :=
  let installedKeys := installed.map ExcludedMember.pubkey
  let desiredKeys := desired.map ExcludedMember.pubkey
  let exclude := (desiredKeys.filter fun key => key ∉ installedKeys).dedup.insertionSort (· ≤ ·)
  let readmit := (installedKeys.filter fun key =>
    key ∈ members.map PlanMember.pubkey ∧ key ∉ desiredKeys).dedup.insertionSort (· ≤ ·)
  if exclude.isEmpty ∧ readmit.isEmpty then none
  else some { boundary, excluded := desired, exclude, readmit }

/-- At a boundary the planned exclusions are installed and the next ones are planned. -/
def executeLeaderExclusions (state : EpochState) (height epochLength : Nat)
    (params : Option DeadLeaderParams) : EpochState :=
  let pruned :=
    if epochLength ≤ height then
      { state with lxPlans := Function.update state.lxPlans (height - epochLength) none }
    else state
  let installed := pruned.installedExclusions height
  let state := { pruned with lxCurrent := installed }
  match params, state.plans (height + epochLength) with
  | some params, some nextPlan =>
    let choice := state.chooseExclusions params nextPlan.members height epochLength
    let desired := choice.desired.insertionSort ExcludedBefore
    let plan := exclusionPlan installed desired nextPlan.members (height + epochLength)
    { state with
      leaderStats := choice.stats
      leaderExcludedIndex := choice.lifecycle.sort (· ≤ ·)
      lxPlans := if plan.isSome then Function.update state.lxPlans (height + epochLength) plan
        else state.lxPlans }
  | _, _ => state

def executeBoundary (state : EpochState) (maxValidators height epochLength : Nat)
    (params : Option DeadLeaderParams) : EpochState :=
  (state.executePlannedRotation maxValidators height epochLength).executeLeaderExclusions height
    epochLength params

end EpochState

end TorusHyperBft.Epoch
