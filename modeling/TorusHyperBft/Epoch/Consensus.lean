import TorusHyperBft.Epoch.Plan

namespace TorusHyperBft.Epoch

open Staking

/-! The validator set consensus runs with, and the updates a boundary block makes to it. -/

structure ExcludedMember where
  address : Address
  pubkey : PubKey
deriving DecidableEq

/-- The leader exclusions that take effect at `boundary`. -/
structure LeaderExclusionPlan where
  boundary : Nat
  excluded : List ExcludedMember
  exclude : List PubKey
  readmit : List PubKey
deriving DecidableEq

structure ValidatorSet where
  powers : AList fun _ : PubKey => U64 := ∅
  leaderExcluded : Finset PubKey := ∅

namespace ValidatorSet

def contains (set : ValidatorSet) (key : PubKey) : Bool := (set.powers.lookup key).isSome

def put (set : ValidatorSet) (key : PubKey) (power : U64) : ValidatorSet :=
  { set with powers := set.powers.insert key power }

def remove (set : ValidatorSet) (key : PubKey) : ValidatorSet :=
  { powers := set.powers.erase key, leaderExcluded := set.leaderExcluded.erase key }

def excludeLeader (set : ValidatorSet) (key : PubKey) : ValidatorSet :=
  if set.contains key then { set with leaderExcluded := insert key set.leaderExcluded } else set

def readmitLeader (set : ValidatorSet) (key : PubKey) : ValidatorSet :=
  { set with leaderExcluded := set.leaderExcluded.erase key }

end ValidatorSet

/-- An update made of power updates and an exclusion delta; of two updates of one key the
later one counts. -/
structure ValidatorSetUpdates where
  inserts : AList fun _ : PubKey => U64 := ∅
  deletes : List PubKey := []
  leaderExcludes : List PubKey := []
  leaderReadmits : List PubKey := []

namespace ValidatorSetUpdates

def insert (updates : ValidatorSetUpdates) (key : PubKey) (power : U64) : ValidatorSetUpdates :=
  { updates with
    inserts := updates.inserts.insert key power
    deletes := updates.deletes.filter (· ≠ key) }

def delete (updates : ValidatorSetUpdates) (key : PubKey) : ValidatorSetUpdates :=
  { updates with
    inserts := updates.inserts.erase key
    deletes := key :: updates.deletes.filter (· ≠ key) }

def excludeLeader (updates : ValidatorSetUpdates) (key : PubKey) : ValidatorSetUpdates :=
  { updates with
    leaderReadmits := updates.leaderReadmits.filter (· ≠ key)
    leaderExcludes := key :: updates.leaderExcludes.filter (· ≠ key) }

def readmitLeader (updates : ValidatorSetUpdates) (key : PubKey) : ValidatorSetUpdates :=
  { updates with
    leaderExcludes := updates.leaderExcludes.filter (· ≠ key)
    leaderReadmits := key :: updates.leaderReadmits.filter (· ≠ key) }

end ValidatorSetUpdates

def ValidatorSet.applyUpdates (set : ValidatorSet) (updates : ValidatorSetUpdates) : ValidatorSet :=
  let set := updates.inserts.entries.foldl (fun set row => set.put row.1 row.2) set
  let set := updates.deletes.foldl remove set
  let set := updates.leaderReadmits.foldl readmitLeader set
  updates.leaderExcludes.foldl excludeLeader set

section Updates

-- Which byte strings are ed25519 keys.
variable (decodes : PubKey → Bool)

def memberUpdates (plan : EpochRotationPlan) : ValidatorSetUpdates :=
  let inserted := plan.members.foldl (fun updates member =>
    if decodes member.pubkey then updates.insert member.pubkey member.power else updates)
    ({} : ValidatorSetUpdates)
  plan.deletes.foldl (fun updates key => if decodes key then updates.delete key else updates) inserted

def exclusionUpdates (plan : LeaderExclusionPlan) (updates : ValidatorSetUpdates) :
    ValidatorSetUpdates :=
  let excluded := plan.exclude.foldl (fun updates key =>
    if decodes key then updates.excludeLeader key else updates) updates
  plan.readmit.foldl (fun updates key =>
    if decodes key then updates.readmitLeader key else updates) excluded

def epochValidatorSetUpdates (plan : Option EpochRotationPlan)
    (exclusions : Option LeaderExclusionPlan) : Option ValidatorSetUpdates :=
  let updates := match plan with
    | some plan => if plan.changed then some (memberUpdates decodes plan) else none
    | none => none
  match exclusions.filter fun plan => !plan.exclude.isEmpty || !plan.readmit.isEmpty with
  | some plan => some (exclusionUpdates decodes plan (updates.getD {}))
  | none => updates

end Updates

end TorusHyperBft.Epoch
