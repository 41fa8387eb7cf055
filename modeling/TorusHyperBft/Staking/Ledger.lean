import TorusHyperBft.Staking.Manager
import TorusHyperBft.Rows
import TorusHyperBft.Program

namespace TorusHyperBft.Staking

/-! What the staking rows hold, and how each write changes it. -/

open Rows

def entriesValue (entries : List UnbondingEntry) : Int :=
  (entries.map fun entry => (entry.amount.toNat : Int)).sum

def Delegation.worth (delegation : Delegation) : Int :=
  delegation.amount.toNat + entriesValue delegation.unbonding

theorem entriesValue_nonneg (entries : List UnbondingEntry) : 0 ≤ entriesValue entries := by
  apply List.sum_nonneg
  intro value member
  obtain ⟨entry, _, rfl⟩ := List.mem_map.mp member
  exact Int.natCast_nonneg _

theorem Delegation.worth_nonneg (delegation : Delegation) : 0 ≤ delegation.worth := by
  have entries := entriesValue_nonneg delegation.unbonding
  unfold worth
  omega

namespace StakingManager

variable (mgr : StakingManager)

def deposits : Int := total (fun _ balance => (balance.toNat : Int)) mgr.accounts

def selfStakes : Int := total (fun _ val => (val.selfStake.toNat : Int)) mgr.validators

def delegationsWorth : Int := total (fun _ row => row.worth) mgr.delegations

def permanentStakes : Int := total (fun _ info => (info.amount.toNat : Int)) mgr.permanent

def pendingRewards : Int := total (fun _ rewards => (rewards.amount.toNat : Int)) mgr.rewards

def value : Int :=
  mgr.deposits + mgr.selfStakes + mgr.delegationsWorth + mgr.permanentStakes + mgr.pendingRewards +
    mgr.cumulativeBurned.toNat

def delegatedTo (validator : Address) : Int :=
  total (fun key row => if key.2 = validator then (row.amount.toNat : Int) else 0) mgr.delegations

def pendingAt (key : DelegationKey) : Multiset UnbondingEntry :=
  ((mgr.getDelegationRaw key).map Delegation.unbonding).getD []

/-- Rows under their own keys, totals equal to the rows, no overflow. -/
structure Sound : Prop where
  keyed : ∀ key row, mgr.getDelegationRaw key = some row → row.delegator = key.1 ∧ row.validator = key.2
  registered : ∀ key row, mgr.getDelegationRaw key = some row → (mgr.getValidator key.2).isSome
  delegated : ∀ validator val, mgr.getValidator validator = some val →
    (val.totalDelegated.toNat : Int) = mgr.delegatedTo validator
  bounded : mgr.value < 2 ^ 256

end StakingManager

section Parts

variable {mgr : StakingManager} {address validator : Address} {key : DelegationKey}

namespace StakingManager

theorem balance_weight : weightAt (fun _ balance => (balance.toNat : Int)) mgr.accounts address =
    (mgr.balance address).toNat := by
  unfold weightAt balance
  cases mgr.accounts.lookup address with
  | none => rfl
  | some amount => rfl

theorem deposits_nonneg : 0 ≤ mgr.deposits := total_nonneg fun _ _ => Int.natCast_nonneg _

theorem selfStakes_nonneg : 0 ≤ mgr.selfStakes := total_nonneg fun _ _ => Int.natCast_nonneg _

theorem delegationsWorth_nonneg : 0 ≤ mgr.delegationsWorth :=
  total_nonneg fun _ row => row.worth_nonneg

theorem permanentStakes_nonneg : 0 ≤ mgr.permanentStakes :=
  total_nonneg fun _ _ => Int.natCast_nonneg _

theorem pendingRewards_nonneg : 0 ≤ mgr.pendingRewards :=
  total_nonneg fun _ _ => Int.natCast_nonneg _

theorem parts (mgr : StakingManager) : mgr.deposits + mgr.permanentStakes + mgr.pendingRewards + mgr.selfStakes +
    mgr.delegationsWorth + mgr.cumulativeBurned.toNat = mgr.value ∧ 0 ≤ mgr.deposits ∧
      0 ≤ mgr.permanentStakes ∧ 0 ≤ mgr.pendingRewards ∧ 0 ≤ mgr.selfStakes ∧
      0 ≤ mgr.delegationsWorth := by
  refine ⟨?_, deposits_nonneg, permanentStakes_nonneg, pendingRewards_nonneg, selfStakes_nonneg,
    delegationsWorth_nonneg⟩
  unfold value
  omega

theorem balance_le : ((mgr.balance address).toNat : Int) ≤ mgr.deposits := by
  rw [← balance_weight]
  exact weightAt_le_total (fun _ _ => Int.natCast_nonneg _) address

theorem selfStake_le {val : ValidatorState} (found : mgr.getValidator validator = some val) :
    (val.selfStake.toNat : Int) ≤ mgr.selfStakes :=
  le_total (fun _ _ => Int.natCast_nonneg _) found

theorem worth_le {row : Delegation} (found : mgr.getDelegationRaw key = some row) :
    row.worth ≤ mgr.delegationsWorth :=
  le_total (fun _ row => row.worth_nonneg) found

theorem permanentStake_le {info : PermanentStakeInfo}
    (found : mgr.getPermanentStake address = some info) :
    (info.amount.toNat : Int) ≤ mgr.permanentStakes :=
  le_total (fun _ _ => Int.natCast_nonneg _) found

theorem delegatedTo_le : mgr.delegatedTo validator ≤ mgr.delegationsWorth := by
  apply total_le
  intro key row _
  have entries := entriesValue_nonneg row.unbonding
  unfold Delegation.worth
  split
  · omega
  · omega

end StakingManager

end Parts

section Writes

variable {mgr : StakingManager} {address validator : Address} {key : DelegationKey}
variable {amount : U256}

namespace StakingManager

def worthAt (mgr : StakingManager) (key : DelegationKey) : Int :=
  weightAt (fun _ row => row.worth) mgr.delegations key

def amountAt (mgr : StakingManager) (key : DelegationKey) : Int :=
  weightAt (fun _ row => (row.amount.toNat : Int)) mgr.delegations key

def selfStakeAt (mgr : StakingManager) (validator : Address) : Int :=
  weightAt (fun _ val => (val.selfStake.toNat : Int)) mgr.validators validator

def permanentAt (mgr : StakingManager) (staker : Address) : Int :=
  weightAt (fun _ info => (info.amount.toNat : Int)) mgr.permanent staker

def rewardsAt (mgr : StakingManager) (address : Address) : Int :=
  weightAt (fun _ rewards => (rewards.amount.toNat : Int)) mgr.rewards address

theorem value_putBalance : (mgr.putBalance address amount).value =
    mgr.value - (mgr.balance address).toNat + amount.toNat := by
  have written : (mgr.putBalance address amount).deposits =
      mgr.deposits - (mgr.balance address).toNat + amount.toNat := by
    rw [← balance_weight]
    exact total_insert
  unfold value
  rw [written]
  change _ + mgr.selfStakes + mgr.delegationsWorth + mgr.permanentStakes + mgr.pendingRewards +
    mgr.cumulativeBurned.toNat = _
  omega

theorem value_putValidator {state : ValidatorState} : (mgr.putValidator validator state).value =
    mgr.value - mgr.selfStakeAt validator + state.selfStake.toNat := by
  have written : (mgr.putValidator validator state).selfStakes =
      mgr.selfStakes - mgr.selfStakeAt validator + state.selfStake.toNat := total_insert
  unfold value
  rw [written]
  change mgr.deposits + _ + mgr.delegationsWorth + mgr.permanentStakes + mgr.pendingRewards +
    mgr.cumulativeBurned.toNat = _
  omega

theorem value_putDelegationRaw {row : Delegation} : (mgr.putDelegationRaw key row).value =
    mgr.value - mgr.worthAt key + row.worth := by
  have written : (mgr.putDelegationRaw key row).delegationsWorth =
      mgr.delegationsWorth - mgr.worthAt key + row.worth := total_insert
  unfold value
  rw [written]
  change mgr.deposits + mgr.selfStakes + _ + mgr.permanentStakes + mgr.pendingRewards +
    mgr.cumulativeBurned.toNat = _
  omega

theorem value_deleteDelegationRaw :
    (mgr.deleteDelegationRaw key).value = mgr.value - mgr.worthAt key := by
  have split : mgr.delegationsWorth =
      mgr.worthAt key + (mgr.deleteDelegationRaw key).delegationsWorth := total_erase
  unfold value
  rw [split]
  change mgr.deposits + mgr.selfStakes + _ + mgr.permanentStakes + mgr.pendingRewards +
    mgr.cumulativeBurned.toNat = _
  omega

theorem value_putPermanentStake {info : PermanentStakeInfo} :
    (mgr.putPermanentStake address info).value =
      mgr.value - mgr.permanentAt address + info.amount.toNat := by
  have written : (mgr.putPermanentStake address info).permanentStakes =
      mgr.permanentStakes - mgr.permanentAt address + info.amount.toNat := total_insert
  unfold value
  rw [written]
  change mgr.deposits + mgr.selfStakes + mgr.delegationsWorth + _ + mgr.pendingRewards +
    mgr.cumulativeBurned.toNat = _
  omega

theorem value_deletePermanentStake :
    (mgr.deletePermanentStake address).value = mgr.value - mgr.permanentAt address := by
  have split : mgr.permanentStakes =
      mgr.permanentAt address + (mgr.deletePermanentStake address).permanentStakes := total_erase
  unfold value
  rw [split]
  change mgr.deposits + mgr.selfStakes + mgr.delegationsWorth + _ + mgr.pendingRewards +
    mgr.cumulativeBurned.toNat = _
  omega

theorem value_deletePendingRewards :
    (mgr.deletePendingRewards address).value = mgr.value - mgr.rewardsAt address := by
  have split : mgr.pendingRewards =
      mgr.rewardsAt address + (mgr.deletePendingRewards address).pendingRewards := total_erase
  unfold value
  rw [split]
  change mgr.deposits + mgr.selfStakes + mgr.delegationsWorth + mgr.permanentStakes + _ +
    mgr.cumulativeBurned.toNat = _
  omega

theorem value_executeBurn (fits : mgr.cumulativeBurned.toNat + amount.toNat < 2 ^ 256) :
    (mgr.executeBurn amount).value = mgr.value + amount.toNat := by
  unfold executeBurn
  split
  · rename_i zero
    simp [zero]
  · change mgr.deposits + mgr.selfStakes + mgr.delegationsWorth + mgr.permanentStakes +
      mgr.pendingRewards + ((mgr.cumulativeBurned + amount).toNat : Int) = _
    rw [BitVec.toNat_add_of_lt fits]
    unfold value
    omega

theorem delegatedTo_putDelegationRaw {row : Delegation} :
    (mgr.putDelegationRaw key row).delegatedTo validator =
      mgr.delegatedTo validator + if key.2 = validator then row.amount.toNat - mgr.amountAt key
        else 0 := by
  have written : (mgr.putDelegationRaw key row).delegatedTo validator =
      mgr.delegatedTo validator -
        weightAt (fun key row => if key.2 = validator then (row.amount.toNat : Int) else 0)
          mgr.delegations key +
        if key.2 = validator then (row.amount.toNat : Int) else 0 := total_insert
  rw [written]
  unfold amountAt weightAt
  cases mgr.delegations.lookup key with
  | none =>
    by_cases same : key.2 = validator
    · simp [same]
    · simp [same]
  | some before =>
    by_cases same : key.2 = validator
    · simp [same]
      omega
    · simp [same]

theorem delegatedTo_deleteDelegationRaw :
    (mgr.deleteDelegationRaw key).delegatedTo validator =
      mgr.delegatedTo validator - if key.2 = validator then mgr.amountAt key else 0 := by
  have split : mgr.delegatedTo validator =
      weightAt (fun key row => if key.2 = validator then (row.amount.toNat : Int) else 0)
        mgr.delegations key + (mgr.deleteDelegationRaw key).delegatedTo validator := total_erase
  rw [split]
  unfold amountAt weightAt
  cases mgr.delegations.lookup key with
  | none => simp
  | some before =>
    by_cases same : key.2 = validator
    · simp [same]
    · simp [same]

end StakingManager

end Writes

end TorusHyperBft.Staking
