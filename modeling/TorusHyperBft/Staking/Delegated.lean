import TorusHyperBft.Staking.Kept

namespace TorusHyperBft.Staking

/-! Delegations: the rows that delegate and undelegate write, and the release of matured entries. -/

open Rows StakingManager Program

section Row

variable {mgr after : StakingManager} {key : DelegationKey} {row : Delegation} {val : ValidatorState}

theorem StakingManager.Sound.of_row (sound : mgr.Sound)
    (delegations : after.delegations = mgr.delegations.insert key row)
    (validators : after.validators = mgr.validators.insert key.2 val)
    (keyed : row.delegator = key.1 ∧ row.validator = key.2)
    (total : (val.totalDelegated.toNat : Int) =
      mgr.delegatedTo key.2 + (row.amount.toNat - mgr.amountAt key))
    (value : after.value = mgr.value) : after.Sound := by
  have rows : ∀ other, after.getDelegationRaw other =
      if other = key then some row else mgr.getDelegationRaw other := by
    intro other
    rw [← getDelegationRaw_putDelegationRaw]
    simp only [getDelegationRaw, putDelegationRaw, delegations]
  have reads : ∀ address, after.getValidator address =
      if address = key.2 then some val else mgr.getValidator address := by
    intro address
    rw [← getValidator_putValidator]
    simp only [getValidator, putValidator, validators]
  have sums : ∀ address, after.delegatedTo address =
      (mgr.putDelegationRaw key row).delegatedTo address := by
    intro address
    simp only [delegatedTo, putDelegationRaw, delegations]
  constructor
  · intro other found is
    rw [rows] at is
    split at is
    · rename_i same
      cases is
      rw [same]
      exact keyed
    · exact sound.keyed other found is
  · intro other found is
    rw [rows] at is
    rw [reads]
    split
    · rfl
    · rename_i elsewhere
      split at is
      · rename_i same
        exact absurd (congrArg Prod.snd same) elsewhere
      · exact sound.registered other found is
  · intro address found is
    rw [sums, delegatedTo_putDelegationRaw]
    rw [reads] at is
    by_cases same : address = key.2
    · rw [if_pos same] at is
      cases is
      rw [if_pos same.symm, same]
      exact total
    · rw [if_neg same] at is
      rw [if_neg (Ne.symm same), Int.add_zero]
      exact sound.delegated address found is
  · rw [value]
    exact sound.bounded

theorem pendingAt_insert (delegations : after.delegations = mgr.delegations.insert key row)
    (other : DelegationKey) : after.pendingAt other =
      if other = key then (row.unbonding : Multiset UnbondingEntry) else mgr.pendingAt other := by
  have rows : after.getDelegationRaw other =
      if other = key then some row else mgr.getDelegationRaw other := by
    rw [← getDelegationRaw_putDelegationRaw]
    simp only [getDelegationRaw, putDelegationRaw, delegations]
  unfold pendingAt
  rw [rows]
  split
  · rfl
  · rfl

theorem pendingAt_of (found : mgr.getDelegationRaw key = some row) :
    mgr.pendingAt key = row.unbonding := by
  simp [pendingAt, found]

def StakingManager.delegationOrNew (mgr : StakingManager) (delegator validator : Address) :
    Delegation :=
  (mgr.getDelegationRaw (delegator, validator)).getD
    { delegator := delegator, validator := validator, amount := 0, unbonding := [] }

theorem delegationOrNew_holds (delegator validator : Address) :
    mgr.worthAt (delegator, validator) = (mgr.delegationOrNew delegator validator).worth ∧
    mgr.amountAt (delegator, validator) = (mgr.delegationOrNew delegator validator).amount.toNat ∧
    mgr.pendingAt (delegator, validator) = (mgr.delegationOrNew delegator validator).unbonding := by
  unfold worthAt amountAt pendingAt weightAt delegationOrNew getDelegationRaw
  cases mgr.delegations.lookup (delegator, validator) with
  | none => exact ⟨rfl, rfl, rfl⟩
  | some row => exact ⟨rfl, rfl, rfl⟩

theorem delegationOrNew_keyed (sound : mgr.Sound) (delegator validator : Address) :
    (mgr.delegationOrNew delegator validator).delegator = delegator ∧
      (mgr.delegationOrNew delegator validator).validator = validator := by
  unfold delegationOrNew
  cases found : mgr.getDelegationRaw (delegator, validator) with
  | none => exact ⟨rfl, rfl⟩
  | some row => exact sound.keyed _ row found

theorem amountAt_le_delegatedTo : mgr.amountAt key ≤ mgr.delegatedTo key.2 := by
  have least := @weightAt_le_total _ _ _
    (fun (other : DelegationKey) (row : Delegation) =>
      if other.2 = key.2 then (row.amount.toNat : Int) else 0) mgr.delegations
    (by
      intro other row
      split
      · exact Int.natCast_nonneg _
      · exact le_refl _) key
  refine le_trans (le_of_eq ?_) least
  unfold amountAt weightAt
  cases mgr.delegations.lookup key with
  | none => rfl
  | some row => simp

theorem delegate_settles (sound : mgr.Sound) (delegator validator : Address) (amount : U256) :
    Settles (delegate delegator validator amount) mgr fun _ after =>
      Kept mgr (.delegate delegator validator amount) after := by
  apply settles_ite
  · intro zero
    exact settles_of_ok rfl (Kept.refl sound (covered_zero zero rfl) fun _ => ⟨rfl, rfl⟩)
  intro _
  apply settles_get
  apply settles_bind_read okOr_settles
  intro val found
  apply settles_guard
  intro _
  apply settles_guard
  intro _
  apply settles_bind (debitBalance_settles delegator amount)
  rintro _ _ ⟨funds, rfl⟩
  refine ⟨_, _, rfl, ?_⟩
  obtain ⟨worth, amounts, pending⟩ := @delegationOrNew_holds mgr delegator validator
  have keyed := delegationOrNew_keyed sound delegator validator
  change Kept mgr _ (((mgr.putBalance delegator (mgr.balance delegator - amount)).putDelegationRaw
    (delegator, validator) { mgr.delegationOrNew delegator validator with
      amount := (mgr.delegationOrNew delegator validator).amount + amount }).putValidator validator
        { val with totalDelegated := val.totalDelegated + amount })
  generalize mgr.delegationOrNew delegator validator = row at worth amounts pending keyed ⊢
  have totals := sound.delegated validator val found
  have bounds : row.amount.toNat + amount.toNat < 2 ^ 256 ∧
      val.totalDelegated.toNat + amount.toNat < 2 ^ 256 := by
    have bounded := sound.bounded
    have cash := @balance_le mgr delegator
    have least : mgr.amountAt (delegator, validator) ≤ mgr.delegatedTo validator :=
      amountAt_le_delegatedTo
    have most := @delegatedTo_le mgr validator
    obtain ⟨_, enough⟩ := toNat_debit funds
    have parts := mgr.parts
    constructor
    · omega
    · omega
  have value : (((mgr.putBalance delegator (mgr.balance delegator - amount)).putDelegationRaw
      (delegator, validator) { row with amount := row.amount + amount }).putValidator validator
        { val with totalDelegated := val.totalDelegated + amount }).value = mgr.value := by
    have worthAfter : (mgr.putBalance delegator (mgr.balance delegator - amount)).worthAt
        (delegator, validator) = row.worth := worth
    have stakeAfter : ((mgr.putBalance delegator (mgr.balance delegator - amount)).putDelegationRaw
        (delegator, validator) { row with amount := row.amount + amount }).selfStakeAt validator =
          val.selfStake.toNat := selfStakeAt_of found
    rw [value_putValidator, stakeAfter, value_putDelegationRaw, worthAfter, value_debit funds]
    unfold Delegation.worth
    dsimp only
    rw [BitVec.toNat_add_of_lt bounds.1]
    omega
  refine ⟨value, ?_, ?_, covered_one rfl funds⟩
  · refine @StakingManager.Sound.of_row mgr _ (delegator, validator) _ _ sound rfl rfl keyed ?_ value
    dsimp only
    rw [BitVec.toNat_add_of_lt bounds.1, BitVec.toNat_add_of_lt bounds.2]
    omega
  · intro key
    rw [@pendingAt_insert mgr _ (delegator, validator) _ rfl key]
    split
    · rename_i same
      rw [same, pending]
      rfl
    · rfl

theorem entriesValue_append (left right : List UnbondingEntry) :
    entriesValue (left ++ right) = entriesValue left + entriesValue right := by
  simp [entriesValue]

theorem undelegate_settles (sound : mgr.Sound) (delegator validator : Address) (amount : U256)
    (currentBlock : U64) :
    Settles (undelegate delegator validator amount currentBlock) mgr fun _ after =>
      Kept mgr (.undelegate delegator validator amount currentBlock) after := by
  apply settles_ite
  · intro zero
    refine settles_of_ok rfl (Kept.refl sound ?_ ?_)
    · intro pair member
      have second : pair.2 = amount := by
        rcases List.mem_append.mp member with inRow | inTotal
        · obtain ⟨row, _, rfl⟩ := Option.map_eq_some_iff.mp (Option.mem_toList.mp inRow)
          rfl
        · obtain ⟨val, _, rfl⟩ := Option.map_eq_some_iff.mp (Option.mem_toList.mp inTotal)
          rfl
      rw [second, zero]
      exact BitVec.not_lt.mp BitVec.not_lt_zero
    · intro key
      refine ⟨rfl, ?_⟩
      simp [Operation.opensAt, zero]
  intro nonzero
  apply settles_get
  apply settles_bind_read okOr_settles
  intro val found
  apply settles_get
  apply settles_bind_read okOr_settles
  intro row held
  apply settles_guard
  intro enoughRow
  apply settles_guard
  intro _
  refine settles_of_ok rfl ?_
  dsimp only
  have most : amount ≤ row.amount := BitVec.not_lt.mp enoughRow
  have worth := worthAt_of held
  have amounts := amountAt_of held
  have keyed := sound.keyed _ row held
  have totals := sound.delegated validator val found
  have least : mgr.amountAt (delegator, validator) ≤ mgr.delegatedTo validator :=
    amountAt_le_delegatedTo
  have enough := BitVec.le_def.mp most
  have enoughTotal : amount ≤ val.totalDelegated := by
    rw [BitVec.le_def]
    omega
  have covered : (Operation.undelegate delegator validator amount currentBlock).Covered mgr := by
    intro pair member
    simp only [Operation.subtractions, held, found, Option.map_some, Option.toList_some,
      List.singleton_append, List.mem_cons, List.not_mem_nil, or_false] at member
    rcases member with rfl | rfl
    · exact most
    · exact enoughTotal
  generalize entryIs : UnbondingEntry.mk amount (currentBlock + unbondingPeriod) = entry
  have entryAmount : entry.amount = amount := by rw [← entryIs]
  have value : ((mgr.putDelegationRaw (delegator, validator)
      { row with amount := row.amount - amount, unbonding := row.unbonding ++ [entry] }).putValidator
        validator { val with totalDelegated := val.totalDelegated - amount }).value = mgr.value := by
    have stakeAfter : (mgr.putDelegationRaw (delegator, validator)
        { row with amount := row.amount - amount, unbonding := row.unbonding ++ [entry] }).selfStakeAt
          validator = val.selfStake.toNat := selfStakeAt_of found
    have opened : entriesValue [entry] = amount.toNat := by
      simp [entriesValue, entryAmount]
    rw [value_putValidator, stakeAfter, value_putDelegationRaw, worth]
    unfold Delegation.worth
    dsimp only
    rw [BitVec.toNat_sub_of_le most, entriesValue_append, opened]
    omega
  refine ⟨value, ?_, ?_, covered⟩
  · refine @StakingManager.Sound.of_row mgr _ (delegator, validator) _ _ sound rfl rfl keyed ?_ value
    dsimp only
    rw [BitVec.toNat_sub_of_le most, BitVec.toNat_sub_of_le enoughTotal]
    omega
  · intro key
    rw [@pendingAt_insert mgr _ (delegator, validator) _ rfl key]
    by_cases same : key = (delegator, validator)
    · have opens : (Operation.undelegate delegator validator amount currentBlock).opensAt key =
          {entry} := by
        rw [← entryIs]
        exact if_pos ⟨nonzero, same⟩
      rw [if_pos same, opens, same, pendingAt_of held]
      change (↑(row.unbonding ++ [entry]) : Multiset UnbondingEntry) + 0 = _
      rw [add_zero, ← Multiset.coe_add]
      rfl
    · simp [same, Operation.paysAt, Operation.opensAt]

end Row

end TorusHyperBft.Staking
