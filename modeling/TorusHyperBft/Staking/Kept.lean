import TorusHyperBft.Staking.Ledger

namespace TorusHyperBft.Staking

/-! What every operation keeps, and the operations that move value in and out of the accounts. -/

open Rows StakingManager Program

section Reads

variable {mgr : StakingManager} {address other : Address} {key otherKey : DelegationKey}

namespace StakingManager

theorem balance_putBalance {amount : U256} : (mgr.putBalance address amount).balance other =
    if other = address then amount else mgr.balance other := by
  unfold balance putBalance
  by_cases same : other = address
  · subst same
    simp
  · simp [same, AList.lookup_insert_ne same]

theorem getValidator_putValidator {state : ValidatorState} :
    (mgr.putValidator address state).getValidator other =
      if other = address then some state else mgr.getValidator other := by
  unfold getValidator putValidator
  by_cases same : other = address
  · subst same
    simp
  · simp [same, AList.lookup_insert_ne same]

theorem getDelegationRaw_putDelegationRaw {row : Delegation} :
    (mgr.putDelegationRaw key row).getDelegationRaw otherKey =
      if otherKey = key then some row else mgr.getDelegationRaw otherKey := by
  unfold getDelegationRaw putDelegationRaw
  by_cases same : otherKey = key
  · subst same
    simp
  · simp [same, AList.lookup_insert_ne same]

theorem getDelegationRaw_deleteDelegationRaw :
    (mgr.deleteDelegationRaw key).getDelegationRaw otherKey =
      if otherKey = key then none else mgr.getDelegationRaw otherKey := by
  unfold getDelegationRaw deleteDelegationRaw
  by_cases same : otherKey = key
  · subst same
    simp
  · simp [same, AList.lookup_erase_ne same]

theorem selfStakeAt_of {val : ValidatorState} (found : mgr.getValidator address = some val) :
    mgr.selfStakeAt address = val.selfStake.toNat := by
  unfold getValidator at found
  simp [selfStakeAt, weightAt, found]

theorem selfStakeAt_none (missing : mgr.getValidator address = none) :
    mgr.selfStakeAt address = 0 := by
  unfold getValidator at missing
  simp [selfStakeAt, weightAt, missing]

theorem worthAt_of {row : Delegation} (found : mgr.getDelegationRaw key = some row) :
    mgr.worthAt key = row.worth := by
  unfold getDelegationRaw at found
  simp [worthAt, weightAt, found]

theorem amountAt_of {row : Delegation} (found : mgr.getDelegationRaw key = some row) :
    mgr.amountAt key = row.amount.toNat := by
  unfold getDelegationRaw at found
  simp [amountAt, weightAt, found]

theorem delegatedTo_unregistered (sound : mgr.Sound) (missing : mgr.getValidator address = none) :
    mgr.delegatedTo address = 0 := by
  have none : mgr.delegatedTo address = total (fun _ _ => (0 : Int)) mgr.delegations := by
    apply total_congr
    intro key row found
    have registered := sound.registered key row found
    split
    · rename_i same
      rw [same, missing] at registered
      cases registered
    · rfl
  rw [none]
  simp [total]

end StakingManager

end Reads

def Operation.paysAt (op : Operation) (mgr : StakingManager) (key : DelegationKey) :
    Multiset UnbondingEntry :=
  match op with
  | .processUnbonding delegator validator currentBlock =>
    if key = (delegator, validator) then
      (mgr.pendingAt key).filter fun entry => entry.matured currentBlock
    else 0
  | .claimUnbonded delegator currentBlock =>
    if key.1 = delegator then
      (mgr.pendingAt key).filter fun entry => entry.matured currentBlock
    else 0
  | _ => 0

def Operation.opensAt (op : Operation) (key : DelegationKey) : Multiset UnbondingEntry :=
  match op with
  | .undelegate delegator validator amount currentBlock =>
    if amount ≠ 0 ∧ key = (delegator, validator) then
      {{ amount := amount, releaseBlock := currentBlock + unbondingPeriod }}
    else 0
  | _ => 0

def StakingManager.slashSubtractions (mgr : StakingManager) (validator : Address)
    (fractionBps : Bps) : List (U256 × U256) :=
  ((mgr.getValidator validator).map fun val =>
    (val.selfStake, slashOf val.selfStake fractionBps)).toList ++
  (mgr.delegationsForValidator validator).map fun del =>
    (del.amount, slashOf del.amount fractionBps)

def Operation.subtractions (op : Operation) (mgr : StakingManager) : List (U256 × U256) :=
  match op with
  | .registerValidator sender _ _ selfStake => [(mgr.balance sender, selfStake)]
  | .delegate delegator _ amount => [(mgr.balance delegator, amount)]
  | .undelegate delegator validator amount _ =>
    ((mgr.getDelegationRaw (delegator, validator)).map fun row => (row.amount, amount)).toList ++
    ((mgr.getValidator validator).map fun val => (val.totalDelegated, amount)).toList
  | .permanentStake staker amount _ => [(mgr.balance staker, amount)]
  | .governanceUnlock staker amount =>
    ((mgr.getPermanentStake staker).map fun info => (info.amount, amount)).toList
  | .topUpSelfStake validator amount => [(mgr.balance validator, amount)]
  | .slash validator fractionBps _ _ => mgr.slashSubtractions validator fractionBps
  | .recordJailVote _ target _ => mgr.slashSubtractions target downtimeSlashBps
  | _ => []

/-- No subtraction of the operation underflows. -/
def Operation.Covered (op : Operation) (mgr : StakingManager) : Prop :=
  ∀ pair ∈ op.subtractions mgr, pair.2 ≤ pair.1

/-- What a successful operation keeps and how it moves unbonding entries. -/
structure Kept (mgr : StakingManager) (op : Operation) (after : StakingManager) : Prop where
  value : after.value = mgr.value
  sound : after.Sound
  pending : ∀ key, after.pendingAt key + op.paysAt mgr key = mgr.pendingAt key + op.opensAt key
  covered : op.Covered mgr

/-- The operation opens and pays no unbonding entry. -/
def Operation.Quiet (op : Operation) : Prop :=
  ∀ mgr key, op.paysAt mgr key = 0 ∧ op.opensAt key = 0

section Frames

variable {mgr after : StakingManager} {op : Operation}

theorem covered_one {minuend subtrahend : U256}
    (one : op.subtractions mgr = [(minuend, subtrahend)])
    (enough : ¬ minuend < subtrahend) : op.Covered mgr := by
  intro pair member
  rw [one, List.mem_singleton] at member
  rw [member]
  exact BitVec.not_lt.mp enough

theorem covered_zero {minuend amount : U256} (zero : amount = 0)
    (one : op.subtractions mgr = [(minuend, amount)]) : op.Covered mgr := by
  subst zero
  exact covered_one one BitVec.not_lt_zero

theorem covered_none (none : op.subtractions mgr = []) : op.Covered mgr := by
  intro pair member
  rw [none] at member
  cases member

theorem Kept.of_frame (sound : mgr.Sound) (quiet : op.Quiet) (covered : op.Covered mgr)
    (value : after.value = mgr.value)
    (delegations : after.delegations = mgr.delegations)
    (stays : ∀ address, (mgr.getValidator address).isSome → (after.getValidator address).isSome)
    (totals : ∀ address val, after.getValidator address = some val →
      (∃ before, mgr.getValidator address = some before ∧
        val.totalDelegated = before.totalDelegated) ∨
      (mgr.getValidator address = none ∧ val.totalDelegated = 0)) : Kept mgr op after := by
  have rows : ∀ key, after.getDelegationRaw key = mgr.getDelegationRaw key := by
    intro key
    simp only [getDelegationRaw, delegations]
  have sums : ∀ address, after.delegatedTo address = mgr.delegatedTo address := by
    intro address
    simp only [delegatedTo, delegations]
  refine ⟨value, ⟨?_, ?_, ?_, ?_⟩, ?_, covered⟩
  · intro key row found
    rw [rows] at found
    exact sound.keyed key row found
  · intro key row found
    rw [rows] at found
    exact stays _ (sound.registered key row found)
  · intro address val found
    rw [sums]
    rcases totals address val found with ⟨before, was, same⟩ | ⟨missing, zero⟩
    · rw [same]
      exact sound.delegated address before was
    · rw [zero, delegatedTo_unregistered sound missing]
      rfl
  · rw [value]
    exact sound.bounded
  · intro key
    rw [(quiet mgr key).1, (quiet mgr key).2]
    simp only [pendingAt, rows]

theorem Kept.of_rows (sound : mgr.Sound) (quiet : op.Quiet) (covered : op.Covered mgr)
    (value : after.value = mgr.value)
    (delegations : after.delegations = mgr.delegations)
    (validators : after.validators = mgr.validators) : Kept mgr op after := by
  have same : ∀ address, after.getValidator address = mgr.getValidator address := by
    intro address
    simp only [getValidator, validators]
  apply Kept.of_frame sound quiet covered value delegations
  · intro address isSome
    rw [same]
    exact isSome
  · intro address val found
    rw [same] at found
    exact .inl ⟨val, found, rfl⟩

theorem Kept.of_validator {validator : Address} {before val : ValidatorState} (sound : mgr.Sound)
    (quiet : op.Quiet) (covered : op.Covered mgr) (found : mgr.getValidator validator = some before)
    (total : val.totalDelegated = before.totalDelegated) (value : after.value = mgr.value)
    (delegations : after.delegations = mgr.delegations)
    (validators : after.validators = mgr.validators.insert validator val) :
    Kept mgr op after := by
  have reads : ∀ address, after.getValidator address =
      if address = validator then some val else mgr.getValidator address := by
    intro address
    rw [← getValidator_putValidator]
    simp only [getValidator, putValidator, validators]
  apply Kept.of_frame sound quiet covered value delegations
  · intro address isSome
    rw [reads]
    split
    · rfl
    · exact isSome
  · intro address state is
    rw [reads] at is
    split at is
    · rename_i same
      cases is
      exact .inl ⟨before, same ▸ found, total⟩
    · exact .inl ⟨state, is, rfl⟩

theorem Kept.refl (sound : mgr.Sound) (covered : op.Covered mgr)
    (none : ∀ key, op.paysAt mgr key = 0 ∧ op.opensAt key = 0) : Kept mgr op mgr := by
  refine ⟨rfl, sound, ?_, covered⟩
  intro key
  rw [(none key).1, (none key).2]

end Frames

section Programs

variable {mgr : StakingManager} {α : Type}

theorem okOr_settles {error : EconomicsError} {found : Option α} :
    Settles (okOr error found) mgr fun value middle => middle = mgr ∧ found = some value := by
  cases found with
  | none => exact settles_throw error
  | some value => exact settles_of_ok rfl ⟨rfl, rfl⟩

theorem debitBalance_settles (address : Address) (amount : U256) :
    Settles (debitBalance address amount) mgr fun _ after =>
      ¬ mgr.balance address < amount ∧
        after = mgr.putBalance address (mgr.balance address - amount) := by
  apply settles_get
  apply settles_guard
  · intro funds
    exact settles_of_ok rfl ⟨funds, rfl⟩

end Programs

section Accounts

variable {mgr : StakingManager} {address : Address} {amount : U256}

theorem toNat_debit (funds : ¬ mgr.balance address < amount) :
    (mgr.balance address - amount).toNat = (mgr.balance address).toNat - amount.toNat ∧
      amount.toNat ≤ (mgr.balance address).toNat := by
  have enough : amount ≤ mgr.balance address := BitVec.not_lt.mp funds
  exact ⟨BitVec.toNat_sub_of_le enough, BitVec.le_def.mp enough⟩

theorem value_debit (funds : ¬ mgr.balance address < amount) :
    (mgr.putBalance address (mgr.balance address - amount)).value = mgr.value - amount.toNat := by
  obtain ⟨left, enough⟩ := toNat_debit funds
  rw [value_putBalance, left]
  omega

theorem value_credit (fits : (mgr.balance address).toNat + amount.toNat < 2 ^ 256) :
    (mgr.putBalance address (mgr.balance address + amount)).value = mgr.value + amount.toNat := by
  rw [value_putBalance, BitVec.toNat_add_of_lt fits]
  omega

theorem registerValidator_settles (sound : mgr.Sound) (sender : Address) (pubkey : BitVec 256)
    (commissionBps : Bps) (selfStake : U256) :
    Settles (registerValidator sender pubkey commissionBps selfStake) mgr fun _ after =>
      Kept mgr (.registerValidator sender pubkey commissionBps selfStake) after := by
  apply settles_guard
  intro _
  apply settles_guard
  intro _
  apply settles_get
  apply settles_guard
  intro again
  apply settles_get
  apply settles_guard
  intro _
  apply settles_bind (debitBalance_settles sender selfStake)
  rintro _ _ ⟨funds, rfl⟩
  refine ⟨_, _, rfl, ?_⟩
  have missing : mgr.getValidator sender = none := by simpa using again
  have missingAfter : (mgr.putBalance sender (mgr.balance sender - selfStake)).getValidator sender =
      none := missing
  dsimp only
  refine Kept.of_frame sound (fun _ _ => ⟨rfl, rfl⟩) (covered_one rfl funds) ?_ rfl ?_ ?_
  · rw [value_putValidator, selfStakeAt_none missingAfter, value_debit funds]
    dsimp only
    omega
  · intro address isSome
    rw [getValidator_putValidator]
    split
    · rfl
    · exact isSome
  · intro address val found
    rw [getValidator_putValidator] at found
    split at found
    · rename_i same
      cases found
      exact .inr ⟨same ▸ missing, rfl⟩
    · exact .inl ⟨val, found, rfl⟩

theorem permanentAt_getD {mgr : StakingManager} {staker : Address} {block : U64} :
    mgr.permanentAt staker = (((mgr.getPermanentStake staker).getD
      { staker := staker, amount := 0, lockedAtBlock := block }).amount.toNat : Int) := by
  unfold permanentAt weightAt getPermanentStake
  cases mgr.permanent.lookup staker with
  | none => rfl
  | some info => rfl

theorem permanentAt_le : mgr.permanentAt address ≤ mgr.permanentStakes :=
  weightAt_le_total (fun _ _ => Int.natCast_nonneg _) address

theorem rewardsAt_getD : mgr.rewardsAt address =
    ((((mgr.getPendingRewards address).map PendingRewards.amount).getD 0).toNat : Int) := by
  unfold rewardsAt weightAt getPendingRewards
  cases mgr.rewards.lookup address with
  | none => rfl
  | some info => rfl

theorem rewardsAt_le : mgr.rewardsAt address ≤ mgr.pendingRewards :=
  weightAt_le_total (fun _ _ => Int.natCast_nonneg _) address

theorem permanentStake_settles (sound : mgr.Sound) (staker : Address) (amount : U256)
    (currentBlock : U64) :
    Settles (permanentStake staker amount currentBlock) mgr fun _ after =>
      Kept mgr (.permanentStake staker amount currentBlock) after := by
  apply settles_ite
  · intro zero
    exact settles_of_ok rfl (Kept.refl sound (covered_zero zero rfl) fun _ => ⟨rfl, rfl⟩)
  intro _
  apply settles_bind (debitBalance_settles staker amount)
  rintro _ _ ⟨funds, rfl⟩
  refine ⟨_, _, rfl, ?_⟩
  dsimp only
  refine Kept.of_rows sound (fun _ _ => ⟨rfl, rfl⟩) (covered_one rfl funds) ?_ rfl rfl
  have locked := @permanentAt_getD
    (mgr.putBalance staker (mgr.balance staker - amount)) staker currentBlock
  generalize (((mgr.putBalance staker (mgr.balance staker - amount)).getPermanentStake staker).getD
    { staker := staker, amount := 0, lockedAtBlock := currentBlock }) = info at locked ⊢
  have held : mgr.permanentAt staker = info.amount.toNat := locked
  have fits : info.amount.toNat + amount.toNat < 2 ^ 256 := by
    have bounded := sound.bounded
    have part := @permanentAt_le mgr staker
    have cash := @balance_le mgr staker
    obtain ⟨_, enough⟩ := toNat_debit funds
    have parts := mgr.parts
    omega
  rw [value_putPermanentStake, value_debit funds, locked, BitVec.toNat_add_of_lt fits]
  omega

theorem stageGovernanceUnlockPermanentStake_settles (staker : Address) (amount : U256) :
    Settles (stageGovernanceUnlockPermanentStake staker amount) mgr fun writes middle =>
      middle = mgr ∧ ∃ info, mgr.getPermanentStake staker = some info ∧ amount ≤ info.amount ∧
        writes = .permanent staker (if amount = info.amount then none
            else some { info with staker := staker, amount := info.amount - amount }) ::
          (if ((mgr.getPendingRewards staker).map PendingRewards.amount).getD 0 ≠ 0 then
            [.clearRewards staker] else []) ++
          [.account staker (mgr.balance staker + (amount +
            ((mgr.getPendingRewards staker).map PendingRewards.amount).getD 0))] := by
  apply settles_guard
  intro _
  apply settles_get
  apply settles_bind_read okOr_settles
  intro info found
  apply settles_guard
  intro most
  exact settles_of_ok rfl ⟨rfl, info, found, BitVec.not_lt.mp most, rfl⟩

theorem value_unlock {info : PermanentStakeInfo} {staker : Address}
    (found : mgr.getPermanentStake staker = some info) (most : amount ≤ info.amount) :
    (mgr.applyStagedWrite (.permanent staker (if amount = info.amount then none
      else some { info with staker := staker, amount := info.amount - amount }))).value =
      mgr.value - amount.toNat := by
  have held : mgr.permanentAt staker = info.amount.toNat := by
    unfold getPermanentStake at found
    simp [permanentAt, weightAt, found]
  have enough := BitVec.le_def.mp most
  by_cases whole : amount = info.amount
  · rw [if_pos whole]
    change (mgr.deletePermanentStake staker).value = _
    rw [value_deletePermanentStake, held, whole]
  · rw [if_neg whole]
    change (mgr.putPermanentStake staker _).value = _
    rw [value_putPermanentStake, held, BitVec.toNat_sub_of_le most]
    omega

theorem value_clearRewards (staker : Address) :
    ((if ((mgr.getPendingRewards staker).map PendingRewards.amount).getD 0 ≠ 0 then
      [StagedWrite.clearRewards staker] else []).foldl applyStagedWrite mgr).value =
      mgr.value - (((mgr.getPendingRewards staker).map PendingRewards.amount).getD 0).toNat := by
  have held := @rewardsAt_getD mgr staker
  by_cases zero : ((mgr.getPendingRewards staker).map PendingRewards.amount).getD 0 = 0
  · rw [if_neg (not_not.mpr zero), zero]
    simp
  · rw [if_pos zero, List.foldl_cons, List.foldl_nil, ← held]
    exact value_deletePendingRewards

theorem governanceUnlock_settles (sound : mgr.Sound) (staker : Address) (amount : U256) :
    Settles (governanceUnlockPermanentStake staker amount) mgr fun _ after =>
      Kept mgr (.governanceUnlock staker amount) after := by
  apply settles_bind (stageGovernanceUnlockPermanentStake_settles staker amount)
  rintro writes middle ⟨same, info, found, most, rfl⟩
  rw [same]
  refine ⟨_, _, rfl, ?_⟩
  have unlocked := value_unlock found most
  dsimp only
  rw [List.cons_append, List.foldl_cons, List.foldl_append]
  -- The first write touches the stake row only, the second the rewards row only.
  generalize firstIs : mgr.applyStagedWrite (.permanent staker _) = first at unlocked ⊢
  have kept : first = { mgr with permanent := first.permanent } := by
    rw [← firstIs]
    by_cases whole : amount = info.amount
    · simp only [whole, if_true]
      rfl
    · simp only [whole, if_false]
      rfl
  have rewardsSame : first.getPendingRewards staker = mgr.getPendingRewards staker := by
    rw [kept]
    rfl
  have cleared := @value_clearRewards first staker
  rw [rewardsSame] at cleared
  generalize secondIs : List.foldl applyStagedWrite first
    (if ((mgr.getPendingRewards staker).map PendingRewards.amount).getD 0 ≠ 0 then
      [StagedWrite.clearRewards staker] else []) = second at cleared ⊢
  have keptToo : second = { first with rewards := second.rewards } := by
    rw [← secondIs]
    split
    · rfl
    · rfl
  have claimed := @rewardsAt_getD mgr staker
  generalize ((mgr.getPendingRewards staker).map PendingRewards.amount).getD 0 = rewards
    at claimed cleared ⊢
  have balanceSame : second.balance staker = mgr.balance staker := by
    rw [keptToo, kept]
    rfl
  have sum_fits : (mgr.balance staker).toNat + (amount.toNat + rewards.toNat) < 2 ^ 256 := by
    have bounded := sound.bounded
    have stake := mgr.permanentStake_le found
    have part := @rewardsAt_le mgr staker
    have cash := @balance_le mgr staker
    have enough := BitVec.le_def.mp most
    have parts := mgr.parts
    omega
  have rewards_fit : amount.toNat + rewards.toNat < 2 ^ 256 := by omega
  have covered : (Operation.governanceUnlock staker amount).Covered mgr := by
    apply covered_one
    · simp only [Operation.subtractions, found, Option.map_some, Option.toList_some]
      rfl
    · exact BitVec.not_lt.mpr most
  refine Kept.of_rows sound (fun _ _ => ⟨rfl, rfl⟩) covered ?_ ?_ ?_
  · change (second.putBalance staker (mgr.balance staker + (amount + rewards))).value = _
    rw [← balanceSame, value_credit, cleared, unlocked, BitVec.toNat_add_of_lt rewards_fit]
    · omega
    · rw [balanceSame, BitVec.toNat_add_of_lt rewards_fit]
      exact sum_fits
  · change second.delegations = _
    rw [keptToo, kept]
  · change second.validators = _
    rw [keptToo, kept]

theorem claimRewards_settles (sound : mgr.Sound) (address : Address) :
    Settles (claimRewards address) mgr fun _ after => Kept mgr (.claimRewards address) after := by
  apply settles_get
  apply settles_bind_read okOr_settles
  intro rewards found
  apply settles_guard
  intro _
  refine settles_of_ok rfl ?_
  dsimp only
  have held : mgr.rewardsAt address = rewards.amount.toNat := by
    unfold getPendingRewards at found
    simp [rewardsAt, weightAt, found]
  have fits : (mgr.balance address).toNat + rewards.amount.toNat < 2 ^ 256 := by
    have bounded := sound.bounded
    have part := @rewardsAt_le mgr address
    have cash := @balance_le mgr address
    have parts := mgr.parts
    omega
  refine Kept.of_rows sound (fun _ _ => ⟨rfl, rfl⟩) (covered_none rfl) ?_ rfl rfl
  rw [value_deletePendingRewards, value_credit fits]
  change mgr.value + rewards.amount.toNat - mgr.rewardsAt address = _
  rw [held]
  omega

theorem topUpSelfStake_settles (sound : mgr.Sound) (validator : Address) (amount : U256) :
    Settles (topUpSelfStake validator amount) mgr fun _ after =>
      Kept mgr (.topUpSelfStake validator amount) after := by
  apply settles_ite
  · intro zero
    exact settles_of_ok rfl (Kept.refl sound (covered_zero zero rfl) fun _ => ⟨rfl, rfl⟩)
  intro _
  apply settles_get
  apply settles_bind_read okOr_settles
  intro val found
  apply settles_bind (debitBalance_settles validator amount)
  rintro _ _ ⟨funds, rfl⟩
  refine ⟨_, _, rfl, ?_⟩
  dsimp only
  have fits : val.selfStake.toNat + amount.toNat < 2 ^ 256 := by
    have bounded := sound.bounded
    have stake := mgr.selfStake_le found
    have cash := @balance_le mgr validator
    obtain ⟨_, enough⟩ := toNat_debit funds
    have parts := mgr.parts
    omega
  refine Kept.of_validator sound (fun _ _ => ⟨rfl, rfl⟩) (covered_one rfl funds) found ?_ ?_ rfl rfl
  · rfl
  · have held : (mgr.putBalance validator (mgr.balance validator - amount)).selfStakeAt validator =
        val.selfStake.toNat := selfStakeAt_of found
    rw [value_putValidator, held, value_debit funds, BitVec.toNat_add_of_lt fits]
    omega

theorem value_restatus {validator : Address} {before val : ValidatorState}
    (found : mgr.getValidator validator = some before) (same : val.selfStake = before.selfStake) :
    (mgr.putValidator validator val).value = mgr.value := by
  rw [value_putValidator, selfStakeAt_of found, same]
  omega

theorem jailValidator_settles (sound : mgr.Sound) (validator : Address)
    (durationBlocks currentBlock : U64) :
    Settles (jailValidator validator durationBlocks currentBlock) mgr fun _ after =>
      Kept mgr (.jail validator durationBlocks currentBlock) after := by
  apply settles_get
  apply settles_bind_read okOr_settles
  intro val found
  apply settles_guard
  intro _
  refine settles_of_ok rfl ?_
  refine Kept.of_validator sound (fun _ _ => ⟨rfl, rfl⟩) (covered_none rfl) found ?_
    (value_restatus found rfl) rfl rfl
  rfl

theorem tombstoneValidator_settles (sound : mgr.Sound) (validator : Address) :
    Settles (tombstoneValidator validator) mgr fun _ after =>
      Kept mgr (.tombstone validator) after := by
  apply settles_get
  apply settles_bind_read okOr_settles
  intro val found
  refine settles_of_ok rfl ?_
  refine Kept.of_validator sound (fun _ _ => ⟨rfl, rfl⟩) (covered_none rfl) found ?_
    (value_restatus found rfl) rfl rfl
  rfl

theorem foldl_deleteJailVote (keys : List (Address × Address)) :
    ∃ votes, keys.foldl deleteJailVote mgr = { mgr with jailVotes := votes } := by
  induction keys generalizing mgr with
  | nil => exact ⟨mgr.jailVotes, rfl⟩
  | cons key keys ih =>
    obtain ⟨votes, is⟩ := @ih (mgr.deleteJailVote key)
    exact ⟨votes, is⟩

theorem unjail_settles (sound : mgr.Sound) (validator : Address) (currentBlock : U64) :
    Settles (unjail validator currentBlock) mgr fun _ after =>
      Kept mgr (.unjail validator currentBlock) after := by
  apply settles_get
  apply settles_bind_read okOr_settles
  intro val found
  apply settles_guard
  intro _
  apply settles_guard
  intro _
  apply settles_guard
  intro _
  apply settles_guard
  intro _
  refine settles_of_ok rfl ?_
  dsimp only [clearJailVotes]
  obtain ⟨votes, is⟩ := @foldl_deleteJailVote (mgr.putValidator validator
    { val with status := .candidate, jailedUntil := none })
    (((mgr.putValidator validator
      { val with status := .candidate, jailedUntil := none }).jailVotes.entries.filter
        fun row => row.1.1 = validator).map Sigma.fst)
  rw [is]
  have value : (mgr.putValidator validator
      { val with status := .candidate, jailedUntil := none }).value = mgr.value :=
    value_restatus found rfl
  refine Kept.of_validator sound (fun _ _ => ⟨rfl, rfl⟩) (covered_none rfl) found ?_ value rfl rfl
  rfl

end Accounts

end TorusHyperBft.Staking
