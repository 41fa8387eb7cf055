import TorusHyperBft.Proportion
import TorusHyperBft.Staking.Ledger

namespace TorusHyperBft.Staking

open StakingManager List

/-! The split of block fees and of the validators' inflation.

Only a storage fault could make these operations fail, and none is modelled. -/

structure FeeShares where
  burn : Bps
  validator : Bps
  treasury : Bps
  devPool : Bps
deriving DecidableEq

/-- `start` moves linearly to `stop` over the transition's epochs. -/
structure FeeSchedule where
  start : FeeShares
  stop : FeeShares
  transitionEpochs : U64
deriving DecidableEq

def FeeSchedule.paysDevPool (schedule : FeeSchedule) : Bool :=
  0 < schedule.start.devPool || 0 < schedule.stop.devPool

structure FeeSplitResult where
  burn : U256
  validators : U256
  treasury : U256
  devPool : U256
deriving DecidableEq

def lerpBps (start stop : Bps) (numerator denominator : U64) : Bps :=
  if denominator = 0 ∨ denominator ≤ numerator then stop
  else
    let step := fun delta : Nat => delta * numerator.val / denominator.val
    if start ≤ stop then Fin.ofNat _ (start.val + step (stop.val - start.val))
    else Fin.ofNat _ (start.val - step (start.val - stop.val))

def U256.least (left right : U256) : U256 := if left ≤ right then left else right

def splitFeesWith (schedule : FeeSchedule) (totalFees : U256) (epoch : U64) : FeeSplitResult :=
  if totalFees = 0 then { burn := 0, validators := 0, treasury := 0, devPool := 0 }
  else
    let share := fun from' to' : Bps =>
      totalFees * BitVec.ofNat 256 (lerpBps from' to' epoch schedule.transitionEpochs) / 10000
    let burn := U256.least (share schedule.start.burn schedule.stop.burn) totalFees
    let validators :=
      U256.least (share schedule.start.validator schedule.stop.validator) (totalFees - burn)
    let treasury := U256.least (share schedule.start.treasury schedule.stop.treasury)
      (totalFees - burn - validators)
    let rest := totalFees - burn - validators - treasury
    if schedule.paysDevPool then { burn, validators, treasury, devPool := rest }
    else { burn := burn + rest, validators, treasury, devPool := 0 }

namespace StakingManager

variable (mgr : StakingManager)

def creditRewards (address : Address) (amount : U256) : StakingManager :=
  let rewards := (mgr.getPendingRewards address).getD { address, amount := 0 }
  { mgr with rewards := mgr.rewards.insert address { rewards with amount := rewards.amount + amount } }

def withCredit (address : Address) (amount : U256) : StakingManager :=
  mgr.putBalance address (mgr.balance address + amount)

def delegationRows (validator : Address) : List Delegation :=
  (mgr.delegationsForValidator validator).insertionSort fun left right =>
    left.delegator ≤ right.delegator

end StakingManager

/-- The parts of an amount that a validator's whole stake earned. -/
structure RewardSplit where
  selfShare : U256
  delegatorsShare : U256
  commission : U256
  delegatorPool : U256
deriving DecidableEq

def rewardSplit (val : ValidatorState) (amount : U256) : RewardSplit :=
  let selfShare := amount * val.selfStake / val.totalStake
  let delegatorsShare := amount - selfShare
  let commission := delegatorsShare * BitVec.ofNat 256 val.commissionBps / 10000
  { selfShare, delegatorsShare, commission, delegatorPool := delegatorsShare - commission }

/-- A pool cut in proportion to weights, one after the other; the last one takes what is left. -/
def prorate {α : Type} (weight : α → U256) (pool whole : U256) : U256 → List α → List U256
  | _, [] => []
  | distributed, item :: items =>
    let share := if items.isEmpty then pool - distributed else pool * weight item / whole
    share :: prorate weight pool whole (distributed + share) items

def delegationShares (pool totalDelegated : U256) (rows : List Delegation) : List U256 :=
  prorate Delegation.amount pool totalDelegated 0 rows

def StakingManager.pay (mgr : StakingManager) (address : Address) (share : U256) : StakingManager :=
  if share = 0 then mgr else mgr.creditRewards address share

def StakingManager.payAll (mgr : StakingManager) (credits : List (Address × U256)) : StakingManager :=
  credits.foldl (fun mgr credit => mgr.pay credit.1 credit.2) mgr

def splitValidatorReward (mgr : StakingManager) (val : ValidatorState) (amount : U256) :
    StakingManager :=
  let rows := if val.totalDelegated = 0 then [] else mgr.delegationRows val.address
  if rows.isEmpty then mgr.pay val.address amount
  else
    let split := rewardSplit val amount
    (mgr.pay val.address (split.selfShare + split.commission)).payAll
      ((rows.map Delegation.delegator).zip
        (delegationShares split.delegatorPool val.totalDelegated rows))

def distributeValidatorShare (mgr : StakingManager) (proposer : Address) (share : U256) :
    StakingManager :=
  match mgr.getValidator proposer with
  | none => mgr.withCredit proposer share
  | some val => splitValidatorReward mgr val share

def distributeBlockFeesWith (mgr : StakingManager) (schedule : FeeSchedule) (proposer : Address)
    (totalFees : U256) (epoch : U64) (treasuryAddress devPoolAddress : Address) : StakingManager :=
  if totalFees = 0 then mgr
  else
    let split := splitFeesWith schedule totalFees epoch
    let shared := if split.validators = 0 then mgr
      else distributeValidatorShare mgr proposer split.validators
    let funded := if split.treasury = 0 then shared
      else shared.withCredit treasuryAddress split.treasury
    if split.devPool = 0 then funded else funded.withCredit devPoolAddress split.devPool

def validatorInflationApyBps : U256 := 500

def blocksPerYear : U256 := 15768000

def StakingManager.activeValidators (mgr : StakingManager) : List ValidatorState :=
  (mgr.allValidators.filter fun val => val.status = .active).insertionSort fun left right =>
    left.address ≤ right.address

def totalActiveStaked (active : List ValidatorState) : U256 :=
  (active.map ValidatorState.totalStake).foldl (· + ·) 0

def totalEmission (staked : U256) (epochLengthBlocks : U64) : U256 :=
  staked * validatorInflationApyBps * BitVec.ofNat 256 epochLengthBlocks / (blocksPerYear * 10000)

def validatorEmissions (emission staked : U256) (active : List ValidatorState) : List U256 :=
  prorate ValidatorState.totalStake emission staked 0 active

def emitAll (mgr : StakingManager) (emissions : List (ValidatorState × U256)) : StakingManager :=
  emissions.foldl (fun mgr earned =>
    if earned.2 = 0 then mgr else splitValidatorReward mgr earned.1 earned.2) mgr

def distributeValidatorInflation (mgr : StakingManager) (tracker : U256) (epochLengthBlocks : U64) :
    StakingManager × U256 × U256 :=
  let active := mgr.activeValidators
  if active.isEmpty then (mgr, tracker, 0)
  else
    let staked := totalActiveStaked active
    if staked = 0 then (mgr, tracker, 0)
    else
      let emission := totalEmission staked epochLengthBlocks
      if emission = 0 then (mgr, tracker, 0)
      else
        (emitAll mgr (active.zip (validatorEmissions emission staked active)), tracker + emission,
          emission)

section Prorate

open Proportion

variable {α : Type} {weight : α → U256} {pool whole distributed : U256} {items : List α} {last : α}

theorem toNat_mul_div {left right divisor : U256} (fits : left.toNat * right.toNat < 2 ^ 256) :
    (left * right / divisor).toNat = floorShare left.toNat divisor.toNat right.toNat := by
  rw [BitVec.toNat_udiv, BitVec.toNat_mul, Nat.mod_eq_of_lt fits]
  rfl

theorem prorate_toNat (fits : ∀ item ∈ items, pool.toNat * (weight item).toNat < 2 ^ 256)
    (room : distributed.toNat + (items.map fun item =>
      floorShare pool.toNat whole.toNat (weight item).toNat).sum ≤ pool.toNat) :
    (prorate weight pool whole distributed (items ++ [last])).map BitVec.toNat =
      (items.map fun item => floorShare pool.toNat whole.toNat (weight item).toNat) ++
        [pool.toNat - (distributed.toNat + (items.map fun item =>
          floorShare pool.toNat whole.toNat (weight item).toNat).sum)] := by
  induction items generalizing distributed with
  | nil =>
    have enough : distributed ≤ pool := by
      rw [BitVec.le_def]
      simpa using room
    simp [prorate, BitVec.toNat_sub_of_le enough]
  | cons item items ih =>
    have product := fits item mem_cons_self
    have share := @toNat_mul_div pool (weight item) whole product
    have bound := pool.isLt
    rw [map_cons, sum_cons] at room
    have next : (distributed + pool * weight item / whole).toNat =
        distributed.toNat + floorShare pool.toNat whole.toNat (weight item).toNat := by
      rw [BitVec.toNat_add_of_lt (by rw [share]; omega), share]
    have rest := @ih (distributed + pool * weight item / whole)
      (fun other member => fits other (mem_cons_of_mem _ member)) (by rw [next]; omega)
    have more : (items ++ [last]).isEmpty = false := by simp
    rw [cons_append, prorate]
    simp only [more, Bool.false_eq_true, if_false, map_cons, sum_cons, cons_append]
    rw [rest, share, next, Nat.add_assoc]

theorem prorate_length (items : List α) :
    (prorate weight pool whole distributed items).length = items.length := by
  induction items generalizing distributed with
  | nil => rfl
  | cons item items ih => simp [prorate, ih]

theorem prorate_exact (positive : 0 < whole.toNat)
    (together : ((items ++ [last]).map fun item => (weight item).toNat).sum = whole.toNat)
    (fits : ∀ item ∈ items, pool.toNat * (weight item).toNat < 2 ^ 256) :
    (items.map fun item => floorShare pool.toNat whole.toNat (weight item).toNat).sum ≤ pool.toNat ∧
      (prorate weight pool whole 0 (items ++ [last])).map BitVec.toNat =
        (items.map fun item => floorShare pool.toNat whole.toNat (weight item).toNat) ++
          [pool.toNat - (items.map fun item =>
            floorShare pool.toNat whole.toNat (weight item).toNat).sum] ∧
      ((prorate weight pool whole 0 (items ++ [last])).map BitVec.toNat).sum = pool.toNat ∧
      pool.toNat - (items.map fun item =>
          floorShare pool.toNat whole.toNat (weight item).toNat).sum ≤
        floorShare pool.toNat whole.toNat (weight last).toNat + (items.length + 1) := by
  rw [map_append, sum_append, map_cons, map_nil, sum_singleton] at together
  have parts : (items.map fun item => floorShare pool.toNat whole.toNat (weight item).toNat) =
      (items.map fun item => (weight item).toNat).map (floorShare pool.toNat whole.toNat) := by
    rw [map_map]
    rfl
  have room : (items.map fun item =>
      floorShare pool.toNat whole.toNat (weight item).toNat).sum ≤ pool.toNat := by
    rw [parts]
    exact sum_floorShare_le positive (by omega)
  have shares := @prorate_toNat α weight pool whole 0 items last fits (by simpa using room)
  have zero : (0 : U256).toNat = 0 := rfl
  rw [zero, Nat.zero_add] at shares
  refine ⟨room, shares, ?_, ?_⟩
  · rw [shares, sum_append, sum_singleton]
    omega
  · have rest := @remainder_le pool.toNat whole.toNat positive
      (items.map fun item => (weight item).toNat) (weight last).toNat together
    rwa [← parts, length_map] at rest

end Prorate

section Pay

variable {mgr after : StakingManager} {address : Address} {amount : U256}

def StakingManager.funds (mgr : StakingManager) : Int := mgr.deposits + mgr.pendingRewards

/-- An amount was credited; stakes and delegations are as they were. -/
structure Credited (mgr after : StakingManager) (amount : Nat) : Prop where
  funds : after.funds = mgr.funds + amount
  delegations : after.delegations = mgr.delegations
  validators : after.validators = mgr.validators

theorem Credited.refl (mgr : StakingManager) : Credited mgr mgr 0 := ⟨by simp, rfl, rfl⟩

theorem Credited.trans {next : StakingManager} {first second : Nat} (one : Credited mgr after first)
    (two : Credited after next second) : Credited mgr next (first + second) where
  funds := by
    rw [two.funds, one.funds]
    omega
  delegations := two.delegations.trans one.delegations
  validators := two.validators.trans one.validators

theorem withCredit_credited (room : mgr.funds + amount.toNat < 2 ^ 256) :
    Credited mgr (mgr.withCredit address amount) amount.toNat := by
  refine ⟨?_, rfl, rfl⟩
  have held := @balance_le mgr address
  have rewards := @pendingRewards_nonneg mgr
  unfold funds at room
  have written : (mgr.withCredit address amount).deposits =
      mgr.deposits - (mgr.balance address).toNat + (mgr.balance address + amount).toNat := by
    rw [← balance_weight]
    exact Rows.total_insert
  have same : (mgr.withCredit address amount).pendingRewards = mgr.pendingRewards := rfl
  rw [funds, funds, written, same, BitVec.toNat_add_of_lt (by omega)]
  omega

theorem creditRewards_credited (room : mgr.funds + amount.toNat < 2 ^ 256) :
    Credited mgr (mgr.creditRewards address amount) amount.toNat := by
  refine ⟨?_, rfl, rfl⟩
  have deposits := @deposits_nonneg mgr
  unfold funds at room
  have held : mgr.rewardsAt address =
      (((mgr.getPendingRewards address).getD { address, amount := 0 }).amount.toNat : Int) := by
    unfold rewardsAt Rows.weightAt getPendingRewards
    cases mgr.rewards.lookup address with
    | none => rfl
    | some rewards => rfl
  have atMost : mgr.rewardsAt address ≤ mgr.pendingRewards :=
    Rows.weightAt_le_total (fun _ _ => Int.natCast_nonneg _) address
  have written : (mgr.creditRewards address amount).pendingRewards =
      mgr.pendingRewards - mgr.rewardsAt address +
        ((((mgr.getPendingRewards address).getD { address, amount := 0 }).amount + amount).toNat : Int) :=
    Rows.total_insert
  have same : (mgr.creditRewards address amount).deposits = mgr.deposits := rfl
  rw [funds, funds, written, same, BitVec.toNat_add_of_lt (by omega)]
  omega

theorem pay_credited (room : mgr.funds + amount.toNat < 2 ^ 256) :
    Credited mgr (mgr.pay address amount) amount.toNat := by
  unfold pay
  split
  · rename_i zero
    subst zero
    exact .refl mgr
  · exact creditRewards_credited room

theorem payAll_credited {credits : List (Address × U256)}
    (room : mgr.funds + ((credits.map fun credit => credit.2.toNat).sum : Nat) < 2 ^ 256) :
    Credited mgr (mgr.payAll credits) (credits.map fun credit => credit.2.toNat).sum := by
  induction credits generalizing mgr with
  | nil => exact .refl mgr
  | cons credit credits ih =>
    rw [map_cons, sum_cons] at room ⊢
    have first := @pay_credited mgr credit.1 credit.2 (by omega)
    have rest := @ih (mgr.pay credit.1 credit.2) (by rw [first.funds]; omega)
    exact first.trans rest

end Pay

section Split

open Proportion

variable {mgr : StakingManager} {val : ValidatorState} {amount : U256}

/-- Each total is the sum of the validator's delegations. -/
def StakingManager.Delegated (mgr : StakingManager) : Prop :=
  ∀ val ∈ mgr.allValidators, val.totalDelegated.toNat =
    ((mgr.delegationsForValidator val.address).map fun row => row.amount.toNat).sum

/-- No product or sum of a validator's split overflows. -/
structure SplitFits (mgr : StakingManager) (val : ValidatorState) (amount : U256) : Prop where
  stake : val.selfStake.toNat + val.totalDelegated.toNat < 2 ^ 256
  selfProduct : amount.toNat * val.selfStake.toNat < 2 ^ 256
  commissionProduct : (rewardSplit val amount).delegatorsShare.toNat * val.commissionBps.val < 2 ^ 256
  poolProducts : ∀ row ∈ mgr.delegationRows val.address,
    (rewardSplit val amount).delegatorPool.toNat * row.amount.toNat < 2 ^ 256
  room : mgr.funds + amount.toNat < 2 ^ 256

/-- A split pays the whole amount, without underflow and in proportion. -/
structure SplitExact (mgr : StakingManager) (val : ValidatorState) (amount : U256) : Prop where
  credited : Credited mgr (splitValidatorReward mgr val amount) amount.toNat
  selfShare : val.totalDelegated ≠ 0 → (rewardSplit val amount).selfShare ≤ amount
  commission : val.totalDelegated ≠ 0 →
    (rewardSplit val amount).commission ≤ (rewardSplit val amount).delegatorsShare
  shares : val.totalDelegated ≠ 0 → ∀ rows last, mgr.delegationRows val.address = rows ++ [last] →
    (rows.map fun row => floorShare (rewardSplit val amount).delegatorPool.toNat
        val.totalDelegated.toNat row.amount.toNat).sum ≤ (rewardSplit val amount).delegatorPool.toNat ∧
    (delegationShares (rewardSplit val amount).delegatorPool val.totalDelegated
        (rows ++ [last])).map BitVec.toNat =
      (rows.map fun row => floorShare (rewardSplit val amount).delegatorPool.toNat
        val.totalDelegated.toNat row.amount.toNat) ++
        [(rewardSplit val amount).delegatorPool.toNat - (rows.map fun row =>
          floorShare (rewardSplit val amount).delegatorPool.toNat val.totalDelegated.toNat
            row.amount.toNat).sum] ∧
    (rewardSplit val amount).delegatorPool.toNat - (rows.map fun row =>
        floorShare (rewardSplit val amount).delegatorPool.toNat val.totalDelegated.toNat
          row.amount.toNat).sum ≤
      floorShare (rewardSplit val amount).delegatorPool.toNat val.totalDelegated.toNat
        last.amount.toNat + (rows ++ [last]).length
  idle : ∀ row : Delegation, row.amount = 0 → floorShare (rewardSplit val amount).delegatorPool.toNat
    val.totalDelegated.toNat row.amount.toNat = 0

theorem delegationRows_perm (mgr : StakingManager) (validator : Address) :
    (mgr.delegationRows validator).Perm (mgr.delegationsForValidator validator) :=
  perm_insertionSort _ _

theorem rewardSplit_toNat (fits : SplitFits mgr val amount) (delegated : val.totalDelegated ≠ 0)
    (commission : val.commissionBps.val ≤ 10000) :
    (rewardSplit val amount).selfShare ≤ amount ∧
      (rewardSplit val amount).commission ≤ (rewardSplit val amount).delegatorsShare ∧
      (rewardSplit val amount).selfShare.toNat + (rewardSplit val amount).commission.toNat +
        (rewardSplit val amount).delegatorPool.toNat = amount.toNat := by
  have positive : 0 < val.totalDelegated.toNat := by
    rcases Nat.eq_zero_or_pos val.totalDelegated.toNat with zero | positive
    · exact absurd (BitVec.eq_of_toNat_eq zero) delegated
    · exact positive
  have stake : val.totalStake.toNat = val.selfStake.toNat + val.totalDelegated.toNat :=
    BitVec.toNat_add_of_lt fits.stake
  have selfShare : (rewardSplit val amount).selfShare.toNat =
      floorShare amount.toNat val.totalStake.toNat val.selfStake.toNat := toNat_mul_div fits.selfProduct
  have selfLe : (rewardSplit val amount).selfShare.toNat ≤ amount.toNat := by
    rw [selfShare]
    exact floorShare_le (by omega) (by omega)
  have delegators : (rewardSplit val amount).delegatorsShare.toNat =
      amount.toNat - (rewardSplit val amount).selfShare.toNat :=
    BitVec.toNat_sub_of_le (BitVec.le_def.mpr selfLe)
  have bps : (BitVec.ofNat 256 val.commissionBps : U256).toNat = val.commissionBps.val := by
    have small := val.commissionBps.isLt
    rw [BitVec.toNat_ofNat, Nat.mod_eq_of_lt (by omega)]
  have commissionShare : (rewardSplit val amount).commission.toNat =
      floorShare (rewardSplit val amount).delegatorsShare.toNat 10000 val.commissionBps.val := by
    have product := fits.commissionProduct
    rw [← bps] at product
    have share := @toNat_mul_div _ _ (10000 : U256) product
    rw [bps] at share
    exact share
  have commissionLe : (rewardSplit val amount).commission.toNat ≤
      (rewardSplit val amount).delegatorsShare.toNat := by
    rw [commissionShare]
    exact floorShare_le (by decide) commission
  have pool : (rewardSplit val amount).delegatorPool.toNat =
      (rewardSplit val amount).delegatorsShare.toNat - (rewardSplit val amount).commission.toNat :=
    BitVec.toNat_sub_of_le (BitVec.le_def.mpr commissionLe)
  refine ⟨BitVec.le_def.mpr selfLe, BitVec.le_def.mpr commissionLe, ?_⟩
  omega

theorem map_zip_snd {α : Type} (left : List α) (shares : List U256)
    (same : left.length = shares.length) :
    ((left.zip shares).map fun pair => pair.2.toNat) = shares.map BitVec.toNat := by
  have seconds : (left.zip shares).map Prod.snd = shares := map_snd_zip (by omega)
  have mapped := congrArg (List.map BitVec.toNat) seconds
  rwa [map_map] at mapped

theorem splitValidatorReward_exact (fits : SplitFits mgr val amount)
    (delegated : val.totalDelegated.toNat =
      ((mgr.delegationsForValidator val.address).map fun row => row.amount.toNat).sum)
    (commission : val.commissionBps.val ≤ 10000) : SplitExact mgr val amount := by
  have summed : ((mgr.delegationRows val.address).map fun row => row.amount.toNat).sum =
      val.totalDelegated.toNat := by
    rw [delegated]
    exact ((delegationRows_perm mgr val.address).map _).sum_eq
  have positive : val.totalDelegated ≠ 0 → 0 < val.totalDelegated.toNat := by
    intro nonzero
    rcases Nat.eq_zero_or_pos val.totalDelegated.toNat with zero | positive
    · exact absurd (BitVec.eq_of_toNat_eq zero) nonzero
    · exact positive
  have exactly := fun (nonzero : val.totalDelegated ≠ 0) (rows : List Delegation) (last : Delegation)
      (isRows : mgr.delegationRows val.address = rows ++ [last]) =>
    @prorate_exact _ Delegation.amount (rewardSplit val amount).delegatorPool val.totalDelegated
      rows last (positive nonzero) (by rw [← summed, isRows]) (fun row member =>
        fits.poolProducts row (by rw [isRows]; exact mem_append_left _ member))
  refine ⟨?_, ?_, ?_, ?_, ?_⟩
  · unfold splitValidatorReward
    by_cases nonzero : val.totalDelegated = 0
    · simp only [nonzero, if_true, isEmpty_nil]
      exact pay_credited fits.room
    · simp only [if_neg nonzero]
      rcases eq_nil_or_concat (mgr.delegationRows val.address) with none' | ⟨rows, last, isRows⟩
      · have some' := positive nonzero
        rw [← summed, none'] at some'
        simp at some'
      · rw [concat_eq_append] at isRows
        have some' : (mgr.delegationRows val.address).isEmpty = false := by simp [isRows]
        simp only [some', Bool.false_eq_true, if_false]
        obtain ⟨-, -, whole⟩ := rewardSplit_toNat fits nonzero commission
        obtain ⟨-, -, shares, -⟩ := exactly nonzero rows last isRows
        have bound := amount.isLt
        have room := fits.room
        have cut : ((rewardSplit val amount).selfShare + (rewardSplit val amount).commission).toNat =
            (rewardSplit val amount).selfShare.toNat + (rewardSplit val amount).commission.toNat :=
          BitVec.toNat_add_of_lt (by omega)
        have paid : (((mgr.delegationRows val.address).map Delegation.delegator).zip
            (delegationShares (rewardSplit val amount).delegatorPool val.totalDelegated
              (mgr.delegationRows val.address))).map (fun credit => credit.2.toNat) =
            (delegationShares (rewardSplit val amount).delegatorPool val.totalDelegated
              (mgr.delegationRows val.address)).map BitVec.toNat := by
          apply map_zip_snd
          rw [length_map, delegationShares, prorate_length]
        have sum : ((delegationShares (rewardSplit val amount).delegatorPool val.totalDelegated
            (mgr.delegationRows val.address)).map BitVec.toNat).sum =
            (rewardSplit val amount).delegatorPool.toNat := by
          rw [isRows]
          exact shares
        have first := @pay_credited mgr val.address
          ((rewardSplit val amount).selfShare + (rewardSplit val amount).commission) (by
            rw [cut]
            omega)
        have rest := @payAll_credited (mgr.pay val.address
          ((rewardSplit val amount).selfShare + (rewardSplit val amount).commission))
          (((mgr.delegationRows val.address).map Delegation.delegator).zip
            (delegationShares (rewardSplit val amount).delegatorPool val.totalDelegated
              (mgr.delegationRows val.address))) (by
            rw [paid, sum, first.funds, cut]
            omega)
        have both := first.trans rest
        rw [paid, sum, cut, whole] at both
        exact both
  · intro nonzero
    exact (rewardSplit_toNat fits nonzero commission).1
  · intro nonzero
    exact (rewardSplit_toNat fits nonzero commission).2.1
  · intro nonzero rows last isRows
    obtain ⟨room, shares, -, atMost⟩ := exactly nonzero rows last isRows
    refine ⟨room, shares, ?_⟩
    rw [length_append, length_singleton]
    exact atMost
  · intro row zero
    rw [zero]
    simp [floorShare]

end Split

section Fees

variable {mgr : StakingManager} {schedule : FeeSchedule} {totalFees : U256} {epoch : U64}

def FeeSplitResult.sum (split : FeeSplitResult) : Nat :=
  split.burn.toNat + split.validators.toNat + split.treasury.toNat + split.devPool.toNat

theorem least_le (left right : U256) : (U256.least left right).toNat ≤ right.toNat := by
  unfold U256.least
  split
  · rename_i below
    exact BitVec.le_def.mp below
  · exact Nat.le_refl _

theorem splitFeesWith_sum : (splitFeesWith schedule totalFees epoch).sum = totalFees.toNat := by
  unfold splitFeesWith
  by_cases zero : totalFees = 0
  · simp [zero, FeeSplitResult.sum]
  · simp only [if_neg zero]
    generalize totalFees * BitVec.ofNat 256 (lerpBps schedule.start.burn schedule.stop.burn epoch
      schedule.transitionEpochs) / 10000 = burnShare
    generalize totalFees * BitVec.ofNat 256 (lerpBps schedule.start.validator schedule.stop.validator
      epoch schedule.transitionEpochs) / 10000 = validatorShare
    generalize totalFees * BitVec.ofNat 256 (lerpBps schedule.start.treasury schedule.stop.treasury
      epoch schedule.transitionEpochs) / 10000 = treasuryShare
    have burn := least_le burnShare totalFees
    have afterBurn : (totalFees - U256.least burnShare totalFees).toNat =
        totalFees.toNat - (U256.least burnShare totalFees).toNat :=
      BitVec.toNat_sub_of_le (BitVec.le_def.mpr burn)
    generalize U256.least burnShare totalFees = burned at *
    have validators := least_le validatorShare (totalFees - burned)
    have afterValidators : (totalFees - burned - U256.least validatorShare (totalFees - burned)).toNat =
        (totalFees - burned).toNat - (U256.least validatorShare (totalFees - burned)).toNat :=
      BitVec.toNat_sub_of_le (BitVec.le_def.mpr validators)
    generalize U256.least validatorShare (totalFees - burned) = shared at *
    have treasury := least_le treasuryShare (totalFees - burned - shared)
    have rest : (totalFees - burned - shared -
        U256.least treasuryShare (totalFees - burned - shared)).toNat =
        (totalFees - burned - shared).toNat -
          (U256.least treasuryShare (totalFees - burned - shared)).toNat :=
      BitVec.toNat_sub_of_le (BitVec.le_def.mpr treasury)
    generalize U256.least treasuryShare (totalFees - burned - shared) = funded at *
    have bound := totalFees.isLt
    split
    · simp only [FeeSplitResult.sum]
      omega
    · have joined : (burned + (totalFees - burned - shared - funded)).toNat =
          burned.toNat + (totalFees - burned - shared - funded).toNat :=
        BitVec.toNat_add_of_lt (by omega)
      have none' : (0 : U256).toNat = 0 := rfl
      simp only [FeeSplitResult.sum, joined, none']
      omega

/-- No product or sum of a block's fee distribution overflows. -/
structure BlockFeesFit (mgr : StakingManager) (schedule : FeeSchedule) (proposer : Address)
    (totalFees : U256) (epoch : U64) : Prop where
  split : ∀ val, mgr.getValidator proposer = some val →
    SplitFits mgr val (splitFeesWith schedule totalFees epoch).validators
  room : mgr.funds + totalFees.toNat < 2 ^ 256

theorem mem_allValidators {address : Address} {val : ValidatorState}
    (found : mgr.getValidator address = some val) : val ∈ mgr.allValidators := by
  unfold getValidator at found
  exact mem_map.mpr ⟨_, AList.mem_lookup_iff.mp found, rfl⟩

theorem pay_if {after : StakingManager} {amount : U256}
    (paid : amount ≠ 0 → Credited mgr after amount.toNat) :
    Credited mgr (if amount = 0 then mgr else after) amount.toNat := by
  split
  · rename_i zero
    subst zero
    exact .refl mgr
  · rename_i nonzero
    exact paid nonzero

theorem distributeBlockFeesWith_credited {proposer treasuryAddress devPoolAddress : Address}
    (delegated : mgr.Delegated)
    (commissions : ∀ val ∈ mgr.allValidators, val.commissionBps.val ≤ 10000)
    (fits : BlockFeesFit mgr schedule proposer totalFees epoch) :
    Credited mgr
      (distributeBlockFeesWith mgr schedule proposer totalFees epoch treasuryAddress devPoolAddress)
      (totalFees.toNat - (splitFeesWith schedule totalFees epoch).burn.toNat) := by
  have sum := @splitFeesWith_sum schedule totalFees epoch
  have room := fits.room
  unfold distributeBlockFeesWith
  by_cases zero : totalFees = 0
  · have nothing : totalFees.toNat - (splitFeesWith schedule totalFees epoch).burn.toNat = 0 := by
      rw [zero]
      exact Nat.zero_sub _
    rw [if_pos zero, nothing]
    exact .refl mgr
  · rw [if_neg zero]
    simp only
    have splitFits := fits.split
    generalize splitFeesWith schedule totalFees epoch = parts at *
    simp only [FeeSplitResult.sum] at sum
    have shared : Credited mgr (if parts.validators = 0 then mgr
        else distributeValidatorShare mgr proposer parts.validators) parts.validators.toNat := by
      apply pay_if
      intro _
      unfold distributeValidatorShare
      cases found : mgr.getValidator proposer with
      | none => exact withCredit_credited (by omega)
      | some val =>
        have member := mem_allValidators found
        exact (splitValidatorReward_exact (splitFits val found) (delegated val member)
          (commissions val member)).credited
    generalize (if parts.validators = 0 then mgr
      else distributeValidatorShare mgr proposer parts.validators) = first at *
    have funded : Credited first (if parts.treasury = 0 then first
        else first.withCredit treasuryAddress parts.treasury) parts.treasury.toNat := by
      apply pay_if
      intro _
      exact withCredit_credited (by rw [shared.funds]; omega)
    generalize (if parts.treasury = 0 then first
      else first.withCredit treasuryAddress parts.treasury) = second at *
    have developed : Credited second (if parts.devPool = 0 then second
        else second.withCredit devPoolAddress parts.devPool) parts.devPool.toNat := by
      apply pay_if
      intro _
      exact withCredit_credited (by rw [funded.funds, shared.funds]; omega)
    have all := (shared.trans funded).trans developed
    have same : parts.validators.toNat + parts.treasury.toNat + parts.devPool.toNat =
        totalFees.toNat - parts.burn.toNat := by omega
    rwa [same] at all

end Fees

section Inflation

open Proportion

variable {mgr after : StakingManager} {val : ValidatorState} {amount tracker : U256}
  {epochLengthBlocks : U64}

/-- No product or sum of an epoch's inflation overflows. -/
structure InflationFits (mgr : StakingManager) (tracker : U256) (epochLengthBlocks : U64) : Prop where
  stakes : ∀ val ∈ mgr.activeValidators, val.selfStake.toNat + val.totalDelegated.toNat < 2 ^ 256
  staked : (mgr.activeValidators.map fun val => val.totalStake.toNat).sum < 2 ^ 256
  products : ∀ val ∈ mgr.activeValidators,
    (totalEmission (totalActiveStaked mgr.activeValidators) epochLengthBlocks).toNat *
      val.totalStake.toNat < 2 ^ 256
  splits : ∀ earned ∈ mgr.activeValidators.zip (validatorEmissions
      (totalEmission (totalActiveStaked mgr.activeValidators) epochLengthBlocks)
      (totalActiveStaked mgr.activeValidators) mgr.activeValidators),
    SplitFits mgr earned.1 earned.2
  room : mgr.funds +
    (totalEmission (totalActiveStaked mgr.activeValidators) epochLengthBlocks).toNat < 2 ^ 256
  tracked : tracker.toNat +
    (totalEmission (totalActiveStaked mgr.activeValidators) epochLengthBlocks).toNat < 2 ^ 256

theorem foldl_add_toNat (stakes : List U256) (start : U256)
    (fits : start.toNat + (stakes.map BitVec.toNat).sum < 2 ^ 256) :
    (stakes.foldl (· + ·) start).toNat = start.toNat + (stakes.map BitVec.toNat).sum := by
  induction stakes generalizing start with
  | nil => simp
  | cons stake stakes ih =>
    rw [map_cons, sum_cons] at fits ⊢
    have next : (start + stake).toNat = start.toNat + stake.toNat :=
      BitVec.toNat_add_of_lt (by omega)
    rw [foldl_cons, ih (start + stake) (by rw [next]; omega), next]
    omega

theorem SplitFits.credited {paid : Nat} (fits : SplitFits mgr val amount)
    (credited : Credited mgr after paid)
    (room : after.funds + amount.toNat < 2 ^ 256) : SplitFits after val amount where
  stake := fits.stake
  selfProduct := fits.selfProduct
  commissionProduct := fits.commissionProduct
  poolProducts := by
    intro row member
    apply fits.poolProducts row
    unfold delegationRows delegationsForValidator at member ⊢
    rwa [credited.delegations] at member
  room := room

theorem emitAll_credited {paid : Nat} (credited : Credited mgr after paid)
    (earned : List (ValidatorState × U256))
    (delegated : ∀ pair ∈ earned, pair.1.totalDelegated.toNat =
      ((mgr.delegationsForValidator pair.1.address).map fun row => row.amount.toNat).sum)
    (commissions : ∀ pair ∈ earned, pair.1.commissionBps.val ≤ 10000)
    (fits : ∀ pair ∈ earned, SplitFits mgr pair.1 pair.2)
    (room : after.funds + ((earned.map fun pair => pair.2.toNat).sum : Nat) < 2 ^ 256) :
    Credited mgr (emitAll after earned) (paid + (earned.map fun pair => pair.2.toNat).sum) := by
  induction earned generalizing after paid with
  | nil => exact credited
  | cons pair earned ih =>
    rw [map_cons, sum_cons] at room ⊢
    have step : Credited after (if pair.2 = 0 then after
        else splitValidatorReward after pair.1 pair.2) pair.2.toNat := by
      apply pay_if
      intro _
      have splitFits := (fits pair mem_cons_self).credited credited (by omega)
      have sums := delegated pair mem_cons_self
      have same : after.delegationsForValidator pair.1.address =
          mgr.delegationsForValidator pair.1.address := by
        unfold delegationsForValidator
        rw [credited.delegations]
      rw [← same] at sums
      exact (splitValidatorReward_exact splitFits sums
        (commissions pair mem_cons_self)).credited
    have rest := ih (credited.trans step)
      (fun other member => delegated other (mem_cons_of_mem _ member))
      (fun other member => commissions other (mem_cons_of_mem _ member))
      (fun other member => fits other (mem_cons_of_mem _ member))
      (by rw [step.funds]; omega)
    rw [Nat.add_assoc] at rest
    exact rest

theorem mem_activeValidators (member : val ∈ mgr.activeValidators) : val ∈ mgr.allValidators := by
  unfold activeValidators at member
  rw [mem_insertionSort] at member
  exact (mem_filter.mp member).1

theorem distributeValidatorInflation_credited (delegated : mgr.Delegated)
    (commissions : ∀ val ∈ mgr.allValidators, val.commissionBps.val ≤ 10000)
    (fits : InflationFits mgr tracker epochLengthBlocks) :
    Credited mgr (distributeValidatorInflation mgr tracker epochLengthBlocks).1
        (distributeValidatorInflation mgr tracker epochLengthBlocks).2.2.toNat ∧
      (distributeValidatorInflation mgr tracker epochLengthBlocks).2.1.toNat =
        tracker.toNat + (distributeValidatorInflation mgr tracker epochLengthBlocks).2.2.toNat := by
  have nothing : Credited mgr mgr (0 : U256).toNat ∧ tracker.toNat = tracker.toNat + (0 : U256).toNat :=
    ⟨.refl mgr, rfl⟩
  unfold distributeValidatorInflation
  simp only
  split
  · exact nothing
  rename_i some'
  split
  · exact nothing
  rename_i nonzero
  split
  · exact nothing
  refine ⟨?_, BitVec.toNat_add_of_lt fits.tracked⟩
  have stakedSum : (totalActiveStaked mgr.activeValidators).toNat =
      (mgr.activeValidators.map fun val => val.totalStake.toNat).sum := by
    have mapped : (mgr.activeValidators.map ValidatorState.totalStake).map BitVec.toNat =
        mgr.activeValidators.map fun val => val.totalStake.toNat := by
      rw [map_map]
      rfl
    have folded := foldl_add_toNat (mgr.activeValidators.map ValidatorState.totalStake) 0 (by
      rw [mapped]
      simpa using fits.staked)
    rw [mapped] at folded
    simpa [totalActiveStaked] using folded
  have positive : 0 < (totalActiveStaked mgr.activeValidators).toNat := by
    rcases Nat.eq_zero_or_pos (totalActiveStaked mgr.activeValidators).toNat with zero | positive
    · exact absurd (BitVec.eq_of_toNat_eq zero) nonzero
    · exact positive
  obtain ⟨vals, last, isActive⟩ : ∃ vals last, mgr.activeValidators = vals ++ [last] := by
    rcases eq_nil_or_concat mgr.activeValidators with none' | ⟨vals, last, isActive⟩
    · simp [none'] at some'
    · exact ⟨vals, last, isActive.trans (concat_eq_append)⟩
  have shares := @prorate_exact _ ValidatorState.totalStake
    (totalEmission (totalActiveStaked mgr.activeValidators) epochLengthBlocks)
    (totalActiveStaked mgr.activeValidators) vals last positive (by rw [← isActive, stakedSum])
    (fun val member => fits.products val (by rw [isActive]; exact mem_append_left _ member))
  rw [← isActive] at shares
  have paid : ((mgr.activeValidators.zip (validatorEmissions
      (totalEmission (totalActiveStaked mgr.activeValidators) epochLengthBlocks)
      (totalActiveStaked mgr.activeValidators) mgr.activeValidators)).map
        fun pair => pair.2.toNat).sum =
      (totalEmission (totalActiveStaked mgr.activeValidators) epochLengthBlocks).toNat := by
    rw [map_zip_snd _ _ (by rw [validatorEmissions, prorate_length])]
    exact shares.2.2.1
  have active : ∀ pair ∈ mgr.activeValidators.zip (validatorEmissions
      (totalEmission (totalActiveStaked mgr.activeValidators) epochLengthBlocks)
      (totalActiveStaked mgr.activeValidators) mgr.activeValidators), pair.1 ∈ mgr.allValidators := by
    intro pair member
    exact mem_activeValidators (of_mem_zip member).1
  have emitted := emitAll_credited (.refl mgr) _ (fun pair member => delegated pair.1 (active pair member))
    (fun pair member => commissions pair.1 (active pair member)) fits.splits
    (by rw [paid]; exact fits.room)
  rwa [paid, Nat.zero_add] at emitted

end Inflation

/-- Fees, block fees, inflation and each validator's split are paid out exactly and in proportion. -/
structure RewardsExact (mgr : StakingManager) : Prop where
  fees : ∀ schedule totalFees epoch, (splitFeesWith schedule totalFees epoch).sum = totalFees.toNat
  blockFees : ∀ schedule proposer totalFees epoch treasuryAddress devPoolAddress,
    BlockFeesFit mgr schedule proposer totalFees epoch →
      Credited mgr (distributeBlockFeesWith mgr schedule proposer totalFees epoch treasuryAddress
        devPoolAddress) (totalFees.toNat - (splitFeesWith schedule totalFees epoch).burn.toNat)
  inflation : ∀ tracker epochLengthBlocks, InflationFits mgr tracker epochLengthBlocks →
    Credited mgr (distributeValidatorInflation mgr tracker epochLengthBlocks).1
        (distributeValidatorInflation mgr tracker epochLengthBlocks).2.2.toNat ∧
      (distributeValidatorInflation mgr tracker epochLengthBlocks).2.1.toNat =
        tracker.toNat + (distributeValidatorInflation mgr tracker epochLengthBlocks).2.2.toNat
  splits : ∀ val ∈ mgr.allValidators, ∀ amount, SplitFits mgr val amount → SplitExact mgr val amount

def delegatedValidator (commissionBps : Bps) : ValidatorState where
  address := 1
  pubkey := 0
  commissionBps := commissionBps
  selfStake := 0
  totalDelegated := 2
  status := .active
  jailedUntil := none
  lastCommissionChangeBlock := none
  oracleSigner := none

/-- One validator without a stake of its own and two delegations of a unit. -/
def delegatedState (commissionBps : Bps) : StakingManager where
  validators := (∅ : AList fun _ : Address => ValidatorState).insert 1
    (delegatedValidator commissionBps)
  delegations := ((∅ : AList fun _ : DelegationKey => Delegation).insert (2, 1)
    { delegator := 2, validator := 1, amount := 1, unbonding := [] }).insert (3, 1)
    { delegator := 3, validator := 1, amount := 1, unbonding := [] }

theorem delegatedState_allValidators (commissionBps : Bps) :
    (delegatedState commissionBps).allValidators = [delegatedValidator commissionBps] := by
  rfl

theorem delegatedState_delegated (commissionBps : Bps) :
    (delegatedState commissionBps).Delegated := by
  intro val member
  rw [delegatedState_allValidators, mem_singleton] at member
  subst member
  rfl

end TorusHyperBft.Staking
