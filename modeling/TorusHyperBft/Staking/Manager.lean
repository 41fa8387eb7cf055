import TorusHyperBft.Bytes

namespace TorusHyperBft.Staking

/-! The staking ledger: its rows and the operations on them.

An operation that fails keeps what it wrote before it failed; a value row is missing, not zero. -/

abbrev Address := Fin (2 ^ 160)

abbrev U256 := BitVec 256

abbrev Bps := Fin (2 ^ 16)

inductive ValidatorStatus where
  | candidate
  | active
  | jailed
  | tombstoned
deriving DecidableEq

structure ValidatorState where
  address : Address
  pubkey : BitVec 256
  commissionBps : Bps
  selfStake : U256
  totalDelegated : U256
  status : ValidatorStatus
  jailedUntil : Option U64
  lastCommissionChangeBlock : Option U64
  oracleSigner : Option Address
deriving DecidableEq

def ValidatorState.totalStake (validator : ValidatorState) : U256 :=
  validator.selfStake + validator.totalDelegated

structure UnbondingEntry where
  amount : U256
  releaseBlock : U64
deriving DecidableEq

structure Delegation where
  delegator : Address
  validator : Address
  amount : U256
  unbonding : List UnbondingEntry
deriving DecidableEq

structure PermanentStakeInfo where
  staker : Address
  amount : U256
  lockedAtBlock : U64
deriving DecidableEq

structure PendingRewards where
  address : Address
  amount : U256
deriving DecidableEq

inductive SlashReason where
  | doubleSign
  | downtime
  | jailVote
  | invalidAttestation
deriving DecidableEq

structure SlashRecord where
  validator : Address
  slashFractionBps : Bps
  slashedAmount : U256
  reason : SlashReason
  blockHeight : U64
deriving DecidableEq

structure JailVoteRecord where
  voter : Address
  target : Address
  stakeWeight : U256
  blockHeight : U64
deriving DecidableEq

inductive EconomicsError where
  | insufficientBalance (balance need : U256)
  | validatorNotFound (address : Address)
  | validatorAlreadyRegistered (address : Address)
  | servingOracleSigner (address : Address)
  | delegationNotFound (delegator validator : Address)
  | insufficientDelegation (delegated amount : U256)
  | belowMinSelfDelegation (amount minimum : U256)
  | commissionTooHigh (rateBps : Bps)
  | validatorJailed (address : Address)
  | validatorTombstoned (address : Address)
  | noRewards (address : Address)
  | invalidParameterValue (key reason : String)
  | validatorNotJailed (address : Address)
  | unjailCooldownNotExpired (address : Address)
  | unjailInsufficientStake (address : Address) (selfStake minimum : U256)
  | tooManyUnbondingEntries (delegator validator : Address)
  | permanentStakeNotFound (address : Address)
  | permanentUnlockExceedsStake (amount stake : U256)
  | noMaturedUnbonding (address : Address)
  | overflow (reason : String)
deriving DecidableEq

abbrev DelegationKey := Address × Address

/-- The staking rows, with the balances of the accounts. -/
structure StakingManager where
  accounts : AList fun _ : Address => U256 := ∅
  validators : AList fun _ : Address => ValidatorState := ∅
  delegations : AList fun _ : DelegationKey => Delegation := ∅
  permanent : AList fun _ : Address => PermanentStakeInfo := ∅
  rewards : AList fun _ : Address => PendingRewards := ∅
  cumulativeBurned : U256 := 0
  /-- The validator an address serves as the oracle signer of. -/
  oracleSigners : AList fun _ : Address => Address := ∅
  jailVotes : AList fun _ : Address × Address => JailVoteRecord := ∅
  slashRecords : AList fun _ : Address × U64 => SlashRecord := ∅

def maxCommissionBps : Nat := 5000
def minSelfDelegation : U256 := 0x21E19E0C9BAB2400000#256
def unbondingPeriod : U64 := 302400
def maxUnbondingEntries : Nat := 100
def downtimeSlashBps : Bps := 10
def jailDurationBlocks : U64 := 86400
def jailVoteExpiryBlocks : U64 := 43200

abbrev StakingM := EStateM EconomicsError StakingManager

def okOr {α : Type} (error : EconomicsError) : Option α → StakingM α
  | some value => pure value
  | none => throw error

namespace StakingManager

variable (mgr : StakingManager)

def balance (address : Address) : U256 := (mgr.accounts.lookup address).getD 0

def putBalance (address : Address) (amount : U256) : StakingManager :=
  { mgr with accounts := mgr.accounts.insert address amount }

def getValidator (address : Address) : Option ValidatorState := mgr.validators.lookup address

def putValidator (address : Address) (state : ValidatorState) : StakingManager :=
  { mgr with validators := mgr.validators.insert address state }

def getDelegationRaw (key : DelegationKey) : Option Delegation := mgr.delegations.lookup key

def putDelegationRaw (key : DelegationKey) (delegation : Delegation) : StakingManager :=
  { mgr with delegations := mgr.delegations.insert key delegation }

def deleteDelegationRaw (key : DelegationKey) : StakingManager :=
  { mgr with delegations := mgr.delegations.erase key }

def getPermanentStake (address : Address) : Option PermanentStakeInfo :=
  mgr.permanent.lookup address

def putPermanentStake (address : Address) (info : PermanentStakeInfo) : StakingManager :=
  { mgr with permanent := mgr.permanent.insert address info }

def deletePermanentStake (address : Address) : StakingManager :=
  { mgr with permanent := mgr.permanent.erase address }

def getPendingRewards (address : Address) : Option PendingRewards := mgr.rewards.lookup address

def deletePendingRewards (address : Address) : StakingManager :=
  { mgr with rewards := mgr.rewards.erase address }

def executeBurn (amount : U256) : StakingManager :=
  if amount = 0 then mgr else { mgr with cumulativeBurned := mgr.cumulativeBurned + amount }

def putSlashRecord (validator : Address) (blockHeight : U64) (record : SlashRecord) :
    StakingManager :=
  { mgr with slashRecords := mgr.slashRecords.insert (validator, blockHeight) record }

def putJailVote (target voter : Address) (vote : JailVoteRecord) : StakingManager :=
  { mgr with jailVotes := mgr.jailVotes.insert (target, voter) vote }

def deleteJailVote (key : Address × Address) : StakingManager :=
  { mgr with jailVotes := mgr.jailVotes.erase key }

def allValidators : List ValidatorState := mgr.validators.entries.map Sigma.snd

def delegationsForDelegator (delegator : Address) : List Delegation :=
  (mgr.delegations.entries.filter fun row => row.1.1 = delegator).map Sigma.snd

def delegationsForValidator (validator : Address) : List Delegation :=
  (mgr.delegations.entries.filter fun row => row.1.2 = validator).map Sigma.snd

def clearJailVotes (target : Address) : StakingManager :=
  ((mgr.jailVotes.entries.filter fun row => row.1.1 = target).map Sigma.fst).foldl deleteJailVote mgr

end StakingManager

open StakingManager

def debitBalance (address : Address) (amount : U256) : StakingM Unit := do
  let balance := (← get).balance address
  if balance < amount then throw (.insufficientBalance balance amount)
  else modify fun mgr => mgr.putBalance address (balance - amount)

def creditBalance (address : Address) (amount : U256) : StakingM Unit :=
  modify fun mgr => mgr.putBalance address (mgr.balance address + amount)

def registerValidator (sender : Address) (pubkey : BitVec 256) (commissionBps : Bps)
    (selfStake : U256) : StakingM Unit := do
  if commissionBps.val > maxCommissionBps then throw (.commissionTooHigh commissionBps)
  else if selfStake < minSelfDelegation then
    throw (.belowMinSelfDelegation selfStake minSelfDelegation)
  else if ((← get).getValidator sender).isSome then throw (.validatorAlreadyRegistered sender)
  else if ((← get).oracleSigners.lookup sender).isSome then throw (.servingOracleSigner sender)
  else
    debitBalance sender selfStake
    modify fun mgr => mgr.putValidator sender
      { address := sender
        pubkey := pubkey
        commissionBps := commissionBps
        selfStake := selfStake
        totalDelegated := 0
        status := .candidate
        jailedUntil := none
        lastCommissionChangeBlock := none
        oracleSigner := none }

def delegate (delegator validator : Address) (amount : U256) : StakingM Unit := do
  if amount = 0 then pure ()
  else
    let val ← okOr (.validatorNotFound validator) ((← get).getValidator validator)
    if val.status = .jailed then throw (.validatorJailed validator)
    else if val.status = .tombstoned then throw (.validatorTombstoned validator)
    else
      debitBalance delegator amount
      modify fun mgr =>
        let delegation := (mgr.getDelegationRaw (delegator, validator)).getD
          { delegator := delegator, validator := validator, amount := 0, unbonding := [] }
        mgr.putDelegationRaw (delegator, validator)
          { delegation with amount := delegation.amount + amount }
      modify fun mgr =>
        mgr.putValidator validator { val with totalDelegated := val.totalDelegated + amount }

def undelegate (delegator validator : Address) (amount : U256) (currentBlock : U64) :
    StakingM Unit := do
  if amount = 0 then pure ()
  else
    let val ← okOr (.validatorNotFound validator) ((← get).getValidator validator)
    let delegation ← okOr (.delegationNotFound delegator validator)
      ((← get).getDelegationRaw (delegator, validator))
    if delegation.amount < amount then throw (.insufficientDelegation delegation.amount amount)
    else if delegation.unbonding.length ≥ maxUnbondingEntries then
      throw (.tooManyUnbondingEntries delegator validator)
    else
      modify fun mgr => mgr.putDelegationRaw (delegator, validator)
        { delegation with
          amount := delegation.amount - amount
          unbonding := delegation.unbonding ++
            [{ amount := amount, releaseBlock := currentBlock + unbondingPeriod }] }
      modify fun mgr =>
        mgr.putValidator validator { val with totalDelegated := val.totalDelegated - amount }

def UnbondingEntry.matured (currentBlock : U64) (entry : UnbondingEntry) : Bool :=
  currentBlock ≥ entry.releaseBlock

def released (currentBlock : U64) (entries : List UnbondingEntry) : U256 :=
  (entries.filter (·.matured currentBlock)).foldl (fun sum entry => sum + entry.amount) 0

def StakingManager.settleDelegation (mgr : StakingManager) (key : DelegationKey)
    (delegation : Delegation) : StakingManager :=
  if delegation.amount = 0 ∧ delegation.unbonding = [] then mgr.deleteDelegationRaw key
  else mgr.putDelegationRaw key delegation

def Delegation.remaining (delegation : Delegation) (currentBlock : U64) : Delegation :=
  { delegation with
    unbonding := delegation.unbonding.filter fun entry => !entry.matured currentBlock }

def processUnbonding (delegator validator : Address) (currentBlock : U64) : StakingM U256 := do
  match (← get).getDelegationRaw (delegator, validator) with
  | none => pure 0
  | some delegation =>
    let amount := released currentBlock delegation.unbonding
    if amount ≠ 0 then creditBalance delegator amount
    modify fun mgr =>
      mgr.settleDelegation (delegator, validator) (delegation.remaining currentBlock)
    pure amount

def overflowReason : String := "claim_unbonded: released amount overflows"

def checkedAdd (left right : U256) : Option U256 :=
  if left.toNat + right.toNat < 2 ^ 256 then some (left + right) else none

/-- The rows of a delegator with matured entries, and the checked sum of these entries. -/
def claimRows (currentBlock : U64) :
    List Delegation → U256 → List Delegation → Except EconomicsError (U256 × List Delegation)
  | [], total, rows => .ok (total, rows)
  | delegation :: rest, total, rows =>
    let matured := delegation.unbonding.filter (·.matured currentBlock)
    if matured = [] then claimRows currentBlock rest total rows
    else
      match matured.foldlM (fun sum entry => checkedAdd sum entry.amount) total with
      | none => .error (.overflow overflowReason)
      | some total => claimRows currentBlock rest total (rows ++ [delegation.remaining currentBlock])

def claimUnbonded (delegator : Address) (currentBlock : U64) : StakingM U256 := do
  let mgr ← get
  match claimRows currentBlock (mgr.delegationsForDelegator delegator) 0 [] with
  | .error error => throw error
  | .ok (total, rows) =>
    if rows = [] then throw (.noMaturedUnbonding delegator)
    else
      let balance ← okOr (.overflow overflowReason) (checkedAdd (mgr.balance delegator) total)
      -- One atomic write: every row, then the account.
      modify fun mgr => (rows.foldl (fun mgr delegation =>
        mgr.settleDelegation (delegator, delegation.validator) delegation) mgr).putBalance
          delegator balance
      pure total

def permanentStake (staker : Address) (amount : U256) (currentBlock : U64) : StakingM Unit := do
  if amount = 0 then pure ()
  else
    debitBalance staker amount
    modify fun mgr =>
      let info := (mgr.getPermanentStake staker).getD
        { staker := staker, amount := 0, lockedAtBlock := currentBlock }
      mgr.putPermanentStake staker { info with amount := info.amount + amount }

inductive StagedWrite where
  | permanent (staker : Address) (info : Option PermanentStakeInfo)
  | clearRewards (staker : Address)
  | account (address : Address) (balance : U256)
deriving DecidableEq

def StakingManager.applyStagedWrite (mgr : StakingManager) : StagedWrite → StakingManager
  | .permanent staker none => mgr.deletePermanentStake staker
  | .permanent staker (some info) => mgr.putPermanentStake staker info
  | .clearRewards staker => mgr.deletePendingRewards staker
  | .account address balance => mgr.putBalance address balance

def stageGovernanceUnlockPermanentStake (staker : Address) (amount : U256) :
    StakingM (List StagedWrite) := do
  if amount = 0 then
    throw (.invalidParameterValue "amount" "permanent unlock amount must be > 0")
  else
    let mgr ← get
    let info ← okOr (.permanentStakeNotFound staker) (mgr.getPermanentStake staker)
    if amount > info.amount then throw (.permanentUnlockExceedsStake amount info.amount)
    else
      let stake := if amount = info.amount then none
        else some { info with staker := staker, amount := info.amount - amount }
      let claimedRewards := ((mgr.getPendingRewards staker).map PendingRewards.amount).getD 0
      let clears := if claimedRewards ≠ 0 then [.clearRewards staker] else []
      pure (.permanent staker stake :: clears ++
        [.account staker (mgr.balance staker + (amount + claimedRewards))])

def governanceUnlockPermanentStake (staker : Address) (amount : U256) : StakingM Unit := do
  let writes ← stageGovernanceUnlockPermanentStake staker amount
  modify fun mgr => writes.foldl applyStagedWrite mgr

def claimRewards (address : Address) : StakingM U256 := do
  let rewards ← okOr (.noRewards address) ((← get).getPendingRewards address)
  if rewards.amount = 0 then throw (.noRewards address)
  else
    creditBalance address rewards.amount
    modify fun mgr => mgr.deletePendingRewards address
    pure rewards.amount

def slashOf (amount : U256) (fractionBps : Bps) : U256 :=
  amount * BitVec.ofNat 256 fractionBps.val / 10000

def StakingManager.slashDelegation (validator : Address) (fractionBps : Bps)
    (progress : StakingManager × U256) (del : Delegation) : StakingManager × U256 :=
  let delSlash := slashOf del.amount fractionBps
  (if delSlash = 0 then progress.1
    else progress.1.putDelegationRaw (del.delegator, validator)
      { del with amount := del.amount - delSlash },
   progress.2 + delSlash)

def StakingManager.slashDelegations (mgr : StakingManager) (validator : Address)
    (fractionBps : Bps) (selfSlash : U256) : StakingManager × U256 :=
  (mgr.delegationsForValidator validator).foldl (slashDelegation validator fractionBps)
    (mgr, selfSlash)

def StakingManager.delegatedSum (mgr : StakingManager) (validator : Address) : U256 :=
  (mgr.delegationsForValidator validator).foldl (fun sum del => sum + del.amount) 0

def ValidatorState.autoJail (val : ValidatorState) (currentBlock : U64) : ValidatorState :=
  if val.selfStake < minSelfDelegation ∧ val.status ≠ .tombstoned ∧ val.status ≠ .jailed then
    { val with status := .jailed, jailedUntil := some (currentBlock + jailDurationBlocks) }
  else val

def slash (validatorAddr : Address) (fractionBps : Bps) (reason : SlashReason)
    (currentBlock : U64) : StakingM U256 := do
  let mgr ← get
  let val ← okOr (.validatorNotFound validatorAddr) (mgr.getValidator validatorAddr)
  let selfSlash := slashOf val.selfStake fractionBps
  let slashed := mgr.slashDelegations validatorAddr fractionBps selfSlash
  -- The total is recomputed from the rows as they now stand.
  let updated := { val with
    selfStake := val.selfStake - selfSlash
    totalDelegated := slashed.1.delegatedSum validatorAddr }
  set slashed.1
  modify fun mgr => mgr.putValidator validatorAddr (updated.autoJail currentBlock)
  modify fun mgr => mgr.executeBurn slashed.2
  modify fun mgr => mgr.putSlashRecord validatorAddr currentBlock
    { validator := validatorAddr
      slashFractionBps := fractionBps
      slashedAmount := slashed.2
      reason := reason
      blockHeight := currentBlock }
  pure slashed.2

def jailValidator (validatorAddr : Address) (durationBlocks currentBlock : U64) :
    StakingM Unit := do
  let val ← okOr (.validatorNotFound validatorAddr) ((← get).getValidator validatorAddr)
  if val.status = .tombstoned then throw (.validatorTombstoned validatorAddr)
  else
    modify fun mgr => mgr.putValidator validatorAddr
      { val with status := .jailed, jailedUntil := some (currentBlock + durationBlocks) }

def tombstoneValidator (validatorAddr : Address) : StakingM Unit := do
  let val ← okOr (.validatorNotFound validatorAddr) ((← get).getValidator validatorAddr)
  modify fun mgr => mgr.putValidator validatorAddr
    { val with status := .tombstoned, jailedUntil := none }

def JailVoteRecord.expired (vote : JailVoteRecord) (currentBlock : U64) : Bool :=
  currentBlock > vote.blockHeight + jailVoteExpiryBlocks

def StakingManager.voteWeight (mgr : StakingManager) (vote : JailVoteRecord) : U256 :=
  match mgr.getValidator vote.voter with
  | some val => if val.status = .active then val.totalStake else 0
  | none => 0

def tallyJailVotes (target : Address) (currentBlock : U64) : StakingM U256 := do
  let mgr ← get
  let entries := mgr.jailVotes.entries.filter fun row => row.1.1 = target
  let standing := entries.filter fun row => !row.2.expired currentBlock
  let expired := entries.filter fun row => row.2.expired currentBlock
  modify fun mgr => (expired.map Sigma.fst).foldl deleteJailVote mgr
  pure (standing.foldl (fun sum row => sum + mgr.voteWeight row.2) 0)

def StakingManager.totalActiveStake (mgr : StakingManager) : U256 :=
  (mgr.allValidators.filter fun val => val.status = .active).foldl
    (fun sum val => sum + val.totalStake) 0

def recordJailVote (voter target : Address) (currentBlock : U64) : StakingM Bool := do
  let voterVal ← okOr (.validatorNotFound voter) ((← get).getValidator voter)
  if voterVal.status ≠ .active then throw (.validatorNotFound voter)
  else
    let targetVal ← okOr (.validatorNotFound target) ((← get).getValidator target)
    if targetVal.status = .tombstoned then throw (.validatorTombstoned target)
    else
      modify fun mgr => mgr.putJailVote target voter
        { voter := voter
          target := target
          stakeWeight := voterVal.totalStake
          blockHeight := currentBlock }
      let totalVoteWeight ← tallyJailVotes target currentBlock
      let totalActiveStake := (← get).totalActiveStake
      if totalVoteWeight * 3 > totalActiveStake * 2 then
        let _ ← slash target downtimeSlashBps .jailVote currentBlock
        jailValidator target jailDurationBlocks currentBlock
        pure true
      else pure false

def unjail (validatorAddr : Address) (currentBlock : U64) : StakingM Unit := do
  let val ← okOr (.validatorNotFound validatorAddr) ((← get).getValidator validatorAddr)
  if val.status = .tombstoned then throw (.validatorTombstoned validatorAddr)
  else if val.status ≠ .jailed then throw (.validatorNotJailed validatorAddr)
  else if val.jailedUntil.any (currentBlock < ·) then throw (.unjailCooldownNotExpired validatorAddr)
  else if val.selfStake < minSelfDelegation then
    throw (.unjailInsufficientStake validatorAddr val.selfStake minSelfDelegation)
  else
    modify fun mgr => mgr.putValidator validatorAddr
      { val with status := .candidate, jailedUntil := none }
    modify fun mgr => mgr.clearJailVotes validatorAddr

def topUpSelfStake (validatorAddr : Address) (amount : U256) : StakingM Unit := do
  if amount = 0 then pure ()
  else
    let val ← okOr (.validatorNotFound validatorAddr) ((← get).getValidator validatorAddr)
    debitBalance validatorAddr amount
    modify fun mgr => mgr.putValidator validatorAddr
      { val with selfStake := val.selfStake + amount }

inductive Operation where
  | registerValidator (sender : Address) (pubkey : BitVec 256) (commissionBps : Bps)
      (selfStake : U256)
  | delegate (delegator validator : Address) (amount : U256)
  | undelegate (delegator validator : Address) (amount : U256) (currentBlock : U64)
  | processUnbonding (delegator validator : Address) (currentBlock : U64)
  | claimUnbonded (delegator : Address) (currentBlock : U64)
  | permanentStake (staker : Address) (amount : U256) (currentBlock : U64)
  | governanceUnlock (staker : Address) (amount : U256)
  | claimRewards (address : Address)
  | topUpSelfStake (validator : Address) (amount : U256)
  | slash (validator : Address) (fractionBps : Bps) (reason : SlashReason) (currentBlock : U64)
  | jail (validator : Address) (durationBlocks currentBlock : U64)
  | unjail (validator : Address) (currentBlock : U64)
  | tombstone (validator : Address)
  | recordJailVote (voter target : Address) (currentBlock : U64)
deriving DecidableEq

def Operation.run : Operation → StakingM Unit
  | .registerValidator sender pubkey commissionBps selfStake =>
    Staking.registerValidator sender pubkey commissionBps selfStake
  | .delegate delegator validator amount => Staking.delegate delegator validator amount
  | .undelegate delegator validator amount currentBlock =>
    Staking.undelegate delegator validator amount currentBlock
  | .processUnbonding delegator validator currentBlock => do
      let _ ← Staking.processUnbonding delegator validator currentBlock
  | .claimUnbonded delegator currentBlock => do
      let _ ← Staking.claimUnbonded delegator currentBlock
  | .permanentStake staker amount currentBlock => Staking.permanentStake staker amount currentBlock
  | .governanceUnlock staker amount => governanceUnlockPermanentStake staker amount
  | .claimRewards address => do let _ ← Staking.claimRewards address
  | .topUpSelfStake validator amount => Staking.topUpSelfStake validator amount
  | .slash validator fractionBps reason currentBlock => do
      let _ ← Staking.slash validator fractionBps reason currentBlock
  | .jail validator durationBlocks currentBlock => jailValidator validator durationBlocks currentBlock
  | .unjail validator currentBlock => Staking.unjail validator currentBlock
  | .tombstone validator => tombstoneValidator validator
  | .recordJailVote voter target currentBlock => do
      let _ ← Staking.recordJailVote voter target currentBlock

/-- Members become active and others candidates; the jailed and the tombstoned stay so. -/
def StakingManager.updateStatus (active : List Address) (mgr : StakingManager) (val : ValidatorState) :
    StakingManager :=
  if val.status = .jailed ∨ val.status = .tombstoned then mgr
  else
    let newStatus := if val.address ∈ active then ValidatorStatus.active else .candidate
    if val.status ≠ newStatus then mgr.putValidator val.address { val with status := newStatus }
    else mgr

def StakingManager.updateValidatorStatuses (mgr : StakingManager) (active : List Address) :
    StakingManager :=
  mgr.allValidators.foldl (updateStatus active) mgr

theorem StakingManager.updateStatus_cases (active : List Address) (state : StakingManager)
    (row : ValidatorState) :
    state.updateStatus active row = state ∨
      ¬ (row.status = .jailed ∨ row.status = .tombstoned) ∧
        ∃ status, state.updateStatus active row = state.putValidator row.address { row with status } := by
  unfold StakingManager.updateStatus
  by_cases held : row.status = .jailed ∨ row.status = .tombstoned
  · exact .inl (if_pos held)
  · rw [if_neg held]
    generalize (if row.address ∈ active then ValidatorStatus.active else .candidate) = newStatus
    by_cases changes : row.status ≠ newStatus
    · exact .inr ⟨held, newStatus, if_pos changes⟩
    · exact .inl (if_neg changes)

end TorusHyperBft.Staking
