import TorusHyperBft.Staking.Keys

namespace TorusHyperBft.Staking

open List

/-! Jail votes over whole runs: what a verdict needs, and how often it punishes. -/

open Rows StakingManager Program

/-- A staking operation, or the rotation to the members of an epoch. -/
inductive Event where
  | operate (op : Operation)
  | rotate (active : List Address)
deriving DecidableEq

def StakingManager.next (mgr : StakingManager) : Event → StakingManager
  | .operate op => mgr.step op
  | .rotate active => mgr.updateValidatorStatuses active

def StakingManager.reach (mgr : StakingManager) (events : List Event) : StakingManager :=
  events.foldl next mgr

def count (counts : StakingManager → Event → Bool) : StakingManager → List Event → Nat
  | _, [] => 0
  | mgr, event :: rest => (counts mgr event).toNat + count counts (mgr.next event) rest

def StakingManager.convicts (target : Address) (mgr : StakingManager) : Event → Bool
  | .operate (.recordJailVote voter against currentBlock) =>
    against = target && match recordJailVote voter against currentBlock mgr with
      | .ok reached _ => reached
      | .error _ _ => false
  | _ => false

/-- A vote, against anyone, moves the block at which the target may leave its jail. -/
def StakingManager.movesRelease (target : Address) (mgr : StakingManager) : Event → Bool
  | .operate (.recordJailVote voter against currentBlock) =>
    ((mgr.next (.operate (.recordJailVote voter against currentBlock))).getValidator target).map
      ValidatorState.jailedUntil ≠ (mgr.getValidator target).map ValidatorState.jailedUntil
  | _ => false

def StakingManager.releases (target : Address) (mgr : StakingManager) : Event → Bool
  | .operate (.unjail validator currentBlock) =>
    validator = target && match unjail validator currentBlock mgr with
      | .ok _ _ => true
      | .error _ _ => false
  | _ => false

def ValidatorState.activeStake (val : ValidatorState) : Int :=
  if val.status = .active then val.selfStake.toNat + val.totalDelegated.toNat else 0

namespace StakingManager

variable (mgr : StakingManager)

def activeStake : Int := total (fun _ val => val.activeStake) mgr.validators

def stands (target : Address) (currentBlock : U64) (voter : Address) : Bool :=
  (mgr.jailVotes.lookup (target, voter)).any fun vote => !vote.expired currentBlock

def votingStake (target : Address) (currentBlock : U64) : Int :=
  total (fun voter val => if mgr.stands target currentBlock voter then val.activeStake else 0)
    mgr.validators

def voted (voter target : Address) (voterVal : ValidatorState) (currentBlock : U64) : StakingManager :=
  mgr.putJailVote target voter
    { voter := voter
      target := target
      stakeWeight := voterVal.totalStake
      blockHeight := currentBlock }

/-- With this vote, more than two thirds of the active stake stand against the target. -/
def Exceeds (voter target : Address) (currentBlock : U64) : Prop :=
  ∃ voterVal, mgr.getValidator voter = some voterVal ∧ voterVal.status = .active ∧
    mgr.activeStake * 2 < (mgr.voted voter target voterVal currentBlock).votingStake target currentBlock * 3

/-- The target is in jail. -/
def Jailed (target : Address) : Prop :=
  ∃ val, mgr.getValidator target = some val ∧ val.status = .jailed

/-- A vote lies under its voter. -/
def VotesKeyed : Prop :=
  ∀ key vote, mgr.jailVotes.lookup key = some vote → vote.voter = key.2

/-- A validator lies under its own address. -/
def RowsKeyed : Prop := ∀ address val, mgr.getValidator address = some val → val.address = address

/-- Votes and validators lie under their own keys. -/
structure Keyed : Prop where
  votes : mgr.VotesKeyed
  rows : mgr.RowsKeyed

/-- The vote does not find a jailed target convicted, and the stakes fit their words. -/
def Admissible : Event → Prop
  | .operate (.recordJailVote voter target currentBlock) =>
    mgr.activeStake * 3 < 2 ^ 256 ∧ (mgr.Jailed target → ¬ mgr.Exceeds voter target currentBlock)
  | _ => True

end StakingManager

/-- Every event of the run is admissible where it comes. -/
def Admitted : StakingManager → List Event → Prop
  | _, [] => True
  | mgr, event :: rest => mgr.Admissible event ∧ Admitted (mgr.next event) rest

section Tally

variable {mgr : StakingManager} {target : Address} {currentBlock : U64}

theorem activeStake_nonneg (val : ValidatorState) : 0 ≤ val.activeStake := by
  unfold ValidatorState.activeStake
  split <;> omega

theorem totalStake_toNat (fits : mgr.activeStake * 3 < 2 ^ 256) {address : Address}
    {val : ValidatorState} (found : mgr.getValidator address = some val)
    (active : val.status = .active) : (val.totalStake.toNat : Int) = val.activeStake := by
  have least : val.activeStake ≤ mgr.activeStake :=
    le_total (fun _ val => activeStake_nonneg val) found
  have sum : val.activeStake = val.selfStake.toNat + val.totalDelegated.toNat := if_pos active
  rw [ValidatorState.totalStake, BitVec.toNat_add_of_lt (by omega), sum]
  push_cast
  rfl

theorem totalActiveStake_toNat (fits : mgr.activeStake * 3 < 2 ^ 256) :
    (mgr.totalActiveStake.toNat : Int) = mgr.activeStake := by
  have rows : ((mgr.allValidators.filter fun val => val.status = .active).map
      fun val => (val.totalStake.toNat : Int)).sum = mgr.activeStake := by
    rw [sum_filter, allValidators, map_map]
    unfold StakingManager.activeStake total
    congr 1
    apply map_congr_left
    intro row member
    by_cases active : row.2.status = .active
    · simp only [Function.comp_apply, active, decide_true, if_true]
      exact totalStake_toNat fits (mem_entries_lookup member) active
    · simp [Function.comp_apply, ValidatorState.activeStake, active]
  have nonneg : 0 ≤ mgr.activeStake := total_nonneg fun _ val => activeStake_nonneg val
  rw [totalActiveStake, foldl_amounts ValidatorState.totalStake _ 0 (by rw [rows]; simp; omega), rows]
  simp

def StakingManager.standingVotes (mgr : StakingManager) (target : Address) (currentBlock : U64) :
    List (Sigma fun _ : Address × Address => JailVoteRecord) :=
  (mgr.jailVotes.entries.filter fun row => row.1.1 = target).filter
    fun row => !row.2.expired currentBlock

def StakingManager.tally (mgr : StakingManager) (target : Address) (currentBlock : U64) : U256 :=
  (mgr.standingVotes target currentBlock).foldl (fun sum row => sum + mgr.voteWeight row.2) 0

theorem standingVotes_nodup :
    ((mgr.standingVotes target currentBlock).map fun row => row.1.2).Nodup := by
  have keys : ((mgr.standingVotes target currentBlock).map Sigma.fst).Nodup := by
    apply List.Nodup.sublist _ mgr.jailVotes.nodupKeys
    exact (filter_sublist.trans filter_sublist).map Sigma.fst
  have voters : (mgr.standingVotes target currentBlock).map (fun row => row.1.2) =
      ((mgr.standingVotes target currentBlock).map Sigma.fst).map Prod.snd := by
    rw [map_map]
    rfl
  rw [voters]
  apply keys.map_on
  intro left leftMember right rightMember same
  obtain ⟨leftRow, leftIn, rfl⟩ := mem_map.mp leftMember
  obtain ⟨rightRow, rightIn, rfl⟩ := mem_map.mp rightMember
  have leftTarget := (mem_filter.mp (mem_filter.mp leftIn).1).2
  have rightTarget := (mem_filter.mp (mem_filter.mp rightIn).1).2
  simp only [decide_eq_true_eq] at leftTarget rightTarget
  exact Prod.ext (leftTarget.trans rightTarget.symm) same

theorem mem_standingVotes {voter : Address} :
    voter ∈ (mgr.standingVotes target currentBlock).map (fun row => row.1.2) ↔
      mgr.stands target currentBlock voter = true := by
  constructor
  · intro member
    obtain ⟨⟨⟨against, voter⟩, vote⟩, stands, rfl⟩ := mem_map.mp member
    have unexpired := (mem_filter.mp stands).2
    have recorded := (mem_filter.mp (mem_filter.mp stands).1).1
    have atTarget := (mem_filter.mp (mem_filter.mp stands).1).2
    simp only [decide_eq_true_eq] at atTarget
    subst atTarget
    rw [StakingManager.stands, mem_entries_lookup recorded]
    exact unexpired
  · intro stands
    rw [StakingManager.stands, Option.any_eq_true] at stands
    obtain ⟨vote, recorded, unexpired⟩ := stands
    apply mem_map.mpr
    refine ⟨⟨(target, voter), vote⟩, ?_, rfl⟩
    apply mem_filter.mpr
    exact ⟨mem_filter.mpr ⟨AList.mem_lookup_iff.mp recorded, by simp⟩, unexpired⟩

theorem voteWeight_toNat (fits : mgr.activeStake * 3 < 2 ^ 256) {vote : JailVoteRecord} :
    ((mgr.voteWeight vote).toNat : Int) =
      weightAt (fun _ val => val.activeStake) mgr.validators vote.voter := by
  unfold StakingManager.voteWeight weightAt
  cases found : mgr.getValidator vote.voter with
  | none =>
    rw [getValidator] at found
    rw [found]
    rfl
  | some val =>
    have row := found
    rw [getValidator] at row
    rw [row]
    dsimp only
    split
    · rename_i active
      exact totalStake_toNat fits found active
    · rename_i idle
      rw [ValidatorState.activeStake, if_neg idle]
      rfl

theorem votingStake_le : mgr.votingStake target currentBlock ≤ mgr.activeStake := by
  apply total_le
  intro voter val _
  split
  · exact le_rfl
  · exact activeStake_nonneg val

theorem tallied_toNat (keyed : mgr.VotesKeyed) (fits : mgr.activeStake * 3 < 2 ^ 256) :
    ((mgr.tally target currentBlock).toNat : Int) = mgr.votingStake target currentBlock := by
  have rows : ((mgr.standingVotes target currentBlock).map
      fun row => ((mgr.voteWeight row.2).toNat : Int)).sum =
        mgr.votingStake target currentBlock := by
    have byVoter : (mgr.standingVotes target currentBlock).map
        (fun row => ((mgr.voteWeight row.2).toNat : Int)) =
        ((mgr.standingVotes target currentBlock).map fun row => row.1.2).map
          (weightAt (fun _ val => val.activeStake) mgr.validators) := by
      rw [map_map]
      apply map_congr_left
      intro row member
      have recorded := (mem_filter.mp (mem_filter.mp member).1).1
      rw [voteWeight_toNat fits, keyed _ _ (mem_entries_lookup recorded)]
      rfl
    rw [byVoter, sum_weightAt _ standingVotes_nodup]
    apply total_congr
    intro voter val _
    simp only [mem_standingVotes]
  have most := @votingStake_le mgr target currentBlock
  have nonneg : 0 ≤ mgr.activeStake := total_nonneg fun _ val => activeStake_nonneg val
  rw [tally, foldl_amounts (fun row : Sigma fun _ : Address × Address => JailVoteRecord =>
    mgr.voteWeight row.2) _ 0 (by rw [rows]; simp; omega), rows]
  simp

end Tally

section Votes

variable {mgr after : StakingManager} {voter target : Address} {currentBlock : U64}
  {val : ValidatorState}

/-- Nothing but the target's rows changed. -/
structure Apart (target : Address) (mgr after : StakingManager) : Prop where
  validators : ∀ address, address ≠ target → after.getValidator address = mgr.getValidator address
  delegations : ∀ key : DelegationKey, key.2 ≠ target →
    after.getDelegationRaw key = mgr.getDelegationRaw key
  slashRecords : ∀ key : Address × U64, key.1 ≠ target →
    after.slashRecords.lookup key = mgr.slashRecords.lookup key
  votes : after.jailVotes = mgr.jailVotes

theorem Apart.refl : Apart target mgr mgr :=
  ⟨fun _ _ => rfl, fun _ _ => rfl, fun _ _ => rfl, rfl⟩

theorem Apart.trans {middle : StakingManager} (first : Apart target mgr middle)
    (second : Apart target middle after) : Apart target mgr after where
  validators := fun address apart =>
    (second.validators address apart).trans (first.validators address apart)
  delegations := fun key apart => (second.delegations key apart).trans (first.delegations key apart)
  slashRecords := fun key apart => (second.slashRecords key apart).trans (first.slashRecords key apart)
  votes := second.votes.trans first.votes

theorem apart_putValidator : Apart target mgr (mgr.putValidator target val) where
  validators := fun address apart => by rw [getValidator_putValidator, if_neg apart]
  delegations := fun _ _ => rfl
  slashRecords := fun _ _ => rfl
  votes := rfl

theorem apart_executeBurn (amount : U256) : Apart target mgr (mgr.executeBurn amount) := by
  unfold executeBurn
  split
  · exact .refl
  · exact ⟨fun _ _ => rfl, fun _ _ => rfl, fun _ _ => rfl, rfl⟩

theorem apart_putSlashRecord (record : SlashRecord) :
    Apart target mgr (mgr.putSlashRecord target currentBlock record) where
  validators := fun _ _ => rfl
  delegations := fun _ _ => rfl
  slashRecords := by
    intro key apart
    apply AList.lookup_insert_ne
    intro same
    exact apart (congrArg Prod.fst same)
  votes := rfl

theorem apart_slashDelegation (fractionBps : Bps) (progress : StakingManager × U256)
    (del : Delegation) :
    Apart target progress.1 (slashDelegation target fractionBps progress del).1 := by
  unfold slashDelegation
  dsimp only
  split
  · exact .refl
  · refine ⟨fun _ _ => rfl, ?_, fun _ _ => rfl, rfl⟩
    intro key apart
    rw [getDelegationRaw_putDelegationRaw, if_neg]
    intro same
    exact apart (congrArg Prod.snd same)

theorem apart_slashDelegations (fractionBps : Bps) (selfSlash : U256) :
    Apart target mgr (mgr.slashDelegations target fractionBps selfSlash).1 := by
  have each : ∀ (dels : List Delegation) (progress : StakingManager × U256),
      Apart target progress.1 (dels.foldl (slashDelegation target fractionBps) progress).1 := by
    intro dels
    induction dels with
    | nil => exact fun _ => .refl
    | cons del dels ih => exact fun progress => (apart_slashDelegation fractionBps progress del).trans (ih _)
  exact each _ (mgr, selfSlash)

theorem slash_apart (found : mgr.getValidator target = some val) (fractionBps : Bps)
    (reason : SlashReason) :
    ∃ burned after row, slash target fractionBps reason currentBlock mgr = .ok burned after ∧
      Apart target mgr after ∧ after.getValidator target = some row ∧
      (row.status = val.status ∨ row.status = .jailed ∧ val.status ≠ .tombstoned) := by
  have read : okOr (.validatorNotFound target) (mgr.getValidator target) mgr = .ok val mgr := by
    rw [found]
    rfl
  unfold slash
  rw [get_bind, bind_eq read]
  refine ⟨_, _, ValidatorState.autoJail { val with
    selfStake := val.selfStake - slashOf val.selfStake fractionBps
    totalDelegated := (mgr.slashDelegations target fractionBps
      (slashOf val.selfStake fractionBps)).1.delegatedSum target } currentBlock, rfl, ?_, ?_, ?_⟩
  · exact (apart_slashDelegations _ _).trans
      (apart_putValidator.trans ((apart_executeBurn _).trans (apart_putSlashRecord _)))
  · change (executeBurn _ _).getValidator target = _
    rw [getValidator, executeBurn_validators]
    exact AList.lookup_insert _
  · unfold ValidatorState.autoJail
    split
    · rename_i low
      exact .inr ⟨rfl, low.2.1⟩
    · exact .inl rfl

theorem jailValidator_apart (found : mgr.getValidator target = some val)
    (standing : val.status ≠ .tombstoned) (durationBlocks : U64) :
    jailValidator target durationBlocks currentBlock mgr = .ok () (mgr.putValidator target
      { val with status := .jailed, jailedUntil := some (currentBlock + durationBlocks) }) := by
  have read : okOr (.validatorNotFound target) (mgr.getValidator target) mgr = .ok val mgr := by
    rw [found]
    rfl
  unfold jailValidator
  rw [get_bind, bind_eq read, if_neg standing]
  rfl

theorem deleteJailVotes_lookup (mgr : StakingManager) (keys : List (Address × Address)) :
    ∃ votes, keys.foldl deleteJailVote mgr = { mgr with jailVotes := votes } ∧
      ∀ key vote, AList.lookup key votes = some vote → mgr.jailVotes.lookup key = some vote := by
  induction keys generalizing mgr with
  | nil => exact ⟨mgr.jailVotes, rfl, fun _ _ recorded => recorded⟩
  | cons first keys ih =>
    obtain ⟨votes, is, fewer⟩ := ih (mgr.deleteJailVote first)
    refine ⟨votes, is, ?_⟩
    intro key vote recorded
    have kept := fewer key vote recorded
    by_cases same : key = first
    · subst same
      rw [deleteJailVote, AList.lookup_erase] at kept
      cases kept
    · rwa [deleteJailVote, AList.lookup_erase_ne same] at kept

theorem tallyJailVotes_eq (mgr : StakingManager) (target : Address) (currentBlock : U64) :
    ∃ votes, tallyJailVotes target currentBlock mgr =
        .ok (mgr.tally target currentBlock) { mgr with jailVotes := votes } ∧
      ∀ key vote, AList.lookup key votes = some vote → mgr.jailVotes.lookup key = some vote := by
  obtain ⟨votes, is, fewer⟩ := deleteJailVotes_lookup mgr (((mgr.jailVotes.entries.filter
    fun row => row.1.1 = target).filter fun row => row.2.expired currentBlock).map Sigma.fst)
  refine ⟨votes, ?_, fewer⟩
  unfold tallyJailVotes
  rw [get_bind, modify_bind, is]
  rfl

theorem recordJailVote_cases (mgr : StakingManager) (voter target : Address) (currentBlock : U64) :
    (∃ error, recordJailVote voter target currentBlock mgr = .error error mgr) ∨
    ∃ voterVal val votes, mgr.getValidator voter = some voterVal ∧ voterVal.status = .active ∧
      mgr.getValidator target = some val ∧ val.status ≠ .tombstoned ∧
      (∀ key vote, AList.lookup key votes = some vote →
        (mgr.voted voter target voterVal currentBlock).jailVotes.lookup key = some vote) ∧
      (recordJailVote voter target currentBlock mgr = .ok false { mgr with jailVotes := votes } ∧
          ¬ (mgr.voted voter target voterVal currentBlock).tally target currentBlock * 3 >
            mgr.totalActiveStake * 2 ∨
        ∃ after, recordJailVote voter target currentBlock mgr = .ok true after ∧
          Apart target { mgr with jailVotes := votes } after ∧ after.Jailed target ∧
          (mgr.voted voter target voterVal currentBlock).tally target currentBlock * 3 >
            mgr.totalActiveStake * 2) := by
  cases voterFound : mgr.getValidator voter with
  | none =>
    refine .inl ⟨.validatorNotFound voter, ?_⟩
    unfold recordJailVote
    rw [get_bind, voterFound]
    rfl
  | some voterVal =>
  have voterRead : okOr (.validatorNotFound voter) (mgr.getValidator voter) mgr = .ok voterVal mgr := by
    rw [voterFound]
    rfl
  by_cases active : voterVal.status = .active
  swap
  · refine .inl ⟨.validatorNotFound voter, ?_⟩
    unfold recordJailVote
    rw [get_bind, bind_eq voterRead, if_pos active]
    rfl
  cases found : mgr.getValidator target with
  | none =>
    refine .inl ⟨.validatorNotFound target, ?_⟩
    unfold recordJailVote
    rw [get_bind, bind_eq voterRead, if_neg (not_not_intro active), get_bind, found]
    rfl
  | some val =>
  have targetRead : okOr (.validatorNotFound target) (mgr.getValidator target) mgr = .ok val mgr := by
    rw [found]
    rfl
  by_cases standing : val.status = .tombstoned
  · refine .inl ⟨.validatorTombstoned target, ?_⟩
    unfold recordJailVote
    rw [get_bind, bind_eq voterRead, if_neg (not_not_intro active), get_bind, bind_eq targetRead,
      if_pos standing]
    rfl
  obtain ⟨votes, tallied, fewer⟩ :=
    tallyJailVotes_eq (mgr.voted voter target voterVal currentBlock) target currentBlock
  refine .inr ⟨voterVal, val, votes, rfl, active, rfl, standing, fewer, ?_⟩
  have reaches : recordJailVote voter target currentBlock mgr =
      (if (mgr.voted voter target voterVal currentBlock).tally target currentBlock * 3 >
          mgr.totalActiveStake * 2 then do
        let _ ← slash target downtimeSlashBps .jailVote currentBlock
        jailValidator target jailDurationBlocks currentBlock
        pure true
      else pure false : StakingM Bool) { mgr with jailVotes := votes } := by
    unfold recordJailVote
    rw [get_bind, bind_eq voterRead, if_neg (not_not_intro active), get_bind, bind_eq targetRead,
      if_neg standing, modify_bind]
    exact (bind_eq tallied).trans rfl
  rw [reaches]
  split
  · rename_i exceeds
    obtain ⟨burned, slashed, row, ran, apart, read, status⟩ :=
      @slash_apart { mgr with jailVotes := votes } target currentBlock val found downtimeSlashBps
        .jailVote
    have jails := @jailValidator_apart slashed target currentBlock row read (by
      rcases status with same | ⟨jailed, _⟩
      · rw [same]
        exact standing
      · rw [jailed]
        decide) jailDurationBlocks
    refine .inr ⟨_, (bind_eq ran).trans (bind_eq jails), apart.trans apart_putValidator, ?_, exceeds⟩
    refine ⟨{ row with status := .jailed, jailedUntil := some (currentBlock + jailDurationBlocks) }, ?_, rfl⟩
    rw [getValidator_putValidator, if_pos rfl]
  · rename_i below
    exact .inl ⟨rfl, below⟩

theorem next_vote : mgr.next (.operate (.recordJailVote voter target currentBlock)) =
    final (recordJailVote voter target currentBlock) mgr := by
  change mgr.step _ = _
  rw [step_eq_final]
  exact final_discard _

theorem voted_keyed (keyed : mgr.VotesKeyed) (voterVal : ValidatorState) :
    (mgr.voted voter target voterVal currentBlock).VotesKeyed := by
  intro key vote recorded
  by_cases same : key = (target, voter)
  · subst same
    rw [voted, putJailVote, AList.lookup_insert] at recorded
    cases recorded
    rfl
  · rw [voted, putJailVote, AList.lookup_insert_ne same] at recorded
    exact keyed key vote recorded

theorem exceeds_iff (keyed : mgr.VotesKeyed) (fits : mgr.activeStake * 3 < 2 ^ 256)
    (voterVal : ValidatorState) :
    (mgr.voted voter target voterVal currentBlock).tally target currentBlock * 3 >
        mgr.totalActiveStake * 2 ↔
      mgr.activeStake * 2 <
        (mgr.voted voter target voterVal currentBlock).votingStake target currentBlock * 3 := by
  have active := totalActiveStake_toNat fits
  have tally := @tallied_toNat (mgr.voted voter target voterVal currentBlock) target currentBlock
    (voted_keyed keyed voterVal) fits
  have most := @votingStake_le (mgr.voted voter target voterVal currentBlock) target currentBlock
  change _ ≤ mgr.activeStake at most
  have weightFits : ((mgr.voted voter target voterVal currentBlock).tally target
      currentBlock).toNat * 3 < 2 ^ 256 := by
    omega
  have activeFits : mgr.totalActiveStake.toNat * 2 < 2 ^ 256 := by omega
  rw [gt_iff_lt, BitVec.lt_def, BitVec.toNat_mul, BitVec.toNat_mul,
    Nat.mod_eq_of_lt (by simpa using activeFits), Nat.mod_eq_of_lt (by simpa using weightFits)]
  change mgr.totalActiveStake.toNat * 2 < _ * 3 ↔ _
  omega

theorem convicts_exceeds (keyed : mgr.VotesKeyed) (fits : mgr.activeStake * 3 < 2 ^ 256)
    (convicts : mgr.convicts target (.operate (.recordJailVote voter target currentBlock)) = true) :
    mgr.Exceeds voter target currentBlock := by
  rcases recordJailVote_cases mgr voter target currentBlock with ⟨error, failed⟩ |
    ⟨voterVal, val, votes, voterFound, active, _, _, _, ⟨recorded, _⟩ | ⟨after, _, _, _, exceeds⟩⟩
  · simp [StakingManager.convicts, failed] at convicts
  · simp [StakingManager.convicts, recorded] at convicts
  · exact ⟨voterVal, voterFound, active, (exceeds_iff keyed fits voterVal).mp exceeds⟩

/-- A validator keeps its row, its delegations and its slash records. -/
structure Spared (target : Address) (mgr after : StakingManager) : Prop where
  validator : after.getValidator target = mgr.getValidator target
  delegations : ∀ delegator,
    after.getDelegationRaw (delegator, target) = mgr.getDelegationRaw (delegator, target)
  slashRecords : ∀ block,
    after.slashRecords.lookup (target, block) = mgr.slashRecords.lookup (target, block)

theorem vote_apart {against : Address}
    (acquitted : mgr.convicts target (.operate (.recordJailVote voter against currentBlock)) = false) :
    Spared target mgr (mgr.next (.operate (.recordJailVote voter against currentBlock))) := by
  rw [next_vote]
  unfold final
  rcases recordJailVote_cases mgr voter against currentBlock with ⟨error, failed⟩ |
    ⟨voterVal, val, votes, _, _, _, _, _, ⟨recorded, _⟩ | ⟨after, ran, apart, _, _⟩⟩
  · rw [failed]
    exact ⟨rfl, fun _ => rfl, fun _ => rfl⟩
  · rw [recorded]
    exact ⟨rfl, fun _ => rfl, fun _ => rfl⟩
  · rw [ran]
    have elsewhere : target ≠ against := by
      intro same
      simp [StakingManager.convicts, ran, same] at acquitted
    exact ⟨apart.validators target elsewhere, fun _ => apart.delegations (_, target) elsewhere,
      fun _ => apart.slashRecords (target, _) elsewhere⟩

end Votes

/-- The target is jailed or tombstoned. -/
def StakingManager.Held (mgr : StakingManager) (target : Address) : Prop :=
  ∃ val, mgr.getValidator target = some val ∧ (val.status = .jailed ∨ val.status = .tombstoned)

section Steps

variable {mgr after : StakingManager} {target : Address} {event : Event}

theorem convicts_held (convicts : mgr.convicts target event = true) :
    (mgr.next event).Held target := by
  cases event with
  | rotate active => simp [StakingManager.convicts] at convicts
  | operate op =>
    cases op with
    | recordJailVote voter against currentBlock =>
      rw [next_vote]
      unfold final
      rcases recordJailVote_cases mgr voter against currentBlock with ⟨error, failed⟩ |
        ⟨_, _, votes, _, _, _, _, _, ⟨recorded, _⟩ | ⟨after, ran, _, jailed, _⟩⟩
      · simp [StakingManager.convicts, failed] at convicts
      · simp [StakingManager.convicts, recorded] at convicts
      · rw [ran]
        obtain ⟨val, found, status⟩ := jailed
        have same : against = target := by
          simp only [StakingManager.convicts, Bool.and_eq_true, decide_eq_true_eq] at convicts
          exact convicts.1
        exact ⟨val, same ▸ found, .inl status⟩
    | _ => simp [StakingManager.convicts] at convicts

theorem held_acquits (keyed : mgr.VotesKeyed) (admissible : mgr.Admissible event)
    (held : mgr.Held target) : mgr.convicts target event = false := by
  by_contra convicts
  rw [Bool.not_eq_false] at convicts
  cases event with
  | rotate active => simp [StakingManager.convicts] at convicts
  | operate op =>
    cases op with
    | recordJailVote voter against currentBlock =>
      have same : against = target := by
        simp only [StakingManager.convicts, Bool.and_eq_true, decide_eq_true_eq] at convicts
        exact convicts.1
      subst same
      obtain ⟨val, found, jailed | tombstoned⟩ := held
      · exact admissible.2 ⟨val, found, jailed⟩ (convicts_exceeds keyed admissible.1 convicts)
      · rcases recordJailVote_cases mgr voter against currentBlock with ⟨error, failed⟩ |
          ⟨_, targetVal, _, _, _, targetFound, standing, _⟩
        · simp [StakingManager.convicts, failed] at convicts
        · rw [found] at targetFound
          cases targetFound
          exact standing tombstoned
    | _ => simp [StakingManager.convicts] at convicts

/-- Nobody is set free. -/
structure Onward (mgr after : StakingManager) : Prop where
  held : ∀ target, mgr.Held target → after.Held target
  votes : mgr.VotesKeyed → after.VotesKeyed

theorem Onward.of_faces (same : SameFaces mgr after) : Onward mgr after where
  held := by
    rintro target ⟨val, found, held⟩
    have face := same.faces target
    rw [faceAt, faceAt, found, Option.map_some, Option.map_eq_some_iff] at face
    obtain ⟨row, read, is⟩ := face
    have status : row.face.status = val.face.status := congrArg ValidatorState.status is
    change row.status = val.status at status
    exact ⟨row, read, status ▸ held⟩
  votes := by
    intro keyed key vote recorded
    rw [same.votes] at recorded
    exact keyed key vote recorded

theorem Onward.of_row {validator : Address}
    (others : ∀ address, address ≠ validator → after.getValidator address = mgr.getValidator address)
    (own : mgr.Held validator → after.Held validator) (votes : after.jailVotes = mgr.jailVotes) :
    Onward mgr after where
  held := by
    rintro target ⟨val, found, held⟩
    by_cases same : target = validator
    · subst same
      exact own ⟨val, found, held⟩
    · exact ⟨val, (others target same).trans found, held⟩
  votes := by
    intro keyed key vote recorded
    rw [votes] at recorded
    exact keyed key vote recorded

theorem Onward.refl : Onward mgr mgr := ⟨fun _ held => held, fun keyed => keyed⟩

theorem registerValidator_onward (sender : Address) (pubkey : BitVec 256) (commissionBps : Bps)
    (selfStake : U256) :
    Settles (registerValidator sender pubkey commissionBps selfStake) mgr fun _ after =>
      Onward mgr after := by
  apply settles_guard
  intro _
  apply settles_guard
  intro _
  apply settles_get
  apply settles_guard
  intro unregistered
  apply settles_get
  apply settles_guard
  intro _
  apply settles_bind (debitBalance_settles sender selfStake)
  rintro _ middle ⟨_, rfl⟩
  refine ⟨(), _, rfl, @Onward.of_row mgr _ sender ?_ ?_ rfl⟩
  · intro address apart
    rw [getValidator_putValidator, if_neg apart]
    rfl
  · rintro ⟨val, found, _⟩
    rw [found] at unregistered
    simp at unregistered

theorem Settles.onward {α : Type} {program : StakingM α}
    (settles : Settles program mgr fun _ after => Onward mgr after) :
    Onward mgr (final program mgr) := by
  unfold final
  rcases settles with ⟨error, failed⟩ | ⟨value, after, ran, onward⟩
  · rw [failed]
    exact .refl
  · rw [ran]
    exact onward

theorem slash_onward (validator : Address) (fractionBps : Bps) (reason : SlashReason)
    (currentBlock : U64) :
    Settles (slash validator fractionBps reason currentBlock) mgr fun _ after => Onward mgr after := by
  cases found : mgr.getValidator validator with
  | none =>
    refine .inl ⟨.validatorNotFound validator, ?_⟩
    unfold slash
    rw [get_bind, found]
    rfl
  | some val =>
    obtain ⟨burned, after, row, ran, apart, read, status⟩ :=
      @slash_apart mgr validator currentBlock val found fractionBps reason
    refine .inr ⟨burned, after, ran, Onward.of_row apart.validators ?_ apart.votes⟩
    rintro ⟨before, was, held⟩
    rw [found] at was
    cases was
    refine ⟨row, read, ?_⟩
    rcases status with same | ⟨jailed, _⟩
    · rw [same]
      exact held
    · exact .inl jailed

theorem Onward.putValidator {validator : Address} {row : ValidatorState}
    (held : row.status = .jailed ∨ row.status = .tombstoned) :
    Onward mgr (mgr.putValidator validator row) := by
  apply @Onward.of_row mgr _ validator
  · exact apart_putValidator.validators
  · intro _
    refine ⟨row, ?_, held⟩
    rw [getValidator_putValidator, if_pos rfl]
  · rfl

theorem jailValidator_onward (validator : Address) (durationBlocks currentBlock : U64) :
    Settles (jailValidator validator durationBlocks currentBlock) mgr fun _ after =>
      Onward mgr after := by
  apply settles_get
  apply settles_bind_read okOr_settles
  intro val found
  apply settles_guard
  · intro _
    exact settles_of_ok rfl (Onward.putValidator (.inl rfl))

theorem tombstoneValidator_onward (validator : Address) :
    Settles (tombstoneValidator validator) mgr fun _ after => Onward mgr after := by
  apply settles_get
  apply settles_bind_read okOr_settles
  intro val found
  exact settles_of_ok rfl (Onward.putValidator (.inr rfl))

theorem recordJailVote_onward (voter target : Address) (currentBlock : U64) :
    Settles (recordJailVote voter target currentBlock) mgr fun _ after => Onward mgr after := by
  rcases recordJailVote_cases mgr voter target currentBlock with failed |
    ⟨voterVal, _, votes, _, _, _, _, fewer, ⟨recorded, _⟩ | ⟨after, ran, apart, jailed, _⟩⟩
  · exact .inl failed
  · refine .inr ⟨_, _, recorded, fun _ held => held, ?_⟩
    intro keyed key vote found
    exact voted_keyed keyed voterVal key vote (fewer key vote found)
  · refine .inr ⟨_, _, ran, ?_, ?_⟩
    · apply (Onward.of_row apart.validators (fun _ => ?_) apart.votes).held
      obtain ⟨val, found, status⟩ := jailed
      exact ⟨val, found, .inl status⟩
    · intro keyed key vote found
      rw [apart.votes] at found
      exact voted_keyed keyed voterVal key vote (fewer key vote found)

theorem unjail_frees (validator : Address) (currentBlock : U64) :
    Settles (unjail validator currentBlock) mgr fun _ after =>
      (∀ address, address ≠ validator → after.getValidator address = mgr.getValidator address) ∧
        (mgr.VotesKeyed → after.VotesKeyed) := by
  apply settles_get
  apply settles_bind_read okOr_settles
  intro val found
  apply settles_guard
  intro _
  apply settles_guard
  intro _
  apply settles_guard
  intro _
  apply settles_guard
  intro _
  refine settles_of_ok rfl ?_
  dsimp only [clearJailVotes]
  obtain ⟨votes, is, fewer⟩ := deleteJailVotes_lookup (mgr.putValidator validator
    { val with status := .candidate, jailedUntil := none })
    (((mgr.putValidator validator
      { val with status := .candidate, jailedUntil := none }).jailVotes.entries.filter
        fun row => row.1.1 = validator).map Sigma.fst)
  rw [is]
  refine ⟨?_, fun keyed key vote recorded => keyed key vote (fewer key vote recorded)⟩
  intro address apart
  change (mgr.putValidator validator _).getValidator address = _
  rw [getValidator_putValidator, if_neg apart]

theorem updateStatus_held {active : List Address} {state : StakingManager}
    {val row : ValidatorState}
    (found : state.getValidator target = some val)
    (held : val.status = .jailed ∨ val.status = .tombstoned)
    (own : row.address = target → row = val) :
    (state.updateStatus active row).getValidator target = some val := by
  rcases updateStatus_cases active state row with same | ⟨free, status, written⟩
  · rw [same]
    exact found
  · have apart : target ≠ row.address := by
      intro same
      rw [own same.symm] at free
      exact free held
    rw [written, getValidator_putValidator, if_neg apart]
    exact found

theorem rotate_held (keyed : mgr.RowsKeyed) (active : List Address) (held : mgr.Held target) :
    (mgr.updateValidatorStatuses active).Held target := by
  obtain ⟨val, found, status⟩ := held
  have folded : ∀ (rows : List ValidatorState) (state : StakingManager),
      (∀ row ∈ rows, row.address = target → row = val) → state.getValidator target = some val →
      (rows.foldl (updateStatus active) state).getValidator target = some val := by
    intro rows
    induction rows with
    | nil => exact fun _ _ found => found
    | cons row rows ih =>
      intro state own found
      apply ih
      · exact fun later member => own later (mem_cons_of_mem _ member)
      · exact updateStatus_held found status (own row mem_cons_self)
  refine ⟨val, folded _ mgr ?_ found, status⟩
  intro row member same
  obtain ⟨entry, isEntry, rfl⟩ := mem_map.mp member
  have read : mgr.getValidator entry.1 = some entry.2 := mem_entries_lookup isEntry
  have key := keyed _ _ read
  rw [← key, same, found] at read
  exact (Option.some.inj read).symm

theorem rotate_keyed (keyed : mgr.Keyed) (active : List Address) :
    (mgr.updateValidatorStatuses active).Keyed := by
  have folded : ∀ (rows : List ValidatorState) (state : StakingManager), state.Keyed →
      (rows.foldl (updateStatus active) state).Keyed := by
    intro rows
    induction rows with
    | nil => exact fun _ keyed => keyed
    | cons row rows ih =>
      intro state keyed
      apply ih
      rcases updateStatus_cases active state row with same | ⟨_, status, written⟩
      · rw [same]
        exact keyed
      · rw [written]
        refine ⟨keyed.votes, ?_⟩
        intro address val found
        rw [getValidator_putValidator] at found
        split at found
        · rename_i here
          cases found
          exact here.symm
        · exact keyed.rows address val found
  exact folded _ mgr keyed

theorem step_rows (keyed : mgr.RowsKeyed) (op : Operation) : (mgr.step op).RowsKeyed := by
  have ofIdentity : ∀ address, mgr.identityAt address = none ∨
      ∃ key, mgr.identityAt address = some (address, key) := by
    intro address
    cases found : mgr.getValidator address with
    | none => exact .inl (by simp [identityAt, found])
    | some val => exact .inr ⟨val.pubkey, by rw [identityAt_of found, ValidatorState.identity, keyed _ _ found]⟩
  intro address val found
  have identity := identityAt_of found
  have stays : ∀ {key}, (some (address, key) : Option (Address × BitVec 256)) = some val.identity →
      val.address = address := by
    intro key same
    exact (congrArg Prod.fst (Option.some.inj same)).symm
  rcases step_identity mgr op with same | ⟨sender, pubkey, _, _, written⟩
  · rw [same address] at identity
    rcases ofIdentity address with none | ⟨key, is⟩
    · rw [none] at identity
      cases identity
    · exact stays (is.symm.trans identity)
  · rw [written address] at identity
    split at identity
    · rename_i here
      subst here
      exact stays identity
    · rcases ofIdentity address with none | ⟨key, is⟩
      · rw [none] at identity
        cases identity
      · exact stays (is.symm.trans identity)

/-- Only an unjail can set a validator free. -/
theorem step_onward (op : Operation)
    (stays : ∀ validator currentBlock, op ≠ .unjail validator currentBlock) :
    Onward mgr (mgr.step op) := by
  rw [step_eq_final]
  cases op with
  | registerValidator sender pubkey commissionBps selfStake =>
    exact Settles.onward (registerValidator_onward _ _ _ _)
  | slash validator fractionBps reason currentBlock =>
    exact (final_discard _).symm ▸ Settles.onward (slash_onward _ _ _ _)
  | jail validator durationBlocks currentBlock => exact Settles.onward (jailValidator_onward _ _ _)
  | unjail validator currentBlock => exact absurd rfl (stays validator currentBlock)
  | tombstone validator => exact Settles.onward (tombstoneValidator_onward _)
  | recordJailVote voter target currentBlock =>
    exact (final_discard _).symm ▸ Settles.onward (recordJailVote_onward _ _ _)
  | _ =>
    refine Onward.of_faces (Operation.sameFaces ?_)
    trivial

theorem next_held (keyed : mgr.Keyed) (held : mgr.Held target)
    (stays : mgr.releases target event = false) : (mgr.next event).Held target := by
  cases event with
  | rotate active => exact rotate_held keyed.rows active held
  | operate op =>
    change (mgr.step op).Held target
    by_cases unjails : ∃ validator currentBlock, op = .unjail validator currentBlock
    · obtain ⟨validator, currentBlock, rfl⟩ := unjails
      rw [step_eq_final]
      change (final (unjail validator currentBlock) mgr).Held target
      unfold final
      rcases @unjail_frees mgr validator currentBlock with ⟨error, failed⟩ | ⟨_, after, ran, others, _⟩
      · rw [failed]
        exact held
      · rw [ran]
        obtain ⟨val, found, status⟩ := held
        have apart : target ≠ validator := by
          intro same
          simp [StakingManager.releases, ran, same] at stays
        exact ⟨val, (others target apart).trans found, status⟩
    · exact (step_onward op fun validator currentBlock is =>
        unjails ⟨validator, currentBlock, is⟩).held target held

theorem next_keyed (keyed : mgr.Keyed) : (mgr.next event).Keyed := by
  cases event with
  | rotate active => exact rotate_keyed keyed active
  | operate op =>
    refine ⟨?_, step_rows keyed.rows op⟩
    change (mgr.step op).VotesKeyed
    by_cases unjails : ∃ validator currentBlock, op = .unjail validator currentBlock
    · obtain ⟨validator, currentBlock, rfl⟩ := unjails
      rw [step_eq_final]
      change (final (unjail validator currentBlock) mgr).VotesKeyed
      unfold final
      rcases @unjail_frees mgr validator currentBlock with ⟨error, failed⟩ | ⟨_, after, ran, _, votes⟩
      · rw [failed]
        exact keyed.votes
      · rw [ran]
        exact votes keyed.votes
    · exact (step_onward op fun validator currentBlock is =>
        unjails ⟨validator, currentBlock, is⟩).votes keyed.votes

theorem moves_convicts (moves : mgr.movesRelease target event = true) :
    mgr.convicts target event = true := by
  cases event with
  | rotate active => simp [StakingManager.movesRelease] at moves
  | operate op =>
    cases op with
    | recordJailVote voter against currentBlock =>
      by_contra acquitted
      rw [Bool.not_eq_true] at acquitted
      have spared := vote_apart acquitted
      simp only [StakingManager.movesRelease, spared.validator, ne_eq, not_true_eq_false,
        decide_false] at moves
      cases moves
    | _ => simp [StakingManager.movesRelease] at moves

end Steps

section Runs

variable {start : StakingManager} {target : Address}

theorem count_le {fewer more : StakingManager → Event → Bool}
    (implies : ∀ mgr event, fewer mgr event = true → more mgr event = true) (events : List Event) :
    count fewer start events ≤ count more start events := by
  induction events generalizing start with
  | nil => exact Nat.le_refl _
  | cons event events ih =>
    have first : (fewer start event).toNat ≤ (more start event).toNat :=
      Bool.toNat_le_toNat (implies start event)
    exact Nat.add_le_add first ih

theorem reach_keyed (keyed : start.Keyed) (events : List Event) :
    (start.reach events).Keyed := by
  induction events generalizing start with
  | nil => exact keyed
  | cons event events ih => exact ih (next_keyed keyed)

theorem Admitted.drop (first : List Event) {rest : List Event}
    (admitted : Admitted start (first ++ rest)) : Admitted (start.reach first) rest := by
  induction first generalizing start with
  | nil => exact admitted
  | cons event first ih => exact ih admitted.2

theorem Admitted.take {first : List Event} (rest : List Event)
    (admitted : Admitted start (first ++ rest)) : Admitted start first := by
  induction first generalizing start with
  | nil => trivial
  | cons event first ih => exact ⟨admitted.1, ih admitted.2⟩

theorem held_none (keyed : start.Keyed) (span : List Event) (admitted : Admitted start span)
    (stays : count (releases target) start span = 0) (held : start.Held target) :
    count (convicts target) start span = 0 := by
  induction span generalizing start with
  | nil => rfl
  | cons event span ih =>
    rw [count] at stays ⊢
    have still : start.releases target event = false := by
      cases released : start.releases target event with
      | false => rfl
      | true => simp [released] at stays
    rw [held_acquits keyed.votes admitted.1 held,
      ih (next_keyed keyed) admitted.2 (by omega) (next_held keyed held still)]
    rfl

theorem convicts_once (keyed : start.Keyed) (span : List Event) (admitted : Admitted start span)
    (stays : count (releases target) start span = 0) : count (convicts target) start span ≤ 1 := by
  induction span generalizing start with
  | nil => exact Nat.zero_le _
  | cons event span ih =>
    rw [count] at stays ⊢
    cases convicts : start.convicts target event with
    | false =>
      have rest := ih (next_keyed keyed) admitted.2 (by omega)
      simpa using rest
    | true =>
      rw [held_none (next_keyed keyed) span admitted.2 (by omega) (convicts_held convicts)]
      exact Nat.le_refl _

end Runs

/-- What a run of votes and stake changes may do to the validators. -/
structure PunishedOnce (start : StakingManager) (events : List Event) : Prop where
  threshold : ∀ before voter target currentBlock rest,
    events = before ++ .operate (.recordJailVote voter target currentBlock) :: rest →
    (start.reach before).convicts target
    (.operate (.recordJailVote voter target currentBlock)) = true →
      (start.reach before).Exceeds voter target currentBlock
  spared : ∀ before voter against currentBlock rest target,
    events = before ++ .operate (.recordJailVote voter against currentBlock) :: rest →
    (start.reach before).convicts target
    (.operate (.recordJailVote voter against currentBlock)) = false →
      Spared target (start.reach before)
        ((start.reach before).next (.operate (.recordJailVote voter against currentBlock)))
  once : ∀ before span rest target, events = before ++ span ++ rest →
    count (releases target) (start.reach before) span = 0 →
      count (convicts target) (start.reach before) span ≤ 1 ∧
        count (movesRelease target) (start.reach before) span ≤ 1

/-- A run whose votes never convict a jailed target punishes once. -/
theorem votes_punish_once {start : StakingManager} {events : List Event} (keyed : start.Keyed)
    (admitted : Admitted start events) : PunishedOnce start events := by
  constructor
  · rintro before voter target currentBlock rest rfl convicts
    exact convicts_exceeds (reach_keyed keyed before).votes (admitted.drop before).1.1 convicts
  · rintro before voter against currentBlock rest target rfl acquitted
    exact vote_apart acquitted
  · rintro before span rest target rfl stays
    have within := (append_assoc before span rest ▸ admitted).drop before |>.take rest
    have once := convicts_once (reach_keyed keyed before) span within stays
    exact ⟨once, (count_le (fun _ _ moves => moves_convicts moves) span).trans once⟩

def electorate : StakingManager where
  validators := ((∅ : AList fun _ : Address => ValidatorState).insert 1 (member 1 .active)).insert 2
    (member 2 .candidate)
where
  member (address : Address) (status : ValidatorStatus) : ValidatorState :=
    { address, pubkey := 0, commissionBps := 0, selfStake := 2 * minSelfDelegation, totalDelegated := 0
      status, jailedUntil := none, lastCommissionChangeBlock := none, oracleSigner := none }

theorem electorate_keyed : electorate.Keyed where
  votes := by
    intro key vote recorded
    cases recorded
  rows := by
    intro address val found
    change (AList.insert _ _ _).lookup address = _ at found
    by_cases second : address = 2
    · subst second
      rw [AList.lookup_insert] at found
      cases found
      rfl
    · rw [AList.lookup_insert_ne second] at found
      by_cases first : address = 1
      · subst first
        rw [AList.lookup_insert] at found
        cases found
        rfl
      · rw [AList.lookup_insert_ne first] at found
        cases found

/-- One verdict, the release after it, and another. -/
theorem votes_punish_once_electorate : PunishedOnce electorate [.operate (.recordJailVote 1 2 100),
    .operate (.unjail 2 90000), .operate (.recordJailVote 1 2 90001)] := by
  apply votes_punish_once electorate_keyed
  have free : ∀ {mgr : StakingManager}, (mgr.getValidator 2).map ValidatorState.status =
      some .candidate → ¬ mgr.Jailed 2 := by
    rintro mgr standing ⟨val, found, jailed⟩
    rw [found, Option.map_some, jailed] at standing
    cases standing
  exact ⟨⟨by decide +kernel, fun jailed => absurd jailed (free (by decide +kernel))⟩, trivial,
    ⟨by decide +kernel, fun jailed => absurd jailed (free (by decide +kernel))⟩, trivial⟩

/-- A second vote, a block after the verdict, slashes and jails again. -/
theorem votes_punish_again : ¬ ∀ (start : StakingManager) (events : List Event),
    start.Keyed → PunishedOnce start events := by
  intro always
  have punished := always electorate
    [.operate (.recordJailVote 1 2 100), .operate (.recordJailVote 1 2 101)] electorate_keyed
  have once := punished.once [] [.operate (.recordJailVote 1 2 100), .operate (.recordJailVote 1 2 101)]
    [] 2 rfl (by decide +kernel)
  exact absurd once.1 (by decide +kernel)

end TorusHyperBft.Staking
