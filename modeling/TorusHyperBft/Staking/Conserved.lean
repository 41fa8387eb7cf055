import TorusHyperBft.Staking.Slashed

namespace TorusHyperBft.Staking

/-! The staking ledger over whole runs: value is conserved, totals follow the rows, and every
unbonding entry is paid once. -/

open Rows StakingManager Program

section Votes

variable {mgr middle after : StakingManager} {votes : AList fun _ : Address × Address => JailVoteRecord}

theorem sound_votes (sound : mgr.Sound) : { mgr with jailVotes := votes }.Sound :=
  ⟨sound.keyed, sound.registered, sound.delegated, sound.bounded⟩

theorem tallyJailVotes_ok (target : Address) (currentBlock : U64) :
    ∃ weight votes, tallyJailVotes target currentBlock mgr =
      .ok weight { mgr with jailVotes := votes } := by
  unfold tallyJailVotes
  rw [get_bind]
  obtain ⟨votes, is⟩ := @foldl_deleteJailVote mgr (((mgr.jailVotes.entries.filter
    fun row => row.1.1 = target).filter fun row => row.2.expired currentBlock).map Sigma.fst)
  rw [modify_bind, is]
  exact ⟨_, votes, rfl⟩

theorem jailValidator_ok {validator : Address} {val : ValidatorState} (sound : mgr.Sound)
    (found : mgr.getValidator validator = some val) (standing : val.status ≠ .tombstoned)
    (durationBlocks currentBlock : U64) :
    ∃ after, jailValidator validator durationBlocks currentBlock mgr = .ok () after ∧
      Kept mgr (.jail validator durationBlocks currentBlock) after := by
  rcases jailValidator_settles sound validator durationBlocks currentBlock with
    ⟨error, failed⟩ | ⟨_, after, done, kept⟩
  · have found' : okOr (.validatorNotFound validator) (mgr.getValidator validator) mgr =
        .ok val mgr := by
      rw [found]
      rfl
    unfold jailValidator at failed
    rw [get_bind, bind_eq found', if_neg standing] at failed
    cases failed
  · exact ⟨after, done, kept⟩

theorem recordJailVote_settles (sound : mgr.Sound) (voter target : Address) (currentBlock : U64) :
    Settles (recordJailVote voter target currentBlock) mgr fun _ after =>
      Kept mgr (.recordJailVote voter target currentBlock) after := by
  have most : downtimeSlashBps.val ≤ 10000 := by decide
  have covered : (Operation.recordJailVote voter target currentBlock).Covered mgr :=
    slash_covered most
  apply settles_get
  apply settles_bind_read okOr_settles
  intro voterVal _
  apply settles_guard
  intro _
  apply settles_get
  apply settles_bind_read okOr_settles
  intro targetVal found
  apply settles_guard
  intro standing
  -- Past the checks every part succeeds.
  refine .inr ?_
  rw [modify_bind]
  obtain ⟨weight, votes, tallied⟩ := @tallyJailVotes_ok
    (mgr.putJailVote target voter
      { voter := voter
        target := target
        stakeWeight := voterVal.totalStake
        blockHeight := currentBlock }) target currentBlock
  rw [bind_eq tallied, get_bind]
  have votedSound : { mgr with jailVotes := votes }.Sound := sound_votes sound
  have votedFound : { mgr with jailVotes := votes }.getValidator target = some targetVal := found
  have quiet : (Operation.recordJailVote voter target currentBlock).Quiet := fun _ _ => ⟨rfl, rfl⟩
  by_cases reached : weight * 3 > { mgr with jailVotes := votes }.totalActiveStake * 2
  · obtain ⟨burned, slashed, ran, kept, state, stateFound, notTombstoned⟩ :=
      slash_ok votedSound votedFound most .jailVote currentBlock
    obtain ⟨final, jailed, jailKept⟩ := jailValidator_ok kept.sound stateFound
      (notTombstoned standing) jailDurationBlocks currentBlock
    refine ⟨true, final, ?_, ?_⟩
    · refine (congrFun (if_pos reached) _).trans ?_
      exact (bind_eq ran).trans (bind_eq jailed)
    · refine ⟨jailKept.value.trans kept.value, jailKept.sound, ?_, covered⟩
      intro key
      exact (jailKept.pending key).trans (kept.pending key)
  · refine ⟨false, { mgr with jailVotes := votes }, ?_, ?_⟩
    · exact (congrFun (if_neg reached) _).trans rfl
    · exact Kept.of_rows sound quiet covered rfl rfl rfl

end Votes

section Operations

/-- A slash takes at most the whole stake. -/
def Operation.InRange : Operation → Prop
  | .slash _ fractionBps _ _ => fractionBps.val ≤ 10000
  | _ => True

def Operation.releaseAt : Operation → Option U64
  | .processUnbonding _ _ currentBlock => some currentBlock
  | .claimUnbonded _ currentBlock => some currentBlock
  | _ => none

variable {mgr : StakingManager}

theorem settles_discard {α : Type} {program : StakingM α} {ends : StakingManager → Prop}
    (settles : Settles program mgr fun _ after => ends after) :
    Settles (do let _ ← program) mgr fun _ after => ends after :=
  settles_bind settles fun _ middle holds => ⟨_, middle, rfl, holds⟩

theorem Operation.settles (sound : mgr.Sound) (op : Operation) (inRange : op.InRange) :
    Settles op.run mgr fun _ after => Kept mgr op after ∧
      (op.releaseAt.isSome → Credits mgr op after) := by
  have plain : ∀ after, op.releaseAt = none → Kept mgr op after →
      Kept mgr op after ∧ (op.releaseAt.isSome → Credits mgr op after) := by
    intro after none kept
    refine ⟨kept, ?_⟩
    rw [none]
    simp
  cases op with
  | registerValidator sender pubkey commissionBps selfStake =>
    exact (registerValidator_settles sound sender pubkey commissionBps selfStake).imp
      fun _ after => plain after rfl
  | delegate delegator validator amount =>
    exact (delegate_settles sound delegator validator amount).imp fun _ after => plain after rfl
  | undelegate delegator validator amount currentBlock =>
    exact (undelegate_settles sound delegator validator amount currentBlock).imp
      fun _ after => plain after rfl
  | processUnbonding delegator validator currentBlock =>
    apply settles_discard
    exact (processUnbonding_settles sound delegator validator currentBlock).imp
      fun _ _ both => ⟨both.1, fun _ => both.2⟩
  | claimUnbonded delegator currentBlock =>
    apply settles_discard
    exact (claimUnbonded_settles sound delegator currentBlock).imp
      fun _ _ both => ⟨both.1, fun _ => both.2⟩
  | permanentStake staker amount currentBlock =>
    exact (permanentStake_settles sound staker amount currentBlock).imp
      fun _ after => plain after rfl
  | governanceUnlock staker amount =>
    exact (governanceUnlock_settles sound staker amount).imp fun _ after => plain after rfl
  | claimRewards address =>
    apply settles_discard
    exact (claimRewards_settles sound address).imp fun _ after => plain after rfl
  | topUpSelfStake validator amount =>
    exact (topUpSelfStake_settles sound validator amount).imp fun _ after => plain after rfl
  | slash validator fractionBps reason currentBlock =>
    apply settles_discard
    exact (slash_settles sound validator inRange reason currentBlock).imp
      fun _ after => plain after rfl
  | jail validator durationBlocks currentBlock =>
    exact (jailValidator_settles sound validator durationBlocks currentBlock).imp
      fun _ after => plain after rfl
  | unjail validator currentBlock =>
    exact (unjail_settles sound validator currentBlock).imp fun _ after => plain after rfl
  | tombstone validator =>
    exact (tombstoneValidator_settles sound validator).imp fun _ after => plain after rfl
  | recordJailVote voter target currentBlock =>
    apply settles_discard
    exact (recordJailVote_settles sound voter target currentBlock).imp
      fun _ after => plain after rfl

theorem Operation.paysAt_released {op : Operation} {key : DelegationKey} {entry : UnbondingEntry}
    (paid : entry ∈ op.paysAt mgr key) :
    ∃ currentBlock, op.releaseAt = some currentBlock ∧ entry.releaseBlock ≤ currentBlock := by
  have matured : ∀ currentBlock, entry.matured currentBlock = true →
      entry.releaseBlock ≤ currentBlock := fun _ is => of_decide_eq_true is
  cases op with
  | processUnbonding delegator validator currentBlock =>
    dsimp only [Operation.paysAt] at paid
    split at paid
    · exact ⟨currentBlock, rfl, matured currentBlock (Multiset.mem_filter.mp paid).2⟩
    · cases Multiset.notMem_zero _ paid
  | claimUnbonded delegator currentBlock =>
    dsimp only [Operation.paysAt] at paid
    split at paid
    · exact ⟨currentBlock, rfl, matured currentBlock (Multiset.mem_filter.mp paid).2⟩
    · cases Multiset.notMem_zero _ paid
  | _ => cases Multiset.notMem_zero _ paid

end Operations

def StakingManager.step (mgr : StakingManager) (op : Operation) : StakingManager :=
  match op.run mgr with
  | .ok _ after => after
  | .error _ after => after

def StakingManager.run (mgr : StakingManager) (ops : List Operation) : StakingManager :=
  ops.foldl step mgr

def StakingManager.paidBy (mgr : StakingManager) (op : Operation) (key : DelegationKey) :
    Multiset UnbondingEntry :=
  match op.run mgr with
  | .ok _ _ => op.paysAt mgr key
  | .error _ _ => 0

def StakingManager.openedBy (mgr : StakingManager) (op : Operation) (key : DelegationKey) :
    Multiset UnbondingEntry :=
  match op.run mgr with
  | .ok _ _ => op.opensAt key
  | .error _ _ => 0

def paid (key : DelegationKey) : StakingManager → List Operation → Multiset UnbondingEntry
  | _, [] => 0
  | mgr, op :: ops => mgr.paidBy op key + paid key (mgr.step op) ops

def opened (key : DelegationKey) : StakingManager → List Operation → Multiset UnbondingEntry
  | _, [] => 0
  | mgr, op :: ops => mgr.openedBy op key + opened key (mgr.step op) ops

/-- The states the chain reaches: the operations, and whatever else moves balances and rewards or
rotates validators while delegation rows and totals stay. -/
inductive Reachable : StakingManager → Prop where
  | genesis (mgr : StakingManager) (noDelegations : mgr.delegations = ∅)
      (fresh : ∀ validator val, mgr.getValidator validator = some val → val.totalDelegated = 0)
      (bounded : mgr.value < 2 ^ 256) : Reachable mgr
  | operate {mgr : StakingManager} (reached : Reachable mgr) (op : Operation)
      (inRange : op.InRange) : Reachable (mgr.step op)
  | outside {mgr : StakingManager} (reached : Reachable mgr) (after : StakingManager)
      (delegations : after.delegations = mgr.delegations)
      (totals : ∀ validator, (after.getValidator validator).map ValidatorState.totalDelegated =
        (mgr.getValidator validator).map ValidatorState.totalDelegated)
      (bounded : after.value < 2 ^ 256) : Reachable after

section Runs

variable {mgr start : StakingManager}

/-- An operation keeps the value, the totals and each pending amount's books. -/
theorem step_kept (sound : mgr.Sound) (op : Operation) (inRange : op.InRange) :
    (mgr.step op).value = mgr.value ∧ (mgr.step op).Sound ∧
      ∀ key, (mgr.step op).pendingAt key + mgr.paidBy op key =
        mgr.pendingAt key + mgr.openedBy op key := by
  rcases op.settles sound inRange with ⟨error, failed⟩ | ⟨_, after, ran, kept, _⟩
  · have same : mgr.step op = mgr := by simp only [step, failed]
    rw [same]
    refine ⟨rfl, sound, ?_⟩
    intro key
    simp only [paidBy, openedBy, failed]
  · simp only [step, paidBy, openedBy, ran]
    exact ⟨kept.value, kept.sound, kept.pending⟩

/-- A run keeps the value, the totals and each pending amount's books. -/
theorem run_kept (sound : start.Sound) (ops : List Operation) (inRange : ∀ op ∈ ops, op.InRange) :
    (start.run ops).value = start.value ∧ (start.run ops).Sound ∧
      ∀ key, (start.run ops).pendingAt key + paid key start ops =
        start.pendingAt key + opened key start ops := by
  induction ops generalizing start with
  | nil => exact ⟨rfl, sound, fun _ => rfl⟩
  | cons op ops ih =>
    obtain ⟨value, stepSound, pending⟩ := step_kept sound op (inRange op List.mem_cons_self)
    obtain ⟨runValue, runSound, runPending⟩ := ih stepSound
      fun later member => inRange later (List.mem_cons_of_mem _ member)
    refine ⟨runValue.trans value, runSound, ?_⟩
    intro key
    have first := pending key
    have rest := runPending key
    change ((start.step op).run ops).pendingAt key +
      (start.paidBy op key + paid key (start.step op) ops) =
      start.pendingAt key + (start.openedBy op key + opened key (start.step op) ops)
    calc ((start.step op).run ops).pendingAt key +
        (start.paidBy op key + paid key (start.step op) ops)
        = (((start.step op).run ops).pendingAt key + paid key (start.step op) ops) +
            start.paidBy op key := by rw [add_comm (start.paidBy op key), add_assoc]
      _ = ((start.step op).pendingAt key + start.paidBy op key) +
            opened key (start.step op) ops := by rw [rest, add_right_comm]
      _ = start.pendingAt key + (start.openedBy op key + opened key (start.step op) ops) := by
          rw [first, add_assoc]

theorem Reachable.sound (reached : Reachable mgr) : mgr.Sound := by
  induction reached with
  | genesis mgr noDelegations fresh bounded =>
    have missing : ∀ key, mgr.getDelegationRaw key = none := by
      intro key
      rw [getDelegationRaw, noDelegations]
      rfl
    refine ⟨?_, ?_, ?_, bounded⟩
    · intro key row found
      rw [missing] at found
      cases found
    · intro key row found
      rw [missing] at found
      cases found
    · intro validator val found
      rw [fresh validator val found, delegatedTo, noDelegations]
      rfl
  | operate _ op inRange sound => exact (step_kept sound op inRange).2.1
  | @outside before _ after delegations totals bounded sound =>
    have rows : ∀ key, after.getDelegationRaw key = before.getDelegationRaw key := by
      intro key
      simp only [getDelegationRaw, delegations]
    refine ⟨?_, ?_, ?_, bounded⟩
    · intro key row found
      rw [rows] at found
      exact sound.keyed key row found
    · intro key row found
      rw [rows] at found
      have registered := sound.registered key row found
      rw [← Option.isSome_map, totals, Option.isSome_map]
      exact registered
    · intro validator val found
      have same := totals validator
      rw [found, Option.map_some] at same
      obtain ⟨was, wasFound, total⟩ := Option.map_eq_some_iff.mp same.symm
      have sums : after.delegatedTo validator = before.delegatedTo validator := by
        simp only [delegatedTo, delegations]
      rw [sums, ← total]
      exact sound.delegated validator was wasFound

/-- Over every run: value is conserved, totals follow the rows, failed operations write nothing, no
subtraction underflows, and each unbonding entry is paid once, in full and not before its block. -/
theorem Reachable.run_conserves (reached : Reachable start) (ops : List Operation)
    (inRange : ∀ op ∈ ops, op.InRange) :
    (start.run ops).value = start.value ∧
    (∀ validator val, (start.run ops).getValidator validator = some val →
      (val.totalDelegated.toNat : Int) = (start.run ops).delegatedTo validator) ∧
    (∀ op, op.InRange →
      (∀ error after, op.run (start.run ops) = .error error after → after = start.run ops) ∧
      (∀ after, op.run (start.run ops) = .ok () after →
        after.value = (start.run ops).value ∧ op.Covered (start.run ops) ∧
          (op.releaseAt.isSome → Credits (start.run ops) op after))) ∧
    (∀ key, (start.run ops).pendingAt key + paid key start ops =
      start.pendingAt key + opened key start ops) ∧
    (∀ (op : Operation) (key : DelegationKey), ∀ entry ∈ op.paysAt (start.run ops) key,
      ∃ currentBlock, op.releaseAt = some currentBlock ∧ entry.releaseBlock ≤ currentBlock) := by
  obtain ⟨value, sound, pending⟩ := run_kept reached.sound ops inRange
  refine ⟨value, sound.delegated, ?_, pending, fun op key entry => op.paysAt_released⟩
  intro op isInRange
  rcases op.settles sound isInRange with ⟨error, failed⟩ | ⟨_, final, ran, kept, credits⟩
  · refine ⟨?_, ?_⟩
    · intro other after ran
      rw [failed] at ran
      cases ran
      rfl
    · intro after ran
      rw [failed] at ran
      cases ran
  · refine ⟨?_, ?_⟩
    · intro other after failed
      rw [ran] at failed
      cases failed
    · intro after isAfter
      rw [ran] at isAfter
      cases isAfter
      exact ⟨kept.value, kept.covered, credits⟩

/-- A funded ledger on which a validator registers, is delegated to and is slashed by a half, and
an unbonding entry is claimed. -/
def sampleStart : StakingManager :=
  { accounts := (AList.singleton 1 (3 * minSelfDelegation)).insert 2 1001 }

def sampleOps : List Operation :=
  [.registerValidator 1 7 100 (2 * minSelfDelegation), .delegate 2 1 1001, .undelegate 2 1 500 10,
    .slash 1 5000 .doubleSign 11, .claimUnbonded 2 302409, .claimUnbonded 2 302410]

theorem sampleStart_reachable : Reachable sampleStart := by
  apply Reachable.genesis
  · rfl
  · intro validator val found
    cases found
  · decide +kernel

theorem run_conserves_slashAndClaim : (sampleStart.run sampleOps).balance 2 = 500 ∧
    (sampleStart.run sampleOps).cumulativeBurned ≠ 0 ∧
    (sampleStart.run sampleOps).value = sampleStart.value := by
  refine ⟨by decide +kernel, by decide +kernel, ?_⟩
  have conserved := sampleStart_reachable.run_conserves sampleOps (by
    intro op member
    simp only [sampleOps, List.mem_cons, List.not_mem_nil, or_false] at member
    rcases member with rfl | rfl | rfl | rfl | rfl | rfl
    · trivial
    · trivial
    · trivial
    · change (5000 : Bps).val ≤ 10000
      decide
    · trivial
    · trivial)
  exact conserved.1

end Runs

end TorusHyperBft.Staking
