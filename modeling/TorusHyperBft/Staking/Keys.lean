import TorusHyperBft.Staking.Faces

namespace TorusHyperBft.Staking

/-! Which keys the validator rows carry. Only a registration adds one; no operation changes or
drops one. -/

open Program StakingManager

def ValidatorState.identity (val : ValidatorState) : Address × BitVec 256 :=
  (val.address, val.pubkey)

def StakingManager.identityAt (mgr : StakingManager) (address : Address) :
    Option (Address × BitVec 256) :=
  (mgr.getValidator address).map ValidatorState.identity

/-- No validator's key or signer changes. -/
def SameKeys (mgr after : StakingManager) : Prop :=
  ∀ address, after.identityAt address = mgr.identityAt address

section Writes

variable {mgr state after : StakingManager} {validator : Address} {val written : ValidatorState}

theorem identityAt_of (found : mgr.getValidator validator = some val) :
    mgr.identityAt validator = some val.identity := by
  simp [identityAt, found]

theorem identityAt_putValidator (address : Address) :
    (mgr.putValidator validator val).identityAt address =
      if address = validator then some val.identity else mgr.identityAt address := by
  unfold identityAt
  rw [getValidator_putValidator]
  split
  · rfl
  · rfl

theorem SameKeys.of_rows (same : SameKeys mgr state) (rows : after.validators = state.validators) :
    SameKeys mgr after := by
  intro address
  rw [← same address]
  unfold identityAt getValidator
  rw [rows]

theorem SameKeys.putValidator (same : SameKeys mgr state)
    (read : mgr.identityAt validator = some val.identity) (kept : written.identity = val.identity) :
    SameKeys mgr (state.putValidator validator written) := by
  intro address
  rw [identityAt_putValidator]
  split
  · rename_i here
    rw [here, read, kept]
  · exact same address

theorem SameKeys.read (same : SameKeys mgr state)
    (found : state.getValidator validator = some val) :
    mgr.identityAt validator = some val.identity := by
  rw [← same validator]
  exact identityAt_of found

end Writes

theorem SameFaces.sameKeys {mgr after : StakingManager} (same : SameFaces mgr after) :
    SameKeys mgr after := by
  have ofFace : ∀ (state : StakingManager) (address : Address),
      state.identityAt address = (state.faceAt address).map ValidatorState.identity := by
    intro state address
    unfold identityAt faceAt
    rw [Option.map_map]
    rfl
  intro address
  rw [ofFace, ofFace, same.faces]

section Operations

variable {mgr : StakingManager} {β : Type}

theorem keeps_validator {error : EconomicsError} {validator : Address}
    {next : ValidatorState → StakingM β}
    (rest : ∀ val, mgr.identityAt validator = some val.identity →
      Keeps (SameKeys mgr) (next val)) :
    Keeps (SameKeys mgr) (get >>= fun state => okOr error (state.getValidator validator) >>= next) := by
  apply keeps_get
  intro state same
  apply keeps_okOr
  intro val found
  exact rest val (same.read found)

theorem keeps_rows {change : StakingManager → StakingManager}
    (rows : ∀ state, (change state).validators = state.validators) :
    Keeps (SameKeys mgr) (modify change : StakingM Unit) :=
  keeps_modify fun state same => same.of_rows (rows state)

theorem keeps_putValidator {validator : Address} {val written : ValidatorState}
    (read : mgr.identityAt validator = some val.identity) (kept : written.identity = val.identity) :
    Keeps (SameKeys mgr)
      (modify fun state => state.putValidator validator written : StakingM Unit) :=
  keeps_modify fun _ same => same.putValidator read kept

theorem slashDelegations_validators (state : StakingManager) (validator : Address)
    (fractionBps : Bps) (selfSlash : U256) :
    (state.slashDelegations validator fractionBps selfSlash).1.validators = state.validators := by
  have each : ∀ (rows : List Delegation) (progress : StakingManager × U256),
      (rows.foldl (slashDelegation validator fractionBps) progress).1.validators =
        progress.1.validators := by
    intro rows
    induction rows with
    | nil => intro progress; rfl
    | cons row rest ih =>
      intro progress
      rw [List.foldl_cons, ih]
      unfold slashDelegation
      dsimp only
      split
      · rfl
      · rfl
  exact each _ _

theorem autoJail_identity (val : ValidatorState) (currentBlock : U64) :
    (val.autoJail currentBlock).identity = val.identity := by
  unfold ValidatorState.autoJail
  split
  · rfl
  · rfl

theorem executeBurn_validators (state : StakingManager) (amount : U256) :
    (state.executeBurn amount).validators = state.validators := by
  unfold executeBurn
  split
  · rfl
  · rfl

theorem slash_keeps (validator : Address) (fractionBps : Bps) (reason : SlashReason)
    (currentBlock : U64) : Keeps (SameKeys mgr)
    (slash validator fractionBps reason currentBlock) := by
  apply keeps_get
  intro state same
  apply keeps_okOr
  intro val found
  apply keeps_bind (keeps_set (same.of_rows (slashDelegations_validators state _ _ _)))
  intro _
  apply keeps_bind
  · exact keeps_putValidator (same.read found) (autoJail_identity _ _)
  intro _
  apply keeps_bind (keeps_rows fun state => executeBurn_validators state _)
  intro _
  exact keeps_bind (keeps_rows fun _ => rfl) fun _ => keeps_pure _

theorem jailValidator_keeps (validator : Address) (durationBlocks currentBlock : U64) :
    Keeps (SameKeys mgr) (jailValidator validator durationBlocks currentBlock) := by
  apply keeps_validator
  intro val read
  apply keeps_guard
  · intro _
    exact keeps_putValidator read rfl

theorem tombstoneValidator_keeps (validator : Address) :
    Keeps (SameKeys mgr) (tombstoneValidator validator) := by
  apply keeps_validator
  intro val read
  exact keeps_putValidator read rfl

theorem deleteJailVotes_validators (state : StakingManager) (keys : List (Address × Address)) :
    (keys.foldl deleteJailVote state).validators = state.validators := by
  obtain ⟨votes, eq⟩ := @foldl_deleteJailVote state keys
  rw [eq]

theorem tallyJailVotes_keeps (target : Address) (currentBlock : U64) :
    Keeps (SameKeys mgr) (tallyJailVotes target currentBlock) := by
  apply keeps_get
  intro _ _
  exact keeps_bind (keeps_rows fun state => deleteJailVotes_validators state _) fun _ => keeps_pure _

theorem recordJailVote_keeps (voter target : Address) (currentBlock : U64) :
    Keeps (SameKeys mgr) (recordJailVote voter target currentBlock) := by
  apply keeps_validator
  intro voterVal _
  apply keeps_guard
  intro _
  apply keeps_validator
  intro targetVal _
  apply keeps_guard
  intro _
  apply keeps_bind
  · exact keeps_rows fun _ => rfl
  intro _
  apply keeps_bind (tallyJailVotes_keeps _ _)
  intro _
  apply keeps_get
  intro _ _
  apply keeps_ite
  · intro _
    apply keeps_bind (slash_keeps _ _ _ _)
    intro _
    exact keeps_bind (jailValidator_keeps _ _ _) fun _ => keeps_pure _
  · intro _
    exact keeps_pure _

theorem unjail_keeps (validator : Address) (currentBlock : U64) :
    Keeps (SameKeys mgr) (unjail validator currentBlock) := by
  apply keeps_validator
  intro val read
  apply keeps_guard
  intro _
  apply keeps_guard
  intro _
  apply keeps_guard
  intro _
  apply keeps_guard
  intro _
  apply keeps_bind
  · exact keeps_putValidator read rfl
  intro _
  exact keeps_rows fun state => deleteJailVotes_validators state _

end Operations

def Operation.registers : Operation → Option (Address × BitVec 256)
  | .registerValidator sender pubkey _ _ => some (sender, pubkey)
  | _ => none

theorem Operation.keeps {mgr : StakingManager} (op : Operation) (none : op.registers = none) :
    Keeps (SameKeys mgr) op.run := by
  have discard {α : Type} {program : StakingM α} (kept : Keeps (SameKeys mgr) program) :
      Keeps (SameKeys mgr) (do let _ ← program) := keeps_bind kept fun _ => keeps_pure _
  cases op with
  | registerValidator sender pubkey commissionBps selfStake => cases none
  | slash validator fractionBps reason currentBlock => exact discard (slash_keeps _ _ _ _)
  | jail validator durationBlocks currentBlock => exact jailValidator_keeps _ _ _
  | unjail validator currentBlock => exact unjail_keeps _ _
  | tombstone validator => exact tombstoneValidator_keeps _
  | recordJailVote voter target currentBlock => exact discard (recordJailVote_keeps _ _ _)
  | _ =>
    intro state same address
    refine ((Operation.sameFaces ?_).sameKeys address).trans (same address)
    trivial

theorem registerValidator_identity {mgr : StakingManager} (sender : Address) (pubkey : BitVec 256)
    (commissionBps : Bps) (selfStake : U256) :
    Settles (registerValidator sender pubkey commissionBps selfStake) mgr fun _ after =>
      mgr.getValidator sender = none ∧ ∀ address, after.identityAt address =
        if address = sender then some (sender, pubkey) else mgr.identityAt address := by
  apply settles_guard
  intro _
  apply settles_guard
  intro _
  apply settles_get
  apply settles_guard
  intro unregistered
  apply settles_get
  apply settles_guard
  intro _
  apply settles_bind (debitBalance_settles sender selfStake)
  rintro _ middle ⟨_, rfl⟩
  refine ⟨(), _, rfl, by simpa using unregistered, ?_⟩
  intro address
  rw [identityAt_putValidator]
  rfl

theorem step_eq_final (mgr : StakingManager) (op : Operation) : mgr.step op = final op.run mgr := by
  unfold StakingManager.step final
  cases op.run mgr with
  | ok value after => rfl
  | error error after => rfl

/-- Only a registration changes a validator's key, and only its own. -/
theorem step_identity (mgr : StakingManager) (op : Operation) :
    SameKeys mgr (mgr.step op) ∨ ∃ sender pubkey, op.registers = some (sender, pubkey) ∧
      mgr.getValidator sender = none ∧ ∀ address, (mgr.step op).identityAt address =
        if address = sender then some (sender, pubkey) else mgr.identityAt address := by
  rw [step_eq_final]
  cases registers : op.registers with
  | none => exact .inl (op.keeps registers mgr fun _ => rfl)
  | some registered =>
    cases op with
    | registerValidator sender pubkey commissionBps selfStake =>
      change SameKeys mgr (final (registerValidator sender pubkey commissionBps selfStake) mgr) ∨
        ∃ _ _, _ ∧ _ ∧ ∀ address,
          (final (registerValidator sender pubkey commissionBps selfStake) mgr).identityAt address = _
      rcases @registerValidator_identity mgr sender pubkey commissionBps selfStake with
        ⟨error, failed⟩ | ⟨_, after, ran, unregistered, written⟩
      · simp only [final, failed]
        exact .inl fun _ => rfl
      · simp only [final, ran]
        exact .inr ⟨sender, pubkey, registers.symm, unregistered, written⟩
    | _ => cases registers

end TorusHyperBft.Staking
