import TorusHyperBft.Staking.Conserved

namespace TorusHyperBft.Staking

/-! What moving stakes leaves alone: each row apart from its stakes, and the jail votes. -/

open Program StakingManager

def ValidatorState.face (val : ValidatorState) : ValidatorState :=
  { val with selfStake := 0, totalDelegated := 0 }

def StakingManager.faceAt (mgr : StakingManager) (address : Address) : Option ValidatorState :=
  (mgr.getValidator address).map ValidatorState.face

/-- Every validator's status and the votes are as before. -/
structure SameFaces (mgr after : StakingManager) : Prop where
  faces : ∀ address, after.faceAt address = mgr.faceAt address
  votes : after.jailVotes = mgr.jailVotes

section Writes

variable {mgr state after : StakingManager} {validator : Address} {val written : ValidatorState}

theorem SameFaces.refl : SameFaces mgr mgr := ⟨fun _ => rfl, rfl⟩

theorem SameFaces.of_rows (same : SameFaces mgr state) (rows : after.validators = state.validators)
    (votes : after.jailVotes = state.jailVotes) : SameFaces mgr after := by
  refine ⟨?_, votes.trans same.votes⟩
  intro address
  rw [← same.faces address]
  unfold faceAt getValidator
  rw [rows]

theorem SameFaces.putValidator (same : SameFaces mgr state)
    (read : mgr.faceAt validator = some val.face) (kept : written.face = val.face) :
    SameFaces mgr (state.putValidator validator written) := by
  refine ⟨?_, same.votes⟩
  intro address
  unfold faceAt
  rw [getValidator_putValidator]
  split
  · rename_i here
    rw [here, Option.map_some, kept]
    exact read.symm
  · exact same.faces address

theorem SameFaces.read (same : SameFaces mgr state)
    (found : state.getValidator validator = some val) :
    mgr.faceAt validator = some val.face := by
  rw [← same.faces validator, faceAt, found]
  rfl

end Writes

section Operations

variable {mgr : StakingManager} {α β : Type}

theorem keeps_okOr {error : EconomicsError} {found : Option α} {next : α → StakingM β}
    {holds : StakingManager → Prop} (rest : ∀ value, found = some value → Keeps holds (next value)) :
    Keeps holds (okOr error found >>= next) := by
  cases found with
  | none => exact fun _ held => held
  | some value => exact rest value rfl

theorem faces_validator {error : EconomicsError} {validator : Address}
    {next : ValidatorState → StakingM β}
    (rest : ∀ val, mgr.faceAt validator = some val.face → Keeps (SameFaces mgr) (next val)) :
    Keeps (SameFaces mgr) (get >>= fun state => okOr error (state.getValidator validator) >>= next) := by
  apply keeps_get
  intro state same
  apply keeps_okOr
  intro val found
  exact rest val (same.read found)

theorem faces_rows {change : StakingManager → StakingManager}
    (rows : ∀ state, (change state).validators = state.validators ∧
      (change state).jailVotes = state.jailVotes) :
    Keeps (SameFaces mgr) (modify change : StakingM Unit) :=
  keeps_modify fun state same => same.of_rows (rows state).1 (rows state).2

theorem faces_putValidator {validator : Address} {val written : ValidatorState}
    (read : mgr.faceAt validator = some val.face) (kept : written.face = val.face) :
    Keeps (SameFaces mgr)
      (modify fun state => state.putValidator validator written : StakingM Unit) :=
  keeps_modify fun _ same => same.putValidator read kept

theorem debitBalance_faces (address : Address) (amount : U256) :
    Keeps (SameFaces mgr) (debitBalance address amount) := by
  apply keeps_get
  intro state _
  apply keeps_guard
  · intro _
    exact faces_rows fun _ => ⟨rfl, rfl⟩

theorem delegate_faces (delegator validator : Address) (amount : U256) :
    Keeps (SameFaces mgr) (delegate delegator validator amount) := by
  apply keeps_ite
  · intro _
    exact keeps_pure _
  intro _
  apply faces_validator
  intro val read
  apply keeps_guard
  intro _
  apply keeps_guard
  intro _
  apply keeps_bind (debitBalance_faces _ _)
  intro _
  apply keeps_bind
  · exact faces_rows fun _ => ⟨rfl, rfl⟩
  intro _
  exact faces_putValidator read rfl

theorem undelegate_faces (delegator validator : Address) (amount : U256) (currentBlock : U64) :
    Keeps (SameFaces mgr) (undelegate delegator validator amount currentBlock) := by
  apply keeps_ite
  · intro _
    exact keeps_pure _
  intro _
  apply faces_validator
  intro val read
  apply keeps_get
  intro _ _
  apply keeps_okOr
  intro delegation _
  apply keeps_guard
  intro _
  apply keeps_guard
  intro _
  apply keeps_bind
  · exact faces_rows fun _ => ⟨rfl, rfl⟩
  intro _
  exact faces_putValidator read rfl

theorem settleDelegation_rows (state : StakingManager) (key : DelegationKey)
    (delegation : Delegation) :
    (state.settleDelegation key delegation).validators = state.validators ∧
      (state.settleDelegation key delegation).jailVotes = state.jailVotes := by
  unfold settleDelegation
  split
  · exact ⟨rfl, rfl⟩
  · exact ⟨rfl, rfl⟩

theorem creditBalance_faces (address : Address) (amount : U256) :
    Keeps (SameFaces mgr) (creditBalance address amount) := faces_rows fun _ => ⟨rfl, rfl⟩

theorem processUnbonding_faces (delegator validator : Address) (currentBlock : U64) :
    Keeps (SameFaces mgr) (processUnbonding delegator validator currentBlock) := by
  apply keeps_get
  intro state _
  cases state.getDelegationRaw (delegator, validator) with
  | none => exact keeps_pure _
  | some delegation =>
    have settles : Keeps (SameFaces mgr) (do
        modify fun mgr =>
          mgr.settleDelegation (delegator, validator) (delegation.remaining currentBlock)
        pure (released currentBlock delegation.unbonding)) :=
      keeps_bind (faces_rows fun state => settleDelegation_rows state _ _)
        fun _ => keeps_pure _
    apply keeps_ite
    · intro _
      exact keeps_bind (creditBalance_faces _ _) fun _ => settles
    · intro _
      exact settles

theorem claimUnbonded_faces (delegator : Address) (currentBlock : U64) :
    Keeps (SameFaces mgr) (claimUnbonded delegator currentBlock) := by
  apply keeps_get
  intro state _
  cases claimRows currentBlock (state.delegationsForDelegator delegator) 0 [] with
  | error error => exact keeps_throw _
  | ok claimed =>
    apply keeps_guard
    intro _
    apply keeps_okOr
    intro balance _
    refine keeps_bind (faces_rows ?_) fun _ => keeps_pure _
    intro state
    change (claimed.2.foldl _ state).validators = _ ∧ (claimed.2.foldl _ state).jailVotes = _
    induction claimed.2 generalizing state with
    | nil => exact ⟨rfl, rfl⟩
    | cons row rest ih =>
      have first := settleDelegation_rows state (delegator, row.validator) row
      exact ⟨(ih _).1.trans first.1, (ih _).2.trans first.2⟩

theorem permanentStake_faces (staker : Address) (amount : U256) (currentBlock : U64) :
    Keeps (SameFaces mgr) (permanentStake staker amount currentBlock) := by
  apply keeps_ite
  · intro _
    exact keeps_pure _
  intro _
  apply keeps_bind (debitBalance_faces _ _)
  intro _
  exact faces_rows fun _ => ⟨rfl, rfl⟩

theorem applyStagedWrites_rows (state : StakingManager) (writes : List StagedWrite) :
    (writes.foldl applyStagedWrite state).validators = state.validators ∧
      (writes.foldl applyStagedWrite state).jailVotes = state.jailVotes := by
  induction writes generalizing state with
  | nil => exact ⟨rfl, rfl⟩
  | cons write rest ih =>
    rw [List.foldl_cons, (ih _).1, (ih _).2]
    cases write with
    | permanent staker info => cases info <;> exact ⟨rfl, rfl⟩
    | clearRewards staker => exact ⟨rfl, rfl⟩
    | account address balance => exact ⟨rfl, rfl⟩

theorem governanceUnlock_faces (staker : Address) (amount : U256) :
    Keeps (SameFaces mgr) (governanceUnlockPermanentStake staker amount) := by
  apply keeps_bind
  · apply keeps_ite
    · intro _
      exact keeps_throw _
    intro _
    apply keeps_get
    intro _ _
    apply keeps_okOr
    intro info _
    apply keeps_guard
    · intro _
      exact keeps_pure _
  · intro writes
    exact faces_rows fun state => applyStagedWrites_rows state writes

theorem claimRewards_faces (address : Address) :
    Keeps (SameFaces mgr) (claimRewards address) := by
  apply keeps_get
  intro _ _
  apply keeps_okOr
  intro rewards _
  apply keeps_guard
  intro _
  apply keeps_bind (creditBalance_faces _ _)
  intro _
  exact keeps_bind (faces_rows fun _ => ⟨rfl, rfl⟩) fun _ => keeps_pure _

theorem topUpSelfStake_faces (validator : Address) (amount : U256) :
    Keeps (SameFaces mgr) (topUpSelfStake validator amount) := by
  apply keeps_ite
  · intro _
    exact keeps_pure _
  intro _
  apply faces_validator
  intro val read
  apply keeps_bind (debitBalance_faces _ _)
  intro _
  exact faces_putValidator read rfl

end Operations

/-- The operation changes no status and no vote. -/
def Operation.Neutral : Operation → Prop
  | .registerValidator .. | .slash .. | .jail .. | .unjail .. | .tombstone .. | .recordJailVote .. =>
    False
  | _ => True

theorem Operation.sameFaces {mgr : StakingManager} {op : Operation} (neutral : op.Neutral) :
    SameFaces mgr (final op.run mgr) := by
  have discard {α : Type} {program : StakingM α} (kept : Keeps (SameFaces mgr) program) :
      Keeps (SameFaces mgr) (do let _ ← program) := keeps_bind kept fun _ => keeps_pure _
  suffices kept : Keeps (SameFaces mgr) op.run from kept mgr .refl
  cases op with
  | delegate delegator validator amount => exact delegate_faces _ _ _
  | undelegate delegator validator amount currentBlock => exact undelegate_faces _ _ _ _
  | processUnbonding delegator validator currentBlock => exact discard (processUnbonding_faces _ _ _)
  | claimUnbonded delegator currentBlock => exact discard (claimUnbonded_faces _ _)
  | permanentStake staker amount currentBlock => exact permanentStake_faces _ _ _
  | governanceUnlock staker amount => exact governanceUnlock_faces _ _
  | claimRewards address => exact discard (claimRewards_faces _)
  | topUpSelfStake validator amount => exact topUpSelfStake_faces _ _
  | _ => cases neutral

end TorusHyperBft.Staking
