import TorusHyperBft.Epoch.Planned

namespace TorusHyperBft.Epoch

open List

/-! The rows and the requests, step by step: a request, a rotation, a new status. -/

open Staking Program

namespace EpochState

variable {state after : EpochState} {decodes : PubKey → Bool} {current : List PlanMember}

/-- The rows and the requests are those of another state. -/
structure SameRequests (state after : EpochState) : Prop where
  rows : SameKeys state.staking after.staking
  pending : after.pendingRotations = state.pendingRotations

theorem SameRequests.rowKey (same : SameRequests state after) (address : Address) :
    after.rowKey address = state.rowKey address := by
  unfold EpochState.rowKey
  rw [same.rows address]

theorem SameRequests.requested (same : SameRequests state after) (address : Address) :
    after.requested address = state.requested address := by
  unfold EpochState.requested
  rw [same.pending]

theorem Keys.of_same (keys : Keys decodes state) (same : SameRequests state after) :
    Keys decodes after where
  keyed address identity found := keys.keyed address identity ((same.rows address).symm.trans found)
  valid address key found := keys.valid address key ((same.rowKey address).symm.trans found)
  apart address other key found otherFound := keys.apart address other key
    ((same.rowKey address).symm.trans found) ((same.rowKey other).symm.trans otherFound)
  asks address request found := keys.asks address request (same.pending ▸ found)
  askedValid address key asked := keys.askedValid address key
    ((same.requested address).symm.trans asked)
  askedApart address other key asked otherAsked := keys.askedApart address other key
    ((same.requested address).symm.trans asked) ((same.requested other).symm.trans otherAsked)
  askedFresh address other key asked := by
    rw [same.rowKey other]
    exact keys.askedFresh address other key ((same.requested address).symm.trans asked)

/-- Rows and requests are added, and none is changed. -/
structure Extends (state after : EpochState) : Prop where
  rows : ∀ address key, state.rowKey address = some key → after.rowKey address = some key
  asked : ∀ address key, state.requested address = some key → after.requested address = some key

theorem SameRequests.extends (same : SameRequests state after) : Extends state after where
  rows address _ found := (same.rowKey address).trans found
  asked address _ asked := (same.requested address).trans asked

theorem Carried.extend {members : List PlanMember} (carried : Carried state members)
    (ext : Extends state after) : Carried after members where
  distinct := carried.distinct
  rows member inside := ext.rows _ _ (carried.rows member inside)

theorem Fits.extend {plan : EpochRotationPlan} (fits : Fits state current plan)
    (ext : Extends state after) : Fits after current plan where
  unchanged := fits.unchanged
  distinct := fits.distinct
  rows member inside := (fits.rows member inside).imp fun _ found => ext.rows _ _ found
  keys member inside := (fits.keys member inside).imp_right fun kept =>
    ⟨kept.1, ext.rows _ _ kept.2⟩
  asked rotation inside := ext.asked _ _ (fits.asked rotation inside)
  once := fits.once
  deletes := fits.deletes
  spared := fits.spared

section Steps

/-- A key that no row has and that nobody has asked for. -/
structure Unused (decodes : PubKey → Bool) (state : EpochState) (key : PubKey) : Prop where
  valid : decodes key
  rows : ∀ address, state.rowKey address ≠ some key
  asked : ∀ address, state.requested address ≠ some key

theorem Keys.register {sender : Address} {pubkey : PubKey} (keys : Keys decodes state)
    (unused : Unused decodes state pubkey)
    (pending : after.pendingRotations = state.pendingRotations)
    (written : ∀ address, after.staking.identityAt address =
      if address = sender then some (sender, pubkey) else state.staking.identityAt address) :
    Keys decodes after := by
  have rowKey : ∀ address, after.rowKey address =
      if address = sender then some pubkey else state.rowKey address := by
    intro address
    unfold EpochState.rowKey
    rw [written]
    split
    · rfl
    · rfl
  have requested : ∀ address, after.requested address = state.requested address := by
    intro address
    unfold EpochState.requested
    rw [pending]
  refine ⟨?_, ?_, ?_, ?_, ?_, ?_, ?_⟩
  · intro address identity found
    rw [written] at found
    split at found
    · rename_i here
      cases found
      exact here.symm
    · exact keys.keyed address identity found
  · intro address key found
    rw [rowKey] at found
    split at found
    · cases found
      exact unused.valid
    · exact keys.valid address key found
  · intro address other key found otherFound
    rw [rowKey] at found otherFound
    split at found <;> split at otherFound
    · rename_i here there
      exact here.trans there.symm
    · cases found
      exact absurd otherFound (unused.rows other)
    · cases otherFound
      exact absurd found (unused.rows address)
    · exact keys.apart address other key found otherFound
  · intro address request found
    exact keys.asks address request (pending ▸ found)
  · intro address key asked
    exact keys.askedValid address key (requested address ▸ asked)
  · intro address other key asked otherAsked
    exact keys.askedApart address other key (requested address ▸ asked) (requested other ▸ otherAsked)
  · intro address other key asked found
    rw [requested] at asked
    rw [rowKey] at found
    split at found
    · cases found
      exact unused.asked address asked
    · exact keys.askedFresh address other key asked found

theorem Extends.register {sender : Address} {pubkey : PubKey}
    (unregistered : state.staking.getValidator sender = none)
    (pending : after.pendingRotations = state.pendingRotations)
    (written : ∀ address, after.staking.identityAt address =
      if address = sender then some (sender, pubkey) else state.staking.identityAt address) :
    Extends state after := by
  constructor
  · intro address key found
    unfold EpochState.rowKey at found ⊢
    rw [written]
    split
    · rename_i here
      simp [StakingManager.identityAt, here, unregistered] at found
    · exact found
  · intro address key asked
    unfold EpochState.requested at asked ⊢
    rw [pending]
    exact asked

theorem acceptsRotation_fresh {validator : Address} {newPubkey : PubKey}
    (accepted : state.acceptsRotation validator newPubkey) :
    state.pendingRotations.lookup validator = none ∧
      ∀ address, state.rowKey address ≠ some newPubkey := by
  unfold acceptsRotation at accepted
  split at accepted
  · cases accepted
  · rw [Bool.and_eq_true, Bool.and_eq_true, all_eq_true, Option.isNone_iff_eq_none] at accepted
    refine ⟨accepted.1.2, ?_⟩
    intro address found
    obtain ⟨identity, row, key⟩ := Option.map_eq_some_iff.mp found
    obtain ⟨val, stored, rfl⟩ := Option.map_eq_some_iff.mp row
    have other := accepted.2 val (mem_allValidators.mpr ⟨address, stored⟩)
    rw [decide_eq_true_eq] at other
    exact other key

variable {validator : Address} {newPubkey : PubKey} {currentEpoch currentBlock : Nat}

theorem requested_submitKeyRotation (accepted : state.acceptsRotation validator newPubkey)
    (address : Address) :
    (state.submitKeyRotation validator newPubkey currentEpoch currentBlock).requested address =
      if address = validator then some newPubkey else state.requested address := by
  unfold submitKeyRotation
  rw [if_pos accepted]
  unfold requested
  dsimp only
  split
  · rename_i here
    rw [here, AList.lookup_insert]
    rfl
  · rename_i elsewhere
    rw [AList.lookup_insert_ne elsewhere]

theorem submitKeyRotation_staking :
    (state.submitKeyRotation validator newPubkey currentEpoch currentBlock).staking =
      state.staking := by
  unfold submitKeyRotation
  split
  · rfl
  · rfl

theorem Extends.submit :
    Extends state (state.submitKeyRotation validator newPubkey currentEpoch currentBlock) := by
  by_cases accepted : state.acceptsRotation validator newPubkey
  · constructor
    · intro address key found
      unfold EpochState.rowKey
      rw [submitKeyRotation_staking]
      exact found
    · intro address key asked
      rw [requested_submitKeyRotation accepted]
      split
      · rename_i here
        rw [here] at asked
        unfold requested at asked
        rw [(acceptsRotation_fresh accepted).1] at asked
        cases asked
      · exact asked
  · unfold submitKeyRotation
    rw [if_neg accepted]
    exact ⟨fun _ _ found => found, fun _ _ asked => asked⟩

theorem Keys.submit (keys : Keys decodes state)
    (fresh : state.acceptsRotation validator newPubkey →
      decodes newPubkey ∧ ∀ address, state.requested address ≠ some newPubkey) :
    Keys decodes (state.submitKeyRotation validator newPubkey currentEpoch currentBlock) := by
  by_cases accepted : state.acceptsRotation validator newPubkey
  · obtain ⟨valid, notAsked⟩ := fresh accepted
    have rowKey : ∀ address, (state.submitKeyRotation validator newPubkey currentEpoch
        currentBlock).rowKey address = state.rowKey address := by
      intro address
      unfold EpochState.rowKey
      rw [submitKeyRotation_staking]
    refine ⟨?_, ?_, ?_, ?_, ?_, ?_, ?_⟩
    · rw [submitKeyRotation_staking]
      exact keys.keyed
    · intro address key found
      exact keys.valid address key (rowKey address ▸ found)
    · intro address other key found otherFound
      exact keys.apart address other key (rowKey address ▸ found) (rowKey other ▸ otherFound)
    · intro address request found
      unfold submitKeyRotation at found
      rw [if_pos accepted] at found
      by_cases here : address = validator
      · subst here
        rw [AList.lookup_insert] at found
        cases found
        rfl
      · rw [AList.lookup_insert_ne here] at found
        exact keys.asks address request found
    · intro address key asked
      rw [requested_submitKeyRotation accepted] at asked
      split at asked
      · cases asked
        exact valid
      · exact keys.askedValid address key asked
    · intro address other key asked otherAsked
      rw [requested_submitKeyRotation accepted] at asked otherAsked
      split at asked <;> split at otherAsked
      · rename_i here there
        exact here.trans there.symm
      · cases asked
        exact absurd otherAsked (notAsked other)
      · cases otherAsked
        exact absurd asked (notAsked address)
      · exact keys.askedApart address other key asked otherAsked
    · intro address other key asked found
      rw [requested_submitKeyRotation accepted] at asked
      rw [rowKey] at found
      split at asked
      · cases asked
        exact (acceptsRotation_fresh accepted).2 other found
      · exact keys.askedFresh address other key asked found
  · unfold submitKeyRotation
    rw [if_neg accepted]
    exact keys

end Steps

section Apply

variable {rotation : Address × PubKey} {rotations : List (Address × PubKey)}

theorem identityAt_applyRotation (address : Address) :
    (state.applyRotation rotation).staking.identityAt address =
      if address = rotation.1 then
        (state.staking.identityAt address).map fun identity => (identity.1, rotation.2)
      else state.staking.identityAt address := by
  unfold applyRotation
  dsimp only
  cases found : state.staking.getValidator rotation.1 with
  | none =>
    dsimp only
    split
    · rename_i here
      simp [StakingManager.identityAt, here, found]
    · rfl
  | some val =>
    dsimp only
    rw [identityAt_putValidator]
    split
    · rename_i here
      rw [here, identityAt_of found]
      rfl
    · rfl

theorem rowKey_applyRotation (address : Address) :
    (state.applyRotation rotation).rowKey address =
      if address = rotation.1 then (state.rowKey address).map fun _ => rotation.2
      else state.rowKey address := by
  unfold EpochState.rowKey
  rw [identityAt_applyRotation]
  split
  · rw [Option.map_map, Option.map_map]
    rfl
  · rfl

theorem pending_applyRotation (asked : state.requested rotation.1 = some rotation.2) :
    (state.applyRotation rotation).pendingRotations = state.pendingRotations.erase rotation.1 := by
  obtain ⟨request, found, key⟩ := Option.map_eq_some_iff.mp asked
  unfold applyRotation
  dsimp only
  rw [found]
  exact if_pos key

theorem requested_applyRotation (asked : state.requested rotation.1 = some rotation.2)
    (address : Address) : (state.applyRotation rotation).requested address =
      if address = rotation.1 then none else state.requested address := by
  unfold EpochState.requested
  rw [pending_applyRotation asked]
  split
  · rename_i here
    rw [here, AList.lookup_erase]
    rfl
  · rename_i elsewhere
    rw [AList.lookup_erase_ne elsewhere]

theorem Keys.applyRotation (keys : Keys decodes state)
    (asked : state.requested rotation.1 = some rotation.2) :
    Keys decodes (state.applyRotation rotation) := by
  have stillAsked : ∀ address key, (state.applyRotation rotation).requested address = some key →
      address ≠ rotation.1 ∧ state.requested address = some key := by
    intro address key found
    rw [requested_applyRotation asked] at found
    split at found
    · cases found
    · rename_i elsewhere
      exact ⟨elsewhere, found⟩
  -- The key of a row is the one it had, or it is the requested one and the row is the requester's.
  have hasKey : ∀ address key, (state.applyRotation rotation).rowKey address = some key →
      (address = rotation.1 ∧ key = rotation.2) ∨
        (address ≠ rotation.1 ∧ state.rowKey address = some key) := by
    intro address key found
    rw [rowKey_applyRotation] at found
    split at found
    · rename_i here
      obtain ⟨_, _, rfl⟩ := Option.map_eq_some_iff.mp found
      exact .inl ⟨here, rfl⟩
    · rename_i elsewhere
      exact .inr ⟨elsewhere, found⟩
  refine ⟨?_, ?_, ?_, ?_, ?_, ?_, ?_⟩
  · intro address identity found
    rw [identityAt_applyRotation] at found
    split at found
    · obtain ⟨before, read, rfl⟩ := Option.map_eq_some_iff.mp found
      exact keys.keyed address before read
    · exact keys.keyed address identity found
  · intro address key found
    rcases hasKey address key found with ⟨_, rfl⟩ | ⟨_, before⟩
    · exact keys.askedValid _ _ asked
    · exact keys.valid address key before
  · intro address other key found otherFound
    rcases hasKey address key found with ⟨here, rfl⟩ | ⟨_, before⟩ <;>
      rcases hasKey other _ otherFound with ⟨there, otherKey⟩ | ⟨_, otherBefore⟩
    · exact here.trans there.symm
    · exact absurd otherBefore (keys.askedFresh _ _ _ asked)
    · rw [otherKey] at before
      exact absurd before (keys.askedFresh _ _ _ asked)
    · exact keys.apart address other key before otherBefore
  · intro address request found
    rw [pending_applyRotation asked] at found
    by_cases here : address = rotation.1
    · rw [here, AList.lookup_erase] at found
      cases found
    · rw [AList.lookup_erase_ne here] at found
      exact keys.asks address request found
  · intro address key found
    exact keys.askedValid address key (stillAsked address key found).2
  · intro address other key found otherFound
    exact keys.askedApart address other key (stillAsked address key found).2
      (stillAsked other key otherFound).2
  · intro address other key found inRow
    obtain ⟨elsewhere, before⟩ := stillAsked address key found
    rcases hasKey other key inRow with ⟨_, rfl⟩ | ⟨_, rowBefore⟩
    · exact elsewhere (keys.askedApart _ _ _ before asked)
    · exact keys.askedFresh address other key before rowBefore

/-- These rotations are applied and no other key changes. -/
structure Rotates (rotations : List (Address × PubKey)) (decodes : PubKey → Bool)
    (state after : EpochState) : Prop where
  keys : Keys decodes after
  rotated : ∀ rotation ∈ rotations, ∀ key, state.rowKey rotation.1 = some key →
    after.rowKey rotation.1 = some rotation.2
  kept : ∀ address, (∀ rotation ∈ rotations, rotation.1 ≠ address) →
    after.rowKey address = state.rowKey address

theorem applyRotations_rotates (keys : Keys decodes state)
    (asked : ∀ rotation ∈ rotations, state.requested rotation.1 = some rotation.2)
    (once : (rotations.map Prod.fst).Nodup) :
    Rotates rotations decodes state (rotations.foldl EpochState.applyRotation state) := by
  induction rotations generalizing state with
  | nil => exact ⟨keys, fun _ none => (nomatch none), fun _ _ => rfl⟩
  | cons first rest ih =>
    rw [map_cons, nodup_cons] at once
    have firstAsked := asked first mem_cons_self
    have others : ∀ rotation ∈ rest, rotation.1 ≠ first.1 := by
      intro rotation inside same
      exact once.1 (same ▸ mem_map_of_mem inside)
    have restAsked : ∀ rotation ∈ rest,
        (state.applyRotation first).requested rotation.1 = some rotation.2 := by
      intro rotation inside
      rw [requested_applyRotation firstAsked, if_neg (others rotation inside)]
      exact asked rotation (mem_cons_of_mem _ inside)
    have done := ih (keys.applyRotation firstAsked) restAsked once.2
    refine ⟨done.keys, ?_, ?_⟩
    · intro rotation inside key found
      rw [foldl_cons]
      rcases mem_cons.mp inside with rfl | later
      · rw [done.kept rotation.1 others, rowKey_applyRotation, if_pos rfl, found]
        rfl
      · apply done.rotated rotation later key
        rw [rowKey_applyRotation, if_neg (others rotation later)]
        exact found
    · intro address elsewhere
      rw [foldl_cons, done.kept address fun rotation inside =>
        elsewhere rotation (mem_cons_of_mem _ inside), rowKey_applyRotation,
        if_neg (elsewhere first mem_cons_self).symm]

theorem updateStatuses_same {mgr : StakingManager} {active : List Address}
    (rows : List ValidatorState) (stored : ∀ val ∈ rows, mgr.getValidator val.address = some val)
    {staking : StakingManager} (same : SameKeys mgr staking) :
    SameKeys mgr (rows.foldl (StakingManager.updateStatus active) staking) := by
  induction rows generalizing staking with
  | nil => exact same
  | cons val rest ih =>
    apply ih
    · exact fun other inside => stored other (mem_cons_of_mem _ inside)
    · rcases StakingManager.updateStatus_cases active staking val with kept | ⟨_, status, written⟩
      · rw [kept]
        exact same
      · rw [written]
        exact same.putValidator (identityAt_of (stored val mem_cons_self)) rfl

theorem applyRotationPlan_carried {plan : EpochRotationPlan} (keys : Keys decodes state)
    (fits : Fits state current plan) :
    Keys decodes (state.applyRotationPlan plan) ∧
      Carried (state.applyRotationPlan plan) plan.members := by
  have rotates := applyRotations_rotates keys fits.asked fits.once
  have same : SameRequests (plan.rotations.foldl EpochState.applyRotation state)
      (state.applyRotationPlan plan) :=
    ⟨updateStatuses_same _ (fun _ inside => rotates.keys.row inside) fun _ => rfl, rfl⟩
  refine ⟨rotates.keys.of_same same, fits.distinct, ?_⟩
  intro member inside
  rw [same.rowKey]
  obtain ⟨key, row⟩ := fits.rows member inside
  rcases fits.keys member inside with planned | ⟨unplanned, carried⟩
  · exact rotates.rotated _ planned key row
  · exact (rotates.kept _ unplanned).trans carried

end Apply

end EpochState

end TorusHyperBft.Epoch
