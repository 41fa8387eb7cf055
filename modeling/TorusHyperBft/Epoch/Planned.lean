import TorusHyperBft.Epoch.Boundary
import TorusHyperBft.Epoch.Quorum
import TorusHyperBft.Staking.Keys

namespace TorusHyperBft.Epoch

open List

/-! What a plan says of the rows it is made from, and what its application does to them. -/

open Staking Program

section Floor

variable {oldSet newSet : List PlanMember} {member : PlanMember}

theorem mem_reseated (back : member ∈ reseated oldSet newSet) :
    member ∈ oldSet ∧ member.address ∉ addresses newSet := by
  have departed := mem_of_mem_take back
  rw [mem_insertionSort, mem_filter, decide_eq_true_eq] at departed
  exact departed

theorem reseated_distinct (oldDistinct : (addresses oldSet).Nodup) :
    (addresses (reseated oldSet newSet)).Nodup := by
  refine List.Nodup.sublist ((take_sublist _ _).map _) ?_
  refine ((perm_insertionSort Outranks _).map _).nodup_iff.mpr ?_
  exact List.Nodup.sublist (filter_sublist.map _) oldDistinct

theorem mem_enforceMinimumFloor (inside : member ∈ enforceMinimumFloor oldSet newSet) :
    member ∈ newSet ∨ member ∈ oldSet := by
  unfold enforceMinimumFloor at inside
  split at inside
  · exact .inl inside
  split at inside
  · exact .inl inside
  · rw [mem_insertionSort, mem_append] at inside
    exact inside.imp_right fun back => (mem_reseated back).1

theorem enforceMinimumFloor_distinct (oldDistinct : (addresses oldSet).Nodup)
    (newDistinct : (addresses newSet).Nodup) :
    (addresses (enforceMinimumFloor oldSet newSet)).Nodup := by
  unfold enforceMinimumFloor
  split
  · exact newDistinct
  split
  · exact newDistinct
  refine ((perm_insertionSort Outranks _).map _).nodup_iff.mpr ?_
  rw [map_append]
  refine List.nodup_append'.mpr ⟨newDistinct, reseated_distinct oldDistinct, ?_⟩
  intro address inNew inBack
  obtain ⟨member, back, rfl⟩ := mem_map.mp inBack
  exact (mem_reseated back).2 inNew

variable (oldSet newSet) in
def cappedSet : List PlanMember :=
  if 0 < safeRotationCap oldSet.length then
    applyRotationCap oldSet newSet (safeRotationCap oldSet.length)
  else newSet

theorem cappedSet_distinct (oldDistinct : (addresses oldSet).Nodup)
    (newDistinct : (addresses newSet).Nodup) : (addresses (cappedSet oldSet newSet)).Nodup := by
  unfold cappedSet
  split
  · rename_i positive
    exact (applyRotationCap_spec oldDistinct newDistinct positive).1
  · exact newDistinct

theorem mem_cappedSet (oldDistinct : (addresses oldSet).Nodup)
    (newDistinct : (addresses newSet).Nodup) (inside : member ∈ cappedSet oldSet newSet) :
    member ∈ newSet ∨ member ∈ oldSet := by
  unfold cappedSet at inside
  split at inside
  · rename_i positive
    rcases ((applyRotationCap_spec oldDistinct newDistinct positive).2 member).mp inside with
      new | old
    · exact .inl new.1
    · exact .inr old.1
  · exact .inl inside

end Floor

section Next

variable {validators : List ValidatorState} {rotations : List (Address × PubKey)}
  {oldSet : List PlanMember} {maxValidators : Nat}

theorem nextSet_eq : nextSet validators rotations oldSet maxValidators =
    (enforceMinimumFloor oldSet (cappedSet oldSet
      (stakedSet validators rotations maxValidators))).map (rotateKey rotations) := rfl

theorem addresses_rotateKey (members : List PlanMember) :
    addresses (members.map (rotateKey rotations)) = addresses members := by
  simp [addresses, rotateKey_address]

theorem nextSet_distinct (distinct : (validators.map ValidatorState.address).Nodup)
    (oldDistinct : (addresses oldSet).Nodup) :
    (addresses (nextSet validators rotations oldSet maxValidators)).Nodup := by
  rw [nextSet_eq, addresses_rotateKey]
  exact enforceMinimumFloor_distinct oldDistinct
    (cappedSet_distinct oldDistinct (stakedSet_distinct distinct))

theorem mem_nextSet (distinct : (validators.map ValidatorState.address).Nodup)
    (oldDistinct : (addresses oldSet).Nodup) {member : PlanMember}
    (inside : member ∈ nextSet validators rotations oldSet maxValidators) :
    ∃ source, member = rotateKey rotations source ∧
      (source ∈ oldSet ∨ ∃ val ∈ validators, source = memberOf val) := by
  rw [nextSet_eq] at inside
  obtain ⟨kept, inFloor, rfl⟩ := mem_map.mp inside
  have staked := @stakedSet_distinct validators rotations maxValidators distinct
  have origin : kept ∈ stakedSet validators rotations maxValidators ∨ kept ∈ oldSet := by
    rcases mem_enforceMinimumFloor inFloor with capped | old
    · exact mem_cappedSet oldDistinct staked capped
    · exact .inr old
  rcases origin with new | old
  · obtain ⟨computed, chosen, rfl⟩ := mem_map.mp new
    obtain ⟨val, taken, rfl⟩ := mem_map.mp chosen
    have row := mem_of_mem_take taken
    rw [mem_insertionSort] at row
    exact ⟨memberOf val, rotateKey_rotateKey _, .inr ⟨val, mem_of_mem_filter row, rfl⟩⟩
  · exact ⟨kept, rfl, .inl old⟩

theorem rotateKey_pubkey (member : PlanMember) :
    (member.address, (rotateKey rotations member).pubkey) ∈ rotations ∨
      ((∀ rotation ∈ rotations, rotation.1 ≠ member.address) ∧
        (rotateKey rotations member).pubkey = member.pubkey) := by
  unfold rotateKey
  cases found : rotations.find? fun rotation => rotation.1 = member.address with
  | none =>
    refine .inr ⟨?_, rfl⟩
    intro rotation inside same
    have missed := List.find?_eq_none.mp found rotation inside
    simp [same] at missed
  | some rotation =>
    have here := List.find?_some found
    rw [decide_eq_true_eq] at here
    left
    rw [← here]
    exact mem_of_find?_eq_some found

end Next

namespace EpochState

def rowKey (state : EpochState) (address : Address) : Option PubKey :=
  (state.staking.identityAt address).map Prod.snd

def requested (state : EpochState) (address : Address) : Option PubKey :=
  (state.pendingRotations.lookup address).map PendingKeyRotation.newPubkey

/-- No two rows or requests share a key, and every key decodes. -/
structure Keys (decodes : PubKey → Bool) (state : EpochState) : Prop where
  keyed : ∀ address identity, state.staking.identityAt address = some identity →
    identity.1 = address
  valid : ∀ address key, state.rowKey address = some key → decodes key
  apart : ∀ address other key, state.rowKey address = some key → state.rowKey other = some key →
    address = other
  asks : ∀ address request, state.pendingRotations.lookup address = some request →
    request.validator = address
  askedValid : ∀ address key, state.requested address = some key → decodes key
  askedApart : ∀ address other key, state.requested address = some key →
    state.requested other = some key → address = other
  askedFresh : ∀ address other key, state.requested address = some key →
    state.rowKey other ≠ some key

/-- The rows of the installed members carry their keys. -/
structure Carried (state : EpochState) (members : List PlanMember) : Prop where
  distinct : (addresses members).Nodup
  rows : ∀ member ∈ members, state.rowKey member.address = some member.pubkey

/-- What a stored plan says of the rows, up to the boundary it is applied at. -/
structure Fits (state : EpochState) (current : List PlanMember) (plan : EpochRotationPlan) :
    Prop where
  unchanged : plan.changed = false → plan.members = current ∧ plan.rotations = []
  distinct : (addresses plan.members).Nodup
  rows : ∀ member ∈ plan.members, ∃ key, state.rowKey member.address = some key
  keys : ∀ member ∈ plan.members, (member.address, member.pubkey) ∈ plan.rotations ∨
    ((∀ rotation ∈ plan.rotations, rotation.1 ≠ member.address) ∧
      state.rowKey member.address = some member.pubkey)
  asked : ∀ rotation ∈ plan.rotations, state.requested rotation.1 = some rotation.2
  once : (plan.rotations.map Prod.fst).Nodup
  deletes : plan.changed → ∀ key ∈ current.map PlanMember.pubkey,
    key ∉ plan.members.map PlanMember.pubkey → key ∈ plan.deletes
  spared : ∀ key ∈ plan.deletes, key ∉ plan.members.map PlanMember.pubkey

section Rows

variable {state : EpochState} {address : Address} {val : ValidatorState}

theorem rowKey_of (found : state.staking.getValidator address = some val) :
    state.rowKey address = some val.pubkey := by
  unfold rowKey
  rw [identityAt_of found]
  rfl

theorem mem_allValidators : val ∈ state.staking.allValidators ↔
    ∃ address, state.staking.getValidator address = some val := by
  unfold StakingManager.allValidators
  rw [mem_map]
  constructor
  · rintro ⟨row, inside, rfl⟩
    exact ⟨row.1, AList.mem_lookup_iff.mpr inside⟩
  · rintro ⟨address, found⟩
    exact ⟨⟨address, val⟩, AList.mem_lookup_iff.mp found, rfl⟩

variable {decodes : PubKey → Bool}

variable (keys : Keys decodes state)
include keys

theorem Keys.row (inside : val ∈ state.staking.allValidators) :
    state.staking.getValidator val.address = some val := by
  obtain ⟨address, found⟩ := mem_allValidators.mp inside
  have same := keys.keyed address _ (identityAt_of found)
  rw [← same] at found
  exact found

theorem Keys.rows_distinct : (state.staking.allValidators.map ValidatorState.address).Nodup := by
  have nodup : (state.staking.validators.entries.map Sigma.fst).Nodup := state.staking.validators.nodupKeys
  have same : state.staking.allValidators.map ValidatorState.address =
      state.staking.validators.entries.map Sigma.fst := by
    unfold StakingManager.allValidators
    rw [map_map]
    apply map_congr_left
    intro row inside
    exact keys.keyed row.1 _ (identityAt_of (AList.mem_lookup_iff.mpr inside))
  rw [same]
  exact nodup

theorem Keys.requests_distinct :
    ((state.pendingRotations.entries.map Sigma.snd).map PendingKeyRotation.validator).Nodup := by
  have nodup : (state.pendingRotations.entries.map Sigma.fst).Nodup := state.pendingRotations.nodupKeys
  have same : (state.pendingRotations.entries.map Sigma.snd).map PendingKeyRotation.validator =
      state.pendingRotations.entries.map Sigma.fst := by
    rw [map_map]
    apply map_congr_left
    intro row inside
    exact keys.asks row.1 row.2 (AList.mem_lookup_iff.mpr inside)
  rw [same]
  exact nodup

theorem Keys.due_asked (epoch : Nat) :
    ∀ rotation ∈ dueRotations (state.pendingRotations.entries.map Sigma.snd) epoch,
      state.requested rotation.1 = some rotation.2 := by
  intro rotation due
  obtain ⟨request, inside, rfl⟩ := mem_map.mp due
  obtain ⟨row, entry, rfl⟩ := mem_map.mp (mem_of_mem_filter inside)
  have found : state.pendingRotations.lookup row.1 = some row.2 := AList.mem_lookup_iff.mpr entry
  have same := keys.asks row.1 row.2 found
  unfold requested
  rw [same, found]
  rfl

theorem Keys.due_once (epoch : Nat) :
    ((dueRotations (state.pendingRotations.entries.map Sigma.snd) epoch).map Prod.fst).Nodup := by
  unfold dueRotations
  rw [map_map]
  exact List.Nodup.sublist (filter_sublist.map _) keys.requests_distinct

omit keys

variable {current : List PlanMember} {member : PlanMember}

theorem Keys.source_row (keys : Keys decodes state) (carried : Carried state current)
    (source : member ∈ current ∨ ∃ val ∈ state.staking.allValidators, member = memberOf val) :
    state.rowKey member.address = some member.pubkey := by
  rcases source with old | ⟨val, inside, rfl⟩
  · exact carried.rows member old
  · exact rowKey_of (keys.row inside)

theorem planFor_fits (keys : Keys decodes state) (carried : Carried state current)
    (isCurrent : state.current = some current) (maxValidators boundary epochLength : Nat) :
    Fits state current (state.planFor maxValidators boundary epochLength) := by
  have rowsDistinct := keys.rows_distinct
  unfold planFor planRotation
  rw [isCurrent]
  dsimp only [Option.getD_some]
  have unplanned : ∀ (members : List PlanMember), members = current →
      Fits state current { boundary := boundary, members := members, changed := false } := by
    rintro members rfl
    refine ⟨fun _ => ⟨rfl, rfl⟩, carried.distinct, fun member inside => ⟨_, carried.rows member inside⟩,
      fun member inside => .inr ⟨?_, carried.rows member inside⟩, ?_, nodup_nil, ?_, ?_⟩
    · exact fun _ rotation => nomatch rotation
    · exact fun _ rotation => nomatch rotation
    · intro changed
      cases changed
    · exact fun _ key => nomatch key
  split
  · exact unplanned current rfl
  split
  · rename_i same
    exact unplanned _ (Option.some.inj same).symm
  refine ⟨fun changed => (nomatch changed), nextSet_distinct rowsDistinct carried.distinct, ?_, ?_,
    keys.due_asked _, keys.due_once _, ?_, ?_⟩
  · intro member inside
    obtain ⟨source, rfl, origin⟩ := mem_nextSet rowsDistinct carried.distinct inside
    rw [rotateKey_address]
    exact ⟨_, keys.source_row carried origin⟩
  · intro member inside
    obtain ⟨source, rfl, origin⟩ := mem_nextSet rowsDistinct carried.distinct inside
    rw [rotateKey_address]
    refine (rotateKey_pubkey source).imp_right ?_
    rintro ⟨none, kept⟩
    rw [kept]
    exact ⟨none, keys.source_row carried origin⟩
  · intro _ key old gone
    unfold planDeletes
    rw [mem_insertionSort, mem_dedup, mem_filter, mem_append, decide_eq_true_eq]
    exact ⟨.inr old, gone⟩
  · intro key deleted
    unfold planDeletes at deleted
    rw [mem_insertionSort, mem_dedup, mem_filter, decide_eq_true_eq] at deleted
    exact deleted.2

variable {plan : EpochRotationPlan}

theorem Fits.valid (fits : Fits state current plan)
    (keys : Keys decodes state) (inside : member ∈ plan.members) : decodes member.pubkey := by
  rcases fits.keys member inside with rotates | ⟨_, carried⟩
  · exact keys.askedValid _ _ (fits.asked _ rotates)
  · exact keys.valid _ _ carried

theorem Fits.apart (fits : Fits state current plan)
    (keys : Keys decodes state) {other : PlanMember} (inside : member ∈ plan.members)
    (otherInside : other ∈ plan.members) (same : member.pubkey = other.pubkey) :
    member.address = other.address := by
  rcases fits.keys member inside with rotates | ⟨_, carried⟩ <;>
    rcases fits.keys other otherInside with otherRotates | ⟨_, otherCarried⟩
  · exact keys.askedApart _ _ _ (fits.asked _ rotates) (same ▸ fits.asked _ otherRotates)
  · exact absurd (same ▸ otherCarried) (keys.askedFresh _ _ _ (fits.asked _ rotates))
  · exact absurd (same ▸ carried) (keys.askedFresh _ _ _ (fits.asked _ otherRotates))
  · exact keys.apart _ _ _ carried (same ▸ otherCarried)

theorem Fits.pubkeys_distinct (fits : Fits state current plan)
    (keys : Keys decodes state) : (plan.members.map PlanMember.pubkey).Nodup := by
  apply List.Nodup.map_on
  · intro member inside other otherInside same
    exact eq_of_address fits.distinct inside otherInside (fits.apart keys inside otherInside same)
  · exact List.Nodup.of_map _ fits.distinct

end Rows

end EpochState

end TorusHyperBft.Epoch
