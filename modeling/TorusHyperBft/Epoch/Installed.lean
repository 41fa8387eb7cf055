import TorusHyperBft.Epoch.Mirrored

namespace TorusHyperBft.Epoch

open List

/-! The set of consensus and the installed members, along a run. -/

open Staking EpochState

/-- The members of a chain with the set its consensus has, after the boundary at `height`. -/
structure ChainState where
  rows : EpochState
  set : ValidatorSet
  height : Nat := 0

inductive Event where
  | operate (op : Operation)
  | requestKey (validator : Address) (newPubkey : PubKey) (currentEpoch currentBlock : Nat)
  | observe (stats : Address → LeaderStats)
  | boundary (maxValidators : Nat) (params : Option DeadLeaderParams)

section Run

variable (decodes : PubKey → Bool) (epochLength : Nat)

namespace ChainState

/-- The next boundary block: consensus takes its updates from the stored plans, and the block is
executed. -/
def boundary (chain : ChainState) (maxValidators : Nat) (params : Option DeadLeaderParams) :
    ChainState :=
  let height := chain.height + epochLength
  { rows := chain.rows.executeBoundary maxValidators height epochLength params
    set := match epochValidatorSetUpdates decodes (chain.rows.plans height)
        (chain.rows.lxPlans height) with
      | some updates => chain.set.applyUpdates updates
      | none => chain.set
    height }

def step (chain : ChainState) : Event → ChainState
  | .operate op => { chain with rows := { chain.rows with staking := chain.rows.staking.step op } }
  | .requestKey validator newPubkey currentEpoch currentBlock =>
    { chain with rows := chain.rows.submitKeyRotation validator newPubkey currentEpoch currentBlock }
  | .observe stats => { chain with rows := { chain.rows with leaderStats := stats } }
  | .boundary maxValidators params => chain.boundary decodes epochLength maxValidators params

def run (chain : ChainState) (events : List Event) : ChainState :=
  events.foldl (step decodes epochLength) chain

/-- A registration brings a key that decodes and that nobody has or asks for, and so does a
request that is accepted; of a request the rows are checked when it is made. -/
def FreshKeys (chain : ChainState) : Event → Prop
  | .operate op => ∀ sender pubkey, op.registers = some (sender, pubkey) →
      chain.rows.staking.getValidator sender = none → Unused decodes chain.rows pubkey
  | .requestKey validator newPubkey _ _ => chain.rows.acceptsRotation validator newPubkey →
      decodes newPubkey ∧ ∀ address, chain.rows.requested address ≠ some newPubkey
  | _ => True

/-- No event of the run asks for a key in use. -/
def RunsFresh : ChainState → List Event → Prop
  | _, [] => True
  | chain, event :: rest =>
    chain.FreshKeys decodes event ∧ RunsFresh (chain.step decodes epochLength event) rest

/-- The set is the one of the members: each has a key of its own, the rows have the same keys, and
the excluded leaders are the installed ones. -/
structure InStep (chain : ChainState) : Prop where
  members : ∃ members, chain.rows.current = some members ∧
    (∀ key power, chain.set.powers.lookup key = some power ↔
      ∃ member ∈ members, member.pubkey = key ∧ member.power = power) ∧
    (members.map PlanMember.pubkey).Nodup ∧
    (∀ member ∈ members, decodes member.pubkey) ∧
    ∀ member ∈ members, chain.rows.rowKey member.address = some member.pubkey
  excluded : ∀ key, key ∈ chain.set.leaderExcluded ↔
    key ∈ chain.rows.lxCurrent.map ExcludedMember.pubkey

end ChainState

/-- The chain starts with the recorded set in consensus and no plans. -/
structure Genesis (chain : ChainState) (members : List PlanMember) : Prop where
  recorded : chain.rows.current = some members
  distinct : (addresses members).Nodup
  carried : ∀ member ∈ members, chain.rows.rowKey member.address = some member.pubkey
  keyed : ∀ address identity, chain.rows.staking.identityAt address = some identity →
    identity.1 = address
  valid : ∀ address key, chain.rows.rowKey address = some key → decodes key
  apart : ∀ address other key, chain.rows.rowKey address = some key →
    chain.rows.rowKey other = some key → address = other
  powers : ∀ key power, chain.set.powers.lookup key = some power ↔
    ∃ member ∈ members, member.pubkey = key ∧ member.power = power
  noRequests : chain.rows.pendingRotations = ∅
  noPlans : ∀ boundary, chain.rows.plans boundary = none ∧ chain.rows.lxPlans boundary = none
  noExclusions : chain.set.leaderExcluded = ∅ ∧ chain.rows.lxCurrent = []

end Run

section Execution

variable {decodes : PubKey → Bool} {state : EpochState} {current : List PlanMember}
  {maxValidators height epochLength : Nat}

namespace EpochState

def pruned (state : EpochState) (boundary : Nat) : EpochState :=
  { state with plans := Function.update state.plans boundary none }

def applyStored (state : EpochState) (height : Nat) : EpochState :=
  match state.plans height with
  | some plan => state.applyRotationPlan plan
  | none => state

def planNext (state : EpochState) (maxValidators next epochLength : Nat) : EpochState :=
  { state with
    plans := Function.update state.plans next (some (state.planFor maxValidators next epochLength)) }

theorem executePlannedRotation_eq (state : EpochState) :
    state.executePlannedRotation maxValidators height epochLength =
      ((state.pruned (height - epochLength)).applyStored height).planNext maxValidators
        (height + epochLength) epochLength := rfl

end EpochState

theorem applyRotations_exclusions (rotations : List (Address × PubKey)) (state : EpochState) :
    (rotations.foldl EpochState.applyRotation state).lxCurrent = state.lxCurrent ∧
      (rotations.foldl EpochState.applyRotation state).lxPlans = state.lxPlans :=
  ⟨Program.foldl_keeps EpochState.lxCurrent EpochState.applyRotation (fun _ _ => rfl) rotations state,
    Program.foldl_keeps EpochState.lxPlans EpochState.applyRotation (fun _ _ => rfl) rotations state⟩

/-- The rows once the plan of a boundary is applied. -/
structure Applied (decodes : PubKey → Bool) (members : List PlanMember)
    (state after : EpochState) : Prop where
  keys : Keys decodes after
  carried : Carried after members
  isCurrent : after.current = some members
  lxCurrent : after.lxCurrent = state.lxCurrent
  lxPlans : after.lxPlans = state.lxPlans

theorem applyStored_applied (keys : Keys decodes state) (carried : Carried state current)
    (isCurrent : state.current = some current)
    (fits : ∀ plan, state.plans height = some plan → Fits state current plan) :
    Applied decodes (installs current (state.plans height)) state (state.applyStored height) := by
  unfold applyStored
  cases stored : state.plans height with
  | none => exact ⟨keys, carried, isCurrent, rfl, rfl⟩
  | some plan =>
    obtain ⟨appliedKeys, appliedCarried⟩ := applyRotationPlan_carried keys (fits plan stored)
    exact ⟨appliedKeys, appliedCarried, rfl, (applyRotations_exclusions _ _).1,
      (applyRotations_exclusions _ _).2⟩

theorem executePlannedRotation_applied (keys : Keys decodes state) (carried : Carried state current)
    (isCurrent : state.current = some current)
    (fits : ∀ plan, state.plans height = some plan → Fits state current plan)
    (positive : 0 < epochLength) (late : epochLength ≤ height) :
    Applied decodes (installs current (state.plans height)) state
      (state.executePlannedRotation maxValidators height epochLength) ∧
    ∃ plan, (state.executePlannedRotation maxValidators height epochLength).plans
        (height + epochLength) = some plan ∧
      Fits (state.executePlannedRotation maxValidators height epochLength)
        (installs current (state.plans height)) plan := by
  have kept : (state.pruned (height - epochLength)).plans height = state.plans height :=
    Function.update_of_ne (by omega) _ _
  have same : SameRequests state (state.pruned (height - epochLength)) := ⟨fun _ => rfl, rfl⟩
  have applied := applyStored_applied (keys.of_same same) (carried.extend same.extends) isCurrent
    (fun plan stored => (fits plan (kept ▸ stored)).extend same.extends)
  rw [kept] at applied
  rw [executePlannedRotation_eq]
  generalize (state.pruned (height - epochLength)).applyStored height = middle at applied ⊢
  have next : SameRequests middle (middle.planNext maxValidators (height + epochLength) epochLength) :=
    ⟨fun _ => rfl, rfl⟩
  refine ⟨⟨applied.keys.of_same next, applied.carried.extend next.extends, applied.isCurrent,
    applied.lxCurrent, applied.lxPlans⟩, _, Function.update_self _ _ _, ?_⟩
  exact (planFor_fits applied.keys applied.carried applied.isCurrent _ _ _).extend next.extends

/-- What the exclusion step of a boundary leaves as it is, installs and plans. -/
structure Excludes (height epochLength : Nat) (state after : EpochState) : Prop where
  staking : after.staking = state.staking
  pending : after.pendingRotations = state.pendingRotations
  current : after.current = state.current
  plans : after.plans = state.plans
  installed : after.lxCurrent =
    installedNext state.lxCurrent (state.current.getD []) (state.lxPlans height)
  next : ∀ plan, after.lxPlans (height + epochLength) = some plan →
    ∃ stored, state.plans (height + epochLength) = some stored ∧
      ExclusionFits after.lxCurrent stored.members plan
  later : ∀ boundary, height + epochLength < boundary → after.lxPlans boundary = none

theorem executeLeaderExclusions_excludes {params : Option DeadLeaderParams}
    (positive : 0 < epochLength) (late : epochLength ≤ height)
    (later : ∀ boundary, height < boundary → state.lxPlans boundary = none) :
    Excludes height epochLength state (state.executeLeaderExclusions height epochLength params) := by
  have kept : ∀ boundary, height ≤ boundary →
      Function.update state.lxPlans (height - epochLength) none boundary = state.lxPlans boundary :=
    fun boundary atLeast => Function.update_of_ne (by omega) _ _
  have installed : ({ state with lxPlans := Function.update state.lxPlans (height - epochLength) none } :
      EpochState).installedExclusions height =
        installedNext state.lxCurrent (state.current.getD []) (state.lxPlans height) := by
    have here := kept height le_rfl
    cases planned : state.lxPlans height with
    | none => simp [installedExclusions, installedNext, here, planned]
    | some plan => simp [installedExclusions, installedNext, here, planned]
  unfold executeLeaderExclusions
  rw [if_pos late]
  dsimp only
  rw [installed]
  split
  · rename_i params nextPlan stored
    refine ⟨rfl, rfl, rfl, rfl, rfl, ?_, ?_⟩
    · intro plan planned
      dsimp only at planned
      split at planned
      · rename_i some
        rw [Function.update_self] at planned
        refine ⟨nextPlan, stored, exclusionPlan_fits ?_ planned⟩
        intro one inside
        rw [mem_insertionSort] at inside
        exact chooseExclusions_seated _ _ _ _ _ one inside
      · rw [kept _ (Nat.le_add_right _ _), later _ (by omega)] at planned
        cases planned
    · intro boundary after
      dsimp only
      split
      · rw [Function.update_of_ne (by omega), kept _ (by omega)]
        exact later _ (by omega)
      · rw [kept _ (by omega)]
        exact later _ (by omega)
  · refine ⟨rfl, rfl, rfl, rfl, rfl, ?_, ?_⟩
    · intro plan planned
      dsimp only at planned
      rw [kept _ (Nat.le_add_right _ _), later _ (by omega)] at planned
      cases planned
    · intro boundary after
      dsimp only
      rw [kept _ (by omega)]
      exact later _ (by omega)

end Execution

section Runs

variable {decodes : PubKey → Bool} {epochLength : Nat} {chain : ChainState}
  {current : List PlanMember}

/-- The rows, the stored plans and the set of consensus, between two boundaries. -/
structure Sound (decodes : PubKey → Bool) (epochLength : Nat) (chain : ChainState)
    (current : List PlanMember) : Prop where
  keys : Keys decodes chain.rows
  carried : Carried chain.rows current
  isCurrent : chain.rows.current = some current
  mirrors : Mirrors chain.set current chain.rows.lxCurrent
  next : ∀ plan, chain.rows.plans (chain.height + epochLength) = some plan →
    Fits chain.rows current plan
  exclusions : ∀ plan, chain.rows.lxPlans (chain.height + epochLength) = some plan →
    ∃ stored, chain.rows.plans (chain.height + epochLength) = some stored ∧
      ExclusionFits chain.rows.lxCurrent stored.members plan
  later : ∀ boundary, chain.height + epochLength < boundary → chain.rows.lxPlans boundary = none

theorem Sound.inStep (sound : Sound decodes epochLength chain current) :
    chain.InStep decodes where
  members := by
    refine ⟨current, sound.isCurrent, sound.mirrors.powers, ?_, ?_, sound.carried.rows⟩
    · apply List.Nodup.map_on
      · intro member inside other otherInside same
        refine eq_of_address sound.carried.distinct inside otherInside ?_
        exact sound.keys.apart _ _ _ (sound.carried.rows member inside)
          (same ▸ sound.carried.rows other otherInside)
      · exact List.Nodup.of_map _ sound.carried.distinct
    · exact fun member inside => sound.keys.valid _ _ (sound.carried.rows member inside)
  excluded := sound.mirrors.excluded

theorem Sound.extend {rows : EpochState} (sound : Sound decodes epochLength chain current)
    (keys : Keys decodes rows) (ext : Extends chain.rows rows)
    (isCurrent : rows.current = chain.rows.current) (plans : rows.plans = chain.rows.plans)
    (lxCurrent : rows.lxCurrent = chain.rows.lxCurrent)
    (lxPlans : rows.lxPlans = chain.rows.lxPlans) :
    Sound decodes epochLength { chain with rows := rows } current where
  keys := keys
  carried := sound.carried.extend ext
  isCurrent := isCurrent.trans sound.isCurrent
  mirrors := by
    dsimp only
    rw [lxCurrent]
    exact sound.mirrors
  next plan stored := by
    dsimp only at stored
    rw [plans] at stored
    exact (sound.next plan stored).extend ext
  exclusions := by
    dsimp only
    rw [lxPlans, plans, lxCurrent]
    exact sound.exclusions
  later := by
    dsimp only
    rw [lxPlans]
    exact sound.later

theorem Sound.operate {op : Operation} (sound : Sound decodes epochLength chain current)
    (fresh : chain.FreshKeys decodes (.operate op)) :
    Sound decodes epochLength (chain.step decodes epochLength (.operate op)) current := by
  rcases step_identity chain.rows.staking op with same | ⟨sender, pubkey, registers, unregistered, written⟩
  · have sameRequests : SameRequests chain.rows
        { chain.rows with staking := chain.rows.staking.step op } := ⟨same, rfl⟩
    exact sound.extend (sound.keys.of_same sameRequests) sameRequests.extends rfl rfl rfl rfl
  · have keys : Keys decodes { chain.rows with staking := chain.rows.staking.step op } :=
      sound.keys.register (fresh sender pubkey registers unregistered) rfl written
    exact sound.extend keys (.register unregistered rfl written) rfl rfl rfl rfl

theorem submitKeyRotation_plans {state : EpochState} {validator : Address} {newPubkey : PubKey}
    {currentEpoch currentBlock : Nat} :
    ∃ pending, state.submitKeyRotation validator newPubkey currentEpoch currentBlock =
      { state with pendingRotations := pending } := by
  unfold submitKeyRotation
  split
  · exact ⟨_, rfl⟩
  · exact ⟨state.pendingRotations, rfl⟩

theorem Sound.requestKey {validator : Address} {newPubkey : PubKey}
    {currentEpoch currentBlock : Nat}
    (sound : Sound decodes epochLength chain current)
    (fresh : chain.FreshKeys decodes (.requestKey validator newPubkey currentEpoch currentBlock)) :
    Sound decodes epochLength (chain.step decodes epochLength
      (.requestKey validator newPubkey currentEpoch currentBlock)) current := by
  obtain ⟨pending, eq⟩ := @submitKeyRotation_plans chain.rows validator newPubkey currentEpoch
    currentBlock
  refine sound.extend (sound.keys.submit fresh) .submit ?_ ?_ ?_ ?_
  all_goals rw [eq]

theorem Sound.observe {stats : Address → LeaderStats}
    (sound : Sound decodes epochLength chain current) :
    Sound decodes epochLength (chain.step decodes epochLength (.observe stats)) current := by
  have same : SameRequests chain.rows { chain.rows with leaderStats := stats } := ⟨fun _ => rfl, rfl⟩
  exact sound.extend (sound.keys.of_same same) same.extends rfl rfl rfl rfl

theorem applyUpdates_getD (set : ValidatorSet) (updates : Option ValidatorSetUpdates) :
    set.applyUpdates (updates.getD {}) = match updates with
      | some updates => set.applyUpdates updates
      | none => set := by
  cases updates with
  | none => rfl
  | some updates => rfl

theorem Sound.boundary {maxValidators : Nat} {params : Option DeadLeaderParams}
    (sound : Sound decodes epochLength chain current) (positive : 0 < epochLength) :
    ∃ members, Sound decodes epochLength
      (chain.step decodes epochLength (.boundary maxValidators params)) members := by
  have late : epochLength ≤ chain.height + epochLength := Nat.le_add_left _ _
  obtain ⟨applied, plan, stored, fits⟩ := @executePlannedRotation_applied _ _ _ maxValidators _ _
    sound.keys sound.carried sound.isCurrent sound.next positive late
  have excludes := @executeLeaderExclusions_excludes
    (chain.rows.executePlannedRotation maxValidators (chain.height + epochLength) epochLength)
    (chain.height + epochLength) epochLength params positive late
    (by rw [applied.lxPlans]; exact sound.later)
  have same : SameRequests (chain.rows.executePlannedRotation maxValidators
      (chain.height + epochLength) epochLength)
      (chain.step decodes epochLength (.boundary maxValidators params)).rows :=
    ⟨fun address => congrArg (·.identityAt address) excludes.staking, excludes.pending⟩
  have installed : (chain.step decodes epochLength (.boundary maxValidators params)).rows.lxCurrent =
      installedNext chain.rows.lxCurrent
        (installs current (chain.rows.plans (chain.height + epochLength)))
        (chain.rows.lxPlans (chain.height + epochLength)) := by
    refine excludes.installed.trans ?_
    rw [applied.isCurrent, applied.lxCurrent, applied.lxPlans]
    rfl
  refine ⟨installs current (chain.rows.plans (chain.height + epochLength)),
    applied.keys.of_same same, applied.carried.extend same.extends,
    excludes.current.trans applied.isCurrent, ?_, ?_, ?_, excludes.later⟩
  · have updated : (chain.step decodes epochLength (.boundary maxValidators params)).set =
        chain.set.applyUpdates ((epochValidatorSetUpdates decodes
          (chain.rows.plans (chain.height + epochLength))
          (chain.rows.lxPlans (chain.height + epochLength))).getD {}) :=
      (applyUpdates_getD _ _).symm
    rw [installed, updated]
    refine sound.mirrors.applyUpdates sound.keys sound.carried sound.next ?_ ?_
    · intro exclusions planned
      obtain ⟨member, memberStored, fitting⟩ := sound.exclusions exclusions planned
      rw [memberStored]
      exact fitting
    · exact fun member inside => applied.keys.valid _ _ (applied.carried.rows member inside)
  · intro next found
    change (chain.step decodes epochLength (.boundary maxValidators params)).rows.plans
      (chain.height + epochLength + epochLength) = some next at found
    have samePlan : plan = next := by
      have plans := congrFun excludes.plans (chain.height + epochLength + epochLength)
      exact Option.some.inj (stored.symm.trans (plans.symm.trans found))
    exact samePlan ▸ fits.extend same.extends
  · intro next found
    obtain ⟨member, memberStored, fitting⟩ := excludes.next next found
    exact ⟨member, (congrFun excludes.plans _).trans memberStored, fitting⟩

/-- Every event under fresh keys keeps the chain sound, with some members. -/
theorem Sound.step (sound : Sound decodes epochLength chain current) (positive : 0 < epochLength)
    (event : Event) (fresh : chain.FreshKeys decodes event) :
    ∃ members, Sound decodes epochLength (chain.step decodes epochLength event) members := by
  cases event with
  | operate op => exact ⟨current, sound.operate fresh⟩
  | requestKey validator newPubkey currentEpoch currentBlock => exact ⟨current, sound.requestKey fresh⟩
  | observe stats => exact ⟨current, sound.observe⟩
  | boundary maxValidators params => exact sound.boundary positive

/-- A chain stays sound through every run of events under fresh keys. -/
theorem Sound.run (sound : Sound decodes epochLength chain current) (positive : 0 < epochLength)
    (events : List Event) (fresh : chain.RunsFresh decodes epochLength events) :
    ∃ members, Sound decodes epochLength (chain.run decodes epochLength events) members := by
  induction events generalizing chain current with
  | nil => exact ⟨current, sound⟩
  | cons event rest ih =>
    obtain ⟨members, stepped⟩ := sound.step positive event fresh.1
    exact ih stepped fresh.2

theorem Genesis.sound (genesis : Genesis decodes chain current) :
    Sound decodes epochLength chain current where
  keys := by
    have nothing : ∀ address key, chain.rows.requested address ≠ some key := by
      intro address key asked
      unfold EpochState.requested at asked
      rw [genesis.noRequests] at asked
      cases asked
    refine ⟨genesis.keyed, genesis.valid, genesis.apart, ?_, ?_, ?_, ?_⟩
    · intro address request found
      rw [genesis.noRequests] at found
      cases found
    · intro address key asked
      exact absurd asked (nothing address key)
    · intro address other key asked
      exact absurd asked (nothing address key)
    · intro address other key asked
      exact absurd asked (nothing address key)
  carried := ⟨genesis.distinct, genesis.carried⟩
  isCurrent := genesis.recorded
  mirrors := by
    refine ⟨genesis.powers, ?_, ?_⟩
    · intro key
      rw [genesis.noExclusions.1, genesis.noExclusions.2]
      simp
    · rw [genesis.noExclusions.2]
      exact fun _ none => nomatch none
  next plan stored := by
    rw [(genesis.noPlans _).1] at stored
    cases stored
  exclusions plan stored := by
    rw [(genesis.noPlans _).2] at stored
    cases stored
  later boundary _ := (genesis.noPlans boundary).2

/-- In a run whose keys are fresh when they come in, consensus runs with the installed members
after every boundary, and between boundaries too. -/
theorem run_inStep (genesis : Genesis decodes chain current) (positive : 0 < epochLength)
    (events : List Event) (fresh : chain.RunsFresh decodes epochLength events) :
    (chain.run decodes epochLength events).InStep decodes := by
  obtain ⟨members, sound⟩ := genesis.sound.run positive events fresh
  exact sound.inStep

end Runs

section Samples

/-- A genesis whose members stand in the order of its rows; consensus has their keys. -/
def genesisChain (validators : List ValidatorState) : ChainState where
  rows :=
    { staking := { validators := (validators.map fun val => (⟨val.address, val⟩ :
        Sigma fun _ : Address => ValidatorState)).toAList }
      current := some (validators.map memberOf) }
  set :=
    { powers := (validators.map fun val => (⟨val.pubkey, (memberOf val).power⟩ :
        Sigma fun _ : PubKey => U64)).toAList }

theorem genesisChain_genesis {decodes : PubKey → Bool} {validators : List ValidatorState}
    (addresses : (validators.map ValidatorState.address).Nodup)
    (pubkeys : (validators.map ValidatorState.pubkey).Nodup)
    (valid : ∀ val ∈ validators, decodes val.pubkey) :
    Genesis decodes (genesisChain validators) (validators.map memberOf) := by
  have row : ∀ address val, (genesisChain validators).rows.staking.getValidator address = some val ↔
      val ∈ validators ∧ val.address = address := by
    intro address val
    have read : (genesisChain validators).rows.staking.getValidator address =
        (validators.map fun val => (⟨val.address, val⟩ :
          Sigma fun _ : Address => ValidatorState)).dlookup address := AList.lookup_to_alist _
    rw [read]
    have once : (validators.map fun val => (⟨val.address, val⟩ :
        Sigma fun _ : Address => ValidatorState)).NodupKeys := by
      unfold List.NodupKeys List.keys
      rw [map_map]
      exact addresses
    refine (mem_dlookup_iff once).trans ?_
    simp only [mem_map, Sigma.mk.injEq, heq_eq_eq]
    constructor
    · rintro ⟨val, inside, rfl, rfl⟩
      exact ⟨inside, rfl⟩
    · rintro ⟨inside, rfl⟩
      exact ⟨val, inside, rfl, rfl⟩
  have rowKey : ∀ address key, (genesisChain validators).rows.rowKey address = some key →
      ∃ val ∈ validators, val.address = address ∧ val.pubkey = key := by
    intro address key found
    obtain ⟨identity, read, rfl⟩ := Option.map_eq_some_iff.mp found
    obtain ⟨val, stored, rfl⟩ := Option.map_eq_some_iff.mp read
    obtain ⟨inside, here⟩ := (row address val).mp stored
    exact ⟨val, inside, here, rfl⟩
  refine ⟨rfl, ?_, ?_, ?_, ?_, ?_, ?_, rfl, fun _ => ⟨rfl, rfl⟩, rfl, rfl⟩
  · have same : Epoch.addresses (validators.map memberOf) = validators.map ValidatorState.address := by
      simp [Epoch.addresses, memberOf]
    rw [same]
    exact addresses
  · intro member inside
    obtain ⟨val, isValidator, rfl⟩ := mem_map.mp inside
    exact rowKey_of ((row val.address val).mpr ⟨isValidator, rfl⟩)
  · intro address identity found
    obtain ⟨val, stored, rfl⟩ := Option.map_eq_some_iff.mp found
    exact ((row address val).mp stored).2
  · intro address key found
    obtain ⟨val, inside, _, rfl⟩ := rowKey address key found
    exact valid val inside
  · intro address other key found otherFound
    obtain ⟨val, inside, rfl, rfl⟩ := rowKey address key found
    obtain ⟨otherVal, otherInside, rfl, same⟩ := rowKey other _ otherFound
    rw [inj_on_of_nodup_map pubkeys inside otherInside same.symm]
  · intro key power
    have read : (genesisChain validators).set.powers.lookup key =
        (validators.map fun val => (⟨val.pubkey, (memberOf val).power⟩ :
          Sigma fun _ : PubKey => U64)).dlookup key := AList.lookup_to_alist _
    rw [read]
    have once : (validators.map fun val => (⟨val.pubkey, (memberOf val).power⟩ :
        Sigma fun _ : PubKey => U64)).NodupKeys := by
      unfold List.NodupKeys List.keys
      rw [map_map]
      exact pubkeys
    refine (mem_dlookup_iff once).trans ?_
    simp only [mem_map, Sigma.mk.injEq, heq_eq_eq]
    constructor
    · rintro ⟨val, inside, rfl, rfl⟩
      exact ⟨memberOf val, ⟨val, inside, rfl⟩, rfl, rfl⟩
    · rintro ⟨member, ⟨val, inside, rfl⟩, rfl, rfl⟩
      exact ⟨val, inside, rfl, rfl⟩

def curveKeys : List PubKey :=
  [0xd75a980182b10ab7d54bfed3c964073a0ee172f3daa62325af021a68f707511a,
    0x3d4017c3e843895a92b70aa74d1b7ebc9c982ccf2ec4968cc0cd55f12af4660c,
    0xfc51cd8e6218a1a38da47ed00230f0580816ed13ba3303ac5deb911548908025,
    0x278117fc144c72340f67d0f2316e8386ceffbf2b2428c9c51fef7c597f1d426e,
    0x5866666666666666666666666666666666666666666666666666666666666666]

def isCurveKey (key : PubKey) : Bool := key ∈ curveKeys

def fourValidators : List ValidatorState :=
  (List.range 4).map fun index =>
    { oneToken (Fin.ofNat _ (index + 1)) .active with pubkey := curveKeys[index]! }

theorem fourValidators_genesis :
    Genesis isCurveKey (genesisChain fourValidators) (fourValidators.map memberOf) :=
  genesisChain_genesis (by decide +kernel) (by decide +kernel) (by decide +kernel)

/-- A validator that asks for a fresh key has it in its row and in consensus two boundaries on. -/
theorem run_inStep_rotated :
    let events : List Event := [.requestKey 1 (curveKeys[4]!) 0 5, .boundary 4 none, .boundary 4 none]
    ((genesisChain fourValidators).run isCurveKey 10 events).InStep isCurveKey ∧
      ((genesisChain fourValidators).run isCurveKey 10 events).rows.rowKey 1 = some (curveKeys[4]!) := by
  refine ⟨run_inStep fourValidators_genesis (by decide) _ ⟨?_, trivial, trivial, trivial⟩, ?_⟩
  · refine fun _ => ⟨by decide +kernel, fun address asked => ?_⟩
    cases asked
  · decide +kernel

/-- Two validators ask for the same key, and both requests are accepted. Two boundaries later both
are members under one key, and consensus has lost one of them. -/
theorem run_sharedKey :
    let events : List Event := [.requestKey 1 (curveKeys[4]!) 0 5, .requestKey 2 (curveKeys[4]!) 0 6,
      .boundary 4 none, .boundary 4 none]
    Genesis isCurveKey (genesisChain fourValidators) (fourValidators.map memberOf) ∧
      ¬ ((genesisChain fourValidators).run isCurveKey 10 events).InStep isCurveKey := by
  refine ⟨fourValidators_genesis, ?_⟩
  intro inStep
  obtain ⟨members, isCurrent, _, distinct, _⟩ := inStep.members
  have shared : ¬ ((((genesisChain fourValidators).run isCurveKey 10
      [.requestKey 1 (curveKeys[4]!) 0 5, .requestKey 2 (curveKeys[4]!) 0 6, .boundary 4 none,
        .boundary 4 none]).rows.current.getD []).map PlanMember.pubkey).Nodup := by
    decide +kernel
  rw [isCurrent] at shared
  exact shared distinct

end Samples

end TorusHyperBft.Epoch
