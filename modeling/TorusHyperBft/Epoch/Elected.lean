import TorusHyperBft.Epoch.Quorum

namespace TorusHyperBft.Epoch

open Staking List

/-! Which rotations keep a quorum of both sets, told from the staking state and the installed set
before the plan is made. -/

section Rank

variable {α : Type*} {before : α → α → Prop} [DecidableRel before]

/-- The first of a sorted list are those that few others come before. -/
theorem mem_take_iff_countP {members : List α} {member : α} {count : Nat}
    (asymm : ∀ left right, before left right → ¬ before right left)
    (sorted : members.Pairwise before) (inside : member ∈ members) :
    member ∈ members.take count ↔ members.countP (fun other => before other member) < count := by
  induction members generalizing count with
  | nil => cases inside
  | cons first members ih =>
    obtain ⟨least, later⟩ := pairwise_cons.mp sorted
    cases count with
    | zero => simp
    | succ count =>
      rw [take_succ_cons, mem_cons, countP_cons]
      by_cases is : member = first
      · subst is
        have none : members.countP (fun other => before other member) = 0 := by
          rw [countP_eq_zero]
          intro other inLater
          simpa using asymm _ _ (least other inLater)
        have irreflexive : ¬ before member member := fun itself => asymm _ _ itself itself
        simp [none, irreflexive]
      · have inLater := (mem_cons.mp inside).resolve_left is
        simp [is, ih later inLater, least member inLater]

end Rank

/-- Ranked before it, and another validator. -/
def Outstakes (left right : ValidatorState) : Prop :=
  StakedMore left right ∧ left.address ≠ right.address

instance : DecidableRel Outstakes := fun left right =>
  inferInstanceAs (Decidable (StakedMore left right ∧ _))

def eligible (validator : ValidatorState) : Bool :=
  validator.status = .active ∨ validator.status = .candidate

section Staked

variable (validators : List ValidatorState) (pending : List PendingKeyRotation)
  (oldSet : List PlanMember) (maxValidators epoch : Nat)

/-- Fewer eligible validators outstake it than there are seats. -/
def elected (validator : ValidatorState) : Bool :=
  eligible validator && decide (validators.countP (fun other =>
    eligible other && decide (Outstakes other validator)) < maxValidators)

/-- An installed member that no elected validator stands for. -/
def ousted (member : PlanMember) : Bool :=
  !validators.any fun validator =>
    elected validators maxValidators validator && decide (validator.address = member.address)

/-- An elected validator that is not installed. -/
def joins (validator : ValidatorState) : Bool :=
  elected validators maxValidators validator && decide (validator.address ∉ addresses oldSet)

/-- Up to a third of the heads may change at once. If more would, half of that budget goes to those
who leave and half to those who join, in the order of their addresses. -/
def inTurn (ahead : Nat) : Bool :=
  let leaving := oldSet.countP (ousted validators maxValidators)
  let joining := validators.countP (joins validators oldSet maxValidators)
  decide (leaving + joining ≤ oldSet.length / 3 ∨
    ahead < min (min (oldSet.length / 3 / 2) leaving) joining)

/-- A set of four lets nobody go. -/
def leaves (member : PlanMember) : Bool :=
  ousted validators maxValidators member && decide (oldSet.length ≠ minActiveValidators) &&
    inTurn validators oldSet maxValidators (oldSet.countP fun other =>
      ousted validators maxValidators other && decide (other.address < member.address))

def enters (validator : ValidatorState) : Bool :=
  joins validators oldSet maxValidators validator &&
    inTurn validators oldSet maxValidators (validators.countP fun other =>
      joins validators oldSet maxValidators other && decide (other.address < validator.address))

/-- An installed member as its elected validator has it now, or as it was installed. -/
def standing (member : PlanMember) : PlanMember :=
  ((validators.find? fun validator =>
    elected validators maxValidators validator && decide (validator.address = member.address)).map
      memberOf).getD member

def dueKey (member : PlanMember) : PubKey :=
  ((pending.find? fun rotation => rotation.effectiveEpoch ≤ epoch ∧
    rotation.validator = member.address).map PendingKeyRotation.newPubkey).getD
      (standing validators maxValidators member).pubkey

/-- A member that stays with another key. -/
def rekeyed (member : PlanMember) : Bool :=
  !leaves validators oldSet maxValidators member &&
    decide (dueKey validators pending maxValidators epoch member ≠ member.pubkey)

def enteringPower : Nat :=
  totalPower ((validators.filter (enters validators oldSet maxValidators)).map memberOf)

/-- Those who leave or change their key have less than a third of the installed power, those who
enter or change their key less than a third of the power after it, and the changed keys leave the
heads within the cap. -/
structure MovesUnderAThird : Prop where
  heads : oldSet.countP (leaves validators oldSet maxValidators) +
    validators.countP (enters validators oldSet maxValidators) +
    oldSet.countP (rekeyed validators pending oldSet maxValidators epoch) ≤ oldSet.length / 3
  lost : 3 * (totalPower (oldSet.filter (leaves validators oldSet maxValidators)) +
      totalPower (oldSet.filter (rekeyed validators pending oldSet maxValidators epoch))) <
    totalPower oldSet
  gained : 3 * (enteringPower validators oldSet maxValidators +
      totalPower ((oldSet.filter (rekeyed validators pending oldSet maxValidators epoch)).map
        (standing validators maxValidators))) <
    totalPower ((oldSet.filter fun member => !leaves validators oldSet maxValidators member).map
        (standing validators maxValidators)) + enteringPower validators oldSet maxValidators

instance : Decidable (MovesUnderAThird validators pending oldSet maxValidators epoch) :=
  decidable_of_iff (_ ∧ _ ∧ _) ⟨fun ⟨heads, lost, gained⟩ => ⟨heads, lost, gained⟩,
    fun moves => ⟨moves.heads, moves.lost, moves.gained⟩⟩

end Staked

section Election

variable {validators : List ValidatorState} {oldSet : List PlanMember} {maxValidators : Nat}
  {rotations : List (Address × PubKey)}

theorem stakedMore_iff {left right : ValidatorState} : StakedMore left right ↔
    right.totalStake.toNat < left.totalStake.toNat ∨
      left.totalStake.toNat = right.totalStake.toNat ∧ left.address.val ≤ right.address.val := by
  rw [StakedMore, BitVec.lt_def, ← BitVec.toNat_inj, Fin.le_def]

theorem stakedMore_total (left right : ValidatorState) :
    StakedMore left right ∨ StakedMore right left := by
  rw [stakedMore_iff, stakedMore_iff]
  omega

theorem stakedMore_trans (left middle right : ValidatorState) (first : StakedMore left middle)
    (second : StakedMore middle right) : StakedMore left right := by
  rw [stakedMore_iff] at first second ⊢
  omega

theorem Outstakes.asymm (left right : ValidatorState) (more : Outstakes left right) :
    ¬ Outstakes right left := by
  rintro ⟨back, apart⟩
  have first := more.1
  rw [stakedMore_iff] at first back
  exact apart (Fin.ext (by omega))

/-- The validators of the set with the most stake, in its order. -/
def mostStaked (validators : List ValidatorState) (maxValidators : Nat) : List ValidatorState :=
  ((validators.filter eligible).insertionSort StakedMore).take maxValidators

theorem stakedSet_eq : stakedSet validators rotations maxValidators =
    (mostStaked validators maxValidators).map fun validator => rotateKey rotations
    (memberOf validator) := by
  rw [stakedSet, computeNewValidatorSet, map_map]
  rfl

variable {validator : ValidatorState}

theorem mem_mostStaked (distinct : (validators.map ValidatorState.address).Nodup) :
    validator ∈ mostStaked validators maxValidators ↔
      validator ∈ validators ∧ elected validators maxValidators validator = true := by
  have perm := perm_insertionSort StakedMore (validators.filter eligible)
  have sorted : ((validators.filter eligible).insertionSort StakedMore).Pairwise Outstakes := by
    have : Std.Total StakedMore := ⟨stakedMore_total⟩
    have : IsTrans ValidatorState StakedMore := ⟨stakedMore_trans⟩
    have apart : ((validators.filter eligible).map ValidatorState.address).Nodup :=
      distinct.sublist (filter_sublist.map _)
    exact (pairwise_insertionSort StakedMore _).and
      (pairwise_map.mp ((perm.map ValidatorState.address).nodup_iff.mpr apart))
  have ahead : ((validators.filter eligible).insertionSort StakedMore).countP
      (fun other => Outstakes other validator) = validators.countP fun other =>
        eligible other && decide (Outstakes other validator) := by
    rw [perm.countP_eq, countP_filter]
    exact countP_congr fun other _ => by rw [Bool.and_comm]
  rw [elected, Bool.and_eq_true, decide_eq_true_eq, ← ahead]
  constructor
  · intro inside
    have inSorted := mem_of_mem_take inside
    obtain ⟨inAll, able⟩ := mem_filter.mp (perm.mem_iff.mp inSorted)
    exact ⟨inAll, able, (mem_take_iff_countP Outstakes.asymm sorted inSorted).mp inside⟩
  · rintro ⟨inAll, able, few⟩
    have inSorted := perm.mem_iff.mpr (mem_filter.mpr ⟨inAll, able⟩)
    exact (mem_take_iff_countP Outstakes.asymm sorted inSorted).mpr few

theorem mem_stakedSet_address (distinct : (validators.map ValidatorState.address).Nodup)
    {address : Address} : address ∈ addresses (stakedSet validators rotations maxValidators) ↔
      ∃ validator ∈ validators, elected validators maxValidators validator = true ∧
        validator.address = address := by
  rw [stakedSet_eq, addresses, map_map, mem_map]
  constructor
  · rintro ⟨validator, inside, rfl⟩
    obtain ⟨inAll, seated⟩ := (mem_mostStaked distinct).mp inside
    exact ⟨validator, inAll, seated, (rotateKey_address (memberOf validator)).symm⟩
  · rintro ⟨validator, inAll, seated, rfl⟩
    exact ⟨validator, (mem_mostStaked distinct).mpr ⟨inAll, seated⟩,
      rotateKey_address (memberOf validator)⟩

variable {member : PlanMember}

theorem ousted_iff : ousted validators maxValidators member = true ↔
    ¬ ∃ validator ∈ validators, elected validators maxValidators validator = true ∧
      validator.address = member.address := by
  simp only [ousted, Bool.not_eq_true', Bool.eq_false_iff, ne_eq, any_eq_true, Bool.and_eq_true,
    decide_eq_true_eq]

theorem missingFrom_sorted (others members : List PlanMember) :
    (missingFrom others members).Pairwise (· < ·) :=
  ((pairwise_insertionSort (· ≤ ·) _).and (missingFrom_nodup others members)).imp
    fun ordered => lt_of_le_of_ne ordered.1 ordered.2

section Chosen

variable {α : Type} {members : List α} {chosen : α → Bool} {address : α → Address}
  {sorted : List Address}

theorem perm_chosen (distinct : (members.map address).Nodup) (nodup : sorted.Nodup)
    (mem : ∀ place, place ∈ sorted ↔ ∃ member ∈ members, chosen member = true ∧
      address member = place) : sorted.Perm ((members.filter chosen).map address) := by
  refine (perm_ext_iff_of_nodup nodup (distinct.sublist (filter_sublist.map _))).mpr fun place => ?_
  rw [mem, mem_map]
  constructor
  · rintro ⟨member, inside, isChosen, rfl⟩
    exact ⟨member, mem_filter.mpr ⟨inside, isChosen⟩, rfl⟩
  · rintro ⟨member, inFilter, rfl⟩
    obtain ⟨inside, isChosen⟩ := mem_filter.mp inFilter
    exact ⟨member, inside, isChosen, rfl⟩

theorem countP_chosen (perm : sorted.Perm ((members.filter chosen).map address)) (place : Address) :
    sorted.countP (· < place) =
      members.countP fun member => chosen member && decide (address member < place) := by
  rw [perm.countP_eq, countP_map, countP_filter]
  exact countP_congr fun member _ => by simp [and_comm]

theorem length_chosen (perm : sorted.Perm ((members.filter chosen).map address)) :
    sorted.length = members.countP chosen := by
  rw [perm.length_eq, length_map, countP_eq_length_filter]

theorem mem_capped (strict : sorted.Pairwise (· < ·)) {fits : Prop} [Decidable fits]
    {place : Address}
    {count : Nat} : place ∈ (if fits then sorted else sorted.take count) ↔
      place ∈ sorted ∧ (fits ∨ sorted.countP (· < place) < count) := by
  by_cases inside : place ∈ sorted
  · split
    · simp [*]
    · simp [mem_take_iff_countP (fun _ _ => lt_asymm) strict inside, *]
  · have absent : place ∉ sorted.take count := fun taken => inside (mem_of_mem_take taken)
    split <;> simp [inside, absent]

end Chosen

section Seats

variable {newSet : List PlanMember} (staked : stakedSet validators rotations maxValidators = newSet)
  (distinct : (validators.map ValidatorState.address).Nodup)
  (oldDistinct : (addresses oldSet).Nodup)

include staked distinct

theorem mem_departures (inOld : member ∈ oldSet) :
    member.address ∈ departures oldSet newSet ↔ ousted validators maxValidators member = true := by
  rw [departures, mem_missingFrom, ← staked, mem_stakedSet_address distinct, ousted_iff]
  exact and_iff_right (mem_map_of_mem inOld)

theorem mem_arrivals (inAll : validator ∈ validators) : validator.address ∈ arrivals oldSet newSet ↔
      joins validators oldSet maxValidators validator = true := by
  rw [arrivals, mem_missingFrom, ← staked, mem_stakedSet_address distinct, joins, Bool.and_eq_true,
    decide_eq_true_eq]
  refine and_congr_left fun _ => ⟨?_, fun seated => ⟨validator, inAll, seated, rfl⟩⟩
  rintro ⟨other, inside, seated, same⟩
  rwa [← inj_on_of_nodup_map distinct inside inAll same]

theorem arrivals_perm : (arrivals oldSet newSet).Perm
    ((validators.filter (joins validators oldSet maxValidators)).map ValidatorState.address) := by
  refine perm_chosen distinct (missingFrom_nodup _ _) fun place => ⟨fun arrives => ?_, ?_⟩
  · have inNew := (mem_missingFrom.mp arrives).1
    rw [← staked, mem_stakedSet_address distinct] at inNew
    obtain ⟨validator, inAll, -, rfl⟩ := inNew
    exact ⟨validator, inAll, (mem_arrivals staked distinct inAll).mp arrives, rfl⟩
  · rintro ⟨validator, inAll, isJoining, rfl⟩
    exact (mem_arrivals staked distinct inAll).mpr isJoining

include oldDistinct

theorem departures_perm : (departures oldSet newSet).Perm
    ((oldSet.filter (ousted validators maxValidators)).map PlanMember.address) := by
  refine perm_chosen oldDistinct (missingFrom_nodup _ _) fun place => ⟨fun departs => ?_, ?_⟩
  · obtain ⟨member, inOld, rfl⟩ := mem_map.mp (mem_missingFrom.mp departs).1
    exact ⟨member, inOld, (mem_departures staked distinct inOld).mp departs, rfl⟩
  · rintro ⟨member, inOld, isOusted, rfl⟩
    exact (mem_departures staked distinct inOld).mpr isOusted

theorem mem_letGo (inOld : member ∈ oldSet) :
    member.address ∈ letGo oldSet newSet (oldSet.length / 3) ↔
      ousted validators maxValidators member = true ∧
        inTurn validators oldSet maxValidators (oldSet.countP fun other =>
          ousted validators maxValidators other && decide (other.address < member.address)) = true := by
  have gone := departures_perm staked distinct oldDistinct
  have come := @arrivals_perm validators oldSet maxValidators rotations newSet staked distinct
  have sorted : (departures oldSet newSet).Pairwise (· < ·) := missingFrom_sorted _ _
  rw [letGo, mem_capped sorted, mem_departures staked distinct inOld, countP_chosen gone,
    allowedSwaps, length_chosen gone, length_chosen come, inTurn, decide_eq_true_eq]

theorem mem_letIn (inAll : validator ∈ validators) :
    validator.address ∈ letIn oldSet newSet (oldSet.length / 3) ↔
      enters validators oldSet maxValidators validator = true := by
  have gone := departures_perm staked distinct oldDistinct
  have come := @arrivals_perm validators oldSet maxValidators rotations newSet staked distinct
  have sorted : (arrivals oldSet newSet).Pairwise (· < ·) := missingFrom_sorted _ _
  rw [letIn, mem_capped sorted, mem_arrivals staked distinct inAll, countP_chosen come,
    allowedSwaps, length_chosen gone, length_chosen come, enters, Bool.and_eq_true, inTurn,
    decide_eq_true_eq]

/-- Only a set of four falls below the floor, and it takes back the one that left. -/
theorem keepsSeat_eq (inOld : member ∈ oldSet) :
    keepsSeat oldSet newSet (oldSet.length / 3) member =
      !leaves validators oldSet maxValidators member := by
  have goes := mem_letGo staked distinct oldDistinct inOld
  have few := @letGo_letIn_length oldSet newSet (oldSet.length / 3)
  have gone := @length_letGo_le oldSet newSet oldDistinct (oldSet.length / 3)
  have four : minActiveValidators = 4 := rfl
  rw [keepsSeat, leaves, Bool.eq_iff_iff, decide_eq_true_eq]
  simp only [Bool.not_eq_true', Bool.eq_false_iff, ne_eq, Bool.and_eq_true, decide_eq_true_eq]
  rw [and_right_comm, ← goes, not_and, not_not]
  by_cases size : oldSet.length = minActiveValidators
  · refine iff_of_true ?_ fun _ => size
    rw [or_iff_not_imp_left, not_not]
    intro leaving
    have one : 0 < (letGo oldSet newSet (oldSet.length / 3)).length := length_pos_of_mem leaving
    rw [seatedBack, if_pos ⟨by omega, by omega⟩, take_of_length_le]
    · rw [mem_insertionSort, mem_filter]
      exact ⟨inOld, decide_eq_true leaving⟩
    · rw [length_insertionSort, gone]
      omega
  · have nobody : seatedBack oldSet newSet (oldSet.length / 3) = [] := by
      rw [seatedBack, if_neg fun small => by omega]
    rw [nobody, or_iff_left (not_mem_nil)]
    exact ⟨fun stays leaving => absurd leaving stays, fun back leaving => size (back leaving)⟩

omit staked

theorem entering_perm : (enteringMembers validators rotations oldSet maxValidators).Perm
    ((validators.filter (enters validators oldSet maxValidators)).map fun validator =>
      rotateKey rotations (memberOf validator)) := by
  have nodup := List.Nodup.of_map _ distinct
  have staked : (mostStaked validators maxValidators).Nodup :=
    ((perm_insertionSort StakedMore _).nodup_iff.mpr (nodup.filter _)).sublist (take_sublist _ _)
  have letsIn : ∀ validator ∈ validators, validator.address ∈ letIn oldSet
      (stakedSet validators rotations maxValidators) (oldSet.length / 3) ↔
        enters validators oldSet maxValidators validator = true := fun validator =>
    mem_letIn rfl distinct oldDistinct
  rw [enteringMembers, entering]
  generalize letIn oldSet (stakedSet validators rotations maxValidators) (oldSet.length / 3) = chosen
    at letsIn
  rw [stakedSet_eq, filter_map]
  refine List.Perm.map _ ((perm_ext_iff_of_nodup (staked.filter _) (nodup.filter _)).mpr
    fun validator => ?_)
  rw [mem_filter, mem_filter, mem_mostStaked distinct, Function.comp_apply, decide_eq_true_eq,
    rotateKey_address]
  constructor
  · rintro ⟨⟨inAll, -⟩, letInto⟩
    exact ⟨inAll, (letsIn validator inAll).mp letInto⟩
  · rintro ⟨inAll, entered⟩
    refine ⟨⟨inAll, ?_⟩, (letsIn validator inAll).mpr entered⟩
    rw [enters, Bool.and_eq_true, joins, Bool.and_eq_true] at entered
    exact entered.1.1

omit oldDistinct

theorem inSet_stakedSet (member : PlanMember) :
    rotateKey rotations (inSet (stakedSet validators rotations maxValidators) member) =
      rotateKey rotations (standing validators maxValidators member) := by
  have staked := @stakedSet_distinct validators rotations maxValidators distinct
  rw [standing]
  cases found : validators.find? fun validator =>
      elected validators maxValidators validator && decide (validator.address = member.address) with
  | none =>
    have absent : member.address ∉ addresses (stakedSet validators rotations maxValidators) := by
      rw [mem_stakedSet_address distinct]
      rintro ⟨validator, inAll, seated, same⟩
      simpa [seated, same] using find?_eq_none.mp found validator inAll
    rw [inSet_of_absent absent]
    rfl
  | some validator =>
    have isFound := find?_some found
    rw [Bool.and_eq_true, decide_eq_true_eq] at isFound
    have inside : rotateKey rotations (memberOf validator) ∈
        stakedSet validators rotations maxValidators := by
      rw [stakedSet_eq]
      exact mem_map_of_mem ((mem_mostStaked distinct).mpr ⟨mem_of_find?_eq_some found, isFound.1⟩)
    rw [inSet_of_mem staked inside ((rotateKey_address _).trans isFound.2), rotateKey_rotateKey]
    rfl

end Seats

theorem rotateKey_dueRotations {pending : List PendingKeyRotation} {epoch : Nat}
    (member : PlanMember) : rotateKey (dueRotations pending epoch) member = { member with
      pubkey := ((pending.find? fun rotation => rotation.effectiveEpoch ≤ epoch ∧
        rotation.validator = member.address).map PendingKeyRotation.newPubkey).getD member.pubkey } := by
  rw [rotateKey, dueRotations, find?_map, find?_filter]
  simp only [decide_eq_true_eq, Function.comp_apply]
  cases pending.find? fun rotation => decide (rotation.effectiveEpoch ≤ epoch ∧
    rotation.validator = member.address) <;> rfl

theorem standing_address (member : PlanMember) :
    (standing validators maxValidators member).address = member.address := by
  rw [standing]
  cases found : validators.find? fun validator =>
      elected validators maxValidators validator && decide (validator.address = member.address) with
  | none => rfl
  | some validator =>
    have isFound := find?_some found
    rw [Bool.and_eq_true, decide_eq_true_eq] at isFound
    exact isFound.2

theorem totalPower_rotateKey {α : Type} (members : List α) (place : α → PlanMember) :
    totalPower (members.map fun member => rotateKey rotations (place member)) =
      totalPower (members.map place) := by
  rw [totalPower, totalPower, map_map, map_map]
  congr 1
  apply map_congr_left
  intro member _
  simp only [Function.comp_apply, rotateKey]
  split <;> rfl

/-- A rotation keeps a quorum of both sets exactly when those it moves weigh less than a third. -/
theorem planRotation_keepsQuorum_iff (pending : List PendingKeyRotation)
    (targetBoundary epochLength : Nat) (distinct : (validators.map ValidatorState.address).Nodup)
    (oldDistinct : (addresses oldSet).Nodup) (enough : 3 ≤ oldSet.length) :
    KeepsQuorum oldSet (planRotation validators pending (some oldSet) maxValidators targetBoundary
        epochLength).members ↔
      MovesUnderAThird validators pending oldSet maxValidators
        (epochForBlock targetBoundary epochLength) := by
  have next : (planRotation validators pending (some oldSet) maxValidators targetBoundary
      epochLength).members = nextSet validators
        (dueRotations pending (epochForBlock targetBoundary epochLength)) oldSet maxValidators := by
    rw [planRotation, Option.getD_some, if_neg fun empty =>
      nextSet_ne_nil distinct oldDistinct enough (List.isEmpty_iff.mp empty)]
    split <;> rfl
  rw [next]
  generalize epochForBlock targetBoundary epochLength = epoch
  have seats : ∀ member ∈ oldSet, keepsSeat oldSet
      (stakedSet validators (dueRotations pending epoch) maxValidators) (oldSet.length / 3) member =
        !leaves validators oldSet maxValidators member := fun member =>
    keepsSeat_eq rfl distinct oldDistinct
  have form : nextForm validators (dueRotations pending epoch) maxValidators = fun member =>
      rotateKey (dueRotations pending epoch) (standing validators maxValidators member) :=
    funext (inSet_stakedSet distinct)
  have key : ∀ member, (rotateKey (dueRotations pending epoch)
      (standing validators maxValidators member)).pubkey =
        dueKey validators pending maxValidators epoch member := by
    intro member
    rw [rotateKey_dueRotations, standing_address]
    rfl
  have leaving : (oldSet.filter fun member => !keepsSeat oldSet
      (stakedSet validators (dueRotations pending epoch) maxValidators) (oldSet.length / 3) member) =
        oldSet.filter (leaves validators oldSet maxValidators) :=
    filter_congr fun member inOld => by rw [seats member inOld, Bool.not_not]
  have staying : oldSet.filter (keepsSeat oldSet
      (stakedSet validators (dueRotations pending epoch) maxValidators) (oldSet.length / 3)) =
        oldSet.filter fun member => !leaves validators oldSet maxValidators member :=
    filter_congr seats
  have changed : (oldSet.filter fun member => keepsSeat oldSet
      (stakedSet validators (dueRotations pending epoch) maxValidators) (oldSet.length / 3) member &&
        decide ((nextForm validators (dueRotations pending epoch) maxValidators member).pubkey ≠
          member.pubkey)) =
        oldSet.filter (rekeyed validators pending oldSet maxValidators epoch) :=
    filter_congr fun member inOld => by rw [seats member inOld, form, key, rekeyed]
  have entered := @entering_perm validators oldSet maxValidators (dueRotations pending epoch)
    distinct oldDistinct
  have gained := totalPower_perm entered
  rw [totalPower_rotateKey] at gained
  rw [(nextSet_replaces distinct oldDistinct enough).keepsQuorum_iff fun large =>
    nextSet_length distinct oldDistinct enough large]
  dsimp only
  rw [leaving, staying, changed, entered.length_eq, length_map, gained, form, totalPower_rotateKey,
    totalPower_rotateKey, ← countP_eq_length_filter, ← countP_eq_length_filter,
    ← countP_eq_length_filter]
  constructor
  · rintro ⟨heads, lost, gained⟩
    exact ⟨heads, lost, gained⟩
  · intro moves
    exact ⟨moves.heads, moves.lost, moves.gained⟩

end Election

/-- Nine equal validators: the last one was jailed, a tenth joins, and the first one has a new key. -/
theorem planRotation_keepsQuorum_nine :
    let installed := [1, 2, 3, 4, 5, 6, 7, 8].map (oneToken · .active) ++ [oneToken 9 .jailed]
    let pending : List PendingKeyRotation :=
      [{ validator := 1, newPubkey := 77, effectiveEpoch := 2, submittedAtBlock := 3 }]
    KeepsQuorum (installed.map memberOf)
      (planRotation (installed ++ [oneToken 10 .candidate]) pending (some (installed.map memberOf))
        10 20 10).members :=
  (planRotation_keepsQuorum_iff _ 20 10 (by decide +kernel) (by decide +kernel)
    (by decide +kernel)).mpr (by decide +kernel)

/-- One of three equal validators is jailed: the cap lets it go, and the two that stay are no
quorum of the three. -/
theorem planRotation_loses_quorum :
    let validators := [oneToken 1 .active, oneToken 2 .active, oneToken 3 .jailed]
    ¬ KeepsQuorum (validators.map memberOf)
      (planRotation validators [] (some (validators.map memberOf)) 10 20 10).members :=
  fun keeps => absurd keeps.ofOld (by decide +kernel)

end TorusHyperBft.Epoch
