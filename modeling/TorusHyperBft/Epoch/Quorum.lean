import TorusHyperBft.Epoch.Capped

namespace TorusHyperBft.Epoch

open Staking List

/-! The voting power that two consecutive sets share. -/

def totalPower (members : List PlanMember) : Nat := (members.map fun member => member.power.val).sum

def quorumPower (total : Nat) : Nat := total * 2 / 3 + 1

def sharedWith (others : List PlanMember) (member : PlanMember) : Bool :=
  others.any fun other => other.address = member.address ∧ other.pubkey = member.pubkey

def rekeyedIn (others : List PlanMember) (member : PlanMember) : Bool :=
  others.any fun other => other.address = member.address ∧ other.pubkey ≠ member.pubkey

def changes (oldSet newSet : List PlanMember) : Nat :=
  (oldSet.filter fun member => member.address ∉ addresses newSet).length +
    (newSet.filter fun member => member.address ∉ addresses oldSet).length +
    (oldSet.filter (rekeyedIn newSet)).length

/-- Few validators change, and those that do not are a quorum of both sets. -/
structure KeepsQuorum (oldSet newSet : List PlanMember) : Prop where
  changes : changes oldSet newSet ≤ oldSet.length / 3
  ofOld : quorumPower (totalPower oldSet) ≤ totalPower (oldSet.filter (sharedWith newSet))
  ofNew : quorumPower (totalPower newSet) ≤ totalPower (newSet.filter (sharedWith oldSet))
  floor : minActiveValidators ≤ oldSet.length → minActiveValidators ≤ newSet.length

theorem totalPower_perm {first second : List PlanMember} (same : first.Perm second) :
    totalPower first = totalPower second :=
  (same.map _).sum_eq

theorem totalPower_append (first second : List PlanMember) :
    totalPower (first ++ second) = totalPower first + totalPower second := by
  simp [totalPower]

theorem totalPower_filter (members : List PlanMember) (chosen : PlanMember → Bool) :
    totalPower members = totalPower (members.filter chosen) +
      totalPower (members.filter fun member => !chosen member) := by
  induction members with
  | nil => rfl
  | cons member members ih =>
    simp only [totalPower, map_cons, sum_cons] at ih ⊢
    cases held : chosen member <;> simp [held] <;> omega

theorem quorumPower_le_iff {total missing present : Nat} (split : total = present + missing) :
    quorumPower total ≤ present ↔ 3 * missing < total := by
  unfold quorumPower
  omega

section Replaced

variable {oldSet newSet entered : List PlanMember} {keeps : PlanMember → Bool}
  {next : PlanMember → PlanMember}

/-- A set that keeps some members of another, in their next form, and adds others. -/
structure Replaces (oldSet newSet entered : List PlanMember) (keeps : PlanMember → Bool)
    (next : PlanMember → PlanMember) : Prop where
  distinct : (addresses oldSet).Nodup
  sameAddress : ∀ member, (next member).address = member.address
  fresh : ∀ member ∈ entered, member.address ∉ addresses oldSet
  perm : newSet.Perm ((oldSet.filter keeps).map next ++ entered)

variable (replaces : Replaces oldSet newSet entered keeps next)
include replaces

theorem Replaces.at_old {member other : PlanMember} (inOld : member ∈ oldSet) :
    (other ∈ newSet ∧ other.address = member.address) ↔ keeps member = true ∧ other = next member := by
  rw [replaces.perm.mem_iff, mem_append, mem_map]
  constructor
  · rintro ⟨⟨old, inFilter, rfl⟩ | inEntered, same⟩
    · obtain ⟨inSet, kept⟩ := mem_filter.mp inFilter
      rw [replaces.sameAddress] at same
      rw [eq_of_address replaces.distinct inSet inOld same] at kept ⊢
      exact ⟨kept, rfl⟩
    · exact absurd (same ▸ mem_map_of_mem inOld) (replaces.fresh other inEntered)
  · rintro ⟨kept, rfl⟩
    exact ⟨Or.inl ⟨member, mem_filter.mpr ⟨inOld, kept⟩, rfl⟩, replaces.sameAddress member⟩

theorem Replaces.departed : (oldSet.filter fun member => member.address ∉ addresses newSet) =
      oldSet.filter fun member => !keeps member := by
  apply filter_congr
  intro member inOld
  have present : member.address ∈ addresses newSet ↔ keeps member = true := by
    constructor
    · intro inNew
      obtain ⟨other, inNew, same⟩ := mem_map.mp inNew
      exact ((replaces.at_old inOld).mp ⟨inNew, same⟩).1
    · intro kept
      obtain ⟨inNew, same⟩ := (replaces.at_old inOld).mpr ⟨kept, rfl⟩
      exact same ▸ mem_map_of_mem inNew
  cases kept : keeps member <;> simp [present, kept]

theorem Replaces.rekeyed : oldSet.filter (rekeyedIn newSet) = oldSet.filter fun member =>
      keeps member && decide ((next member).pubkey ≠ member.pubkey) := by
  apply filter_congr
  intro member inOld
  rw [Bool.eq_iff_iff, rekeyedIn, any_eq_true, Bool.and_eq_true, decide_eq_true_eq]
  constructor
  · rintro ⟨other, inNew, same⟩
    rw [decide_eq_true_eq] at same
    obtain ⟨kept, rfl⟩ := (replaces.at_old inOld).mp ⟨inNew, same.1⟩
    exact ⟨kept, same.2⟩
  · rintro ⟨kept, changed⟩
    obtain ⟨inNew, same⟩ := (replaces.at_old inOld).mpr ⟨kept, rfl⟩
    exact ⟨next member, inNew, by simpa using ⟨same, changed⟩⟩

theorem Replaces.shared : oldSet.filter (sharedWith newSet) = oldSet.filter fun member =>
      keeps member && decide ((next member).pubkey = member.pubkey) := by
  apply filter_congr
  intro member inOld
  rw [Bool.eq_iff_iff, sharedWith, any_eq_true, Bool.and_eq_true, decide_eq_true_eq]
  constructor
  · rintro ⟨other, inNew, same⟩
    rw [decide_eq_true_eq] at same
    obtain ⟨kept, rfl⟩ := (replaces.at_old inOld).mp ⟨inNew, same.1⟩
    exact ⟨kept, same.2⟩
  · rintro ⟨kept, unchanged⟩
    obtain ⟨inNew, same⟩ := (replaces.at_old inOld).mpr ⟨kept, rfl⟩
    exact ⟨next member, inNew, by simpa using ⟨same, unchanged⟩⟩

theorem Replaces.arrived :
    (newSet.filter fun member => member.address ∉ addresses oldSet).Perm entered := by
  refine (replaces.perm.filter _).trans ?_
  have none : ((oldSet.filter keeps).map next).filter
      (fun member => decide (member.address ∉ addresses oldSet)) = [] := by
    rw [filter_eq_nil_iff]
    intro member inKept
    obtain ⟨old, inFilter, rfl⟩ := mem_map.mp inKept
    have present : old.address ∈ addresses oldSet :=
      mem_map_of_mem (mem_of_mem_filter inFilter)
    simp [replaces.sameAddress, present]
  have all : entered.filter (fun member => decide (member.address ∉ addresses oldSet)) = entered := by
    rw [filter_eq_self]
    intro member inEntered
    simpa using replaces.fresh member inEntered
  rw [filter_append, none, all, nil_append]

theorem Replaces.sharedBack : (newSet.filter (sharedWith oldSet)).Perm ((oldSet.filter fun member =>
      keeps member && decide ((next member).pubkey = member.pubkey)).map next) := by
  refine (replaces.perm.filter _).trans ?_
  have none : entered.filter (sharedWith oldSet) = [] := by
    rw [filter_eq_nil_iff]
    intro member inEntered shared
    obtain ⟨old, inOld, same⟩ := any_eq_true.mp shared
    rw [decide_eq_true_eq] at same
    exact replaces.fresh member inEntered (same.1 ▸ mem_map_of_mem inOld)
  rw [filter_append, none, append_nil, filter_map]
  have same : (oldSet.filter keeps).filter (sharedWith oldSet ∘ next) = oldSet.filter fun member =>
      keeps member && decide ((next member).pubkey = member.pubkey) := by
    rw [filter_filter]
    apply filter_congr
    intro member inOld
    have shared : sharedWith oldSet (next member) = decide ((next member).pubkey = member.pubkey) := by
      rw [Bool.eq_iff_iff, sharedWith, any_eq_true, decide_eq_true_eq]
      constructor
      · rintro ⟨old, inSet, same⟩
        rw [decide_eq_true_eq, replaces.sameAddress] at same
        rw [← same.2, eq_of_address replaces.distinct inSet inOld same.1]
      · intro unchanged
        exact ⟨member, inOld, by simp [replaces.sameAddress, unchanged]⟩
    rw [Function.comp_apply, shared, Bool.and_comm]
  rw [same]

theorem Replaces.keepsQuorum_iff
    (floor : minActiveValidators ≤ oldSet.length → minActiveValidators ≤ newSet.length) :
    KeepsQuorum oldSet newSet ↔
      let leaving := oldSet.filter fun member => !keeps member
      let rekeyed := oldSet.filter fun member =>
        keeps member && decide ((next member).pubkey ≠ member.pubkey)
      leaving.length + entered.length + rekeyed.length ≤ oldSet.length / 3 ∧
        3 * (totalPower leaving + totalPower rekeyed) < totalPower oldSet ∧
        3 * (totalPower entered + totalPower (rekeyed.map next)) <
          totalPower ((oldSet.filter keeps).map next) + totalPower entered := by
  have total : totalPower newSet =
      totalPower ((oldSet.filter keeps).map next) + totalPower entered := by
    rw [totalPower_perm replaces.perm, totalPower_append]
  -- The kept members are those that keep their key and those that change it.
  have kept : ∀ members : List PlanMember, (members.filter keeps).Perm
      (members.filter (fun member => keeps member && decide ((next member).pubkey = member.pubkey)) ++
        members.filter fun member =>
          keeps member && decide ((next member).pubkey ≠ member.pubkey)) := by
    intro members
    have split := (filter_append_perm (fun member =>
      decide ((next member).pubkey = member.pubkey)) (members.filter keeps)).symm
    rw [filter_filter, filter_filter] at split
    refine split.trans (List.Perm.of_eq ?_)
    congr 1
    · exact filter_congr fun member _ => Bool.and_comm _ _
    · refine filter_congr fun member _ => ?_
      rw [Bool.and_comm, decide_not]
  have oldSplit : totalPower oldSet =
      totalPower (oldSet.filter (sharedWith newSet)) +
        (totalPower (oldSet.filter fun member => !keeps member) +
          totalPower (oldSet.filter fun member =>
            keeps member && decide ((next member).pubkey ≠ member.pubkey))) := by
    have parts := totalPower_filter oldSet keeps
    have keptParts := totalPower_perm (kept oldSet)
    rw [totalPower_append] at keptParts
    rw [replaces.shared]
    omega
  have newSplit : totalPower newSet =
      totalPower (newSet.filter (sharedWith oldSet)) +
        (totalPower entered + totalPower ((oldSet.filter fun member =>
          keeps member && decide ((next member).pubkey ≠ member.pubkey)).map next)) := by
    have keptParts := totalPower_perm ((kept oldSet).map next)
    rw [map_append, totalPower_append] at keptParts
    rw [totalPower_perm replaces.sharedBack, total, keptParts]
    omega
  have heads : changes oldSet newSet = (oldSet.filter fun member => !keeps member).length +
      entered.length + (oldSet.filter fun member =>
        keeps member && decide ((next member).pubkey ≠ member.pubkey)).length := by
    rw [changes, replaces.departed, replaces.arrived.length_eq, replaces.rekeyed]
  dsimp only
  rw [← heads, ← quorumPower_le_iff oldSplit, ← total, ← quorumPower_le_iff newSplit]
  constructor
  · intro keepsQuorum
    exact ⟨keepsQuorum.changes, keepsQuorum.ofOld, keepsQuorum.ofNew⟩
  · rintro ⟨few, ofOld, ofNew⟩
    exact ⟨few, ofOld, ofNew, floor⟩

end Replaced

section Rotation

variable (validators : List ValidatorState) (rotations : List (Address × PubKey))
  (oldSet : List PlanMember) (maxValidators : Nat)

def stakedSet : List PlanMember :=
  (computeNewValidatorSet validators maxValidators).map (rotateKey rotations)

def nextForm (member : PlanMember) : PlanMember :=
  rotateKey rotations (inSet (stakedSet validators rotations maxValidators) member)

def enteringMembers : List PlanMember :=
  entering oldSet (stakedSet validators rotations maxValidators) (oldSet.length / 3)

variable {validators rotations oldSet maxValidators}

theorem rotateKey_address (member : PlanMember) :
    (rotateKey rotations member).address = member.address := by
  unfold rotateKey
  split <;> rfl

theorem rotateKey_rotateKey (member : PlanMember) :
    rotateKey rotations (rotateKey rotations member) = rotateKey rotations member := by
  cases found : rotations.find? fun rotation => rotation.1 = member.address <;>
    simp [rotateKey, found]

variable (distinct : (validators.map ValidatorState.address).Nodup)
include distinct

theorem stakedSet_distinct : (addresses (stakedSet validators rotations maxValidators)).Nodup := by
  have same : addresses (stakedSet validators rotations maxValidators) =
      ((((validators.filter fun validator => validator.status = .active ∨
        validator.status = .candidate).insertionSort StakedMore).take maxValidators).map
          ValidatorState.address) := by
    have unkeyed : PlanMember.address ∘ rotateKey rotations ∘ memberOf = ValidatorState.address := by
      funext validator
      simp [rotateKey_address, memberOf]
    simp [addresses, stakedSet, computeNewValidatorSet, unkeyed]
  rw [same]
  refine List.Nodup.sublist ((take_sublist _ _).map _) ?_
  refine ((perm_insertionSort StakedMore _).map _).nodup_iff.mpr ?_
  exact List.Nodup.sublist (filter_sublist.map _) distinct

theorem nextSet_replaces (oldDistinct : (addresses oldSet).Nodup) (enough : 3 ≤ oldSet.length) :
    Replaces oldSet (nextSet validators rotations oldSet maxValidators)
      (enteringMembers validators rotations oldSet maxValidators)
      (keepsSeat oldSet (stakedSet validators rotations maxValidators) (oldSet.length / 3))
      (nextForm validators rotations maxValidators) := by
  have positive : 0 < safeRotationCap oldSet.length := by
    unfold safeRotationCap
    omega
  have staked := @stakedSet_distinct validators rotations maxValidators distinct
  refine ⟨oldDistinct, fun member => ?_, fun member enters => ?_, ?_⟩
  · rw [nextForm, rotateKey_address, inSet_address]
  · have letInto := (mem_filter.mp enters).2
    rw [decide_eq_true_eq] at letInto
    exact (letIn_arrives letInto).2
  · have perm := (enforceMinimumFloor_perm oldDistinct staked positive).map (rotateKey rotations)
    rw [map_append, map_map] at perm
    have unrotated : (enteringMembers validators rotations oldSet maxValidators).map
        (rotateKey rotations) = enteringMembers validators rotations oldSet maxValidators := by
      conv_rhs => rw [← List.map_id (enteringMembers validators rotations oldSet maxValidators)]
      apply map_congr_left
      intro member enters
      obtain ⟨unkeyed, _, rfl⟩ := mem_map.mp (mem_of_mem_filter enters)
      exact rotateKey_rotateKey unkeyed
    unfold nextSet
    dsimp only
    rw [if_pos positive]
    refine perm.trans (List.Perm.of_eq ?_)
    congr 1

theorem nextSet_length (oldDistinct : (addresses oldSet).Nodup) (enough : 3 ≤ oldSet.length)
    (large : minActiveValidators ≤ oldSet.length) :
    minActiveValidators ≤ (nextSet validators rotations oldSet maxValidators).length := by
  have positive : 0 < safeRotationCap oldSet.length := by
    unfold safeRotationCap
    omega
  have floor := enforceMinimumFloor_length oldDistinct
    (@stakedSet_distinct validators rotations maxValidators distinct) positive large
  unfold nextSet
  dsimp only
  rw [if_pos positive, length_map]
  exact floor

theorem nextSet_ne_nil (oldDistinct : (addresses oldSet).Nodup) (enough : 3 ≤ oldSet.length) :
    nextSet validators rotations oldSet maxValidators ≠ [] := by
  intro empty
  have replaces := @nextSet_replaces validators rotations oldSet maxValidators distinct oldDistinct
    enough
  have noneStay : oldSet.filter (keepsSeat oldSet (stakedSet validators rotations maxValidators)
      (oldSet.length / 3)) = [] := by
    have perm := replaces.perm
    rw [empty] at perm
    exact map_eq_nil_iff.mp (append_eq_nil_iff.mp perm.nil_eq.symm).1
  have allGone : (oldSet.filter fun member => member.address ∈
      letGo oldSet (stakedSet validators rotations maxValidators) (oldSet.length / 3)) = oldSet := by
    rw [filter_eq_self]
    intro member inOld
    have goes := filter_eq_nil_iff.mp noneStay member inOld
    simp only [keepsSeat, decide_eq_true_eq, not_or, not_not] at goes
    simpa using goes.1
  have gone := @length_letGo_le oldSet (stakedSet validators rotations maxValidators) oldDistinct
    (oldSet.length / 3)
  have few := @letGo_letIn_length oldSet (stakedSet validators rotations maxValidators)
    (oldSet.length / 3)
  rw [allGone] at gone
  omega

end Rotation

def oneToken (address : Address) (status : ValidatorStatus) : ValidatorState where
  address := address
  pubkey := BitVec.ofNat 256 address
  commissionBps := 0
  selfStake := BitVec.ofNat 256 wei
  totalDelegated := 0
  status := status
  jailedUntil := none
  lastCommissionChangeBlock := none
  oracleSigner := none

end TorusHyperBft.Epoch
