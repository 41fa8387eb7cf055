import TorusHyperBft.HotStuff.ValidatorSet
import TorusHyperBft.RoundRobin

namespace TorusHyperBft.HotStuff

open List
open Epoch (PubKey ValidatorSet)

/-! The leader of a view. -/

/-- The leader of a view, found by a walk over the distinct powers; none where the source panics. -/
def selectLeader (view : Nat) (set : ValidatorSet) : Option PubKey :=
  if set.validators.length = 0 ∨ set.totalPower = 0 then none
  else
    let skipExcluded := set.leaderExclusionActive
    let inRows (key : PubKey) : Bool := !skipExcluded || !set.isLeaderExcluded key
    let members := set.validatorsAndPowers.filter fun member => inRows member.1
    let index := view % (members.map Prod.snd).sum
    (RoundRobin.walk members index (RoundRobin.levels members) 0 0).map Prod.fst

/-- The members that may lead: those not excluded if they make a quorum of the whole set, else all. -/
def eligible (set : ValidatorSet) : List (PubKey × Nat) :=
  let rest := set.validatorsAndPowers.filter fun member => !set.isLeaderExcluded member.1
  if set.quorum ≤ (rest.map Prod.snd).sum then rest else set.validatorsAndPowers

def eligiblePower (set : ValidatorSet) : Nat := RoundRobin.totalWeight (eligible set)

/-- Every eligible validator of power at least `t`, in the order of the keys, for `t = 1, 2, …`. -/
def leaderArray (set : ValidatorSet) : List PubKey :=
  (RoundRobin.schedule (eligible set)).map Prod.fst

section Select

variable {set : ValidatorSet} {view : Nat} {key : PubKey}

theorem eligible_keys_nodup (set : ValidatorSet) : ((eligible set).map Prod.fst).Nodup := by
  have all := set.validators_nodup
  simp only [eligible]
  split
  · exact all.sublist (filter_sublist.map _)
  · exact all

theorem eligible_eq (set : ValidatorSet) :
    (set.validatorsAndPowers.filter fun member =>
      !set.leaderExclusionActive || !set.isLeaderExcluded member.1) = eligible set := by
  simp only [eligible, ← set.leaderEligiblePower_eq]
  have all : set.validatorsAndPowers.filter (fun _ => true) = set.validatorsAndPowers := by simp
  by_cases reached : set.quorum ≤ set.leaderEligiblePower
  · rw [if_pos reached]
    by_cases none : set.leaderExcluded = ∅
    · apply filter_congr
      intro member _
      simp [ValidatorSet.leaderExclusionActive, ValidatorSet.isLeaderExcluded, none]
    · apply filter_congr
      intro member _
      simp [ValidatorSet.leaderExclusionActive, reached, none]
  · rw [if_neg reached]
    refine Eq.trans ?_ all
    apply filter_congr
    intro member _
    simp [ValidatorSet.leaderExclusionActive, reached]

theorem eligiblePower_pos (positive : 0 < set.totalPower) : 0 < eligiblePower set := by
  simp only [eligiblePower, eligible, RoundRobin.totalWeight]
  split
  · rename_i reached
    have quorum : 0 < set.quorum := Nat.succ_pos _
    omega
  · rw [← set.totalPower_eq]
    exact positive

theorem selectLeader_eq (positive : 0 < set.totalPower) : selectLeader view set =
    ((RoundRobin.schedule (eligible set))[view % eligiblePower set]?).map Prod.fst := by
  have occupied : ¬ (set.validators.length = 0 ∨ set.totalPower = 0) := by
    rintro (none | none)
    · have empty : set.validatorsAndPowers = [] := by
        simpa [ValidatorSet.validators] using none
      rw [set.totalPower_eq, empty] at positive
      exact Nat.lt_irrefl _ positive
    · omega
  simp only [selectLeader, if_neg occupied, eligible_eq]
  rw [RoundRobin.walk_schedule]
  rfl

theorem selectLeader_isSome (positive : 0 < set.totalPower) :
    ∃ member ∈ eligible set,
      (RoundRobin.schedule (eligible set))[view % eligiblePower set]? = some member := by
  have bound : view % eligiblePower set < (RoundRobin.schedule (eligible set)).length := by
    rw [RoundRobin.length_schedule]
    exact Nat.mod_lt _ (eligiblePower_pos positive)
  exact ⟨_, RoundRobin.mem_of_mem_schedule (getElem_mem bound), List.getElem?_eq_getElem bound⟩

theorem count_leaders (positive : 0 < set.totalPower) (start power : Nat)
    (member : (key, power) ∈ eligible set) :
    ((List.range (eligiblePower set)).map fun offset => selectLeader (start + offset) set).count
      (some key) = power := by
  have distinct : (eligible set).Nodup := (eligible_keys_nodup set).of_map
  refine Eq.trans ?_ (RoundRobin.count_turn distinct member start)
  rw [eligiblePower, count_eq_countP, count_eq_countP, countP_map, countP_map]
  apply countP_congr
  intro offset _
  obtain ⟨found, inside, is⟩ := @selectLeader_isSome set (start + offset) positive
  have same : found.1 = key ↔ found = (key, power) := by
    constructor
    · intro same
      exact inj_on_of_nodup_map (eligible_keys_nodup set) inside member same
    · intro same
      rw [same]
  simp only [Function.comp_apply, selectLeader_eq positive, is, Option.map_some, beq_iff_eq,
    Option.some.injEq]
  rw [eligiblePower] at is
  rw [is, Option.some.injEq]
  exact same

end Select

/-- The leader of a view is the entry of the array at the view modulo the eligible power; over any
turn each eligible validator leads as many views as its power is, and an active exclusion elects no
excluded one. -/
theorem selectLeader_roundRobin (set : ValidatorSet) (positive : 0 < set.totalPower) :
    (∀ view, ∃ leader, selectLeader view set = some leader ∧
      (leaderArray set)[view % eligiblePower set]? = some leader) ∧
    (leaderArray set).length = eligiblePower set ∧
    (∀ start key power, (key, power) ∈ eligible set →
      ((List.range (eligiblePower set)).map fun offset =>
        selectLeader (start + offset) set).count (some key) = power) ∧
    (set.leaderExclusionActive = true → ∀ view leader, selectLeader view set = some leader →
      set.isLeaderExcluded leader = false) := by
  refine ⟨?_, ?_, fun start key power member => count_leaders positive start power member, ?_⟩
  · intro view
    obtain ⟨member, -, is⟩ := @selectLeader_isSome set view positive
    refine ⟨member.1, ?_, ?_⟩
    · rw [selectLeader_eq positive, is]
      rfl
    · rw [leaderArray, List.getElem?_map, is]
      rfl
  · rw [leaderArray, length_map, RoundRobin.length_schedule, eligiblePower]
  · intro active view leader selected
    obtain ⟨member, inside, is⟩ := @selectLeader_isSome set view positive
    rw [selectLeader_eq positive, is, Option.map_some, Option.some.injEq] at selected
    rw [← eligible_eq, mem_filter] at inside
    simpa [active, selected] using inside.2

def threeValidators : ValidatorSet where
  powers := ((AList.singleton 1 1).insert 2 3).insert 3 2
  leaderExcluded := {1}

theorem selectLeader_roundRobin_three :
    0 < threeValidators.totalPower ∧ threeValidators.leaderExclusionActive = true ∧
    ∃ leader, selectLeader 13 threeValidators = some leader ∧
      threeValidators.isLeaderExcluded leader = false := by
  have positive : 0 < threeValidators.totalPower := by decide
  have active : threeValidators.leaderExclusionActive = true := by decide
  obtain ⟨elects, -, -, excludes⟩ := selectLeader_roundRobin threeValidators positive
  obtain ⟨leader, selected, -⟩ := elects 13
  exact ⟨positive, active, leader, selected, excludes active 13 leader selected⟩

end TorusHyperBft.HotStuff
