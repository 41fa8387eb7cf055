import TorusHyperBft.Epoch.Consensus
import TorusHyperBft.Rows

namespace TorusHyperBft.Epoch.ValidatorSet

open List
open Epoch (PubKey)

/-! The order of the validators, and the power that makes a quorum. -/

def validatorsAndPowers (set : ValidatorSet) : List (PubKey × Nat) :=
  (set.powers.entries.map fun row => (row.1, row.2.val)).mergeSort
    fun left right => left.1.toNat ≤ right.1.toNat

def validators (set : ValidatorSet) : List PubKey := set.validatorsAndPowers.map Prod.fst

def power (set : ValidatorSet) (key : PubKey) : Option Nat := (set.powers.lookup key).map Fin.val

def totalPower (set : ValidatorSet) : Nat := (set.powers.entries.map fun row => row.2.val).sum

def quorum (set : ValidatorSet) : Nat := set.totalPower * 2 / 3 + 1

def isLeaderExcluded (set : ValidatorSet) (key : PubKey) : Bool := key ∈ set.leaderExcluded

def leaderEligiblePower (set : ValidatorSet) : Nat :=
  set.totalPower - ∑ key ∈ set.leaderExcluded, (set.power key).getD 0

def leaderExclusionActive (set : ValidatorSet) : Bool :=
  set.leaderExcluded ≠ ∅ && set.quorum ≤ set.leaderEligiblePower

def position (set : ValidatorSet) (key : PubKey) : Option Nat := set.validators.idxOf? key

section Members

variable {set : ValidatorSet} {key : PubKey} {power : Nat}

theorem validatorsAndPowers_perm (set : ValidatorSet) :
    set.validatorsAndPowers.Perm (set.powers.entries.map fun row => (row.1, row.2.val)) :=
  mergeSort_perm _ _

theorem mem_validatorsAndPowers :
    (key, power) ∈ set.validatorsAndPowers ↔ set.power key = some power := by
  rw [set.validatorsAndPowers_perm.mem_iff, mem_map, ValidatorSet.power]
  constructor
  · rintro ⟨row, member, same⟩
    rw [Prod.mk.injEq] at same
    rw [← same.1, Rows.mem_entries_lookup member, Option.map_some, same.2]
  · intro found
    obtain ⟨value, lookup, rfl⟩ := Option.map_eq_some_iff.mp found
    exact ⟨⟨key, value⟩, AList.mem_lookup_iff.mp lookup, rfl⟩

theorem validators_nodup (set : ValidatorSet) : set.validators.Nodup := by
  have keys := (set.validatorsAndPowers_perm.map Prod.fst).nodup_iff
  rw [validators, keys, map_map]
  exact set.powers.nodupKeys

theorem validators_length (set : ValidatorSet) :
    set.validators.length = set.validatorsAndPowers.length := by
  rw [validators, length_map]

theorem position_member {place : Nat} (found : set.position key = some place) :
    ∃ power, set.power key = some power ∧ set.validatorsAndPowers[place]? = some (key, power) := by
  obtain ⟨inside, named, _⟩ := List.idxOf?_eq_some_iff.mp found
  rw [validators_length] at inside
  have member : set.validatorsAndPowers[place]? = some (set.validatorsAndPowers.get ⟨place, inside⟩) :=
    List.getElem?_eq_getElem inside
  have same : (set.validatorsAndPowers.get ⟨place, inside⟩).1 = key := by
    simpa [validators] using named
  refine ⟨(set.validatorsAndPowers.get ⟨place, inside⟩).2, ?_, ?_⟩
  · rw [← mem_validatorsAndPowers, ← same]
    exact List.get_mem _ _
  · rw [member, ← same]

theorem totalPower_eq (set : ValidatorSet) :
    set.totalPower = (set.validatorsAndPowers.map Prod.snd).sum := by
  rw [(set.validatorsAndPowers_perm.map Prod.snd).sum_eq, totalPower, map_map]
  rfl

theorem leaderEligiblePower_eq (set : ValidatorSet) : set.leaderEligiblePower =
    ((set.validatorsAndPowers.filter fun member => !set.isLeaderExcluded member.1).map
      Prod.snd).sum := by
  have distinct : set.validatorsAndPowers.map Prod.fst |>.Nodup := set.validators_nodup
  have known : ∀ member ∈ set.validatorsAndPowers, set.power member.1 = some member.2 :=
    fun member inside => mem_validatorsAndPowers.mp inside
  have unknown : ∀ key, key ∉ set.validatorsAndPowers.map Prod.fst → set.power key = none := by
    intro key absent
    rw [Option.eq_none_iff_forall_ne_some]
    intro power found
    exact absent (mem_map_of_mem (mem_validatorsAndPowers.mpr found))
  have split : ∀ members : List (PubKey × Nat), (members.map Prod.fst).Nodup →
      (∀ member ∈ members, set.power member.1 = some member.2) →
      (members.map Prod.snd).sum =
        (∑ key ∈ set.leaderExcluded.filter (· ∈ members.map Prod.fst), (set.power key).getD 0) +
          ((members.filter fun member => !set.isLeaderExcluded member.1).map Prod.snd).sum := by
    intro members distinct known
    induction members with
    | nil => simp
    | cons member members ih =>
      rw [map_cons, nodup_cons] at distinct
      have rest := ih distinct.2 fun member inside => known member (mem_cons_of_mem _ inside)
      have own := known member mem_cons_self
      rw [map_cons, sum_cons, rest, map_cons]
      by_cases excluded : member.1 ∈ set.leaderExcluded
      · have grown : set.leaderExcluded.filter (· ∈ member.1 :: members.map Prod.fst) =
            insert member.1 (set.leaderExcluded.filter (· ∈ members.map Prod.fst)) := by
          ext key
          simp only [Finset.mem_filter, Finset.mem_insert, mem_cons]
          constructor
          · rintro ⟨inside, same | listed⟩
            · exact .inl same
            · exact .inr ⟨inside, listed⟩
          · rintro (same | ⟨inside, listed⟩)
            · exact ⟨same ▸ excluded, .inl same⟩
            · exact ⟨inside, .inr listed⟩
        have fresh : member.1 ∉ set.leaderExcluded.filter (· ∈ members.map Prod.fst) := by
          intro listed
          exact distinct.1 (Finset.mem_filter.mp listed).2
        rw [grown, Finset.sum_insert fresh, own, filter_cons_of_neg (by
          simp [isLeaderExcluded, excluded])]
        simp only [Option.getD_some]
        omega
      · have same : set.leaderExcluded.filter (· ∈ member.1 :: members.map Prod.fst) =
            set.leaderExcluded.filter (· ∈ members.map Prod.fst) := by
          apply Finset.filter_congr
          intro key inside
          have other : key ≠ member.1 := fun same => excluded (same ▸ inside)
          simp [other]
        rw [same, filter_cons_of_pos (by simp [isLeaderExcluded, excluded]), map_cons,
          sum_cons]
        omega
  have members : (∑ key ∈ set.leaderExcluded, (set.power key).getD 0) =
      ∑ key ∈ set.leaderExcluded.filter (· ∈ set.validatorsAndPowers.map Prod.fst),
        (set.power key).getD 0 := by
    rw [Finset.sum_filter]
    apply Finset.sum_congr rfl
    intro key _
    split
    · rfl
    · rename_i absent
      rw [unknown key absent, Option.getD_none]
  rw [leaderEligiblePower, totalPower_eq, split _ distinct known, members]
  omega

end Members

end TorusHyperBft.Epoch.ValidatorSet
