import TorusHyperBft.Staking.Released

namespace TorusHyperBft.Staking

open List

/-! Slashing: every stake of a validator shrinks by its own floor, and the sum is burned. -/

open Rows StakingManager Program

section Fraction

variable {amount : U256} {fractionBps : Bps}

theorem slashOf_toNat_le (most : fractionBps.val ≤ 10000) :
    (slashOf amount fractionBps).toNat ≤ amount.toNat := by
  have divided : (slashOf amount fractionBps).toNat =
      amount.toNat * (BitVec.ofNat 256 fractionBps.val).toNat % 2 ^ 256 / 10000 := by
    simp [slashOf, BitVec.toNat_udiv, BitVec.toNat_mul]
  have fraction : (BitVec.ofNat 256 fractionBps.val).toNat ≤ 10000 := by
    rw [BitVec.toNat_ofNat]
    exact le_trans (Nat.mod_le _ _) most
  rw [divided]
  calc amount.toNat * (BitVec.ofNat 256 fractionBps.val).toNat % 2 ^ 256 / 10000
      ≤ amount.toNat * (BitVec.ofNat 256 fractionBps.val).toNat / 10000 :=
        Nat.div_le_div_right (Nat.mod_le _ _)
    _ ≤ amount.toNat * 10000 / 10000 :=
        Nat.div_le_div_right (Nat.mul_le_mul_left _ fraction)
    _ = amount.toNat := Nat.mul_div_cancel _ (by decide)

theorem slashOf_le (most : fractionBps.val ≤ 10000) : slashOf amount fractionBps ≤ amount :=
  BitVec.le_def.mpr (slashOf_toNat_le most)

end Fraction

def slashSum (fractionBps : Bps) (dels : List Delegation) : Int :=
  (dels.map fun del => ((slashOf del.amount fractionBps).toNat : Int)).sum

/-- Delegations to one validator have shrunk and nothing else has changed. -/
structure Shrinks (validator : Address) (taken : Int) (mgr after : StakingManager) : Prop where
  frame : after = { mgr with delegations := after.delegations }
  value : after.value = mgr.value - taken
  sums : ∀ other, other ≠ validator → after.delegatedTo other = mgr.delegatedTo other
  rows : ∀ key row, after.getDelegationRaw key = some row →
    ∃ before, mgr.getDelegationRaw key = some before ∧ row.delegator = before.delegator ∧
      row.validator = before.validator
  pending : ∀ key, after.pendingAt key = mgr.pendingAt key

section Shrinks

variable {mgr middle after : StakingManager} {validator : Address} {taken more : Int}
variable {del : Delegation} {fractionBps : Bps}

theorem Shrinks.refl : Shrinks validator 0 mgr mgr where
  frame := rfl
  value := (Int.sub_zero _).symm
  sums := fun _ _ => rfl
  rows := fun _ row found => ⟨row, found, rfl, rfl⟩
  pending := fun _ => rfl

theorem Shrinks.trans (first : Shrinks validator taken mgr middle)
    (second : Shrinks validator more middle after) : Shrinks validator
    (taken + more) mgr after where
  frame := by
    rw [second.frame, first.frame]
  value := by
    rw [second.value, first.value]
    omega
  sums := fun other different => (second.sums other different).trans (first.sums other different)
  rows := by
    intro key row found
    obtain ⟨between, was, delegators, validators⟩ := second.rows key row found
    obtain ⟨before, first, delegators', validators'⟩ := first.rows key between was
    exact ⟨before, first, delegators.trans delegators', validators.trans validators'⟩
  pending := fun key => (second.pending key).trans (first.pending key)

theorem shrinks_slashDelegation (most : fractionBps.val ≤ 10000) {sum : U256}
    (found : mgr.getDelegationRaw (del.delegator, validator) = some del) :
    Shrinks validator (slashOf del.amount fractionBps).toNat mgr
      (slashDelegation validator fractionBps (mgr, sum) del).1 := by
  unfold slashDelegation
  dsimp only
  split
  · rename_i zero
    rw [zero]
    exact Shrinks.refl
  · refine ⟨rfl, ?_, ?_, ?_, ?_⟩
    · rw [value_putDelegationRaw, worthAt_of found]
      have least := @slashOf_toNat_le del.amount _ most
      unfold Delegation.worth
      dsimp only
      rw [BitVec.toNat_sub_of_le (slashOf_le most)]
      omega
    · intro other different
      rw [delegatedTo_putDelegationRaw, if_neg (Ne.symm different), Int.add_zero]
    · intro key row written
      rw [getDelegationRaw_putDelegationRaw] at written
      split at written
      · rename_i same
        cases written
        exact ⟨del, same ▸ found, rfl, rfl⟩
      · exact ⟨row, written, rfl, rfl⟩
    · intro key
      rw [@pendingAt_insert mgr _ (del.delegator, validator) _ rfl key]
      split
      · rename_i same
        rw [same, pendingAt_of found]
      · rfl

theorem getDelegationRaw_slashDelegation {sum : U256} {key : DelegationKey}
    (elsewhere : key ≠ (del.delegator, validator)) :
    (slashDelegation validator fractionBps (mgr, sum) del).1.getDelegationRaw key =
      mgr.getDelegationRaw key := by
  unfold slashDelegation
  dsimp only
  split
  · rfl
  · rw [getDelegationRaw_putDelegationRaw, if_neg elsewhere]

theorem shrinks_foldl (most : fractionBps.val ≤ 10000) (dels : List Delegation) {sum : U256}
    (found : ∀ del ∈ dels, mgr.getDelegationRaw (del.delegator, validator) = some del)
    (nodup : (dels.map Delegation.delegator).Nodup) :
    Shrinks validator (slashSum fractionBps dels) mgr
      (dels.foldl (slashDelegation validator fractionBps) (mgr, sum)).1 := by
  induction dels generalizing mgr sum with
  | nil => exact Shrinks.refl
  | cons del dels ih =>
    rw [map_cons, nodup_cons] at nodup
    have first := @shrinks_slashDelegation mgr validator _ _ most sum (found del mem_cons_self)
    have others : ∀ later ∈ dels, (later.delegator, validator) ≠ (del.delegator, validator) := by
      intro later member same
      exact nodup.1 (mem_map.mpr ⟨later, member, (Prod.mk.inj same).1⟩)
    have rest := @ih (slashDelegation validator fractionBps (mgr, sum) del).1
      (slashDelegation validator fractionBps (mgr, sum) del).2
      (by
        intro later member
        rw [getDelegationRaw_slashDelegation (others later member)]
        exact found later (mem_cons_of_mem _ member)) nodup.2
    exact first.trans rest

theorem foldl_slashDelegation_sum (dels : List Delegation) {sum : U256} :
    (dels.foldl (slashDelegation validator fractionBps) (mgr, sum)).2 =
      dels.foldl (fun sum del => sum + slashOf del.amount fractionBps) sum := by
  induction dels generalizing mgr sum with
  | nil => rfl
  | cons del dels ih => exact ih

theorem mem_delegationsForValidator (sound : mgr.Sound)
    (member : del ∈ mgr.delegationsForValidator validator) :
    mgr.getDelegationRaw (del.delegator, validator) = some del := by
  obtain ⟨entry, inRows, rfl⟩ := mem_map.mp member
  obtain ⟨inEntries, isValidator⟩ := mem_filter.mp inRows
  have found := mem_entries_lookup inEntries
  have keyed := sound.keyed entry.1 entry.2 found
  have same : entry.1 = (entry.2.delegator, validator) :=
    Prod.ext keyed.1.symm (of_decide_eq_true isValidator)
  rw [← same]
  exact found

theorem delegationsForValidator_nodup (sound : mgr.Sound) (validator : Address) :
    ((mgr.delegationsForValidator validator).map Delegation.delegator).Nodup := by
  have keys : (mgr.delegationsForValidator validator).map (fun del => (del.delegator, validator)) =
      (mgr.delegations.entries.filter fun row => row.1.2 = validator).map Sigma.fst := by
    unfold delegationsForValidator
    rw [map_map]
    apply map_congr_left
    intro entry member
    obtain ⟨inEntries, isValidator⟩ := mem_filter.mp member
    have keyed := sound.keyed entry.1 entry.2 (mem_entries_lookup inEntries)
    exact Prod.ext keyed.1 (of_decide_eq_true isValidator).symm
  have nodup : ((mgr.delegations.entries.filter fun row => row.1.2 = validator).map
      Sigma.fst).Nodup :=
    List.Nodup.sublist (filter_sublist.map _) mgr.delegations.nodupKeys
  rw [← keys] at nodup
  have apart : ((mgr.delegationsForValidator validator).map Delegation.delegator).map
      (fun delegator => (delegator, validator)) =
      (mgr.delegationsForValidator validator).map (fun del => (del.delegator, validator)) := by
    rw [map_map]
    rfl
  exact List.Nodup.of_map _ (apart ▸ nodup)

theorem delegationsForValidator_amounts :
    ((mgr.delegationsForValidator validator).map fun del => (del.amount.toNat : Int)).sum =
      mgr.delegatedTo validator := by
  unfold delegationsForValidator delegatedTo total
  rw [map_map, sum_filter]
  simp only [decide_eq_true_eq, Function.comp_def]

theorem slashSum_le (most : fractionBps.val ≤ 10000) :
    slashSum fractionBps (mgr.delegationsForValidator validator) ≤ mgr.delegatedTo validator := by
  rw [← delegationsForValidator_amounts]
  apply sum_le_sum
  intro del _
  exact Int.ofNat_le.mpr (slashOf_toNat_le most)

theorem delegatedSum_toNat (bounded : mgr.value < 2 ^ 256) :
    ((mgr.delegatedSum validator).toNat : Int) = mgr.delegatedTo validator := by
  have parts := mgr.parts
  have most := @delegatedTo_le mgr validator
  have sums := @delegationsForValidator_amounts mgr validator
  unfold delegatedSum
  rw [foldl_amounts Delegation.amount _ 0, sums]
  · simp
  · rw [sums]
    simp only [BitVec.toNat_zero, Nat.cast_zero, Int.zero_add, BitVec.ofNat_eq_ofNat]
    omega

end Shrinks

section Slash

variable {mgr : StakingManager} {validator : Address} {val : ValidatorState} {fractionBps : Bps}

theorem autoJail_stakes (val : ValidatorState) (currentBlock : U64) :
    (val.autoJail currentBlock).selfStake = val.selfStake ∧
      (val.autoJail currentBlock).totalDelegated = val.totalDelegated ∧
      (val.status ≠ .tombstoned → (val.autoJail currentBlock).status ≠ .tombstoned) := by
  unfold ValidatorState.autoJail
  split
  · exact ⟨rfl, rfl, fun _ => by simp⟩
  · exact ⟨rfl, rfl, id⟩

theorem slash_covered (most : fractionBps.val ≤ 10000) :
    ∀ pair ∈ mgr.slashSubtractions validator fractionBps, pair.2 ≤ pair.1 := by
  intro pair member
  rcases mem_append.mp member with self | delegated
  · obtain ⟨val, _, rfl⟩ := Option.map_eq_some_iff.mp (Option.mem_toList.mp self)
    exact slashOf_le most
  · obtain ⟨del, _, rfl⟩ := mem_map.mp delegated
    exact slashOf_le most

theorem slash_ok (sound : mgr.Sound) (found : mgr.getValidator validator = some val)
    (most : fractionBps.val ≤ 10000) (reason : SlashReason) (currentBlock : U64) :
    ∃ burned after, slash validator fractionBps reason currentBlock mgr = .ok burned after ∧
      Kept mgr (.slash validator fractionBps reason currentBlock) after ∧
      ∃ state, after.getValidator validator = some state ∧
        (val.status ≠ .tombstoned → state.status ≠ .tombstoned) := by
  have selfMost := @slashOf_toNat_le val.selfStake fractionBps most
  have shrinks := @shrinks_foldl mgr validator fractionBps most
    (mgr.delegationsForValidator validator) (slashOf val.selfStake fractionBps)
    (fun del member => mem_delegationsForValidator sound member)
    (delegationsForValidator_nodup sound validator)
  have sumIs := @foldl_slashDelegation_sum mgr validator fractionBps
    (mgr.delegationsForValidator validator) (slashOf val.selfStake fractionBps)
  have taken := @slashSum_le mgr validator fractionBps most
  have toOne := @delegatedTo_le mgr validator
  have stake := mgr.selfStake_le found
  have parts := mgr.parts
  have bounded := sound.bounded
  have positive : 0 ≤ slashSum fractionBps (mgr.delegationsForValidator validator) := by
    apply sum_nonneg
    intro value member
    obtain ⟨del, _, rfl⟩ := mem_map.mp member
    exact Int.natCast_nonneg _
  -- The sum of the floors is the sum burned: nothing wraps in a bounded ledger.
  have burned : (((mgr.slashDelegations validator fractionBps
      (slashOf val.selfStake fractionBps)).2).toNat : Int) =
      (slashOf val.selfStake fractionBps).toNat +
        slashSum fractionBps (mgr.delegationsForValidator validator) := by
    unfold slashDelegations
    rw [sumIs, foldl_amounts]
    · rfl
    · change ((slashOf val.selfStake fractionBps).toNat : Int) +
        slashSum fractionBps (mgr.delegationsForValidator validator) < _
      omega
  change Shrinks validator _ mgr
    (mgr.slashDelegations validator fractionBps (slashOf val.selfStake fractionBps)).1 at shrinks
  unfold slash
  rw [get_bind, found]
  refine ⟨_, _, rfl, ?_⟩
  dsimp only
  generalize mgr.slashDelegations validator fractionBps (slashOf val.selfStake fractionBps) = slashed
    at shrinks burned ⊢
  obtain ⟨middle, total⟩ := slashed
  dsimp only at shrinks burned ⊢
  generalize updatedIs : ValidatorState.autoJail _ currentBlock = updated
  obtain ⟨selfSame, totalSame, status⟩ := autoJail_stakes { val with
    selfStake := val.selfStake - slashOf val.selfStake fractionBps
    totalDelegated := middle.delegatedSum validator } currentBlock
  rw [updatedIs] at selfSame totalSame status
  have middleFound : middle.getValidator validator = some val := by
    rw [shrinks.frame]
    exact found
  have middleBurned : middle.cumulativeBurned = mgr.cumulativeBurned := by
    rw [shrinks.frame]
  have middleTotal := @delegatedSum_toNat middle validator (by rw [shrinks.value]; omega)
  have fits : (middle.putValidator validator updated).cumulativeBurned.toNat + total.toNat <
      2 ^ 256 := by
    change middle.cumulativeBurned.toNat + total.toNat < 2 ^ 256
    rw [middleBurned]
    omega
  have value : ((middle.putValidator validator updated).executeBurn total).value = mgr.value := by
    rw [value_executeBurn fits, value_putValidator, selfStakeAt_of middleFound, shrinks.value,
      selfSame]
    dsimp only
    rw [BitVec.toNat_sub_of_le (slashOf_le most)]
    omega
  have delegations : ((middle.putValidator validator updated).executeBurn total).delegations =
      middle.delegations := by
    unfold executeBurn
    split
    · rfl
    · rfl
  have validators : ∀ address, ((middle.putValidator validator updated).executeBurn total).getValidator
      address = if address = validator then some updated else mgr.getValidator address := by
    intro address
    have same : ((middle.putValidator validator updated).executeBurn total).getValidator address =
        (middle.putValidator validator updated).getValidator address := by
      unfold executeBurn
      split
      · rfl
      · rfl
    rw [same, getValidator_putValidator]
    split
    · rfl
    · rw [shrinks.frame]
      rfl
  generalize (middle.putValidator validator updated).executeBurn total = final
    at value delegations validators ⊢
  have rows : ∀ key, final.getDelegationRaw key = middle.getDelegationRaw key := by
    intro key
    simp only [getDelegationRaw, delegations]
  have sums : ∀ address, final.delegatedTo address = middle.delegatedTo address := by
    intro address
    simp only [delegatedTo, delegations]
  refine ⟨⟨value, ⟨?_, ?_, ?_, ?_⟩, ?_, slash_covered most⟩, ?_⟩
  · intro key row is
    obtain ⟨before, was, delegator, isValidator⟩ := shrinks.rows key row ((rows key).symm.trans is)
    rw [delegator, isValidator]
    exact sound.keyed key before was
  · intro key row is
    obtain ⟨before, was, _⟩ := shrinks.rows key row ((rows key).symm.trans is)
    change (final.getValidator key.2).isSome
    rw [validators]
    split
    · rfl
    · exact sound.registered key before was
  · intro address state is
    change final.getValidator address = some state at is
    change _ = final.delegatedTo address
    rw [validators] at is
    rw [sums]
    by_cases same : address = validator
    · rw [if_pos same] at is
      cases is
      rw [totalSame, same]
      exact middleTotal
    · rw [if_neg same] at is
      rw [shrinks.sums address same]
      exact sound.delegated address state is
  · change final.value < _
    rw [value]
    exact bounded
  · intro key
    change final.pendingAt key + 0 = mgr.pendingAt key + 0
    rw [add_zero, add_zero, ← shrinks.pending key]
    simp only [pendingAt, rows]
  · refine ⟨updated, ?_, status⟩
    change final.getValidator validator = _
    rw [validators, if_pos rfl]

theorem slash_settles (sound : mgr.Sound) (validator : Address) (most : fractionBps.val ≤ 10000)
    (reason : SlashReason) (currentBlock : U64) :
    Settles (slash validator fractionBps reason currentBlock) mgr fun _ after =>
      Kept mgr (.slash validator fractionBps reason currentBlock) after := by
  cases found : mgr.getValidator validator with
  | none =>
    refine .inl ⟨.validatorNotFound validator, ?_⟩
    unfold slash
    rw [get_bind, found]
    rfl
  | some val =>
    obtain ⟨burned, after, ran, kept, _⟩ := slash_ok sound found most reason currentBlock
    exact settles_of_ok ran kept

end Slash

end TorusHyperBft.Staking
