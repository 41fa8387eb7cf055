import TorusHyperBft.Staking.Delegated

namespace TorusHyperBft.Staking

open List

/-! The release of matured entries: each leaves its row once and is credited in full. -/

open Rows StakingManager Program

section Sums

theorem foldl_amounts {β : Type} (amount : β → U256) (items : List β) (start : U256)
    (fits : (start.toNat : Int) + (items.map fun item => ((amount item).toNat : Int)).sum < 2 ^ 256) :
    ((items.foldl (fun sum item => sum + amount item) start).toNat : Int) =
      start.toNat + (items.map fun item => ((amount item).toNat : Int)).sum := by
  induction items generalizing start with
  | nil => simp
  | cons item items ih =>
    have rest : 0 ≤ (items.map fun item => ((amount item).toNat : Int)).sum := by
      apply sum_nonneg
      intro value member
      obtain ⟨item, _, rfl⟩ := mem_map.mp member
      exact Int.natCast_nonneg _
    rw [map_cons, sum_cons] at fits
    have added : (start + amount item).toNat = start.toNat + (amount item).toNat :=
      BitVec.toNat_add_of_lt (by omega)
    rw [foldl_cons, ih, added, map_cons, sum_cons]
    · omega
    · rw [added]
      omega

end Sums

def Delegation.maturedValue (row : Delegation) (currentBlock : U64) : Int :=
  entriesValue (row.unbonding.filter (·.matured currentBlock))

section Settle

variable {mgr : StakingManager} {key other : DelegationKey} {row : Delegation} {currentBlock : U64}

theorem entriesValue_split (entries : List UnbondingEntry) :
    entriesValue entries = entriesValue (entries.filter (·.matured currentBlock)) +
      entriesValue (entries.filter fun entry => !entry.matured currentBlock) := by
  induction entries with
  | nil => rfl
  | cons entry entries ih =>
    cases is : entry.matured currentBlock with
    | true =>
      simp only [entriesValue, map_cons, sum_cons, filter_cons, is, if_true,
        Bool.not_true, Bool.false_eq_true, if_false] at ih ⊢
      omega
    | false =>
      simp only [entriesValue, map_cons, sum_cons, filter_cons, is, if_true,
        Bool.not_false, Bool.false_eq_true, if_false] at ih ⊢
      omega

theorem remaining_worth :
    (row.remaining currentBlock).worth = row.worth - row.maturedValue currentBlock := by
  have split := @entriesValue_split currentBlock row.unbonding
  unfold Delegation.worth Delegation.maturedValue Delegation.remaining
  dsimp only
  omega

theorem getDelegationRaw_settle (elsewhere : other ≠ key) :
    (mgr.settleDelegation key row).getDelegationRaw other = mgr.getDelegationRaw other := by
  unfold settleDelegation
  split
  · rw [getDelegationRaw_deleteDelegationRaw, if_neg elsewhere]
  · rw [getDelegationRaw_putDelegationRaw, if_neg elsewhere]

theorem getDelegationRaw_settle_self {found : Delegation}
    (is : (mgr.settleDelegation key row).getDelegationRaw key = some found) : found = row := by
  unfold settleDelegation at is
  split at is
  · rw [getDelegationRaw_deleteDelegationRaw, if_pos rfl] at is
    cases is
  · rw [getDelegationRaw_putDelegationRaw, if_pos rfl] at is
    exact (Option.some.inj is).symm

theorem pendingAt_settle : (mgr.settleDelegation key row).pendingAt key = row.unbonding := by
  unfold settleDelegation
  split
  · rename_i drained
    simp [pendingAt, getDelegationRaw_deleteDelegationRaw, drained.2]
  · simp [pendingAt, getDelegationRaw_putDelegationRaw]

theorem settle_putBalance {address : Address} {amount : U256} :
    (mgr.putBalance address amount).settleDelegation key row =
      (mgr.settleDelegation key row).putBalance address amount := by
  unfold settleDelegation
  split
  · rfl
  · rfl

theorem value_settle (found : mgr.getDelegationRaw key = some row) :
    (mgr.settleDelegation key (row.remaining currentBlock)).value =
      mgr.value - row.maturedValue currentBlock := by
  have worth := @remaining_worth row currentBlock
  unfold settleDelegation
  split
  · rename_i drained
    have nothing : (row.remaining currentBlock).worth = 0 := by
      simp [Delegation.worth, drained.1, drained.2, entriesValue]
    rw [value_deleteDelegationRaw, worthAt_of found]
    omega
  · rw [value_putDelegationRaw, worthAt_of found]
    omega

theorem delegatedTo_settle (found : mgr.getDelegationRaw key = some row) (validator : Address) :
    (mgr.settleDelegation key (row.remaining currentBlock)).delegatedTo validator =
      mgr.delegatedTo validator := by
  have amounts := amountAt_of found
  unfold settleDelegation
  split
  · rename_i drained
    have zero : row.amount = 0 := drained.1
    rw [delegatedTo_deleteDelegationRaw, amounts, zero]
    simp
  · rw [delegatedTo_putDelegationRaw, amounts]
    simp [Delegation.remaining]

end Settle

/-- Some rows have lost their matured entries and nothing else. -/
structure Releases (currentBlock : U64) (keys : List DelegationKey) (paid : Int)
    (mgr after : StakingManager) : Prop where
  accounts : after.accounts = mgr.accounts
  validators : after.validators = mgr.validators
  value : after.value = mgr.value - paid
  sums : ∀ validator, after.delegatedTo validator = mgr.delegatedTo validator
  rows : ∀ key row, after.getDelegationRaw key = some row →
    ∃ before, mgr.getDelegationRaw key = some before ∧ row.delegator = before.delegator ∧
      row.validator = before.validator
  released : ∀ key ∈ keys, after.pendingAt key =
    (mgr.pendingAt key).filter fun entry => ¬ entry.matured currentBlock
  kept : ∀ key, key ∉ keys → after.getDelegationRaw key = mgr.getDelegationRaw key

section Releases

variable {mgr middle after : StakingManager} {currentBlock : U64} {keys more : List DelegationKey}
variable {paid rest : Int} {key : DelegationKey} {row : Delegation}

theorem Releases.refl : Releases currentBlock [] 0 mgr mgr where
  accounts := rfl
  validators := rfl
  value := (Int.sub_zero _).symm
  sums := fun _ => rfl
  rows := fun _ row found => ⟨row, found, rfl, rfl⟩
  released := by simp
  kept := fun _ _ => rfl

theorem releases_settle (found : mgr.getDelegationRaw key = some row) :
    Releases currentBlock [key] (row.maturedValue currentBlock) mgr
      (mgr.settleDelegation key (row.remaining currentBlock)) where
  accounts := by
    unfold settleDelegation
    split
    · rfl
    · rfl
  validators := by
    unfold settleDelegation
    split
    · rfl
    · rfl
  value := value_settle found
  sums := delegatedTo_settle found
  rows := by
    intro other is written
    by_cases same : other = key
    · subst same
      rw [getDelegationRaw_settle_self written]
      exact ⟨row, found, rfl, rfl⟩
    · rw [getDelegationRaw_settle same] at written
      exact ⟨is, written, rfl, rfl⟩
  released := by
    intro other member
    rw [mem_singleton.mp member, pendingAt_settle, pendingAt_of found, Multiset.filter_coe]
    simp [Delegation.remaining]
  kept := fun other elsewhere =>
    getDelegationRaw_settle fun same => elsewhere (same ▸ mem_singleton_self _)

theorem Releases.trans (first : Releases currentBlock keys paid mgr middle)
    (second : Releases currentBlock more rest middle after) (apart : ∀ key ∈ keys, key ∉ more) :
    Releases currentBlock (keys ++ more) (paid + rest) mgr after where
  accounts := second.accounts.trans first.accounts
  validators := second.validators.trans first.validators
  value := by rw [second.value, first.value]; omega
  sums := fun validator => (second.sums validator).trans (first.sums validator)
  rows := by
    intro key row found
    obtain ⟨between, was, delegators, validators⟩ := second.rows key row found
    obtain ⟨before, first, delegators', validators'⟩ := first.rows key between was
    exact ⟨before, first, delegators.trans delegators', validators.trans validators'⟩
  released := by
    intro key member
    by_cases early : key ∈ keys
    · have same := second.kept key (apart key early)
      rw [← first.released key early]
      simp only [pendingAt, same]
    · have later : key ∈ more := (mem_append.mp member).resolve_left early
      have same := first.kept key early
      rw [second.released key later]
      simp only [pendingAt, same]
  kept := by
    intro key elsewhere
    rw [mem_append, not_or] at elsewhere
    exact (second.kept key elsewhere.2).trans (first.kept key elsewhere.1)

theorem releases_foldl (delegator : Address) (rows : List Delegation)
    (found : ∀ row ∈ rows, mgr.getDelegationRaw (delegator, row.validator) = some row)
    (nodup : (rows.map Delegation.validator).Nodup) :
    Releases currentBlock (rows.map fun row => (delegator, row.validator))
      (rows.map (·.maturedValue currentBlock)).sum mgr
      ((rows.map (·.remaining currentBlock)).foldl (fun mgr row =>
        mgr.settleDelegation (delegator, row.validator) row) mgr) := by
  induction rows generalizing mgr with
  | nil => exact Releases.refl
  | cons row rows ih =>
    have first := @releases_settle mgr currentBlock _ _
      (found row mem_cons_self)
    rw [map_cons, nodup_cons] at nodup
    have others : ∀ later ∈ rows,
        (delegator, later.validator) ≠ (delegator, row.validator) := by
      intro later member same
      exact nodup.1 (mem_map.mpr ⟨later, member, (Prod.mk.inj same).2⟩)
    have later := @ih (mgr.settleDelegation (delegator, row.validator)
      (row.remaining currentBlock)) (by
        intro later member
        rw [getDelegationRaw_settle (others later member)]
        exact found later (mem_cons_of_mem _ member)) nodup.2
    refine first.trans later ?_
    intro key isFirst isLater
    obtain ⟨later, member, rfl⟩ := mem_map.mp isLater
    exact others later member (mem_singleton.mp isFirst)

theorem Releases.sound (release : Releases currentBlock keys paid mgr middle) (sound : mgr.Sound)
    (delegations : after.delegations = middle.delegations)
    (validators : after.validators = middle.validators) (value : after.value = mgr.value) :
    after.Sound := by
  have rows : ∀ key, after.getDelegationRaw key = middle.getDelegationRaw key := by
    intro key
    simp only [getDelegationRaw, delegations]
  have reads : ∀ address, after.getValidator address = mgr.getValidator address := by
    intro address
    simp only [getValidator, validators, release.validators]
  constructor
  · intro key row found
    obtain ⟨before, was, delegator, validator⟩ := release.rows key row ((rows key).symm.trans found)
    rw [delegator, validator]
    exact sound.keyed key before was
  · intro key row found
    obtain ⟨before, was, _⟩ := release.rows key row ((rows key).symm.trans found)
    rw [reads]
    exact sound.registered key before was
  · intro address val found
    rw [reads] at found
    have same : after.delegatedTo address = middle.delegatedTo address := by
      simp only [delegatedTo, delegations]
    rw [same, release.sums]
    exact sound.delegated address val found
  · rw [value]
    exact sound.bounded

end Releases

def paidValue (entries : Multiset UnbondingEntry) : Int :=
  (entries.map fun entry => (entry.amount.toNat : Int)).sum

def Operation.paidTo (op : Operation) (mgr : StakingManager) (address : Address) : Int :=
  total (fun key _ => if key.1 = address then paidValue (op.paysAt mgr key) else 0) mgr.delegations

/-- Every account is credited what is paid to it, and nothing else changes in the accounts. -/
def Credits (mgr : StakingManager) (op : Operation) (after : StakingManager) : Prop :=
  ∀ address, ((after.balance address).toNat : Int) =
    (mgr.balance address).toNat + op.paidTo mgr address

section Pay

variable {mgr after : StakingManager} {currentBlock : U64} {delegator validator : Address}
variable {key : DelegationKey} {row : Delegation} {amount : U256}

theorem paidValue_matured (found : mgr.getDelegationRaw key = some row) :
    paidValue ((mgr.pendingAt key).filter fun entry => entry.matured currentBlock) =
      row.maturedValue currentBlock := by
  rw [pendingAt_of found, Multiset.filter_coe]
  simp [paidValue, Delegation.maturedValue, entriesValue]

theorem maturedValue_le (found : mgr.getDelegationRaw key = some row) :
    row.maturedValue currentBlock ≤ mgr.delegationsWorth := by
  have worth := worth_le found
  have split := @remaining_worth row currentBlock
  have rest := (row.remaining currentBlock).worth_nonneg
  omega

theorem released_toNat (fits : row.maturedValue currentBlock < 2 ^ 256) :
    ((released currentBlock row.unbonding).toNat : Int) = row.maturedValue currentBlock := by
  have sum := foldl_amounts UnbondingEntry.amount (row.unbonding.filter (·.matured currentBlock)) 0
    (by simpa [Delegation.maturedValue, entriesValue] using fits)
  unfold released
  rw [sum]
  simp [Delegation.maturedValue, entriesValue]

/-- The entries that leave their rows are the ones the operation pays. -/
structure Operation.PaysFrom (op : Operation) (mgr : StakingManager) (currentBlock : U64)
    (keys : List DelegationKey) : Prop where
  opens : ∀ key, op.opensAt key = 0
  pays : ∀ key, key ∈ keys → op.paysAt mgr key =
    (mgr.pendingAt key).filter fun entry => entry.matured currentBlock
  others : ∀ key, key ∉ keys → op.paysAt mgr key = 0

theorem Releases.keeps {keys : List DelegationKey} {paid : Int} {middle : StakingManager}
    (release : Releases currentBlock keys paid mgr middle) (sound : mgr.Sound) {op : Operation}
    (covered : op.Covered mgr) (pays : op.PaysFrom mgr currentBlock keys)
    (delegations : after.delegations = middle.delegations)
    (validators : after.validators = middle.validators) (value : after.value = mgr.value) :
    Kept mgr op after := by
  refine ⟨value, release.sound sound delegations validators value, ?_, covered⟩
  intro key
  have same : after.pendingAt key = middle.pendingAt key := by
    simp only [pendingAt, getDelegationRaw, delegations]
  rw [same, pays.opens, add_zero]
  by_cases member : key ∈ keys
  · rw [release.released key member, pays.pays key member, add_comm]
    exact Multiset.filter_add_not _ _
  · rw [pays.others key member, add_zero]
    simp only [pendingAt, release.kept key member]

theorem Releases.credit {keys : List DelegationKey} {paid : Int} {middle : StakingManager}
    (release : Releases currentBlock keys paid mgr middle) (sound : mgr.Sound) {op : Operation}
    (covered : op.Covered mgr) (pays : op.PaysFrom mgr currentBlock keys)
    (amountIs : (amount.toNat : Int) = paid)
    (fits : (mgr.balance delegator).toNat + amount.toNat < 2 ^ 256)
    (paidTo : ∀ address, op.paidTo mgr address = if address = delegator then paid else 0) :
    Kept mgr op (middle.putBalance delegator (mgr.balance delegator + amount)) ∧
      Credits mgr op (middle.putBalance delegator (mgr.balance delegator + amount)) := by
  have balances : ∀ address, middle.balance address = mgr.balance address := by
    intro address
    simp only [balance, release.accounts]
  have value : (middle.putBalance delegator (mgr.balance delegator + amount)).value = mgr.value := by
    rw [← balances delegator, value_credit, release.value]
    · omega
    · rw [balances]
      exact fits
  refine ⟨release.keeps sound covered pays rfl rfl value, ?_⟩
  intro address
  rw [balance_putBalance, paidTo address]
  by_cases same : address = delegator
  · rw [if_pos same, if_pos same, BitVec.toNat_add_of_lt fits, same]
    omega
  · rw [if_neg same, if_neg same, balances, Int.add_zero]

theorem processUnbonding_settles (sound : mgr.Sound) (delegator validator : Address)
    (currentBlock : U64) :
    Settles (processUnbonding delegator validator currentBlock) mgr fun _ after =>
      Kept mgr (.processUnbonding delegator validator currentBlock) after ∧
        Credits mgr (.processUnbonding delegator validator currentBlock) after := by
  apply settles_get
  have elsewhere : ∀ key, key ≠ (delegator, validator) →
      (Operation.processUnbonding delegator validator currentBlock).paysAt mgr key = 0 :=
    fun key different => if_neg different
  have paidAt : ∀ address,
      (Operation.processUnbonding delegator validator currentBlock).paidTo mgr address =
        weightAt (fun key _ => if key.1 = address then paidValue
          ((Operation.processUnbonding delegator validator currentBlock).paysAt mgr key) else 0)
          mgr.delegations (delegator, validator) := by
    intro address
    apply total_single
    intro key row _ different
    simp [elsewhere key different, paidValue]
  cases found : mgr.getDelegationRaw (delegator, validator) with
  | none =>
    have nothing : ∀ key,
        (Operation.processUnbonding delegator validator currentBlock).paysAt mgr key = 0 := by
      intro key
      by_cases same : key = (delegator, validator)
      · rw [same]
        simp [Operation.paysAt, pendingAt, found]
      · exact elsewhere key same
    refine settles_of_ok rfl ⟨Kept.refl sound (covered_none rfl) fun key => ⟨nothing key, rfl⟩, ?_⟩
    intro address
    rw [paidAt]
    unfold getDelegationRaw at found
    simp [weightAt, found]
  | some row =>
    have release := @releases_settle mgr currentBlock _ _ found
    have most := @maturedValue_le mgr currentBlock _ _ found
    have bounded := sound.bounded
    have parts := mgr.parts
    have cash := @balance_le mgr delegator
    have amountIs := @released_toNat currentBlock row (by omega)
    have paidTo : ∀ address,
        (Operation.processUnbonding delegator validator currentBlock).paidTo mgr address =
          if address = delegator then row.maturedValue currentBlock else 0 := by
      intro address
      have here : (Operation.processUnbonding delegator validator currentBlock).paysAt mgr
          (delegator, validator) = (mgr.pendingAt (delegator, validator)).filter
            fun entry => entry.matured currentBlock := if_pos rfl
      rw [paidAt, weightAt]
      have lookup : mgr.delegations.lookup (delegator, validator) = some row := found
      simp only [lookup, here, paidValue_matured found]
      by_cases same : address = delegator
      · rw [if_pos same, if_pos same.symm]
      · rw [if_neg same, if_neg (Ne.symm same)]
    have pays : (Operation.processUnbonding delegator validator currentBlock).PaysFrom mgr
        currentBlock [(delegator, validator)] := by
      refine ⟨fun _ => rfl, ?_, ?_⟩
      · intro key member
        rw [mem_singleton.mp member]
        exact if_pos rfl
      · intro key member
        exact elsewhere key fun same => member (same ▸ mem_singleton_self _)
    change Settles (do
      if released currentBlock row.unbonding ≠ 0 then
        creditBalance delegator (released currentBlock row.unbonding)
      modify fun mgr =>
        mgr.settleDelegation (delegator, validator) (row.remaining currentBlock)
      pure (released currentBlock row.unbonding)) mgr _
    by_cases zero : released currentBlock row.unbonding = 0
    · -- Nothing to credit: the account is not written.
      have nothing : row.maturedValue currentBlock = 0 := by
        rw [← amountIs, zero]
        rfl
      rw [if_neg (not_not.mpr zero)]
      refine settles_of_ok rfl ⟨release.keeps sound (covered_none rfl) pays rfl rfl ?_, ?_⟩
      · rw [release.value, nothing, Int.sub_zero]
      · intro address
        rw [paidTo, nothing, ite_self, Int.add_zero]
        dsimp only
        simp only [balance, release.accounts]
    · rw [if_pos zero]
      have settled := release.credit sound (covered_none rfl) pays amountIs (by omega) paidTo
      rw [← settle_putBalance] at settled
      exact settles_of_ok rfl settled

theorem foldlM_checkedAdd (entries : List UnbondingEntry) {start sum : U256}
    (added : entries.foldlM (fun sum entry => checkedAdd sum entry.amount) start = some sum) :
    (sum.toNat : Int) = start.toNat + entriesValue entries := by
  induction entries generalizing start with
  | nil =>
    cases added
    simp [entriesValue]
  | cons entry entries ih =>
    obtain ⟨next, first, rest⟩ := Option.bind_eq_some_iff.mp added
    have later := ih rest
    dsimp only [checkedAdd] at first
    split at first
    · rename_i fits
      cases first
      rw [BitVec.toNat_add_of_lt fits] at later
      simp only [entriesValue, map_cons, sum_cons] at later ⊢
      omega
    · cases first

def withMatured (currentBlock : U64) (rows : List Delegation) : List Delegation :=
  rows.filter fun row => row.unbonding.filter (·.matured currentBlock) ≠ []

theorem withMatured_skip {rows : List Delegation}
    (none : row.unbonding.filter (·.matured currentBlock) = []) :
    withMatured currentBlock (row :: rows) = withMatured currentBlock rows :=
  filter_cons_of_neg (by rw [decide_eq_true_iff]; exact not_not.mpr none)

theorem withMatured_take {rows : List Delegation}
    (some : row.unbonding.filter (·.matured currentBlock) ≠ []) :
    withMatured currentBlock (row :: rows) = row :: withMatured currentBlock rows :=
  filter_cons_of_pos (by rw [decide_eq_true_iff]; exact some)

theorem claimRows_ok (dels : List Delegation) {total sum : U256} {rows claimed : List Delegation}
    (ok : claimRows currentBlock dels total rows = .ok (sum, claimed)) :
    claimed = rows ++ (withMatured currentBlock dels).map (·.remaining currentBlock) ∧
      (sum.toNat : Int) = total.toNat +
        ((withMatured currentBlock dels).map (·.maturedValue currentBlock)).sum := by
  induction dels generalizing total rows with
  | nil =>
    cases ok
    simp [withMatured]
  | cons del dels ih =>
    unfold claimRows at ok
    dsimp only at ok
    by_cases none : del.unbonding.filter (·.matured currentBlock) = []
    · rw [if_pos none] at ok
      rw [withMatured_skip none]
      exact ih ok
    · rw [if_neg none] at ok
      cases added : (del.unbonding.filter (·.matured currentBlock)).foldlM
          (fun sum entry => checkedAdd sum entry.amount) total with
      | none =>
        rw [added] at ok
        cases ok
      | some next =>
        rw [added] at ok
        obtain ⟨rowsAre, sumIs⟩ := ih ok
        have step := foldlM_checkedAdd _ added
        rw [withMatured_take none, map_cons, map_cons, sum_cons]
        refine ⟨?_, ?_⟩
        · rw [rowsAre, append_assoc]
          rfl
        · unfold Delegation.maturedValue at sumIs ⊢
          omega

theorem mem_delegationsForDelegator (sound : mgr.Sound)
    (member : row ∈ mgr.delegationsForDelegator delegator) :
    mgr.getDelegationRaw (delegator, row.validator) = some row := by
  obtain ⟨entry, inRows, rfl⟩ := mem_map.mp member
  obtain ⟨inEntries, isDelegator⟩ := mem_filter.mp inRows
  have found := mem_entries_lookup inEntries
  have keyed := sound.keyed entry.1 entry.2 found
  have same : entry.1 = (delegator, entry.2.validator) :=
    Prod.ext (of_decide_eq_true isDelegator) keyed.2.symm
  rw [← same]
  exact found

theorem delegationsForDelegator_nodup (sound : mgr.Sound) (delegator : Address) :
    ((mgr.delegationsForDelegator delegator).map Delegation.validator).Nodup := by
  have keys : (mgr.delegationsForDelegator delegator).map (fun row => (delegator, row.validator)) =
      (mgr.delegations.entries.filter fun row => row.1.1 = delegator).map Sigma.fst := by
    unfold delegationsForDelegator
    rw [map_map]
    apply map_congr_left
    intro entry member
    obtain ⟨inEntries, isDelegator⟩ := mem_filter.mp member
    have keyed := sound.keyed entry.1 entry.2 (mem_entries_lookup inEntries)
    exact Prod.ext (of_decide_eq_true isDelegator).symm keyed.2
  have nodup : ((mgr.delegations.entries.filter fun row => row.1.1 = delegator).map
      Sigma.fst).Nodup :=
    List.Nodup.sublist (filter_sublist.map _) mgr.delegations.nodupKeys
  rw [← keys] at nodup
  have apart : ((mgr.delegationsForDelegator delegator).map Delegation.validator).map
      (fun validator => (delegator, validator)) =
      (mgr.delegationsForDelegator delegator).map (fun row => (delegator, row.validator)) := by
    rw [map_map]
    rfl
  exact List.Nodup.of_map _ (apart ▸ nodup)

theorem withMatured_sum (rows : List Delegation) :
    ((withMatured currentBlock rows).map (·.maturedValue currentBlock)).sum =
      (rows.map (·.maturedValue currentBlock)).sum := by
  induction rows with
  | nil => rfl
  | cons row rows ih =>
    by_cases none : row.unbonding.filter (·.matured currentBlock) = []
    · have zero : row.maturedValue currentBlock = 0 := by
        simp [Delegation.maturedValue, none, entriesValue]
      rw [withMatured_skip none, ih, map_cons, sum_cons, zero, Int.zero_add]
    · rw [withMatured_take none, map_cons, map_cons, sum_cons, sum_cons, ih]

theorem sum_filter {β : Type} (entries : List β) (wanted : β → Bool) (weight : β → Int) :
    ((entries.filter wanted).map weight).sum =
      (entries.map fun entry => if wanted entry then weight entry else 0).sum := by
  induction entries with
  | nil => rfl
  | cons entry entries ih =>
    cases is : wanted entry with
    | true => simp [is, ih]
    | false => simp [is, ih]

theorem delegationsForDelegator_sum :
    ((mgr.delegationsForDelegator delegator).map (·.maturedValue currentBlock)).sum =
      total (fun key row => if key.1 = delegator then row.maturedValue currentBlock else 0)
        mgr.delegations := by
  unfold delegationsForDelegator total
  rw [map_map, sum_filter]
  simp only [decide_eq_true_eq, Function.comp_def]

theorem claimUnbonded_pays (sound : mgr.Sound) :
    (Operation.claimUnbonded delegator currentBlock).PaysFrom mgr currentBlock
      ((withMatured currentBlock (mgr.delegationsForDelegator delegator)).map
        fun row => (delegator, row.validator)) := by
  refine ⟨fun _ => rfl, ?_, ?_⟩
  · intro key member
    obtain ⟨row, _, rfl⟩ := mem_map.mp member
    exact if_pos rfl
  · intro key elsewhere
    by_cases isDelegator : key.1 = delegator
    · have pays : (Operation.claimUnbonded delegator currentBlock).paysAt mgr key =
          (mgr.pendingAt key).filter fun entry => entry.matured currentBlock := if_pos isDelegator
      rw [pays]
      cases found : mgr.getDelegationRaw key with
      | none => simp [pendingAt, found]
      | some row =>
        -- A row of the delegator that is not claimed has no matured entry.
        have member : row ∈ mgr.delegationsForDelegator delegator := by
          refine mem_map.mpr ⟨⟨key, row⟩, mem_filter.mpr ⟨?_, ?_⟩, rfl⟩
          · exact AList.mem_lookup_iff.mp found
          · exact decide_eq_true isDelegator
        have keyed := sound.keyed key row found
        rw [pendingAt_of found, Multiset.filter_coe]
        by_contra some
        apply elsewhere
        refine mem_map.mpr ⟨row, mem_filter.mpr ⟨member, ?_⟩, ?_⟩
        · apply decide_eq_true
          intro none
          exact some (congrArg _ (by simpa using none))
        · exact Prod.ext isDelegator.symm keyed.2
    · exact if_neg isDelegator

theorem claimUnbonded_paidTo (address : Address) :
    (Operation.claimUnbonded delegator currentBlock).paidTo mgr address =
      if address = delegator then
        ((withMatured currentBlock (mgr.delegationsForDelegator delegator)).map
          (·.maturedValue currentBlock)).sum
      else 0 := by
  rw [withMatured_sum, delegationsForDelegator_sum]
  unfold Operation.paidTo
  by_cases same : address = delegator
  · rw [if_pos same]
    apply total_congr
    intro key row found
    by_cases isDelegator : key.1 = delegator
    · rw [same, if_pos isDelegator, if_pos isDelegator]
      have pays : (Operation.claimUnbonded delegator currentBlock).paysAt mgr key =
          (mgr.pendingAt key).filter fun entry => entry.matured currentBlock := if_pos isDelegator
      rw [pays]
      exact paidValue_matured found
    · rw [same, if_neg isDelegator, if_neg isDelegator]
  · rw [if_neg same]
    have zero : total (fun key _ => if key.1 = address then
        paidValue ((Operation.claimUnbonded delegator currentBlock).paysAt mgr key) else 0)
        mgr.delegations = total (fun _ _ => (0 : Int)) mgr.delegations := by
      apply total_congr
      intro key row _
      by_cases isAddress : key.1 = address
      · have pays : (Operation.claimUnbonded delegator currentBlock).paysAt mgr key = 0 :=
          if_neg (isAddress ▸ same)
        rw [if_pos isAddress, pays]
        rfl
      · exact if_neg isAddress
    rw [zero]
    simp [total]

theorem claimUnbonded_settles (sound : mgr.Sound) (delegator : Address) (currentBlock : U64) :
    Settles (claimUnbonded delegator currentBlock) mgr fun _ after =>
      Kept mgr (.claimUnbonded delegator currentBlock) after ∧
        Credits mgr (.claimUnbonded delegator currentBlock) after := by
  apply settles_get
  cases rowsOf : claimRows currentBlock (mgr.delegationsForDelegator delegator) 0 [] with
  | error error => exact settles_throw error
  | ok claimed =>
    obtain ⟨sum, rows⟩ := claimed
    obtain ⟨rowsAre, sumIs⟩ := claimRows_ok _ rowsOf
    dsimp only
    apply settles_guard
    intro _
    apply settles_bind_read okOr_settles
    intro balance checked
    unfold checkedAdd at checked
    split at checked
    · rename_i fits
      cases checked
      have release := @releases_foldl mgr currentBlock delegator
        (withMatured currentBlock (mgr.delegationsForDelegator delegator))
        (fun row member => mem_delegationsForDelegator sound (mem_of_mem_filter member))
        (List.Nodup.sublist (filter_sublist.map _) (delegationsForDelegator_nodup sound delegator))
      rw [nil_append] at rowsAre
      have amountIs : (sum.toNat : Int) = ((withMatured currentBlock
          (mgr.delegationsForDelegator delegator)).map (·.maturedValue currentBlock)).sum := by
        rw [sumIs]
        simp
      have settled := release.credit sound (covered_none rfl) (claimUnbonded_pays sound) amountIs
        fits claimUnbonded_paidTo
      rw [← rowsAre] at settled
      exact settles_of_ok rfl settled
    · cases checked

end Pay

end TorusHyperBft.Staking
