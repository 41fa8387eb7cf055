import TorusHyperBft.Oracle.Aggregate

namespace TorusHyperBft.Oracle

open FixedPoint List
open OrderBook (Address MarketId)

/-! A minority of the stake cannot move a fresh aggregate out of the interval the others report.

Whatever the outlier cut removes, the pairs that are left hold more than two thirds of the
stake.  At most one third reports outside the interval, so more than half of what is left
reports inside it, and the weighted median is one of these prices. -/

def stakeWhere (wanted : Int → Bool) (pairs : Weighed) : Int :=
  ((pairs.filter fun pair => wanted pair.1).map Prod.snd).sum

section Stake

variable {pairs others : Weighed} {wanted : Int → Bool}

/-- No stake is negative. -/
def NonnegStakes (pairs : Weighed) : Prop := ∀ pair ∈ pairs, 0 ≤ pair.2

@[simp]
theorem stakeWhere_nil : stakeWhere wanted [] = 0 := rfl

@[simp]
theorem stakeWhere_cons (pair : Int × Int) : stakeWhere wanted (pair :: pairs) =
    (if wanted pair.1 then pair.2 else 0) + stakeWhere wanted pairs := by
  unfold stakeWhere
  rw [filter_cons]
  split <;> simp

theorem stakeWhere_nonneg (nonneg : NonnegStakes pairs) : 0 ≤ stakeWhere wanted pairs := by
  apply sum_nonneg
  intro stake member
  obtain ⟨pair, inPairs, rfl⟩ := mem_map.mp member
  exact nonneg pair (mem_of_mem_filter inPairs)

theorem stakeWhere_perm (same : pairs.Perm others) :
    stakeWhere wanted pairs = stakeWhere wanted others :=
  ((same.filter _).map _).sum_eq

theorem stakeWhere_split (wanted : Int → Bool) (pairs : Weighed) :
    stakeWhere wanted pairs + stakeWhere (fun price => !wanted price) pairs =
      (pairs.map Prod.snd).sum := by
  induction pairs with
  | nil => rfl
  | cons pair pairs ih =>
    rw [stakeWhere_cons, stakeWhere_cons, map_cons, sum_cons, ← ih]
    cases wanted pair.1 <;> simp <;> omega

theorem stakeWhere_mono {more : Int → Bool} (nonneg : NonnegStakes pairs)
    (implies : ∀ price, wanted price = true → more price = true) :
    stakeWhere wanted pairs ≤ stakeWhere more pairs := by
  induction pairs with
  | nil => exact Int.le_refl 0
  | cons pair pairs ih =>
    have rest := ih fun pair member => nonneg pair (mem_cons_of_mem _ member)
    have here := nonneg pair mem_cons_self
    rw [stakeWhere_cons, stakeWhere_cons]
    by_cases is : wanted pair.1 = true
    · rw [if_pos is, if_pos (implies _ is)]
      omega
    · rw [if_neg is]
      split <;> omega

theorem stakeWhere_sublist (nonneg : NonnegStakes others) (part : pairs.Sublist others) :
    stakeWhere wanted pairs ≤ stakeWhere wanted others := by
  induction part with
  | slnil => exact Int.le_refl 0
  | cons pair part ih =>
    have rest := ih fun pair member => nonneg pair (mem_cons_of_mem _ member)
    have here := nonneg pair mem_cons_self
    rw [stakeWhere_cons]
    split <;> omega
  | cons_cons pair part ih =>
    have rest := ih fun pair member => nonneg pair (mem_cons_of_mem _ member)
    rw [stakeWhere_cons, stakeWhere_cons]
    omega

end Stake

section Walk

variable {half cumulative price lo hi : Int} {sorted : Weighed}

/-- Sorted by price. -/
def Ascending (sorted : Weighed) : Prop := sorted.Pairwise fun left right => left.1 ≤ right.1

theorem walk_mem (reached : walk half cumulative sorted = some price) :
    ∃ pair ∈ sorted, pair.1 = price := by
  induction sorted generalizing cumulative with
  | nil => cases reached
  | cons pair sorted ih =>
    unfold walk at reached
    split at reached
    · exact ⟨pair, mem_cons_self, Option.some.inj reached⟩
    · obtain ⟨other, member, same⟩ := ih reached
      exact ⟨other, mem_cons_of_mem _ member, same⟩

theorem walk_low (ascending : Ascending sorted) (nonneg : NonnegStakes sorted)
    (reached : walk half cumulative sorted = some price) (below : price < lo) :
    half ≤ cumulative + stakeWhere (fun price => price < lo) sorted := by
  induction sorted generalizing cumulative with
  | nil => cases reached
  | cons pair sorted ih =>
    have later := pairwise_cons.mp ascending
    have nonnegRest : NonnegStakes sorted := fun pair member =>
      nonneg pair (mem_cons_of_mem _ member)
    unfold walk at reached
    rw [stakeWhere_cons]
    split at reached
    · rename_i enough
      have rest := @stakeWhere_nonneg _ (fun price => decide (price < lo)) nonnegRest
      rw [Option.some.inj reached, if_pos (decide_eq_true below)]
      omega
    · have rest := ih later.2 nonnegRest reached
      have first : pair.1 < lo := by
        obtain ⟨other, member, same⟩ := walk_mem reached
        have most := later.1 other member
        omega
      rw [if_pos (decide_eq_true first)]
      omega

theorem walk_high (ascending : Ascending sorted) (nonneg : NonnegStakes sorted)
    (missing : cumulative < half) (reached : walk half cumulative sorted = some price)
    (above : hi < price) :
    cumulative + stakeWhere (fun price => price ≤ hi) sorted < half := by
  induction sorted generalizing cumulative with
  | nil => cases reached
  | cons pair sorted ih =>
    have later := pairwise_cons.mp ascending
    unfold walk at reached
    rw [stakeWhere_cons]
    split at reached
    · -- From here on every price lies above `hi`.
      have here : hi < pair.1 := by rwa [Option.some.inj reached]
      have nothing : stakeWhere (fun price => decide (price ≤ hi)) sorted = 0 := by
        unfold stakeWhere
        rw [filter_eq_nil_iff.mpr]
        · rfl
        · intro other member
          have most := later.1 other member
          simp only [decide_eq_true_eq]
          omega
      rw [if_neg (by simp only [decide_eq_true_eq]; omega), nothing]
      omega
    · rename_i short
      have rest := ih later.2 (fun pair member => nonneg pair (mem_cons_of_mem _ member))
        (Int.not_le.mp short) reached
      have stake := nonneg pair mem_cons_self
      split <;> omega

theorem walk_some (most : half ≤ cumulative + (sorted.map Prod.snd).sum) (more : sorted ≠ []) :
    ∃ price, walk half cumulative sorted = some price := by
  induction sorted generalizing cumulative with
  | nil => exact absurd rfl more
  | cons pair sorted ih =>
    unfold walk
    split
    · exact ⟨_, rfl⟩
    · rename_i short
      rw [map_cons, sum_cons] at most
      apply ih
      · omega
      · rintro rfl
        simp at most
        omega

end Walk

section Median

variable {pairs : Weighed} {lo hi : Int}

theorem half_even {total : Int} (even : total % 2 = 0) : div total (2 * scale) * 2 = total := by
  obtain ⟨half, rfl⟩ : ∃ half, total = half * 2 := ⟨total / 2, by omega⟩
  have exactly : div (half * 2) (2 * scale) = half := by
    unfold div
    rw [Int.mul_assoc]
    exact Int.mul_tdiv_cancel half (by decide)
  rw [exactly]

theorem mergeSort_ascending (pairs : Weighed) :
    Ascending (pairs.mergeSort fun left right => left.1 ≤ right.1) := by
  have trans : ∀ a b c : Int × Int, decide (a.1 ≤ b.1) = true → decide (b.1 ≤ c.1) = true →
      decide (a.1 ≤ c.1) = true := by
    intro a b c
    simp only [decide_eq_true_eq]
    exact Int.le_trans
  have total : ∀ a b : Int × Int, (decide (a.1 ≤ b.1) || decide (b.1 ≤ a.1)) = true := by
    intro a b
    simp only [Bool.or_eq_true, decide_eq_true_eq]
    exact Int.le_total a.1 b.1
  exact (pairwise_mergeSort trans total pairs).imp of_decide_eq_true

theorem weightedMedian_bounded (nonneg : NonnegStakes pairs)
    (even : (pairs.map Prod.snd).sum % 2 = 0)
    (majority : (pairs.map Prod.snd).sum <
      2 * stakeWhere (fun price => lo ≤ price ∧ price ≤ hi) pairs) :
    lo ≤ weightedMedian pairs ∧ weightedMedian pairs ≤ hi := by
  unfold weightedMedian
  split
  · simp at majority
  · rename_i price stake
    have here := nonneg (price, stake) mem_cons_self
    by_contra outside
    simp [outside] at majority
    omega
  · obtain ⟨sorted, isSorted⟩ : ∃ sorted,
        sorted = pairs.mergeSort fun left right => left.1 ≤ right.1 := ⟨_, rfl⟩
    have perm : sorted.Perm pairs := isSorted ▸ mergeSort_perm ..
    have ascending : Ascending sorted := isSorted ▸ mergeSort_ascending pairs
    have nonnegSorted : NonnegStakes sorted := fun pair member => nonneg pair (perm.mem_iff.mp member)
    have total : (sorted.map Prod.snd).sum = (pairs.map Prod.snd).sum := (perm.map _).sum_eq
    have inside := @stakeWhere_perm _ _ (fun price => decide (lo ≤ price ∧ price ≤ hi)) perm
    rw [← total] at even majority
    rw [← inside] at majority
    have split := stakeWhere_split (fun price => decide (lo ≤ price ∧ price ≤ hi)) sorted
    have outside := @stakeWhere_nonneg sorted
      (fun price => !decide (lo ≤ price ∧ price ≤ hi)) nonnegSorted
    have twice := half_even even
    obtain ⟨price, reached⟩ : ∃ price,
        walk (div (sorted.map Prod.snd).sum (2 * scale)) 0 sorted = some price := by
      apply walk_some
      · omega
      · rintro rfl
        simp at majority
    rw [← isSorted]
    dsimp only
    rw [reached, Option.getD_some]
    constructor
    · by_contra below
      have low := walk_low ascending nonnegSorted reached (Int.not_le.mp below)
      have few := @stakeWhere_mono sorted (fun price => decide (price < lo))
        (fun price => !decide (lo ≤ price ∧ price ≤ hi)) nonnegSorted (by
          intro price is
          simp only [decide_eq_true_eq, Bool.not_eq_true', decide_eq_false_iff_not] at is ⊢
          omega)
      omega
    · by_contra above
      have high := walk_high ascending nonnegSorted (by omega) reached (Int.not_le.mp above)
      have many := @stakeWhere_mono sorted (fun price => decide (lo ≤ price ∧ price ≤ hi))
        (fun price => decide (price ≤ hi)) nonnegSorted (by
          intro price is
          simp only [decide_eq_true_eq] at is ⊢
          exact is.2)
      omega

end Median

section Sums

variable {stakes : List Int}

theorem foldl_saturate_le (nonneg : ∀ stake ∈ stakes, 0 ≤ stake) {start : Int} (from0 : 0 ≤ start) :
    stakes.foldl (fun sum stake => saturate (sum + stake)) start ≤ start + stakes.sum := by
  induction stakes generalizing start with
  | nil => simp
  | cons stake stakes ih =>
    have here := nonneg stake mem_cons_self
    have bounds : 0 ≤ saturate (start + stake) ∧ saturate (start + stake) ≤ start + stake := by
      unfold saturate minRaw maxRaw
      omega
    have rest := ih (fun stake member => nonneg stake (mem_cons_of_mem _ member)) bounds.1
    rw [foldl_cons, sum_cons]
    omega

theorem foldl_saturate_eq (nonneg : ∀ stake ∈ stakes, 0 ≤ stake) {start : Int} (from0 : 0 ≤ start)
    (fits : start + stakes.sum ≤ maxRaw) :
    stakes.foldl (fun sum stake => saturate (sum + stake)) start = start + stakes.sum := by
  induction stakes generalizing start with
  | nil => simp
  | cons stake stakes ih =>
    have here := nonneg stake mem_cons_self
    have nonnegRest : ∀ stake ∈ stakes, 0 ≤ stake := fun stake member =>
      nonneg stake (mem_cons_of_mem _ member)
    have rest := sum_nonneg nonnegRest
    rw [sum_cons] at fits ⊢
    have exactly : saturate (start + stake) = start + stake := by
      unfold saturate minRaw
      omega
    rw [foldl_cons, exactly, ih nonnegRest (by omega) (by omega)]
    omega

theorem sum_even (even : ∀ stake ∈ stakes, stake % 2 = 0) : stakes.sum % 2 = 0 := by
  induction stakes with
  | nil => rfl
  | cons stake stakes ih =>
    have here := even stake mem_cons_self
    have rest := ih fun stake member => even stake (mem_cons_of_mem _ member)
    rw [sum_cons]
    omega

end Sums

namespace OracleManager

variable {oracle : OracleManager} {marketId : MarketId} {now : Nat} {lo hi : Int}
variable {stakes : List (Address × Int)} {submissions : List OracleSubmission}

def outside (lo hi price : Int) : Bool := !decide (lo ≤ price ∧ price ≤ hi)

/-- The stake of the validators with a counting submission outside the interval. -/
def outsideStake (submissions : List OracleSubmission) (stakes : List (Address × Int))
    (lo hi : Int) : Int :=
  ((stakes.filter fun entry => submissions.any fun sub =>
    sub.validator = entry.1 && outside lo hi sub.price).map Prod.snd).sum

theorem collectSubmissions_validators (oracle : OracleManager) (marketId : MarketId) (now : Nat) :
    ((oracle.collectSubmissions marketId now).map OracleSubmission.validator).Nodup := by
  obtain ⟨rows, isRows⟩ : ∃ rows, rows = (oracle.submissions.rows.entries.filter fun row =>
      row.1.1 = marketId).mergeSort fun left right => left.1.2 ≤ right.1.2 := ⟨_, rfl⟩
  have perm : rows.Perm (oracle.submissions.rows.entries.filter fun row => row.1.1 = marketId) :=
    isRows ▸ mergeSort_perm ..
  have keys : (rows.map Sigma.fst).Nodup := by
    apply (perm.map Sigma.fst).nodup_iff.mpr
    exact oracle.submissions.rows.nodupKeys.sublist filter_sublist
  have keyed : ∀ row ∈ rows, ∀ sub, row.2 = some sub → row.1 = (marketId, sub.validator) := by
    intro row member sub holds
    have inRows := mem_filter.mp (perm.mem_iff.mp member)
    have lookup := Rows.mem_entries_lookup inRows.1
    rw [holds] at lookup
    have key := oracle.submissions.keyed _ _ lookup
    have market : row.1.1 = marketId := of_decide_eq_true inRows.2
    rw [← market, ← key]
  have validators : ((rows.filterMap Sigma.snd).map OracleSubmission.validator).Nodup := by
    rw [List.Nodup, pairwise_map, pairwise_filterMap]
    rw [List.Nodup, pairwise_map] at keys
    apply keys.imp_of_mem
    intro left right inLeft inRight different first isFirst second isSecond same
    apply different
    rw [keyed left inLeft first isFirst, keyed right inRight second isSecond, same]
  unfold collectSubmissions
  rw [← isRows]
  exact validators.sublist (filter_sublist.map _)

def outsideEntry (stakes : List (Address × Int)) (lo hi : Int) (sub : OracleSubmission) :
    Option (Address × Int) :=
  if outside lo hi sub.price then stakes.find? fun entry => entry.1 = sub.validator else none

theorem outsideEntry_some {sub : OracleSubmission} {entry : Address × Int}
    (found : outsideEntry stakes lo hi sub = some entry) :
    entry.1 = sub.validator ∧ entry ∈ stakes ∧ outside lo hi sub.price = true := by
  unfold outsideEntry at found
  split at found
  · rename_i out
    have own := List.find?_some found
    exact ⟨of_decide_eq_true own, mem_of_find?_eq_some found, out⟩
  · cases found

theorem outsideEntry_sum : stakeWhere (outside lo hi) (pricedStakes submissions stakes) =
    ((submissions.filterMap (outsideEntry stakes lo hi)).map Prod.snd).sum := by
  induction submissions with
  | nil => rfl
  | cons sub submissions ih =>
    unfold pricedStakes stakeOf at ih ⊢
    rw [filterMap_cons, filterMap_cons]
    cases found : stakes.find? fun entry => entry.1 = sub.validator with
    | none => simpa [outsideEntry, found] using ih
    | some entry =>
      simp only [Option.map_some, stakeWhere_cons, outsideEntry, found]
      by_cases out : outside lo hi sub.price = true
      · simp only [out, if_true, map_cons, sum_cons, ih]
      · simp only [out, if_false, Int.zero_add, ih, Bool.false_eq_true]

theorem stakeWhere_outside (distinct : (submissions.map OracleSubmission.validator).Nodup)
    (nonneg : ∀ entry ∈ stakes, 0 ≤ entry.2) :
    stakeWhere (outside lo hi) (pricedStakes submissions stakes) ≤
      outsideStake submissions stakes lo hi := by
  have nodup : (submissions.filterMap (outsideEntry stakes lo hi)).Nodup := by
    rw [List.Nodup, pairwise_filterMap]
    rw [List.Nodup, pairwise_map] at distinct
    apply distinct.imp
    intro left right different first isFirst second isSecond same
    apply different
    rw [← (outsideEntry_some isFirst).1, ← (outsideEntry_some isSecond).1, same]
  have part : submissions.filterMap (outsideEntry stakes lo hi) ⊆
      stakes.filter fun entry => submissions.any fun sub =>
        sub.validator = entry.1 && outside lo hi sub.price := by
    intro entry member
    rw [mem_filterMap] at member
    obtain ⟨sub, inSubs, found⟩ := member
    obtain ⟨validator, inStakes, out⟩ := outsideEntry_some found
    rw [mem_filter, any_eq_true]
    exact ⟨inStakes, sub, inSubs, by simp [validator, out]⟩
  obtain ⟨arranged, perm, sub⟩ := subperm_of_subset nodup part
  rw [outsideEntry_sum, ← (perm.map Prod.snd).sum_eq]
  apply (sub.map Prod.snd).sum_le_sum
  intro stake member
  obtain ⟨entry, inFilter, rfl⟩ := mem_map.mp member
  exact nonneg entry (mem_of_mem_filter inFilter)

/-- Of a filtered quorum, most stake lies within the bounds that few are outside. -/
theorem quorum_majority {filtered : Weighed} {out : Int} (nonneg : ∀ entry ∈ stakes, 0 ≤ entry.2)
    (nonnegKept : NonnegStakes filtered) (fits : (stakes.map Prod.snd).sum ≤ maxRaw)
    (minority : 3 * out ≤ (stakes.map Prod.snd).sum)
    (few : stakeWhere (outside lo hi) filtered ≤ out)
    (quorum : hasStakeQuorum (stakeSum (filtered.map Prod.snd)) (stakeSum (stakes.map Prod.snd)) =
      true) :
    (filtered.map Prod.snd).sum <
      2 * stakeWhere (fun price => lo ≤ price ∧ price ≤ hi) filtered := by
  have total : stakeSum (stakes.map Prod.snd) = 0 + (stakes.map Prod.snd).sum := by
    apply foldl_saturate_eq
    · intro stake member
      obtain ⟨entry, inStakes, rfl⟩ := mem_map.mp member
      exact nonneg entry inStakes
    · exact Int.le_refl 0
    · rwa [Int.zero_add]
  have counted : stakeSum (filtered.map Prod.snd) ≤ 0 + (filtered.map Prod.snd).sum := by
    apply foldl_saturate_le
    · intro stake member
      obtain ⟨pair, inFiltered, rfl⟩ := mem_map.mp member
      exact nonnegKept pair inFiltered
    · exact Int.le_refl 0
  have split := stakeWhere_split (fun price => decide (lo ≤ price ∧ price ≤ hi)) filtered
  change _ + stakeWhere (outside lo hi) filtered = _ at split
  unfold hasStakeQuorum at quorum
  simp only [Bool.and_eq_true, decide_eq_true_eq] at quorum
  omega

theorem pricedStakes_mem {pair : Int × Int} (member : pair ∈ pricedStakes submissions stakes) :
    ∃ entry ∈ stakes, entry.2 = pair.2 := by
  unfold pricedStakes stakeOf at member
  rw [mem_filterMap] at member
  obtain ⟨sub, _, found⟩ := member
  simp only [Option.map_map, Option.map_eq_some_iff] at found
  obtain ⟨entry, isEntry, rfl⟩ := found
  exact ⟨entry, mem_of_find?_eq_some isEntry, rfl⟩

theorem rejectOutliers_sublist (pairs : Weighed) : (rejectOutliers pairs).Sublist pairs := by
  unfold rejectOutliers
  split
  · exact List.Sublist.refl _
  · exact filter_sublist

/-- A fresh aggregate lies in every interval that at most a third of the stake reports outside
of; without one the state is unchanged. -/
theorem aggregatePrice_bounded (oracle : OracleManager) (marketId : MarketId)
    (currentBlock now : Nat) (stakes : List (Address × Int)) (lo hi : Int)
    (whole : ∀ entry ∈ stakes, ∃ tokens : Nat, entry.2 = tokens * scale)
    (fits : (stakes.map Prod.snd).sum ≤ maxRaw)
    (minority : 3 * outsideStake (oracle.collectSubmissions marketId now) stakes lo hi ≤
      (stakes.map Prod.snd).sum) :
    let after := (oracle.aggregatePrice marketId currentBlock now stakes).1
    after = oracle ∨
    ∃ stored : StoredAggregatedPrice,
      after = { oracle with aggregates := oracle.aggregates.insert marketId stored } ∧
      lo ≤ stored.price ∧ stored.price ≤ hi := by
  intro after
  have nonneg : ∀ entry ∈ stakes, 0 ≤ entry.2 := by
    intro entry member
    obtain ⟨tokens, is⟩ := whole entry member
    rw [is]
    exact Int.mul_nonneg (Int.natCast_nonneg tokens) (by decide)
  obtain ⟨pairs, isPairs⟩ : ∃ pairs,
      pairs = pricedStakes (oracle.collectSubmissions marketId now) stakes := ⟨_, rfl⟩
  have kept := rejectOutliers_sublist pairs
  have nonnegPairs : NonnegStakes pairs := by
    intro pair member
    rw [isPairs] at member
    obtain ⟨entry, inStakes, same⟩ := pricedStakes_mem member
    exact same ▸ nonneg entry inStakes
  have even : ((rejectOutliers pairs).map Prod.snd).sum % 2 = 0 := by
    apply sum_even
    intro stake member
    obtain ⟨pair, inKept, rfl⟩ := mem_map.mp member
    have inPairs := kept.subset inKept
    rw [isPairs] at inPairs
    obtain ⟨entry, inStakes, same⟩ := pricedStakes_mem inPairs
    obtain ⟨tokens, is⟩ := whole entry inStakes
    rw [← same, is]
    unfold scale
    omega
  have few : stakeWhere (outside lo hi) (rejectOutliers pairs) ≤
      outsideStake (oracle.collectSubmissions marketId now) stakes lo hi := by
    apply Int.le_trans (stakeWhere_sublist nonnegPairs kept)
    rw [isPairs]
    exact stakeWhere_outside (oracle.collectSubmissions_validators marketId now) nonneg
  have nonnegKept : NonnegStakes (rejectOutliers pairs) := fun pair member =>
    nonnegPairs pair (kept.subset member)
  change (oracle.aggregatePrice marketId currentBlock now stakes).1 = oracle ∨ ∃ stored,
    (oracle.aggregatePrice marketId currentBlock now stakes).1 = _ ∧ _
  unfold aggregatePrice
  dsimp only
  rw [← isPairs]
  split_ifs with empty unstaked short capped
  · exact .inl rfl
  · exact .inl rfl
  · exact .inl rfl
  · exact .inl rfl
  · have majority := quorum_majority nonneg nonnegKept fits minority few (by
      simp only [Bool.or_eq_true, Bool.not_eq_true', not_or, Bool.not_eq_false] at short
      exact short.2)
    exact .inr ⟨_, rfl, weightedMedian_bounded nonnegKept even majority⟩

/-- Four validators report, the smallest of them far off. -/
theorem aggregatePrice_bounded_outlier :
    let stakes := [(1, 5 * scale), (2, 4 * scale), (3, 3 * scale), (4, 2 * scale)]
    let empty : OracleManager := {
      config := { maxAgeSecs := 60, minOracleReporters := 3, windowSecs := 5 } }
    let oracle := (((empty.submitSampled 4 7 900 9000 3 9).submitSampled 3 7 103 9000 3 9).submitSampled
      2 7 101 9000 3 9).submitSampled 1 7 100 9000 3 9
    let after := (oracle.aggregatePrice 7 4 12 stakes).1
    after = oracle ∨
    ∃ stored : StoredAggregatedPrice,
      after = { oracle with aggregates := oracle.aggregates.insert 7 stored } ∧
      100 ≤ stored.price ∧ stored.price ≤ 103 := by
  intro stakes empty oracle
  apply aggregatePrice_bounded
  · intro entry member
    simp only [stakes, mem_cons, not_mem_nil, or_false] at member
    rcases member with rfl | rfl | rfl | rfl
    · exact ⟨5, rfl⟩
    · exact ⟨4, rfl⟩
    · exact ⟨3, rfl⟩
    · exact ⟨2, rfl⟩
  · decide
  · unfold outsideStake collectSubmissions
    rw [mergeSort_of_pairwise (by decide)]
    decide

end OracleManager

end TorusHyperBft.Oracle
