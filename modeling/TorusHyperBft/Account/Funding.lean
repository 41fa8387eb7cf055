import TorusHyperBft.Account.Trade

namespace TorusHyperBft.Account

open FixedPoint PositionManager
open OrderBook (Address MarketId)

/-! Funding of one market: index steps, trades and explicit settlements.

A position's exact funding is its signed size times the index it has not settled yet, in
units of `indexScale`.  Settling rounds it up, so the cash paid and the funding still pending
never add up to less than nothing, and to less than one unit more for each settlement. -/

section Rounding

variable {a b d : Int}

theorem mulDiv_sign : (xor (decide (a < 0)) (decide (b < 0)) && decide (a.natAbs * b.natAbs ≠ 0)) =
    decide (a * b < 0) := by
  rw [← Int.natAbs_mul, Bool.eq_iff_iff]
  simp only [Bool.and_eq_true, bne_iff_ne, ne_eq, decide_eq_decide, decide_eq_true_eq,
    Int.natAbs_eq_zero, mul_eq_zero, mul_neg_iff]
  omega

theorem mulDiv_negative (negative : a * b < 0) :
    mulDiv a b d true = -((min ((a * b).natAbs / d.natAbs) maxRaw.toNat : Nat) : Int) := by
  unfold mulDiv
  dsimp only
  rw [mulDiv_sign, ← Int.natAbs_mul]
  simp [negative]

theorem mulDiv_nonneg (nonneg : 0 ≤ a * b) :
    mulDiv a b d true =
      ((min ((a * b).natAbs / d.natAbs) maxRaw.toNat +
        if (a * b).natAbs % d.natAbs ≠ 0 ∧ (a * b).natAbs / d.natAbs < maxRaw.toNat then 1 else 0 :
        Nat) : Int) := by
  unfold mulDiv
  dsimp only
  rw [mulDiv_sign, ← Int.natAbs_mul, decide_eq_false (Int.not_lt.mpr nonneg)]
  simp only [Bool.not_false, Bool.true_and, Bool.and_eq_true, decide_eq_true_eq,
    min_lt_iff, lt_self_iff_false, or_false, Bool.false_eq_true, if_false]
  split <;> simp

theorem mulDiv_up (positive : 0 < d) (lower : -((maxRaw + 1) * d) < a * b)
    (upper : a * b ≤ maxRaw * d) :
    a * b ≤ mulDiv a b d true * d ∧ mulDiv a b d true * d < a * b + d := by
  obtain ⟨divisor, rfl⟩ := Int.eq_ofNat_of_zero_le positive.le
  have divisorPos : 0 < divisor := Int.natCast_pos.mp positive
  obtain ⟨most, atMost⟩ : ∃ most : Nat, maxRaw = most := ⟨maxRaw.toNat, rfl⟩
  have division := Nat.div_add_mod (a * b).natAbs divisor
  have remainder := Nat.mod_lt (a * b).natAbs divisorPos
  have scaled : (((a * b).natAbs / divisor : Nat) : Int) * divisor =
      ((divisor * ((a * b).natAbs / divisor) : Nat) : Int) := by
    rw [Int.mul_comm]
    exact (Int.natCast_mul ..).symm
  rw [atMost] at lower upper
  by_cases negative : a * b < 0
  · have bounded : (a * b).natAbs / divisor ≤ most := by
      have wide : (((most + 1) * divisor : Nat) : Int) = ((most : Int) + 1) * divisor := by simp
      have below : (a * b).natAbs < (most + 1) * divisor := by omega
      exact Nat.le_of_lt_succ ((Nat.div_lt_iff_lt_mul divisorPos).mpr below)
    rw [mulDiv_negative negative, atMost, Int.natAbs_natCast, Int.toNat_natCast,
      min_eq_left bounded, Int.neg_mul, scaled]
    omega
  · have nonneg : 0 ≤ a * b := Int.not_lt.mp negative
    have wide : ((most * divisor : Nat) : Int) = (most : Int) * divisor := by simp
    have below : (a * b).natAbs ≤ most * divisor := by omega
    have bounded : (a * b).natAbs / divisor ≤ most := Nat.div_le_of_le_mul (by rwa [Nat.mul_comm])
    rw [mulDiv_nonneg nonneg, atMost, Int.natAbs_natCast, Int.toNat_natCast, min_eq_left bounded]
    by_cases whole : (a * b).natAbs % divisor = 0
    · rw [if_neg (fun inexact => inexact.1 whole), Nat.add_zero, scaled]
      omega
    · have strictly : (a * b).natAbs / divisor < most := by
        rw [Nat.div_lt_iff_lt_mul divisorPos]
        apply Nat.lt_of_le_of_ne below
        intro same
        rw [same, Nat.mul_mod_left] at whole
        exact whole rfl
      rw [if_pos ⟨whole, strictly⟩, Int.natCast_add, Int.add_mul, scaled]
      omega

end Rounding

variable {pos : Position}

namespace Position

def entryIndex (pos : Position) : Int := pos.funding.elim 0 PositionFunding.entryIndex

def accrual (pos : Position) (index : Int) : Int :=
  signedSize (some pos) * (index - pos.entryIndex)

/-- Neither the index difference nor the rounded amount leaves the range of an `i128`. -/
def Unsaturated (pos : Position) (index : Int) : Prop :=
  minRaw ≤ index - pos.entryIndex ∧ index - pos.entryIndex ≤ maxRaw ∧
  -((maxRaw + 1) * indexScale) < pos.accrual index ∧ pos.accrual index ≤ maxRaw * indexScale

instance (pos : Position) (index : Int) : Decidable (pos.Unsaturated index) :=
  inferInstanceAs (Decidable (_ ∧ _ ∧ _ ∧ _))

theorem fundingAccrued_bounds {index : Int} (fits : pos.Unsaturated index) :
    pos.accrual index ≤ pos.fundingAccrued (some index) * indexScale ∧
    pos.fundingAccrued (some index) * indexScale < pos.accrual index + indexScale := by
  obtain ⟨low, high, lower, upper⟩ := fits
  have exactly : saturate (index - pos.entryIndex) = index - pos.entryIndex := by
    unfold saturate
    rw [min_eq_right high, max_eq_right low]
  have signed : (if pos.isLong then pos.size else -pos.size) = signedSize (some pos) := by
    simp [signedSize]
  have rounded := mulDiv_up (by decide) lower upper
  have same : pos.fundingAccrued (some index) =
      mulDiv (signedSize (some pos)) (index - pos.entryIndex) indexScale true := by
    unfold fundingAccrued owed
    dsimp only
    rw [signed]
    exact congrArg (fun delta => mulDiv _ delta _ _) exactly
  rw [same]
  exact rounded

end Position

namespace PositionManager

/-- The exact funding of a market that is not settled yet, in units of `indexScale`. -/
def pending (pm : PositionManager) (marketId : MarketId) (index : Int) : Int :=
  pm.weighMarket marketId fun pos => pos.accrual index

/-- What the open positions of a market owe; an escrow's part is the share the vault carries. -/
def owing (pm : PositionManager) (marketId : MarketId) (index : Int) : Int :=
  pm.weighMarket marketId fun pos => pos.fundingAccrued (some index)

def openCount (pm : PositionManager) (marketId : MarketId) : Int :=
  pm.weighMarket marketId fun _ => 1

/-- No funding payment of the market saturates. -/
def Unsaturated (pm : PositionManager) (marketId : MarketId) (index : Int) : Prop :=
  ∀ row ∈ pm.positions.rows.entries, row.2.marketId = marketId → row.2.Unsaturated index

instance (pm : PositionManager) (marketId : MarketId) (index : Int) :
    Decidable (pm.Unsaturated marketId index) :=
  inferInstanceAs (Decidable (∀ row ∈ pm.positions.rows.entries, _ → _))

section Market

variable {pm : PositionManager} {marketId : MarketId} {index : Int}

theorem unsaturated_iff : pm.Unsaturated marketId index ↔
    ∀ trader pos, pm.getPosition trader marketId = some pos → pos.Unsaturated index := by
  constructor
  · intro fits trader pos found
    exact fits _ (AList.mem_lookup_iff.mp found) (getPosition_key found).2
  · intro fits row member at_market
    have found := Rows.mem_entries_lookup member
    rw [← pm.positions.keyed _ _ found, Position.key, at_market] at found
    exact fits _ _ found

theorem owing_bounds (fits : pm.Unsaturated marketId index) :
    pm.pending marketId index ≤ pm.owing marketId index * indexScale ∧
    pm.owing marketId index * indexScale ≤
      pm.pending marketId index + pm.openCount marketId * indexScale := by
  have bounds : ∀ key pos, pm.positions.rows.lookup key = some pos → pos.marketId = marketId →
      pos.Unsaturated index := by
    intro key pos found at_market
    exact fits _ (AList.mem_lookup_iff.mp found) at_market
  unfold owing pending openCount weighMarket weigh
  rw [← Rows.total_mul, ← Rows.total_mul, ← Rows.total_add]
  constructor
  · apply Rows.total_le
    intro key pos found
    dsimp only
    split
    · rename_i at_market
      exact (Position.fundingAccrued_bounds (bounds key pos found at_market)).1
    · simp
  · apply Rows.total_le
    intro key pos found
    dsimp only
    split
    · rename_i at_market
      have upper := (Position.fundingAccrued_bounds (bounds key pos found at_market)).2
      omega
    · simp

theorem pending_step (delta : Int) : pm.pending marketId (index + delta) =
    pm.pending marketId index + pm.netSize marketId * delta := by
  unfold pending netSize weighMarket weigh
  rw [← Rows.total_mul, ← Rows.total_add]
  apply Rows.total_congr
  intro key pos _
  dsimp only
  split
  · unfold Position.accrual
    ring
  · simp

end Market

section Settled

variable {existing : Option Position} {fill : Fill} {index : Int}

theorem Transition.funding_eq {result : Option Position × Option Int}
    (step : Transition fill existing result) :
    ∀ pos ∈ result.1, pos.funding = none ∨ ∃ old ∈ existing, pos.funding = old.funding := by
  cases step with
  | opens => rintro pos ⟨⟩; exact .inl rfl
  | increases old entryPrice same => rintro pos ⟨⟩; exact .inr ⟨old, rfl, rfl⟩
  | reduces old against part removed share => rintro pos ⟨⟩; exact .inr ⟨old, rfl, rfl⟩
  | closes old against whole => exact fun pos member => absurd member (by simp)
  | flips old against more openPart part => rintro pos ⟨⟩; exact .inl rfl

theorem fillTransition_entryIndex :
    ∀ pos ∈ (fillTransition existing fill (some index)).1, pos.entryIndex = index := by
  intro pos member
  simp only [fillTransition, Option.mem_def, Option.map_eq_some_iff] at member
  obtain ⟨core, found, rfl⟩ := member
  have funding := Transition.funding_eq fillTransitionCore_transition core found
  rcases funding with none | ⟨old, settled, kept⟩
  · simp [Position.fresh, Position.entryIndex, none]
  · rw [Option.mem_def, Option.map_eq_some_iff] at settled
    obtain ⟨before, _, rfl⟩ := settled
    simp [Position.fresh, Position.entryIndex, kept, Position.settled]

theorem accrual_settled (settled : pos.entryIndex = index) : pos.accrual index = 0 := by
  simp [Position.accrual, settled]

theorem fundingAccrued_settled (settled : pos.entryIndex = index) :
    pos.fundingAccrued (some index) = 0 := by
  unfold Position.entryIndex at settled
  simp [Position.fundingAccrued, owed, settled, saturate, mulDiv, minRaw, maxRaw]

theorem fundingOwed_settled (settled : pos.entryIndex = index) :
    pos.fundingOwed (some index) = 0 := by
  unfold Position.fundingOwed
  rw [fundingAccrued_settled settled, ite_self]

end Settled

/-- Advance the cumulative index of one market, in its row and in the block's table. -/
def stepIndex (pm : PositionManager) (marketId : MarketId) (delta : Int) : PositionManager :=
  let index := (pm.fundingIndex marketId).map fun index => saturate (index + delta)
  { pm with
    funding := pm.funding.map fun table other => if other = marketId then index else table other
    fundingRows := fun other => if other = marketId then index else pm.fundingRows other }

theorem fundingIndex_stepIndex {pm : PositionManager} {marketId : MarketId} {index delta : Int}
    (indexed : pm.fundingIndex marketId = some index) :
    (pm.stepIndex marketId delta).fundingIndex marketId = some (saturate (index + delta)) := by
  unfold stepIndex
  dsimp only
  rw [indexed]
  unfold fundingIndex at indexed ⊢
  cases funding : pm.funding with
  | none => simp [funding] at indexed
  | some table => simp

end PositionManager

/-- The accounts with what funding moved so far: the cash paid out of accounts, the profit
realized beside it, and the number of settlements. -/
structure FundingLedger where
  pm : PositionManager
  paid : Int := 0
  realized : Int := 0
  settlements : Nat := 0

inductive FundingOp where
  | step (delta : Int)
  | trade (trade : Trade)
  | settle (trader : Address)

namespace FundingLedger

def fill (ledger : FundingLedger) (fill : Fill) : FundingLedger :=
  let (pm, effect) := ledger.pm.applyFill fill
  { pm
    paid := ledger.paid + effect.funding + ledger.pm.escrowShare fill.trader fill.marketId
    realized := ledger.realized + effect.closedPnl.getD 0
    settlements := ledger.settlements +
      if (ledger.pm.getPosition fill.trader fill.marketId).isSome then 1 else 0 }

def settle (ledger : FundingLedger) (marketId : MarketId) (trader : Address) : FundingLedger :=
  match ledger.pm.getPosition trader marketId with
  | none => ledger
  | some pos =>
    let index := ledger.pm.fundingIndex marketId
    let (pm, _) := ledger.pm.settleFunding pos index
    { ledger with
      pm
      paid := ledger.paid + pos.fundingOwed index
      settlements := ledger.settlements + if pos.fundingOwed index = 0 then 0 else 1 }

def apply (marketId : MarketId) (ledger : FundingLedger) : FundingOp → FundingLedger
  | .step delta => { ledger with pm := ledger.pm.stepIndex marketId delta }
  | .trade trade => { trade with marketId }.fills.foldl fill ledger
  | .settle trader => ledger.settle marketId trader

def run (marketId : MarketId) (ledger : FundingLedger) (ops : List FundingOp) : FundingLedger :=
  ops.foldl (apply marketId) ledger

/-- So at the index of the ledger. -/
def Unsaturated (marketId : MarketId) (ledger : FundingLedger) : Prop :=
  ∀ index ∈ ledger.pm.fundingIndex marketId, ledger.pm.Unsaturated marketId index

/-- The step does not saturate the index. -/
def Fits (marketId : MarketId) (ledger : FundingLedger) : FundingOp → Prop
  | .step delta =>
    ∀ index ∈ ledger.pm.fundingIndex marketId, minRaw ≤ index + delta ∧ index + delta ≤ maxRaw
  | _ => True

/-- Nothing saturates in the whole run. -/
def NoSaturation (marketId : MarketId) (ledger : FundingLedger) : List FundingOp → Prop
  | [] => ledger.Unsaturated marketId
  | op :: ops =>
    ledger.Unsaturated marketId ∧ ledger.Fits marketId op ∧
      (ledger.apply marketId op).NoSaturation marketId ops

instance (marketId : MarketId) (ledger : FundingLedger) : Decidable (ledger.Unsaturated marketId) :=
  inferInstanceAs (Decidable (∀ index ∈ ledger.pm.fundingIndex marketId, _))

instance (marketId : MarketId) (ledger : FundingLedger) :
    (op : FundingOp) → Decidable (ledger.Fits marketId op)
  | .step _ => inferInstanceAs (Decidable (∀ index ∈ ledger.pm.fundingIndex marketId, _ ∧ _))
  | .trade _ => inferInstanceAs (Decidable True)
  | .settle _ => inferInstanceAs (Decidable True)

instance decidableNoSaturation (marketId : MarketId) :
    (ops : List FundingOp) → (ledger : FundingLedger) → Decidable (ledger.NoSaturation marketId ops)
  | [], ledger => inferInstanceAs (Decidable (ledger.Unsaturated marketId))
  | op :: ops, ledger =>
    have := decidableNoSaturation marketId ops (ledger.apply marketId op)
    inferInstanceAs (Decidable (ledger.Unsaturated marketId ∧ ledger.Fits marketId op ∧
      (ledger.apply marketId op).NoSaturation marketId ops))

/-- Cash paid and funding pending are balanced up to the rounding of the settlements. -/
structure Solvent (marketId : MarketId) (start : Int) (ledger : FundingLedger) (index : Int) :
    Prop where
  indexed : ledger.pm.fundingIndex marketId = some index
  lower : 0 ≤ ledger.paid * indexScale + ledger.pm.pending marketId index
  upper : ledger.paid * indexScale + ledger.pm.pending marketId index ≤
    ledger.settlements * indexScale
  cash : ledger.pm.collateral = start + ledger.realized - ledger.paid

section Fill

variable {ledger : FundingLedger} {fill : Fill} {index start : Int}

variable (indexed : ledger.pm.fundingIndex fill.marketId = some index)
include indexed

theorem fill_paid : (ledger.fill fill).paid = ledger.paid +
      (ledger.pm.getPosition fill.trader fill.marketId).elim 0 fun pos =>
        pos.fundingAccrued (some index) := by
  change ledger.paid + (fillTransition _ fill (ledger.pm.fundingIndex fill.marketId)).2.2 +
    ledger.pm.escrowShare fill.trader fill.marketId = _
  unfold PositionManager.escrowShare
  rw [indexed]
  cases found : ledger.pm.getPosition fill.trader fill.marketId with
  | none => simp [fillTransition]
  | some pos =>
    have owner := (getPosition_key found).1
    simp only [fillTransition, Option.elim_some, Position.fundingOwed, owner]
    split <;> omega

theorem fill_pending : (ledger.fill fill).pm.pending fill.marketId index =
      ledger.pm.pending fill.marketId index -
        (ledger.pm.getPosition fill.trader fill.marketId).elim 0 fun pos => pos.accrual index := by
  have settled : (ledger.pm.filled fill).elim 0 (fun pos => pos.accrual index) = 0 := by
    cases left : ledger.pm.filled fill with
    | none => rfl
    | some pos =>
      unfold PositionManager.filled at left
      rw [indexed] at left
      exact accrual_settled (fillTransition_entryIndex pos left)
  change (ledger.pm.applyFill fill).1.weighMarket _ _ = _
  rw [weighMarket_applyFill, if_pos rfl, settled]
  unfold PositionManager.pending
  omega

theorem fill_unsaturated (fits : ledger.pm.Unsaturated fill.marketId index) :
    (ledger.fill fill).pm.Unsaturated fill.marketId index := by
  rw [unsaturated_iff] at fits ⊢
  intro trader pos found
  change (ledger.pm.applyFill fill).1.getPosition trader fill.marketId = some pos at found
  rw [getPosition_applyFill] at found
  split at found
  · unfold PositionManager.filled at found
    rw [indexed] at found
    have settled := fillTransition_entryIndex pos found
    unfold Position.Unsaturated
    rw [accrual_settled settled, settled, Int.sub_self]
    decide
  · exact fits trader pos found

omit indexed

theorem Solvent.filled (solvent : Solvent fill.marketId start ledger index)
    (fits : ledger.pm.Unsaturated fill.marketId index) :
    Solvent fill.marketId start (ledger.fill fill) index := by
  have indexed := solvent.indexed
  have paid := fill_paid indexed
  have pending := fill_pending indexed
  have each := unsaturated_iff.mp fits
  have lower := solvent.lower
  have upper := solvent.upper
  have moved := @collateral_applyFill ledger.pm fill
  have cash := solvent.cash
  constructor
  · exact (congrFun applyFill_funding _).trans indexed
  · rw [paid, pending]
    cases found : ledger.pm.getPosition fill.trader fill.marketId with
    | none => simpa using lower
    | some pos =>
      have rounded := (Position.fundingAccrued_bounds (each _ pos found)).1
      simp only [Option.elim_some, Int.add_mul]
      omega
  · have counted : (ledger.fill fill).settlements = ledger.settlements +
        if (ledger.pm.getPosition fill.trader fill.marketId).isSome then 1 else 0 := rfl
    rw [paid, pending, counted]
    cases found : ledger.pm.getPosition fill.trader fill.marketId with
    | none => simpa using upper
    | some pos =>
      have rounded := (Position.fundingAccrued_bounds (each _ pos found)).2
      simp only [Option.elim_some, Option.isSome_some, if_true, Int.natCast_add, Int.add_mul]
      omega
  · change (ledger.pm.applyFill fill).1.collateral = start + (ledger.realized +
      (ledger.pm.applyFill fill).2.closedPnl.getD 0) - (ledger.paid +
      (ledger.pm.applyFill fill).2.funding + ledger.pm.escrowShare fill.trader fill.marketId)
    have split : (ledger.pm.applyFill fill).2.cash.getD 0 =
        (ledger.pm.applyFill fill).2.closedPnl.getD 0 - (ledger.pm.applyFill fill).2.funding :=
      cash_getD
    omega

end Fill

section Settle

variable {ledger : FundingLedger} {trader : Address} {marketId : MarketId} {index start : Int}
variable {pos : Position}

theorem settle_nothing (indexed : ledger.pm.fundingIndex marketId = some index)
    (found : ledger.pm.getPosition trader marketId = some pos)
    (nothing : pos.fundingOwed (some index) = 0) : ledger.settle marketId trader = ledger := by
  unfold settle
  rw [found, indexed]
  simp [PositionManager.settleFunding, nothing]

theorem settle_something (indexed : ledger.pm.fundingIndex marketId = some index)
    (found : ledger.pm.getPosition trader marketId = some pos)
    (something : pos.fundingOwed (some index) ≠ 0) :
    ledger.settle marketId trader =
      { ledger with
        pm := (ledger.pm.replacePosition trader marketId
          (some (pos.settled index))).creditRealizedPnl trader (0 - pos.fundingOwed (some index))
        paid := ledger.paid + pos.fundingOwed (some index)
        settlements := ledger.settlements + 1 } := by
  have owner := (getPosition_key found).1
  unfold settle
  rw [found, indexed]
  simp only [PositionManager.settleFunding, something, if_false]
  rw [← owner]
  rfl

theorem settled_keyed (found : ledger.pm.getPosition trader marketId = some pos) :
    ∀ left ∈ some (pos.settled index), left.key = (trader, marketId) := by
  intro left member
  rw [← Option.some.inj member, settled_key]
  exact ledger.pm.positions.keyed _ _ found

theorem pending_settled (found : ledger.pm.getPosition trader marketId = some pos) :
    (ledger.pm.replacePosition trader marketId (some (pos.settled index))).pending marketId index =
      ledger.pm.pending marketId index - pos.accrual index := by
  have at_market := (getPosition_key found).2
  have still_at_market : (pos.settled index).marketId = marketId := at_market
  have nothing : (pos.settled index).accrual index = 0 := accrual_settled rfl
  unfold PositionManager.pending PositionManager.weighMarket
  rw [weigh_replacePosition (settled_keyed found), found]
  simp only [Option.elim_some]
  rw [if_pos at_market, if_pos still_at_market, nothing, Int.add_zero]

theorem Solvent.settle (solvent : Solvent marketId start ledger index)
    (fits : ledger.pm.Unsaturated marketId index) (trader : Address) :
    Solvent marketId start (ledger.settle marketId trader) index := by
  have indexed := solvent.indexed
  cases found : ledger.pm.getPosition trader marketId with
  | none =>
    have same : ledger.settle marketId trader = ledger := by simp [FundingLedger.settle, found]
    rwa [same]
  | some pos =>
    by_cases nothing : pos.fundingOwed (some index) = 0
    · rwa [settle_nothing indexed found nothing]
    · have lower := solvent.lower
      have upper := solvent.upper
      have cash := solvent.cash
      have rounded := Position.fundingAccrued_bounds
        (unsaturated_iff.mp fits trader pos found)
      have owes : pos.fundingOwed (some index) = pos.fundingAccrued (some index) := by
        unfold Position.fundingOwed at nothing ⊢
        split
        · simp_all
        · rfl
      have replaced := @pending_settled _ _ _ index _ found
      rw [settle_something indexed found nothing, owes]
      constructor
      · exact indexed
      · change 0 ≤ _ * _ + (ledger.pm.replacePosition _ _ _).pending _ _
        rw [replaced, Int.add_mul]
        omega
      · change _ * _ + (ledger.pm.replacePosition _ _ _).pending _ _ ≤ _
        rw [replaced, Int.add_mul, Int.natCast_add, Int.add_mul]
        omega
      · rw [collateral_creditRealizedPnl,
          collateral_replacePosition, cash]
        dsimp only
        omega

theorem netSize_settle {other : MarketId}
    (indexed : ledger.pm.fundingIndex marketId = some index) :
    (ledger.settle marketId trader).pm.netSize other = ledger.pm.netSize other := by
  cases found : ledger.pm.getPosition trader marketId with
  | none => simp [settle, found]
  | some pos =>
    by_cases nothing : pos.fundingOwed (some index) = 0
    · rw [settle_nothing indexed found nothing]
    · rw [settle_something indexed found nothing]
      have weighed := @weigh_replacePosition ledger.pm
        (fun pos => if pos.marketId = other then signedSize (some pos) else 0) _ _ _
        (@settled_keyed _ _ _ index _ found)
      rw [found] at weighed
      refine weighed.trans ?_
      exact Int.sub_add_cancel ..

theorem settle_settle (indexed : ledger.pm.fundingIndex marketId = some index) :
    (ledger.settle marketId trader).settle marketId trader = ledger.settle marketId trader := by
  cases found : ledger.pm.getPosition trader marketId with
  | none => simp [settle, found]
  | some pos =>
    by_cases nothing : pos.fundingOwed (some index) = 0
    · rw [settle_nothing indexed found nothing, settle_nothing indexed found nothing]
    · rw [settle_something indexed found nothing]
      apply @settle_nothing _ _ _ index (pos.settled index)
      · exact indexed
      · exact (getPosition_replacePosition (settled_keyed found)).trans
          (if_pos rfl)
      · exact fundingOwed_settled rfl

theorem settle_fill {fill : Fill} (indexed : ledger.pm.fundingIndex fill.marketId = some index) :
    (ledger.fill fill).settle fill.marketId fill.trader = ledger.fill fill := by
  have filled : (ledger.fill fill).pm.getPosition fill.trader fill.marketId =
      ledger.pm.filled fill := getPosition_applyFill.trans (if_pos rfl)
  have still : (ledger.fill fill).pm.fundingIndex fill.marketId = some index :=
    (congrFun applyFill_funding _).trans indexed
  cases left : ledger.pm.filled fill with
  | none => simp [settle, filled, left]
  | some pos =>
    rw [left] at filled
    apply settle_nothing still filled
    unfold PositionManager.filled at left
    rw [indexed] at left
    exact fundingOwed_settled
      (fillTransition_entryIndex pos left)

end Settle

section Run

variable {ledger : FundingLedger} {marketId : MarketId} {index start : Int}

/-- Between operations the market is also balanced, so that an index step charges nothing in
total. -/
structure Inv (marketId : MarketId) (start : Int) (ledger : FundingLedger) (index : Int) :
    Prop extends Solvent marketId start ledger index where
  balanced : ledger.pm.netSize marketId = 0

theorem Inv.step (inv : Inv marketId start ledger index) {delta : Int}
    (fits : ledger.Fits marketId (.step delta)) :
    Inv marketId start (ledger.apply marketId (.step delta)) (index + delta) := by
  obtain ⟨low, high⟩ := fits index inv.indexed
  have stepped := @pending_step ledger.pm marketId index delta
  rw [inv.balanced, Int.zero_mul, Int.add_zero] at stepped
  have same : (ledger.apply marketId (.step delta)).pm.pending marketId (index + delta) =
      ledger.pm.pending marketId index := stepped
  refine ⟨⟨?_, ?_, ?_, inv.cash⟩, inv.balanced⟩
  · refine (fundingIndex_stepIndex inv.indexed).trans ?_
    unfold saturate
    rw [min_eq_right high, max_eq_right low]
  · rw [same]
    exact inv.lower
  · rw [same]
    exact inv.upper

theorem netSize_fills (fills : List Fill) (ledger : FundingLedger) (marketId : MarketId) :
    (fills.foldl fill ledger).pm.netSize marketId = ledger.pm.netSize marketId +
      (fills.map fun fill => if fill.marketId = marketId then fill.signedQty else 0).sum := by
  induction fills generalizing ledger with
  | nil => simp
  | cons first fills ih =>
    have moved := @netSize_applyFill ledger.pm first marketId
    rw [List.foldl_cons, ih, List.map_cons, List.sum_cons, ← Int.add_assoc, ← moved]
    rfl

theorem Solvent.fills {fills : List Fill} (solvent : Solvent marketId start ledger index)
    (fits : ledger.pm.Unsaturated marketId index)
    (market : ∀ fill ∈ fills, fill.marketId = marketId) :
    Solvent marketId start (fills.foldl fill ledger) index := by
  induction fills generalizing ledger with
  | nil => exact solvent
  | cons first fills ih =>
    have here := market first List.mem_cons_self
    subst here
    exact ih (solvent.filled fits) (fill_unsaturated solvent.indexed fits) fun fill member =>
      market fill (List.mem_cons_of_mem _ member)

theorem fills_market {trade : Trade} : ∀ fill ∈ trade.fills, fill.marketId = trade.marketId := by
  intro fill member
  unfold Trade.fills at member
  split at member <;> simp only [List.mem_cons, List.not_mem_nil, or_false] at member <;>
    rcases member with rfl | rfl <;> rfl

theorem Inv.apply {op : FundingOp} (inv : Inv marketId start ledger index)
    (unsaturated : ledger.Unsaturated marketId) (fits : ledger.Fits marketId op) :
    ∃ next, Inv marketId start (ledger.apply marketId op) next := by
  have here := unsaturated index inv.indexed
  cases op with
  | step delta => exact ⟨_, inv.step fits⟩
  | settle trader =>
    refine ⟨index, inv.toSolvent.settle here trader, ?_⟩
    exact (netSize_settle inv.indexed).trans inv.balanced
  | trade trade =>
    refine ⟨index, inv.toSolvent.fills here fills_market, ?_⟩
    change (List.foldl fill ledger _).pm.netSize marketId = 0
    rw [netSize_fills, inv.balanced, Int.zero_add]
    apply fills_cancel
    simp [Trade.bought, Trade.sold, Fill.signedQty]

/-- A run without saturation keeps the invariant, at some later index. -/
theorem Inv.run {ops : List FundingOp} (inv : Inv marketId start ledger index)
    (unsaturated : ledger.NoSaturation marketId ops) :
    ∃ now, Inv marketId start (ledger.run marketId ops) now ∧
      (ledger.run marketId ops).pm.Unsaturated marketId now := by
  induction ops generalizing ledger index with
  | nil => exact ⟨index, inv, unsaturated index inv.indexed⟩
  | cons op ops ih =>
    obtain ⟨here, fits, later⟩ := unsaturated
    obtain ⟨next, invNext⟩ := inv.apply here fits
    exact ih invNext later

/-- Cash paid and funding owed never add up to less than nothing, and exceed it by at most one
raw unit for each settlement and each open position; an index interval is charged once. -/
theorem run_neverMints (marketId : MarketId) (pm : PositionManager) (index : Int)
    (ops : List FundingOp) (on : pm.fundingIndex marketId = some index)
    (balanced : pm.netSize marketId = 0) (unsettled : pm.pending marketId index = 0)
    (unsaturated : NoSaturation marketId { pm } ops) :
    let ledger := run marketId { pm } ops
    ∃ now, ledger.pm.fundingIndex marketId = some now ∧
      0 ≤ ledger.paid + ledger.pm.owing marketId now ∧
      ledger.paid + ledger.pm.owing marketId now ≤
        ledger.settlements + ledger.pm.openCount marketId ∧
      ledger.pm.collateral = pm.collateral + ledger.realized - ledger.paid ∧
      (∀ trader, (ledger.settle marketId trader).settle marketId trader =
        ledger.settle marketId trader) ∧
      ∀ fill : Fill, fill.marketId = marketId →
        (ledger.fill fill).settle marketId fill.trader = ledger.fill fill := by
  intro ledger
  have start : Inv marketId pm.collateral { pm } index := by
    refine ⟨⟨on, ?_, ?_, ?_⟩, balanced⟩ <;> simp [unsettled]
  obtain ⟨now, inv, fits⟩ : ∃ now, Inv marketId pm.collateral ledger now ∧
      ledger.pm.Unsaturated marketId now := start.run unsaturated
  obtain ⟨atLeast, atMost⟩ := owing_bounds fits
  have lower := inv.lower
  have upper := inv.upper
  have scale : 0 < indexScale := by decide
  refine ⟨now, inv.indexed, ?_, ?_, inv.cash, fun trader => settle_settle inv.indexed, ?_⟩
  · have scaled : 0 ≤ (ledger.paid + ledger.pm.owing marketId now) * indexScale := by
      rw [Int.add_mul]
      omega
    exact nonneg_of_mul_nonneg_left scaled scale
  · have scaled : (ledger.paid + ledger.pm.owing marketId now) * indexScale ≤
        (ledger.settlements + ledger.pm.openCount marketId) * indexScale := by
      rw [Int.add_mul, Int.add_mul]
      omega
    exact Int.le_of_mul_le_mul_right scaled scale
  · rintro fill rfl
    exact settle_fill inv.indexed

/-- Two traders trade, an index step and a settlement follow, and the long sells half. -/
theorem run_neverMints_tradeAndSettle :
    let trade (buyer seller : Address) (qty : Int) : Trade := {
      buyer, seller, marketId := 7, qty, price := 100000000,
      buyerMargin := .cross, sellerMargin := .cross, buyerFirst := true }
    let ops : List FundingOp :=
      [.trade (trade 1 2 100000001), .step 3, .settle 2, .step 1000000000000000007,
        .trade (trade 2 1 50000000), .settle 1]
    let pm : PositionManager := { funding := some fun _ => some 0 }
    let ledger := run 7 { pm } ops
    ∃ now, ledger.pm.fundingIndex 7 = some now ∧ 0 ≤ ledger.paid + ledger.pm.owing 7 now := by
  intro trade ops pm ledger
  obtain ⟨now, indexed, solvent, _⟩ :=
    run_neverMints 7 pm 0 ops rfl rfl rfl (by decide +kernel)
  exact ⟨now, indexed, solvent⟩

/-- An escrow's position owes nothing itself, and positions that start with funding of earlier
intervals pending do not balance: in both cases the receivers are owed more. -/
theorem run_mints_escrowAndPending :
    (let pm : PositionManager := { funding := some fun _ => some 0 }
     let trade : Trade := {
       buyer := adlEscrowLong, seller := 2, marketId := 7, qty := 100000000, price := 100000000,
       buyerMargin := .cross, sellerMargin := .cross, buyerFirst := true }
     let ops := [.trade trade, .step 1000000000000000000]
     let ledger := run 7 { pm } ops
     pm.netSize 7 = 0 ∧ NoSaturation 7 { pm } ops ∧
     ledger.pm.fundingIndex 7 = some 1000000000000000000 ∧
     ledger.paid + ledger.pm.weighMarket 7
      (fun pos => pos.fundingOwed (some 1000000000000000000)) < 0) ∧
    (let opened (trader : Address) (isLong : Bool) (entryIndex : Int) : Position := {
       trader, marketId := 7, isLong, size := 100000000, entryPrice := 100000000,
       costBasis := 100000000, realizedPnl := 0, isolatedMargin := 0, marginType := .cross,
       funding := some { entryIndex, paid := 0 } }
     let pm : PositionManager := {
       positions := (PositionRows.put {} (opened 1 true 1000000000000000000)).put (opened 2 false 0)
       funding := some fun _ => some 1000000000000000000 }
     pm.netSize 7 = 0 ∧ NoSaturation 7 { pm } [] ∧
     (run 7 { pm } []).paid + pm.weighMarket 7
      (fun pos => pos.fundingOwed (some 1000000000000000000)) < 0) := by
  decide +kernel

end Run

end FundingLedger

end TorusHyperBft.Account
