import TorusHyperBft.Account.Ledger

namespace TorusHyperBft.Account

open FixedPoint List
open OrderBook (Address MarketId)

/-! Two-sided fills: both parties book the same quantity at the same price. -/

structure Trade where
  buyer : Address
  seller : Address
  marketId : MarketId
  qty : Int
  price : Int
  buyerMargin : MarginType
  sellerMargin : MarginType
  buyerFirst : Bool
deriving DecidableEq

namespace Trade

def bought (trade : Trade) : Fill where
  trader := trade.buyer
  marketId := trade.marketId
  isBuy := true
  qty := trade.qty
  price := trade.price
  marginType := trade.buyerMargin

def sold (trade : Trade) : Fill where
  trader := trade.seller
  marketId := trade.marketId
  isBuy := false
  qty := trade.qty
  price := trade.price
  marginType := trade.sellerMargin

def fills (trade : Trade) : List Fill :=
  if trade.buyerFirst then [trade.bought, trade.sold] else [trade.sold, trade.bought]

/-- Something is traded at a price. -/
def Valid (trade : Trade) : Prop := 0 < trade.qty ∧ 0 < trade.price

end Trade

def credits (effects : List FillEffect) : Int :=
  (effects.map fun effect => effect.cash.getD 0).sum

namespace PositionManager

def applyFills (pm : PositionManager) : List Fill → PositionManager × List FillEffect
  | [] => (pm, [])
  | fill :: fills =>
    let (next, effect) := pm.applyFill fill
    let (final, effects) := next.applyFills fills
    (final, effect :: effects)

def applyTrades (pm : PositionManager) (trades : List Trade) :
    PositionManager × List FillEffect :=
  pm.applyFills (trades.flatMap Trade.fills)

def basis (pm : PositionManager) : Int := pm.weigh fun pos => signedCost (some pos)

section Fill

variable {pm : PositionManager} {fill : Fill}

theorem basis_eq : pm.basis = pm.shortBasis - pm.longBasis := by
  have split : pm.basis + pm.longBasis = pm.shortBasis := by
    unfold basis longBasis shortBasis weigh
    rw [← Rows.total_add]
    apply Rows.total_congr
    intro key pos _
    cases long : pos.isLong <;> simp [signedCost, long]
  omega

theorem netSize_applyFill (marketId : MarketId) : (pm.applyFill fill).1.netSize marketId =
    pm.netSize marketId + if fill.marketId = marketId then fill.signedQty else 0 := by
  have sized := @fillTransition_signedSize (pm.getPosition fill.trader fill.marketId) fill
    (pm.fundingIndex fill.marketId)
  have as_size : ∀ left : Option Position,
      left.elim 0 (fun pos => signedSize (some pos)) = signedSize left := by
    intro left
    cases left <;> rfl
  unfold netSize
  rw [weighMarket_applyFill, as_size, as_size]
  change signedSize (pm.filled fill) = _ at sized
  rw [sized]
  split <;> omega

theorem basis_applyFill : (pm.applyFill fill).1.basis + (pm.applyFill fill).2.closedPnl.getD 0 =
    pm.basis + fill.signedValue := by
  have cost := @fillTransition_signedCost (pm.getPosition fill.trader fill.marketId) fill
    (pm.fundingIndex fill.marketId)
  have as_cost : ∀ left : Option Position,
      left.elim 0 (fun pos => signedCost (some pos)) = signedCost left := by
    intro left
    cases left <;> rfl
  unfold basis
  rw [weigh_applyFill, as_cost, as_cost]
  change signedCost (pm.filled fill) + (pm.applyFill fill).2.closedPnl.getD 0 = _ at cost
  omega

theorem cash_getD : (pm.applyFill fill).2.cash.getD 0 =
    (pm.applyFill fill).2.closedPnl.getD 0 - (pm.applyFill fill).2.funding := by
  have free : (pm.applyFill fill).2.fee = 0 := rfl
  unfold FillEffect.cash
  rw [free]
  cases closed : (pm.applyFill fill).2.closedPnl with
  | some pnl => simp
  | none =>
    dsimp only
    split
    · simp
    · rename_i unpaid
      simp only [ne_eq, not_true, or_false, not_not] at unpaid
      simp [unpaid]

variable (off : pm.fundingIndex fill.marketId = none)

include off

theorem cash_applyFill :
    (pm.applyFill fill).2.cash.getD 0 = (pm.applyFill fill).2.closedPnl.getD 0 := by
  have unfunded : (pm.applyFill fill).2.funding = 0 := by
    unfold applyFill
    dsimp only
    rw [off]
    rfl
  rw [cash_getD, unfunded, Int.sub_zero]

theorem escrowShare_off : pm.escrowShare fill.trader fill.marketId = 0 := by
  unfold escrowShare
  rw [off]
  split
  · simp [Position.fundingAccrued]
  · rfl

theorem value_applyFill : (pm.applyFill fill).1.collateral + (pm.applyFill fill).1.basis =
    pm.collateral + pm.basis + fill.signedValue := by
  have moved := @collateral_applyFill pm fill
  rw [escrowShare_off off, cash_applyFill off] at moved
  have cost := @basis_applyFill pm fill
  omega

end Fill

section Fills

variable {pm : PositionManager}

theorem fundingIndex_applyFills (fills : List Fill) :
    (pm.applyFills fills).1.fundingIndex = pm.fundingIndex := by
  induction fills generalizing pm with
  | nil => rfl
  | cons fill fills ih => exact ih.trans applyFill_funding

theorem Sound.applyFills {fills : List Fill} (sound : pm.Sound)
    (valid : ∀ fill ∈ fills, 0 < fill.qty ∧ 0 < fill.price) : (pm.applyFills fills).1.Sound := by
  induction fills generalizing pm with
  | nil => exact sound
  | cons fill fills ih =>
    have first := valid fill mem_cons_self
    exact ih (sound.applyFill first.1 first.2) fun fill member =>
      valid fill (mem_cons_of_mem _ member)

theorem netSize_applyFills (fills : List Fill) (marketId : MarketId) :
    (pm.applyFills fills).1.netSize marketId = pm.netSize marketId +
      (fills.map fun fill => if fill.marketId = marketId then fill.signedQty else 0).sum := by
  induction fills generalizing pm with
  | nil => simp [applyFills]
  | cons fill fills ih =>
    have rest := @ih (pm.applyFill fill).1
    rw [netSize_applyFill] at rest
    rw [map_cons, sum_cons, ← Int.add_assoc]
    exact rest

theorem value_applyFills (fills : List Fill) (off : ∀ marketId, pm.fundingIndex marketId = none) :
    credits (pm.applyFills fills).2 + (pm.applyFills fills).1.basis =
      pm.basis + (fills.map Fill.signedValue).sum ∧
    (pm.applyFills fills).1.collateral = pm.collateral + credits (pm.applyFills fills).2 := by
  induction fills generalizing pm with
  | nil => simp [applyFills, credits]
  | cons fill fills ih =>
    have still : ∀ marketId, (pm.applyFill fill).1.fundingIndex marketId = none := by
      intro marketId
      rw [applyFill_funding]
      exact off marketId
    obtain ⟨value, cash⟩ := ih still
    have moved := @collateral_applyFill pm fill
    have cost := @basis_applyFill pm fill
    rw [escrowShare_off (off _)] at moved
    rw [← cash_applyFill (off _)] at cost
    simp only [applyFills, credits, map_cons, sum_cons] at value cash ⊢
    constructor <;> omega

end Fills

section Trades

variable {trade : Trade}

theorem fills_cancel (weight : Fill → Int) (against : weight trade.bought + weight trade.sold = 0) :
    (trade.fills.map weight).sum = 0 := by
  unfold Trade.fills
  split <;> simp <;> omega

theorem trades_cancel (weight : Fill → Int) (trades : List Trade)
    (against : ∀ trade : Trade, weight trade.bought + weight trade.sold = 0) :
    ((trades.flatMap Trade.fills).map weight).sum = 0 := by
  induction trades with
  | nil => rfl
  | cons trade trades ih =>
    rw [flatMap_cons, map_append, sum_append, ih,
      fills_cancel weight (against trade), Int.add_zero]

theorem trades_valid {trades : List Trade} (valid : ∀ trade ∈ trades, trade.Valid) :
    ∀ fill ∈ trades.flatMap Trade.fills, 0 < fill.qty ∧ 0 < fill.price := by
  intro fill member
  obtain ⟨trade, inTrades, inFills⟩ := mem_flatMap.mp member
  have same : fill = trade.bought ∨ fill = trade.sold := by
    unfold Trade.fills at inFills
    split at inFills <;> simp at inFills <;> tauto
  rcases same with rfl | rfl
  · exact valid trade inTrades
  · exact valid trade inTrades

/-- Trades keep every market's net size, and the credits less the cost of longs plus the cost
of shorts, to the raw unit; what they leave open has a size and no negative cost, and what they
close leaves no row. -/
theorem applyTrades_conserve (pm : PositionManager) (trades : List Trade)
    (off : ∀ marketId, pm.fundingIndex marketId = none) (sound : pm.Sound)
    (valid : ∀ trade ∈ trades, trade.Valid) :
    let after := (pm.applyTrades trades).1
    let credited := credits (pm.applyTrades trades).2
    (∀ marketId, after.netSize marketId = pm.netSize marketId) ∧
    credited - after.longBasis + after.shortBasis = 0 - pm.longBasis + pm.shortBasis ∧
    after.collateral = pm.collateral + credited ∧
    after.Sound ∧
    ∀ trader marketId, signedSize (after.getPosition trader marketId) = 0 →
      after.getPosition trader marketId = none := by
  intro after credited
  have remains : after.Sound := sound.applyFills (trades_valid valid)
  obtain ⟨value, cash⟩ := value_applyFills (trades.flatMap Trade.fills) off
  refine ⟨?_, ?_, cash, remains, ?_⟩
  · intro marketId
    have sized := @netSize_applyFills pm (trades.flatMap Trade.fills) marketId
    rw [trades_cancel _ trades] at sized
    · rwa [Int.add_zero] at sized
    · intro trade
      dsimp only [Trade.bought, Trade.sold, Fill.signedQty]
      split <;> simp
  · rw [trades_cancel _ trades, Int.add_zero, basis_eq, basis_eq] at value
    · change credited + (after.shortBasis - after.longBasis) = _ at value
      omega
    · intro trade
      simp [Trade.bought, Trade.sold, Fill.signedValue, Fill.notional]
  · intro trader marketId flat
    cases found : after.getPosition trader marketId with
    | none => rfl
    | some pos =>
      have sized := (remains trader marketId pos found).1
      simp only [found, signedSize] at flat
      split at flat <;> omega

/-- A short that a partly closing and then a flipping buy take over, against a fresh seller. -/
theorem applyTrades_conserve_closeAndFlip :
    let short : Position := {
      trader := 1, marketId := 7, isLong := false, size := 300000000, entryPrice := 333333333,
      costBasis := 1000000001, realizedPnl := 0, isolatedMargin := 0, marginType := .cross,
      funding := none }
    let pm : PositionManager := { positions := PositionRows.put {} short }
    let trade (qty : Int) : Trade := {
      buyer := 1, seller := 2, marketId := 7, qty, price := 350000001,
      buyerMargin := .cross, sellerMargin := .cross, buyerFirst := true }
    let after := (pm.applyTrades [trade 100000000, trade 250000000]).1
    (∀ marketId, after.netSize marketId = pm.netSize marketId) ∧ after.Sound := by
  intro short pm trade after
  have conserved := applyTrades_conserve pm [trade 100000000, trade 250000000]
    (fun _ => rfl)
    (by
      intro trader marketId pos found
      unfold getPosition PositionRows.get at found
      have only := AList.mem_lookup_iff.mp found
      have same : pos = short := by
        simpa [pm, PositionRows.put] using (congrArg (·.2) (mem_singleton.mp only) : pos = _)
      subst same
      exact ⟨by decide, by decide⟩)
    (by
      intro trade member
      simp only [mem_cons, not_mem_nil, or_false] at member
      rcases member with rfl | rfl <;> exact ⟨by decide, by decide⟩)
  exact ⟨conserved.1, conserved.2.2.2.1⟩

end Trades

end PositionManager

end TorusHyperBft.Account
