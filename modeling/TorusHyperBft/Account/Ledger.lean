import TorusHyperBft.Account.Fill

namespace TorusHyperBft.Account

open FixedPoint
open OrderBook (Address MarketId)

/-! The ledger of all positions and balances, and what one fill does to it.

A buy moves the cash of its trader, less the cost of longs, plus the cost of shorts, down by
the fill's notional whatever the position was before; a sell moves it up by as much. -/

/-- An open position has a size, and its cost is not negative. -/
def Position.Sound (pos : Position) : Prop := 0 < pos.size ∧ 0 ≤ pos.costBasis

namespace Fill

def signedQty (fill : Fill) : Int := if fill.isBuy then fill.qty else -fill.qty

def signedValue (fill : Fill) : Int := if fill.isBuy then -fill.notional else fill.notional

def key (fill : Fill) : PositionKey := (fill.trader, fill.marketId)

end Fill

/-- The cost basis as the ledger counts it: paid by a long, received by a short. -/
def signedCost : Option Position → Int
  | some pos => if pos.isLong then -pos.costBasis else pos.costBasis
  | none => 0

section Core

variable {existing : Option Position} {fill : Fill}

theorem mul_nonneg {left right : Int} (leftPos : 0 < left) (rightPos : 0 < right) :
    0 ≤ mul left right :=
  Int.tdiv_nonneg (Int.mul_nonneg leftPos.le rightPos.le) (by decide)

theorem proRata_le {basis q size : Int} (nonneg : 0 ≤ basis) (part : q < size) (sized : 0 < size) :
    proRata basis q size ≤ basis := by
  have bound : basis * q ≤ basis * size := Int.mul_le_mul_of_nonneg_left part.le nonneg
  have divided := Int.tdiv_le_tdiv sized bound
  rwa [Int.mul_tdiv_cancel _ (Int.ne_of_gt sized)] at divided

/-- What a fill does to a position: opens, adds, reduces, closes, flips. -/
inductive Transition (fill : Fill) : Option Position → Option Position × Option Int → Prop
  | opens : Transition fill none (some (fill.opened fill.qty fill.notional), none)
  | increases (pos : Position) (entryPrice : Int) (same : fill.isBuy = pos.isLong) :
      Transition fill (some pos)
        (some { pos with
          size := pos.size + fill.qty, costBasis := pos.costBasis + fill.notional, entryPrice }, none)
  | reduces (pos : Position) (against : fill.isBuy = !pos.isLong) (part : fill.qty < pos.size)
      (removed : Int) (share : removed = proRata pos.costBasis fill.qty pos.size) :
      Transition fill (some pos)
        (some { pos with
          costBasis := pos.costBasis - removed
          realizedPnl := pos.realizedPnl + closePnl pos.isLong fill.notional removed
          size := pos.size - fill.qty },
        some (closePnl pos.isLong fill.notional removed))
  | closes (pos : Position) (against : fill.isBuy = !pos.isLong) (whole : fill.qty = pos.size) :
      Transition fill (some pos) (none, some (closePnl pos.isLong fill.notional pos.costBasis))
  | flips (pos : Position) (against : fill.isBuy = !pos.isLong) (more : pos.size < fill.qty)
      (openPart : Int) (part : openPart = mul fill.price (fill.qty - pos.size)) :
      Transition fill (some pos)
        (some (fill.opened (fill.qty - pos.size) openPart),
          some (closePnl pos.isLong (fill.notional - openPart) pos.costBasis))

theorem fillTransitionCore_transition :
    Transition fill existing (fillTransitionCore existing fill) := by
  cases existing with
  | none => exact .opens
  | some pos =>
    unfold fillTransitionCore
    dsimp only
    by_cases same : fill.isBuy = pos.isLong
    · have direction : ((fill.isBuy && pos.isLong) || (!fill.isBuy && !pos.isLong)) = true := by
        rw [same]
        cases pos.isLong <;> rfl
      rw [if_pos direction]
      exact .increases pos _ same
    · have against : fill.isBuy = !pos.isLong := Bool.eq_not.mpr same
      have direction : ¬ ((fill.isBuy && pos.isLong) || (!fill.isBuy && !pos.isLong)) = true := by
        rw [against]
        cases pos.isLong <;> decide
      rw [if_neg direction]
      split
      · rename_i part
        exact .reduces pos against part _ rfl
      · split
        · rename_i whole
          exact .closes pos against whole
        · exact .flips pos against (by omega) _ rfl

namespace Transition

variable {result : Option Position × Option Int}

variable (step : Transition fill existing result)
include step

theorem signedSize_eq : signedSize result.1 = signedSize existing + fill.signedQty := by
  cases step with
  | opens => cases buy : fill.isBuy <;> simp [signedSize, Fill.opened, Fill.signedQty, buy]
  | increases pos entryPrice same =>
    cases long : pos.isLong
    · simp [signedSize, Fill.signedQty, same, long]
      omega
    · simp [signedSize, Fill.signedQty, same, long]
  | reduces pos against part removed share =>
    cases long : pos.isLong <;> simp [signedSize, Fill.signedQty, against, long] <;> omega
  | closes pos against whole =>
    cases long : pos.isLong <;> simp [signedSize, Fill.signedQty, against, long, whole]
  | flips pos against more openPart part =>
    cases long : pos.isLong <;>
      simp [signedSize, Fill.opened, Fill.signedQty, against, long] <;> omega

theorem signedCost_eq :
    signedCost result.1 + result.2.getD 0 = signedCost existing + fill.signedValue := by
  cases step with
  | opens => cases buy : fill.isBuy <;> simp [signedCost, Fill.opened, Fill.signedValue, buy]
  | increases pos entryPrice same =>
    cases long : pos.isLong
    · simp [signedCost, Fill.signedValue, same, long]
    · simp [signedCost, Fill.signedValue, same, long]
      omega
  | reduces pos against part removed share =>
    cases long : pos.isLong <;>
      simp [signedCost, closePnl, Fill.signedValue, against, long] <;> omega
  | closes pos against whole =>
    cases long : pos.isLong <;>
      simp [signedCost, closePnl, Fill.signedValue, against, long] <;> omega
  | flips pos against more openPart part =>
    cases long : pos.isLong <;>
      simp [signedCost, closePnl, Fill.opened, Fill.signedValue, against, long] <;> omega

theorem sound (qty : 0 < fill.qty) (price : 0 < fill.price) (before : ∀ pos ∈ existing, pos.Sound) :
    ∀ pos ∈ result.1, pos.Sound := by
  have value : 0 ≤ fill.notional := mul_nonneg price qty
  cases step with
  | opens =>
    rintro pos ⟨⟩
    exact ⟨qty, value⟩
  | increases old entryPrice same =>
    obtain ⟨sized, basis⟩ := before old rfl
    rintro pos ⟨⟩
    exact ⟨Int.add_pos sized qty, Int.add_nonneg basis value⟩
  | reduces old against part removed share =>
    obtain ⟨sized, basis⟩ := before old rfl
    rintro pos ⟨⟩
    have most := proRata_le basis part sized
    rw [← share] at most
    exact ⟨Int.sub_pos_of_lt part, Int.sub_nonneg_of_le most⟩
  | closes old against whole => exact fun pos member => absurd member (by simp)
  | flips old against more openPart part =>
    rintro pos ⟨⟩
    have remainder : 0 < fill.qty - old.size := Int.sub_pos_of_lt more
    exact ⟨remainder, part ▸ mul_nonneg price remainder⟩

theorem key_eq
    (keyed : ∀ pos ∈ existing, pos.key = fill.key) : ∀ pos ∈ result.1, pos.key = fill.key := by
  cases step with
  | opens => rintro pos ⟨⟩; rfl
  | increases old entryPrice same => rintro pos ⟨⟩; exact keyed old rfl
  | reduces old against part removed share => rintro pos ⟨⟩; exact keyed old rfl
  | closes old against whole => exact fun pos member => absurd member (by simp)
  | flips old against more openPart part => rintro pos ⟨⟩; rfl

end Transition

/-! Settling funding changes neither the size nor the cost nor the key of a position. -/

section Funded

variable {index : Int}

@[simp]
theorem signedSize_settled :
    signedSize (existing.map fun pos => pos.settled index) = signedSize existing := by
  cases existing <;> rfl

@[simp]
theorem signedSize_fresh :
    signedSize (existing.map fun pos => pos.fresh index) = signedSize existing := by
  cases existing with
  | none => rfl
  | some pos =>
    simp only [Option.map_some, Position.fresh]
    split <;> rfl

@[simp]
theorem signedCost_settled :
    signedCost (existing.map fun pos => pos.settled index) = signedCost existing := by
  cases existing <;> rfl

@[simp]
theorem signedCost_fresh :
    signedCost (existing.map fun pos => pos.fresh index) = signedCost existing := by
  cases existing with
  | none => rfl
  | some pos =>
    simp only [Option.map_some, Position.fresh]
    split <;> rfl

@[simp]
theorem settled_key (pos : Position) : (pos.settled index).key = pos.key := rfl

@[simp]
theorem fresh_key (pos : Position) : (pos.fresh index).key = pos.key := by
  unfold Position.fresh
  split <;> rfl

@[simp]
theorem settled_sound (pos : Position) : (pos.settled index).Sound ↔ pos.Sound := Iff.rfl

@[simp]
theorem fresh_sound (pos : Position) : (pos.fresh index).Sound ↔ pos.Sound := by
  unfold Position.fresh
  split <;> rfl

end Funded

theorem fillTransition_signedSize (index : Option Int) :
    signedSize (fillTransition existing fill index).1 = signedSize existing + fill.signedQty := by
  cases index with
  | none => exact fillTransitionCore_transition.signedSize_eq
  | some index =>
    have core := (@fillTransitionCore_transition (existing.map fun pos => pos.settled index)
      fill).signedSize_eq
    simpa [fillTransition] using core

theorem fillTransition_signedCost (index : Option Int) :
    signedCost (fillTransition existing fill index).1 +
        (fillTransition existing fill index).2.1.getD 0 =
      signedCost existing + fill.signedValue := by
  cases index with
  | none => exact fillTransitionCore_transition.signedCost_eq
  | some index =>
    have core := (@fillTransitionCore_transition (existing.map fun pos => pos.settled index)
      fill).signedCost_eq
    simpa [fillTransition] using core

/-- A fill of positive size and price leaves a sound position, or none. -/
theorem fillTransition_sound (index : Option Int) (qty : 0 < fill.qty) (price : 0 < fill.price)
    (before : ∀ pos ∈ existing, pos.Sound) :
    ∀ pos ∈ (fillTransition existing fill index).1, pos.Sound := by
  cases index with
  | none => exact fillTransitionCore_transition.sound qty price before
  | some index =>
    have core := (@fillTransitionCore_transition (existing.map fun pos => pos.settled index)
      fill).sound qty price (by simpa using before)
    simpa [fillTransition] using core

theorem fillTransition_key (index : Option Int) (keyed : ∀ pos ∈ existing, pos.key = fill.key) :
    ∀ pos ∈ (fillTransition existing fill index).1, pos.key = fill.key := by
  cases index with
  | none => exact fillTransitionCore_transition.key_eq keyed
  | some index =>
    have core := (@fillTransitionCore_transition (existing.map fun pos => pos.settled index)
      fill).key_eq (by simpa using keyed)
    simpa [fillTransition] using core

end Core

namespace PositionManager

def weigh (weight : Position → Int) (pm : PositionManager) : Int :=
  Rows.total (fun _ pos => weight pos) pm.positions.rows

def weighMarket (pm : PositionManager) (marketId : MarketId) (weight : Position → Int) : Int :=
  pm.weigh fun pos => if pos.marketId = marketId then weight pos else 0

def netSize (pm : PositionManager) (marketId : MarketId) : Int :=
  pm.weighMarket marketId fun pos => signedSize (some pos)

def longBasis (pm : PositionManager) : Int :=
  pm.weigh fun pos => if pos.isLong then pos.costBasis else 0

def shortBasis (pm : PositionManager) : Int :=
  pm.weigh fun pos => if pos.isLong then 0 else pos.costBasis

def collateral (pm : PositionManager) : Int :=
  Rows.total (fun _ balance => balance.available + balance.orderMargin) pm.balances

/-- Every stored position is sound. -/
def Sound (pm : PositionManager) : Prop :=
  ∀ trader marketId pos, pm.getPosition trader marketId = some pos → pos.Sound

section Write

variable {pm : PositionManager} {weight : Position → Int} {trader : Address} {marketId : MarketId}
variable {left : Option Position}

theorem weigh_replacePosition (keyed : ∀ pos ∈ left, pos.key = (trader, marketId)) :
    (pm.replacePosition trader marketId left).weigh weight =
      pm.weigh weight - (pm.getPosition trader marketId).elim 0 weight + left.elim 0 weight := by
  have before : Rows.weightAt (fun _ pos => weight pos) pm.positions.rows (trader, marketId) =
      (pm.getPosition trader marketId).elim 0 weight := by
    unfold Rows.weightAt getPosition PositionRows.get
    cases pm.positions.rows.lookup (trader, marketId) <;> rfl
  rw [← before]
  cases left with
  | some pos =>
    have key := keyed pos rfl
    unfold weigh replacePosition putPosition PositionRows.put
    dsimp only
    rw [Rows.total_insert, key]
    rfl
  | none =>
    have erased := @Rows.total_erase _ _ _ _ _ (fun _ pos => weight pos) pm.positions.rows
      (trader, marketId)
    unfold weigh replacePosition deletePosition PositionRows.delete
    dsimp only
    rw [erased]
    simp

@[simp]
theorem collateral_replacePosition :
    (pm.replacePosition trader marketId left).collateral = pm.collateral := by
  cases left <;> rfl

theorem collateral_putNativeBalance (balance : NativeBalance) :
    (pm.putNativeBalance trader balance).collateral =
      pm.collateral
        - ((pm.getNativeBalance trader).available + (pm.getNativeBalance trader).orderMargin)
        + (balance.available + balance.orderMargin) := by
  unfold collateral putNativeBalance
  dsimp only
  rw [Rows.total_insert]
  unfold Rows.weightAt getNativeBalance
  cases pm.balances.lookup trader <;> rfl

theorem collateral_creditRealizedPnl (pnl : Int) :
    (pm.creditRealizedPnl trader pnl).collateral = pm.collateral + pnl := by
  unfold creditRealizedPnl
  rw [collateral_putNativeBalance]
  dsimp only
  omega

theorem getPosition_replacePosition {other : Address} {market : MarketId}
    (keyed : ∀ pos ∈ left, pos.key = (trader, marketId)) :
    (pm.replacePosition trader marketId left).getPosition other market =
      if (other, market) = (trader, marketId) then left else pm.getPosition other market := by
  cases left with
  | some pos =>
    unfold replacePosition
    rw [getPosition_putPosition, keyed pos rfl]
  | none => exact getPosition_deletePosition

end Write

section ApplyFill

variable {pm : PositionManager} {fill : Fill}

def filled (pm : PositionManager) (fill : Fill) : Option Position :=
  (fillTransition (pm.getPosition fill.trader fill.marketId) fill
    (pm.fundingIndex fill.marketId)).1

theorem filled_key (pm : PositionManager) (fill : Fill) :
    ∀ pos ∈ pm.filled fill, pos.key = (fill.trader, fill.marketId) := by
  apply fillTransition_key
  intro pos member
  exact pm.positions.keyed _ _ member

theorem filled_against {pos : Position}
    (found : pm.getPosition fill.trader fill.marketId = some pos)
    (against : fill.isBuy = !pos.isLong) (most : fill.qty ≤ pos.size) :
    (pm.filled fill = none ∧ fill.qty = pos.size) ∨
    ∃ left, pm.filled fill = some left ∧ left.isLong = pos.isLong ∧
      left.size = pos.size - fill.qty ∧ fill.qty < pos.size := by
  have core : ∀ held : Position, held.isLong = pos.isLong → held.size = pos.size →
      ((fillTransitionCore (some held) fill).1 = none ∧ fill.qty = pos.size) ∨
      ∃ left, (fillTransitionCore (some held) fill).1 = some left ∧ left.isLong = pos.isLong ∧
        left.size = pos.size - fill.qty ∧ fill.qty < pos.size := by
    intro held side size
    have step := @fillTransitionCore_transition (some held) fill
    generalize fillTransitionCore (some held) fill = result at step
    cases step with
    | increases _ entryPrice direction =>
      rw [against, side] at direction
      cases long : pos.isLong <;> simp [long] at direction
    | reduces _ _ part removed share =>
      exact .inr ⟨_, rfl, side, by rw [← size], by rw [← size]; exact part⟩
    | closes _ _ whole => exact .inl ⟨rfl, by rw [whole, size]⟩
    | flips _ _ more openPart part => omega
  unfold filled
  rw [found]
  cases pm.fundingIndex fill.marketId with
  | none => exact core pos rfl rfl
  | some index =>
    simp only [fillTransition, Option.map_some]
    rcases core (pos.settled index) rfl rfl with ⟨gone, whole⟩ | ⟨left, is, side, size, part⟩
    · exact .inl ⟨by rw [gone]; rfl, whole⟩
    · refine .inr ⟨left.fresh index, by rw [is]; rfl, ?_, ?_, part⟩
      · rw [← side, Position.fresh]
        split <;> rfl
      · rw [← size, Position.fresh]
        split <;> rfl

theorem applyFill_positions :
    (pm.applyFill fill).1.positions =
      (pm.replacePosition fill.trader fill.marketId (pm.filled fill)).positions := by
  unfold applyFill
  dsimp only
  split_ifs <;> split <;> rfl

theorem applyFill_funding :
    (pm.applyFill fill).1.fundingIndex = pm.fundingIndex := by
  unfold applyFill
  dsimp only
  split_ifs <;> split <;> cases (fillTransition (pm.getPosition fill.trader fill.marketId) fill
    (pm.fundingIndex fill.marketId)).1 <;> rfl

theorem getPosition_applyFill {trader : Address} {marketId : MarketId} :
    (pm.applyFill fill).1.getPosition trader marketId =
      if (trader, marketId) = fill.key then pm.filled fill else pm.getPosition trader marketId := by
  unfold getPosition
  rw [applyFill_positions]
  exact getPosition_replacePosition (pm.filled_key fill)

theorem weigh_applyFill (weight : Position → Int) :
    (pm.applyFill fill).1.weigh weight =
      pm.weigh weight - (pm.getPosition fill.trader fill.marketId).elim 0 weight +
        (pm.filled fill).elim 0 weight := by
  unfold weigh
  rw [applyFill_positions]
  exact weigh_replacePosition (pm.filled_key fill)

theorem collateral_applyFill :
    (pm.applyFill fill).1.collateral =
      pm.collateral + (pm.applyFill fill).2.cash.getD 0
        - pm.escrowShare fill.trader fill.marketId := by
  unfold applyFill
  dsimp only
  split_ifs with charged
  · rw [collateral_creditRealizedPnl]
    split
    · rename_i cash paid
      rw [collateral_creditRealizedPnl, collateral_replacePosition, paid]
      dsimp only [Option.getD_some]
      omega
    · rename_i unpaid
      rw [collateral_replacePosition, unpaid]
      dsimp only [Option.getD_none]
      omega
  · rw [not_not] at charged
    rw [charged]
    split
    · rename_i cash paid
      rw [collateral_creditRealizedPnl, collateral_replacePosition, paid]
      simp
    · rename_i unpaid
      rw [collateral_replacePosition, unpaid]
      simp

theorem weighMarket_applyFill (marketId : MarketId) (weight : Position → Int) :
    (pm.applyFill fill).1.weighMarket marketId weight =
      pm.weighMarket marketId weight +
        if fill.marketId = marketId then
          (pm.filled fill).elim 0 weight -
            (pm.getPosition fill.trader fill.marketId).elim 0 weight
        else 0 := by
  have at_market : ∀ left : Option Position, (∀ pos ∈ left, pos.key = fill.key) →
      left.elim 0 (fun pos => if pos.marketId = marketId then weight pos else 0) =
        if fill.marketId = marketId then left.elim 0 weight else 0 := by
    intro left keyed
    cases left with
    | none => simp
    | some pos =>
      have key : pos.marketId = fill.marketId := congrArg Prod.snd (keyed pos rfl)
      simp [key]
  unfold weighMarket
  rw [weigh_applyFill, at_market (pm.getPosition fill.trader fill.marketId)
    (fun pos member => pm.positions.keyed _ _ member), at_market _ (pm.filled_key fill)]
  split <;> omega

theorem Sound.applyFill (sound : pm.Sound) (qty : 0 < fill.qty) (price : 0 < fill.price) :
    (pm.applyFill fill).1.Sound := by
  intro trader marketId pos found
  rw [getPosition_applyFill] at found
  split at found
  · apply fillTransition_sound _ qty price _ pos found
    intro old before
    exact sound _ _ old before
  · exact sound _ _ pos found

end ApplyFill

end PositionManager

end TorusHyperBft.Account
