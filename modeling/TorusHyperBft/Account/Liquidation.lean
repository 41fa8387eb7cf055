import TorusHyperBft.Account.Trade

namespace TorusHyperBft.Account

open FixedPoint
open OrderBook (Address MarketId)

/-! The moves of a liquidation: size only moves through a fill between two accounts,
collateral only from one account to another.

A failed move keeps what it wrote before it failed. -/

inductive LiquidationError where
  /-- The account has no position in the market. -/
  | noPosition (trader : Address) (marketId : MarketId)
  /-- An adl cross close the escrow cannot make. -/
  | cannotClose (escrow : Address) (q : Int) (marketId : MarketId)
  | collateralOverflow
  | crossCloseOverflow
deriving DecidableEq

abbrev LiquidationM := EStateM LiquidationError PositionManager

structure AdlCandidate where
  trader : Address
  isLong : Bool
  size : Int
  entryPrice : Int
  accountValue : Int
deriving DecidableEq

def orFail {α : Type} (error : LiquidationError) : Option α → LiquidationM α
  | some value => pure value
  | none => throw error

def fillCross (trader : Address) (marketId : MarketId) (isBuy : Bool) (qty price : Int) : Fill where
  trader := trader
  marketId := marketId
  isBuy := isBuy
  qty := qty
  price := price
  marginType := .cross

/-- One fill between two accounts: `source` closes, `target` takes the same side. -/
def transfer (source target : Address) (marketId : MarketId) (qty price : Int) :
    LiquidationM Unit := do
  let pos ← orFail (.noPosition source marketId) ((← get).getPosition source marketId)
  modify fun pm => (pm.applyFill (fillCross source marketId (!pos.isLong) qty price)).1
  modify fun pm => (pm.applyFill (fillCross target marketId pos.isLong qty price)).1

def moveCollateral (source target : Address) : LiquidationM Int := do
  let given := (← get).getNativeBalance source
  let amount ← orFail .collateralOverflow (checkedAdd given.available given.orderMargin)
  if amount = 0 then
    return amount
  let taken := (← get).getNativeBalance target
  let less ← orFail .collateralOverflow (checkedSub given.available amount)
  let more ← orFail .collateralOverflow (checkedAdd taken.available amount)
  modify fun pm => pm.putNativeBalance source { given with available := less }
  modify fun pm => pm.putNativeBalance target { taken with available := more }
  return amount

def backstopPositions (trader vault : Address) (mark : MarketId → Option Int) :
    List Position → LiquidationM Unit
  | [] => pure ()
  | pos :: rest => do
      match mark pos.marketId with
      | none => pure ()
      | some price => transfer trader vault pos.marketId pos.size price
      backstopPositions trader vault mark rest

def backstop (trader vault : Address) (mark : MarketId → Option Int) : LiquidationM Unit := do
  backstopPositions trader vault mark ((← get).positionsForTrader trader)
  let _ ← moveCollateral trader vault

/-- The closes so far, the leading candidates used up, those read, and what is left to close. -/
structure AdlProgress where
  closes : List (Address × Int) := []
  next : Nat := 0
  read : Nat := 0
  remaining : Int
deriving DecidableEq

def AdlProgress.advance (progress : AdlProgress) (usedUp : Bool) : AdlProgress :=
  if usedUp ∧ progress.next + 1 = progress.read then { progress with next := progress.next + 1 }
  else progress

/-- Close against one candidate what is left, or all that the candidate holds. -/
def adlCandidate (trader : Address) (marketId : MarketId) (isLong : Bool) (price : Int)
    (candidate : AdlCandidate) (progress : AdlProgress) : LiquidationM AdlProgress := do
  let progress := { progress with read := progress.read + 1 }
  match decide (candidate.trader = trader), (← get).getPosition candidate.trader marketId with
  | false, some held =>
    if held.isLong ≠ isLong ∧ held.size > 0 then do
      let q := min progress.remaining held.size
      transfer trader candidate.trader marketId q price
      pure ({ progress with
        closes := progress.closes ++ [(candidate.trader, q)]
        remaining := progress.remaining - q }.advance (q = held.size))
    else pure (progress.advance true)
  -- The account itself, or a candidate whose position vanished.
  | _, _ => pure (progress.advance true)

def adlCloseEach (trader : Address) (marketId : MarketId) (isLong : Bool) (price : Int) :
    List AdlCandidate → AdlProgress → LiquidationM AdlProgress
  | [], progress => pure progress
  | candidate :: rest, progress =>
    if progress.remaining ≤ 0 then pure progress
    else do
      let progress ← adlCandidate trader marketId isLong price candidate progress
      adlCloseEach trader marketId isLong price rest progress

def adlClose (trader : Address) (marketId : MarketId) (price qty : Int)
    (ranked : List AdlCandidate) : LiquidationM AdlProgress := do
  match (← get).getPosition trader marketId with
  | none => pure { remaining := 0 }
  | some pos => adlCloseEach trader marketId pos.isLong price ranked { remaining := min pos.size qty }

def holds (pm : PositionManager) (escrow : Address) (isLong : Bool) (marketId : MarketId) (q : Int) :
    Bool :=
  match pm.getPosition escrow marketId with
  | some pos => pos.isLong = isLong && pos.size ≥ q
  | none => false

def checkCloses (escrow : Address) (isLong : Bool) (marketId : MarketId) (q : Int) :
    LiquidationM Unit := do
  let held := holds (← get) escrow isLong marketId q
  if q ≤ 0 || !held then
    throw (.cannotClose escrow q marketId)

/-- The long escrow sells and the short escrow buys, each at its own price; the vault pays the
difference of the two products. -/
def crossClose (marketId : MarketId) (q priceLong priceShort : Int) (vault : Address) :
    LiquidationM Int := do
  checkCloses adlEscrowLong true marketId q
  checkCloses adlEscrowShort false marketId q
  modify fun pm => (pm.applyFill (fillCross adlEscrowLong marketId false q priceLong)).1
  modify fun pm => (pm.applyFill (fillCross adlEscrowShort marketId true q priceShort)).1
  let short ← orFail .crossCloseOverflow (checkedMul priceShort q)
  let long ← orFail .crossCloseOverflow (checkedMul priceLong q)
  let paid ← orFail .crossCloseOverflow (checkedSub short long)
  let balance := (← get).getNativeBalance vault
  let available ← orFail .crossCloseOverflow (checkedAdd balance.available paid)
  modify fun pm => pm.putNativeBalance vault { balance with available }
  return paid

def settleFlatDeficit (trader vault : Address) : LiquidationM Int := do
  let pm ← get
  if trader = vault ∨ pm.positionsForTrader trader ≠ [] then
    return 0
  let balance := pm.getNativeBalance trader
  let collateral ← orFail .collateralOverflow (checkedAdd balance.available balance.orderMargin)
  if collateral ≥ 0 then
    return 0
  moveCollateral trader vault

end TorusHyperBft.Account
