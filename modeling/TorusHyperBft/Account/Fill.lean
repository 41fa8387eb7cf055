import TorusHyperBft.Account.Row

namespace TorusHyperBft.Account

open FixedPoint
open OrderBook (Address MarketId)

/-! What a fill does to the position and the balance of one trader. -/

/-- The protocol accounts, their twenty bytes read as a number: `torus-liquidator-vlt`,
`torus-adl-escrow-lng` and `torus-adl-escrow-sht`. -/
def liquidatorVault : Address := 0x746f7275732d6c697175696461746f722d766c74
def adlEscrowLong : Address := 0x746f7275732d61646c2d657363726f772d6c6e67
def adlEscrowShort : Address := 0x746f7275732d61646c2d657363726f772d736874

def isAdlEscrow (trader : Address) : Bool := trader = adlEscrowLong || trader = adlEscrowShort

def indexScale : Int := 1000000000000000000

/-- `a × b / d` truncated toward zero, or toward plus infinity, and saturated. -/
def mulDiv (a b d : Int) (up : Bool) : Int :=
  let product := a.natAbs * b.natAbs
  let negative := xor (a < 0) (b < 0) && product ≠ 0
  let quotient := min (product / d.natAbs) maxRaw.toNat
  let quotient :=
    -- A negative quotient is already toward plus infinity when truncated.
    if up && !negative && product % d.natAbs ≠ 0 && quotient < maxRaw.toNat then quotient + 1
    else quotient
  if negative then -quotient else quotient

def owed (isLong : Bool) (size entry index : Int) : Int :=
  let delta := saturate (index - entry)
  let signed := if isLong then size else -size
  mulDiv signed delta indexScale true

namespace Position

def fundingAccrued (pos : Position) (index : Option Int) : Int :=
  match index with
  | none => 0
  | some index => owed pos.isLong pos.size (pos.funding.elim 0 PositionFunding.entryIndex) index

def fundingOwed (pos : Position) (index : Option Int) : Int :=
  if isAdlEscrow pos.trader then 0 else pos.fundingAccrued index

def settled (pos : Position) (index : Int) : Position :=
  { pos with
    funding := some {
      entryIndex := index
      paid := pos.funding.elim 0 PositionFunding.paid + pos.fundingOwed (some index) } }

def fresh (pos : Position) (index : Int) : Position :=
  if pos.funding.isNone then { pos with funding := some { entryIndex := index, paid := 0 } } else pos

end Position

def signedSize : Option Position → Int
  | some pos => if pos.isLong then pos.size else 0 - pos.size
  | none => 0

def proRata (basis q size : Int) : Int := (basis * q).tdiv size

def closePnl (isLong : Bool) (value removed : Int) : Int :=
  if isLong then value - removed else removed - value

structure Fill where
  trader : Address
  marketId : MarketId
  isBuy : Bool
  qty : Int
  price : Int
  marginType : MarginType
deriving DecidableEq

namespace Fill

def notional (fill : Fill) : Int := mul fill.price fill.qty

def opened (fill : Fill) (size costBasis : Int) : Position where
  trader := fill.trader
  marketId := fill.marketId
  isLong := fill.isBuy
  size := size
  entryPrice := fill.price
  costBasis := costBasis
  realizedPnl := 0
  isolatedMargin := 0
  marginType := fill.marginType
  funding := none

end Fill

def fillTransitionCore (existing : Option Position) (fill : Fill) : Option Position × Option Int :=
  let notional := fill.notional
  match existing with
  | none => (some (fill.opened fill.qty notional), none)
  | some pos =>
    if (fill.isBuy && pos.isLong) || (!fill.isBuy && !pos.isLong) then
      let size := pos.size + fill.qty
      let costBasis := pos.costBasis + notional
      let entryPrice := if size > 0 then div costBasis size else pos.entryPrice
      (some { pos with size, costBasis, entryPrice }, none)
    else if fill.qty < pos.size then
      let removed := proRata pos.costBasis fill.qty pos.size
      let pnl := closePnl pos.isLong notional removed
      (some { pos with
        costBasis := pos.costBasis - removed
        realizedPnl := pos.realizedPnl + pnl
        size := pos.size - fill.qty }, some pnl)
    else if fill.qty = pos.size then
      (none, some (closePnl pos.isLong notional pos.costBasis))
    else
      -- A flip splits the notional by subtraction into the close and the open part.
      let remainder := fill.qty - pos.size
      let openPart := mul fill.price remainder
      let pnl := closePnl pos.isLong (notional - openPart) pos.costBasis
      (some (fill.opened remainder openPart), some pnl)

/-- The position is settled at the market's index first, then filled; what opens starts at
the index with nothing paid. -/
def fillTransition (existing : Option Position) (fill : Fill) (fundingIndex : Option Int) :
    Option Position × Option Int × Int :=
  match fundingIndex with
  | none =>
    let (pos, pnl) := fillTransitionCore existing fill
    (pos, pnl, 0)
  | some index =>
    let owed := existing.elim 0 fun pos => pos.fundingOwed (some index)
    let (pos, pnl) := fillTransitionCore (existing.map fun pos => pos.settled index) fill
    (pos.map fun pos => pos.fresh index, pnl, owed)

structure FillEffect where
  startSize : Int := 0
  closedPnl : Option Int := none
  funding : Int := 0
  fee : Int := 0
deriving DecidableEq

def FillEffect.cash (effect : FillEffect) : Option Int :=
  match effect.closedPnl with
  | some pnl => some (pnl - effect.funding - effect.fee)
  | none =>
    if effect.funding ≠ 0 ∨ effect.fee ≠ 0 then some (0 - effect.funding - effect.fee) else none

namespace PositionManager

def replacePosition (pm : PositionManager) (trader : Address) (marketId : MarketId) :
    Option Position → PositionManager
  | some pos => pm.putPosition pos
  | none => pm.deletePosition trader marketId

def escrowShare (pm : PositionManager) (trader : Address) (marketId : MarketId) : Int :=
  match pm.getPosition trader marketId with
  | some pos => if isAdlEscrow trader then pos.fundingAccrued (pm.fundingIndex marketId) else 0
  | none => 0

def applyFill (pm : PositionManager) (fill : Fill) : PositionManager × FillEffect :=
  let index := pm.fundingIndex fill.marketId
  let existing := pm.getPosition fill.trader fill.marketId
  let escrowShare := pm.escrowShare fill.trader fill.marketId
  let (pos, pnl, funding) := fillTransition existing fill index
  let written := pm.replacePosition fill.trader fill.marketId pos
  let effect := { startSize := signedSize existing, closedPnl := pnl, funding }
  let credited :=
    match FillEffect.cash effect with
    | some cash => written.creditRealizedPnl fill.trader cash
    | none => written
  let charged :=
    if escrowShare ≠ 0 then credited.creditRealizedPnl liquidatorVault (0 - escrowShare)
    else credited
  (charged, effect)

def settleFunding (pm : PositionManager) (pos : Position) (index : Option Int) :
    PositionManager × Position :=
  let owed := pos.fundingOwed index
  match index with
  | none => (pm, pos)
  | some index =>
    if owed = 0 then (pm, pos)
    else
      let settled := pos.settled index
      ((pm.putPosition settled).creditRealizedPnl settled.trader (0 - owed), settled)

end PositionManager

end TorusHyperBft.Account
