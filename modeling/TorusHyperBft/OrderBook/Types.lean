import TorusHyperBft.Margin

namespace TorusHyperBft.OrderBook

/-! Orders, fills and the outcome of a placement. -/

abbrev Address := Nat
abbrev MarketId := Nat
abbrev Cloid := Nat

inductive Side where
  | buy
  | sell
deriving DecidableEq

def Side.opposite : Side → Side
  | .buy => .sell
  | .sell => .buy

inductive OrderType where
  | limit
  | market
  | stopMarket (trigger : Int)
  | stopLimit (trigger limit : Int)
deriving DecidableEq

inductive TimeInForce where
  | gtc
  | ioc
  | fok
  | postOnly
deriving DecidableEq

structure PlaceOrderParams where
  marketId : MarketId
  isBuy : Bool
  price : Int
  quantity : Int
  orderType : OrderType
  timeInForce : TimeInForce
  reduceOnly : Bool
  clientOrderId : Option Cloid
deriving DecidableEq

def PlaceOrderParams.side (params : PlaceOrderParams) : Side :=
  if params.isBuy then .buy else .sell

structure Order where
  id : Nat
  trader : Address
  side : Side
  price : Int
  remainingQty : Int
  originalQty : Int
  orderType : OrderType
  timeInForce : TimeInForce
  timestamp : Nat
  reduceOnly : Bool
  clientOrderId : Option Cloid
deriving DecidableEq

def Order.isBuy (order : Order) : Bool := decide (order.side = .buy)

structure Fill where
  makerOrderId : Nat
  takerOrderId : Nat
  price : Int
  quantity : Int
  maker : Address
  taker : Address
  makerSide : Side
  timestamp : Nat
deriving DecidableEq

/-- Quantity taken off a resting order, by a reduce-only cap or by a failed margin check. -/
structure ReduceOnlyCut where
  orderId : Nat
  trader : Address
  price : Int
  qty : Int
deriving DecidableEq

structure StopOrder where
  id : Nat
  trader : Address
  marketId : MarketId
  side : Side
  triggerPrice : Int
  limitPrice : Option Int
  priceCap : Int
  quantity : Int
  timeInForce : TimeInForce
  timestamp : Nat
  reduceOnly : Bool
  clientOrderId : Option Cloid
deriving DecidableEq

def StopOrder.reservationPrice (stop : StopOrder) : Int :=
  stop.limitPrice.getD stop.priceCap

structure TriggeredStop where
  id : Nat
  trader : Address
  params : PlaceOrderParams
  timestamp : Nat
deriving DecidableEq

inductive OrderStatus where
  | filled
  | partiallyFilled
  | resting
  | cancelled
  | rejected
  | pendingTrigger
deriving DecidableEq

/-- The reasons a book gives for refusing or cancelling an order. -/
inductive FailureReason where
  | margin
  | tick
  | lot
  | price
  | reduceOnly
  | iocCancel
  | badAloPx
  | marketNoLiquidity
  | fokCancel
  | badTriggerPx
  | duplicateCloid
deriving DecidableEq

structure PlaceResult where
  orderId : Nat
  status : OrderStatus
  fills : List Fill := []
  selfTradeCancels : List Order := []
  restedQty : Int := 0
  reduceOnlyCuts : List ReduceOnlyCut := []
  triggeredStops : List TriggeredStop := []
  marginCancels : List ReduceOnlyCut := []
  marginCutPrice : Option Int := none
  reject : Option FailureReason := none
deriving DecidableEq

def PlaceResult.rejected (orderId : Nat) (why : FailureReason) : PlaceResult :=
  { orderId, status := .rejected, reject := some why }

inductive CoreError where
  | orderNotFound (id : Nat)
deriving DecidableEq

end TorusHyperBft.OrderBook
