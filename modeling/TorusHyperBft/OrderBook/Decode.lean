import TorusHyperBft.Reader
import TorusHyperBft.OrderBook.Load

namespace TorusHyperBft.OrderBook

/-! What is read back of the stored bytes.

The widths of the source's types are not part of the model's; what they are is said here, and values
of these widths are read as they were written. -/

/-- It fits sixteen signed bytes. -/
def IsI128 (raw : Int) : Prop := -2 ^ 127 ≤ raw ∧ raw < 2 ^ 127

def signed (number : Nat) : Int := if number < 2 ^ 127 then number else (number : Int) - 2 ^ 128

theorem signed_mod {raw : Int} (fits : IsI128 raw) : signed (raw % 2 ^ 128).toNat = raw := by
  obtain ⟨low, high⟩ := fits
  unfold signed
  split <;> omega

def readFp : Reader Int := do
  let number ← Reader.number 16
  return signed number

def readSide : Reader Side := do
  let tag ← Reader.number 1
  return if tag = 0 then .buy else .sell

def readOrderType : Reader OrderType := do
  match ← Reader.number 1 with
  | 0 => return .limit
  | 1 => return .market
  | 2 =>
    let trigger ← readFp
    return .stopMarket trigger
  | 3 =>
    let trigger ← readFp
    let limit ← readFp
    return .stopLimit trigger limit
  | _ => Reader.failure

def readTimeInForce : Reader TimeInForce := do
  match ← Reader.number 1 with
  | 0 => return .gtc
  | 1 => return .ioc
  | 2 => return .fok
  | 3 => return .postOnly
  | _ => Reader.failure

def readFlag : Reader Bool := do
  let tag ← Reader.number 1
  return decide (tag ≠ 0)

def readCloid : Reader (Option Cloid) := do
  match ← Reader.number 1 with
  | 0 => return none
  | _ =>
    let cloid ← Reader.number 16
    return some cloid

def readOrder : Reader Order := do
  let id ← Reader.number 16
  let trader ← Reader.number 20
  let side ← readSide
  let price ← readFp
  let remainingQty ← readFp
  let originalQty ← readFp
  let orderType ← readOrderType
  let timeInForce ← readTimeInForce
  let timestamp ← Reader.number 8
  let reduceOnly ← readFlag
  let clientOrderId ← readCloid
  return { id, trader, side, price, remainingQty, originalQty, orderType, timeInForce, timestamp,
           reduceOnly, clientOrderId : Order }

def readStopPrice : Reader (Option Int × Int) := do
  match ← Reader.number 1 with
  | 0 => return (none, 0)
  | 1 =>
    let limit ← readFp
    return (some limit, 0)
  | 2 =>
    let cap ← readFp
    return (none, cap)
  | _ => Reader.failure

def readStop : Reader StopOrder := do
  let id ← Reader.number 16
  let trader ← Reader.number 20
  let marketId ← Reader.number 8
  let side ← readSide
  let triggerPrice ← readFp
  let price ← readStopPrice
  let quantity ← readFp
  let timeInForce ← readTimeInForce
  let timestamp ← Reader.number 8
  let reduceOnly ← readFlag
  let clientOrderId ← readCloid
  return { id, trader, marketId, side, triggerPrice, limitPrice := price.1, priceCap := price.2
           quantity, timeInForce, timestamp, reduceOnly, clientOrderId : StopOrder }

def readOrderRow : Reader OrderRow := do
  let seq ← Reader.number 8
  let order ← readOrder
  return (seq, order)

/-- The sequence and the order of a row; what follows them is not looked at. -/
def decodeOrderRow (value : List Byte) : Option OrderRow := (readOrderRow value).map Prod.fst

section Widths

/-- Its prices fit. -/
def OrderType.IsSized : OrderType → Prop
  | .limit => True
  | .market => True
  | .stopMarket trigger => IsI128 trigger
  | .stopLimit trigger price => IsI128 trigger ∧ IsI128 price

/-- The fields of an order have the widths of their types. -/
structure Order.IsSized (order : Order) : Prop where
  id : order.id < 256 ^ 16
  trader : order.trader < 256 ^ 20
  price : IsI128 order.price
  remainingQty : IsI128 order.remainingQty
  originalQty : IsI128 order.originalQty
  orderType : order.orderType.IsSized
  timestamp : order.timestamp < 256 ^ 8
  cloid : ∀ cloid ∈ order.clientOrderId, cloid < 256 ^ 16

/-- Every field fits its bytes. -/
structure StopOrder.IsSized (stop : StopOrder) : Prop where
  id : stop.id < 256 ^ 16
  trader : stop.trader < 256 ^ 20
  marketId : stop.marketId < 256 ^ 8
  triggerPrice : IsI128 stop.triggerPrice
  limitPrice : ∀ limit ∈ stop.limitPrice, IsI128 limit
  priceCap : IsI128 stop.priceCap
  quantity : IsI128 stop.quantity
  timestamp : stop.timestamp < 256 ^ 8
  cloid : ∀ cloid ∈ stop.clientOrderId, cloid < 256 ^ 16

end Widths

section Takes

open Reader (Takes takes_byte takes_number)

theorem takes_fp {raw : Int} (fits : IsI128 raw) : Takes readFp (fpBytes raw) raw := by
  have range : (raw % 2 ^ 128).toNat < 256 ^ 16 := by
    have := Int.emod_lt_of_pos raw (show (0 : Int) < 2 ^ 128 by decide)
    have := Int.emod_nonneg raw (show (2 ^ 128 : Int) ≠ 0 by decide)
    omega
  have read := @Takes.last Nat Int _ _ _ signed (takes_number range)
  rwa [signed_mod fits] at read

theorem takes_side (side : Side) : Takes readSide side.bytes side := by
  cases side with
  | buy => exact (takes_byte 0).last
  | sell => exact (takes_byte 1).last

theorem takes_flag (flag : Bool) : Takes readFlag (flagBytes flag) flag := by
  cases flag with
  | false => exact (takes_byte 0).last
  | true => exact (takes_byte 1).last

theorem takes_timeInForce (timeInForce : TimeInForce) :
    Takes readTimeInForce timeInForce.bytes timeInForce := by
  cases timeInForce with
  | gtc => exact (takes_byte 0).bind (Takes.pure _)
  | ioc => exact (takes_byte 1).bind (Takes.pure _)
  | fok => exact (takes_byte 2).bind (Takes.pure _)
  | postOnly => exact (takes_byte 3).bind (Takes.pure _)

theorem takes_cloid {cloid : Option Cloid} (fits : ∀ value ∈ cloid, value < 256 ^ 16) :
    Takes readCloid (cloidBytes cloid) cloid := by
  cases cloid with
  | none => exact (takes_byte 0).bind (Takes.pure _)
  | some value => exact (takes_byte 1).bind (takes_number (fits value rfl)).last

theorem takes_orderType {orderType : OrderType} (fits : orderType.IsSized) :
    Takes readOrderType orderType.bytes orderType := by
  cases orderType with
  | limit => exact (takes_byte 0).bind (Takes.pure _)
  | market => exact (takes_byte 1).bind (Takes.pure _)
  | stopMarket trigger => exact (takes_byte 2).bind (takes_fp fits).last
  | stopLimit trigger limit => exact (takes_byte 3).bind ((takes_fp fits.1).bind (takes_fp fits.2).last)

theorem takes_order {order : Order}
    (fits : order.IsSized) : Takes readOrder order.serialize order :=
  (takes_number fits.id).bind <| (takes_number fits.trader).bind <| (takes_side _).bind <|
    (takes_fp fits.price).bind <| (takes_fp fits.remainingQty).bind <|
    (takes_fp fits.originalQty).bind <| (takes_orderType fits.orderType).bind <|
    (takes_timeInForce _).bind <| (takes_number fits.timestamp).bind <| (takes_flag _).bind <|
    (takes_cloid fits.cloid).last

def StopOrder.readPrice (stop : StopOrder) : Option Int × Int :=
  match stop.limitPrice with
  | none => (none, if 0 < stop.priceCap then stop.priceCap else 0)
  | some limit => (some limit, 0)

theorem takes_stopPrice {stop : StopOrder} (fits : stop.IsSized) :
    Takes readStopPrice stop.priceBytes stop.readPrice := by
  unfold StopOrder.priceBytes StopOrder.readPrice
  cases limit : stop.limitPrice with
  | none =>
    dsimp only
    split
    · exact (takes_byte 2).bind (takes_fp fits.priceCap).last
    · exact (takes_byte 0).bind (Takes.pure _)
  | some price => exact (takes_byte 1).bind (takes_fp (fits.limitPrice price limit)).last

theorem takes_stop {stop : StopOrder} (fits : stop.IsSized) :
    Takes readStop stop.serialize
      { stop with limitPrice := stop.readPrice.1, priceCap := stop.readPrice.2 } :=
  (takes_number fits.id).bind <| (takes_number fits.trader).bind <|
    (takes_number fits.marketId).bind <| (takes_side _).bind <|
    (takes_fp fits.triggerPrice).bind <| (takes_stopPrice fits).bind <|
    (takes_fp fits.quantity).bind <| (takes_timeInForce _).bind <|
    (takes_number fits.timestamp).bind <| (takes_flag _).bind <| (takes_cloid fits.cloid).last

theorem decodeOrderRow_encode {row : OrderRow} (seq : row.1 < 256 ^ 8) (fits : row.2.IsSized) :
    decodeOrderRow (encodeOrderRow row) = some row := by
  have read : Takes readOrderRow (encodeOrderRow row) row :=
    (takes_number seq).bind (takes_order fits).last
  have all := read []
  rw [List.append_nil] at all
  exact congrArg (Option.map Prod.fst) all

end Takes

end TorusHyperBft.OrderBook
