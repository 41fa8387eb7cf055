import TorusHyperBft.Bytes
import TorusHyperBft.OrderBook.Types

namespace TorusHyperBft.OrderBook

/-! The stored bytes of orders and stops; every number is big-endian. -/

def fpBytes (raw : Int) : List Byte := toBytes 16 (raw % 2 ^ 128).toNat

def Side.bytes : Side → List Byte
  | .buy => [0]
  | .sell => [1]

def OrderType.bytes : OrderType → List Byte
  | .limit => [0]
  | .market => [1]
  | .stopMarket trigger => 2 :: fpBytes trigger
  | .stopLimit trigger price => 3 :: (fpBytes trigger ++ fpBytes price)

def TimeInForce.bytes : TimeInForce → List Byte
  | .gtc => [0]
  | .ioc => [1]
  | .fok => [2]
  | .postOnly => [3]

def flagBytes (flag : Bool) : List Byte := if flag then [1] else [0]

def cloidBytes : Option Cloid → List Byte
  | none => [0]
  | some cloid => 1 :: toBytes 16 cloid

def Order.serialize (order : Order) : List Byte :=
  toBytes 16 order.id ++ (toBytes 20 order.trader ++ (order.side.bytes ++ (fpBytes order.price ++
    (fpBytes order.remainingQty ++ (fpBytes order.originalQty ++ (order.orderType.bytes ++
      (order.timeInForce.bytes ++ (toBytes 8 order.timestamp ++ (flagBytes order.reduceOnly ++
        cloidBytes order.clientOrderId)))))))))

def StopOrder.priceBytes (stop : StopOrder) : List Byte :=
  match stop.limitPrice with
  | none => if 0 < stop.priceCap then 2 :: fpBytes stop.priceCap else [0]
  | some limit => 1 :: fpBytes limit

def StopOrder.serialize (stop : StopOrder) : List Byte :=
  toBytes 16 stop.id ++ (toBytes 20 stop.trader ++ (toBytes 8 stop.marketId ++ (stop.side.bytes ++
    (fpBytes stop.triggerPrice ++ (stop.priceBytes ++ (fpBytes stop.quantity ++
      (stop.timeInForce.bytes ++ (toBytes 8 stop.timestamp ++ (flagBytes stop.reduceOnly ++
        cloidBytes stop.clientOrderId)))))))))

abbrev OrderRow := Nat × Order

def encodeOrderRow (row : OrderRow) : List Byte := toBytes 8 row.1 ++ row.2.serialize

end TorusHyperBft.OrderBook
