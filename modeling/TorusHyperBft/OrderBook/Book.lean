import TorusHyperBft.OrderBook.Accounts

namespace TorusHyperBft.OrderBook

/-! The book: two price ladders, the indexes kept beside them, and the pending stops.

A ladder lists its levels best price first, which is the order matching walks them in
(`asks` upwards, `bids` downwards); the queue of a level is oldest first. -/

abbrev Queue := List Order

abbrev Ladder := List (Int × Queue)

structure OrderLocation where
  side : Side
  price : Int
deriving DecidableEq

/-- The maps that matching keeps in step with the queues. -/
structure Indexes where
  orderIndex : Nat → Option OrderLocation := fun _ => none
  traderOrders : Address → List Nat := fun _ => []
  cloids : Address → Cloid → Option Nat := fun _ _ => none
  orderSeq : Nat → Option Nat := fun _ => none

structure Book where
  marketId : MarketId
  bids : Ladder := []
  asks : Ladder := []
  indexes : Indexes := {}
  pendingStops : List StopOrder := []
  tickSize : Int
  lotSize : Int
  nextId : Nat := 1
  lastTradePrice : Option Int := none
  reduceOnlyIndex : Address → List Nat := fun _ => []
  reduceOnlyPositions : ReduceOnlyPositions := {}
  accountMargins : AccountMargins := {}
  nextSeq : Nat := 1

def betterPrice : Side → Int → Int → Bool
  | .buy, left, right => decide (right < left)
  | .sell, left, right => decide (left < right)

/-- A resting price on `side` is within a taker's limit (a market order's cap). -/
def withinLimit : Side → Int → Int → Bool
  | .buy, resting, limit => decide (limit ≤ resting)
  | .sell, resting, limit => decide (resting ≤ limit)

namespace Ladder

def best (ladder : Ladder) : Option Int := ladder.head?.map Prod.fst

def get (ladder : Ladder) (price : Int) : Option Queue := ladder.lookup price

/-- Append to the queue of the order's price, opening the level where it belongs. -/
def pushBack (side : Side) (order : Order) : Ladder → Ladder
  | [] => [(order.price, [order])]
  | (price, queue) :: rest =>
    if price = order.price then (price, queue ++ [order]) :: rest
    else if betterPrice side order.price price then (order.price, [order]) :: (price, queue) :: rest
    else (price, queue) :: pushBack side order rest

def setQueue (price : Int) (queue : Queue) : Ladder → Ladder
  | [] => []
  | (other, old) :: rest =>
    if other = price then
      if queue.isEmpty then rest else (other, queue) :: rest
    else (other, old) :: setQueue price queue rest

end Ladder

namespace Indexes

def removeId (ids : List Nat) (id : Nat) : List Nat := (ids.reverse.erase id).reverse

def indexCloid (indexes : Indexes) (trader : Address) (cloid : Option Cloid) (id : Nat) :
    Indexes :=
  match cloid with
  | none => indexes
  | some cloid =>
    { indexes with
      cloids := Function.update indexes.cloids trader
        (Function.update (indexes.cloids trader) cloid (some id)) }

/-- Drop the entry of an order or stop that leaves the book, if it is this id's. -/
def forgetCloid (indexes : Indexes) (trader : Address) (cloid : Option Cloid) (id : Nat) :
    Indexes :=
  match cloid with
  | none => indexes
  | some cloid =>
    if indexes.cloids trader cloid = some id then
      { indexes with
        cloids := Function.update indexes.cloids trader
          (Function.update (indexes.cloids trader) cloid none) }
    else indexes

def forget (indexes : Indexes) (order : Order) : Indexes :=
  let indexes := indexes.forgetCloid order.trader order.clientOrderId order.id
  { indexes with
    orderIndex := Function.update indexes.orderIndex order.id none
    traderOrders := Function.update indexes.traderOrders order.trader
      (removeId (indexes.traderOrders order.trader) order.id)
    orderSeq := Function.update indexes.orderSeq order.id none }

def queuePosition (indexes : Indexes) (queue : Queue) (id : Nat) : Option Nat :=
  let scan := queue.findIdx? fun order => order.id = id
  match indexes.orderSeq id with
  | none => scan
  | some seq =>
    let position := (queue.takeWhile fun order =>
      match indexes.orderSeq order.id with
      | none => false
      | some other => decide (other < seq)).length
    match queue[position]? with
    | some order => if order.id = id then some position else scan
    | none => scan

end Indexes

namespace Book

def new (marketId : MarketId) (tickSize lotSize : Int) : Book := { marketId, tickSize, lotSize }

def ladder (book : Book) : Side → Ladder
  | .buy => book.bids
  | .sell => book.asks

def setLadder (book : Book) (side : Side) (ladder : Ladder) : Book :=
  match side with
  | .buy => { book with bids := ladder }
  | .sell => { book with asks := ladder }

def bestBid (book : Book) : Option Int := book.bids.best

def bestAsk (book : Book) : Option Int := book.asks.best

def wouldCross (book : Book) (side : Side) (price : Int) : Bool :=
  match (book.ladder side.opposite).best with
  | none => false
  | some resting => withinLimit side.opposite resting price

def getOrder (book : Book) (id : Nat) : Option Order := do
  let location ← book.indexes.orderIndex id
  let queue ← (book.ladder location.side).get location.price
  let position ← book.indexes.queuePosition queue id
  queue[position]?

def insertId (id : Nat) : List Nat → List Nat
  | [] => [id]
  | other :: rest =>
    if id = other then other :: rest
    else if id < other then id :: other :: rest
    else other :: insertId id rest

def forgetReduceOnly (book : Book) (trader : Address) (id : Nat) : Book :=
  { book with
    reduceOnlyIndex := Function.update book.reduceOnlyIndex trader
      ((book.reduceOnlyIndex trader).erase id) }

def insertOrder (book : Book) (order : Order) : Book :=
  let indexes := book.indexes.indexCloid order.trader order.clientOrderId order.id
  let book := book.setLadder order.side (Ladder.pushBack order.side order (book.ladder order.side))
  { book with
    indexes := { indexes with
      orderIndex := Function.update indexes.orderIndex order.id
        (some { side := order.side, price := order.price })
      traderOrders := Function.update indexes.traderOrders order.trader
        (indexes.traderOrders order.trader ++ [order.id])
      orderSeq := Function.update indexes.orderSeq order.id (some book.nextSeq) }
    reduceOnlyIndex :=
      if order.reduceOnly then
        Function.update book.reduceOnlyIndex order.trader
          (insertId order.id (book.reduceOnlyIndex order.trader))
      else book.reduceOnlyIndex
    nextSeq := book.nextSeq + 1 }

/-- Take one order out of its queue.  The index entry goes first, so a book whose index
is wrong loses it even though the call fails. -/
def cancelOrder (book : Book) (id : Nat) : Book × Except CoreError Order :=
  match book.indexes.orderIndex id with
  | none => (book, .error (.orderNotFound id))
  | some location =>
    let unindexed := { book with indexes := { book.indexes with
      orderIndex := Function.update book.indexes.orderIndex id none } }
    match (book.ladder location.side).get location.price with
    | none => (unindexed, .error (.orderNotFound id))
    | some queue =>
      match book.indexes.queuePosition queue id with
      | none => (unindexed, .error (.orderNotFound id))
      | some position =>
        match queue[position]? with
        | none => (unindexed, .error (.orderNotFound id))
        | some order =>
          let book := book.setLadder location.side
            (Ladder.setQueue location.price (queue.eraseIdx position)
              (book.ladder location.side))
          let book :=
            if order.reduceOnly then book.forgetReduceOnly order.trader id else book
          ({ book with indexes := book.indexes.forget { order with id } }, .ok order)

/-- Change an order.  A smaller quantity alone keeps its place; anything else re-inserts
it at the back of its level. -/
def modifyOrder (book : Book) (id : Nat) (newPrice newQty : Option Int) :
    Book × Except CoreError Order :=
  let reinsert : Book × Except CoreError Order :=
    match book.cancelOrder id with
    | (book, .error reason) => (book, .error reason)
    | (book, .ok old) =>
      let replacement := match newPrice with
        | none => old
        | some price => { old with price }
      let replacement := match newQty with
        | none => replacement
        | some qty =>
          { replacement with
            remainingQty := qty
            originalQty := if replacement.originalQty < qty then qty else replacement.originalQty }
      let replacement := { replacement with id }
      (book.insertOrder replacement, .ok replacement)
  match newPrice, newQty with
  | none, some qty =>
    match book.indexes.orderIndex id with
    | none => (book, .error (.orderNotFound id))
    | some location =>
      match (book.ladder location.side).get location.price with
      | none => reinsert
      | some queue =>
        match (book.indexes.queuePosition queue id).bind fun position =>
            (queue[position]?).map fun order => (position, order) with
        | none => reinsert
        | some (position, order) =>
          if 0 < qty ∧ qty < order.remainingQty then
            let shrunk := { order with remainingQty := qty }
            (book.setLadder location.side (Ladder.setQueue location.price
              (queue.set position shrunk) (book.ladder location.side)), .ok shrunk)
          else reinsert
  | _, _ => reinsert

end Book

end TorusHyperBft.OrderBook
