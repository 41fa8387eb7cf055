import TorusHyperBft.OrderBook.Save

namespace TorusHyperBft.OrderBook

/-! The book's order event log, as cancel-alls write it.

The log is kept in memory for a stream of order updates.  A cancel-all logs after its work
is done: first the stops it removed, then the orders. -/

inductive OrderEventStatus where
  | opened
  | partiallyFilled
  | filled
  | canceled
  | triggerPending
  | triggered
  | modified
  | rejected
deriving DecidableEq

/-- Why an order was cancelled, modified or rejected. -/
inductive OrderEventReason where
  | none
  | user
  | selfTrade
  | reduceOnly
  | margin
  | liquidation
  | delisted
  | marketParams
  | unfilled
  | reject (why : FailureReason)
deriving DecidableEq

structure OrderEvent where
  market : MarketId
  orderId : Option Nat
  trader : Address
  cloid : Option Cloid
  side : Side
  price : Int
  triggerPrice : Option Int
  origQty : Int
  remaining : Int
  filled : Int
  reduceOnly : Bool
  status : OrderEventStatus
  reason : OrderEventReason
deriving DecidableEq

def orderEvent (market : MarketId) (order : Order) (status : OrderEventStatus)
    (reason : OrderEventReason) (filled : Int) : OrderEvent where
  market
  orderId := some order.id
  trader := order.trader
  cloid := order.clientOrderId
  side := order.side
  price := order.price
  triggerPrice := none
  origQty := order.originalQty
  remaining := order.remainingQty
  filled
  reduceOnly := order.reduceOnly
  status
  reason

def stopEvent (stop : StopOrder) (status : OrderEventStatus) (reason : OrderEventReason) :
    OrderEvent where
  market := stop.marketId
  orderId := some stop.id
  trader := stop.trader
  cloid := stop.clientOrderId
  side := stop.side
  price := stop.reservationPrice
  triggerPrice := some stop.triggerPrice
  origQty := stop.quantity
  remaining := stop.quantity
  filled := 0
  reduceOnly := stop.reduceOnly
  status
  reason

/-- A book with its journals and its event log; the log is `none` while it is off. -/
structure LoggedBook (hash : StreamingHash) where
  book : Book
  journals : Journals hash := {}
  orderEvents : Option (List OrderEvent) := none
  cancelCause : OrderEventReason := .user

namespace LoggedBook

variable {hash : StreamingHash}

def epochFits (logged : LoggedBook hash) (key : LevelKey) (removals : Nat) : Bool :=
  logged.journals.levelHashCache.isNone ||
    decide (logged.journals.levelEpoch key + removals < 2 ^ 64)

def logEvent (logged : LoggedBook hash) (event : OrderEvent) : LoggedBook hash :=
  { logged with orderEvents := logged.orderEvents.map fun log => log ++ [event] }

def logRemoved (logged : LoggedBook hash) (order : Order) (reason : OrderEventReason) :
    LoggedBook hash :=
  logged.logEvent (orderEvent logged.book.marketId order .canceled reason 0)

def logStopRemoved (logged : LoggedBook hash) (stop : StopOrder) (reason : OrderEventReason) :
    LoggedBook hash :=
  logged.logEvent (stopEvent stop .canceled reason)

def stopsIfLogging (logged : LoggedBook hash) (owned : Address → Bool) : List StopOrder :=
  if logged.orderEvents.isNone then []
  else logged.book.pendingStops.filter fun stop => owned stop.trader

def logStopsGone (logged : LoggedBook hash) (before : List StopOrder) : LoggedBook hash :=
  before.foldl (fun logged stop =>
    if logged.book.pendingStops.any fun pending => pending.id = stop.id then logged
    else logged.logStopRemoved stop logged.cancelCause) logged

def logCancelled (logged : LoggedBook hash) (stops : List StopOrder) (cancelled : List Order) :
    LoggedBook hash :=
  if logged.orderEvents.isSome then
    cancelled.foldl (fun logged order => logged.logRemoved order logged.cancelCause)
      (logged.logStopsGone stops)
  else logged

def cancelAllUnlogged (logged : LoggedBook hash) (trader : Address) :
    LoggedBook hash × List Order :=
  let (book, cancelled) := logged.book.cancelAll logged.epochFits trader
  let journals := logged.journals.recordAll (logged.book.cancelAllMarks logged.epochFits trader)
  ({ logged with book, journals }, cancelled)

def cancelAll (logged : LoggedBook hash) (trader : Address) : LoggedBook hash × List Order :=
  let stops := logged.stopsIfLogging fun owner => decide (owner = trader)
  let (after, cancelled) := logged.cancelAllUnlogged trader
  (after.logCancelled stops cancelled, cancelled)

def inTurn (cancel : LoggedBook hash → Address → LoggedBook hash × List Order) :
    LoggedBook hash → List Address → LoggedBook hash × List (List Order)
  | logged, [] => (logged, [])
  | logged, sender :: senders =>
    let (next, cancelled) := cancel logged sender
    let (last, out) := inTurn cancel next senders
    (last, cancelled :: out)

def applyCancelAllMany (logged : LoggedBook hash) (senders : List Address)
    (levels : List (LevelKey × List Target)) : LoggedBook hash × List (List Order) :=
  let (book, out) := logged.book.applyCancelAllMany senders levels
  let journals := logged.journals.recordAll (Book.unindexMarks logged.book.indexes
    (logged.book.removeLevels (logged.book.ownedIds senders).flatten levels).2)
  ({ logged with book, journals }, out)

def cancelAllMany (logged : LoggedBook hash) (senders : List Address) :
    LoggedBook hash × List (List Order) :=
  let stops := logged.stopsIfLogging fun owner => decide (owner ∈ senders)
  let (after, out) :=
    match logged.book.planCancelAllMany logged.epochFits senders with
    | some levels => logged.applyCancelAllMany senders levels
    | none => inTurn cancelAllUnlogged logged senders
  (after.logCancelled stops out.flatten, out)

end LoggedBook

end TorusHyperBft.OrderBook
