import TorusHyperBft.OrderBook.Desk

namespace TorusHyperBft.OrderBook

/-! What each operation writes to the journals of a book.

The queues are changed and journaled at the same places of the source, by hand; the entries
are listed here in the order in which an operation makes them. -/

inductive Mark where
  /-- The row of an order has to be written or deleted. -/
  | row (id : Nat)
  /-- The row of a level has to be written or deleted. -/
  | level (key : LevelKey)
  /-- The queue of a level changed other than by an append. -/
  | epoch (key : LevelKey)
  /-- The chunk of a level with this sequence number changed. -/
  | chunk (key : LevelKey) (seq : Option Nat)
deriving DecidableEq

def Order.levelKey (order : Order) : LevelKey := { side := order.side, price := order.price }

def OrderLocation.levelKey (location : OrderLocation) : LevelKey :=
  { side := location.side, price := location.price }

/-- What is journaled for every maker that matching deals with, whether it goes or stays. -/
def makerMarks (key : LevelKey) (matching : Matching) (maker : Order) : List Mark :=
  [.chunk key (matching.indexes.orderSeq maker.id), .row maker.id]

def matchLoopMarks (env : MatchEnv) (key : LevelKey) : Queue → Matching → List Mark
  | [], _ => []
  | maker :: rest, matching =>
    if _wants : 0 < matching.taker.remainingQty then
      match _visited : visit env key.price maker matching with
      | .selfTrade =>
        makerMarks key matching maker ++
          matchLoopMarks env key rest (matching.cancelSelfTrade maker)
      | .cut =>
        makerMarks key matching maker ++
          matchLoopMarks env key rest (matching.cutMaker maker)
      | .starved _ => []
      | .marginCancel after =>
        makerMarks key after maker ++
          matchLoopMarks env key rest (after.marginCancelMaker maker)
      | .fill quantity after =>
        let recorded := after.recordFill maker key.price quantity
        if maker.remainingQty - quantity = 0 then
          let popped := recorded.forget maker
          makerMarks key recorded maker ++
            if popped.exhausted then [] else matchLoopMarks env key rest popped
        else
          makerMarks key recorded maker ++
            if recorded.exhausted then []
            else matchLoopMarks env key (maker.filled quantity :: rest) recorded
    else []
termination_by queue _ => queueMeasure queue
decreasing_by
  all_goals simp only [queueMeasure, List.map_cons, List.sum_cons, Order.filled]
  all_goals try omega
  have inverted := @visit_visited env key.price maker matching _wants
  rw [_visited] at inverted
  cases inverted with
  | fill other policed same bounded whole =>
    have := makerFillable_bounds policed
    omega

def matchLevelMarks (env : MatchEnv) (key : LevelKey) (queue : Queue) (matching : Matching) :
    List Mark :=
  (if 0 < matching.taker.remainingQty ∧ queue ≠ [] then [.level key, .epoch key] else []) ++
    matchLoopMarks env key queue matching

def executeMatchMarks (env : MatchEnv) (makerSide : Side) : Ladder → Matching → List Mark
  | [], _ => []
  | (price, queue) :: rest, matching =>
    if 0 < matching.taker.remainingQty ∧ matching.exhausted = false ∧
        withinLimit makerSide price matching.taker.price = true then
      let (left, after) := matchAtLevel env price queue matching
      matchLevelMarks env { side := makerSide, price } queue matching ++
        if left.isEmpty then executeMatchMarks env makerSide rest after else []
    else []

namespace Book

def insertMarks (book : Book) (order : Order) : List Mark :=
  [.row order.id, .level order.levelKey, .chunk order.levelKey (some book.nextSeq)]

def removalMarks (indexes : Indexes) (key : LevelKey) (id : Nat) : List Mark :=
  [.row id, .level key, .epoch key, .chunk key (indexes.orderSeq id)]

def cancelMarks (book : Book) (id : Nat) : List Mark :=
  match (book.cancelOrder id).2 with
  | .error _ => []
  | .ok order => removalMarks book.indexes order.levelKey id

/-- A smaller quantity is written in place; anything else cancels and inserts. -/
def modifyMarks (book : Book) (id : Nat) (newPrice newQty : Option Int) : List Mark :=
  let reinsert : List Mark :=
    match book.cancelOrder id with
    | (_, .error _) => []
    | (cancelled, .ok old) =>
      book.cancelMarks id ++ cancelled.insertMarks { replacement old newPrice newQty with id }
  match newPrice, newQty with
  | none, some qty =>
    match book.indexes.orderIndex id with
    | none => []
    | some location =>
      match (book.ladder location.side).get location.price with
      | none => reinsert
      | some queue =>
        match (book.indexes.queuePosition queue id).bind fun position =>
            (queue[position]?).map fun order => (position, order) with
        | none => reinsert
        | some (_, order) =>
          if 0 < qty ∧ qty < order.remainingQty then
            removalMarks book.indexes location.levelKey id
          else reinsert
  | _, _ => reinsert

def sweepOrderMarks (reducesBuy : Bool) (sweep : Sweep) (id : Nat) : List Mark :=
  match sweep.book.getOrder id with
  | none => []
  | some order =>
    let keep := sweepKeep reducesBuy sweep.budget order
    if keep = order.remainingQty then []
    else if keep = 0 then sweep.book.cancelMarks id
    else sweep.book.modifyMarks id none (some keep)

def sweepMarks (trader : Address) (reducesBuy : Bool) : Sweep → List Nat → List Mark
  | _, [] => []
  | sweep, id :: ids =>
    sweepOrderMarks reducesBuy sweep id ++
      sweepMarks trader reducesBuy (sweepOrder trader reducesBuy sweep id) ids

def sweepReduceOnlyMarks (book : Book) (trader : Address) (cuts : List ReduceOnlyCut) :
    List Mark :=
  match book.reduceOnlyPositions.get trader with
  | none => []
  | some position =>
    let reducesBuy := decide (position < 0)
    let budget := if reducesBuy then -position else position
    sweepMarks trader reducesBuy { book, cuts, budget } (book.reduceOnlyIndex trader)

def sweepReduceOnlyAtMarks (book : Book) (trader : Address) (signedPos : Int) : List Mark :=
  sweepReduceOnlyMarks
    { book with reduceOnlyPositions := ({} : ReduceOnlyPositions).insert trader signedPos } trader []

def sweepTouchedMarks (taker : Address) :
    Book × List ReduceOnlyCut × Option Int → List Address → List Mark
  | _, [] => []
  | state, trader :: traders =>
    state.1.sweepReduceOnlyMarks trader state.2.1 ++
      sweepTouchedMarks taker (sweepNext taker state trader) traders

def sweepMatchedMarks (book : Book) (placement : Placement) (matched : Matching) : List Mark :=
  if book.reduceOnlyPositions.isEmpty then []
  else sweepTouchedMarks placement.trader (book, matched.reduceOnlyCuts, none)
    (touchedTraders placement.trader matched.fills)

def settleMarks (book : Book) (placement : Placement) (order : Order) (exhausted : Bool)
    (left : Option Int) : List Mark :=
  if order.remainingQty = 0 then []
  else if placement.params.orderType = .market ∨ exhausted ∨
      placement.params.timeInForce = .ioc ∨ placement.params.timeInForce = .fok then []
  else
    let remaining := restQuantity order left
    if remaining = 0 then [] else book.insertMarks { order with remainingQty := remaining }

def matchOrderMarks (book : Book) (placement : Placement) (order : Order)
    (margin : Option MatchMargin) : List Mark :=
  let makerSide := order.side.opposite
  let env : MatchEnv := { marketId := book.marketId, makers := placement.makers }
  let start := book.startMatching placement order margin
  let (ladder, matched) := executeMatch env makerSide (book.ladder makerSide) start
  let rematched := book.afterMatch makerSide ladder matched
  let (swept, _, left) := rematched.sweepMatched placement matched
  executeMatchMarks env makerSide (book.ladder makerSide) start ++
    (rematched.sweepMatchedMarks placement matched ++
      swept.settleMarks placement matched.taker matched.exhausted left)

def placeMatchedMarks (book : Book) (placement : Placement) (orderId : Nat) (quantity : Int) :
    List Mark :=
  let order := takerOrder placement orderId quantity
  let margin := placement.margin.map (book.matchMargin placement)
  if placement.params.timeInForce = .fok then
    let free := book.reduceOnlyPositions.allowance placement.trader placement.params.isBuy
    let (fits, margin) := fokFits margin quantity free
      (book.canFillCompletely (book.fokRequest placement margin) placement.params.price quantity free)
    if fits then book.matchOrderMarks placement order margin else []
  else book.matchOrderMarks placement order margin

def placeMarks (book : Book) (placement : Placement) : List Mark :=
  let orderId := book.nextId
  let book := book.allocId
  match book.shapeReject placement, stopTerms placement.params with
  | none, none =>
    match book.matchQuantity placement with
    | .error _ => []
    | .ok quantity => book.placeMatchedMarks placement orderId quantity
  | _, _ => []

/-- The batch journals after all queues are done, one cancelled order after the other. -/
def unindexMarks : Indexes → List Order → List Mark
  | _, [] => []
  | indexes, order :: rest =>
    (match indexes.orderIndex order.id with
      | none => []
      | some location => removalMarks indexes location.levelKey order.id) ++
      unindexMarks (unindex indexes order.id) rest

def cancelEachMarks (book : Book) (id : Nat) : List Mark :=
  match book.indexes.orderIndex id with
  | none => []
  | some location =>
    match (book.ladder location.side).get location.price with
    | none => []
    | some queue =>
      match book.indexes.queuePosition queue id with
      | none => []
      | some _ => removalMarks book.indexes location.levelKey id

def cancelLoopMarks : Book × List Order → List Nat → List Mark
  | _, [] => []
  | state, id :: ids => state.1.cancelEachMarks id ++ cancelLoopMarks (cancelEach state id) ids

section Batch

variable (epochFits : LevelKey → Nat → Bool)

def cancelAllRestingMarks (book : Book) (trader : Address) : List Mark :=
  let ids := book.indexes.traderOrders trader
  let dropped := book.dropTrader trader
  match dropped.tryCancelAllBatch epochFits ids with
  | some (_, cancelled) => unindexMarks dropped.indexes cancelled
  | none => cancelLoopMarks (dropped, []) ids

def cancelAllMarks (book : Book) (trader : Address) : List Mark :=
  cancelAllRestingMarks epochFits (book.retainStops fun stop => decide (stop.trader ≠ trader))
    trader

def cancelAllEachMarks : Book → List Address → List Mark
  | _, [] => []
  | book, sender :: senders =>
    book.cancelAllMarks epochFits sender ++
      cancelAllEachMarks (book.cancelAll epochFits sender).1 senders

def cancelAllManyMarks (book : Book) (senders : List Address) : List Mark :=
  match book.planCancelAllMany epochFits senders with
  | some levels =>
    unindexMarks book.indexes (book.removeLevels (book.ownedIds senders).flatten levels).2
  | none => book.cancelAllEachMarks epochFits senders

end Batch

end Book

def Desk.marks (desk : Desk) : Op → List Mark
  | .place placement => desk.book.placeMarks placement
  | .placeTriggered id placement => Book.placeMarks { desk.book with nextId := id } placement
  | .cancelOrder id => desk.book.cancelMarks id
  | .cancelAll epochFits trader => desk.book.cancelAllMarks epochFits trader
  | .cancelAllMany epochFits senders => desk.book.cancelAllManyMarks epochFits senders
  | .sweepReduceOnlyAt trader signedPos => desk.book.sweepReduceOnlyAtMarks trader signedPos
  | .modifyOrder id newPrice newQty => desk.book.modifyMarks id newPrice newQty
  | .setReduceOnlyPositions _ | .setAccountMargins _ | .cancelStop _ | .takePendingStops _ => []

end TorusHyperBft.OrderBook
