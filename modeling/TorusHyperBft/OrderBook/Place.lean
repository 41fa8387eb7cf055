import TorusHyperBft.OrderBook.Match

namespace TorusHyperBft.OrderBook

open FixedPoint

/-! Placing an order: the checks before matching, the fill-or-kill walk, matching, the
reduce-only sweep and the outcome. -/

structure Placement where
  params : PlaceOrderParams
  trader : Address
  timestamp : Nat
  margin : Option TakerMarginLimit := none
  makers : Option MakerAccountSource := none
  cloidChecked : Bool := false

def StopOrder.fires (stop : StopOrder) (price : Int) : Bool :=
  match stop.side with
  | .buy => decide (stop.triggerPrice ≤ price)
  | .sell => decide (price ≤ stop.triggerPrice)

def StopOrder.triggered (stop : StopOrder) : TriggeredStop where
  id := stop.id
  trader := stop.trader
  timestamp := stop.timestamp
  params :=
    { marketId := stop.marketId
      isBuy := decide (stop.side = .buy)
      price := stop.limitPrice.getD stop.priceCap
      quantity := stop.quantity
      orderType := if stop.limitPrice.isSome then .limit else .market
      timeInForce := stop.timeInForce
      reduceOnly := stop.reduceOnly
      clientOrderId := stop.clientOrderId }

structure Sweep where
  book : Book
  cuts : List ReduceOnlyCut
  budget : Int

def sweepKeep (reducesBuy : Bool) (budget : Int) (order : Order) : Int :=
  if 0 < budget ∧ order.isBuy = reducesBuy then min order.remainingQty budget else 0

def sweepOrder (trader : Address) (reducesBuy : Bool) (sweep : Sweep) (id : Nat) : Sweep :=
  match sweep.book.getOrder id with
  | none => { sweep with book := sweep.book.forgetReduceOnly trader id }
  | some order =>
    let keep := sweepKeep reducesBuy sweep.budget order
    let budget := sweep.budget - keep
    if keep = order.remainingQty then { sweep with budget }
    else
      let (book, applied) :=
        if keep = 0 then sweep.book.cancelOrder id
        else sweep.book.modifyOrder id none (some keep)
      match applied with
      | .error _ => { sweep with book, budget }
      | .ok _ =>
        { book, budget
          cuts := sweep.cuts ++
            [{ orderId := id, trader, price := order.price, qty := order.remainingQty - keep }] }

namespace Book

/-- Re-fit a policed trader's resting reduce-only orders to its position, oldest first.
Returns what the position still allows. -/
def sweepReduceOnly (book : Book) (trader : Address) (cuts : List ReduceOnlyCut) :
    Book × List ReduceOnlyCut × Option Int :=
  match book.reduceOnlyPositions.get trader with
  | none => (book, cuts, none)
  | some position =>
    let reducesBuy := decide (position < 0)
    let budget := if reducesBuy then -position else position
    let sweep := (book.reduceOnlyIndex trader).foldl (sweepOrder trader reducesBuy)
      { book, cuts, budget }
    (sweep.book, sweep.cuts, some sweep.budget)

/-- The placement sweep for one trader at a given position, outside a placement. -/
def sweepReduceOnlyAt (book : Book) (trader : Address) (signedPos : Int) :
    Book × List ReduceOnlyCut :=
  let saved := book.reduceOnlyPositions
  let policed := { book with reduceOnlyPositions := ({} : ReduceOnlyPositions).insert trader signedPos }
  let (book, cuts, _) := policed.sweepReduceOnly trader []
  ({ book with reduceOnlyPositions := saved }, cuts)

def sweepNext (taker : Address) (state : Book × List ReduceOnlyCut × Option Int)
    (trader : Address) : Book × List ReduceOnlyCut × Option Int :=
  let (book, cuts, left) := state
  let (book, cuts, budget) := book.sweepReduceOnly trader cuts
  (book, cuts, if trader = taker then budget else left)

/-- Sweep every touched trader; keeps what the taker's position still allows. -/
def sweepTouched (book : Book) (traders : List Address) (taker : Address)
    (cuts : List ReduceOnlyCut) : Book × List ReduceOnlyCut × Option Int :=
  traders.foldl (sweepNext taker) (book, cuts, none)

def retainStops (book : Book) (keep : StopOrder → Bool) : Book :=
  let gone := book.pendingStops.filter fun stop => !keep stop
  { book with
    pendingStops := book.pendingStops.filter keep
    indexes := gone.foldl
      (fun indexes stop => indexes.forgetCloid stop.trader stop.clientOrderId stop.id) book.indexes }

def triggerStops (book : Book) : Book × List TriggeredStop :=
  match book.lastTradePrice with
  | none => (book, [])
  | some price =>
    (book.retainStops fun stop => !stop.fires price,
      (book.pendingStops.filter fun stop => stop.fires price).map StopOrder.triggered)

end Book

/-- A read-only walk of the makers a fill-or-kill order would meet, on copies of the
running accounts and positions. -/
structure FokWalk where
  remaining : Int
  notional : Option Int := some 0
  loss : MarkLoss := .zero
  walked : Address → Option Int := fun _ => none
  free : Int
  accounts : AccountMargins
  positions : ReduceOnlyPositions

structure FokRequest where
  env : MatchEnv
  trader : Address
  side : Side
  policed : ReduceOnlyPositions
  unchecked : Option Int
  takerMark : Option (Int × MarginTiers)

namespace FokRequest

/-- The two running-account checks of one step: `none` ends the walk, `some (false, _)`
skips the maker. -/
def checkAccounts (request : FokRequest) (order : Order) (take : Int) (walk : FokWalk) :
    Option (Bool × FokWalk) :=
  match request.env.makers with
  | none => some (true, walk)
  | some source =>
    if 0 < take then
      let (fits, accounts, positions) := makerFillFits walk.accounts walk.positions source
        request.env.marketId order.trader order.isBuy order.price take order.remainingQty
      if fits then
        let positions := positions.applyFill order.trader order.isBuy take
        match request.unchecked with
        | none => some (true, { walk with accounts, positions })
        | some reserved =>
          let takerBuy := decide (request.side = .buy)
          let (paid, accounts, positions) := accountFill accounts positions source
            request.env.marketId request.trader takerBuy order.price take none (some reserved) true
          if paid then
            some (true, { walk with
              accounts, positions := positions.applyFill request.trader takerBuy take })
          else none
      else some (false, { walk with accounts, positions })
    else some (true, walk)

def addLoss (request : FokRequest) (price take closing : Int) (loss : MarkLoss) : Option MarkLoss :=
  match request.takerMark with
  | none => some loss
  | some (mark, tiers) => do
      let step ← markLoss tiers mark (decide (request.side = .buy)) price take closing
      return {
        loss := ← checkedAdd loss.loss step.loss
        tolOpen := ← checkedAdd loss.tolOpen step.tolOpen
        charge := ← checkedAdd loss.charge step.charge }

def position (request : FokRequest) (walk : FokWalk) (trader : Address) : Option Int :=
  (walk.walked trader).or (request.policed.get trader)

def fillable (request : FokRequest) (walk : FokWalk) (order : Order) : Int :=
  match request.position walk order.trader with
  | none => order.remainingQty
  | some position =>
    if order.reduceOnly then
      min order.remainingQty (reduceOnlyAllowance position order.isBuy)
    else order.remainingQty

def walkMakers (request : FokRequest) : List Order → FokWalk → Option (Option Int × MarkLoss)
  | [], _ => none
  | order :: rest, walk =>
    if order.trader = request.trader then request.walkMakers rest walk
    else
      let position := request.position walk order.trader
      let take := min walk.remaining (request.fillable walk order)
      match request.checkAccounts order take walk with
      | none => none
      | some (false, walk) => request.walkMakers rest walk
      | some (true, walk) =>
        let walked := match position with
          | none => walk.walked
          | some position =>
            Function.update walk.walked order.trader
              (some (position + if order.isBuy then take else -take))
        let closing := min take walk.free
        match request.addLoss order.price take closing walk.loss with
        | none => none
        | some loss =>
          let notional := walk.notional.bind fun notional =>
            (checkedMul order.price (take - closing)).bind fun opened =>
              checkedAdd notional opened
          let walk := { walk with
            walked, loss, notional
            free := walk.free - closing
            remaining := walk.remaining - take }
          if walk.remaining ≤ 0 then some (walk.notional, walk.loss)
          else request.walkMakers rest walk

end FokRequest

namespace Book

def canFillCompletely (book : Book) (request : FokRequest) (price quantity free : Int) :
    Option (Option Int × MarkLoss) :=
  let makerSide := request.side.opposite
  let reachable := (book.ladder makerSide).takeWhile fun level =>
    withinLimit makerSide level.1 price
  request.walkMakers (reachable.flatMap Prod.snd)
    { remaining := quantity, free, accounts := book.accountMargins
      positions := book.reduceOnlyPositions }

/-- The complete fill's need against the taker's limit; a charged one that fits skips the
checks during matching. -/
def fokFits (margin : Option MatchMargin) (quantity free : Int)
    (walk : Option (Option Int × MarkLoss)) : Bool × Option MatchMargin :=
  match walk with
  | none => (false, margin)
  | some (notional, loss) =>
    match margin with
    | none => (true, none)
    | some limit =>
      let need : Option Int := do
        let notional ← notional
        let kept ← checkedMul (limit.size0 - min quantity free) limit.px
        let after ← checkedAdd kept notional
        let before ← limit.before
        return imDelta limit.limit.tiers before after
      if loss.charge = 0 then
        (decide (quantity ≤ free) || (need.map limit.fits).getD false, some limit)
      else
        match need.bind fun need => checkedAdd need loss.loss with
        | none => (false, some limit)
        | some cost =>
          let fits : Bool :=
            if free < quantity then ((checkedSub cost loss.tolOpen).map limit.fits).getD false
            else limit.fits cost || decide (cost ≤ 0)
          (fits, some { limit with prechecked := fits })

def shapeReject (book : Book) (placement : Placement) : Option FailureReason :=
  let params := placement.params
  let duplicate := match params.clientOrderId with
    | none => false
    | some cloid =>
      !placement.cloidChecked && (book.indexes.cloids placement.trader cloid).isSome
  let priceInvalid := match params.orderType with
    | .stopLimit _ limit => decide (limit ≤ 0)
    | _ => decide (params.price ≤ 0)
  let offTick (price : Int) := decide (0 < book.tickSize ∧ price.tmod book.tickSize ≠ 0)
  let tickInvalid := match params.orderType with
    | .limit => offTick params.price
    | .stopLimit _ limit => offTick limit
    | _ => false
  if duplicate then some .duplicateCloid
  else if params.quantity < book.lotSize then some .lot
  else if priceInvalid then some .price
  else if tickInvalid then some .tick
  else none

def stopTerms (params : PlaceOrderParams) : Option (Int × Option Int × Int) :=
  match params.orderType with
  | .stopMarket trigger => some (trigger, none, params.price)
  | .stopLimit trigger limit => some (trigger, some limit, 0)
  | _ => none

/-- A stop must lie ahead of the last trade, and a policed reduce-only one must be able to
reduce the position. -/
def stopReject (book : Book) (placement : Placement) (trigger : Int) : Option FailureReason :=
  let params := placement.params
  let invalidTrigger := match book.lastTradePrice with
    | none => false
    | some current =>
      match params.side with
      | .buy => decide (trigger ≤ current)
      | .sell => decide (current ≤ trigger)
  let useless := params.reduceOnly && (match book.reduceOnlyPositions.get placement.trader with
    | none => false
    | some position => decide (reduceOnlyAllowance position params.isBuy ≤ 0))
  if invalidTrigger then some .badTriggerPx
  else if useless then some .reduceOnly
  else none

def stopOrder (placement : Placement) (orderId : Nat) (trigger : Int) (limitPrice : Option Int)
    (priceCap : Int) : StopOrder where
  id := orderId
  trader := placement.trader
  marketId := placement.params.marketId
  side := placement.params.side
  triggerPrice := trigger
  limitPrice
  priceCap
  quantity := placement.params.quantity
  timeInForce := placement.params.timeInForce
  timestamp := placement.timestamp
  reduceOnly := placement.params.reduceOnly
  clientOrderId := placement.params.clientOrderId

def placeStop (book : Book) (placement : Placement) (orderId : Nat) (trigger : Int)
    (limitPrice : Option Int) (priceCap : Int) : Book × PlaceResult :=
  match book.stopReject placement trigger with
  | some reason => (book, .rejected orderId reason)
  | none =>
    ({ book with
        indexes := book.indexes.indexCloid placement.trader placement.params.clientOrderId orderId
        pendingStops :=
          book.pendingStops ++ [stopOrder placement orderId trigger limitPrice priceCap] },
      { orderId, status := .pendingTrigger, restedQty := placement.params.quantity })

def matchQuantity (book : Book) (placement : Placement) : Except FailureReason Int :=
  let params := placement.params
  if params.timeInForce = .postOnly ∧ book.wouldCross params.side params.price then
    .error .badAloPx
  else if params.orderType = .market ∧ (book.ladder params.side.opposite).isEmpty then
    .error .marketNoLiquidity
  else if params.reduceOnly then
    match book.reduceOnlyPositions.get placement.trader with
    | none => .ok params.quantity
    | some position =>
      let allowed := reduceOnlyAllowance position params.isBuy
      if allowed ≤ 0 then .error .reduceOnly else .ok (min params.quantity allowed)
  else .ok params.quantity

def takerOrder (placement : Placement) (orderId : Nat) (quantity : Int) : Order where
  id := orderId
  trader := placement.trader
  side := placement.params.side
  price := placement.params.price
  remainingQty := quantity
  originalQty := quantity
  orderType := placement.params.orderType
  timeInForce := placement.params.timeInForce
  timestamp := placement.timestamp
  reduceOnly := placement.params.reduceOnly
  clientOrderId := placement.params.clientOrderId

def matchMargin (book : Book) (placement : Placement) (limit : TakerMarginLimit) : MatchMargin :=
  let signed := (book.reduceOnlyPositions.get placement.trader).getD 0
  let entry := book.accountMargins.traders placement.trader
  let px := match entry.taker with
    | none => 0
    | some account => if 0 < account.px then account.px else book.lastTradePrice.getD 0
  let size0 := if signed < 0 then -signed else signed
  { limit
    lot := book.lotSize
    size0
    px
    allowance0 := reduceOnlyAllowance signed placement.params.isBuy
    before := checkedMul size0 px
    budget := limit.budget + (entry.taker.map AccountMargin.free).getD 0
    takerOnly := entry.takerOnly
    mark := book.accountMargins.mark
    isBuy := placement.params.isBuy }

def canRest (params : PlaceOrderParams) : Bool :=
  decide (params.orderType = .limit) &&
    (decide (params.timeInForce = .gtc) || decide (params.timeInForce = .postOnly))

def uncheckedTaker (book : Book) (placement : Placement) : Option UncheckedTaker :=
  match placement.margin, placement.makers, book.accountMargins.mark with
  | none, some _, some _ =>
    let params := placement.params
    let sharePrice := if canRest params then some params.price else none
    let reserved := match sharePrice, book.accountMargins.preBatch with
      | some price, true =>
        match checkedMul price params.quantity with
        | none => maxRaw
        | some notional => orderInitialMargin book.accountMargins.tiers notional
      | _, _ => 0
    some { lot := book.lotSize, sharePrice, reserved }
  | _, _, _ => none

def applyMatch (book : Book) (makerSide : Side) (ladder : Ladder) (matched : Matching) : Book :=
  { book.setLadder makerSide ladder with
    indexes := matched.indexes
    reduceOnlyPositions := matched.positions
    accountMargins := matched.accounts
    lastTradePrice := match matched.fills.getLast? with
      | none => book.lastTradePrice
      | some fill => some fill.price }

/-- Makers that matching removed leave the reduce-only index: self-trade cancels, cut and
margin-cancelled orders, and fully filled ones. -/
def dropReduceOnly (book : Book) (matching : Matching) : Book :=
  let cancelled := (matching.selfTradeCancels.filter Order.reduceOnly).map
    fun order => (order.trader, order.id)
  let cut := (matching.reduceOnlyCuts ++ matching.marginCancels).map
    fun cut => (cut.trader, cut.orderId)
  let filled := (matching.fills.filter fun fill =>
    (book.indexes.orderIndex fill.makerOrderId).isNone).map
      fun fill => (fill.maker, fill.makerOrderId)
  let gone := cancelled ++ cut ++ filled
  { book with
    reduceOnlyIndex := fun trader =>
      (book.reduceOnlyIndex trader).filter fun id => (trader, id) ∉ gone }

def afterMatch (book : Book) (makerSide : Side) (ladder : Ladder) (matched : Matching) : Book :=
  (book.applyMatch makerSide ladder matched).dropReduceOnly matched

/-- Traders whose resting reduce-only orders have to be re-fitted, ascending. -/
def touchedTraders (taker : Address) (fills : List Fill) : List Address :=
  fills.foldl (fun traders fill => insertId fill.taker (insertId fill.maker traders)) [taker]

/-- Re-fit the reduce-only orders of everyone whose position the fills moved, and of the
placing trader. -/
def sweepMatched (book : Book) (placement : Placement) (matched : Matching) :
    Book × List ReduceOnlyCut × Option Int :=
  if book.reduceOnlyPositions.isEmpty then (book, matched.reduceOnlyCuts, none)
  else book.sweepTouched (touchedTraders placement.trader matched.fills) placement.trader
    matched.reduceOnlyCuts

/-- What is charged to the taker's running free margin once its order is settled. -/
def chargeTaker (book : Book) (placement : Placement) (margin : Option MatchMargin)
    (restedQty : Int) : Book :=
  match margin, (book.accountMargins.traders placement.trader).taker with
  | some margin, some account =>
    let freeNow := book.reduceOnlyPositions.allowance placement.trader placement.params.isBuy
    let spent : Option Int := do
      let delta ← margin.need 0 0 freeNow freeNow
      let kept ← match margin.limit.holdPrice with
        | none => some 0
        | some hold => (checkedMul hold restedQty).map (orderInitialMargin margin.limit.tiers)
      checkedAdd (← checkedAdd delta kept) margin.adverse
    let free := account.free - margin.overReservation (spent.getD margin.budget)
    { book with accountMargins := book.accountMargins.setFree placement.trader free }
  | _, _ => book

def cancelReason (placement : Placement) (exhausted : Bool) : FailureReason :=
  if exhausted then .margin
  else if placement.params.orderType = .market then .marketNoLiquidity
  else if placement.params.timeInForce = .fok then .fokCancel
  else .iocCancel

/-- A resting reduce-only remainder keeps only what the trader's older orders left of the
position. -/
def restQuantity (order : Order) (left : Option Int) : Int :=
  match order.reduceOnly, left with
  | true, some left => min order.remainingQty left
  | _, _ => order.remainingQty

def settle (book : Book) (placement : Placement) (order : Order) (exhausted unfilled : Bool)
    (left : Option Int) : Book × OrderStatus × Int × Option FailureReason :=
  if order.remainingQty = 0 then (book, .filled, 0, none)
  else if placement.params.orderType = .market ∨ exhausted ∨
      placement.params.timeInForce = .ioc ∨ placement.params.timeInForce = .fok then
    (book, .cancelled, 0, if unfilled then some (cancelReason placement exhausted) else none)
  else
    let remaining := restQuantity order left
    if remaining = 0 then
      if unfilled then (book, .rejected, 0, some .reduceOnly) else (book, .cancelled, 0, none)
    else
      (book.insertOrder { order with remainingQty := remaining },
        if unfilled then .resting else .partiallyFilled, remaining, none)

def startMatching (book : Book) (placement : Placement) (order : Order)
    (margin : Option MatchMargin) : Matching where
  taker := order
  margin
  unchecked := book.uncheckedTaker placement
  positions := book.reduceOnlyPositions
  accounts := book.accountMargins
  indexes := book.indexes

def fireStops (book : Book) (fills : List Fill) : Book × List TriggeredStop :=
  if fills.isEmpty then (book, []) else book.triggerStops

def finish (book : Book) (placement : Placement) (matched : Matching)
    (cuts : List ReduceOnlyCut) (left : Option Int) : Book × PlaceResult :=
  let (book, status, restedQty, reject) := book.settle placement matched.taker matched.exhausted
    matched.fills.isEmpty left
  let book := book.chargeTaker placement matched.margin restedQty
  let (book, triggeredStops) := book.fireStops matched.fills
  (book,
    { orderId := matched.taker.id
      status
      fills := matched.fills
      selfTradeCancels := matched.selfTradeCancels
      restedQty
      reduceOnlyCuts := cuts
      triggeredStops
      marginCancels := matched.marginCancels
      marginCutPrice := matched.cutPrice
      reject })

def matchOrder (book : Book) (placement : Placement) (order : Order)
    (margin : Option MatchMargin) : Book × PlaceResult :=
  let makerSide := order.side.opposite
  let env : MatchEnv := { marketId := book.marketId, makers := placement.makers }
  let (ladder, matched) := executeMatch env makerSide (book.ladder makerSide)
    (book.startMatching placement order margin)
  let book := book.afterMatch makerSide ladder matched
  let (book, cuts, left) := book.sweepMatched placement matched
  book.finish placement matched cuts left

def fokRequest (book : Book) (placement : Placement) (margin : Option MatchMargin) : FokRequest where
  env := { marketId := book.marketId, makers := placement.makers }
  trader := placement.trader
  side := placement.params.side
  policed := book.reduceOnlyPositions
  unchecked := (book.uncheckedTaker placement).map UncheckedTaker.reserved
  takerMark := margin.bind fun margin => margin.mark.map fun mark => (mark, margin.limit.tiers)

/-- An order that enters matching with `quantity`, after the fill-or-kill pre-check. -/
def placeMatched (book : Book) (placement : Placement) (orderId : Nat) (quantity : Int) :
    Book × PlaceResult :=
  let order := takerOrder placement orderId quantity
  let margin := placement.margin.map (book.matchMargin placement)
  if placement.params.timeInForce = .fok then
    let free := book.reduceOnlyPositions.allowance placement.trader placement.params.isBuy
    let (fits, margin) := fokFits margin quantity free
      (book.canFillCompletely (book.fokRequest placement margin) placement.params.price quantity free)
    if fits then book.matchOrder placement order margin
    else (book, .rejected orderId .fokCancel)
  else book.matchOrder placement order margin

def allocId (book : Book) : Book := { book with nextId := book.nextId + 1 }

def placeOrder (book : Book) (placement : Placement) : Book × PlaceResult :=
  let orderId := book.nextId
  let book := book.allocId
  match book.shapeReject placement with
  | some reason => (book, .rejected orderId reason)
  | none =>
    match stopTerms placement.params with
    | some (trigger, limitPrice, priceCap) =>
      book.placeStop placement orderId trigger limitPrice priceCap
    | none =>
      match book.matchQuantity placement with
      | .error reason => (book, .rejected orderId reason)
      | .ok quantity => book.placeMatched placement orderId quantity

end Book

end TorusHyperBft.OrderBook
