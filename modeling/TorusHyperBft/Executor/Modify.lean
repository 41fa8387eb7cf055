import TorusHyperBft.Executor.Place
import TorusHyperBft.Margin.Need

namespace TorusHyperBft.Executor

open FixedPoint OrderBook
open Account (NativeBalance)

/-! Changing a resting order: cancel and replace, checked like a placement before anything is touched.

What is read beside the books and the balances (marks, bands, positions) is a parameter; a read that
fails has no value. -/

/-- Why an order was not changed, with what the message names. -/
inductive ModifyError where
  | nothingToModify
  | notFound (id : Nat)
  | notOwner (id : Nat) (owner sender : Address)
  | neverMarked (marketId : MarketId)
  | priceNotPositive (price : Int)
  | offTick (price tick : Int)
  | priceBand (price : Int)
  | quantityNotPositive (qty : Int)
  | belowLot (qty lot : Int)
  | wouldCross (price : Int)
  | localFault
  | nothingToReduce
  | notionalOverflows (price qty : Int)
  | insufficientMargin (need free : Int)
  | core (error : CoreError)
deriving DecidableEq

structure ModifyReads (ρ : Type) where
  everMarked : Context ρ → MarketId → Bool
  /-- The price of the order lies outside of the band of the market. -/
  outsideBand : Context ρ → MarketId → PlaceOrderParams → Bool
  signedPosition : Context ρ → Address → MarketId → Option Int
  /-- The signed position and the price it is valued at. -/
  positionPx : Context ρ → Address → MarketId → Option (Int × Int)
  posNet : Context ρ → Address → Option Int

variable {ρ : Type}

def findOrder (ctx : Context ρ) (id : Nat) : Option (MarketId × Book × Order) :=
  ctx.books.entries.findSome? fun row =>
    (row.2.getOrder id).map fun order => (row.1, row.2, order)

/-- The terms an order is changed to, and the position a reduce-only order is clamped to. -/
structure ModifyTerms where
  price : Int
  qty : Int
  roPos : Option Int

def checkPrice (reads : ModifyReads ρ) (ctx : Context ρ) (marketId : MarketId) (book : Book)
    (old : Order) (price : Int) : Except ModifyError Unit :=
  if price ≤ 0 then .error (.priceNotPositive price)
  else if price = old.price then .ok ()
  else if 0 < book.tickSize ∧ price.tmod book.tickSize ≠ 0 then .error (.offTick price book.tickSize)
  else if reads.outsideBand ctx marketId
      { marketId, isBuy := old.isBuy, price, quantity := old.remainingQty, orderType := .limit,
        timeInForce := old.timeInForce, reduceOnly := old.reduceOnly, clientOrderId := none } then
    .error (.priceBand price)
  else .ok ()

/-- The lot applies to the requested quantity; the clamp to the position may land under it. -/
def checkQuantity (book : Book) (newQty : Option Int) (qty : Int) : Except ModifyError Unit :=
  if qty ≤ 0 then .error (.quantityNotPositive qty)
  else if newQty.isSome ∧ qty < book.lotSize then .error (.belowLot qty book.lotSize)
  else .ok ()

def crosses (book : Book) (isBuy : Bool) (price : Int) : Bool :=
  if isBuy then book.bestAsk.any fun ask => decide (ask ≤ price)
  else book.bestBid.any fun bid => decide (price ≤ bid)

def clampToPosition (reads : ModifyReads ρ) (ctx : Context ρ) (sender : Address)
    (marketId : MarketId) (old : Order) (price qty : Int) : Except ModifyError ModifyTerms :=
  if old.reduceOnly then
    match reads.signedPosition ctx sender marketId with
    | none => .error .localFault
    | some pos =>
      let allowance := reduceOnlyAllowance pos old.isBuy
      if allowance = 0 then .error .nothingToReduce
      else .ok { price, qty := min qty allowance, roPos := some pos }
  else .ok { price, qty, roPos := none }

def checkModify (reads : ModifyReads ρ) (ctx : Context ρ) (sender : Address) (marketId : MarketId)
    (book : Book) (old : Order)
    (newPrice newQty : Option Int) : Except ModifyError ModifyTerms := do
  if old.trader ≠ sender then throw (.notOwner old.id old.trader sender)
  if !reads.everMarked ctx marketId then throw (.neverMarked marketId)
  let price := newPrice.getD old.price
  checkPrice reads ctx marketId book old price
  let qty := newQty.getD old.remainingQty
  checkQuantity book newQty qty
  if crosses book old.isBuy price then throw (.wouldCross price)
  clampToPosition reads ctx sender marketId old price qty

/-- The new order's need, less what the old order gives back, must fit the free margin of the account.
Reduce-only orders only reduce. -/
def modifyGate (reads : ModifyReads ρ) (ctx : Context ρ) (sender : Address) (marketId : MarketId)
    (old : Order) (price qty oldReserved : Int) : Except Panic (Option ModifyError) :=
  if old.reduceOnly then .ok none
  else
    match reads.positionPx ctx sender marketId, reads.posNet ctx sender with
    | some (signed, px), some posNet => do
        let px := if 0 < px then px else price
        let need := fun qty price =>
          placementNeed (ctx.marginConfigs marketId) signed px old.isBuy qty price true
        match ← (need qty price).run with
        | none => return some (.notionalOverflows price qty)
        | some needNew =>
          let oldNeed ← (need old.remainingQty old.price).run
          let oldCost := (oldNeed.map fun needOld => max needOld oldReserved).getD oldReserved
          let delta := needNew - oldCost
          let free := (ctx.balance sender).available + posNet
          if 0 < needNew ∧ 0 < delta ∧ free < delta then
            return some (.insufficientMargin delta free)
          return none
    | _, _ => .ok (some .localFault)

def reserveForQty (tiers : MarginTiers) (price qty : Int) : Int :=
  if price ≤ 0 ∨ qty ≤ 0 then 0 else orderInitialMargin tiers (mul price qty)

/-- What is released for a cut: the reservation of the order before it, less that of what is left. -/
def cutRelease (tiers : MarginTiers) (swept : Book) (cut : ReduceOnlyCut) : Int :=
  let left := ((swept.getOrder cut.orderId).map Order.remainingQty).getD 0
  reserveForQty tiers cut.price (left + cut.qty) - reserveForQty tiers cut.price left

/-- A reduce-only modification re-fits the sender's reduce-only orders, the modified one included. -/
def sweepReduceOnlyAfterModify (ctx : Context ρ) (sender : Address) (marketId : MarketId) (pos : Int) :
    Context ρ :=
  match ctx.books.lookup marketId with
  | none => ctx
  | some book =>
    let (swept, cuts) := book.sweepReduceOnlyAt sender pos
    let releases := cuts.map (cutRelease (ctx.marginConfigs marketId) swept)
    { ctx with
      books := ctx.books.insert marketId swept
      balance := releases.foldl
        (fun balance release => releaseOrderMargin balance sender release) ctx.balance }

def sweepIfReduceOnly (ctx : Context ρ) (sender : Address) (marketId : MarketId) (roPos : Option Int) :
    Context ρ :=
  match roPos with
  | none => ctx
  | some pos => sweepReduceOnlyAfterModify ctx sender marketId pos

/-- The reservation is moved, the book changed, and what is no longer needed released. -/
def applyModify (ctx : Context ρ) (sender : Address) (marketId : MarketId) (book : Book) (old : Order)
    (terms : ModifyTerms) (extra : Int) : Context ρ × Except ModifyError Unit :=
  let reserved := { ctx with balance := reserveOrderMargin ctx.balance sender extra }
  let (book, modified) := book.modifyOrder old.id
    (if terms.price ≠ old.price then some terms.price else none)
    (if terms.qty ≠ old.remainingQty then some terms.qty else none)
  let changed := { reserved with books := ctx.books.insert marketId book }
  match modified with
  | .error error =>
    ({ changed with balance := releaseOrderMargin changed.balance sender extra },
      .error (.core error))
  | .ok _ =>
    (sweepIfReduceOnly { changed with
      balance := releaseOrderMargin changed.balance sender (-extra) } sender marketId terms.roPos,
      .ok ())

def execModifyOrder (reads : ModifyReads ρ) (ctx : Context ρ) (sender : Address) (id : Nat)
    (newPrice newQty : Option Int) : Except Panic (Context ρ × Except ModifyError Unit) :=
  if newPrice.isNone ∧ newQty.isNone then .ok (ctx, .error .nothingToModify)
  else
    match findOrder ctx id with
    | none => .ok (ctx, .error (.notFound id))
    | some (marketId, book, old) =>
      match checkModify reads ctx sender marketId book old newPrice newQty with
      | .error error => .ok (ctx, .error error)
      | .ok terms =>
        if terms.price = old.price ∧ terms.qty = old.remainingQty then
          .ok (sweepIfReduceOnly ctx sender marketId terms.roPos, .ok ())
        else
          let tiers := ctx.marginConfigs marketId
          let oldReserved := (tryReserveForQty tiers old.price old.remainingQty).getD 0
          match tryReserveForQty tiers terms.price terms.qty with
          | none => .ok (ctx, .error (.notionalOverflows terms.price terms.qty))
          | some newReserved =>
            (modifyGate reads ctx sender marketId old terms.price terms.qty oldReserved).map
              fun
              | some error => (ctx, .error error)
              | none => applyModify ctx sender marketId book old terms
                  (newReserved - oldReserved)

end TorusHyperBft.Executor
