import TorusHyperBft.Account.Row
import TorusHyperBft.OrderBook.Place

namespace TorusHyperBft.Executor

open FixedPoint OrderBook
open Account (NativeBalance)

/-! One order through the single-action path, and the stops its fills trigger.

The book is the book of the source.  What is read around it (listings, bands, positions, marks) and
how its result is settled are parameters: they decide whether and with what an order reaches the
book, and what becomes of balances and positions, but hold no book. -/

/-- The context of an execution; `rest` is what the parameters read and write beside it. -/
structure Context (ρ : Type) where
  books : AList (fun _ : MarketId => Book) := ∅
  balance : Address → NativeBalance := fun _ => {}
  marginConfigs : MarketId → MarginTiers := fun _ => none
  nextGlobalOrderId : Nat := 1
  timestamp : Nat := 0
  rest : ρ

/-- What a placement installs in the book for its duration. -/
structure Installed where
  positions : Option ReduceOnlyPositions := none
  accounts : AccountMargins := {}
  margin : Option TakerMarginLimit := none
  makers : Option MakerAccountSource := none

structure Around (ρ : Type) where
  /-- Market not listed, delisted or never marked, bad price, shape, band or reduce-only. -/
  preCheck : Context ρ → Address → PlaceOrderParams → Option FailureReason
  /-- The price and the quantity an order reserves margin for. -/
  reserveTerms : Context ρ → Address → PlaceOrderParams → Int × Int
  accountCheck : Context ρ → Address → PlaceOrderParams → Option FailureReason
  bookShape : Context ρ → MarketId → Int × Int
  install : Context ρ → Address → PlaceOrderParams → Book → Installed
  /-- The releases, the fills applied to positions, and the fees. -/
  settle : Context ρ → Address → PlaceOrderParams → Int → PlaceResult →
    (Address → NativeBalance) × ρ

def tryReserveForQty (tiers : MarginTiers) (price qty : Int) : Option Int :=
  if price ≤ 0 ∨ qty ≤ 0 then some 0
  else (checkedMul price qty).map (orderInitialMargin tiers)

/-- Move up to `amount` of the trader's order margin back to its available balance. -/
def releaseOrderMargin (balance : Address → NativeBalance) (trader : Address) (amount : Int) :
    Address → NativeBalance :=
  if amount ≤ 0 then balance
  else
    let held := balance trader
    let release := min amount held.orderMargin
    Function.update balance trader
      { available := held.available + release, orderMargin := held.orderMargin - release }

def reserveOrderMargin (balance : Address → NativeBalance) (trader : Address) (required : Int) :
    Address → NativeBalance :=
  if 0 < required then
    let held := balance trader
    Function.update balance trader
      { available := held.available - required, orderMargin := held.orderMargin + required }
  else balance

variable {ρ : Type}

/-- The placement on the book: what it is checked against is installed and cleared again, and a
triggered stop keeps its own id. -/
def placeOnBook (installed : Installed) (nextGlobalOrderId : Nat) (timestamp : Nat) (sender : Address)
    (params : PlaceOrderParams) (forcedId : Option Nat) (book : Book) : Book × Nat × PlaceResult :=
  let ready :=
    { book with
      reduceOnlyPositions := installed.positions.getD book.reduceOnlyPositions
      accountMargins := installed.accounts
      nextId := forcedId.getD nextGlobalOrderId }
  let (placed, result) := ready.placeOrder
    { params, trader := sender, timestamp, margin := installed.margin, makers := installed.makers }
  let cleared := { placed with reduceOnlyPositions := {}, accountMargins := {} }
  match forcedId with
  | some _ => ({ cleared with nextId := nextGlobalOrderId }, nextGlobalOrderId, result)
  | none => (cleared, cleared.nextId, result)

/-- `place_order_inner`, with the result of the book if the order reached it. -/
def placeOrderInner (around : Around ρ) (ctx : Context ρ) (sender : Address)
    (params : PlaceOrderParams) (forcedId : Option Nat) :
    Context ρ × Except FailureReason PlaceResult :=
  match around.preCheck ctx sender params with
  | some reason => (ctx, .error reason)
  | none =>
    let (price, qty) := around.reserveTerms ctx sender params
    match tryReserveForQty (ctx.marginConfigs params.marketId) price qty with
    | none => (ctx, .error .price)
    | some required =>
      match around.accountCheck ctx sender params with
      | some reason => (ctx, .error reason)
      | none =>
        let reserved :=
          { ctx with balance := reserveOrderMargin ctx.balance sender required }
        let shape := around.bookShape ctx params.marketId
        let book := (ctx.books.lookup params.marketId).getD
          (Book.new params.marketId shape.1 shape.2)
        let (book, nextGlobalOrderId, result) :=
          placeOnBook (around.install reserved sender params book) ctx.nextGlobalOrderId
            ctx.timestamp sender params forcedId book
        let placed :=
          { reserved with books := ctx.books.insert params.marketId book, nextGlobalOrderId }
        let (balance, rest) := around.settle placed sender params required result
        ({ placed with balance, rest }, .ok result)

def triggered : Except FailureReason PlaceResult → List TriggeredStop
  | .ok result => result.triggeredStops
  | .error _ => []

/-- A triggered stop gives its reservation back and is placed under its own id. -/
def fireStop (around : Around ρ) (ctx : Context ρ) (stop : TriggeredStop) :
    Context ρ × Except FailureReason PlaceResult :=
  let reserved := (tryReserveForQty (ctx.marginConfigs stop.params.marketId) stop.params.price
    stop.params.quantity).getD 0
  placeOrderInner around
    { ctx with balance := releaseOrderMargin ctx.balance stop.trader reserved }
    stop.trader stop.params (some stop.id)

/-- The queue of triggered stops, first in first out; stops that are fired in turn join it.  Also
returns the stops in the order they were placed; `none` where the fuel does not last. -/
def runTriggeredStops (around : Around ρ) :
    Nat → Context ρ → List TriggeredStop → Option (Context ρ × List TriggeredStop)
  | _, ctx, [] => some (ctx, [])
  | 0, _, _ :: _ => none
  | fuel + 1, ctx, stop :: queue =>
    let (ctx, outcome) := fireStop around ctx stop
    (runTriggeredStops around fuel ctx (queue ++ triggered outcome)).map fun (ctx, placed) =>
      (ctx, stop :: placed)

/-- `exec_place_order` past its checks of the client id and the open-order limit. -/
def execPlaceOrder (around : Around ρ) (fuel : Nat) (ctx : Context ρ) (sender : Address)
    (params : PlaceOrderParams) : Option (Context ρ × List TriggeredStop) :=
  let (ctx, outcome) := placeOrderInner around ctx sender params none
  runTriggeredStops around fuel ctx (triggered outcome)

end TorusHyperBft.Executor
