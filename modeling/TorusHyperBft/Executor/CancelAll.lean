import TorusHyperBft.Executor.Place
import TorusHyperBft.OrderBook.Events

namespace TorusHyperBft.Executor

open FixedPoint OrderBook
open Account (NativeBalance)

/-! Cancel-all over resident books: one action at a time, and a run of actions at once.

An index says in which markets a trader may have something.  A run takes the markets of all its
actions out of the index first, serves market after market, and then settles action after action. -/

/-- The cancel-all index: the markets of each trader, ascending. -/
structure TraderMarkets where
  markets : Address → List MarketId := fun _ => []
  ascending : ∀ trader, (markets trader).Pairwise (· < ·) := by intro; exact List.Pairwise.nil

namespace TraderMarkets

def setMarkets (index : TraderMarkets) (trader : Address) (markets : List MarketId)
    (ascending : markets.Pairwise (· < ·)) : TraderMarkets where
  markets := Function.update index.markets trader markets
  ascending other := by
    by_cases same : other = trader
    · subst same
      rwa [Function.update_self]
    · rw [Function.update_of_ne same]
      exact index.ascending other

def insertMarket (market : MarketId) : List MarketId → List MarketId
  | [] => [market]
  | head :: rest =>
    if market < head then market :: head :: rest
    else if market = head then head :: rest
    else head :: insertMarket market rest

theorem mem_insertMarket {market other : MarketId} {markets : List MarketId} :
    other ∈ insertMarket market markets ↔ other = market ∨ other ∈ markets := by
  induction markets with
  | nil => simp [insertMarket]
  | cons head rest ih =>
    unfold insertMarket
    split
    · simp
    · split
      · rename_i same
        simp [same]
      · simp only [List.mem_cons, ih]
        tauto

theorem insertMarket_ascending {market : MarketId} {markets : List MarketId}
    (ascending : markets.Pairwise (· < ·)) : (insertMarket market markets).Pairwise (· < ·) := by
  induction markets with
  | nil => simp [insertMarket]
  | cons head rest ih =>
    obtain ⟨below, tail⟩ := List.pairwise_cons.mp ascending
    unfold insertMarket
    split
    · rename_i before
      refine List.pairwise_cons.mpr ⟨fun other member => ?_, ascending⟩
      rcases List.mem_cons.mp member with same | later
      · exact same ▸ before
      · exact Nat.lt_trans before (below other later)
    · split
      · exact ascending
      · refine List.pairwise_cons.mpr ⟨fun other member => ?_, ih tail⟩
        rcases mem_insertMarket.mp member with same | later
        · rw [same]
          exact Nat.lt_of_le_of_ne (Nat.le_of_not_lt ‹_›) (Ne.symm ‹_›)
        · exact below other later

def insert (index : TraderMarkets) (trader : Address) (market : MarketId) : TraderMarkets :=
  index.setMarkets trader (insertMarket market (index.markets trader))
    (insertMarket_ascending (index.ascending trader))

def take (index : TraderMarkets) (trader : Address) : TraderMarkets × List MarketId :=
  (index.setMarkets trader [] List.Pairwise.nil, index.markets trader)

def remove (index : TraderMarkets) (trader : Address) (market : MarketId) : TraderMarkets × Bool :=
  if market ∈ index.markets trader then
    (index.setMarkets trader ((index.markets trader).erase market)
      ((index.ascending trader).sublist List.erase_sublist), true)
  else (index, false)

end TraderMarkets

/-- Every trader that has something on the book.  A trader that an index of the book lists has a
resting order. -/
def tradersPresent (book : Book) : List Address :=
  book.resting.map Order.trader ++ book.pendingStops.map StopOrder.trader

section Context

variable {hash : StreamingHash}

abbrev LoggedBooks (hash : StreamingHash) := AList fun _ : MarketId => LoggedBook hash

namespace TraderMarkets

def addPresent (index : TraderMarkets) (book : Book) (market : MarketId) : TraderMarkets :=
  (tradersPresent book).foldl (fun index trader => index.insert trader market) index

def build (books : LoggedBooks hash) : TraderMarkets :=
  books.entries.foldl (fun index row => index.addPresent row.2.book row.1) {}

end TraderMarkets

/-- The context of an execution, as cancel-alls see it. -/
structure CancelContext (hash : StreamingHash) where
  books : LoggedBooks hash := ∅
  balance : Address → NativeBalance := fun _ => {}
  marginConfigs : MarketId → MarginTiers := fun _ => none
  /-- The index; `none` until the first cancel-all after a load. -/
  traderMarkets : Option TraderMarkets := none
  dirtyBooks : Finset MarketId := ∅
  cancelCause : OrderEventReason := .user
  cancelAllWorkers : Nat := 1
  cancelAllMinVisits : Nat := 0

abbrev CancelAllAction := Address × Option MarketId

def cancelledOrdersMargin (tiers : MarginTiers) (cancelled : List Order) : Int :=
  (cancelled.map fun order => orderInitialMargin tiers (mul order.price order.remainingQty)).sum

def stopReservation (tiers : MarginTiers) (price qty : Int) : Int :=
  (tryReserveForQty tiers price qty).getD 0

def stopReservations (tiers : MarginTiers) (stops : List (Int × Int)) : Int :=
  (stops.map fun stop => stopReservation tiers stop.1 stop.2).sum

end Context

end TorusHyperBft.Executor

namespace TorusHyperBft.OrderBook.LoggedBook

variable {hash : StreamingHash}

/-- Take a trader's stops off the book, logged, and say what each of them had reserved. -/
def takePendingStops (logged : LoggedBook hash) (trader : Address) :
    LoggedBook hash × List (Int × Int) :=
  let taken := logged.book.pendingStops.filter fun stop => stop.trader = trader
  let (book, reserved) := logged.book.takePendingStops trader
  (taken.foldl (fun logged stop => logged.logStopRemoved stop logged.cancelCause)
    { logged with book }, reserved)

def takeAll (cause : OrderEventReason) (logged : LoggedBook hash) (trader : Address) :
    LoggedBook hash × List (Int × Int) × List Order :=
  let (taken, stops) := { logged with cancelCause := cause }.takePendingStops trader
  let (after, cancelled) := taken.cancelAll trader
  ({ after with cancelCause := logged.cancelCause }, stops, cancelled)

end TorusHyperBft.OrderBook.LoggedBook

namespace TorusHyperBft.Executor

open FixedPoint OrderBook

variable {hash : StreamingHash}

def cancelInMarket (trader : Address) (state : CancelContext hash × Int) (market : MarketId) :
    CancelContext hash × Int :=
  let (ctx, total) := state
  match ctx.books.lookup market with
  | none => (ctx, total)
  | some logged =>
    let (after, stops, cancelled) := logged.takeAll ctx.cancelCause trader
    let ctx := { ctx with books := ctx.books.insert market after }
    if stops = [] ∧ cancelled = [] then (ctx, total)
    else
      let tiers := ctx.marginConfigs market
      ({ ctx with dirtyBooks := insert market ctx.dirtyBooks },
        total + cancelledOrdersMargin tiers cancelled + stopReservations tiers stops)

def CancelContext.cancelIndex (ctx : CancelContext hash) : TraderMarkets :=
  ctx.traderMarkets.getD (.build ctx.books)

def TraderMarkets.visit (index : TraderMarkets) : CancelAllAction → TraderMarkets × List MarketId
  | (sender, some market) =>
    let (index, listed) := index.remove sender market
    (index, if listed then [market] else [])
  | (sender, none) => index.take sender

/-- With resident books only the markets that the index lists are visited; else every book is. -/
def cancelOrdersAndStops (resident : Bool) (ctx : CancelContext hash) (action : CancelAllAction) :
    CancelContext hash × Int :=
  if resident then
    let (index, markets) := ctx.cancelIndex.visit action
    markets.foldl (cancelInMarket action.1) ({ ctx with traderMarkets := some index }, 0)
  else
    let markets := match action.2 with
      | some market => [market]
      | none => ctx.books.keys.mergeSort fun left right => decide (left ≤ right)
    markets.foldl (cancelInMarket action.1) (ctx, 0)

def execCancelAll (resident : Bool) (ctx : CancelContext hash) (action : CancelAllAction) :
    CancelContext hash :=
  let (ctx, total) := cancelOrdersAndStops resident ctx action
  { ctx with balance := releaseOrderMargin ctx.balance action.1 total }

def takeVisits : TraderMarkets → Nat → List CancelAllAction →
    TraderMarkets × List (MarketId × Nat)
  | index, _, [] => (index, [])
  | index, place, action :: run =>
    let (index, markets) := index.visit action
    let (index, visits) := takeVisits index (place + 1) run
    (index, markets.map (fun market => (market, place)) ++ visits)

def visitLe (left right : MarketId × Nat) : Bool :=
  decide (left.1 < right.1) || (decide (left.1 = right.1) && decide (left.2 ≤ right.2))

def senderAt (run : List CancelAllAction) (place : Nat) : Address :=
  ((run[place]?).map Prod.fst).getD 0

structure Hit (α : Type) where
  place : Nat
  market : MarketId
  freed : α
  stops : Int

def takeStops : LoggedBook hash → List Address → LoggedBook hash × List (List (Int × Int))
  | logged, [] => (logged, [])
  | logged, sender :: senders =>
    let (taken, stops) := logged.takePendingStops sender
    let (last, rest) := takeStops taken senders
    (last, stops :: rest)

/-- One market's share of the run: the stops of all members, then their orders at once. -/
def cancelAllGroup (tiers : MarginTiers) (run : List CancelAllAction) (market : MarketId)
    (places : List Nat) (logged : LoggedBook hash) : LoggedBook hash × List (Hit (List Order)) :=
  let senders := places.map (senderAt run)
  let (taken, stops) := takeStops logged senders
  let (after, cancelled) := taken.cancelAllMany senders
  (after, ((places.zip stops).zip cancelled).filterMap fun ((place, stops), orders) =>
    if stops ≠ [] ∨ orders ≠ [] then
      some { place, market, freed := orders, stops := stopReservations tiers stops }
    else none)

def groups : List (MarketId × Nat) → List (MarketId × List Nat)
  | [] => []
  | (market, place) :: visits =>
    match groups visits with
    | [] => [(market, [place])]
    | (other, places) :: later =>
      if market = other then (market, place :: places) :: later
      else (market, [place]) :: (other, places) :: later

/-- Per action in run order: the markets it hit are dirty, and what it freed is released.  The
hits are ordered by place. -/
def settleHits {α : Type} (margin : MarketId → α → Int) :
    CancelContext hash → Nat → List CancelAllAction → List (Hit α) → CancelContext hash
  | ctx, _, [], _ => ctx
  | ctx, place, action :: run, hits =>
    let own := hits.takeWhile fun hit => hit.place = place
    let total := (own.map fun hit => margin hit.market hit.freed + hit.stops).sum
    settleHits margin
      { ctx with
        dirtyBooks := own.foldl (fun dirty hit => insert hit.market dirty) ctx.dirtyBooks
        balance := releaseOrderMargin ctx.balance action.1 total }
      (place + 1) run (hits.dropWhile fun hit => hit.place = place)

def hitLe {α : Type} (left right : Hit α) : Bool := decide (left.place ≤ right.place)

/-- One market after the other, each book put back before the next is served. -/
def serveSerially (run : List CancelAllAction)
    (state : CancelContext hash × List (Hit (List Order))) (group : MarketId × List Nat) :
    CancelContext hash × List (Hit (List Order)) :=
  let (ctx, hits) := state
  match ctx.books.lookup group.1 with
  | none => (ctx, hits)
  | some logged =>
    let (after, found) := cancelAllGroup (ctx.marginConfigs group.1) run group.1 group.2 logged
    ({ ctx with books := ctx.books.insert group.1 after }, hits ++ found)

def cancelAllJob (ctx : CancelContext hash) (run : List CancelAllAction)
    (group : MarketId × List Nat) : Option (MarketId × LoggedBook hash × List (Hit Int)) :=
  (ctx.books.lookup group.1).map fun logged =>
    let tiers := ctx.marginConfigs group.1
    let (after, found) := cancelAllGroup tiers run group.1 group.2 logged
    (group.1, after, found.map fun hit =>
      { place := hit.place, market := hit.market,
        freed := cancelledOrdersMargin tiers hit.freed, stops := hit.stops })

def cancelAllGroupsParallel (ctx : CancelContext hash) (run : List CancelAllAction)
    (groups : List (MarketId × List Nat)) : CancelContext hash × List (Hit Int) :=
  let done := groups.filterMap (cancelAllJob ctx run)
  ({ ctx with books := done.foldl (fun books job => books.insert job.1 job.2.1) ctx.books },
    done.flatMap fun job => job.2.2)

/-- A run of several actions: serially, or by jobs where there is enough to do. -/
def cancelAllAtOnce (ctx : CancelContext hash) (run : List CancelAllAction) : CancelContext hash :=
  let (index, visits) := takeVisits ctx.cancelIndex 0 run
  let ctx := { ctx with traderMarkets := some index }
  let visits := visits.mergeSort visitLe
  if 2 ≤ ctx.cancelAllWorkers ∧ ctx.cancelAllMinVisits ≤ visits.length ∧
      visits.head?.map Prod.fst ≠ visits.getLast?.map Prod.fst then
    let (ctx, hits) := cancelAllGroupsParallel ctx run (groups visits)
    settleHits (fun _ margin => margin) ctx 0 run (hits.mergeSort hitLe)
  else
    let (ctx, hits) := (groups visits).foldl (serveSerially run) (ctx, [])
    settleHits (fun market orders => cancelledOrdersMargin (ctx.marginConfigs market) orders)
      ctx 0 run (hits.mergeSort hitLe)

def execCancelAllRun (ctx : CancelContext hash) (run : List CancelAllAction) : CancelContext hash :=
  match run with
  | [action] => execCancelAll true ctx action
  | run => cancelAllAtOnce ctx run

end TorusHyperBft.Executor
