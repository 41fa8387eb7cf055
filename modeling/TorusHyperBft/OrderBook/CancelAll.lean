import TorusHyperBft.OrderBook.CancelBatch
import TorusHyperBft.OrderBook.Placed

namespace TorusHyperBft.OrderBook

/-! Cancelling everything that traders have on a book.

The original loop takes one order after the other.  Deep levels go through a plan instead:
all targets are located first, and each level is then emptied of its targets at once. -/

@[ext]
structure LevelKey where
  side : Side
  price : Int
deriving DecidableEq

def sideTag : Side → Nat
  | .buy => 0
  | .sell => 1

def keyedLe (left right : LevelKey × Target) : Bool :=
  if sideTag left.1.side = sideTag right.1.side then
    if left.1.price = right.1.price then decide (left.2.position ≤ right.2.position)
    else decide (left.1.price < right.1.price)
  else decide (sideTag left.1.side < sideTag right.1.side)

def groupLevels : List (LevelKey × Target) → List (LevelKey × List Target)
  | [] => []
  | (key, target) :: rest =>
    match groupLevels rest with
    | [] => [(key, [target])]
    | (other, targets) :: groups =>
      if key = other then (key, target :: targets) :: groups
      else (key, [target]) :: (other, targets) :: groups

namespace Book

section Batch

-- Whether a level's epoch can count so many removals.
variable (epochFits : LevelKey → Nat → Bool)

def cancelBatchHasConcentratedPrefix (book : Book) (ids : List Nat) : Bool :=
  let rec sample (first : OrderLocation) (sameLevel : Nat) : List Nat → Bool
    | [] => false
    | id :: rest =>
      match book.indexes.orderIndex id with
      | none => false
      | some location =>
        if location = first then
          if sameLevel + 1 = 4 then true else sample first (sameLevel + 1) rest
        else sample first sameLevel rest
  match ids with
  | [] => false
  | id :: rest =>
    match book.indexes.orderIndex id with
    | none => false
    | some first =>
      match (book.ladder first.side).get first.price with
      | none => false
      | some queue => decide (1024 ≤ queue.length) && sample first 1 (rest.take 31)

def planTarget (book : Book) (output id : Nat) : Option (LevelKey × Target) := do
  let location ← book.indexes.orderIndex id
  let queue ← (book.ladder location.side).get location.price
  let seq ← book.indexes.orderSeq id
  let position := (queue.takeWhile fun order =>
    match book.indexes.orderSeq order.id with
    | none => false
    | some other => decide (other < seq)).length
  let order ← queue[position]?
  if order.id = id then
    some ({ side := location.side, price := location.price }, { position, output })
  else none

def planTargets (book : Book) : Nat → List Nat → Option (List (LevelKey × Target))
  | _, [] => some []
  | output, id :: rest => do
      let target ← book.planTarget output id
      let targets ← book.planTargets (output + 1) rest
      some (target :: targets)

/-- The targets of all ids, level by level; nothing when an index is stale or shared. -/
def planLevels (book : Book) (ids : List Nat) : Option (List (LevelKey × List Target)) := do
  let keyed ← book.planTargets 0 ids
  let levels := groupLevels (keyed.mergeSort keyedLe)
  if ids.Nodup ∧ levels.all (fun (key, targets) => epochFits key targets.length) = true then
    some levels
  else none

def removeLevel (outputOf : Nat → Nat) (state : Book × Slots) (level : LevelKey × List Target) :
    Book × Slots :=
  let (book, slots) := state
  let (key, targets) := level
  match (book.ladder key.side).get key.price with
  | none => (book, slots)
  | some queue =>
    let (left, slots) := removeTargets queue targets slots outputOf
    (book.setLadder key.side (Ladder.setQueue key.price left (book.ladder key.side)), slots)

def removeLevels (book : Book) (ids : List Nat) (levels : List (LevelKey × List Target)) :
    Book × List Order :=
  let (book, slots) := levels.foldl (removeLevel fun id => ids.idxOf id)
    (book, List.replicate ids.length none)
  (book, slots.reduceOption)

def unindex (indexes : Indexes) (id : Nat) : Indexes :=
  { indexes with
    orderIndex := Function.update indexes.orderIndex id none
    orderSeq := Function.update indexes.orderSeq id none }

def unindexAll (indexes : Indexes) (cancelled : List Order) : Indexes :=
  cancelled.foldl (fun indexes order => unindex indexes order.id) indexes

def tryCancelAllBatch (book : Book) (ids : List Nat) : Option (Book × List Order) :=
  if 32 ≤ ids.length ∧ ids.length ≤ 5000 ∧ 1024 ≤ book.resting.length ∧
      book.cancelBatchHasConcentratedPrefix ids = true then
    (book.planLevels epochFits ids).map fun levels =>
      let (book, cancelled) := book.removeLevels ids levels
      ({ book with indexes := unindexAll book.indexes cancelled }, cancelled)
  else none

def forgetReduceOnlyTrader (book : Book) (trader : Address) : Book :=
  { book with reduceOnlyIndex := Function.update book.reduceOnlyIndex trader [] }

def forgetCloids (indexes : Indexes) (removed : List Order) : Indexes :=
  removed.foldl
    (fun indexes order => indexes.forgetCloid order.trader order.clientOrderId order.id) indexes

def dropTrader (book : Book) (trader : Address) : Book :=
  let book := book.forgetReduceOnlyTrader trader
  { book with indexes := { book.indexes with
      traderOrders := Function.update book.indexes.traderOrders trader [] } }

def cancelEach (state : Book × List Order) (id : Nat) : Book × List Order :=
  let (book, cancelled) := state
  match book.indexes.orderIndex id with
  | none => (book, cancelled)
  | some location =>
    let unindexed := { book with indexes := { book.indexes with
      orderIndex := Function.update book.indexes.orderIndex id none } }
    match (book.ladder location.side).get location.price with
    | none => (unindexed, cancelled)
    | some queue =>
      match book.indexes.queuePosition queue id with
      | none =>
        (unindexed.setLadder location.side
          (Ladder.setQueue location.price queue (book.ladder location.side)), cancelled)
      | some position =>
        let book := book.setLadder location.side (Ladder.setQueue location.price
          (queue.eraseIdx position) (book.ladder location.side))
        ({ book with indexes := unindex book.indexes id },
          cancelled ++ queue[position]?.toList)

def cancelAllResting (book : Book) (trader : Address) : Book × List Order :=
  let ids := book.indexes.traderOrders trader
  let book := book.dropTrader trader
  match book.tryCancelAllBatch epochFits ids with
  | some result => result
  | none => ids.foldl cancelEach (book, [])

def cancelAll (book : Book) (trader : Address) : Book × List Order :=
  let book := book.retainStops fun stop => decide (stop.trader ≠ trader)
  let (book, cancelled) := book.cancelAllResting epochFits trader
  ({ book with indexes := forgetCloids book.indexes cancelled }, cancelled)

def ownedIds (book : Book) (senders : List Address) : List (List Nat) :=
  senders.zipIdx.map fun (sender, place) =>
    if senders.idxOf sender = place then book.indexes.traderOrders sender else []

def planCancelAllMany (book : Book) (senders : List Address) :
    Option (List (LevelKey × List Target)) :=
  let owned := book.ownedIds senders
  if (owned.filter fun ids => !ids.isEmpty).length < 2 then none
  else book.planLevels epochFits owned.flatten

/-- What is forgotten about one sender, whose cancelled orders come first in the list. -/
def forgetSender (state : Book × List Order × List (List Order)) (sender : Address × List Nat) :
    Book × List Order × List (List Order) :=
  let (book, cancelled, out) := state
  let (trader, ids) := sender
  if ids.isEmpty then (book, cancelled, out ++ [[]])
  else
    let orders := cancelled.take ids.length
    let book := book.dropTrader trader
    let indexes := unindexAll (forgetCloids book.indexes orders) orders
    ({ book with indexes }, cancelled.drop ids.length, out ++ [orders])

def applyCancelAllMany (book : Book) (senders : List Address)
    (levels : List (LevelKey × List Target)) : Book × List (List Order) :=
  let owned := book.ownedIds senders
  let (book, cancelled) := book.removeLevels owned.flatten levels
  let (book, _, out) := (senders.zip owned).foldl forgetSender (book, cancelled, [])
  (book.retainStops fun stop => decide (stop.trader ∉ senders), out)

/-- Cancel-all for a run of senders, each level emptied of all of their orders at once. -/
def cancelAllMany (book : Book) (senders : List Address) : Book × List (List Order) :=
  match book.planCancelAllMany epochFits senders with
  | some levels => book.applyCancelAllMany senders levels
  | none => senders.foldl (fun (book, out) sender =>
    let (book, cancelled) := book.cancelAll epochFits sender
    (book, out ++ [cancelled])) (book, [])

end Batch

def cancelStop (book : Book) (id : Nat) : Book × Option StopOrder :=
  match book.pendingStops.find? fun stop => stop.id = id with
  | none => (book, none)
  | some stop =>
    ({ book with
      pendingStops := book.pendingStops.eraseP fun stop => stop.id = id
      indexes := book.indexes.forgetCloid stop.trader stop.clientOrderId stop.id }, some stop)

/-- Take a trader's stops off the book and say what each of them had reserved. -/
def takePendingStops (book : Book) (trader : Address) : Book × List (Int × Int) :=
  (book.retainStops fun stop => decide (stop.trader ≠ trader),
    (book.pendingStops.filter fun stop => stop.trader = trader).map fun stop =>
      (stop.reservationPrice, stop.quantity))

end Book

end TorusHyperBft.OrderBook
