import TorusHyperBft.State.StateDb
import TorusHyperBft.OrderBook.RowKeys

namespace TorusHyperBft.OrderBook

/-! The depth of a book: of the book in memory, and of the rows on disk in each of their layouts.

A failed read of the database is left out. -/

open State (StateDb)

abbrev RawRow := List Byte × List Byte

structure DepthLevel where
  price : Int
  quantity : Int
  orderCount : Nat
deriving DecidableEq

structure BookDepth where
  bids : List DepthLevel := []
  asks : List DepthLevel := []
deriving DecidableEq

namespace BookDepth

def side (depth : BookDepth) : Side → List DepthLevel
  | .buy => depth.bids
  | .sell => depth.asks

def push (depth : BookDepth) (side : Side) (level : DepthLevel) : BookDepth :=
  match side with
  | .buy => { depth with bids := depth.bids ++ [level] }
  | .sell => { depth with asks := depth.asks ++ [level] }

def truncate (depth : BookDepth) (levels : Nat) : BookDepth where
  bids := depth.bids.take levels
  asks := depth.asks.take levels

end BookDepth

section Memory

/-- What a level has left; nothing where the sum overflows, which is a panic of the source. -/
def Queue.total (queue : Queue) : Option Int :=
  queue.foldlM (fun total order => FixedPoint.checkedAdd total order.remainingQty) 0

def Ladder.depth (ladder : Ladder) : Option (List (Int × Int × Nat)) :=
  ladder.mapM fun level => (Queue.total level.2).map fun total => (level.1, total, level.2.length)

def Book.bidDepth (book : Book) : Option (List (Int × Int × Nat)) := book.bids.depth

def Book.askDepth (book : Book) : Option (List (Int × Int × Nat)) := book.asks.depth

def toLevels (levels : List (Int × Int × Nat)) : List DepthLevel :=
  levels.map fun level =>
    { price := level.1, quantity := level.2.1, orderCount := level.2.2 % 2 ^ 32 }

def bookDepth (book : Book) : Option BookDepth := do
  let bids ← book.bidDepth
  let asks ← book.askDepth
  return { bids := toLevels bids, asks := toLevels asks }

end Memory

inductive BookLayout where
  | classic
  | orderRows
  | levelAuthority
deriving DecidableEq

def BookLayout.fromMarkerByte (marker : Nat) : Option BookLayout :=
  match marker with
  | 0 => some .classic
  | 1 => some .orderRows
  | 2 => some .levelAuthority
  | 3 => some .levelAuthority
  | _ => none

inductive DepthError where
  | classicHasNoRows
  | unrecognizedKey (marketId : MarketId) (length : Nat)
  | classicBlobUnderRows (marketId : MarketId)
  | metaRow (marketId : MarketId) (error : MetaError)
  | noMetaRow (marketId : MarketId)
  | levelRowLength (marketId : MarketId) (length : Nat)
  | unknownSideTag (marketId : MarketId) (tag : Byte)
  | orderRow (marketId : MarketId)
  | notClassicBlob (marketId : MarketId)
  /-- A panic of the source. -/
  | totalOverflows
deriving DecidableEq

section Rows

structure MarketRowsCheck where
  header : Option BookMeta := none
  hasOtherRows : Bool := false

def MarketRowsCheck.observe (marketId : MarketId) (check : MarketRowsCheck) (row : RawRow) :
    Except DepthError MarketRowsCheck :=
  match keyShape row.1 with
  | some .header =>
    match BookMeta.decode row.2 with
    | .ok header => .ok { check with header := some header }
    | .error error => .error (.metaRow marketId error)
  | some .classicBlob => .error (.classicBlobUnderRows marketId)
  | some _ => .ok { check with hasOtherRows := true }
  | none => .error (.unrecognizedKey marketId row.1.length)

def MarketRowsCheck.finish (marketId : MarketId) (check : MarketRowsCheck) :
    Except DepthError (Option BookMeta) :=
  if check.header.isNone ∧ check.hasOtherRows then .error (.noMetaRow marketId)
  else .ok check.header

def readMeta (marketId : MarketId) (rows : List RawRow) : Except DepthError (Option BookMeta) :=
  do
  let check ← rows.foldlM (MarketRowsCheck.observe marketId) {}
  check.finish marketId

/-- A level row goes behind the levels of its side; other rows are passed over. -/
def addLevelRow (marketId : MarketId) (depth : BookDepth) (row : RawRow) :
    Except DepthError BookDepth :=
  if keyShape row.1 ≠ some .levelRow then .ok depth
  else
    match LevelRowData.decode row.2 with
    | none => .error (.levelRowLength marketId row.2.length)
    | some data =>
      let tag := row.1.getD 9 0
      match sideFromTag tag with
      | none => .error (.unknownSideTag marketId tag)
      | some side =>
        .ok (depth.push side
          { price := priceDec tag ((row.1.drop 10).take 16)
            quantity := data.totalQtyRaw
            orderCount := data.orderCount })

abbrev PriceTotals := OrderedMap Int (Int × Nat)

def PriceTotals.add (totals : PriceTotals) (order : Order) : PriceTotals :=
  let (qty, count) := (totals.lookup order.price).getD (0, 0)
  totals.insert order.price ((qty + order.remainingQty).bmod (2 ^ 128), (count + 1) % 2 ^ 32)

def PriceTotals.levels (totals : PriceTotals) : List DepthLevel :=
  totals.entries.map fun entry =>
    { price := entry.1, quantity := entry.2.1, orderCount := entry.2.2 }

def addOrderRow (marketId : MarketId) (totals : PriceTotals × PriceTotals) (row : RawRow) :
    Except DepthError (PriceTotals × PriceTotals) :=
  if keyShape row.1 ≠ some .orderRow then .ok totals
  else
    match decodeOrderRow row.2 with
    | none => .error (.orderRow marketId)
    | some (_, order) =>
      match order.side with
      | .buy => .ok (totals.1.add order, totals.2)
      | .sell => .ok (totals.1, totals.2.add order)

def depthFromRows (marketId : MarketId) (layout : BookLayout) (rows : List RawRow) :
    Except DepthError BookDepth :=
  match layout with
  | .levelAuthority => rows.foldlM (addLevelRow marketId) {}
  | .orderRows => do
      let totals ← rows.foldlM (addOrderRow marketId) ({}, {})
      return { bids := totals.1.levels.reverse, asks := totals.2.levels }
  | .classic => .error .classicHasNoRows

def depthFromMarketRows (marketId : MarketId) (layout : BookLayout) (rows : List RawRow) :
    Except DepthError BookDepth :=
  if layout = .classic then .error .classicHasNoRows
  else do
    match ← readMeta marketId rows with
    | none => return {}
    | some _ => depthFromRows marketId layout rows

end Rows

def marketRows (db : StateDb) (marketId : MarketId) : List RawRow :=
  db.iterateCf .nativeOrderBooks (some (toBytes 8 marketId))

def readBookDepth (db : StateDb) (marketId : MarketId) (layout : BookLayout) :
    Except DepthError BookDepth :=
  if layout = .classic then
    match db.getCfRaw .nativeOrderBooks (classicKey marketId) with
    | none => .ok {}
    | some blob =>
      match decodeClassicBook blob with
      | none => .error (.notClassicBlob marketId)
      | some book =>
        match bookDepth book with
        | none => .error .totalOverflows
        | some depth => .ok depth
  else depthFromMarketRows marketId layout (marketRows db marketId)

/-- The depth that a request for so many levels of each side is answered with. -/
def readTopLevels (db : StateDb) (marketId : MarketId) (layout : BookLayout) (levels : Nat) :
    Except DepthError BookDepth :=
  (readBookDepth db marketId layout).map fun depth => depth.truncate levels

end TorusHyperBft.OrderBook
