import TorusHyperBft.Rows
import TorusHyperBft.OrderBook.Types

namespace TorusHyperBft.Account

open FixedPoint
open OrderBook (Address MarketId)

/-! Positions and native balances, and the rows that hold them.

Reads and writes of the rows do not fail here: a storage fault stops the node. -/

inductive MarginType where
  | cross
  | isolated
deriving DecidableEq

structure PositionFunding where
  entryIndex : Int
  paid : Int
deriving DecidableEq

structure Position where
  trader : Address
  marketId : MarketId
  isLong : Bool
  size : Int
  entryPrice : Int
  costBasis : Int
  realizedPnl : Int
  isolatedMargin : Int
  marginType : MarginType
  funding : Option PositionFunding
deriving DecidableEq

structure NativeBalance where
  available : Int := 0
  orderMargin : Int := 0
deriving DecidableEq

abbrev PositionKey := Address × MarketId

def Position.key (pos : Position) : PositionKey := (pos.trader, pos.marketId)

/-- The position rows.  A row that names another key than its own is refused when it is
read, so none is kept. -/
structure PositionRows where
  rows : AList fun _ : PositionKey => Position := ∅
  keyed : ∀ key pos, rows.lookup key = some pos → pos.key = key := by simp

namespace PositionRows

abbrev empty : PositionRows := {}

def get (positions : PositionRows) (trader : Address) (marketId : MarketId) : Option Position :=
  positions.rows.lookup (trader, marketId)

def put (positions : PositionRows) (pos : Position) : PositionRows where
  rows := positions.rows.insert pos.key pos
  keyed key found lookup := by
    by_cases same : key = pos.key
    · subst same
      rw [AList.lookup_insert, Option.some.injEq] at lookup
      rw [lookup]
    · rw [AList.lookup_insert_ne same] at lookup
      exact positions.keyed key found lookup

def delete (positions : PositionRows) (trader : Address) (marketId : MarketId) : PositionRows where
  rows := positions.rows.erase (trader, marketId)
  keyed key found lookup := by
    by_cases same : key = (trader, marketId)
    · subst same
      rw [AList.lookup_erase] at lookup
      cases lookup
    · rw [AList.lookup_erase_ne same] at lookup
      exact positions.keyed key found lookup

end PositionRows

/-- The state a fill reads and writes.  `funding` is the block's index table, absent while
funding is off; `fundingRows` are the stored indices a market outside the table reads. -/
structure PositionManager where
  positions : PositionRows := {}
  balances : AList (fun _ : Address => NativeBalance) := ∅
  funding : Option (MarketId → Option Int) := none
  fundingRows : MarketId → Option Int := fun _ => none

namespace PositionManager

def fundingIndex (pm : PositionManager) (marketId : MarketId) : Option Int :=
  match pm.funding with
  | none => none
  | some table =>
    match table marketId with
    | some index => some index
    | none => pm.fundingRows marketId

def getPosition (pm : PositionManager) (trader : Address) (marketId : MarketId) : Option Position :=
  pm.positions.get trader marketId

def putPosition (pm : PositionManager) (pos : Position) : PositionManager :=
  { pm with positions := pm.positions.put pos }

def deletePosition (pm : PositionManager) (trader : Address) (marketId : MarketId) :
    PositionManager :=
  { pm with positions := pm.positions.delete trader marketId }

def positionsForTrader (pm : PositionManager) (trader : Address) : List Position :=
  ((pm.positions.rows.entries.map Sigma.snd).filter fun pos => pos.trader = trader).mergeSort
    fun left right => left.marketId ≤ right.marketId

def getNativeBalance (pm : PositionManager) (trader : Address) : NativeBalance :=
  (pm.balances.lookup trader).getD {}

def putNativeBalance (pm : PositionManager) (trader : Address) (balance : NativeBalance) :
    PositionManager :=
  { pm with balances := pm.balances.insert trader balance }

def creditRealizedPnl (pm : PositionManager) (trader : Address) (pnl : Int) : PositionManager :=
  let balance := pm.getNativeBalance trader
  pm.putNativeBalance trader { balance with available := balance.available + pnl }

section Access

variable {pm : PositionManager} {pos : Position} {trader other : Address} {marketId market : MarketId}

theorem getPosition_key (found : pm.getPosition trader marketId = some pos) :
    pos.trader = trader ∧ pos.marketId = marketId := by
  have keyed := pm.positions.keyed _ _ found
  simpa [Position.key] using keyed

theorem getPosition_putPosition : (pm.putPosition pos).getPosition trader marketId =
    if (trader, marketId) = pos.key then some pos else pm.getPosition trader marketId := by
  unfold getPosition PositionRows.get
  split
  · rename_i same
    rw [same]
    exact AList.lookup_insert _
  · rename_i different
    exact AList.lookup_insert_ne different

theorem getPosition_deletePosition :
    (pm.deletePosition other market).getPosition trader marketId =
      if (trader, marketId) = (other, market) then none else pm.getPosition trader marketId := by
  unfold getPosition PositionRows.get
  split
  · rename_i same
    rw [same]
    exact AList.lookup_erase _ _
  · rename_i different
    exact AList.lookup_erase_ne different

theorem getNativeBalance_putNativeBalance (balance : NativeBalance) :
    (pm.putNativeBalance other balance).getNativeBalance trader =
      if trader = other then balance else pm.getNativeBalance trader := by
  unfold getNativeBalance putNativeBalance
  split
  · rename_i same
    rw [same, AList.lookup_insert]
    rfl
  · rename_i different
    rw [AList.lookup_insert_ne different]

theorem mem_positionsForTrader :
    pos ∈ pm.positionsForTrader trader ↔
      pos.trader = trader ∧ pm.getPosition trader pos.marketId = some pos := by
  unfold positionsForTrader
  rw [List.mem_mergeSort, List.mem_filter, List.mem_map, decide_eq_true_eq]
  constructor
  · rintro ⟨⟨row, member, rfl⟩, owned⟩
    have lookup := Rows.mem_entries_lookup member
    have keyed := pm.positions.keyed _ _ lookup
    refine ⟨owned, ?_⟩
    rw [← keyed, Position.key, owned] at lookup
    exact lookup
  · rintro ⟨owned, found⟩
    exact ⟨⟨_, AList.mem_lookup_iff.mp found, rfl⟩, owned⟩

end Access

end PositionManager

end TorusHyperBft.Account
