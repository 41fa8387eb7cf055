import TorusHyperBft.Account.Fill
import TorusHyperBft.Bytes
import TorusHyperBft.State.Flat

namespace TorusHyperBft.Account

open FixedPoint
open OrderBook (Address)

/-! The liquidation step of a block: a bounded walk over the accounts that hold a position, which
goes on in the next block behind a stored cursor. -/

inductive Health where
  | healthy
  | stage1
  | backstop
  | adl
deriving DecidableEq

structure AccountView where
  available : Int
  orderMargin : Int
  upnl : Int
  maintenance : Int
deriving DecidableEq

def classify (view : AccountView) : Option Health := do
  let av ← checkedAdd (← checkedAdd view.available view.orderMargin) view.upnl
  if view.maintenance ≤ av then return .healthy
  if av < 0 then return .adl
  let triple ← fit (av * 3)
  let double ← fit (view.maintenance * 2)
  return if triple < double then .backstop else .stage1

inductive CoreError where
  | invalidInput (reason : String)
  | other (reason : String)
deriving DecidableEq

def malformed (what : String) : CoreError := .invalidInput s!"malformed liquidation row: {what}"

abbrev PositionCf := OrderedMap (List Byte) (List Byte)

/-- What the step reads and writes: the rows of the positions, the cursor row, and the rest of the
block's state. -/
structure LiquidationState (σ : Type) where
  positions : PositionCf
  cursorRow : Option (List Byte)
  rest : σ

section Walk

def pastTrader (trader : Address) : List Byte :=
  toBytes 20 trader ++ List.replicate 8 255 ++ [0]

def traderOf (key : List Byte) : Address := fromBytes (key.take 20)

def walkTraders (rows : PositionCf) : Nat → List Byte → Nat → List Address
  | 0, _, _ => []
  | _, _, 0 => []
  | fuel + 1, start, limit + 1 =>
    match (rows.range start).head? with
    | none => []
    | some row =>
      if row.1.length ≠ 28 then walkTraders rows fuel (row.1 ++ [0]) (limit + 1)
      else traderOf row.1 :: walkTraders rows fuel (pastTrader (traderOf row.1)) limit

def tradersAfter (rows : PositionCf) (after : Option Address) (limit : Nat) : List Address :=
  walkTraders rows (rows.entries.length + 1) (after.elim [] pastTrader) limit

end Walk

section Cursor

variable {σ : Type}

def cursor (state : LiquidationState σ) : Except CoreError (Option Address) :=
  match state.cursorRow with
  | none => .ok none
  | some row => if row.length = 20 then .ok (some (fromBytes row)) else .error (malformed "cursor")

def putCursor (state : LiquidationState σ) (place : Option Address) :
    Except CoreError (LiquidationState σ) := do
  if (← cursor state) = place then return state
  return { state with cursorRow := place.map (toBytes 20) }

end Cursor

/-- The results of a pass: an account that could not be valued, one that was liquidated, or what
an order of the first stage returned. -/
inductive PassResult (ρ : Type) where
  | skipped (trader : Address)
  | liquidated (gas : Nat)
  | order (result : ρ)

structure LiquidationCalls (σ ρ : Type) where
  liqView : LiquidationState σ → Address → Except CoreError (Option AccountView)
  setPending : Address → Bool → LiquidationState σ → Except CoreError (LiquidationState σ)
  clearCooldown : Address → LiquidationState σ → Except CoreError (LiquidationState σ)
  /-- The orders go first, then the action of the class; what is left decides about the rows of
  the account. Also what the first stage's orders returned and how many positions moved to an
  escrow. -/
  liquidate : Health → Address → LiquidationState σ →
    Except CoreError (List ρ × U64 × LiquidationState σ)
  /-- The vault's own deleveraging, the escrows' obligations under what the walk left of the work
  units, and the rows of the marks. -/
  settle : U64 → U64 → LiquidationState σ → Except CoreError (LiquidationState σ)

/-- Where the walk stands. The traders it has valued and those it has acted on are kept beside
the counters. -/
structure Progress (σ ρ : Type) where
  state : LiquidationState σ
  scanned : Nat := 0
  acted : Nat := 0
  last : Option Address := none
  results : List (PassResult ρ) := []
  deferred : List Address := []
  work : U64 := 0
  classified : List Address := []
  liquidated : List Address := []

def adlTransferUnits : U64 := 6

def notProtocol (trader : Address) : Bool := trader ≠ liquidatorVault && !isAdlEscrow trader

section Pass

variable {σ ρ : Type} (calls : LiquidationCalls σ ρ)

def Progress.take (progress : Progress σ ρ) (trader : Address) : Progress σ ρ :=
  { progress with
    scanned := progress.scanned + 1
    last := some trader
    classified := progress.classified ++ [trader] }

def visitAccount (progress : Progress σ ρ) (trader : Address) :
    Except CoreError (Progress σ ρ) := do
  let progress := progress.take trader
  match (← calls.liqView progress.state trader).bind classify with
  | none =>
    let state ← calls.setPending trader false progress.state
    return { progress with state := state, results := progress.results ++ [.skipped trader] }
  | some .healthy =>
    let state ← calls.clearCooldown trader progress.state
    let state ← calls.setPending trader false state
    return { progress with state := state }
  | some health =>
    let (orders, rows, state) ← calls.liquidate health trader progress.state
    return { progress with
      state := state
      acted := progress.acted + 1
      work := progress.work.saturatingAdd (rows.saturatingMul adlTransferUnits)
      liquidated := progress.liquidated ++ [trader]
      results := progress.results ++ orders.map .order ++ [.liquidated 3000] }

def walkAccounts (scan act : Nat) : List Address → Progress σ ρ →
    Except CoreError (Progress σ ρ × Bool)
  | [], progress => .ok (progress, false)
  | trader :: accounts, progress =>
    if !notProtocol trader then walkAccounts scan act accounts progress
    else if progress.scanned = scan ∨ progress.acted = act then
      let deferred :=
        if progress.acted = act then
          ((trader :: accounts).filter notProtocol).take (scan - progress.scanned)
        else progress.deferred
      .ok ({ progress with deferred := deferred }, true)
    else do walkAccounts scan act accounts (← visitAccount calls progress trader)

/-- At most three of the fetched accounts are the protocol's, so a walk over all of them that
stayed within its budgets has reached the end. -/
def liquidationPass (scan act : Nat) (work : U64) (state : LiquidationState σ) :
    Except CoreError (Progress σ ρ) := do
  let accounts := tradersAfter state.positions (← cursor state) (scan + 4)
  let (progress, cut) ← walkAccounts calls scan act accounts { state := state }
  let state ← calls.settle work progress.work progress.state
  let state ← putCursor state (if cut then progress.last else none)
  return { progress with state := state }

end Pass

end TorusHyperBft.Account
