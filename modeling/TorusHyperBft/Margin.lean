import TorusHyperBft.FixedPoint

namespace TorusHyperBft

open FixedPoint

/-! Initial and maintenance margin of a notional, and the loss of a fill against the mark. -/

structure MarginTier where
  maxNotional : Int
  maxLeverage : Nat
deriving DecidableEq

abbrev MarginTiers := Option (List MarginTier)

def effectiveMaxLeverage : List MarginTier → Int → Nat
  | [], _ => 1
  | tier :: rest, notional =>
    if notional ≤ tier.maxNotional then tier.maxLeverage else effectiveMaxLeverage rest notional

def defaultOrderMaxLeverage : Nat := 20

def orderLeverage (tiers : MarginTiers) (notional : Int) : Nat :=
  match tiers with
  | none => defaultOrderMaxLeverage
  | some tiers => effectiveMaxLeverage tiers notional

/-- Notional over leverage, truncated.  A tier of leverage zero makes the source panic. -/
def orderInitialMargin (tiers : MarginTiers) (notional : Int) : Int :=
  notional.tdiv (orderLeverage tiers notional)

def maintenanceMargin (tiers : MarginTiers) (notional : Int) : Int :=
  (orderInitialMargin tiers notional).tdiv 2

def imDelta (tiers : MarginTiers) (before after : Int) : Int :=
  orderInitialMargin tiers after - orderInitialMargin tiers before

structure MarkLoss where
  loss : Int
  tolOpen : Int
  charge : Int
deriving DecidableEq

def MarkLoss.zero : MarkLoss := { loss := 0, tolOpen := 0, charge := 0 }

def markLoss (tiers : MarginTiers) (mark : Int) (isBuy : Bool)
    (price quantity closing : Int) : Option MarkLoss := do
  let adverse ← if isBuy then checkedSub price mark else checkedSub mark price
  if adverse ≤ 0 ∨ quantity ≤ 0 then
    return .zero
  let loss ← checkedMul adverse quantity
  let closing := max (min closing quantity) 0
  let opening := quantity - closing
  let tolerance (initial maintenance : Int) :=
    max (orderInitialMargin tiers initial - maintenanceMargin tiers maintenance) 0
  let openAtPrice ← checkedMul price opening
  let openAtMark ← checkedMul mark opening
  let tolOpen := tolerance openAtPrice openAtMark
  let closeAtMark ← checkedMul mark closing
  let tolClose := tolerance closeAtMark closeAtMark
  let rest ← checkedSub loss tolOpen
  let rest ← checkedSub rest tolClose
  return { loss, tolOpen, charge := max rest 0 }

end TorusHyperBft
