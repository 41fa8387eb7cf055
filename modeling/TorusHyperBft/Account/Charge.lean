import TorusHyperBft.Account.BalanceCache
import TorusHyperBft.Account.Fees

namespace TorusHyperBft.Account

open FixedPoint
open OrderBook (Address)

/-! The fees of a call's fills, charged by the batch path and by the single-action path.

The batch path debits each fill side through the balance cache and takes unpaid fees back at the
end; the single-action path adds the sides up per trader and debits the sums.  Both credit the
treasury with what was paid. -/

abbrev VolumeCache := AList fun _ : Address => FillTotals

namespace VolumeCache

def totals (volumes : VolumeCache) (trader : Address) : FillTotals :=
  (volumes.lookup trader).getD {}

def add (volumes : VolumeCache) (trader : Address) (more : FillTotals) : VolumeCache :=
  volumes.insert trader ((volumes.totals trader).add more)

def ascending (volumes : VolumeCache) : List Address :=
  volumes.keys.mergeSort fun first second => first ≤ second

end VolumeCache

/-- The first `sides` sides of the fills: the taker's and the maker's of each in turn. -/
def addFillVolumes (fees : Option TradingFeeRates) (volumes : VolumeCache)
    (fills : List OrderBook.Fill) (sides : Nat) : VolumeCache :=
  (fills.zipIdx.take ((sides + 1) / 2)).foldl
    (fun volumes (fill, k) =>
      let (taker, maker) := fillSideTotals fees (mul fill.price fill.quantity)
      let volumes := volumes.add fill.taker taker
      if 2 * k + 1 < sides then volumes.add fill.maker maker else volumes)
    volumes

/-- One side of a fill that was applied, and what it did to the trader's position. -/
structure AppliedSide where
  trader : Address
  totals : FillTotals
  effect : FillEffect

def fillSides (fees : Option TradingFeeRates) : List OrderBook.Fill → List (Address × FillTotals)
  | [] => []
  | fill :: fills =>
    let (taker, maker) := fillSideTotals fees (mul fill.price fill.quantity)
    (fill.taker, taker) :: (fill.maker, maker) :: fillSides fees fills

/-- The fills of an order, the number of sides that were applied and the effect of each. -/
structure SettledOrder where
  fills : List OrderBook.Fill
  sides : Nat
  effects : Nat → FillEffect

def SettledOrder.applied (fees : Option TradingFeeRates) (order : SettledOrder) : List AppliedSide :=
  ((fillSides fees order.fills).take order.sides).zipIdx.map fun ((trader, totals), index) =>
    { trader, totals, effect := order.effects index }

namespace BalanceCache

def loadFrom (backend : Address → NativeBalance) (cache : BalanceCache Empty) (addr : Address) :
    NativeBalance × BalanceCache Empty :=
  match cache.load (.ok (backend addr)) addr with
  | (.ok balance, cache) => (balance, cache)
  | (.error fault, _) => fault.elim

def peek (cache : BalanceCache Empty) (addr : Address) : Option NativeBalance :=
  (cache.map addr).map CachedBalance.balance

def credit (backend : Address → NativeBalance) (cache : BalanceCache Empty) (addr : Address)
    (amount : Int) : BalanceCache Empty :=
  let (balance, cache) := cache.loadFrom backend addr
  cache.set addr { balance with available := balance.available + amount }

/-- The balances a reader of the cache sees; the flush writes the ones that were set. -/
def balances (backend : Address → NativeBalance) (cache : BalanceCache Empty) (addr : Address) :
    NativeBalance :=
  (cache.peek addr).getD (backend addr)

end BalanceCache

def applyFillViaCaches (backend : Address → NativeBalance) (cache : BalanceCache Empty)
    (side : AppliedSide) : BalanceCache Empty :=
  match FillEffect.cash { side.effect with fee := side.totals.fee } with
  | some cash => cache.credit backend side.trader cash
  | none => cache

def waiveUnpaidFee (flat : Address → Bool) (state : BalanceCache Empty × VolumeCache)
    (trader : Address) : BalanceCache Empty × VolumeCache :=
  if flat trader then
    match state.1.peek trader with
    | none => state
    | some balance =>
      match collateralOf balance with
      | none => state
      | some collateral =>
        let totals := state.2.totals trader
        let unpaid := unpaidFee collateral totals
        if unpaid ≠ 0 then
          (state.1.set trader { balance with available := balance.available + unpaid },
            state.2.insert trader { totals with fee := totals.fee - unpaid })
        else state
  else state

def waiveUnpaidFees (flat : Address → Bool) (cache : BalanceCache Empty) (volumes : VolumeCache) :
    BalanceCache Empty × VolumeCache :=
  let negative := volumes.keys.filter fun trader =>
    (((cache.peek trader).bind collateralOf).map fun collateral => decide (collateral < 0)).getD false
  (negative.mergeSort fun first second => first ≤ second).foldl (waiveUnpaidFee flat) (cache, volumes)

structure FeeLedger where
  balance : Address → NativeBalance
  cumFee : Address → Int

def FeeLedger.addCumFee (ledger : FeeLedger) (trader : Address) (paid : Int) : FeeLedger :=
  { ledger with cumFee := Function.update ledger.cumFee trader (ledger.cumFee trader + paid) }

/-- The end of a call with the balances of its cache: waivers, the treasury's credit, and the
cumulative fees. -/
def finishBatch (flat : Address → Bool) (treasury : Address) (ledger : FeeLedger)
    (cache : BalanceCache Empty) (volumes : VolumeCache) : FeeLedger :=
  let (cache, volumes) := waiveUnpaidFees flat cache volumes
  let feeTotal := volumes.entries.foldl (fun sum row => sum + row.2.fee) 0
  let cache := if feeTotal ≠ 0 then cache.credit ledger.balance treasury feeTotal else cache
  volumes.ascending.foldl
    (fun ledger trader =>
      let fee := (volumes.totals trader).fee
      if fee ≠ 0 then ledger.addCumFee trader fee else ledger)
    { ledger with balance := cache.balances ledger.balance }

/-- The fills of a call on the batch path.  The waivers are skipped while the feature is off. -/
def settleBatch (fees : Option TradingFeeRates) (flat : Address → Bool) (treasury : Address)
    (ledger : FeeLedger) (cache : BalanceCache Empty) (orders : List SettledOrder) : FeeLedger :=
  let sides := orders.flatMap (SettledOrder.applied fees)
  let cache := sides.foldl (applyFillViaCaches ledger.balance) cache
  let volumes := orders.foldl
    (fun volumes order => addFillVolumes fees volumes order.fills order.sides) ∅
  finishBatch (fun trader => fees.isSome && flat trader) treasury ledger cache volumes

def creditTo (balance : Address → NativeBalance) (addr : Address) (amount : Int) :
    Address → NativeBalance :=
  Function.update balance addr
    { balance addr with available := (balance addr).available + amount }

def applyFillCash (balance : Address → NativeBalance) (side : AppliedSide) : Address → NativeBalance :=
  match FillEffect.cash { side.effect with fee := 0 } with
  | some cash => creditTo balance side.trader cash
  | none => balance

/-- The unpaid part of a trader's fees, given its balance after they were debited. -/
def unpaidOf (flat : Bool) (debited : NativeBalance) (totals : FillTotals) : Int :=
  match (collateralOf debited).filter (· < 0) with
  | some collateral => if flat then unpaidFee collateral totals else 0
  | none => 0

def chargeTrader (flat : Address → Bool) (fees : VolumeCache) (state : FeeLedger × Int)
    (trader : Address) : FeeLedger × Int :=
  let totals := fees.totals trader
  let balance := state.1.balance trader
  let debited := { balance with available := balance.available - totals.fee }
  let unpaid := unpaidOf (flat trader) debited totals
  let paid := totals.fee - unpaid
  if paid ≠ 0 then
    let written := { debited with available := debited.available + unpaid }
    (FeeLedger.addCumFee { state.1 with balance := Function.update state.1.balance trader written }
      trader paid, state.2 + paid)
  else state

def chargeOrderFees (flat : Address → Bool) (treasury : Address) (ledger : FeeLedger)
    (fees : VolumeCache) : FeeLedger :=
  let (ledger, total) := fees.ascending.foldl (chargeTrader flat fees) (ledger, 0)
  if total ≠ 0 then { ledger with balance := creditTo ledger.balance treasury total } else ledger

/-- The fills on the single-action path.  With the feature off no side is listed. -/
def settleSingly (fees : Option TradingFeeRates) (flat : Address → Bool) (treasury : Address)
    (ledger : FeeLedger) (sides : List AppliedSide) : FeeLedger :=
  let balance := sides.foldl applyFillCash ledger.balance
  let orderFees := if fees.isSome then
      sides.foldl (fun orderFees side => orderFees.add side.trader side.totals) ∅
    else (∅ : VolumeCache)
  chargeOrderFees flat treasury { ledger with balance } orderFees

end TorusHyperBft.Account
