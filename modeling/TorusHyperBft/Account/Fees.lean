import TorusHyperBft.Account.Fill

namespace TorusHyperBft.Account

open FixedPoint
open OrderBook (Address)

/-! Maker and taker fees on a fill, and the part of them that may be waived.

A charge rounds up and a rebate toward zero, so a fill never nets less than nothing.  A maker's
rebate is paid out of the taker's fee; only the rest is the treasury's to waive. -/

/-- Parts per million of the notional; a negative maker rate is a rebate. -/
structure TradingFeeRates where
  takerPpm : Int
  makerPpm : Int
deriving DecidableEq

def ppm : Int := 1000000

def feeOnNotional (notionalRaw rate : Int) : Int :=
  if notionalRaw ≤ 0 ∨ rate = 0 then 0
  else
    let magnitude : Int := rate.natAbs
    let whole := saturate (notionalRaw / ppm * magnitude)
    let rest := notionalRaw % ppm * magnitude
    if 0 < rate then saturate (whole + (rest + ppm - 1) / ppm)
    else -saturate (whole + rest / ppm)

def decimalDigit (byte : UInt8) : Option Nat :=
  if 48 ≤ byte.toNat ∧ byte.toNat ≤ 57 then some (byte.toNat - 48) else none

def decimalDigits (bytes : List UInt8) : Option Nat :=
  if bytes = [] then none
  else bytes.foldlM (fun value byte => (decimalDigit byte).map (10 * value + ·)) 0

def parseI64 (bytes : List UInt8) : Option Int :=
  let value : Option Int :=
    match bytes with
    | 43 :: digits => (decimalDigits digits).map Int.ofNat
    | 45 :: digits => (decimalDigits digits).map fun magnitude => -Int.ofNat magnitude
    | digits => (decimalDigits digits).map Int.ofNat
  value.filter fun value => -2 ^ 63 ≤ value ∧ value < 2 ^ 63

def storedI64In (stored : Option (List UInt8)) (low high : Int) : Option Int :=
  (stored.bind parseI64).filter fun value => low ≤ value ∧ value ≤ high

namespace TradingFeeRates

def new (takerPpm makerPpm : Int) : TradingFeeRates where
  takerPpm := takerPpm
  makerPpm := max makerPpm (-takerPpm)

def fromStored (taker maker : Option (List UInt8)) : TradingFeeRates :=
  new ((storedI64In taker 0 10000).getD 450) ((storedI64In maker (-1000) 10000).getD 150)

def takerFee (rates : TradingFeeRates) (notional : Int) : Int := feeOnNotional notional rates.takerPpm

def makerFee (rates : TradingFeeRates) (notional : Int) : Int := feeOnNotional notional rates.makerPpm

/-- What the clamp and the range of the taker rate leave. -/
structure Clamped (rates : TradingFeeRates) : Prop where
  taker : 0 ≤ rates.takerPpm
  maker : -rates.takerPpm ≤ rates.makerPpm

theorem storedI64In_low {stored : Option (List UInt8)} {low high value : Int}
    (found : storedI64In stored low high = some value) : low ≤ value := by
  unfold storedI64In at found
  rw [Option.filter_eq_some_iff] at found
  have range := found.2
  simp only [decide_eq_true_eq] at range
  exact range.1

theorem fromStored_clamped (taker maker : Option (List UInt8)) :
    (fromStored taker maker).Clamped where
  taker := by
    unfold fromStored new
    dsimp only
    cases found : storedI64In taker 0 10000 with
    | none => simp
    | some value => exact storedI64In_low found
  maker := by
    unfold fromStored new
    exact le_max_right _ _

end TradingFeeRates

section Rounding

theorem saturate_mono {left right : Int} (le : left ≤ right) : saturate left ≤ saturate right := by
  unfold saturate
  omega

theorem saturate_nonneg {raw : Int} (nonneg : 0 ≤ raw) : 0 ≤ saturate raw := by
  unfold saturate maxRaw
  omega

theorem feeOnNotional_nonneg {notional rate : Int} (nonneg : 0 ≤ rate) :
    0 ≤ feeOnNotional notional rate := by
  unfold feeOnNotional
  split
  · exact le_rfl
  · rename_i charged
    have positive : 0 < rate := by omega
    rw [if_pos positive]
    have whole : 0 ≤ notional / ppm * (rate.natAbs : Int) :=
      Int.mul_nonneg (Int.ediv_nonneg (by omega) (by decide)) (by omega)
    have rest : 0 ≤ notional % ppm * (rate.natAbs : Int) :=
      Int.mul_nonneg (Int.emod_nonneg _ (by decide)) (by omega)
    apply saturate_nonneg
    apply Int.add_nonneg (saturate_nonneg whole)
    apply Int.ediv_nonneg _ (by decide)
    unfold ppm at rest ⊢
    omega

theorem feeOnNotional_covers {notional taker maker : Int} (clamped : -taker ≤ maker)
    (rebate : maker < 0) : 0 ≤ feeOnNotional notional taker + feeOnNotional notional maker := by
  have charge : 0 < taker := by omega
  by_cases empty : notional ≤ 0
  · simp [feeOnNotional, empty]
  have quotient : 0 ≤ notional / ppm := Int.ediv_nonneg (by omega) (by decide)
  have remainder : 0 ≤ notional % ppm := Int.emod_nonneg _ (by decide)
  have rates : (maker.natAbs : Int) ≤ taker.natAbs := by omega
  have whole : saturate (notional / ppm * maker.natAbs) ≤ saturate (notional / ppm * taker.natAbs) :=
    saturate_mono (Int.mul_le_mul_of_nonneg_left rates quotient)
  have rest : notional % ppm * maker.natAbs ≤ notional % ppm * taker.natAbs :=
    Int.mul_le_mul_of_nonneg_left rates remainder
  have rounded : notional % ppm * maker.natAbs / ppm ≤
      (notional % ppm * taker.natAbs + ppm - 1) / ppm := by
    apply Int.ediv_le_ediv (by decide)
    unfold ppm at rest ⊢
    omega
  have sums := saturate_mono (Int.add_le_add whole rounded)
  have isRebate : ¬ 0 < maker := by omega
  simp only [feeOnNotional, empty, rebate.ne, charge.ne', or_self, if_false, if_pos charge,
    if_neg isRebate]
  omega

end Rounding

/-- What the fill sides of one trader add up to; `waivable` is the treasury's share of the fee. -/
structure FillTotals where
  volume : Int := 0
  fee : Int := 0
  waivable : Int := 0
deriving DecidableEq

def FillTotals.add (totals more : FillTotals) : FillTotals where
  volume := totals.volume + more.volume
  fee := totals.fee + more.fee
  waivable := totals.waivable + more.waivable

def sideFees (fees : Option TradingFeeRates) (notional : Int) : Int × Int :=
  match fees with
  | some rates => (rates.takerFee notional, rates.makerFee notional)
  | none => (0, 0)

def fillSideTotals (fees : Option TradingFeeRates) (notional : Int) : FillTotals × FillTotals :=
  let (takerFee, makerFee) := sideFees fees notional
  let rebate := min makerFee 0
  ({ volume := notional, fee := takerFee, waivable := takerFee + rebate },
    { volume := notional, fee := makerFee, waivable := makerFee - rebate })

def collateralOf (balance : NativeBalance) : Option Int :=
  checkedAdd balance.available balance.orderMargin

def unpaidFee (collateral : Int) (totals : FillTotals) : Int :=
  if 0 ≤ collateral ∨ totals.fee ≤ 0 ∨ totals.waivable ≤ 0 then 0
  else min (0 - collateral) (min totals.fee totals.waivable)

/-- `resolve_trade_fees`: the rates in force, absent while the feature is off.  A failed read of
the stored values gives the defaults, as absent values do. -/
def resolveTradeFees (active : Bool) (taker maker : Option (List UInt8)) : Option TradingFeeRates :=
  if active then some (.fromStored taker maker) else none

section Shares

variable {active : Bool} {taker maker : Option (List UInt8)} {collateral notional : Int}
variable {totals : FillTotals}

/-- Neither side's share of a fill is negative, the shares are what the fill nets, and the taker's
is no more than its fee. -/
theorem fillSideTotals_shares {fees : Option TradingFeeRates}
    (resolved : fees = resolveTradeFees active taker maker) :
    let (takerSide, makerSide) := fillSideTotals fees notional
    0 ≤ takerSide.waivable ∧ 0 ≤ makerSide.waivable ∧ takerSide.waivable ≤ takerSide.fee ∧
      takerSide.waivable + makerSide.waivable = takerSide.fee + makerSide.fee := by
  subst resolved
  cases active with
  | false => simp [fillSideTotals, sideFees, resolveTradeFees]
  | true =>
    have clamped := TradingFeeRates.fromStored_clamped taker maker
    simp only [fillSideTotals, sideFees, resolveTradeFees, if_true]
    generalize TradingFeeRates.fromStored taker maker = rates at clamped ⊢
    have charge : 0 ≤ rates.takerFee notional := feeOnNotional_nonneg clamped.taker
    have nets : 0 ≤ rates.takerFee notional + min (rates.makerFee notional) 0 := by
      by_cases rebate : rates.makerPpm < 0
      · have covered : 0 ≤ rates.takerFee notional + rates.makerFee notional :=
          feeOnNotional_covers clamped.maker rebate
        omega
      · have paid : 0 ≤ rates.makerFee notional := feeOnNotional_nonneg (by omega)
        omega
    omega

theorem unpaidFee_nonneg : 0 ≤ unpaidFee collateral totals := by
  unfold unpaidFee
  split <;> omega

theorem unpaidFee_le_waivable (nonneg : 0 ≤ totals.waivable) :
    unpaidFee collateral totals ≤ totals.waivable := by
  unfold unpaidFee
  split <;> omega

theorem unpaidFee_bounds (waived : unpaidFee collateral totals ≠ 0) :
    collateral < 0 ∧ unpaidFee collateral totals ≤ -collateral ∧
      unpaidFee collateral totals ≤ totals.fee ∧
      unpaidFee collateral totals ≤ totals.waivable := by
  unfold unpaidFee at waived ⊢
  split at waived
  · exact absurd rfl waived
  · rename_i given
    rw [if_neg given]
    omega

theorem unpaidFee_of_fee_nonpos (free : totals.fee ≤ 0) : unpaidFee collateral totals = 0 := by
  simp [unpaidFee, free]

end Shares

end TorusHyperBft.Account
