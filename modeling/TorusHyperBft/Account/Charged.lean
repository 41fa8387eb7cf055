import TorusHyperBft.Account.Charge
import TorusHyperBft.Totals

namespace TorusHyperBft.Account

open FixedPoint List VolumeCache
open OrderBook (Address)

/-! Both ways of charging a call's fees debit the same amounts, and the treasury never pays. -/

section Volumes

variable {fees : Option TradingFeeRates} {volumes : VolumeCache} {trader other : Address}
variable {more : FillTotals}

theorem VolumeCache.totals_insert : VolumeCache.totals (AList.insert trader more volumes) other =
    if other = trader then more else volumes.totals other := by
  unfold VolumeCache.totals
  split
  · rename_i same
    subst same
    rw [AList.lookup_insert]
    rfl
  · rename_i different
    rw [AList.lookup_insert_ne different]

theorem VolumeCache.totals_add : (volumes.add trader more).totals other =
    if other = trader then (volumes.totals trader).add more else volumes.totals other :=
  totals_insert

def addSide (volumes : VolumeCache) (side : Address × FillTotals) : VolumeCache :=
  volumes.add side.1 side.2

theorem addFillVolumes_from (fills : List OrderBook.Fill) (first sides : Nat) :
    ((fills.zipIdx first).take ((sides + 1) / 2)).foldl
      (fun volumes (fill, k) =>
        let (taker, maker) := fillSideTotals fees (mul fill.price fill.quantity)
        let volumes := volumes.add fill.taker taker
        if 2 * k + 1 < 2 * first + sides then volumes.add fill.maker maker else volumes)
      volumes = ((fillSides fees fills).take sides).foldl addSide volumes := by
  induction fills generalizing first sides volumes with
  | nil => simp [fillSides]
  | cons fill fills ih =>
    match sides with
    | 0 => simp
    | 1 =>
      have last : ¬ 2 * first + 1 < 2 * first + 1 := by omega
      simp [fillSides, addSide]
    | sides + 2 =>
      have count : (sides + 2 + 1) / 2 = (sides + 1) / 2 + 1 := by omega
      have bound : 2 * first + (sides + 2) = 2 * (first + 1) + sides := by omega
      have more : 2 * first + 1 < 2 * (first + 1) + sides := by omega
      rw [zipIdx_cons, count, take_succ_cons, foldl_cons, bound]
      rw [ih (first + 1) sides]
      simp only [fillSides, take_succ_cons, foldl_cons, addSide, if_pos more]

theorem addFillVolumes_eq (fills : List OrderBook.Fill) (sides : Nat) :
    addFillVolumes fees volumes fills sides =
      ((fillSides fees fills).take sides).foldl addSide volumes := by
  have sum := @addFillVolumes_from fees volumes fills 0 sides
  simpa [addFillVolumes] using sum

def addApplied (volumes : VolumeCache) (side : AppliedSide) : VolumeCache :=
  volumes.add side.trader side.totals

theorem SettledOrder.addFillVolumes_applied (order : SettledOrder) :
    addFillVolumes fees volumes order.fills order.sides =
      (order.applied fees).foldl addApplied volumes := by
  have sides : ((fillSides fees order.fills).take order.sides) =
      (order.applied fees).map fun side => (side.trader, side.totals) := by
    unfold SettledOrder.applied
    rw [map_map]
    exact (zipIdx_map_fst 0 _).symm
  rw [addFillVolumes_eq, sides, foldl_map]
  rfl

theorem ordersVolumes_eq (orders : List SettledOrder) :
    orders.foldl (fun volumes order => addFillVolumes fees volumes order.fills order.sides) volumes =
      (orders.flatMap (SettledOrder.applied fees)).foldl addApplied volumes := by
  induction orders generalizing volumes with
  | nil => rfl
  | cons order orders ih =>
    rw [foldl_cons, flatMap_cons, foldl_append, ih,
      SettledOrder.addFillVolumes_applied]

theorem foldl_addApplied {amount : FillTotals → Int}
    (additive : ∀ totals more, amount (totals.add more) = amount totals + amount more)
    (sides : List AppliedSide) :
    amount ((sides.foldl addApplied volumes).totals trader) =
      amount (volumes.totals trader) +
        totalFor AppliedSide.trader (fun side => amount side.totals) sides trader := by
  induction sides generalizing volumes with
  | nil => simp
  | cons side sides ih =>
    rw [foldl_cons, ih, totalFor_cons, addApplied, totals_add]
    by_cases same : trader = side.trader
    · subst same
      rw [if_pos rfl, if_pos rfl, additive, Int.add_assoc]
    · rw [if_neg same, if_neg (Ne.symm same), Int.zero_add]

theorem VolumeCache.sum_keys (weight : FillTotals → Int) :
    (volumes.keys.map fun trader => weight (volumes.totals trader)).sum =
      Rows.total (fun _ totals => weight totals) volumes := by
  unfold Rows.total AList.keys List.keys
  rw [map_map]
  congr 1
  apply map_congr_left
  intro row member
  have found := Rows.mem_entries_lookup member
  simp [VolumeCache.totals, found]

theorem total_foldl_addApplied {amount : FillTotals → Int} (empty : amount {} = 0)
    (additive : ∀ totals more, amount (totals.add more) = amount totals + amount more)
    (sides : List AppliedSide) :
    Rows.total (fun _ totals => amount totals) (sides.foldl addApplied volumes) =
      Rows.total (fun _ totals => amount totals) volumes +
        (sides.map fun side => amount side.totals).sum := by
  induction sides generalizing volumes with
  | nil => simp
  | cons side sides ih =>
    have standing : Rows.weightAt (fun _ totals => amount totals) volumes side.trader =
        amount (volumes.totals side.trader) := by
      unfold Rows.weightAt VolumeCache.totals
      cases volumes.lookup side.trader with
      | none => exact empty.symm
      | some totals => rfl
    rw [foldl_cons, ih, addApplied, VolumeCache.add, Rows.total_insert, standing, additive,
      map_cons, sum_cons]
    omega

end Volumes

section Shares

variable {active : Bool} {taker maker : Option (List UInt8)} {fees : Option TradingFeeRates}

theorem fillSides_waivable (resolved : fees = resolveTradeFees active taker maker)
    (fills : List OrderBook.Fill) : ∀ side ∈ fillSides fees fills, 0 ≤ side.2.waivable := by
  induction fills with
  | nil => simp [fillSides]
  | cons fill fills ih =>
    have shares := @fillSideTotals_shares active taker maker (mul fill.price fill.quantity) fees
      resolved
    intro side member
    simp only [fillSides, mem_cons] at member
    rcases member with rfl | rfl | member
    · exact shares.1
    · exact shares.2.1
    · exact ih side member

theorem fillSides_net (resolved : fees = resolveTradeFees active taker maker)
    (fills : List OrderBook.Fill) (sides : Nat) :
    0 ≤ (((fillSides fees fills).take sides).map fun side => side.2.fee - side.2.waivable).sum := by
  induction fills generalizing sides with
  | nil => simp [fillSides]
  | cons fill fills ih =>
    have shares := @fillSideTotals_shares active taker maker (mul fill.price fill.quantity) fees
      resolved
    dsimp only at shares
    match sides with
    | 0 => simp
    | 1 =>
      simp only [fillSides, take_succ_cons, take_zero, map_cons, map_nil,
        sum_cons, sum_nil]
      omega
    | sides + 2 =>
      have rest := ih sides
      simp only [fillSides, take_succ_cons, map_cons, sum_cons]
      omega

theorem SettledOrder.applied_map {α : Type} (value : FillTotals → α) (order : SettledOrder) :
    ((order.applied fees).map fun side => value side.totals) =
      ((fillSides fees order.fills).take order.sides).map fun side => value side.2 := by
  unfold SettledOrder.applied
  rw [map_map]
  conv_rhs => rw [← zipIdx_map_fst 0 ((fillSides fees order.fills).take order.sides)]
  rw [map_map]
  rfl

theorem applied_waivable (resolved : fees = resolveTradeFees active taker maker)
    (orders : List SettledOrder) :
    ∀ side ∈ orders.flatMap (SettledOrder.applied fees), 0 ≤ side.totals.waivable := by
  intro side member
  obtain ⟨order, -, inOrder⟩ := mem_flatMap.mp member
  have mapped : side.totals ∈ (order.applied fees).map fun side => side.totals :=
    mem_map_of_mem inOrder
  rw [SettledOrder.applied_map (fun totals => totals)] at mapped
  obtain ⟨listed, inFills, same⟩ := mem_map.mp mapped
  rw [← same]
  exact fillSides_waivable resolved order.fills listed (mem_of_mem_take inFills)

theorem applied_net (resolved : fees = resolveTradeFees active taker maker)
    (orders : List SettledOrder) :
    0 ≤ ((orders.flatMap (SettledOrder.applied fees)).map fun side =>
      side.totals.fee - side.totals.waivable).sum := by
  induction orders with
  | nil => simp
  | cons order orders ih =>
    have first := fillSides_net resolved order.fills order.sides
    rw [← SettledOrder.applied_map fun totals => totals.fee - totals.waivable] at first
    rw [flatMap_cons, map_append, sum_append]
    omega

end Shares

section Cash

variable {balance backend : Address → NativeBalance} {cache : BalanceCache Empty}
variable {addr other trader : Address} {amount : Int} {side : AppliedSide}

def AppliedSide.cash (side : AppliedSide) : Int :=
  (FillEffect.cash { side.effect with fee := 0 }).getD 0

theorem AppliedSide.cash_fee :
    (FillEffect.cash { side.effect with fee := side.totals.fee }).getD 0 =
    side.cash - side.totals.fee := by
  unfold AppliedSide.cash FillEffect.cash
  dsimp only
  cases side.effect.closedPnl with
  | some pnl => simp
  | none =>
    dsimp only
    split <;> split <;> simp only [Option.getD_some, Option.getD_none] <;> omega

theorem AppliedSide.fee_of_cash_none
    (unwritten : FillEffect.cash { side.effect with fee := side.totals.fee } = none) :
    side.totals.fee = 0 := by
  unfold FillEffect.cash at unwritten
  dsimp only at unwritten
  cases closed : side.effect.closedPnl with
  | some pnl => simp [closed] at unwritten
  | none =>
    simp only [closed, ite_eq_right_iff, reduceCtorEq, imp_false, not_or, not_not] at unwritten
    exact unwritten.2

theorem creditTo_apply : creditTo balance addr amount other =
    if other = addr then
      { balance other with available := (balance other).available + amount }
    else balance other := by
  unfold creditTo
  split
  · rename_i same
    subst same
    rw [Function.update_self]
  · rename_i different
    rw [Function.update_of_ne different]

theorem creditTo_zero : creditTo balance addr 0 = balance := by
  funext other
  rw [creditTo_apply, Int.add_zero, ite_self]

theorem applyFillCash_eq : applyFillCash balance side = creditTo balance side.trader side.cash := by
  unfold applyFillCash AppliedSide.cash
  cases FillEffect.cash { side.effect with fee := 0 } with
  | some cash => rfl
  | none => exact creditTo_zero.symm

theorem foldl_creditTo {α : Type} {owner : α → Address} {cash : α → Int} (items : List α) :
    items.foldl (fun balance item => creditTo balance (owner item) (cash item)) balance trader =
      { balance trader with
        available := (balance trader).available + totalFor owner cash items trader } := by
  induction items generalizing balance with
  | nil => simp
  | cons item items ih =>
    rw [foldl_cons, ih, totalFor_cons, creditTo_apply]
    by_cases same : trader = owner item
    · subst same
      simp [Int.add_assoc]
    · simp [same, Ne.symm same]

theorem foldl_applyFillCash (sides : List AppliedSide) :
    sides.foldl applyFillCash balance trader =
      { balance trader with
        available := (balance trader).available +
          totalFor AppliedSide.trader AppliedSide.cash sides trader } := by
  have credits : applyFillCash = fun balance (side : AppliedSide) =>
      creditTo balance side.trader side.cash := by
    funext balance side
    exact applyFillCash_eq
  rw [credits]
  exact foldl_creditTo sides

namespace BalanceCache

theorem peek_set {written : NativeBalance} : (cache.set addr written).peek other =
    if other = addr then some written else cache.peek other := by
  unfold peek BalanceCache.set
  split
  · rename_i same
    subst same
    simp
  · rename_i different
    simp [different]

theorem loadFrom_spec : (cache.loadFrom backend addr).1 = cache.balances backend addr ∧
    ∀ other, (cache.loadFrom backend addr).2.peek other =
      if other = addr then some (cache.balances backend addr) else cache.peek other := by
  have unlatched : cache.latched addr = [] := by
    cases cache.latched addr with
    | nil => rfl
    | cons fault faults => exact fault.elim
  have isRead : cache.load (.ok (backend addr)) addr =
      cache.readThrough (.ok (backend addr)) addr := by
    unfold load
    rw [unlatched]
    cases cache.undo <;> rfl
  unfold loadFrom
  rw [isRead]
  cases found : cache.map addr with
  | some entry =>
    have seen : cache.balances backend addr = entry.balance := by simp [balances, peek, found]
    simp only [readThrough, found, seen, true_and]
    intro other
    split
    · rename_i same
      subst same
      simp [peek, found]
    · rfl
  | none =>
    have seen : cache.balances backend addr = backend addr := by simp [balances, peek, found]
    simp only [readThrough, found, seen, true_and]
    intro other
    split
    · rename_i same
      subst same
      simp [peek]
    · rename_i different
      simp [peek, different]

theorem peek_credit : (cache.credit backend addr amount).peek other =
    if other = addr then
      some { cache.balances backend addr with
        available := (cache.balances backend addr).available + amount }
    else cache.peek other := by
  obtain ⟨seen, cached⟩ := @loadFrom_spec backend cache addr
  unfold credit
  rw [peek_set, seen, cached other]
  split <;> rfl

theorem balances_credit :
    (cache.credit backend addr amount).balances backend =
      creditTo (cache.balances backend) addr amount := by
  funext other
  rw [balances, peek_credit, creditTo_apply]
  split
  · rename_i same
    subst same
    rfl
  · rfl

end BalanceCache

theorem balances_applyFillViaCaches :
    (applyFillViaCaches backend cache side).balances backend =
      creditTo (cache.balances backend) side.trader (side.cash - side.totals.fee) := by
  rw [← AppliedSide.cash_fee]
  unfold applyFillViaCaches
  cases FillEffect.cash { side.effect with fee := side.totals.fee } with
  | some cash => exact BalanceCache.balances_credit
  | none => exact creditTo_zero.symm

theorem balances_foldl_applyFillViaCaches (sides : List AppliedSide) :
    (sides.foldl (applyFillViaCaches backend) cache).balances backend =
      sides.foldl
        (fun balance side => creditTo balance side.trader (side.cash - side.totals.fee))
        (cache.balances backend) := by
  induction sides generalizing cache with
  | nil => rfl
  | cons side sides ih => rw [foldl_cons, foldl_cons, ih, balances_applyFillViaCaches]

theorem fee_of_uncached (sides : List AppliedSide)
    (uncached : (sides.foldl (applyFillViaCaches backend) cache).peek trader = none) :
    cache.peek trader = none ∧
      totalFor AppliedSide.trader (fun side => side.totals.fee) sides trader = 0 := by
  induction sides generalizing cache with
  | nil => exact ⟨uncached, rfl⟩
  | cons side sides ih =>
    obtain ⟨stepped, rest⟩ := ih uncached
    rw [totalFor_cons, rest]
    unfold applyFillViaCaches at stepped
    cases cash : FillEffect.cash { side.effect with fee := side.totals.fee } with
    | none =>
      rw [cash] at stepped
      rw [AppliedSide.fee_of_cash_none cash]
      exact ⟨stepped, by simp⟩
    | some amount =>
      simp only [cash, BalanceCache.peek_credit] at stepped
      split at stepped
      · cases stepped
      · rename_i different
        exact ⟨stepped, by simp [Ne.symm different]⟩

end Cash

def debit (balance : NativeBalance) (fee : Int) : NativeBalance :=
  { balance with available := balance.available - fee }

/-- The part of a trader's fees that is waived, given its balance after they were debited. -/
def waiver (flat : Bool) (debited : NativeBalance) (totals : FillTotals) : Int :=
  match collateralOf debited with
  | some collateral => if flat then unpaidFee collateral totals else 0
  | none => 0

section Waiver

variable {flat : Bool} {debited : NativeBalance} {totals : FillTotals}

theorem waiver_nonneg : 0 ≤ waiver flat debited totals := by
  unfold waiver
  split
  · split
    · exact unpaidFee_nonneg
    · exact le_rfl
  · exact le_rfl

theorem waiver_le_waivable (nonneg : 0 ≤ totals.waivable) :
    waiver flat debited totals ≤ totals.waivable := by
  unfold waiver
  split
  · split
    · exact unpaidFee_le_waivable nonneg
    · exact nonneg
  · exact nonneg

theorem waiver_of_fee_nonpos (free : totals.fee ≤ 0) : waiver flat debited totals = 0 := by
  unfold waiver
  split
  · rw [unpaidFee_of_fee_nonpos free, ite_self]
  · rfl

theorem waiver_bounds (waived : waiver flat debited totals ≠ 0) :
    flat = true ∧ ∃ collateral, collateralOf debited = some collateral ∧ collateral < 0 ∧
      collateral + waiver flat debited totals ≤ 0 ∧
      waiver flat debited totals ≤ totals.fee ∧ waiver flat debited totals ≤ totals.waivable := by
  unfold waiver at waived ⊢
  cases found : collateralOf debited with
  | none => simp [found] at waived
  | some collateral =>
    cases flat with
    | false => simp [found] at waived
    | true =>
      simp only [found, if_true] at waived ⊢
      obtain ⟨negative, shortfall, fee, share⟩ := unpaidFee_bounds waived
      exact ⟨trivial, collateral, rfl, negative, by omega, fee, share⟩

theorem unpaidOf_eq : unpaidOf flat debited totals = waiver flat debited totals := by
  unfold unpaidOf waiver
  cases collateralOf debited with
  | none => rfl
  | some collateral =>
    by_cases negative : collateral < 0
    · simp [Option.filter, negative]
    · have covered : 0 ≤ collateral := by omega
      simp [Option.filter, negative, unpaidFee, covered]

end Waiver

section Single

variable {flat : Address → Bool} {fees : VolumeCache} {trader other : Address}

def paidOf (flat : Address → Bool) (fees : VolumeCache) (balance : Address → NativeBalance)
    (trader : Address) : Int :=
  let totals := fees.totals trader
  totals.fee - waiver (flat trader) (debit (balance trader) totals.fee) totals

theorem chargeTrader_spec (state : FeeLedger × Int) :
    let paid := paidOf flat fees state.1.balance trader
    let charged := chargeTrader flat fees state trader
    charged.1.balance = creditTo state.1.balance trader (-paid) ∧
      charged.1.cumFee =
        Function.update state.1.cumFee trader (state.1.cumFee trader + paid) ∧
      charged.2 = state.2 + paid := by
  intro paid charged
  have isCharged : charged = chargeTrader flat fees state trader := rfl
  unfold chargeTrader at isCharged
  simp only [unpaidOf_eq] at isCharged
  change charged = if paid ≠ 0 then _ else _ at isCharged
  by_cases nothing : paid = 0
  · rw [if_neg (not_not.mpr nothing)] at isCharged
    rw [isCharged, nothing, Int.neg_zero, creditTo_zero, Int.add_zero, Function.update_eq_self,
      Int.add_zero]
    exact ⟨rfl, rfl, rfl⟩
  · rw [if_pos nothing] at isCharged
    rw [isCharged]
    refine ⟨?_, rfl, rfl⟩
    unfold FeeLedger.addCumFee creditTo
    dsimp only
    congr 2
    simp only [paid, paidOf, debit]
    omega

theorem paidOf_congr {balance changed : Address → NativeBalance}
    (same : changed trader = balance trader) :
    paidOf flat fees changed trader = paidOf flat fees balance trader := by
  simp only [paidOf, same]

theorem foldl_chargeTrader {paid : Address → Int} (traders : List Address)
    (nodup : traders.Nodup) (state : FeeLedger × Int)
    (pays : ∀ trader ∈ traders, paidOf flat fees state.1.balance trader = paid trader) :
    let charged := traders.foldl (chargeTrader flat fees) state
    (∀ addr, charged.1.balance addr =
        debit (state.1.balance addr) (totalFor (fun trader => trader) paid traders addr)) ∧
      (∀ addr, charged.1.cumFee addr =
        state.1.cumFee addr + totalFor (fun trader => trader) paid traders addr) ∧
      charged.2 = state.2 + (traders.map paid).sum := by
  induction traders generalizing state with
  | nil => simp [debit]
  | cons trader traders ih =>
    rw [nodup_cons] at nodup
    have first := pays trader mem_cons_self
    obtain ⟨balance, cumFee, total⟩ := @chargeTrader_spec flat fees trader state
    rw [first] at balance cumFee total
    have later : ∀ other ∈ traders,
        paidOf flat fees (chargeTrader flat fees state trader).1.balance other = paid other := by
      intro other member
      have different : other ≠ trader := fun same => nodup.1 (same ▸ member)
      rw [← pays other (mem_cons_of_mem _ member)]
      apply paidOf_congr
      rw [balance, creditTo_apply, if_neg different]
    obtain ⟨balances, cumFees, totals⟩ := ih nodup.2 _ later
    refine ⟨?_, ?_, ?_⟩
    · intro addr
      rw [foldl_cons, balances addr, balance, creditTo_apply, totalFor_cons]
      by_cases same : addr = trader
      · subst same
        simp only [if_pos, debit]
        congr 1
        omega
      · simp only [if_neg same, if_neg (Ne.symm same), debit, Int.zero_add]
    · intro addr
      rw [foldl_cons, cumFees addr, cumFee, totalFor_cons]
      by_cases same : addr = trader
      · subst same
        rw [Function.update_self, if_pos rfl, Int.add_assoc]
      · rw [Function.update_of_ne same, if_neg (Ne.symm same), Int.zero_add]
    · rw [foldl_cons, totals, total, map_cons, sum_cons, Int.add_assoc]

end Single

section Batch

variable {flat : Address → Bool} {trader other : Address}

/-- What the batch path waives of a trader's fees; a balance it has not cached it leaves alone. -/
def waivedIn (flat : Address → Bool) (state : BalanceCache Empty × VolumeCache) (trader : Address) :
    Int :=
  match state.1.peek trader with
  | some balance => waiver (flat trader) balance (state.2.totals trader)
  | none => 0

/-- Waiving gives a part of a trader's fees back to its balance and takes it off its totals. -/
structure Waived (trader : Address) (waived : Int)
    (before after : BalanceCache Empty × VolumeCache) : Prop where
  peek : ∀ other, after.1.peek other =
    if other = trader then (before.1.peek other).map fun balance => debit balance (-waived)
    else before.1.peek other
  totals : ∀ other, after.2.totals other =
    if other = trader then
      { before.2.totals other with fee := (before.2.totals other).fee - waived }
    else before.2.totals other
  keys : trader ∈ before.2 → after.2.keys.Perm before.2.keys

theorem waiveUnpaidFee_spec (state : BalanceCache Empty × VolumeCache) {waived : Int}
    (isWaived : waived = waivedIn flat state trader) :
    Waived trader waived state (waiveUnpaidFee flat state trader) := by
  generalize isAfter : waiveUnpaidFee flat state trader = after
  replace isAfter := isAfter.symm
  unfold waiveUnpaidFee at isAfter
  unfold waivedIn waiver at isWaived
  -- Where nothing is waived, the state is as before.
  have unchanged (nothing : waived = 0) (same : after = state) :
      Waived trader waived state after := by
    rw [same, nothing]
    constructor <;> simp [debit]
  cases isFlat : flat trader with
  | false =>
    apply unchanged
    · rw [isWaived, isFlat]
      split
      · split <;> rfl
      · rfl
    · simpa [isFlat] using isAfter
  | true =>
    simp only [isFlat, if_true] at isAfter isWaived
    cases cached : state.1.peek trader with
    | none =>
      simp only [cached] at isAfter isWaived
      exact unchanged isWaived isAfter
    | some balance =>
      simp only [cached] at isAfter isWaived
      cases found : collateralOf balance with
      | none =>
        simp only [found] at isAfter isWaived
        exact unchanged isWaived isAfter
      | some collateral =>
        simp only [found] at isAfter isWaived
        by_cases nothing : waived = 0
        · rw [← isWaived, if_neg (not_not.mpr nothing)] at isAfter
          exact unchanged nothing isAfter
        · rw [← isWaived, if_pos nothing] at isAfter
          rw [isAfter]
          refine ⟨?_, ?_, ?_⟩
          · intro other
            rw [BalanceCache.peek_set]
            split
            · rename_i same
              subst same
              rw [cached]
              simp [debit]
            · rfl
          · intro other
            rw [totals_insert]
            split
            · rename_i same
              subst same
              rfl
            · rfl
          · intro listed
            rw [AList.keys_insert]
            exact (perm_cons_erase listed).symm

theorem mem_of_perm_keys {volumes changed : VolumeCache} (same : changed.keys.Perm volumes.keys)
    (member : other ∈ volumes) : other ∈ changed :=
  same.mem_iff.mpr member

theorem foldl_waiveUnpaidFee {waived : Address → Int} (traders : List Address)
    (nodup : traders.Nodup) (state : BalanceCache Empty × VolumeCache)
    (listed : ∀ trader ∈ traders, trader ∈ state.2)
    (waives : ∀ trader ∈ traders, waivedIn flat state trader = waived trader) :
    let after := traders.foldl (waiveUnpaidFee flat) state
    (∀ addr, after.1.peek addr = (state.1.peek addr).map fun balance =>
        debit balance (-totalFor (fun trader => trader) waived traders addr)) ∧
      (∀ addr, after.2.totals addr =
        { state.2.totals addr with
          fee := (state.2.totals addr).fee -
            totalFor (fun trader => trader) waived traders addr }) ∧
      after.2.keys.Perm state.2.keys := by
  induction traders generalizing state with
  | nil => simp [debit]
  | cons trader traders ih =>
    rw [nodup_cons] at nodup
    have first := waives trader mem_cons_self
    obtain ⟨peek, totals, keys⟩ := waiveUnpaidFee_spec state first.symm
    have perm := keys (listed trader mem_cons_self)
    have later : ∀ other ∈ traders,
        waivedIn flat (waiveUnpaidFee flat state trader) other = waived other := by
      intro other member
      have different : other ≠ trader := fun same => nodup.1 (same ▸ member)
      rw [← waives other (mem_cons_of_mem _ member)]
      unfold waivedIn
      rw [peek other, totals other, if_neg different, if_neg different]
    have still : ∀ other ∈ traders, other ∈ (waiveUnpaidFee flat state trader).2 := by
      intro other member
      exact mem_of_perm_keys perm (listed other (mem_cons_of_mem _ member))
    obtain ⟨peeks, sums, perms⟩ := ih nodup.2 _ still later
    refine ⟨?_, ?_, perms.trans perm⟩
    · intro addr
      rw [foldl_cons, peeks addr, peek addr, totalFor_cons]
      by_cases same : addr = trader
      · subst same
        rw [if_pos rfl, if_pos rfl, Option.map_map]
        congr 1
        funext balance
        simp only [Function.comp_apply, debit]
        congr 1
        omega
      · rw [if_neg same, if_neg (Ne.symm same), Int.zero_add]
    · intro addr
      rw [foldl_cons, sums addr, totals addr, totalFor_cons]
      by_cases same : addr = trader
      · subst same
        rw [if_pos rfl, if_pos rfl]
        simp only [FillTotals.mk.injEq, true_and, and_true]
        omega
      · rw [if_neg same, if_neg (Ne.symm same), Int.zero_add]

theorem foldl_addCumFee {fee : Address → Int} (traders : List Address) (ledger : FeeLedger) :
    let after := traders.foldl
      (fun ledger trader => if fee trader ≠ 0 then ledger.addCumFee trader (fee trader) else ledger)
      ledger
    after.balance = ledger.balance ∧
      ∀ addr, after.cumFee addr =
        ledger.cumFee addr + totalFor (fun trader => trader) fee traders addr := by
  induction traders generalizing ledger with
  | nil => simp
  | cons trader traders ih =>
    obtain ⟨balance, cumFee⟩ := ih
      (if fee trader ≠ 0 then ledger.addCumFee trader (fee trader) else ledger)
    have first : (if fee trader ≠ 0 then ledger.addCumFee trader (fee trader) else ledger).balance =
        ledger.balance := by split <;> rfl
    refine ⟨?_, ?_⟩
    · rw [foldl_cons, balance, first]
    · intro addr
      rw [foldl_cons, cumFee addr, totalFor_cons, ← Int.add_assoc]
      congr 1
      by_cases nothing : fee trader = 0
      · rw [if_neg (not_not.mpr nothing), nothing, ite_self, Int.add_zero]
      · rw [if_pos nothing]
        unfold FeeLedger.addCumFee
        dsimp only
        by_cases same : addr = trader
        · subst same
          rw [Function.update_self, if_pos rfl]
        · rw [Function.update_of_ne same, if_neg (Ne.symm same), Int.add_zero]

end Batch

/-- How the fees of a call are settled: what each trader pays of them is debited from its available
balance and recorded, the treasury receives the sum, and what a trader does not pay is a waiver. -/
structure FeesPaid (flat : Address → Bool) (treasury : Address) (volumes : VolumeCache)
    (before after : FeeLedger) (paid : Address → Int) : Prop where
  outside : ∀ trader, trader ∉ volumes → paid trader = 0
  orderMargin : ∀ addr, (after.balance addr).orderMargin = (before.balance addr).orderMargin
  available : ∀ addr, (after.balance addr).available =
    (before.balance addr).available - paid addr +
      if addr = treasury then (volumes.keys.map paid).sum else 0
  recorded : ∀ addr, after.cumFee addr = before.cumFee addr + paid addr
  treasury_nonneg : 0 ≤ (volumes.keys.map paid).sum
  waiver_nonneg : ∀ trader, paid trader ≤ (volumes.totals trader).fee
  waiver_bounds : ∀ trader, paid trader ≠ (volumes.totals trader).fee →
    let totals := volumes.totals trader
    let waived := totals.fee - paid trader
    flat trader = true ∧
      ∃ collateral, collateralOf (debit (before.balance trader) totals.fee) = some collateral ∧
        collateral < 0 ∧ collateral + waived ≤ 0 ∧ waived ≤ totals.fee ∧ waived ≤ totals.waivable

section Settled

variable {active : Bool} {taker maker : Option (List UInt8)} {fees : Option TradingFeeRates}
variable {flat : Address → Bool} {volumes : VolumeCache} {trader : Address}

theorem VolumeCache.totals_absent (absent : trader ∉ volumes) : volumes.totals trader = {} := by
  unfold VolumeCache.totals
  rw [AList.lookup_eq_none.mpr absent]
  rfl

variable {balance : Address → NativeBalance}

theorem paidOf_absent (absent : trader ∉ volumes) : paidOf flat volumes balance trader = 0 := by
  simp only [paidOf, totals_absent absent]
  rw [waiver_of_fee_nonpos (le_refl 0), Int.sub_zero]

theorem totalFor_traders {paid : Address → Int} {traders : List Address}
    (same : traders.Perm volumes.keys) (outside : ∀ trader, trader ∉ volumes → paid trader = 0)
    (addr : Address) : totalFor (fun trader => trader) paid traders addr = paid addr := by
  have nodup : (traders.map fun trader => trader).Nodup := by
    rw [List.map_id']
    exact same.nodup_iff.mpr volumes.keys_nodup
  by_cases member : addr ∈ traders
  · exact totalFor_unique nodup member
  · have absent : addr ∉ volumes := fun listed => member (same.mem_iff.mpr listed)
    rw [outside addr absent]
    apply totalFor_absent
    rw [List.map_id']
    exact member

theorem ascending_perm : volumes.ascending.Perm volumes.keys := mergeSort_perm _ _

theorem paid_nonneg (share : ∀ trader, 0 ≤ (volumes.totals trader).waivable)
    (net : 0 ≤ Rows.total (fun _ totals => totals.fee - totals.waivable) volumes) :
    0 ≤ (volumes.keys.map (paidOf flat volumes balance)).sum := by
  rw [← sum_keys fun totals => totals.fee - totals.waivable] at net
  apply le_trans net
  apply sum_le_sum
  intro trader _
  have bound := @waiver_le_waivable (flat trader)
    (debit (balance trader) (volumes.totals trader).fee) _ (share trader)
  simp only [paidOf]
  omega

theorem paidOf_ne_fee (waived : paidOf flat volumes balance trader ≠ (volumes.totals trader).fee) :
    waiver (flat trader) (debit (balance trader) (volumes.totals trader).fee)
      (volumes.totals trader) ≠ 0 := by
  intro nothing
  apply waived
  simp only [paidOf, nothing, Int.sub_zero]

theorem feesPaid_of {treasury : Address} {before after : FeeLedger}
    (share : ∀ trader, 0 ≤ (volumes.totals trader).waivable)
    (net : 0 ≤ Rows.total (fun _ totals => totals.fee - totals.waivable) volumes)
    (balance : after.balance = creditTo
      (fun addr => debit (before.balance addr) (paidOf flat volumes before.balance addr)) treasury
      (volumes.keys.map (paidOf flat volumes before.balance)).sum)
    (cumFee : ∀ addr, after.cumFee addr =
      before.cumFee addr + paidOf flat volumes before.balance addr) :
    FeesPaid flat treasury volumes before after (paidOf flat volumes before.balance) where
  outside trader absent := paidOf_absent absent
  orderMargin addr := by
    rw [balance, creditTo_apply]
    split <;> rfl
  available addr := by
    rw [balance, creditTo_apply]
    split <;> simp [debit]
  recorded := cumFee
  treasury_nonneg := paid_nonneg share net
  waiver_nonneg trader := by
    have nonneg := @waiver_nonneg (flat trader)
      (debit (before.balance trader) (volumes.totals trader).fee) (volumes.totals trader)
    simp only [paidOf]
    omega
  waiver_bounds trader waived := by
    have bounds := waiver_bounds (paidOf_ne_fee waived)
    simpa [paidOf] using bounds

/-- Each trader is debited what it pays, and the treasury gets the sum. -/
theorem chargeOrderFees_spec {treasury : Address} {before : FeeLedger} :
    (chargeOrderFees flat treasury before volumes).balance = creditTo
        (fun addr => debit (before.balance addr) (paidOf flat volumes before.balance addr)) treasury
        (volumes.keys.map (paidOf flat volumes before.balance)).sum ∧
      ∀ addr, (chargeOrderFees flat treasury before volumes).cumFee addr =
        before.cumFee addr + paidOf flat volumes before.balance addr := by
  have nodup : volumes.ascending.Nodup := ascending_perm.nodup_iff.mpr volumes.keys_nodup
  have outside : ∀ trader, trader ∉ volumes → paidOf flat volumes before.balance trader = 0 :=
    fun trader absent => paidOf_absent absent
  obtain ⟨balance, cumFee, total⟩ := foldl_chargeTrader volumes.ascending nodup (before, 0)
    (fun trader _ => @rfl _ (paidOf flat volumes before.balance trader))
  dsimp only at balance cumFee total
  rw [(ascending_perm.map _).sum_eq, Int.zero_add] at total
  unfold chargeOrderFees
  generalize volumes.ascending.foldl (chargeTrader flat volumes) (before, 0) = charged
    at balance cumFee total
  have debited : charged.1.balance = fun addr =>
      debit (before.balance addr) (paidOf flat volumes before.balance addr) := by
    funext addr
    rw [balance addr, totalFor_traders ascending_perm outside]
  have recorded : ∀ addr, charged.1.cumFee addr =
      before.cumFee addr + paidOf flat volumes before.balance addr := by
    intro addr
    rw [cumFee addr, totalFor_traders ascending_perm outside]
  dsimp only
  rw [← total, ← debited]
  by_cases nothing : charged.2 = 0
  · rw [if_neg (not_not.mpr nothing), nothing, creditTo_zero]
    exact ⟨rfl, recorded⟩
  · rw [if_pos nothing]
    exact ⟨rfl, recorded⟩

theorem feeTotal_eq : volumes.entries.foldl (fun sum row => sum + row.2.fee) 0 =
    (volumes.keys.map fun trader => (volumes.totals trader).fee).sum := by
  rw [sum_keys FillTotals.fee]
  unfold Rows.total
  rw [sum_eq_foldl, foldl_map]

variable {cache : BalanceCache Empty}

theorem waivedIn_eq {backend : Address → NativeBalance}
    (uncached : cache.peek trader = none → (volumes.totals trader).fee = 0) :
    waivedIn flat (cache, volumes) trader =
      waiver (flat trader) (cache.balances backend trader) (volumes.totals trader) := by
  unfold waivedIn BalanceCache.balances
  dsimp only
  cases found : cache.peek trader with
  | some balance => rfl
  | none =>
    dsimp only
    rw [waiver_of_fee_nonpos (uncached found).le]

theorem waivedIn_of_unlisted
    (unlisted : ¬ (((cache.peek trader).bind collateralOf).map fun collateral =>
      decide (collateral < 0)).getD false = true) : waivedIn flat (cache, volumes) trader = 0 := by
  unfold waivedIn waiver
  dsimp only
  cases found : cache.peek trader with
  | none => rfl
  | some balance =>
    dsimp only
    cases valued : collateralOf balance with
    | none => rfl
    | some collateral =>
      have covered : 0 ≤ collateral := by simpa [found, valued] using unlisted
      simp [unpaidFee, covered]

theorem totalFor_negative {waived : Address → Int} {negative : List Address}
    (waives : ∀ trader, waivedIn flat (cache, volumes) trader = waived trader)
    (isListed : (volumes.keys.filter fun trader =>
      (((cache.peek trader).bind collateralOf).map fun collateral =>
        decide (collateral < 0)).getD false) = negative) (addr : Address) :
    totalFor (fun trader => trader) waived negative addr = waived addr := by
  have nodup : negative.Nodup := by
    rw [← isListed]
    exact volumes.keys_nodup.filter _
  by_cases member : addr ∈ negative
  · exact totalFor_unique (by simpa using nodup) member
  have absent : totalFor (fun trader => trader) waived negative addr = 0 :=
    totalFor_absent (by simpa using member)
  rw [absent, ← waives addr]
  by_cases inVolumes : addr ∈ volumes
  · symm
    apply waivedIn_of_unlisted
    intro low
    apply member
    rw [← isListed]
    exact mem_filter.mpr ⟨inVolumes, low⟩
  · unfold waivedIn
    dsimp only
    rw [totals_absent inVolumes]
    split
    · rw [waiver_of_fee_nonpos (le_refl 0)]
    · rfl

/-- Waiving leaves each trader debited only what it can pay. -/
theorem waiveUnpaidFees_spec {backend before : Address → NativeBalance} {cache : BalanceCache Empty}
    (debited : ∀ addr, cache.balances backend addr = debit (before addr) (volumes.totals addr).fee)
    (uncached : ∀ trader, cache.peek trader = none → (volumes.totals trader).fee = 0) :
    let after := waiveUnpaidFees flat cache volumes
    (∀ addr, (after.2.totals addr).fee = paidOf flat volumes before addr) ∧
      (after.1.balances backend = fun addr =>
        debit (before addr) (paidOf flat volumes before addr)) ∧
      after.2.keys.Perm volumes.keys := by
  have waives : ∀ trader, waivedIn flat (cache, volumes) trader =
      (volumes.totals trader).fee - paidOf flat volumes before trader := by
    intro trader
    rw [waivedIn_eq (uncached trader), debited trader]
    simp only [paidOf]
    omega
  unfold waiveUnpaidFees
  generalize isListed : (volumes.keys.filter fun trader =>
    (((cache.peek trader).bind collateralOf).map fun collateral =>
      decide (collateral < 0)).getD false) = negative
  have sorted := mergeSort_perm negative fun first second => decide (first ≤ second)
  have nodup : negative.Nodup := by
    rw [← isListed]
    exact volumes.keys_nodup.filter _
  have listed : ∀ trader ∈ negative.mergeSort fun first second => decide (first ≤ second),
      trader ∈ volumes := by
    intro trader member
    have inNegative := sorted.mem_iff.mp member
    rw [← isListed] at inNegative
    exact (mem_filter.mp inNegative).1
  obtain ⟨peeks, totals, perm⟩ := foldl_waiveUnpaidFee _ (sorted.nodup_iff.mpr nodup)
    (cache, volumes) listed (fun trader _ => waives trader)
  have once := fun addr => (totalFor_perm sorted).trans (totalFor_negative waives isListed addr)
  refine ⟨?_, ?_, perm⟩
  · intro addr
    rw [totals addr]
    dsimp only
    rw [once addr]
    omega
  · funext addr
    have standing := debited addr
    unfold BalanceCache.balances at standing ⊢
    rw [peeks addr, once addr]
    dsimp only
    cases cached : cache.peek addr with
    | some balance =>
      rw [cached, Option.getD_some] at standing
      rw [Option.map_some, Option.getD_some, standing]
      simp only [debit]
      congr 1
      omega
    | none =>
      have free := uncached addr cached
      have nothing : paidOf flat volumes before addr = 0 := by
        simp only [paidOf]
        rw [waiver_of_fee_nonpos free.le, free, Int.sub_zero]
      rw [cached, Option.getD_none, free] at standing
      rw [Option.map_none, Option.getD_none, standing, nothing]

/-- The batch path settles the fees as the order path does. -/
theorem finishBatch_spec {treasury : Address} {ledger : FeeLedger} {cache : BalanceCache Empty}
    {before : Address → NativeBalance}
    (debited : ∀ addr, cache.balances ledger.balance addr =
      debit (before addr) (volumes.totals addr).fee)
    (uncached : ∀ trader, cache.peek trader = none → (volumes.totals trader).fee = 0) :
    (finishBatch flat treasury ledger cache volumes).balance = creditTo
        (fun addr => debit (before addr) (paidOf flat volumes before addr)) treasury
        (volumes.keys.map (paidOf flat volumes before)).sum ∧
      ∀ addr, (finishBatch flat treasury ledger cache volumes).cumFee addr =
        ledger.cumFee addr + paidOf flat volumes before addr := by
  obtain ⟨paid, balances, perm⟩ := @waiveUnpaidFees_spec flat _ _ _ _ debited uncached
  unfold finishBatch
  generalize waiveUnpaidFees flat cache volumes = after at paid balances perm
  have feeTotal : after.2.entries.foldl (fun sum row => sum + row.2.fee) 0 =
      (volumes.keys.map (paidOf flat volumes before)).sum := by
    rw [feeTotal_eq, funext paid, (perm.map _).sum_eq]
  have outside : ∀ trader, trader ∉ volumes → paidOf flat volumes before trader = 0 :=
    fun trader absent => paidOf_absent absent
  dsimp only
  rw [feeTotal]
  simp only [paid]
  obtain ⟨balance, cumFee⟩ := @foldl_addCumFee (paidOf flat volumes before) after.2.ascending
    { ledger with
      balance := BalanceCache.balances ledger.balance
        (if (volumes.keys.map (paidOf flat volumes before)).sum ≠ 0 then
          after.1.credit ledger.balance treasury
            (volumes.keys.map (paidOf flat volumes before)).sum
        else after.1) }
  refine ⟨?_, ?_⟩
  · rw [balance, ← balances]
    dsimp only
    split
    · exact BalanceCache.balances_credit
    · rename_i nothing
      rw [not_not.mp nothing, creditTo_zero]
  · intro addr
    rw [cumFee addr, totalFor_traders (ascending_perm.trans perm) outside]

theorem totals_fold (sides : List AppliedSide) :
    ((sides.foldl addApplied ∅).totals trader).fee =
        totalFor AppliedSide.trader (fun side => side.totals.fee) sides trader ∧
      ((sides.foldl addApplied ∅).totals trader).waivable =
        totalFor AppliedSide.trader (fun side => side.totals.waivable) sides trader := by
  have nothing : VolumeCache.totals ∅ trader = {} := rfl
  have fee := @foldl_addApplied ∅ trader FillTotals.fee (fun _ _ => rfl) sides
  have share := @foldl_addApplied ∅ trader FillTotals.waivable (fun _ _ => rfl) sides
  rw [nothing, Int.zero_add] at fee share
  exact ⟨fee, share⟩

theorem totalFor_cash (sides : List AppliedSide) :
    totalFor AppliedSide.trader (fun side => side.cash - side.totals.fee) sides trader =
      totalFor AppliedSide.trader AppliedSide.cash sides trader -
        totalFor AppliedSide.trader (fun side => side.totals.fee) sides trader := by
  induction sides with
  | nil => rfl
  | cons side sides ih =>
    simp only [totalFor_cons, ih]
    split <;> omega

theorem totalFor_zero {sides : List AppliedSide} (zero : ∀ side ∈ sides, side.totals.fee = 0) :
    totalFor AppliedSide.trader (fun side => side.totals.fee) sides trader = 0 := by
  unfold totalFor
  apply sum_eq_zero
  intro part member
  obtain ⟨side, inSides, rfl⟩ := mem_map.mp member
  dsimp only
  rw [zero side inSides, ite_self]

theorem applied_unfeed (off : fees = none) (orders : List SettledOrder) :
    ∀ side ∈ orders.flatMap (SettledOrder.applied fees), side.totals.fee = 0 := by
  subst off
  intro side member
  obtain ⟨order, -, inOrder⟩ := mem_flatMap.mp member
  have mapped : side.totals.fee ∈ (order.applied none).map fun side => side.totals.fee :=
    mem_map_of_mem inOrder
  rw [SettledOrder.applied_map FillTotals.fee] at mapped
  obtain ⟨listed, inFills, same⟩ := mem_map.mp mapped
  rw [← same]
  have inSides := mem_of_mem_take inFills
  generalize order.fills = fills at inSides
  induction fills with
  | nil => simp [fillSides] at inSides
  | cons fill fills ih =>
    simp only [fillSides, mem_cons] at inSides
    rcases inSides with rfl | rfl | inSides
    · rfl
    · rfl
    · exact ih inSides

theorem paidOf_unfeed
    (free : ∀ trader, (volumes.totals trader).fee = 0) : paidOf flat volumes balance = fun _ => 0 := by
  funext trader
  simp only [paidOf]
  rw [waiver_of_fee_nonpos (free trader).le, free trader, Int.sub_zero]

/-- Whatever fills are settled, whoever is flat after them and however many sides of each order were
applied: every trader pays its fees less a waiver, the treasury receives exactly what is paid, which
is never negative, and the single-action path debits what the batch path debits. -/
theorem settleBatch_settleSingly_feesPaid (active : Bool) (taker maker : Option (List UInt8))
    (flat : Address → Bool) (treasury : Address) (ledger : FeeLedger) (cache : BalanceCache Empty)
    (orders : List SettledOrder) :
    let fees := resolveTradeFees active taker maker
    let sides := orders.flatMap (SettledOrder.applied fees)
    let volumes := orders.foldl
      (fun volumes order => addFillVolumes fees volumes order.fills order.sides) ∅
    let start := { ledger with balance := cache.balances ledger.balance }
    let before := { ledger with balance := sides.foldl applyFillCash start.balance }
    ∃ paid : Address → Int,
      FeesPaid flat treasury volumes before
        (settleBatch fees flat treasury ledger cache orders) paid ∧
      FeesPaid flat treasury volumes before
        (settleSingly fees flat treasury start sides) paid := by
  intro fees sides volumes start before
  have isSum : volumes = sides.foldl addApplied ∅ := ordersVolumes_eq orders
  have share : ∀ trader, 0 ≤ (volumes.totals trader).waivable := by
    intro trader
    rw [isSum, (totals_fold sides).2]
    exact totalFor_nonneg (applied_waivable rfl orders)
  have net : 0 ≤ Rows.total (fun _ totals => totals.fee - totals.waivable) volumes := by
    have sum := @total_foldl_addApplied ∅ (fun totals => totals.fee - totals.waivable) rfl
      (fun totals more => by simp only [FillTotals.add]; omega) sides
    rw [isSum, sum]
    have applied := @applied_net active taker maker _ rfl orders
    simpa [Rows.total] using applied
  have debited : ∀ addr,
      (sides.foldl (applyFillViaCaches ledger.balance) cache).balances ledger.balance addr =
        debit (before.balance addr) (volumes.totals addr).fee := by
    intro addr
    rw [balances_foldl_applyFillViaCaches, foldl_creditTo, isSum, (totals_fold sides).1,
      totalFor_cash]
    simp only [before, start, foldl_applyFillCash, debit]
    congr 1
    omega
  have uncached : ∀ trader,
      (sides.foldl (applyFillViaCaches ledger.balance) cache).peek trader = none →
        (volumes.totals trader).fee = 0 := by
    intro trader unread
    rw [isSum, (totals_fold sides).1]
    exact (fee_of_uncached sides unread).2
  have free (off : fees.isSome = false) : ∀ trader, (volumes.totals trader).fee = 0 := by
    intro trader
    rw [isSum, (totals_fold sides).1]
    apply totalFor_zero
    exact applied_unfeed (by simpa using off) orders
  refine ⟨paidOf flat volumes before.balance, ?_, ?_⟩
  · obtain ⟨balance, cumFee⟩ := @finishBatch_spec (fun trader => fees.isSome && flat trader) volumes
      treasury ledger _ _ debited uncached
    have sameFlat : paidOf (fun trader => fees.isSome && flat trader) volumes before.balance =
        paidOf flat volumes before.balance := by
      cases on : fees.isSome with
      | true => simp only [Bool.true_and]
      | false => rw [paidOf_unfeed (free on), paidOf_unfeed (free on)]
    rw [sameFlat] at balance cumFee
    exact feesPaid_of share net balance cumFee
  · cases on : fees.isSome with
    | true =>
      obtain ⟨balance, cumFee⟩ := @chargeOrderFees_spec flat volumes treasury before
      have isCharged : settleSingly fees flat treasury start sides =
          chargeOrderFees flat treasury before volumes := by
        rw [isSum]
        simp only [settleSingly, on, if_true]
        rfl
      rw [isCharged]
      exact feesPaid_of share net balance cumFee
    | false =>
      have isCharged : settleSingly fees flat treasury start sides =
          chargeOrderFees flat treasury before ∅ := by
        simp only [settleSingly, on]
        rfl
      obtain ⟨balance, cumFee⟩ := @chargeOrderFees_spec flat ∅ treasury before
      rw [paidOf_unfeed fun _ => rfl] at balance cumFee
      rw [isCharged]
      apply feesPaid_of share net
      · rw [balance, paidOf_unfeed (free on)]
        simp
      · rw [paidOf_unfeed (free on)]
        exact cumFee

end Settled

end TorusHyperBft.Account
