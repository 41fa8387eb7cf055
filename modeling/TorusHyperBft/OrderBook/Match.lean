import TorusHyperBft.OrderBook.Book

namespace TorusHyperBft.OrderBook

open FixedPoint

/-! Matching one taker against the opposite ladder, best price first and oldest order
first within a level. -/

/-- Everything a taker's matching carries along, apart from the queues themselves. -/
structure Matching where
  taker : Order
  margin : Option MatchMargin := none
  unchecked : Option UncheckedTaker := none
  positions : ReduceOnlyPositions
  accounts : AccountMargins
  indexes : Indexes
  fills : List Fill := []
  selfTradeCancels : List Order := []
  reduceOnlyCuts : List ReduceOnlyCut := []
  marginCancels : List ReduceOnlyCut := []

/-- What the book may ask about the other side of a fill. -/
structure MatchEnv where
  marketId : MarketId
  makers : Option MakerAccountSource

/-- Positions are loaded where there is a source. -/
def MatchEnv.Seeded (env : MatchEnv) (before after : ReduceOnlyPositions) : Prop :=
  match env.makers with
  | none => after = before
  | some source => OrderBook.Seeded source env.marketId before after

theorem MatchEnv.Seeded.refl {env : MatchEnv} {positions : ReduceOnlyPositions} :
    env.Seeded positions positions := by
  unfold MatchEnv.Seeded
  split
  · rfl
  · exact OrderBook.Seeded.refl _ _

theorem MatchEnv.Seeded.trans {env : MatchEnv} {first second third : ReduceOnlyPositions}
    (left : env.Seeded first second) (right : env.Seeded second third) :
    env.Seeded first third := by
  unfold MatchEnv.Seeded at *
  cases makers : env.makers with
  | none =>
    rw [makers] at left right
    exact right.trans left
  | some source =>
    rw [makers] at left right
    exact OrderBook.Seeded.trans left right

theorem MatchEnv.Seeded.get_some {env : MatchEnv} {before after : ReduceOnlyPositions}
    {trader : Address} {position : Int} (seeded : env.Seeded before after)
    (found : before.get trader = some position) : after.get trader = some position := by
  unfold MatchEnv.Seeded at seeded
  cases makers : env.makers with
  | none =>
    rw [makers] at seeded
    rw [seeded, found]
  | some source =>
    rw [makers] at seeded
    rcases seeded trader with same | ⟨absent, _⟩
    · rw [same, found]
    · rw [found] at absent
      contradiction

namespace Matching

def exhausted (matching : Matching) : Bool :=
  (matching.margin.map MatchMargin.exhausted).getD false ||
    (matching.unchecked.map UncheckedTaker.exhausted).getD false

def cutPrice (matching : Matching) : Option Int :=
  (matching.margin.bind MatchMargin.cutAt).or (matching.unchecked.bind UncheckedTaker.cutAt)

def takerFree (matching : Matching) : Int :=
  matching.positions.allowance matching.taker.trader matching.taker.isBuy

def takerAffordable (matching : Matching) (price quantity : Int) : Int :=
  match matching.margin with
  | none => quantity
  | some margin =>
    margin.affordable price quantity matching.takerFree matching.taker.remainingQty

def uncheckedShare (matching : Matching) (unchecked : UncheckedTaker) :
    Option (Int × Int) :=
  unchecked.sharePrice.map fun price => (price, matching.taker.remainingQty)

/-- The part of a fill that an unchecked taker's running account allows; looking may load
account entries. -/
def uncheckedAffordable (env : MatchEnv) (matching : Matching) (price quantity : Int) :
    Int × Matching :=
  match matching.unchecked, env.makers with
  | some unchecked, some source =>
    let (fit, accounts, positions) := largestFit quantity unchecked.lot
      (fun candidate (state : AccountMargins × ReduceOnlyPositions) =>
        accountFill state.1 state.2 source env.marketId matching.taker.trader
          matching.taker.isBuy price candidate (matching.uncheckedShare unchecked)
          (some unchecked.reserved) false)
      (matching.accounts, matching.positions)
    (fit, { matching with accounts, positions })
  | _, _ => (quantity, matching)

def makerAffords (env : MatchEnv) (matching : Matching) (price quantity : Int)
    (maker : Order) : Bool × Matching :=
  match env.makers with
  | none => (true, matching)
  | some source =>
    let (fits, accounts, positions) := makerFillFits matching.accounts matching.positions source
      env.marketId maker.trader maker.isBuy price quantity maker.remainingQty
    (fits, { matching with accounts, positions })

def exhaustMargin (matching : Matching) (price : Int) : Matching :=
  { matching with margin := matching.margin.map fun margin =>
      { margin with exhausted := true, cutAt := some price } }

def exhaustUnchecked (matching : Matching) (price : Int) : Matching :=
  { matching with unchecked := matching.unchecked.map fun unchecked =>
      { unchecked with exhausted := true, cutAt := some price } }

/-- Charge a fill to the taker's limit; `cut` says it was cut to what fitted. -/
def commitMargin (matching : Matching) (price quantity free : Int) (cut : Bool) : Matching :=
  let matching := if cut then matching.exhaustMargin price else matching
  { matching with margin := matching.margin.map fun margin =>
      { margin with
        adverse := match margin.loss price quantity free with
          | none => margin.adverse
          | some loss => margin.adverse + loss.charge
        charged := margin.charged + mul price (quantity - min quantity free) } }

def commitUnchecked (env : MatchEnv) (matching : Matching) (price quantity : Int)
    (cut : Bool) : Matching :=
  match matching.unchecked, env.makers with
  | some unchecked, some source =>
    let share := matching.uncheckedShare unchecked
    let matching := if cut then matching.exhaustUnchecked price else matching
    let (_, accounts, positions) := accountFill matching.accounts matching.positions source
      env.marketId matching.taker.trader matching.taker.isBuy price quantity share
      (some unchecked.reserved) true
    { matching with accounts, positions }
  | _, _ => matching

def applyPositions (matching : Matching) (maker : Order) (quantity : Int) : Matching :=
  if matching.positions.isEmpty then matching
  else
    let positions := matching.positions.applyFill matching.taker.trader matching.taker.isBuy quantity
    { matching with positions := positions.applyFill maker.trader maker.isBuy quantity }

end Matching

/-- What matching does with the order at the front of the queue. -/
inductive Visit where
  | selfTrade
  | cut
  | starved (matching : Matching)
  | marginCancel (matching : Matching)
  | fill (quantity : Int) (matching : Matching)

/-- How much of a policed reduce-only maker may fill; `none` for one with nothing left to
reduce. -/
def makerFillable (positions : ReduceOnlyPositions) (maker : Order) : Option Int :=
  if maker.reduceOnly then
    match positions.get maker.trader with
    | none => some maker.remainingQty
    | some position =>
      let allowed := reduceOnlyAllowance position maker.isBuy
      if allowed ≤ 0 then none else some (min maker.remainingQty allowed)
  else some maker.remainingQty

def visit (env : MatchEnv) (price : Int) (maker : Order) (matching : Matching) : Visit :=
  if maker.trader = matching.taker.trader then .selfTrade
  else
    match makerFillable matching.positions maker with
    | none => .cut
    | some fillable =>
      let wanted := min matching.taker.remainingQty fillable
      let free := matching.takerFree
      let affordable := matching.takerAffordable price wanted
      if matching.margin.isSome ∧ affordable ≤ 0 then .starved (matching.exhaustMargin price)
      else
        let (fit, loaded) := matching.uncheckedAffordable env price affordable
        if loaded.unchecked.isSome ∧ env.makers.isSome ∧ fit ≤ 0 then
          .starved (loaded.exhaustUnchecked price)
        else
          let (fits, checked) := loaded.makerAffords env price fit maker
          if fits then
            let charged := checked.commitMargin price fit free (decide (affordable < wanted))
            let committed := charged.commitUnchecked env price fit (decide (fit < affordable))
            .fill fit (committed.applyPositions maker fit)
          else .marginCancel checked

namespace Matching

def cutOf (order : Order) : ReduceOnlyCut :=
  { orderId := order.id, trader := order.trader, price := order.price, qty := order.remainingQty }

def forget (matching : Matching) (order : Order) : Matching :=
  { matching with indexes := matching.indexes.forget order }

def cancelSelfTrade (matching : Matching) (maker : Order) : Matching :=
  { matching.forget maker with selfTradeCancels := matching.selfTradeCancels ++ [maker] }

def cutMaker (matching : Matching) (maker : Order) : Matching :=
  { matching.forget maker with reduceOnlyCuts := matching.reduceOnlyCuts ++ [cutOf maker] }

def marginCancelMaker (matching : Matching) (maker : Order) : Matching :=
  { matching.forget maker with marginCancels := matching.marginCancels ++ [cutOf maker] }

def fillOf (taker maker : Order) (price quantity : Int) : Fill :=
  { makerOrderId := maker.id
    takerOrderId := taker.id
    price
    quantity
    maker := maker.trader
    taker := taker.trader
    makerSide := maker.side
    timestamp := taker.timestamp }

def recordFill (matching : Matching) (maker : Order) (price quantity : Int) : Matching :=
  { matching with
    fills := matching.fills ++ [fillOf matching.taker maker price quantity]
    taker := { matching.taker with remainingQty := matching.taker.remainingQty - quantity } }

end Matching

def Order.filled (maker : Order) (quantity : Int) : Order :=
  { maker with remainingQty := maker.remainingQty - quantity }

/-- Nothing but the margins and the positions changed. -/
structure SameRecord (before after : Matching) : Prop where
  taker : after.taker = before.taker
  indexes : after.indexes = before.indexes
  fills : after.fills = before.fills
  selfTradeCancels : after.selfTradeCancels = before.selfTradeCancels
  reduceOnlyCuts : after.reduceOnlyCuts = before.reduceOnlyCuts
  marginCancels : after.marginCancels = before.marginCancels

theorem SameRecord.refl (matching : Matching) : SameRecord matching matching :=
  ⟨rfl, rfl, rfl, rfl, rfl, rfl⟩

theorem SameRecord.trans {first second third : Matching} (left : SameRecord first second)
    (right : SameRecord second third) : SameRecord first third where
  taker := right.taker.trans left.taker
  indexes := right.indexes.trans left.indexes
  fills := right.fills.trans left.fills
  selfTradeCancels := right.selfTradeCancels.trans left.selfTradeCancels
  reduceOnlyCuts := right.reduceOnlyCuts.trans left.reduceOnlyCuts
  marginCancels := right.marginCancels.trans left.marginCancels

namespace Matching

variable {env : MatchEnv} {price quantity : Int} {maker : Order} {matching : Matching}

theorem takerAffordable_le :
    matching.takerAffordable price quantity ≤ max quantity 0 ∨
      matching.takerAffordable price quantity = quantity := by
  unfold takerAffordable
  split
  · exact Or.inr rfl
  · unfold MatchMargin.affordable
    split
    · exact Or.inr rfl
    · exact Or.inl largestFit_le

theorem takerAffordable_none (unlimited : matching.margin = none) :
    matching.takerAffordable price quantity = quantity := by
  rw [takerAffordable, unlimited]

theorem uncheckedAffordable_cases (env : MatchEnv) (matching : Matching) (price quantity : Int) :
    (matching.uncheckedAffordable env price quantity).1 ≤ max quantity 0 ∨
      (matching.uncheckedAffordable env price quantity).1 = quantity := by
  unfold uncheckedAffordable
  split
  · exact Or.inl largestFit_le
  · exact Or.inr rfl

theorem uncheckedAffordable_inactive
    (inactive : ¬ (matching.unchecked.isSome ∧ env.makers.isSome)) :
    matching.uncheckedAffordable env price quantity = (quantity, matching) := by
  unfold uncheckedAffordable
  split
  · simp_all
  · rfl

theorem uncheckedAffordable_same :
    SameRecord matching (matching.uncheckedAffordable env price quantity).2 ∧
      (matching.uncheckedAffordable env price quantity).2.margin = matching.margin ∧
      (matching.uncheckedAffordable env price quantity).2.unchecked = matching.unchecked := by
  unfold uncheckedAffordable
  split
  · exact ⟨⟨rfl, rfl, rfl, rfl, rfl, rfl⟩, rfl, rfl⟩
  · exact ⟨.refl _, rfl, rfl⟩

theorem makerAffords_same :
    SameRecord matching (matching.makerAffords env price quantity maker).2 ∧
      (matching.makerAffords env price quantity maker).2.margin = matching.margin ∧
      (matching.makerAffords env price quantity maker).2.unchecked = matching.unchecked := by
  unfold makerAffords
  split
  · exact ⟨.refl _, rfl, rfl⟩
  · exact ⟨⟨rfl, rfl, rfl, rfl, rfl, rfl⟩, rfl, rfl⟩

theorem uncheckedAffordable_seeded :
    env.Seeded matching.positions
      (matching.uncheckedAffordable env price quantity).2.positions := by
  unfold uncheckedAffordable
  split
  · rename_i unchecked source _ makers
    have seeded := @largestFit_state _ quantity unchecked.lot _ (matching.accounts, matching.positions)
      (fun state => OrderBook.Seeded source env.marketId matching.positions state.2)
      (fun candidate (state : AccountMargins × ReduceOnlyPositions) before =>
        before.trans (accountFill_seeded state.1 state.2 source env.marketId matching.taker.trader
          matching.taker.isBuy price candidate (matching.uncheckedShare unchecked)
          (some unchecked.reserved) false)) (.refl _ _)
    rw [MatchEnv.Seeded, makers]
    exact seeded
  · exact .refl

theorem makerAffords_seeded :
    env.Seeded matching.positions (matching.makerAffords env price quantity maker).2.positions := by
  unfold makerAffords
  split
  · exact .refl
  · rename_i source makers
    rw [MatchEnv.Seeded, makers]
    exact accountFill_seeded _ _ _ _ _ _ _ _ _ _ _

theorem commitUnchecked_seeded {cut : Bool} :
    env.Seeded matching.positions
      (matching.commitUnchecked env price quantity cut).positions := by
  unfold commitUnchecked
  split
  · rename_i unchecked source _ makers
    rw [MatchEnv.Seeded, makers]
    cases cut <;> exact accountFill_seeded _ _ _ _ _ _ _ _ _ _ _
  · exact .refl

theorem exhaustMargin_same : SameRecord matching (matching.exhaustMargin price) :=
  ⟨rfl, rfl, rfl, rfl, rfl, rfl⟩

theorem exhaustMargin_exhausted (limited : matching.margin.isSome) :
    (matching.exhaustMargin price).exhausted = true := by
  obtain ⟨margin, found⟩ := Option.isSome_iff_exists.mp limited
  simp [exhaustMargin, exhausted, found]

theorem exhaustUnchecked_same : SameRecord matching (matching.exhaustUnchecked price) :=
  ⟨rfl, rfl, rfl, rfl, rfl, rfl⟩

theorem exhaustUnchecked_exhausted (unlimited : matching.unchecked.isSome) :
    (matching.exhaustUnchecked price).exhausted = true := by
  obtain ⟨unchecked, found⟩ := Option.isSome_iff_exists.mp unlimited
  simp [exhaustUnchecked, exhausted, found]

theorem commitMargin_same {free : Int} {cut : Bool} :
    SameRecord matching (matching.commitMargin price quantity free cut) := by
  unfold commitMargin
  cases cut <;> exact ⟨rfl, rfl, rfl, rfl, rfl, rfl⟩

theorem commitMargin_exhausted {free : Int} {cut : Bool} :
    (matching.commitMargin price quantity free cut).exhausted =
      (matching.exhausted || (cut && matching.margin.isSome)) := by
  cases limited : matching.margin with
  | none => cases cut <;> simp [commitMargin, exhausted, exhaustMargin, limited]
  | some margin => cases cut <;> simp [commitMargin, exhausted, exhaustMargin, limited]

theorem commitMargin_unchecked {free : Int} {cut : Bool} :
    (matching.commitMargin price quantity free cut).unchecked = matching.unchecked := by
  cases cut <;> rfl

theorem commitMargin_positions {free : Int} {cut : Bool} :
    (matching.commitMargin price quantity free cut).positions = matching.positions := by
  cases cut <;> rfl

theorem commitUnchecked_same {cut : Bool} :
    SameRecord matching (matching.commitUnchecked env price quantity cut) := by
  unfold commitUnchecked
  split
  · cases cut <;> exact ⟨rfl, rfl, rfl, rfl, rfl, rfl⟩
  · exact .refl _

theorem commitUnchecked_exhausted {cut : Bool} :
    (matching.commitUnchecked env price quantity cut).exhausted =
      (matching.exhausted || (cut && matching.unchecked.isSome && env.makers.isSome)) := by
  unfold commitUnchecked
  split
  · rename_i unchecked source found makers
    cases cut <;> simp [exhausted, exhaustUnchecked, found, makers]
  · rename_i inactive
    cases unlimited : matching.unchecked with
    | none => simp
    | some unchecked =>
      cases makers : env.makers with
      | none => simp
      | some source => exact absurd makers (inactive unchecked source unlimited)

theorem applyPositions_same : SameRecord matching (matching.applyPositions maker quantity) := by
  unfold applyPositions
  split <;> exact ⟨rfl, rfl, rfl, rfl, rfl, rfl⟩

theorem applyPositions_get (trader : Address) :
    (matching.applyPositions maker quantity).positions.get trader =
      ((matching.positions.applyFill matching.taker.trader matching.taker.isBuy quantity).applyFill
        maker.trader maker.isBuy quantity).get trader := by
  unfold applyPositions
  split
  · rename_i empty
    have absent := fun trader => @ReduceOnlyPositions.isEmpty_get _ trader empty
    simp [ReduceOnlyPositions.get_applyFill, absent]
  · rfl

theorem applyPositions_exhausted :
    (matching.applyPositions maker quantity).exhausted = matching.exhausted := by
  unfold applyPositions
  split <;> rfl

theorem exhausted_congr {after : Matching} (margin : after.margin = matching.margin)
    (unchecked : after.unchecked = matching.unchecked) : after.exhausted = matching.exhausted := by
  rw [exhausted, exhausted, margin, unchecked]

end Matching

theorem makerFillable_bounds {positions : ReduceOnlyPositions} {maker : Order} {fillable : Int}
    (found : makerFillable positions maker = some fillable) :
    fillable ≤ maker.remainingQty ∧ (0 < fillable ∨ fillable = maker.remainingQty) := by
  unfold makerFillable at found
  split at found
  · split at found
    · cases found
      exact ⟨le_refl _, Or.inr rfl⟩
    · dsimp only at found
      split at found
      · contradiction
      · cases found
        omega
  · cases found
    exact ⟨le_refl _, Or.inr rfl⟩

/-- What the taker may find at a maker, with what it checked. -/
inductive Visited (env : MatchEnv) (maker : Order) (matching : Matching) : Visit → Prop where
  | selfTrade (own : maker.trader = matching.taker.trader) : Visited env maker matching .selfTrade
  | cut (other : maker.trader ≠ matching.taker.trader)
      (spent : makerFillable matching.positions maker = none) : Visited env maker matching .cut
  | starved {after : Matching} (other : maker.trader ≠ matching.taker.trader)
      (same : SameRecord matching after)
      (seeded : env.Seeded matching.positions after.positions)
      (exhausted : after.exhausted = true) : Visited env maker matching (.starved after)
  | marginCancel {after : Matching} (other : maker.trader ≠ matching.taker.trader)
      (same : SameRecord matching after)
      (seeded : env.Seeded matching.positions after.positions)
      (exhausted : after.exhausted = matching.exhausted) :
      Visited env maker matching (.marginCancel after)
  | fill {fillable quantity : Int} {loaded : ReduceOnlyPositions} {after : Matching}
      (other : maker.trader ≠ matching.taker.trader)
      (policed : makerFillable matching.positions maker = some fillable)
      (same : SameRecord matching after)
      (seeded : env.Seeded matching.positions loaded)
      (moved : ∀ trader, after.positions.get trader =
        ((loaded.applyFill matching.taker.trader matching.taker.isBuy quantity).applyFill
          maker.trader maker.isBuy quantity).get trader)
      (bounded : (0 < quantity ∧ quantity ≤ matching.taker.remainingQty ∧ quantity ≤ fillable) ∨
        (quantity = maker.remainingQty ∧ quantity ≤ 0))
      (whole : after.exhausted = true ∨ (after.exhausted = matching.exhausted ∧
        quantity = min matching.taker.remainingQty fillable)) :
      Visited env maker matching (.fill quantity after)

theorem visit_visited {env : MatchEnv} {price : Int} {maker : Order} {matching : Matching}
    (wants : 0 < matching.taker.remainingQty) :
    Visited env maker matching (visit env price maker matching) := by
  unfold visit
  by_cases own : maker.trader = matching.taker.trader
  · rw [if_pos own]
    exact .selfTrade own
  rw [if_neg own]
  cases policed : makerFillable matching.positions maker with
  | none => exact .cut own policed
  | some fillable =>
    dsimp only
    have fillable_bounds := makerFillable_bounds policed
    generalize wantedEq : min matching.taker.remainingQty fillable = wanted
    have affordable_le := @Matching.takerAffordable_le price wanted matching
    have unlimited := @Matching.takerAffordable_none price wanted matching
    generalize matching.takerAffordable price wanted = affordable at affordable_le unlimited ⊢
    by_cases starves : matching.margin.isSome ∧ affordable ≤ 0
    · rw [if_pos starves]
      exact .starved own Matching.exhaustMargin_same .refl
        (Matching.exhaustMargin_exhausted starves.1)
    rw [if_neg starves]
    obtain ⟨loadedSame, loadedMargin, loadedUnchecked⟩ :=
      @Matching.uncheckedAffordable_same env price affordable matching
    have loadedSeeded := @Matching.uncheckedAffordable_seeded env price affordable matching
    have fit_le := Matching.uncheckedAffordable_cases env matching price affordable
    have inactive := @Matching.uncheckedAffordable_inactive env price affordable matching
    generalize matching.uncheckedAffordable env price affordable = outcome at *
    obtain ⟨fit, loaded⟩ := outcome
    dsimp only at loadedSame loadedMargin loadedUnchecked fit_le ⊢
    rw [loadedUnchecked]
    by_cases starved : matching.unchecked.isSome ∧ env.makers.isSome ∧ fit ≤ 0
    · rw [if_pos starved]
      exact .starved own (loadedSame.trans Matching.exhaustUnchecked_same) loadedSeeded
        (Matching.exhaustUnchecked_exhausted (by rw [loadedUnchecked]; exact starved.1))
    rw [if_neg starved]
    obtain ⟨checkedSame, checkedMargin, checkedUnchecked⟩ :=
      @Matching.makerAffords_same env price fit maker loaded
    have checkedSeeded := @Matching.makerAffords_seeded env price fit maker loaded
    generalize loaded.makerAffords env price fit maker = verdict at *
    obtain ⟨fits, checked⟩ := verdict
    dsimp only at checkedSame checkedMargin checkedUnchecked ⊢
    have checkedExhausted : checked.exhausted = matching.exhausted :=
      Matching.exhausted_congr (checkedMargin.trans loadedMargin)
        (checkedUnchecked.trans loadedUnchecked)
    cases fits with
    | false =>
      exact .marginCancel own (loadedSame.trans checkedSame)
        (loadedSeeded.trans checkedSeeded) checkedExhausted
    | true =>
      rw [if_pos rfl]
      -- A quantity that is not positive is left only where no check runs.
      have affordableCases : (0 < affordable ∧ affordable ≤ wanted) ∨
          (affordable = wanted ∧ wanted ≤ 0) := by
        cases limited : matching.margin with
        | none =>
          have := unlimited limited
          omega
        | some margin =>
          have : ¬ affordable ≤ 0 := fun low => starves ⟨by simp [limited], low⟩
          omega
      have fitCases : (0 < fit ∧ fit ≤ affordable) ∨ (fit = affordable ∧ affordable ≤ 0) := by
        by_cases active : matching.unchecked.isSome ∧ env.makers.isSome
        · have : ¬ fit ≤ 0 := fun low => starved ⟨active.1, active.2, low⟩
          omega
        · have : fit = affordable := (Prod.mk.inj (inactive active)).1
          omega
      have chargedPositions := @Matching.commitMargin_positions price fit checked
        matching.takerFree (decide (affordable < wanted))
      have chargedSame := @Matching.commitMargin_same price fit checked
        matching.takerFree (decide (affordable < wanted))
      have chargedExhausted := @Matching.commitMargin_exhausted price fit checked
        matching.takerFree (decide (affordable < wanted))
      have chargedUnchecked := @Matching.commitMargin_unchecked price fit checked
        matching.takerFree (decide (affordable < wanted))
      generalize checked.commitMargin price fit matching.takerFree
        (decide (affordable < wanted)) = charged at *
      have committedSeeded := @Matching.commitUnchecked_seeded env price fit charged
        (decide (fit < affordable))
      have committedSame := @Matching.commitUnchecked_same env price fit charged
        (decide (fit < affordable))
      have committedExhausted := @Matching.commitUnchecked_exhausted env price fit charged
        (decide (fit < affordable))
      generalize charged.commitUnchecked env price fit (decide (fit < affordable)) = committed
        at *
      have committedRecord : SameRecord matching committed :=
        loadedSame.trans (checkedSame.trans (chargedSame.trans committedSame))
      rw [chargedPositions] at committedSeeded
      refine .fill own policed (committedRecord.trans Matching.applyPositions_same)
        (loadedSeeded.trans (checkedSeeded.trans committedSeeded)) (fun trader => ?_) ?_ ?_
      · rw [Matching.applyPositions_get, committedRecord.taker]
      · omega
      · rw [Matching.applyPositions_exhausted, committedExhausted, chargedExhausted,
          chargedUnchecked, checkedExhausted, checkedMargin, loadedMargin, checkedUnchecked,
          loadedUnchecked]
        by_cases takerCut : affordable < wanted
        · have limited : matching.margin.isSome = true := by
            cases limited : matching.margin with
            | none => have := unlimited limited; omega
            | some margin => rfl
          exact Or.inl (by simp [takerCut, limited])
        by_cases uncheckedCut : fit < affordable
        · have active : matching.unchecked.isSome ∧ env.makers.isSome := by
            by_contra idle
            have : fit = affordable := (Prod.mk.inj (inactive idle)).1
            omega
          exact Or.inl (by simp [uncheckedCut, active.1, active.2])
        exact Or.inr ⟨by simp [takerCut, uncheckedCut], by omega⟩

def queueMeasure (queue : Queue) : Nat :=
  (queue.map fun order => order.remainingQty.toNat + 1).sum

def matchAtLevel (env : MatchEnv) (price : Int) : Queue → Matching → Queue × Matching
  | [], matching => ([], matching)
  | maker :: rest, matching =>
    if _wants : 0 < matching.taker.remainingQty then
      match _visited : visit env price maker matching with
      | .selfTrade => matchAtLevel env price rest (matching.cancelSelfTrade maker)
      | .cut => matchAtLevel env price rest (matching.cutMaker maker)
      | .starved after => (maker :: rest, after)
      | .marginCancel after => matchAtLevel env price rest (after.marginCancelMaker maker)
      | .fill quantity after =>
        let recorded := after.recordFill maker price quantity
        if maker.remainingQty - quantity = 0 then
          let popped := recorded.forget maker
          if popped.exhausted then (rest, popped) else matchAtLevel env price rest popped
        else if recorded.exhausted then (maker.filled quantity :: rest, recorded)
        else matchAtLevel env price (maker.filled quantity :: rest) recorded
    else (maker :: rest, matching)
termination_by queue _ => queueMeasure queue
decreasing_by
  all_goals simp only [queueMeasure, List.map_cons, List.sum_cons, Order.filled]
  all_goals try omega
  -- A maker that stays was filled in part, by a positive quantity.
  have inverted := @visit_visited env price maker matching _wants
  rw [_visited] at inverted
  cases inverted with
  | fill other policed same bounded whole =>
    have := makerFillable_bounds policed
    omega

/-- Walk the levels of the opposite ladder while the taker wants more and their price is
within its limit.  Orders are left in a level only when the taker is done
(`matchAtLevel_done`), so the walk never comes back to a level. -/
def executeMatch (env : MatchEnv) (makerSide : Side) : Ladder → Matching → Ladder × Matching
  | [], matching => ([], matching)
  | (price, queue) :: rest, matching =>
    if 0 < matching.taker.remainingQty ∧ matching.exhausted = false ∧
        withinLimit makerSide price matching.taker.price = true then
      let (left, after) := matchAtLevel env price queue matching
      if left.isEmpty then executeMatch env makerSide rest after
      else ((price, left) :: rest, after)
    else ((price, queue) :: rest, matching)

end TorusHyperBft.OrderBook
