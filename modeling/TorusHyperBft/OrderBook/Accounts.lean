import TorusHyperBft.OrderBook.Types

namespace TorusHyperBft.OrderBook

open FixedPoint

/-! Running positions and free margins of the traders a placement touches. -/

/-- Signed positions of the traders whose reduce-only orders the book polices. -/
abbrev PositionMap := AList (fun _ : Address => Int)

structure ReduceOnlyPositions where
  positions : PositionMap := ∅

namespace ReduceOnlyPositions

def insert (map : ReduceOnlyPositions) (trader : Address) (signedSize : Int) :
    ReduceOnlyPositions :=
  { positions := map.positions.insert trader signedSize }

def get (map : ReduceOnlyPositions) (trader : Address) : Option Int :=
  map.positions.lookup trader

def isEmpty (map : ReduceOnlyPositions) : Bool := map.positions.entries.isEmpty

def applyFill (map : ReduceOnlyPositions) (trader : Address) (isBuy : Bool) (qty : Int) :
    ReduceOnlyPositions :=
  match map.get trader with
  | none => map
  | some position => map.insert trader (if isBuy then position + qty else position - qty)

section Get

variable {map : ReduceOnlyPositions} {trader other : Address} {isBuy : Bool} {qty : Int}

theorem get_insert (size : Int) :
    (map.insert trader size).get other = if other = trader then some size else map.get other := by
  unfold get insert
  by_cases same : other = trader
  · subst same
    simp [AList.lookup_insert]
  · rw [if_neg same]
    exact AList.lookup_insert_ne same

theorem get_applyFill :
    (map.applyFill trader isBuy qty).get other =
      if other = trader then
        (map.get trader).map fun position => if isBuy then position + qty else position - qty
      else map.get other := by
  unfold applyFill
  cases found : map.get trader with
  | none =>
    dsimp only
    split
    · rename_i same
      rw [same, found]
      rfl
    · rfl
  | some position => rw [get_insert]; rfl

theorem isEmpty_get (empty : map.isEmpty = true) : map.get trader = none := by
  unfold isEmpty at empty
  unfold get
  rw [AList.lookup_eq_none, AList.mem_keys, AList.keys, List.isEmpty_iff.mp empty]
  exact List.not_mem_nil

end Get

end ReduceOnlyPositions

def reduceOnlyAllowance (signedPos : Int) (isBuy : Bool) : Int :=
  if isBuy ∧ signedPos < 0 then -signedPos
  else if ¬ isBuy ∧ 0 < signedPos then signedPos
  else 0

/-- Closing capacity of a trader on one side; a trader not in the map counts as flat. -/
def ReduceOnlyPositions.allowance (map : ReduceOnlyPositions) (trader : Address) (isBuy : Bool) :
    Int :=
  match map.get trader with
  | none => 0
  | some position => reduceOnlyAllowance position isBuy

structure AccountMargin where
  free : Int
  px : Int
deriving DecidableEq

structure TraderMargins where
  taker : Option AccountMargin := none
  takerOnly : Bool := false
  maker : Option AccountMargin := none
deriving DecidableEq

/-- The entry is the trader's own running account, shared by its takers and makers. -/
def TraderMargins.shared (entry : TraderMargins) : Bool :=
  entry.taker.isSome && !entry.takerOnly

structure AccountMargins where
  tiers : MarginTiers := none
  traders : Address → TraderMargins := fun _ => {}
  mark : Option Int := none
  preBatch : Bool := false

namespace AccountMargins

def setEntry (accounts : AccountMargins) (trader : Address) (entry : TraderMargins) :
    AccountMargins :=
  { accounts with traders := fun other => if other = trader then entry else accounts.traders other }

def setFree (accounts : AccountMargins) (trader : Address) (free : Int) : AccountMargins :=
  match (accounts.traders trader).taker with
  | none => accounts
  | some account =>
    accounts.setEntry trader
      { accounts.traders trader with taker := some { account with free } }

end AccountMargins

structure MakerAccount where
  free : Int
  signedPos : Int
  px : Int
deriving DecidableEq

abbrev MakerAccountSource := Address → MarketId → MakerAccount

/-- The running margin of `trader` as a maker: its shared account, else its snapshot,
loaded the first time it is needed (with its position, if the book does not have it). -/
def makerSlot (accounts : AccountMargins) (trader : Address) (marketId : MarketId)
    (source : MakerAccountSource) (positions : ReduceOnlyPositions) :
    AccountMargin × AccountMargins × ReduceOnlyPositions :=
  let entry := accounts.traders trader
  match entry.taker, entry.takerOnly, entry.maker with
  | some account, false, _ => (account, accounts, positions)
  | _, _, some account => (account, accounts, positions)
  | _, _, none =>
    let snapshot := source trader marketId
    let positions :=
      if (positions.get trader).isNone then positions.insert trader snapshot.signedPos
      else positions
    let account := { free := snapshot.free, px := snapshot.px }
    (account, accounts.setEntry trader { entry with maker := some account }, positions)

def AccountMargins.setSlot (accounts : AccountMargins) (trader : Address) (account : AccountMargin) :
    AccountMargins :=
  let entry := accounts.traders trader
  if entry.shared then accounts.setEntry trader { entry with taker := some account }
  else accounts.setEntry trader { entry with maker := some account }

section AccountFill

variable (accounts : AccountMargins) (positions : ReduceOnlyPositions) (source : MakerAccountSource)
  (marketId : MarketId) (trader : Address) (isBuy : Bool) (price quantity : Int)

def accountLoss (closing : Int) : Option MarkLoss :=
  match accounts.mark with
  | none => some .zero
  | some mark => markLoss accounts.tiers mark isBuy price quantity closing

/-- A taker without a match-time limit pays nothing for this fill, however it splits. -/
def takerUncharged : Bool :=
  let charged (closing : Int) : Bool :=
    match accountLoss accounts isBuy price quantity closing with
    | none => true
    | some loss => decide (0 < loss.charge)
  match positions.get trader with
  | some position => !charged (min quantity (reduceOnlyAllowance position isBuy))
  | none => !charged 0 && !charged quantity

/-- What the fill takes off the running free margin, before any mark charge. -/
def fillDelta (account : AccountMargin) (position closing : Int)
    (share : Option (Int × Int)) : Option Int := do
  let size := if position < 0 then -position else position
  let px := if 0 < account.px then account.px else price
  let before ← checkedMul size px
  let kept ← checkedMul (size - closing) px
  let opened ← checkedMul price (quantity - closing)
  let after ← checkedAdd kept opened
  let share ← match share with
    | none => some 0
    | some (sharePrice, remaining) => do
        let whole ← checkedMul sharePrice remaining
        let rest ← checkedMul sharePrice (remaining - quantity)
        return orderInitialMargin accounts.tiers whole - orderInitialMargin accounts.tiers rest
  let delta := imDelta accounts.tiers before after - share
  return if delta = 1 then 0 else delta

def fillCost (delta free closing : Int) (loss : MarkLoss) : Option Int :=
  if loss.charge = 0 then
    if closing = quantity ∨ delta ≤ free then some delta else none
  else
    let fits : Bool :=
      if closing < quantity then
        match (checkedAdd delta loss.loss).bind fun cost => checkedSub cost loss.tolOpen with
        | none => false
        | some cost => decide (cost ≤ free)
      else
        match checkedAdd delta loss.loss with
        | none => false
        | some cost => decide (cost ≤ max free 0)
    if fits then checkedAdd delta loss.charge else none

/-- The running-margin check of one fill, for a maker or (with `taker`) for a taker the
executor does not match-check. -/
def accountFill (share : Option (Int × Int)) (taker : Option Int)
    (commit : Bool) : Bool × AccountMargins × ReduceOnlyPositions :=
  if taker.isSome && takerUncharged accounts positions trader isBuy price quantity then
    (true, accounts, positions)
  else
    let offset : Int :=
      match taker with
      | none => 0
      | some reserved =>
        if (accounts.traders trader).shared then 0
        else if accounts.preBatch then reserved else 0
    let (account, accounts, positions) := makerSlot accounts trader marketId source positions
    let free := account.free - offset
    let position := (positions.get trader).getD 0
    let closing := min quantity (reduceOnlyAllowance position isBuy)
    match fillDelta accounts price quantity account position closing share,
        accountLoss accounts isBuy price quantity closing with
    | some delta, some loss =>
      if loss.charge = 0 ∧ taker.isSome then (true, accounts, positions)
      else
        match fillCost quantity delta free closing loss with
        | none => (false, accounts, positions)
        | some cost =>
          let accounts :=
            if commit then accounts.setSlot trader { account with free := account.free - cost }
            else accounts
          (true, accounts, positions)
    | _, _ => (false, accounts, positions)

/-- Account checks only add the positions of traders the map does not have yet. -/
def Seeded (before after : ReduceOnlyPositions) : Prop :=
  ∀ trader, after.get trader = before.get trader ∨
    (before.get trader = none ∧ after.get trader = some (source trader marketId).signedPos)

theorem Seeded.refl {positions : ReduceOnlyPositions} :
    Seeded source marketId positions positions :=
  fun _ => Or.inl rfl

variable {source marketId} in
theorem Seeded.trans {first second third : ReduceOnlyPositions}
    (left : Seeded source marketId first second) (right : Seeded source marketId second third) :
    Seeded source marketId first third := by
  intro trader
  rcases left trader with same | ⟨absent, seeded⟩
  · rw [← same]
    exact right trader
  · refine Or.inr ⟨absent, ?_⟩
    rcases right trader with same | ⟨still, _⟩
    · rw [same, seeded]
    · rw [seeded] at still
      contradiction

theorem makerSlot_seeded :
    Seeded source marketId positions
      (makerSlot accounts trader marketId source positions).2.2 := by
  unfold makerSlot
  dsimp only
  split
  · exact .refl _ _
  · exact .refl _ _
  · dsimp only
    split
    · rename_i absent
      intro other
      rw [ReduceOnlyPositions.get_insert]
      split
      · rename_i same
        subst same
        exact Or.inr ⟨Option.isNone_iff_eq_none.mp absent, rfl⟩
      · exact Or.inl rfl
    · exact .refl _ _

theorem accountFill_seeded (share : Option (Int × Int)) (taker : Option Int) (commit : Bool) :
    Seeded source marketId positions
      (accountFill accounts positions source marketId trader isBuy price quantity share taker
        commit).2.2 := by
  have seeded := makerSlot_seeded accounts positions source marketId trader
  unfold accountFill
  split
  · exact .refl _ _
  · dsimp only
    generalize makerSlot accounts trader marketId source positions = slot at seeded ⊢
    obtain ⟨account, accounts, positions⟩ := slot
    dsimp only at seeded ⊢
    split
    · split
      · exact seeded
      · split
        · exact seeded
        · exact seeded
    · exact seeded

def makerFillFits (remaining : Int) : Bool × AccountMargins × ReduceOnlyPositions :=
  accountFill accounts positions source marketId trader isBuy price quantity
    (some (price, remaining)) none true

end AccountFill

/-- Binary search between `low` (fits) and `high` lots for a check that may load entries. -/
def largestFitLoop {σ : Type} (quantity step : Int) (fits : Int → σ → Bool × σ)
    (low high : Int) (state : σ) : Int × σ :=
  if 1 < high - low then
    let middle := low + (high - low).tdiv 2
    let candidate := middle * step
    if candidate < quantity then
      let (fit, state) := fits candidate state
      if fit then largestFitLoop quantity step fits middle high state
      else largestFitLoop quantity step fits low middle state
    else largestFitLoop quantity step fits low middle state
  else (low * step, state)
termination_by (high - low).toNat
decreasing_by
  all_goals
    have half : (high - low).tdiv 2 = (high - low) / 2 := Int.tdiv_eq_ediv_of_nonneg (by omega)
    omega

def largestFit {σ : Type} (quantity lot : Int) (fits : Int → σ → Bool × σ)
    (state : σ) : Int × σ :=
  let (fit, state) := fits quantity state
  if fit then (quantity, state)
  else
    let step := if 0 < lot then lot else 1
    largestFitLoop quantity step fits 0 (quantity.tdiv step + 1) state

section LargestFit

variable {σ : Type} {quantity lot step : Int} {fits : Int → σ → Bool × σ} {state : σ}
  {property : σ → Prop}

theorem largestFitLoop_le {low high : Int} (below : low * step ≤ max quantity 0) :
    (largestFitLoop quantity step fits low high state).1 ≤ max quantity 0 := by
  fun_induction largestFitLoop with
  | case1 low high state _ middle candidate smaller _ _ ih => exact ih (by omega)
  | case2 low high state _ middle candidate smaller _ _ _ _ ih => exact ih below
  | case3 low high state _ middle candidate _ ih => exact ih below
  | case4 low high state _ => exact below

theorem largestFit_le : (largestFit quantity lot fits state).1 ≤ max quantity 0 := by
  unfold largestFit
  cases fits quantity state with
  | mk fit next =>
    cases fit with
    | true => exact le_max_left quantity 0
    | false => exact largestFitLoop_le (by rw [Int.zero_mul]; exact le_max_right quantity 0)

theorem largestFitLoop_state (kept : ∀ candidate state, property state →
    property (fits candidate state).2) {low high : Int} (holds : property state) :
    property (largestFitLoop quantity step fits low high state).2 := by
  fun_induction largestFitLoop with
  | case1 low high state _ middle candidate smaller next fit ih =>
    have looked := kept candidate state holds
    rw [fit] at looked
    exact ih looked
  | case2 low high state _ middle candidate smaller fit next found _ ih =>
    have looked := kept candidate state holds
    rw [found] at looked
    exact ih looked
  | case3 low high state _ middle candidate _ ih => exact ih holds
  | case4 low high state _ => exact holds

theorem largestFit_state (kept : ∀ candidate state, property state →
    property (fits candidate state).2) (holds : property state) :
    property (largestFit quantity lot fits state).2 := by
  have first := kept quantity state holds
  unfold largestFit
  cases looked : fits quantity state with
  | mk fit next =>
    rw [looked] at first
    cases fit with
    | true => exact first
    | false => exact largestFitLoop_state kept first

end LargestFit

structure TakerMarginLimit where
  budget : Int
  tiers : MarginTiers
  holdPrice : Option Int
deriving DecidableEq

/-- Running state of a taker's limit during its matching. -/
structure MatchMargin where
  limit : TakerMarginLimit
  lot : Int
  size0 : Int
  px : Int
  allowance0 : Int
  before : Option Int
  budget : Int
  charged : Int := 0
  exhausted : Bool := false
  cutAt : Option Int := none
  takerOnly : Bool
  mark : Option Int
  isBuy : Bool
  adverse : Int := 0
  prechecked : Bool := false
deriving DecidableEq

namespace MatchMargin

def loss (margin : MatchMargin) (price quantity free : Int) : Option MarkLoss :=
  match margin.mark with
  | none => some .zero
  | some mark => markLoss margin.limit.tiers mark margin.isBuy price quantity (min quantity free)

def overReservation (margin : MatchMargin) (need : Int) : Int :=
  let excess := need - margin.limit.budget
  if margin.takerOnly ∧ excess = 1 then 0 else excess

def fits (margin : MatchMargin) (need : Int) : Bool :=
  decide (need ≤ margin.budget) ||
    decide (margin.overReservation need ≤ margin.budget - margin.limit.budget)

def need (margin : MatchMargin) (price quantity free leftBefore : Int) :
    Option Int := do
  let closing := min quantity free
  let closed := margin.allowance0 - free + closing
  let before ← margin.before
  let kept ← checkedMul (margin.size0 - closed) margin.px
  let after ← checkedAdd kept margin.charged
  let opened ← checkedMul price (quantity - closing)
  let after ← checkedAdd after opened
  let after ← match margin.limit.holdPrice with
    | none => some after
    | some hold => do
        let openRest := max ((leftBefore - quantity) - (free - closing)) 0
        checkedAdd after (← checkedMul hold openRest)
  return imDelta margin.limit.tiers before after

def fillFits (margin : MatchMargin) (price free leftBefore quantity : Int) : Bool :=
  match margin.loss price quantity free with
  | none => false
  | some loss =>
    let need := (margin.need price quantity free leftBefore).bind
      fun need => checkedAdd need margin.adverse
    if loss.charge = 0 then
      decide (quantity ≤ free) || (need.map margin.fits).getD false
    else
      match need.bind fun need => checkedAdd need loss.loss with
      | none => false
      | some cost =>
        if free < quantity then
          ((checkedSub cost loss.tolOpen).map margin.fits).getD false
        else
          let before := (margin.need price 0 free leftBefore).bind
            fun need => checkedAdd need margin.adverse
          margin.fits cost || (before.map fun before => decide (cost ≤ before)).getD false

def affordable (margin : MatchMargin) (price quantity free leftBefore : Int) : Int :=
  if margin.prechecked then quantity
  else
    (largestFit quantity margin.lot
      (fun candidate (_ : Unit) => (margin.fillFits price free leftBefore candidate, ())) ()).1

end MatchMargin

/-- A taker without a match-time limit in a book with a mark. -/
structure UncheckedTaker where
  lot : Int
  sharePrice : Option Int
  reserved : Int
  exhausted : Bool := false
  cutAt : Option Int := none
deriving DecidableEq

end TorusHyperBft.OrderBook
