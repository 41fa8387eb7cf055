import TorusHyperBft.Account.Conserved

namespace TorusHyperBft.Account

open FixedPoint Program List PositionManager
open OrderBook (Address MarketId)

/-! The price at which a bankrupt account ends at zero, and what it keeps when its position is closed
in pieces at that price. -/

/-- `ceil(a / b)` for `b > 0`: truncation is already the ceiling of a negative quotient. -/
def ceilDiv (a b : Int) : Int :=
  if a.tmod b ≠ 0 ∧ a > 0 then a.tdiv b + 1 else a.tdiv b

/-- The close price at which the account ends at zero, rounded against it: down for a long, up for a
short. -/
def bankruptcyPrice (rest : Int) (isLong : Bool) (size basis : Int) : Option Int :=
  if size ≤ 0 then none
  else if isLong then do
    let value ← checkedSub basis rest
    let scaled ← fit (value * scale)
    return scaled / size
  else do
    let value ← checkedAdd basis rest
    let scaled ← fit (value * scale)
    return ceilDiv scaled size

/-- The price of an ADL close: `px` clamped to the bankruptcy price on the side that is worse for the
account; without a usable one the mark stands in for it. -/
def adlPrice (px : Int) (bankruptcy : Option Int) (mark : Int) (isLong : Bool) : Int :=
  let b := (bankruptcy.filter fun b => 0 < b).getD mark
  if isLong then min px b else max px b

def realizedPnl (price : Int) : Position → List Int → Int
  | _, [] => 0
  | pos, q :: rest =>
    let closed :=
      fillTransitionCore (some pos) (fillCross pos.trader pos.marketId (!pos.isLong) q price)
    closed.2.getD 0 + closed.1.elim 0 fun left => realizedPnl price left rest

section Price

variable {rest size basis b price : Int}

theorem bankruptcyPrice_long (is : bankruptcyPrice rest true size basis = some b) :
    0 < size ∧ b = (basis - rest) * scale / size := by
  unfold bankruptcyPrice at is
  split at is
  · cases is
  · rename_i sized
    simp only [if_true, checkedSub, Option.bind_eq_bind, Option.bind_eq_some_iff, Option.pure_def,
      Option.some.injEq] at is
    obtain ⟨value, given, scaled, fits, rfl⟩ := is
    rw [fit_some fits, fit_some given]
    exact ⟨Int.not_le.mp sized, rfl⟩

theorem bankruptcyPrice_short (is : bankruptcyPrice rest false size basis = some b) :
    0 < size ∧ b = ceilDiv ((basis + rest) * scale) size := by
  unfold bankruptcyPrice at is
  split at is
  · cases is
  · rename_i sized
    simp only [Bool.false_eq_true, if_false, checkedAdd, Option.bind_eq_bind,
      Option.bind_eq_some_iff, Option.pure_def, Option.some.injEq] at is
    obtain ⟨value, given, scaled, fits, rfl⟩ := is
    rw [fit_some fits, fit_some given]
    exact ⟨Int.not_le.mp sized, rfl⟩

theorem ceilDiv_bounds {a d : Int} (positive : 0 < d) :
    a ≤ ceilDiv a d * d ∧ (ceilDiv a d - 1) * d < a := by
  have split := Int.tmod_add_mul_tdiv a d
  unfold ceilDiv
  rcases Int.lt_or_le 0 a with above | below
  · have low := Int.tmod_nonneg d above.le
    have high := Int.tmod_lt_of_pos a positive
    by_cases exact_ : a.tmod d = 0
    · rw [if_neg (by simp [exact_])]
      constructor <;> nlinarith
    · rw [if_pos ⟨exact_, above⟩]
      have : 0 < a.tmod d := by omega
      constructor <;> nlinarith
  · have low : a.tmod d ≤ 0 := by
      have negated := Int.tmod_nonneg d (Int.neg_nonneg_of_nonpos below)
      rw [Int.neg_tmod] at negated
      omega
    have high := Int.lt_tmod_of_pos a positive
    rw [if_neg (by omega)]
    constructor <;> nlinarith

theorem adlPrice_long (px mark : Int) (usable : 0 < b) : adlPrice px (some b) mark true ≤ b := by
  simp [adlPrice, Option.filter, usable]

theorem adlPrice_short (px mark : Int) (usable : 0 < b) :
    b ≤ adlPrice px (some b) mark false := by
  simp [adlPrice, Option.filter, usable]

end Price

section Pieces

variable {price : Int} {pos : Position} {pieces : List Int}

theorem closePnl_add (isLong : Bool) (value later removed left : Int) :
    closePnl isLong value removed + closePnl isLong later left =
      closePnl isLong (value + later) (removed + left) := by
  cases isLong <;> simp [closePnl] <;> omega

theorem sum_nonneg_of_pos (positive : ∀ q ∈ pieces, 0 < q) : 0 ≤ pieces.sum :=
  sum_nonneg fun q member => (positive q member).le

theorem eq_nil_of_sum (positive : ∀ q ∈ pieces, 0 < q) (none : pieces.sum ≤ 0) : pieces = [] := by
  cases pieces with
  | nil => rfl
  | cons q rest =>
    have first := positive q mem_cons_self
    have others := sum_nonneg_of_pos fun q member => positive q (mem_cons_of_mem _ member)
    rw [sum_cons] at none
    omega

theorem realizedPnl_whole (positive : ∀ q ∈ pieces, 0 < q) (sized : 0 < pos.size)
    (whole : pieces.sum = pos.size) :
    realizedPnl price pos pieces =
      closePnl pos.isLong ((pieces.map (mul price)).sum) pos.costBasis := by
  induction pieces generalizing pos with
  | nil =>
    rw [sum_nil] at whole
    omega
  | cons q rest ih =>
    have positiveRest : ∀ q ∈ rest, 0 < q := fun q member => positive q (mem_cons_of_mem _ member)
    have others := sum_nonneg_of_pos positiveRest
    have step := @fillTransitionCore_transition (some pos)
      (fillCross pos.trader pos.marketId (!pos.isLong) q price)
    rw [sum_cons] at whole
    rw [realizedPnl, map_cons, sum_cons]
    generalize fillTransitionCore (some pos)
      (fillCross pos.trader pos.marketId (!pos.isLong) q price) = result at step
    cases step with
    | increases _ entryPrice direction =>
      cases long : pos.isLong <;> simp [fillCross, long] at direction
    | reduces _ _ part removed share =>
      have part : q < pos.size := part
      dsimp only [Option.getD_some, Option.elim_some]
      rw [ih positiveRest (by dsimp only [fillCross]; omega) (by dsimp only [fillCross]; omega)]
      dsimp only
      rw [closePnl_add, show removed + (pos.costBasis - removed) = pos.costBasis by omega]
      rfl
    | closes _ _ all =>
      have all : q = pos.size := all
      rw [eq_nil_of_sum positiveRest (by omega)]
      simp [Fill.notional, fillCross]
    | flips _ _ more openPart part =>
      have more : pos.size < q := more
      omega

theorem sum_mul_bounds (priced : 0 ≤ price) (positive : ∀ q ∈ pieces, 0 < q) :
    (pieces.map (mul price)).sum * scale ≤ price * pieces.sum ∧
      price * pieces.sum ≤ (pieces.map (mul price)).sum * scale + pieces.length * (scale - 1) := by
  induction pieces with
  | nil => simp
  | cons q rest ih =>
    have first : mul price q * scale ≤ price * q ∧ price * q ≤ mul price q * scale + (scale - 1) := by
      have product : 0 ≤ price * q := Int.mul_nonneg priced (positive q mem_cons_self).le
      have split := Int.tmod_add_mul_tdiv (price * q) scale
      have low := Int.tmod_nonneg scale product
      have high := Int.tmod_lt_of_pos (price * q) (show 0 < scale by decide)
      rw [Int.mul_comm scale] at split
      unfold mul
      omega
    obtain ⟨least, most⟩ := ih fun q member => positive q (mem_cons_of_mem _ member)
    rw [map_cons, sum_cons, sum_cons, length_cons, Int.mul_add, Int.add_mul]
    push_cast
    constructor
    · omega
    · rw [Int.add_mul]
      omega

end Pieces

namespace PositionManager

variable {pm : PositionManager} {fill : Fill} {trader : Address}

theorem getNativeBalance_applyFill (off : pm.fundingIndex fill.marketId = none) :
    ((pm.applyFill fill).1.getNativeBalance trader).available =
      (pm.getNativeBalance trader).available +
        if trader = fill.trader then
          (fillTransitionCore (pm.getPosition fill.trader fill.marketId) fill).2.getD 0 else 0 := by
  have share : pm.escrowShare fill.trader fill.marketId = 0 := escrowShare_off off
  have untouched : ∀ left, (pm.replacePosition fill.trader fill.marketId left).getNativeBalance =
      pm.getNativeBalance := by
    intro left
    cases left <;> rfl
  unfold applyFill
  simp only [share, off, fillTransition, ne_eq, not_true_eq_false, if_false]
  generalize fillTransitionCore (pm.getPosition fill.trader fill.marketId) fill = result
  obtain ⟨left, pnl⟩ := result
  cases pnl with
  | none =>
    simp only [FillEffect.cash, ne_eq, not_true_eq_false, or_self, if_false, untouched]
    simp
  | some pnl =>
    simp only [FillEffect.cash, creditRealizedPnl, getNativeBalance_putNativeBalance, untouched,
      Option.getD_some]
    split
    · rename_i same
      rw [same]
      dsimp only
      omega
    · omega

end PositionManager

/-- A run has closed a position in the pieces it lists. -/
structure ClosedIn (trader : Address) (marketId : MarketId) (price : Int) (pos : Position)
    (before after : PositionManager) (pieces : List Int) : Prop where
  positive : ∀ q ∈ pieces, 0 < q
  left : (after.getPosition trader marketId = none ∧ pieces.sum = pos.size) ∨
    ∃ left, after.getPosition trader marketId = some left ∧ left.isLong = pos.isLong ∧
      left.size = pos.size - pieces.sum ∧ pieces.sum < pos.size
  cash : before.fundingIndex marketId = none →
    (after.getNativeBalance trader).available =
      (before.getNativeBalance trader).available + realizedPnl price pos pieces

section Run

variable {trader other : Address} {marketId : MarketId} {price q : Int} {pos left : Position}
  {before middle after : PositionManager} {pieces : List Int}

theorem ClosedIn.nothing (found : before.getPosition trader marketId = some pos)
    (sized : 0 < pos.size) : ClosedIn trader marketId price pos before before [] where
  positive := by simp
  left := .inr ⟨pos, found, rfl, by simp, by simpa using sized⟩
  cash := fun _ => (Int.add_zero _).symm

theorem transfer_source (apart : trader ≠ other)
    (found : before.getPosition trader marketId = some pos)
    (moved : transfer trader other marketId q price before = .ok () after) :
    after.getPosition trader marketId =
        before.filled (fillCross trader marketId (!pos.isLong) q price) ∧
      after.fundingIndex = before.fundingIndex ∧
      (before.fundingIndex marketId = none →
        (after.getNativeBalance trader).available = (before.getNativeBalance trader).available +
          (fillTransitionCore (some pos)
            (fillCross trader marketId (!pos.isLong) q price)).2.getD 0) := by
  rw [transfer_eq found, EStateM.Result.ok.injEq] at moved
  rw [← moved.2]
  refine ⟨?_, ?_, ?_⟩
  · rw [getPosition_applyFill, if_neg (by simp [Fill.key, fillCross, apart]),
      getPosition_applyFill]
    exact if_pos rfl
  · rw [applyFill_funding, applyFill_funding]
  · intro off
    have still : (before.applyFill (fillCross trader marketId (!pos.isLong) q price)).1.fundingIndex
        marketId = none := by
      rw [applyFill_funding]
      exact off
    rw [getNativeBalance_applyFill still,
      getNativeBalance_applyFill off]
    simp [fillCross, found, apart]

theorem ClosedIn.first (apart : trader ≠ other)
    (found : before.getPosition trader marketId = some pos) (positive : 0 < q) (most : q ≤ pos.size)
    (moved : transfer trader other marketId q price before = .ok () middle) :
    (q = pos.size ∧ ClosedIn trader marketId price pos before middle [q]) ∨
    ∃ left, middle.getPosition trader marketId = some left ∧ left.isLong = pos.isLong ∧
      left.size = pos.size - q ∧ 0 < left.size ∧ ∀ after pieces,
        ClosedIn trader marketId price left middle after pieces →
          ClosedIn trader marketId price pos before after (q :: pieces) := by
  obtain ⟨kept, index, cash⟩ := transfer_source apart found moved
  obtain ⟨rfl, rfl⟩ := getPosition_key found
  have filled := @filled_against before
    (fillCross pos.trader pos.marketId (!pos.isLong) q price) pos found rfl most
  have exactly : before.fundingIndex pos.marketId = none →
      before.filled (fillCross pos.trader pos.marketId (!pos.isLong) q price) =
        (fillTransitionCore (some pos)
          (fillCross pos.trader pos.marketId (!pos.isLong) q price)).1 := by
    intro off
    have offFill : before.fundingIndex
        (fillCross pos.trader pos.marketId (!pos.isLong) q price).marketId = none := off
    rw [PositionManager.filled, offFill]
    simp only [fillCross, found, fillTransition]
  rcases filled with ⟨gone, whole⟩ | ⟨left, is, side, size, part⟩
  · have whole : q = pos.size := whole
    refine .inl ⟨whole, ?_, .inl ⟨kept.trans gone, by simpa using whole⟩, ?_⟩
    · simpa using positive
    · intro off
      rw [cash off, realizedPnl, ← exactly off, gone]
      simp
  · have part : q < pos.size := part
    have size : left.size = pos.size - q := size
    refine .inr ⟨left, kept.trans is, side, size, by omega, ?_⟩
    intro after pieces closed
    have others := sum_nonneg_of_pos closed.positive
    refine ⟨?_, ?_, ?_⟩
    · intro piece member
      rcases mem_cons.mp member with rfl | member
      · exact positive
      · exact closed.positive piece member
    · rw [sum_cons]
      rcases closed.left with ⟨gone, whole⟩ | ⟨last, found, lastSide, lastSize, lastPart⟩
      · exact .inl ⟨gone, by omega⟩
      · exact .inr ⟨last, found, lastSide.trans side, by omega, by omega⟩
    · intro off
      rw [closed.cash (index ▸ off), cash off, realizedPnl, ← exactly off, is]
      simp only [Option.elim_some]
      omega

@[simp]
theorem advance_closes (progress : AdlProgress) (usedUp : Bool) :
    (progress.advance usedUp).closes = progress.closes := by
  unfold AdlProgress.advance
  split <;> rfl

@[simp]
theorem advance_remaining (progress : AdlProgress) (usedUp : Bool) :
    (progress.advance usedUp).remaining = progress.remaining := by
  unfold AdlProgress.advance
  split <;> rfl

variable {ranked : List AdlCandidate}

theorem adlCloseEach_done {isLong : Bool} {progress : AdlProgress} (done : progress.remaining ≤ 0) :
    adlCloseEach trader marketId isLong price ranked progress = pure progress := by
  cases ranked with
  | nil => rfl
  | cons candidate rest => rw [adlCloseEach, if_pos done]

theorem adlCloseEach_closedIn {isLong : Bool}
    {progress result : AdlProgress} (found : before.getPosition trader marketId = some pos)
    (side : pos.isLong = isLong) (sized : 0 < pos.size) (most : progress.remaining ≤ pos.size)
    (ran : adlCloseEach trader marketId isLong price ranked progress before = .ok result after) :
    ∃ pieces, result.closes.map Prod.snd = progress.closes.map Prod.snd ++ pieces ∧
      ClosedIn trader marketId price pos before after pieces := by
  induction ranked generalizing progress before pos with
  | nil =>
    cases ran
    exact ⟨[], by simp, .nothing found sized⟩
  | cons candidate rest ih =>
    unfold adlCloseEach at ran
    split at ran
    · cases ran
      exact ⟨[], by simp, .nothing found sized⟩
    · rename_i remains
      obtain ⟨next, middle, stepped, ran⟩ := Program.bind_ok ran
      rcases adlCandidate_ok stepped with
        ⟨rfl, rfl, -⟩ | ⟨held, q, apart, -, -, heldSized, rfl, moved, rfl⟩
      · have skipped := @ih pos _ _ found side sized (by simpa using most) ran
        simpa using skipped
      · have positive : 0 < min progress.remaining held.size :=
          lt_min (Int.not_le.mp remains) heldSized
        have part : min progress.remaining held.size ≤ pos.size := (min_le_left _ _).trans most
        generalize min progress.remaining held.size = q at *
        rcases ClosedIn.first apart.symm found positive part moved with
          ⟨whole, closed⟩ | ⟨left, leftFound, leftSide, leftSize, leftSized, extend⟩
        · rw [adlCloseEach_done (by simp; omega)] at ran
          cases ran
          exact ⟨[q], by simp, closed⟩
        · obtain ⟨pieces, listed, closed⟩ := @ih left _ _ leftFound (leftSide.trans side) leftSized
            (by simp; omega) ran
          exact ⟨q :: pieces, by simpa using listed, extend after pieces closed⟩

theorem adlClose_closedIn {result : AdlProgress} {qty : Int}
    (found : before.getPosition trader marketId = some pos) (sized : 0 < pos.size)
    (ran : adlClose trader marketId price qty ranked before = .ok result after) :
    ClosedIn trader marketId price pos before after (result.closes.map Prod.snd) := by
  unfold adlClose at ran
  rw [get_bind, found] at ran
  obtain ⟨pieces, listed, closed⟩ := adlCloseEach_closedIn found rfl sized (min_le_left _ _) ran
  rw [map_nil, nil_append] at listed
  exact listed ▸ closed

end Run

section Keeps

variable {rest b price : Int} {pos : Position} {pieces : List Int}

theorem keeps_long (long : pos.isLong = true)
    (bankrupt : bankruptcyPrice rest pos.isLong pos.size pos.costBasis = some b)
    (priced : 0 ≤ price) (worse : price ≤ b) (positive : ∀ q ∈ pieces, 0 < q)
    (whole : pieces.sum = pos.size) : rest + realizedPnl price pos pieces ≤ 0 := by
  rw [long] at bankrupt
  obtain ⟨sized, is⟩ := bankruptcyPrice_long bankrupt
  obtain ⟨least, -⟩ := sum_mul_bounds priced positive
  rw [realizedPnl_whole positive sized whole, long, closePnl, if_pos rfl]
  rw [whole] at least
  have most : b * pos.size ≤ (pos.costBasis - rest) * scale := by
    rw [is]
    exact Int.ediv_mul_le _ sized.ne'
  have paid : (pieces.map (mul price)).sum * scale ≤ (pos.costBasis - rest) * scale := by
    have := Int.mul_le_mul_of_nonneg_right worse sized.le
    omega
  have := Int.le_of_mul_le_mul_right paid (show 0 < scale by decide)
  omega

theorem keeps_short (short : pos.isLong = false)
    (bankrupt : bankruptcyPrice rest pos.isLong pos.size pos.costBasis = some b)
    (priced : 0 ≤ price) (worse : b ≤ price) (positive : ∀ q ∈ pieces, 0 < q)
    (whole : pieces.sum = pos.size) :
    rest + realizedPnl price pos pieces ≤ pieces.length - 1 := by
  rw [short] at bankrupt
  obtain ⟨sized, is⟩ := bankruptcyPrice_short bankrupt
  obtain ⟨-, most⟩ := sum_mul_bounds priced positive
  have cut : 0 < pieces.length := by
    cases pieces with
    | nil =>
      rw [sum_nil] at whole
      omega
    | cons q rest => simp
  rw [realizedPnl_whole positive sized whole, short, closePnl, if_neg Bool.false_ne_true]
  rw [whole] at most
  have least : (pos.costBasis + rest) * scale ≤ b * pos.size := by
    rw [is]
    exact (ceilDiv_bounds sized).1
  have paid : (pos.costBasis + rest) * scale ≤
      (pieces.map (mul price)).sum * scale + pieces.length * (scale - 1) := by
    have := Int.mul_le_mul_of_nonneg_right worse sized.le
    omega
  simp only [scale] at paid
  omega

theorem bankruptcyPrice_tight
    (bankrupt : bankruptcyPrice rest pos.isLong pos.size pos.costBasis = some b)
    (usable : 0 < b) :
    0 ≤ rest + realizedPnl (if pos.isLong then b + 1 else b - 1) pos [pos.size] := by
  have one : ∀ price, 0 < pos.size → realizedPnl price pos [pos.size] =
      closePnl pos.isLong (mul price pos.size) pos.costBasis := by
    intro price sized
    rw [realizedPnl_whole (by simpa using sized) sized (by simp)]
    simp
  cases long : pos.isLong with
  | true =>
    rw [long] at bankrupt
    obtain ⟨sized, is⟩ := bankruptcyPrice_long bankrupt
    rw [one _ sized, long, if_pos rfl, closePnl, if_pos rfl]
    have above : (pos.costBasis - rest) * scale < (b + 1) * pos.size := by
      rw [is]
      exact Int.lt_ediv_add_one_mul_self _ sized
    have bound := (@sum_mul_bounds (b + 1) [pos.size] (by omega) (by simpa using sized)).2
    simp only [sum_cons, sum_nil, Int.add_zero, map_cons, map_nil,
      length_cons, length_nil, scale] at bound above
    omega
  | false =>
    rw [long] at bankrupt
    obtain ⟨sized, is⟩ := bankruptcyPrice_short bankrupt
    rw [one _ sized, long, if_neg Bool.false_ne_true, closePnl, if_neg Bool.false_ne_true]
    have below : (b - 1) * pos.size < (pos.costBasis + rest) * scale := by
      rw [is]
      exact (ceilDiv_bounds sized).2
    have bound := (@sum_mul_bounds (b - 1) [pos.size] (by omega) (by simpa using sized)).1
    simp only [sum_cons, sum_nil, Int.add_zero, map_cons, map_nil] at bound
    have paid : mul (b - 1) pos.size * scale < (pos.costBasis + rest) * scale :=
      Int.lt_of_le_of_lt bound below
    have := Int.lt_of_mul_lt_mul_right paid (show 0 ≤ scale by decide)
    omega

end Keeps

/-- An account whose whole position an ADL close cuts up keeps nothing of it when it was long, and
less than a unit a piece when it was short: nothing when it was closed in one. -/
theorem adlClose_keepsNothing (pm after : PositionManager) (trader : Address) (marketId : MarketId)
    (pos : Position) (rest px mark b qty : Int) (ranked : List AdlCandidate)
    (progress : AdlProgress)
    (found : pm.getPosition trader marketId = some pos) (pxPos : 0 < px)
    (bankrupt : bankruptcyPrice rest pos.isLong pos.size pos.costBasis = some b) (usable : 0 < b)
    (ran : adlClose trader marketId (adlPrice px (some b) mark pos.isLong) qty ranked pm =
      .ok progress after)
    (closed : after.getPosition trader marketId = none) :
    let pieces := progress.closes.map Prod.snd
    let pnl := realizedPnl (adlPrice px (some b) mark pos.isLong) pos pieces
    pieces.sum = pos.size ∧
    (pm.fundingIndex marketId = none → (after.getNativeBalance trader).available =
      (pm.getNativeBalance trader).available + pnl) ∧
    (pos.isLong = true → rest + pnl ≤ 0) ∧
    (pos.isLong = false → rest + pnl ≤ pieces.length - 1) ∧
    0 ≤ rest + realizedPnl (if pos.isLong then b + 1 else b - 1) pos [pos.size] := by
  intro pieces pnl
  have sized : 0 < pos.size := by
    cases long : pos.isLong with
    | true => exact (bankruptcyPrice_long (long ▸ bankrupt)).1
    | false => exact (bankruptcyPrice_short (long ▸ bankrupt)).1
  have run := adlClose_closedIn found sized ran
  have whole : pieces.sum = pos.size := by
    rcases run.left with ⟨-, whole⟩ | ⟨left, held, -⟩
    · exact whole
    · rw [closed] at held
      cases held
  refine ⟨whole, run.cash, ?_, ?_, bankruptcyPrice_tight bankrupt usable⟩
  · intro long
    have worse := adlPrice_long px mark usable
    have priced : 0 ≤ adlPrice px (some b) mark true := by
      simp [adlPrice, Option.filter, usable]
      omega
    rw [← long] at worse priced
    exact keeps_long long bankrupt priced worse run.positive whole
  · intro short
    have worse := adlPrice_short px mark usable
    rw [← short] at worse
    exact keeps_short short bankrupt (usable.le.trans worse) worse run.positive whole

def heldUnits (trader : Address) (isLong : Bool) (size costBasis : Int) : Position where
  trader := trader
  marketId := 7
  isLong := isLong
  size := size
  entryPrice := 50000000
  costBasis := costBasis
  realizedPnl := 0
  isolatedMargin := 0
  marginType := .cross
  funding := none

def splitLedger (isLong : Bool) : PositionManager where
  positions := ((PositionRows.empty.put (heldUnits 1 isLong 2 1)).put (heldUnits 2 (!isLong) 1 0)).put
    (heldUnits 3 (!isLong) 1 0)

def splitRanked (isLong : Bool) : List AdlCandidate :=
  [{ trader := 2, isLong := !isLong, size := 1, entryPrice := 50000000, accountValue := 1 },
    { trader := 3, isLong := !isLong, size := 1, entryPrice := 50000000, accountValue := 1 }]

theorem adlClose_keepsNothing_split :
    ∃ progress after,
      adlClose 1 7 (adlPrice 60000000 (some 50000000) 60000000 true) 2 (splitRanked true)
        (splitLedger true) = .ok progress after ∧
      0 + realizedPnl 50000000 (heldUnits 1 true 2 1) (progress.closes.map Prod.snd) ≤ 0 := by
  refine ⟨_, _, rfl, ?_⟩
  exact (adlClose_keepsNothing (splitLedger true) _ 1 7 (heldUnits 1 true 2 1) 0 60000000 60000000
    50000000 2 (splitRanked true) _ rfl (by decide) rfl (by decide) rfl rfl).2.2.1 rfl

/-- A short of two units closed one by one at its bankruptcy price is left with a unit: each notional
truncates to nothing, where one close of both would have cost the whole basis. -/
theorem adlClose_keepsUnit :
    bankruptcyPrice 0 false 2 1 = some 50000000 ∧
    ∃ progress after,
      adlClose 1 7 (adlPrice 50000000 (some 50000000) 50000000 false) 2 (splitRanked false)
        (splitLedger false) = .ok progress after ∧
      after.getPosition 1 7 = none ∧
      0 + realizedPnl 50000000 (heldUnits 1 false 2 1) (progress.closes.map Prod.snd) = 1 ∧
      (after.getNativeBalance 1).available = 1 := by
  refine ⟨rfl, _, _, rfl, rfl, rfl, rfl⟩

end TorusHyperBft.Account
