import TorusHyperBft.OrderBook.Serving
import TorusHyperBft.OrderBook.TakerNeed

namespace TorusHyperBft.OrderBook

open FixedPoint Matching

/-! A taker that is matched against a margin limit: what a visit does to it, and what holds of it
after every fill. -/

section Others

variable (accounts : AccountMargins) (positions : ReduceOnlyPositions) (source : MakerAccountSource)
  (marketId : MarketId) {trader other : Address}

theorem setEntry_other (entry : TraderMargins) (different : other ≠ trader) :
    (accounts.setEntry trader entry).traders other = accounts.traders other :=
  if_neg different

theorem setSlot_other (account : AccountMargin) (different : other ≠ trader) :
    (accounts.setSlot trader account).traders other = accounts.traders other := by
  unfold AccountMargins.setSlot
  dsimp only
  split <;> exact setEntry_other _ _ different

theorem makerSlot_other (different : other ≠ trader) :
    (makerSlot accounts trader marketId source positions).2.1.traders other =
        accounts.traders other ∧
      (makerSlot accounts trader marketId source positions).2.2.get other = positions.get other := by
  unfold makerSlot
  dsimp only
  split
  · exact ⟨rfl, rfl⟩
  · exact ⟨rfl, rfl⟩
  · refine ⟨setEntry_other _ _ different, ?_⟩
    dsimp only
    split
    · rw [ReduceOnlyPositions.get_insert, if_neg different]
    · rfl

theorem accountFill_other (isBuy : Bool) (price quantity : Int) (share : Option (Int × Int))
    (taker : Option Int) (commit : Bool) (different : other ≠ trader) :
    (accountFill accounts positions source marketId trader isBuy price quantity share taker
        commit).2.1.traders other = accounts.traders other ∧
      (accountFill accounts positions source marketId trader isBuy price quantity share taker
        commit).2.2.get other = positions.get other := by
  have kept := makerSlot_other accounts positions source marketId different
  unfold accountFill
  split
  · exact ⟨rfl, rfl⟩
  · dsimp only
    generalize makerSlot accounts trader marketId source positions = slot at kept ⊢
    obtain ⟨account, loaded, seeded⟩ := slot
    dsimp only at kept ⊢
    split
    · split
      · exact kept
      · split
        · exact kept
        · refine ⟨?_, kept.2⟩
          dsimp only
          split
          · rw [setSlot_other _ _ different]
            exact kept.1
          · exact kept.1
    · exact kept

end Others

/-- Nothing of the taker's own changed. -/
structure KeepsTaker (before after : Matching) : Prop where
  same : SameRecord before after
  margin : after.margin = before.margin
  unchecked : after.unchecked = before.unchecked
  position : after.positions.get before.taker.trader = before.positions.get before.taker.trader
  account : after.accounts.traders before.taker.trader =
    before.accounts.traders before.taker.trader

section Visit

variable {env : MatchEnv} {maker : Order} {matching : Matching} {price quantity : Int}

theorem makerAffords_keepsTaker (other : maker.trader ≠ matching.taker.trader) :
    KeepsTaker matching (matching.makerAffords env price quantity maker).2 := by
  obtain ⟨same, margin, unchecked⟩ := @makerAffords_same env price quantity maker matching
  refine ⟨same, margin, unchecked, ?_, ?_⟩
  · unfold Matching.makerAffords
    split
    · rfl
    · exact (accountFill_other _ _ _ _ _ _ _ _ _ _ (Ne.symm other)).2
  · unfold Matching.makerAffords
    split
    · rfl
    · exact (accountFill_other _ _ _ _ _ _ _ _ _ _ (Ne.symm other)).1

def Matching.wanted (matching : Matching) (fillable : Int) : Int :=
  min matching.taker.remainingQty fillable

/-- All a visit can come to for a taker with a margin limit. -/
inductive LimitedVisit (maker : Order) (matching : Matching) (margin : MatchMargin) : Visit → Prop
  where
  | selfTrade : LimitedVisit maker matching margin .selfTrade
  | cut : LimitedVisit maker matching margin .cut
  | starved {fillable : Int} (policed : makerFillable matching.positions maker = some fillable)
      (nothing : margin.affordable maker.price (matching.wanted fillable) matching.takerFree
        matching.taker.remainingQty ≤ 0) :
      LimitedVisit maker matching margin (.starved (matching.exhaustMargin maker.price))
  | marginCancel {after : Matching} (keeps : KeepsTaker matching after) :
      LimitedVisit maker matching margin (.marginCancel after)
  | fill {fillable quantity : Int} {checked : Matching} (cut : Bool)
      (other : maker.trader ≠ matching.taker.trader)
      (policed : makerFillable matching.positions maker = some fillable)
      (affordable : quantity = margin.affordable maker.price (matching.wanted fillable)
        matching.takerFree matching.taker.remainingQty)
      (positive : 0 < quantity) (keeps : KeepsTaker matching checked) :
      LimitedVisit maker matching margin (.fill quantity
        ((checked.commitMargin maker.price quantity matching.takerFree cut).applyPositions maker
          quantity))

theorem visit_limited {margin : MatchMargin} (limited : matching.margin = some margin)
    (checked : matching.unchecked = none) :
    LimitedVisit maker matching margin (visit env maker.price maker matching) := by
  unfold visit
  by_cases own : maker.trader = matching.taker.trader
  · rw [if_pos own]
    exact .selfTrade
  rw [if_neg own]
  cases policed : makerFillable matching.positions maker with
  | none => exact .cut
  | some fillable =>
    dsimp only
    have affordable : matching.takerAffordable maker.price (min matching.taker.remainingQty fillable) =
        margin.affordable maker.price (matching.wanted fillable) matching.takerFree
          matching.taker.remainingQty := by
      rw [Matching.takerAffordable, limited]
      rfl
    by_cases starves : matching.margin.isSome ∧
        matching.takerAffordable maker.price (min matching.taker.remainingQty fillable) ≤ 0
    · rw [if_pos starves]
      rw [affordable] at starves
      exact .starved policed starves.2
    rw [if_neg starves]
    have inactive : ¬ (matching.unchecked.isSome ∧ env.makers.isSome) := by simp [checked]
    rw [uncheckedAffordable_inactive inactive]
    dsimp only
    rw [if_neg (by simp [checked])]
    rw [affordable]
    generalize quantityEq : margin.affordable maker.price (matching.wanted fillable)
      matching.takerFree matching.taker.remainingQty = quantity
    have keeps := @makerAffords_keepsTaker env maker matching maker.price quantity own
    generalize matching.makerAffords env maker.price quantity maker = verdict at *
    obtain ⟨fits, looked⟩ := verdict
    dsimp only at keeps ⊢
    cases fits with
    | false => exact .marginCancel keeps
    | true =>
      have positive : 0 < quantity := by
        by_contra starved
        exact starves ⟨by rw [limited]; rfl, by rw [affordable, quantityEq]; omega⟩
      have idle : ∀ state : Matching, state.unchecked = none → ∀ cut,
          state.commitUnchecked env maker.price quantity cut = state := by
        intro state none cut
        rw [Matching.commitUnchecked, none]
      rw [if_pos rfl, idle]
      · exact .fill _ own policed quantityEq.symm positive keeps
      · rw [commitMargin_unchecked, keeps.unchecked, checked]

theorem visit_unchecked {margin : MatchMargin} {fillable : Int}
    (limited : matching.margin = some margin) (checked : matching.unchecked = none)
    (noSource : env.makers = none) (other : maker.trader ≠ matching.taker.trader)
    (policed : makerFillable matching.positions maker = some fillable) :
    (∃ after, visit env maker.price maker matching = .starved after) ∨
      ∃ after, visit env maker.price maker matching =
        .fill (margin.affordable maker.price (matching.wanted fillable) matching.takerFree
          matching.taker.remainingQty) after := by
  have affordable : matching.takerAffordable maker.price (min matching.taker.remainingQty fillable) =
      margin.affordable maker.price (matching.wanted fillable) matching.takerFree
        matching.taker.remainingQty := by
    rw [Matching.takerAffordable, limited]
    rfl
  have inactive : ¬ (matching.unchecked.isSome ∧ env.makers.isSome) := by simp [checked]
  have agrees : ∀ quantity, matching.makerAffords env maker.price quantity maker = (true, matching) := by
    intro quantity
    rw [Matching.makerAffords, noSource]
  unfold visit
  rw [if_neg other, policed]
  dsimp only
  by_cases starves : matching.margin.isSome ∧
      matching.takerAffordable maker.price (min matching.taker.remainingQty fillable) ≤ 0
  · rw [if_pos starves]
    exact Or.inl ⟨_, rfl⟩
  · rw [if_neg starves, uncheckedAffordable_inactive inactive]
    dsimp only
    rw [if_neg (by simp [checked]), agrees, affordable]
    exact Or.inr ⟨_, rfl⟩

end Visit

def movedBy (isBuy : Bool) (taken signed : Int) : Int :=
  if isBuy then signed + taken else signed - taken

theorem reduceOnlyAllowance_moved {isBuy : Bool} {taken signed : Int} (nonneg : 0 ≤ taken) :
    reduceOnlyAllowance (movedBy isBuy taken signed) isBuy =
      reduceOnlyAllowance signed isBuy - min taken (reduceOnlyAllowance signed isBuy) := by
  unfold reduceOnlyAllowance movedBy
  cases isBuy <;> simp <;> split <;> split <;> omega

/-- A taker under way: its order, its margin and its position follow from its fills. -/
structure Running (start : MatchMargin) (taker : Order) (position : Option Int)
    (entry : TraderMargins) (matching : Matching) : Prop where
  order : matching.taker =
    { taker with remainingQty := taker.remainingQty - takenQty matching.fills }
  remaining : 0 ≤ matching.taker.remainingQty
  margin : ∃ exhausted cutAt, matching.margin = some (start.after matching.fills exhausted cutAt)
  unchecked : matching.unchecked = none
  position : matching.positions.get taker.trader =
    position.map (movedBy taker.isBuy (takenQty matching.fills))
  account : matching.accounts.traders taker.trader = entry
  traded : Traded matching.fills
  affords : start.Affords matching.fills matching.taker.remainingQty

section Running

variable {env : MatchEnv} {start : MatchMargin} {taker maker : Order} {position : Option Int}
  {entry : TraderMargins} {matching after : Matching} {quantity : Int}

variable (running : Running start taker position entry matching)
include running

theorem Running.takerFree
    (closes : start.allowance0 = reduceOnlyAllowance (position.getD 0) taker.isBuy) :
    matching.takerFree = start.closable matching.fills := by
  have taken := takenQty_nonneg running.traded
  have trader : matching.taker.trader = taker.trader := by rw [running.order]
  have isBuy : matching.taker.isBuy = taker.isBuy := by rw [running.order]; rfl
  unfold Matching.takerFree ReduceOnlyPositions.allowance MatchMargin.closable
  rw [trader, isBuy, running.position, closes]
  cases position with
  | none =>
    have flat : reduceOnlyAllowance 0 taker.isBuy = 0 := by simp [reduceOnlyAllowance]
    dsimp only [Option.map_none, Option.getD_none]
    rw [flat]
    omega
  | some signed => exact reduceOnlyAllowance_moved taken

theorem Running.congr
    (sameTaker : after.taker = matching.taker) (sameFills : after.fills = matching.fills)
    (margin : ∃ exhausted cutAt, after.margin = some (start.after matching.fills exhausted cutAt))
    (unchecked : after.unchecked = matching.unchecked)
    (samePosition : after.positions.get taker.trader = matching.positions.get taker.trader)
    (account : after.accounts.traders taker.trader = matching.accounts.traders taker.trader) :
    Running start taker position entry after where
  order := by rw [sameTaker, sameFills]; exact running.order
  remaining := by rw [sameTaker]; exact running.remaining
  margin := by rw [sameFills]; exact margin
  unchecked := unchecked.trans running.unchecked
  position := by rw [samePosition, sameFills]; exact running.position
  account := account.trans running.account
  traded := by rw [sameFills]; exact running.traded
  affords := by rw [sameFills, sameTaker]; exact running.affords

theorem Running.keeps
    (keeps : KeepsTaker matching after) : Running start taker position entry after := by
  have trader : matching.taker.trader = taker.trader := by rw [running.order]
  have samePosition := keeps.position
  have account := keeps.account
  rw [trader] at samePosition account
  apply running.congr keeps.same.taker keeps.same.fills _ keeps.unchecked samePosition account
  rw [keeps.margin]
  exact running.margin

omit running

theorem applyPositions_frame :
    (matching.applyPositions maker quantity).margin = matching.margin ∧
      (matching.applyPositions maker quantity).unchecked = matching.unchecked ∧
      (matching.applyPositions maker quantity).accounts = matching.accounts := by
  unfold Matching.applyPositions
  split <;> exact ⟨rfl, rfl, rfl⟩

theorem commitMargin_running {price free : Int} {cut exhausted : Bool} {cutAt : Option Int}
    (fresh : start.Fresh) (fills : List Fill) (fill : Fill) (traded : Traded fills)
    (isFree : free = start.closable fills) (isPrice : fill.price = price)
    (isQuantity : fill.quantity = quantity)
    (limited : matching.margin = some (start.after fills exhausted cutAt)) :
    ∃ exhausted cutAt, (matching.commitMargin price quantity free cut).margin =
      some (start.after (fills ++ [fill]) exhausted cutAt) := by
  have noLoss : ∀ exhausted cutAt,
      (start.after fills exhausted cutAt).loss price quantity free = some .zero := by
    intro exhausted cutAt
    rw [MatchMargin.loss, MatchMargin.after, fresh.unmarked]
  have charged := @openedNotional_concat fills fill start.allowance0 traded fresh.closes
  rw [isPrice, isQuantity, ← MatchMargin.closable, ← isFree] at charged
  have committed : ∀ exhausted cutAt,
      ({ start.after fills exhausted cutAt with
        adverse := (start.after fills exhausted cutAt).adverse + MarkLoss.zero.charge
        charged := (start.after fills exhausted cutAt).charged +
          mul price (quantity - min quantity free) } : MatchMargin) =
      start.after (fills ++ [fill]) exhausted cutAt := by
    intro exhausted cutAt
    rw [MatchMargin.after, MatchMargin.after, charged]
    simp [MarkLoss.zero]
  unfold Matching.commitMargin
  cases cut with
  | false =>
    refine ⟨exhausted, cutAt, ?_⟩
    simp only [Bool.false_eq_true, if_false, limited, Option.map_some, noLoss, committed]
  | true =>
    refine ⟨true, some price, ?_⟩
    have starved : (matching.exhaustMargin price).margin =
        some (start.after fills true (some price)) := by
      rw [Matching.exhaustMargin, limited]
      rfl
    simp only [if_true, starved, Option.map_some, noLoss, committed]

theorem Running.fill {checked : Matching} {cut : Bool}
    (running : Running start taker position entry matching) (fresh : start.Fresh)
    (closes : start.allowance0 = reduceOnlyAllowance (position.getD 0) taker.isBuy)
    (other : maker.trader ≠ matching.taker.trader) (keeps : KeepsTaker matching checked)
    (priced : 0 ≤ maker.price) (positive : 0 < quantity)
    (wanted : quantity ≤ matching.taker.remainingQty)
    (affords : start.Affords
      (matching.fills ++ [Matching.fillOf matching.taker maker maker.price quantity])
      (matching.taker.remainingQty - quantity)) :
    Running start taker position entry
      (((checked.commitMargin maker.price quantity matching.takerFree cut).applyPositions maker
        quantity).recordFill maker maker.price quantity) := by
  have trader : matching.taker.trader = taker.trader := by rw [running.order]
  have isBuy : matching.taker.isBuy = taker.isBuy := by rw [running.order]; rfl
  have same : SameRecord matching ((checked.commitMargin maker.price quantity matching.takerFree
      cut).applyPositions maker quantity) :=
    keeps.same.trans (commitMargin_same.trans applyPositions_same)
  have kept := running.keeps keeps
  obtain ⟨exhausted, cutAt, limited⟩ := kept.margin
  rw [keeps.same.fills] at limited
  have charged := @commitMargin_running start checked quantity maker.price matching.takerFree cut
    exhausted cutAt fresh matching.fills (Matching.fillOf matching.taker maker maker.price quantity)
    running.traded (running.takerFree closes) rfl rfl limited
  obtain ⟨sameMargin, sameUnchecked, sameAccounts⟩ := @applyPositions_frame maker
    (checked.commitMargin maker.price quantity matching.takerFree cut) quantity
  have fills : (((checked.commitMargin maker.price quantity matching.takerFree cut).applyPositions
      maker quantity).recordFill maker maker.price quantity).fills =
      matching.fills ++ [Matching.fillOf matching.taker maker maker.price quantity] := by
    rw [Matching.recordFill, same.fills, same.taker]
  have left : (((checked.commitMargin maker.price quantity matching.takerFree cut).applyPositions
      maker quantity).recordFill maker maker.price quantity).taker =
      { matching.taker with remainingQty := matching.taker.remainingQty - quantity } := by
    rw [Matching.recordFill, same.taker]
  have taken : takenQty
        (matching.fills ++ [Matching.fillOf matching.taker maker maker.price quantity]) =
      takenQty matching.fills + quantity := takenQty_concat
  constructor
  · rw [fills, left, taken, running.order]
    simp only [Int.sub_sub]
  · rw [left]
    exact Int.sub_nonneg_of_le wanted
  · rw [fills]
    obtain ⟨exhausted, cutAt, committed⟩ := charged
    exact ⟨exhausted, cutAt, sameMargin.trans committed⟩
  · refine sameUnchecked.trans ?_
    rw [commitMargin_unchecked, keeps.unchecked]
    exact running.unchecked
  · have moved := @applyPositions_get quantity maker
      (checked.commitMargin maker.price quantity matching.takerFree cut) taker.trader
    have committedTaker : (checked.commitMargin maker.price quantity matching.takerFree cut).taker =
        matching.taker := (keeps.same.trans commitMargin_same).taker
    have notMaker : taker.trader ≠ maker.trader := fun own => other (trader ▸ own.symm)
    rw [committedTaker, trader, isBuy, commitMargin_positions,
      ReduceOnlyPositions.get_applyFill, if_neg notMaker, ReduceOnlyPositions.get_applyFill, if_pos rfl,
      kept.position, keeps.same.fills, Option.map_map] at moved
    refine moved.trans ?_
    rw [fills, taken]
    congr 1
    funext signed
    unfold movedBy
    cases taker.isBuy <;> simp <;> omega
  · have sameChecked : (checked.commitMargin maker.price quantity matching.takerFree cut).accounts =
        checked.accounts := by cases cut <;> rfl
    refine (congrArg (fun accounts => accounts.traders taker.trader) sameAccounts).trans ?_
    rw [sameChecked]
    exact kept.account
  · rw [fills]
    exact running.traded.concat priced (le_of_lt positive)
  · rw [fills, left]
    exact affords

/-- Every order has a quantity and a price. -/
def Stocked (orders : List Order) : Prop :=
  ∀ order ∈ orders, 0 < order.remainingQty ∧ 0 ≤ order.price

/-- The need does not dip in what the maker offers. -/
def SteadyAt (start : MatchMargin) (maker : Order) (matching : Matching) : Prop :=
  ∀ fillable, makerFillable matching.positions maker = some fillable →
    start.Steady matching.fills maker.price matching.taker.remainingQty (matching.wanted fillable)

def Affordable (start : MatchMargin) (maker : Order) (matching : Matching) (fillable : Int) :
    Set Int :=
  {quantity | Offered (matching.wanted fillable) (lotStep start.lot) quantity ∧
    start.Affords
      (matching.fills ++ [Matching.fillOf matching.taker maker maker.price quantity])
      (matching.taker.remainingQty - quantity)}

theorem Running.affordable_greatest {fillable : Int} {exhausted : Bool} {cutAt : Option Int}
    (running : Running start taker position entry matching)
    (fresh : start.Fresh) (fall : TiersFall start.limit.tiers)
    (closes : start.allowance0 = reduceOnlyAllowance (position.getD 0) taker.isBuy)
    (stocked : 0 < maker.remainingQty ∧ 0 ≤ maker.price)
    (policed : makerFillable matching.positions maker = some fillable)
    (steady : SteadyAt start maker matching) :
    IsGreatest (Affordable start maker matching fillable)
      ((start.after matching.fills exhausted cutAt).affordable maker.price (matching.wanted fillable)
        matching.takerFree matching.taker.remainingQty) := by
  have bounds := makerFillable_bounds policed
  have remaining := running.remaining
  rw [running.takerFree closes]
  exact fresh.affordable_greatest fall running.traded running.affords stocked.2
    (show 0 ≤ min matching.taker.remainingQty fillable by omega) (min_le_left _ _)
    (steady fillable policed)
    (fun _ => rfl) (fun _ => rfl)

/-- A visit that keeps the taker within its margin and fills as much as that allows. -/
inductive StaysWithin (start : MatchMargin) (taker : Order) (position : Option Int)
    (entry : TraderMargins) (maker : Order) (matching : Matching) : Visit → Prop where
  | selfTrade : StaysWithin start taker position entry maker matching .selfTrade
  | cut : StaysWithin start taker position entry maker matching .cut
  | starved {fillable : Int} {after : Matching} (running : Running start taker position entry after)
      (policed : makerFillable matching.positions maker = some fillable)
      (greatest : IsGreatest (Affordable start maker matching fillable) 0) :
      StaysWithin start taker position entry maker matching (.starved after)
  | marginCancel {after : Matching} (running : Running start taker position entry after) :
      StaysWithin start taker position entry maker matching (.marginCancel after)
  | fill {fillable quantity : Int} {after : Matching}
      (running : Running start taker position entry (after.recordFill maker maker.price quantity))
      (policed : makerFillable matching.positions maker = some fillable)
      (le : quantity ≤ maker.remainingQty)
      (greatest : IsGreatest (Affordable start maker matching fillable) quantity) :
      StaysWithin start taker position entry maker matching (.fill quantity after)

theorem Running.visited {env : MatchEnv} (running : Running start taker position entry matching)
    (fresh : start.Fresh) (fall : TiersFall start.limit.tiers)
    (closes : start.allowance0 = reduceOnlyAllowance (position.getD 0) taker.isBuy)
    (stocked : 0 < maker.remainingQty ∧ 0 ≤ maker.price)
    (steady : SteadyAt start maker matching) :
    StaysWithin start taker position entry maker matching
      (visit env maker.price maker matching) := by
  obtain ⟨exhausted, cutAt, limited⟩ := running.margin
  have allowed := fun fillable policed => @Running.affordable_greatest start taker maker position
    entry matching fillable exhausted cutAt running fresh fall closes stocked policed steady
  have cases := @visit_limited env maker matching _ limited running.unchecked
  generalize visit env maker.price maker matching = outcome at cases
  cases cases with
  | selfTrade => exact .selfTrade
  | cut => exact .cut
  | @starved fillable policed nothing =>
    have greatest := allowed fillable policed
    have bounds := makerFillable_bounds policed
    have remaining := running.remaining
    have nonneg : 0 ≤ (start.after matching.fills exhausted cutAt).affordable maker.price
        (matching.wanted fillable) matching.takerFree matching.taker.remainingQty := by
      rcases greatest.1.1 with whole | ⟨nonneg, _⟩
      · rw [whole, Matching.wanted]
        omega
      · exact nonneg
    rw [le_antisymm nothing nonneg] at greatest
    refine .starved (running.congr rfl rfl ⟨true, some maker.price, ?_⟩ rfl rfl rfl) policed greatest
    rw [Matching.exhaustMargin, limited]
    rfl
  | marginCancel keeps => exact .marginCancel (running.keeps keeps)
  | @fill fillable quantity checked cut other policed affordable positive keeps =>
    have greatest := allowed fillable policed
    rw [← affordable] at greatest
    have bounds := makerFillable_bounds policed
    have within : quantity ≤ min matching.taker.remainingQty fillable := by
      rcases greatest.1.1 with whole | ⟨_, smaller, _⟩
      · exact le_of_eq whole
      · exact le_of_lt smaller
    exact .fill
      (running.fill fresh closes other keeps stocked.2 positive (by omega) greatest.1.2) policed
      (by omega) greatest

theorem Running.served {rest next : List Order}
    (running : Running start taker position entry matching) (fresh : start.Fresh)
    (fall : TiersFall start.limit.tiers)
    (closes : start.allowance0 = reduceOnlyAllowance (position.getD 0) taker.isBuy)
    (stocked : Stocked (maker :: rest)) (steady : SteadyAt start maker matching)
    (served : serve env (maker :: rest, matching) = some (next, after)) :
    Stocked next ∧ Running start taker position entry after := by
  have front := stocked maker List.mem_cons_self
  have behind : Stocked rest := fun order member => stocked order (List.mem_cons_of_mem _ member)
  rw [serve_ready (Ready.of_serve served)] at served
  have outcome := @Running.visited start taker maker position entry matching env running fresh fall
    closes front steady
  generalize visit env maker.price maker matching = visited at served outcome
  cases outcome with
  | selfTrade =>
    cases served
    obtain ⟨exhausted, cutAt, limited⟩ := running.margin
    exact ⟨behind, running.congr rfl rfl ⟨exhausted, cutAt, limited⟩ rfl rfl rfl⟩
  | cut =>
    cases served
    obtain ⟨exhausted, cutAt, limited⟩ := running.margin
    exact ⟨behind, running.congr rfl rfl ⟨exhausted, cutAt, limited⟩ rfl rfl rfl⟩
  | starved starved policed greatest =>
    cases served
    exact ⟨stocked, starved⟩
  | marginCancel kept =>
    cases served
    obtain ⟨exhausted, cutAt, limited⟩ := kept.margin
    exact ⟨behind, kept.congr rfl rfl ⟨exhausted, cutAt, limited⟩ rfl rfl rfl⟩
  | fill recorded policed le greatest =>
    dsimp only at served
    split at served
    · cases served
      obtain ⟨exhausted, cutAt, limited⟩ := recorded.margin
      exact ⟨behind, recorded.congr rfl rfl ⟨exhausted, cutAt, limited⟩ rfl rfl rfl⟩
    · rename_i part
      cases served
      refine ⟨fun order member => ?_, recorded⟩
      rcases List.mem_cons.mp member with rfl | member
      · exact ⟨by unfold Order.filled; dsimp only; omega, front.2⟩
      · exact behind order member

/-- A taker stays under way through every maker served, if each turn is steady. -/
theorem Running.serves {orders next : List Order}
    (running : Running start taker position entry matching) (fresh : start.Fresh)
    (fall : TiersFall start.limit.tiers)
    (closes : start.allowance0 = reduceOnlyAllowance (position.getD 0) taker.isBuy)
    (stocked : Stocked orders)
    (steady : ∀ maker rest met, Serves env (orders, matching) (maker :: rest, met) →
      Ready maker met → SteadyAt start maker met)
    (serves : Serves env (orders, matching) (next, after)) :
    Stocked next ∧ Running start taker position entry after := by
  generalize reachedEq : (next, after) = reached at serves
  induction serves generalizing next after with
  | refl =>
    cases reachedEq
    exact ⟨stocked, running⟩
  | @tail middle last serves step ih =>
    obtain ⟨ahead, met⟩ := middle
    subst reachedEq
    obtain ⟨aheadStocked, metRunning⟩ := ih rfl
    cases ahead with
    | nil => cases step
    | cons maker rest =>
      exact metRunning.served fresh fall closes aheadStocked
        (steady maker rest met serves (Ready.of_serve step)) step

end Running

end TorusHyperBft.OrderBook
