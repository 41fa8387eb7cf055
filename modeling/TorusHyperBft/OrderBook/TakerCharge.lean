import TorusHyperBft.OrderBook.Limited
import TorusHyperBft.OrderBook.Placed
import TorusHyperBft.OrderBook.Triggered

namespace TorusHyperBft.OrderBook

open FixedPoint

/-! What is charged to the account of a taker with a margin limit once its order is settled. -/

section OpenedNotional

variable {fills : List Fill} {closable : Int}

theorem openedNotional_closing (traded : Traded fills) (closes : takenQty fills ≤ closable) :
    openedNotional closable fills = 0 := by
  induction fills generalizing closable with
  | nil => rfl
  | cons first rest ih =>
    have restTraded : Traded rest := fun other member =>
      traded other (List.mem_cons_of_mem _ member)
    have restTaken := takenQty_nonneg restTraded
    have taken : takenQty (first :: rest) = first.quantity + takenQty rest := by simp [takenQty]
    have closing : min first.quantity closable = first.quantity := by omega
    have nothing : mul first.price 0 = 0 := by simp [mul]
    rw [openedNotional, closing, Int.sub_self, nothing, ih restTraded (by omega)]
    rfl

end OpenedNotional

namespace Book

variable {book : Book} {placement : Placement}

theorem fireStops_accounts (fills : List Fill) :
    (book.fireStops fills).1.accountMargins = book.accountMargins := by
  unfold fireStops
  split
  · rfl
  · unfold triggerStops
    split <;> rfl

theorem matchOrder_accounts (order : Order) (margin : Option MatchMargin) {ladder : Ladder}
    {matched : Matching} (outcome : executeMatch
      { marketId := book.marketId, makers := placement.makers } order.side.opposite
      (book.ladder order.side.opposite) (book.startMatching placement order margin) =
        (ladder, matched)) :
    ∃ settled : Book, settled.accountMargins = matched.accounts ∧
      settled.reduceOnlyPositions = matched.positions ∧
      (book.matchOrder placement order margin).2.fills = matched.fills ∧
      (book.matchOrder placement order margin).1.accountMargins =
        (settled.chargeTaker placement matched.margin
          (book.matchOrder placement order margin).2.restedQty).accountMargins ∧
      ∃ (rest : Book) (left : Option Int), (book.matchOrder placement order margin).2.restedQty =
          (rest.settle placement matched.taker matched.exhausted matched.fills.isEmpty left).2.2.1 ∧
        (book.matchOrder placement order margin).2.status =
          (rest.settle placement matched.taker matched.exhausted matched.fills.isEmpty
            left).2.1 := by
  unfold matchOrder
  dsimp only
  rw [outcome]
  dsimp only
  have matchedAccounts : (book.afterMatch order.side.opposite ladder matched).accountMargins =
      matched.accounts := by cases order.side.opposite <;> rfl
  obtain ⟨_, _, _, _, _, positions⟩ := @afterMatch_frame book order.side.opposite ladder matched
  have swept := @sweepMatched_framed (book.afterMatch order.side.opposite ladder matched) placement
    matched
  generalize (book.afterMatch order.side.opposite ladder matched).sweepMatched placement matched =
    sweepOutcome at swept ⊢
  obtain ⟨rest, cuts, left⟩ := sweepOutcome
  have settled := @settle_framed rest placement matched.taker matched.exhausted matched.fills.isEmpty
    left
  refine ⟨(rest.settle placement matched.taker matched.exhausted matched.fills.isEmpty left).1,
    ?_, ?_, rfl, fireStops_accounts _, rest, left, rfl, rfl⟩
  · rw [settled.accountMargins, swept.accountMargins, matchedAccounts]
  · rw [settled.reduceOnlyPositions, swept.reduceOnlyPositions, positions]

theorem restQuantity_whole {order : Order} (opens : order.reduceOnly = false) {left : Option Int} :
    restQuantity order left = order.remainingQty := by
  unfold restQuantity
  split
  · rename_i reduces
    rw [opens] at reduces
    contradiction
  · rfl

theorem settle_rested {order : Order} (opens : order.reduceOnly = false) (exhausted unfilled : Bool)
    (left : Option Int) :
    (book.settle placement order exhausted unfilled left).2.2.1 = 0 ∨
      ((book.settle placement order exhausted unfilled left).2.2.1 = order.remainingQty ∧
        placement.params.orderType ≠ .market ∧ placement.params.timeInForce ≠ .ioc ∧
        placement.params.timeInForce ≠ .fok) := by
  unfold settle
  split
  · exact Or.inl rfl
  · split
    · exact Or.inl rfl
    · rename_i rests
      dsimp only
      rw [restQuantity_whole opens]
      split
      · exact Or.inl (by split <;> rfl)
      · exact Or.inr ⟨rfl, fun market => rests (Or.inl market),
          fun ioc => rests (Or.inr (Or.inr (Or.inl ioc))),
          fun fok => rests (Or.inr (Or.inr (Or.inr fok)))⟩

theorem settle_notRejected {order : Order} (opens : order.reduceOnly = false)
    (exhausted unfilled : Bool) (left : Option Int) :
    (book.settle placement order exhausted unfilled left).2.1 ≠ .rejected := by
  unfold settle
  split
  · exact fun rejected => by cases rejected
  · split
    · exact fun rejected => by cases rejected
    · rename_i wants _
      dsimp only
      rw [restQuantity_whole opens, if_neg wants]
      dsimp only
      split <;> exact fun rejected => by cases rejected

end Book

section Charge

variable {start : MatchMargin} {fills : List Fill} {left rested : Int}

def MatchMargin.spent (start : MatchMargin) (fills : List Fill) (kept : Int) : Int :=
  imDelta start.limit.tiers (mul start.size0 start.px) (start.positionNotional fills) + kept

theorem MatchMargin.Fresh.positionNotional_le (fresh : start.Fresh) (traded : Traded fills)
    (closing : takenQty fills ≤ start.allowance0) :
    start.positionNotional fills ≤ mul start.size0 start.px := by
  have position := fresh.position
  have taken := takenQty_nonneg traded
  have opened := openedNotional_closing traded closing
  have kept : mul (start.size0 - min (takenQty fills) start.allowance0) start.px ≤
      mul start.size0 start.px :=
    tdiv_scale_mono (Int.mul_nonneg (by omega) fresh.valued)
      (Int.mul_le_mul_of_nonneg_right (by omega) fresh.valued)
  rw [MatchMargin.positionNotional, opened]
  omega

theorem MatchMargin.Fresh.spent_bounds (fresh : start.Fresh) (fall : TiersFall start.limit.tiers)
    (traded : Traded fills) (affords : start.Affords fills left)
    (positionFits : mul start.size0 start.px ≤ maxRaw) {held : Int} (heldNonneg : 0 ≤ held)
    (heldFits : held ≤ maxRaw)
    (heldLe : start.allowance0 < takenQty fills → held ≤ start.restNotional left) :
    start.positionNotional fills ≤ maxRaw ∧
      minRaw ≤ start.spent fills (orderInitialMargin start.limit.tiers held) ∧
      start.spent fills (orderInitialMargin start.limit.tiers held) ≤ maxRaw := by
  have nonneg := fresh.positionNotional_nonneg traded
  have before := @MatchMargin.orderInitialMargin_bounds start.limit.tiers _ fresh.sized
  have after := @MatchMargin.orderInitialMargin_bounds start.limit.tiers _ nonneg
  have kept := @MatchMargin.orderInitialMargin_bounds start.limit.tiers _ heldNonneg
  have least : minRaw ≤ -maxRaw := by decide
  unfold MatchMargin.spent imDelta
  by_cases closing : takenQty fills ≤ start.allowance0
  · have shrunk := fresh.positionNotional_le traded closing
    have margins := orderInitialMargin_mono fall shrunk fresh.sized
    omega
  · rcases affords with closed | ⟨_, exposureFits, _⟩
    · exact absurd closed closing
    · have spentAll : start.closable fills = 0 := by
        rw [MatchMargin.closable]
        omega
      rw [MatchMargin.exposure, spentAll, Int.sub_zero] at exposureFits
      have := heldLe (by omega)
      omega

def MatchMargin.heldNotional (start : MatchMargin) (rested : Int) : Int :=
  match start.limit.holdPrice with
  | none => 0
  | some hold => mul hold rested

theorem MatchMargin.Fresh.heldNotional_bounds (fresh : start.Fresh) (nonneg : 0 ≤ rested)
    (le : rested ≤ left) :
    0 ≤ start.heldNotional rested ∧ start.heldNotional rested ≤ start.restNotional left := by
  unfold MatchMargin.heldNotional MatchMargin.restNotional
  cases isHold : start.limit.holdPrice with
  | none => exact ⟨le_refl 0, le_refl 0⟩
  | some hold =>
    dsimp only
    rw [max_eq_left (le_trans nonneg le)]
    exact ⟨fixedMul_nonneg (fresh.hold hold isHold) nonneg,
      fixedMul_mono (fresh.hold hold isHold) nonneg le⟩

theorem setFree_taker {accounts : AccountMargins} {trader : Address} {account : AccountMargin}
    (found : (accounts.traders trader).taker = some account) (free : Int) :
    ((accounts.setFree trader free).traders trader).taker = some { account with free } := by
  unfold AccountMargins.setFree
  rw [found]
  simp [AccountMargins.setEntry]

theorem chargeTaker_running {settled : Book} {placement : Placement} {matched : Matching}
    {taker : Order} {position : Option Int} {entry : TraderMargins} {account : AccountMargin}
    (running : Running start taker position entry matched) (fresh : start.Fresh)
    (fall : TiersFall start.limit.tiers)
    (closes : start.allowance0 = reduceOnlyAllowance (position.getD 0) taker.isBuy)
    (trader : placement.trader = taker.trader) (isBuy : placement.params.isBuy = taker.isBuy)
    (accounts : settled.accountMargins = matched.accounts)
    (positions : settled.reduceOnlyPositions = matched.positions)
    (found : entry.taker = some account) (positionFits : mul start.size0 start.px ≤ maxRaw)
    (restedNonneg : 0 ≤ rested) (restedLe : rested ≤ matched.taker.remainingQty)
    (heldFits : start.heldNotional rested ≤ maxRaw) :
    ((settled.chargeTaker placement matched.margin rested).accountMargins.traders
        placement.trader).taker =
      some { account with free := account.free - start.overReservation (start.spent matched.fills
        (orderInitialMargin start.limit.tiers (start.heldNotional rested))) } := by
  obtain ⟨exhausted, cutAt, limited⟩ := running.margin
  have held := fresh.heldNotional_bounds restedNonneg restedLe
  obtain ⟨notionalFits, least, most⟩ := fresh.spent_bounds fall running.traded running.affords
    positionFits held.1 heldFits fun _ => held.2
  have foundHere : (settled.accountMargins.traders placement.trader).taker = some account := by
    rw [accounts, trader, running.account]
    exact found
  have sameTrader : matched.taker.trader = placement.trader := by rw [trader, running.order]
  have sameSide : matched.taker.isBuy = placement.params.isBuy := by rw [isBuy, running.order]; rfl
  have freeNow : settled.reduceOnlyPositions.allowance placement.trader placement.params.isBuy =
      start.closable matched.fills := by
    rw [positions, ← sameTrader, ← sameSide]
    exact running.takerFree closes
  have needed := (@MatchMargin.Fresh.need_settled start matched.fills exhausted cutAt fresh
    running.traded _).mpr ⟨positionFits, notionalFits, rfl⟩
  have total : checkedAdd (imDelta start.limit.tiers (mul start.size0 start.px)
        (start.positionNotional matched.fills))
      (orderInitialMargin start.limit.tiers (start.heldNotional rested)) =
      some (start.spent matched.fills
        (orderInitialMargin start.limit.tiers (start.heldNotional rested))) :=
    fit_eq_some.mpr ⟨least, most, rfl⟩
  have noAdverse : checkedAdd (start.spent matched.fills
        (orderInitialMargin start.limit.tiers (start.heldNotional rested)))
      start.adverse = some (start.spent matched.fills
        (orderInitialMargin start.limit.tiers (start.heldNotional rested))) := by
    rw [fresh.adverse]
    exact fit_eq_some.mpr ⟨by omega, by omega, by omega⟩
  unfold Book.chargeTaker
  rw [limited, foundHere]
  dsimp only
  rw [setFree_taker foundHere, freeNow, needed]
  have sameLimit : (start.after matched.fills exhausted cutAt).limit = start.limit := rfl
  have sameAdverse : (start.after matched.fills exhausted cutAt).adverse = start.adverse := rfl
  cases isHold : start.limit.holdPrice with
  | none =>
    have nothing : orderInitialMargin start.limit.tiers (start.heldNotional rested) = 0 := by
      simp [MatchMargin.heldNotional, isHold, orderInitialMargin]
    rw [nothing] at total noAdverse ⊢
    simp only [Option.bind_eq_bind, Option.bind_some, sameLimit, isHold, sameAdverse, total,
      noAdverse]
    rfl
  | some hold =>
    have isHeld : start.heldNotional rested = mul hold rested := by
      rw [MatchMargin.heldNotional, isHold]
    have fits : checkedMul hold rested = some (start.heldNotional rested) :=
      fit_eq_some.mpr ⟨by rw [← mul, ← isHeld]; exact le_trans (by decide) held.1,
        by rw [← mul, ← isHeld]; exact heldFits, isHeld⟩
    simp only [Option.bind_eq_bind, Option.bind_some, sameLimit, isHold, sameAdverse, fits,
      Option.map_some, total, noAdverse]
    rfl

end Charge

end TorusHyperBft.OrderBook
