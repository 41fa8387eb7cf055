import TorusHyperBft.OrderBook.TakerCharge

namespace TorusHyperBft.Executor

open FixedPoint OrderBook

/-! Takers that are checked against their margin at every fill. -/

def neverRests (params : PlaceOrderParams) : Bool :=
  match params.orderType with
  | .market => true
  | .limit => decide (params.timeInForce = .ioc) || decide (params.timeInForce = .fok)
  | _ => false

/-- Whether the fills of an order can cost more initial margin than it reserved. -/
def matchMarginChecked (params : PlaceOrderParams) : Bool :=
  !params.reduceOnly &&
    match params.orderType with
    | .market => true
    | .limit => !params.isBuy || neverRests params
    | _ => false

def reservePrice (params : PlaceOrderParams) : Int :=
  match params.orderType with
  | .stopLimit _ limit => limit
  | _ => params.price

/-- Only a good-till-cancelled limit order carries a hold, though a post-only one rests too. -/
def takerMarginLimit (tiers : MarginTiers) (params : PlaceOrderParams) (reserved : Int) :
    TakerMarginLimit where
  budget := reserved
  tiers
  holdPrice :=
    if params.orderType = .limit ∧ params.timeInForce = .gtc then some (reservePrice params) else none

/-- No negative price rests or was traded. -/
structure Priced (book : Book) : Prop where
  resting : ∀ side, ∀ order ∈ (book.ladder side).orders, 0 ≤ order.price
  lastTrade : ∀ price, book.lastTradePrice = some price → 0 ≤ price

variable (book : Book) (placement : Placement) (tiers : MarginTiers) (reserved : Int)

def startMargin : MatchMargin :=
  book.matchMargin placement (takerMarginLimit tiers placement.params reserved)

def matchEnv : MatchEnv := { marketId := book.marketId, makers := placement.makers }

/-- The orders ahead of a checked taker, and its matching before the first of them. -/
def matchStart : List Order × Matching :=
  ((book.ladder placement.params.side.opposite).orders,
    book.startMatching placement
      (Book.takerOrder placement book.nextId placement.params.quantity)
      (some (startMargin book placement tiers reserved)))

/-- Everything a checked taker's fills need and what rests of it keep of its margin. -/
def committed (result : PlaceResult) : Int :=
  (startMargin book placement tiers reserved).spent result.fills
    (orderInitialMargin tiers (mul placement.params.price result.restedQty))

/-- Matching that never overspends the margin of a checked taker, and never fills less than the
margin allows. -/
structure NeverOverspends : Prop where
  /-- Every fill is the largest that the taker affords. -/
  fills : ∀ maker rest matching, Serves (matchEnv book placement)
      (matchStart book placement tiers reserved) (maker :: rest, matching) →
    Ready maker matching → ∀ quantity after,
      visit (matchEnv book placement) maker.price maker matching = .fill quantity after →
      ∃ fillable, makerFillable matching.positions maker = some fillable ∧
        IsGreatest (Affordable (startMargin book placement tiers reserved) maker matching fillable)
          quantity
  /-- Matching stops only where the taker affords nothing of what is offered. -/
  stops : ∀ maker rest matching, Serves (matchEnv book placement)
      (matchStart book placement tiers reserved) (maker :: rest, matching) →
    Ready maker matching → ∀ after,
      visit (matchEnv book placement) maker.price maker matching = .starved after →
      ∃ fillable, makerFillable matching.positions maker = some fillable ∧
        IsGreatest (Affordable (startMargin book placement tiers reserved) maker matching fillable) 0
  /-- The fills of the result are those of a run of the loop. -/
  run : ∃ left matched, Serves (matchEnv book placement) (matchStart book placement tiers reserved)
      (left, matched) ∧ (book.placeOrder placement).2.fills = matched.fills
  /-- The account keeps its free margin and the reservation, less what is committed. -/
  account : ∀ account, (book.accountMargins.traders placement.trader).taker = some account →
    ∃ free, ((book.placeOrder placement).1.accountMargins.traders placement.trader).taker =
        some { account with free } ∧
      (free = account.free + reserved -
          committed book placement tiers reserved (book.placeOrder placement).2 ∨
        ((book.accountMargins.traders placement.trader).takerOnly = true ∧ free = account.free ∧
          committed book placement tiers reserved (book.placeOrder placement).2 = reserved + 1))

/-- An order that is refused before matching changes nothing but the id counter. -/
def Refused : Prop :=
  (book.placeOrder placement).1 = book.allocId ∧ (book.placeOrder placement).2.status = .rejected

variable {book placement tiers reserved}

theorem startMargin_fresh (priced : Priced book) (unmarked : book.accountMargins.mark = none)
    (limit : 0 ≤ placement.params.price) : (startMargin book placement tiers reserved).Fresh where
  unmarked := unmarked
  notPrechecked := rfl
  adverse := rfl
  charged := rfl
  before := rfl
  valued := by
    unfold startMargin Book.matchMargin
    dsimp only
    split
    · exact le_refl 0
    · split
      · omega
      · cases last : book.lastTradePrice with
        | none => exact le_refl 0
        | some price => exact priced.lastTrade price last
  closes := by
    unfold startMargin Book.matchMargin reduceOnlyAllowance
    dsimp only
    split <;> [omega; split <;> omega]
  position := by
    unfold startMargin Book.matchMargin reduceOnlyAllowance
    dsimp only
    split <;> split <;> [skip; skip; split; split] <;> omega
  hold := by
    intro hold isHold
    have isLimit : (if placement.params.orderType = .limit ∧ placement.params.timeInForce = .gtc then
        some (reservePrice placement.params) else none) = some hold := isHold
    split at isLimit
    · rename_i rests
      cases isLimit
      rw [reservePrice, rests.1]
      exact limit
    · contradiction

theorem matchMarginChecked_type (checked : matchMarginChecked placement.params = true) :
    placement.params.orderType = .limit ∨ placement.params.orderType = .market := by
  unfold matchMarginChecked at checked
  cases orderType : placement.params.orderType with
  | limit => exact Or.inl rfl
  | market => exact Or.inr rfl
  | stopMarket trigger => simp [orderType] at checked
  | stopLimit trigger limit => simp [orderType] at checked

theorem matchMarginChecked_notStop (checked : matchMarginChecked placement.params = true) :
    Book.stopTerms placement.params = none := by
  unfold Book.stopTerms
  rcases matchMarginChecked_type checked with isLimit | isMarket
  · rw [isLimit]
  · rw [isMarket]

theorem walkMakers_loss {request : FokRequest} (unmarked : request.takerMark = none)
    {orders : List Order} {walk : FokWalk} {notional : Option Int} {loss : MarkLoss}
    (walked : request.walkMakers orders walk = some (notional, loss)) : loss = walk.loss := by
  induction orders generalizing walk with
  | nil => cases walked
  | cons order orders ih =>
    unfold FokRequest.walkMakers at walked
    split at walked
    · exact ih walked
    · dsimp only at walked
      have keeps : ∀ take fits after, request.checkAccounts order take walk = some (fits, after) →
          after.loss = walk.loss := by
        intro take fits after looked
        unfold FokRequest.checkAccounts at looked
        split at looked
        · cases looked
          rfl
        · split at looked
          · dsimp only at looked
            split at looked
            · split at looked
              · cases looked
                rfl
              · split at looked
                · cases looked
                  rfl
                · contradiction
            · cases looked
              rfl
          · cases looked
            rfl
      split at walked
      · contradiction
      · rename_i after looked
        exact (ih walked).trans (keeps _ _ _ looked)
      · rename_i after looked
        have same := keeps _ _ _ looked
        have added : ∀ price take closing loss,
            request.addLoss price take closing loss = some loss := by
          intro price take closing loss
          rw [FokRequest.addLoss, unmarked]
        rw [added] at walked
        dsimp only at walked
        split at walked
        · cases walked
          exact same
        · exact (ih walked).trans same

theorem fokFits_margin {start : MatchMargin} {quantity free : Int}
    {walk : Option (Option Int × MarkLoss)}
    (noLoss : ∀ notional loss, walk = some (notional, loss) → loss = .zero) :
    (Book.fokFits (some start) quantity free walk).2 = some start := by
  unfold Book.fokFits
  cases walk with
  | none => rfl
  | some walked =>
    obtain ⟨notional, loss⟩ := walked
    rw [noLoss notional loss rfl]
    rfl

theorem placeOrder_checked (checked : matchMarginChecked placement.params = true)
    (limited : placement.margin = some (takerMarginLimit tiers placement.params reserved))
    (unmarked : book.accountMargins.mark = none) :
    Refused book placement ∨ (book.allocId.shapeReject placement = none ∧
      book.placeOrder placement = book.allocId.matchOrder placement
        (Book.takerOrder placement book.nextId placement.params.quantity)
        (some (startMargin book placement tiers reserved))) := by
  have opens : placement.params.reduceOnly = false := by
    unfold matchMarginChecked at checked
    simp only [Bool.and_eq_true, Bool.not_eq_true'] at checked
    exact checked.1
  have notStop := matchMarginChecked_notStop checked
  have margin : placement.margin.map (book.allocId.matchMargin placement) =
      some (startMargin book placement tiers reserved) := by
    rw [limited]
    rfl
  unfold Refused Book.placeOrder
  dsimp only
  cases accepted : book.allocId.shapeReject placement with
  | some reason => exact Or.inl ⟨rfl, rfl⟩
  | none =>
    rw [notStop]
    dsimp only
    cases entered : book.allocId.matchQuantity placement with
    | error reason => exact Or.inl ⟨rfl, rfl⟩
    | ok quantity =>
      have whole : quantity = placement.params.quantity := by
        unfold Book.matchQuantity at entered
        dsimp only at entered
        rw [opens] at entered
        split at entered
        · contradiction
        · split at entered
          · contradiction
          · cases entered
            rfl
      subst whole
      dsimp only
      unfold Book.placeMatched
      dsimp only
      rw [margin]
      split
      · have same := @fokFits_margin (startMargin book placement tiers reserved)
          placement.params.quantity
          (book.allocId.reduceOnlyPositions.allowance placement.trader placement.params.isBuy)
          (book.allocId.canFillCompletely (book.allocId.fokRequest placement
            (some (startMargin book placement tiers reserved))) placement.params.price
            placement.params.quantity
            (book.allocId.reduceOnlyPositions.allowance placement.trader
              placement.params.isBuy))
          fun notional loss walked => by
            have unmarkedWalk : (book.allocId.fokRequest placement
                (some (startMargin book placement tiers reserved))).takerMark = none := by
              show (book.accountMargins.mark.map _) = none
              rw [unmarked]
              rfl
            exact walkMakers_loss unmarkedWalk walked
        generalize Book.fokFits _ _ _ _ = check at same ⊢
        obtain ⟨fits, handed⟩ := check
        dsimp only at same ⊢
        subst same
        cases fits with
        | false => exact Or.inl ⟨rfl, rfl⟩
        | true => exact Or.inr ⟨rfl, rfl⟩
      · exact Or.inr ⟨rfl, rfl⟩

theorem takerOrder_isBuy (orderId : Nat) (quantity : Int) :
    (Book.takerOrder placement orderId quantity).isBuy = placement.params.isBuy := by
  unfold Book.takerOrder Order.isBuy PlaceOrderParams.side
  cases placement.params.isBuy <;> rfl

/-- A state of the match that the placement started. -/
abbrev Underway (book : Book) (placement : Placement) (tiers : MarginTiers) (reserved : Int) :
    Matching → Prop :=
  Running (startMargin book placement tiers reserved)
    (Book.takerOrder placement book.nextId placement.params.quantity)
    (book.reduceOnlyPositions.get placement.trader) (book.accountMargins.traders placement.trader)

theorem matchStart_running (limited : placement.margin.isSome)
    (wants : 0 ≤ placement.params.quantity)
    (closes : 0 ≤ (startMargin book placement tiers reserved).allowance0) :
    Underway book placement tiers reserved (matchStart book placement tiers reserved).2 where
  order := by
    show Book.takerOrder placement book.nextId placement.params.quantity =
      { Book.takerOrder placement book.nextId placement.params.quantity with
        remainingQty := placement.params.quantity - 0 }
    rw [Int.sub_zero]
    rfl
  remaining := wants
  margin := ⟨false, none, rfl⟩
  unchecked := by
    obtain ⟨limit, found⟩ := Option.isSome_iff_exists.mp limited
    show book.uncheckedTaker placement = none
    rw [Book.uncheckedTaker, found]
  position := by
    have still : movedBy (Book.takerOrder placement book.nextId placement.params.quantity).isBuy
        (takenQty []) = id := by
      funext signed
      simp [movedBy, takenQty]
    show book.reduceOnlyPositions.get placement.trader =
      (book.reduceOnlyPositions.get placement.trader).map _
    refine Eq.symm ((congrArg (fun move => Option.map move _) still).trans ?_)
    exact Option.map_id_apply
  account := rfl
  traded := fun fill member => absurd member List.not_mem_nil
  affords := Or.inl closes

theorem heldMargin_eq {rested : Int}
    (rests : placement.params.orderType = .limit → placement.params.timeInForce ≠ .postOnly)
    (checked : matchMarginChecked placement.params = true)
    (settled : rested = 0 ∨ (placement.params.orderType ≠ .market ∧
      placement.params.timeInForce ≠ .ioc ∧ placement.params.timeInForce ≠ .fok)) :
    (startMargin book placement tiers reserved).heldNotional rested =
      mul placement.params.price rested := by
  have isHold : (startMargin book placement tiers reserved).limit.holdPrice =
      if placement.params.orderType = .limit ∧ placement.params.timeInForce = .gtc then
        some (reservePrice placement.params) else none := rfl
  unfold MatchMargin.heldNotional
  rw [isHold]
  by_cases holds : placement.params.orderType = .limit ∧ placement.params.timeInForce = .gtc
  · rw [if_pos holds]
    dsimp only
    rw [reservePrice, holds.1]
  · rw [if_neg holds]
    dsimp only
    rcases settled with nothing | ⟨notMarket, notIoc, notFok⟩
    · rw [nothing]
      simp [mul]
    · -- A limit order that rests is good till cancelled or post-only.
      have isLimit : placement.params.orderType = .limit :=
        (matchMarginChecked_type checked).resolve_right notMarket
      cases timeInForce : placement.params.timeInForce with
      | gtc => exact absurd ⟨isLimit, timeInForce⟩ holds
      | ioc => exact absurd timeInForce notIoc
      | fok => exact absurd timeInForce notFok
      | postOnly => exact absurd timeInForce (rests isLimit)

theorem shapeReject_price (noStop : Book.stopTerms placement.params = none)
    (accepted : book.shapeReject placement = none) : 0 < placement.params.price := by
  by_contra low
  have refused : placement.params.price ≤ 0 := Int.not_lt.mp low
  have types : placement.params.orderType = .limit ∨ placement.params.orderType = .market := by
    unfold Book.stopTerms at noStop
    cases orderType : placement.params.orderType with
    | limit => exact Or.inl rfl
    | market => exact Or.inr rfl
    | stopMarket trigger => simp [orderType] at noStop
    | stopLimit trigger limit => simp [orderType] at noStop
  unfold Book.shapeReject at accepted
  rcases types with isLimit | isMarket
  · simp only [isLimit, refused, decide_true, if_true] at accepted
    repeat' split at accepted
    all_goals contradiction
  · simp only [isMarket, refused, decide_true, if_true] at accepted
    repeat' split at accepted
    all_goals contradiction

theorem overReservation_cases (start : MatchMargin) (free need : Int) :
    free - start.overReservation need = free + start.limit.budget - need ∨
      (start.takerOnly = true ∧ free - start.overReservation need = free ∧
        need = start.limit.budget + 1) := by
  unfold MatchMargin.overReservation
  dsimp only
  split
  · rename_i forgiven
    exact Or.inr ⟨forgiven.1, by omega, by omega⟩
  · exact Or.inl (by omega)

theorem account_settled {matched : Matching} {settled : Book} {rested : Int}
    {account : AccountMargin} (running : Underway book placement tiers reserved matched)
    (fresh : (startMargin book placement tiers reserved).Fresh) (fall : TiersFall tiers)
    (checked : matchMarginChecked placement.params = true)
    (accounts : settled.accountMargins = matched.accounts)
    (positions : settled.reduceOnlyPositions = matched.positions)
    (found : (book.accountMargins.traders placement.trader).taker = some account)
    (positionFits : mul (startMargin book placement tiers reserved).size0
      (startMargin book placement tiers reserved).px ≤ maxRaw)
    (orderFits : neverRests placement.params = false →
      mul placement.params.price placement.params.quantity ≤ maxRaw)
    (priceNonneg : 0 ≤ placement.params.price)
    (rests : placement.params.orderType = .limit → placement.params.timeInForce ≠ .postOnly)
    (isRested : rested = 0 ∨ (rested = matched.taker.remainingQty ∧
      placement.params.orderType ≠ .market ∧ placement.params.timeInForce ≠ .ioc ∧
      placement.params.timeInForce ≠ .fok)) :
    ∃ free, ((settled.chargeTaker placement matched.margin rested).accountMargins.traders
        placement.trader).taker = some { account with free } ∧
      (free = account.free + reserved - (startMargin book placement tiers reserved).spent matched.fills
          (orderInitialMargin tiers (mul placement.params.price rested)) ∨
        ((book.accountMargins.traders placement.trader).takerOnly = true ∧ free = account.free ∧
          (startMargin book placement tiers reserved).spent matched.fills
            (orderInitialMargin tiers (mul placement.params.price rested)) = reserved + 1)) := by
  have remaining := running.remaining
  have taken := takenQty_nonneg running.traded
  have order : matched.taker.remainingQty = placement.params.quantity - takenQty matched.fills := by
    rw [running.order]
    rfl
  have restedNonneg : 0 ≤ rested := by
    rcases isRested with rfl | ⟨rfl, _⟩
    · exact le_refl 0
    · exact remaining
  have restedLe : rested ≤ matched.taker.remainingQty := by
    rcases isRested with rfl | ⟨rfl, _⟩
    · exact remaining
    · exact le_refl _
  have held : (startMargin book placement tiers reserved).heldNotional rested =
      mul placement.params.price rested :=
    heldMargin_eq rests checked (isRested.imp_right And.right)
  have heldFits : (startMargin book placement tiers reserved).heldNotional rested ≤ maxRaw := by
    rw [held]
    rcases isRested with rfl | ⟨_, notMarket, notIoc, notFok⟩
    · rw [mul, Int.mul_zero]
      decide
    · exact le_trans (fixedMul_mono priceNonneg restedNonneg (by omega))
        (orderFits (by unfold neverRests; split <;> simp_all))
  have charged := @chargeTaker_running (startMargin book placement tiers reserved) rested settled
    placement matched _ _ _ account running fresh fall (by rw [takerOrder_isBuy]; rfl) rfl
    (takerOrder_isBuy _ _).symm accounts positions found positionFits restedNonneg restedLe heldFits
  rw [held] at charged
  exact ⟨_, charged, overReservation_cases (startMargin book placement tiers reserved) _ _⟩

/-- Along every run that is steady at each maker it turns to, a checked taker that is not a
post-only order never overspends its margin. -/
theorem placeOrder_neverOverspends (ready : book.ReadyFor placement) (priced : Priced book)
    (checked : matchMarginChecked placement.params = true)
    (limited : placement.margin = some (takerMarginLimit tiers placement.params reserved))
    (fall : TiersFall tiers) (unmarked : book.accountMargins.mark = none)
    (positionFits : mul (startMargin book placement tiers reserved).size0
      (startMargin book placement tiers reserved).px ≤ maxRaw)
    (orderFits : neverRests placement.params = false →
      mul placement.params.price placement.params.quantity ≤ maxRaw)
    (rests : placement.params.orderType = .limit → placement.params.timeInForce ≠ .postOnly)
    (steady : ∀ maker rest matching, Serves (matchEnv book placement)
        (matchStart book placement tiers reserved) (maker :: rest, matching) →
      Ready maker matching → SteadyAt (startMargin book placement tiers reserved) maker matching) :
    Refused book placement ∨ NeverOverspends book placement tiers reserved := by
  rcases placeOrder_checked checked limited unmarked with refused | ⟨accepted, placed⟩
  · exact Or.inl refused
  have limitNonneg : 0 ≤ placement.params.price :=
    le_of_lt (shapeReject_price (matchMarginChecked_notStop checked) accepted)
  have wants : 0 < placement.params.quantity :=
    Int.lt_of_lt_of_le ready.lotSize (Book.shapeReject_quantity accepted)
  have fresh := @startMargin_fresh book placement tiers reserved priced unmarked limitNonneg
  have wf := ready.valid.ladders placement.params.side.opposite
  have stocked : Stocked (matchStart book placement tiers reserved).1 := fun order member =>
    ⟨wf.positive member, priced.resting _ order member⟩
  have started := @matchStart_running book placement tiers reserved (by rw [limited]; rfl)
    (le_of_lt wants) fresh.closes
  have closes : (startMargin book placement tiers reserved).allowance0 =
      reduceOnlyAllowance ((book.reduceOnlyPositions.get placement.trader).getD 0)
        (Book.takerOrder placement book.nextId placement.params.quantity).isBuy := by
    rw [takerOrder_isBuy]
    rfl
  have runs := fun left matched => @Running.serves (matchEnv book placement) _ _ _ _ _ matched _ left
    started fresh fall closes stocked steady
  have visits : ∀ maker rest matching, Serves (matchEnv book placement)
      (matchStart book placement tiers reserved) (maker :: rest, matching) → Ready maker matching →
      StaysWithin (startMargin book placement tiers reserved)
        (Book.takerOrder placement book.nextId placement.params.quantity)
        (book.reduceOnlyPositions.get placement.trader)
        (book.accountMargins.traders placement.trader) maker matching
        (visit (matchEnv book placement) maker.price maker matching) := by
    intro maker rest matching serves turns
    obtain ⟨ahead, running⟩ := runs _ _ serves
    exact running.visited fresh fall closes (ahead maker List.mem_cons_self)
      (steady maker rest matching serves turns)
  refine Or.inr ⟨?_, ?_, ?_, ?_⟩
  · intro maker rest matching serves turns quantity after filled
    have outcome := visits maker rest matching serves turns
    rw [filled] at outcome
    cases outcome with
    | fill running policed le greatest => exact ⟨_, policed, greatest⟩
  · intro maker rest matching serves turns after starved
    have outcome := visits maker rest matching serves turns
    rw [starved] at outcome
    cases outcome with
    | starved running policed greatest => exact ⟨_, policed, greatest⟩
  all_goals
    generalize matchedEq : executeMatch (matchEnv book placement) placement.params.side.opposite
      (book.ladder placement.params.side.opposite) (matchStart book placement tiers reserved).2 =
        outcome
    obtain ⟨ladder, matched⟩ := outcome
    have serves := @executeMatch_serves (matchEnv book placement) _ _ _
      (matchStart book placement tiers reserved).2 wf
    rw [matchedEq] at serves
    obtain ⟨settled, accounts, positions, fills, charged, rest, left, isRested, _⟩ :=
      @Book.matchOrder_accounts book.allocId placement
        (Book.takerOrder placement book.nextId placement.params.quantity)
        (some (startMargin book placement tiers reserved)) ladder matched matchedEq
    rw [← placed] at fills charged isRested
  · exact ⟨_, matched, serves, fills⟩
  · intro account found
    obtain ⟨_, running⟩ := runs _ _ serves
    rw [charged]
    unfold committed
    rw [fills]
    apply account_settled running fresh fall checked accounts positions found positionFits orderFits
      limitNonneg rests
    rw [isRested]
    apply Book.settle_rested
    rw [running.order]
    unfold matchMarginChecked at checked
    simp only [Bool.and_eq_true, Bool.not_eq_true'] at checked
    exact checked.1

/-- A run is steady throughout where the hold of one lot is a whole number of raw units, and where
there is no hold. -/
theorem steady_of_wholeLots (ready : book.ReadyFor placement)
    (limitNonneg : 0 ≤ placement.params.price)
    (whole : placement.params.isBuy = false ∧
      scale ∣ placement.params.price * lotStep book.lotSize ∨ neverRests placement.params = true)
    {maker : Order} {rest : List Order} {matching : Matching}
    (serves : Serves (matchEnv book placement) (matchStart book placement tiers reserved)
      (maker :: rest, matching)) (turns : Ready maker matching) :
    SteadyAt (startMargin book placement tiers reserved) maker matching := by
  intro fillable policed
  obtain ⟨earlier, sameTaker⟩ := Serves.terms serves
  obtain ⟨old, inBook, same⟩ := earlier maker List.mem_cons_self
  apply MatchMargin.steady_of_between (min_le_left _ _)
  intro hold isHold
  have isLimit : (if placement.params.orderType = .limit ∧ placement.params.timeInForce = .gtc then
      some (reservePrice placement.params) else none) = some hold := isHold
  split at isLimit
  swap
  · contradiction
  rename_i rests
  cases isLimit
  rw [reservePrice, rests.1]
  dsimp only
  rcases whole with ⟨sells, units, exactly⟩ | never
  · have side : maker.side = .buy := by
      have wf := ready.valid.ladders placement.params.side.opposite
      rw [Order.terms_side same, wf.placed inBook, PlaceOrderParams.side, sells]
      rfl
    have price : matching.taker.price = placement.params.price := Order.terms_price sameTaker
    have within := turns.within
    rw [side, price] at within
    have above : placement.params.price ≤ maker.price := of_decide_eq_true within
    refine ⟨limitNonneg, units, ?_, ?_⟩
    · rw [Int.mul_comm units]
      exact le_of_eq exactly
    · rw [Int.mul_comm units, ← exactly]
      exact Int.mul_le_mul_of_nonneg_right above (le_of_lt (lotStep_pos _))
  · simp [neverRests, rests.1, rests.2] at never

theorem matchOrder_notRejected (ready : book.ReadyFor placement)
    (opens : placement.params.reduceOnly = false) (quantity : Int) (margin : Option MatchMargin) :
    (book.allocId.matchOrder placement (Book.takerOrder placement book.nextId quantity)
      margin).2.status ≠ .rejected := by
  generalize matchedEq : executeMatch (matchEnv book.allocId placement)
    placement.params.side.opposite (book.ladder placement.params.side.opposite)
    (book.allocId.startMatching placement (Book.takerOrder placement book.nextId quantity) margin) =
      outcome
  obtain ⟨ladder, matched⟩ := outcome
  have serves := @executeMatch_serves (matchEnv book.allocId placement) _ _ _
    (book.allocId.startMatching placement (Book.takerOrder placement book.nextId quantity) margin)
    (ready.valid.ladders placement.params.side.opposite)
  rw [matchedEq] at serves
  obtain ⟨_, _, _, _, _, rest, left, _, status⟩ := @Book.matchOrder_accounts book.allocId placement
    (Book.takerOrder placement book.nextId quantity) margin ladder matched matchedEq
  rw [status]
  apply Book.settle_notRejected
  exact (Order.terms_reduceOnly (Serves.terms serves).2).trans opens

theorem Priced.new (marketId : MarketId) (tickSize lotSize : Int) :
    Priced (Book.new marketId tickSize lotSize) where
  resting side order member := by cases side <;> exact absurd member List.not_mem_nil
  lastTrade price last := by cases last

theorem Priced.placeOrder (priced : Priced book) (ready : book.ReadyFor placement) :
    Priced (book.placeOrder placement).1 := by
  have unchanged : Priced book.allocId := ⟨priced.resting, priced.lastTrade⟩
  cases accepted : book.allocId.shapeReject placement with
  | some reason =>
    have refused : (book.placeOrder placement).1 = book.allocId := by
      unfold Book.placeOrder
      simp only [accepted]
    rw [refused]
    exact unchanged
  | none =>
    cases ready.placeOrder with
    | rejected reason same said =>
      rw [same]
      exact unchanged
    | stored trigger limitPrice priceCap accepted terms stored said =>
      rw [stored]
      exact ⟨priced.resting, priced.lastTrade⟩
    | @matched quantity margin ladder matched swept noStop clamped positive done =>
      have limit : 0 ≤ placement.params.price := le_of_lt (shapeReject_price noStop accepted)
      have old : ∀ order ∈ book.resting, 0 ≤ order.price := by
        intro order member
        rcases (Book.mem_resting Side.buy).mp member with own | other
        · exact priced.resting _ order own
        · exact priced.resting _ order other
      have swept : ∀ order ∈ swept.resting, 0 ≤ order.price := by
        intro order member
        obtain ⟨before, inBook, same⟩ := done.terms_before member
        rw [← Order.terms_price same]
        exact old before inBook
      have rested : ∀ order ∈ (book.placeOrder placement).1.resting, 0 ≤ order.price := by
        intro order member
        rw [done.resting.mem_iff] at member
        split at member
        · exact swept order member
        · rcases List.mem_cons.mp member with rfl | member
          · exact limit
          · exact swept order member
      refine ⟨fun side order member => rested order ((Book.mem_resting side).mpr (Or.inl member)),
        fun price last => ?_⟩
      rw [Book.placeOrder_lastTrade, done.fills] at last
      split at last
      · exact priced.lastTrade price last
      · rename_i fill isLast
        cases last
        have serves := @executeMatch_serves (matchEnv book.allocId placement) _ _ _
          (book.allocId.startMatching placement
            (Book.takerOrder placement book.nextId quantity) margin)
          (ready.valid.allocId.ladders placement.params.side.opposite)
        have outcome : executeMatch (matchEnv book.allocId placement)
            placement.params.side.opposite (book.allocId.ladder placement.params.side.opposite)
            (book.allocId.startMatching placement
              (Book.takerOrder placement book.nextId quantity) margin) = (ladder, matched) :=
          done.outcome
        rw [outcome] at serves
        rcases Serves.fills serves fill (List.mem_of_getLast? isLast) with none | made
        · exact absurd none List.not_mem_nil
        · obtain ⟨maker, inBook, same⟩ := made
          rw [same]
          exact priced.resting _ maker inBook

/-- A market with lots of 0.01, one bid for 0.05, and a seller without a position and with `free`
margin. -/
def bidBook (bid free : Int) : Book :=
  { (Book.new 1 10 1000000).placeAll [Book.limitOrder 1 true bid 5000000] with
    accountMargins :=
      { traders := fun trader => if trader = 7 then { taker := some { free, px := 0 } } else {} } }

def sellOrder (timeInForce : TimeInForce) (price quantity reserved : Int) : Placement :=
  let order := Book.limitOrder 7 false price quantity
  let params := { order.params with timeInForce }
  { order with params, margin := some (takerMarginLimit none params reserved) }

theorem bidBook_ready {bid free : Int} {placement : Placement}
    (unchecked : placement.cloidChecked = false) : (bidBook bid free).ReadyFor placement := by
  have sound : ((Book.new 1 10 1000000).placeAll [Book.limitOrder 1 true bid 5000000]).Sound :=
    (Book.Sound.new 1 10 (by decide)).placeAll fun placement member => by
      rw [List.mem_singleton.mp member]
      rfl
  have ready := @Book.Sound.readyFor _ placement sound fun checked => by
    rw [unchecked] at checked
    contradiction
  exact ⟨ready.valid.congr rfl rfl rfl rfl rfl rfl, ready.lotSize, ready.unused, ready.notStop,
    ready.cloidChecked⟩

def bidOrder (bid : Int) : Order where
  id := 1
  trader := 1
  side := .buy
  price := bid
  remainingQty := 5000000
  originalQty := 5000000
  orderType := .limit
  timeInForce := .gtc
  timestamp := 0
  reduceOnly := false
  clientOrderId := none

def dipBook : Book := bidBook 100001240 0

def dipSell : Placement := sellOrder .gtc 100001230 13000000 650007

theorem dip_affordable : (startMargin dipBook dipSell none 650007).affordable 100001240
    (Matching.wanted (matchStart dipBook dipSell none 650007).2 5000000)
    (matchStart dipBook dipSell none 650007).2.takerFree 13000000 < 3000000 := by
  have wanted : Matching.wanted (matchStart dipBook dipSell none 650007).2 5000000 = 5000000 := by
    decide
  have free : (matchStart dipBook dipSell none 650007).2.takerFree = 0 := by decide
  have lot : (startMargin dipBook dipSell none 650007).lot = 1000000 := by decide
  have searched : (startMargin dipBook dipSell none 650007).affordable 100001240 5000000 0 13000000 =
      (largestFit 5000000 1000000 (pureCheck ((startMargin dipBook dipSell none 650007).fillFits
        100001240 0 13000000)) ()).1 := by
    have unchecked : (startMargin dipBook dipSell none 650007).prechecked = false := by decide
    rw [MatchMargin.affordable, unchecked, lot]
    rfl
  rw [wanted, free, searched]
  exact @largestFit_lt_probe _ 5000000 1000000 3 (by decide) (by decide) (by decide) (by decide)

/-- A post-only sell rests with its reservation and yet gives it back to the account.  And against
the bid, a sell that can rest affords 0.04 but not 0.03 of the 0.05 offered: the search takes 0.02
and cancels the rest of the order. -/
theorem placeOrder_overspends :
    ¬ (Refused (bidBook 100000000 0) (sellOrder .postOnly 200000000 100000000 10000000) ∨
        NeverOverspends (bidBook 100000000 0) (sellOrder .postOnly 200000000 100000000 10000000) none
          10000000) ∧
      ¬ (Refused dipBook dipSell ∨ NeverOverspends dipBook dipSell none 650007) := by
  constructor
  · rintro (⟨_, rejected⟩ | never)
    · exact absurd rejected (by decide)
    · obtain ⟨free, found, kept⟩ := never.account { free := 0, px := 0 } rfl
      have returned : ((((bidBook 100000000 0).placeOrder
          (sellOrder .postOnly 200000000 100000000 10000000)).1.accountMargins.traders 7).taker) =
          some { free := 10000000, px := 0 } := by decide
      have same : some ({ free := 10000000, px := 0 } : AccountMargin) = some { free, px := 0 } :=
        returned.symm.trans found
      cases same
      rcases kept with charged | ⟨only, _⟩
      · exact absurd charged (by decide)
      · exact absurd only (by decide)
  · rintro (⟨_, rejected⟩ | never)
    · exact matchOrder_notRejected (bidBook_ready rfl) rfl 13000000 _ rejected
    · have started : Serves (matchEnv dipBook dipSell) (matchStart dipBook dipSell none 650007)
          ([bidOrder 100001240], (matchStart dipBook dipSell none 650007).2) := by
        have start : matchStart dipBook dipSell none 650007 =
            ([bidOrder 100001240], (matchStart dipBook dipSell none 650007).2) :=
          Prod.ext (by decide) rfl
        rw [← start]
      have turns : Ready (bidOrder 100001240) (matchStart dipBook dipSell none 650007).2 :=
        ⟨by decide, by decide, by decide⟩
      have four : 4000000 ∈ Affordable (startMargin dipBook dipSell none 650007)
          (bidOrder 100001240) (matchStart dipBook dipSell none 650007).2 5000000 :=
        ⟨Or.inr ⟨by decide, by decide, by decide⟩, Or.inr ⟨by decide, by decide, Or.inl (by decide)⟩⟩
      have policed : makerFillable (matchStart dipBook dipSell none 650007).2.positions
          (bidOrder 100001240) = some 5000000 := by decide
      rcases @visit_unchecked (matchEnv dipBook dipSell) (bidOrder 100001240)
          (matchStart dipBook dipSell none 650007).2 (startMargin dipBook dipSell none 650007) 5000000
          rfl rfl rfl (by decide) policed with ⟨after, starved⟩ | ⟨after, filled⟩
      · obtain ⟨fillable, found, greatest⟩ := never.stops _ _ _ started turns after starved
        rw [policed] at found
        cases found
        exact absurd (greatest.2 four) (by decide)
      · obtain ⟨fillable, found, greatest⟩ := never.fills _ _ _ started turns _ after filled
        rw [policed] at found
        cases found
        have reached := greatest.2 four
        have missed := dip_affordable
        exact absurd (lt_of_le_of_lt reached missed) (by decide)

/-- A sell at the bid fills the bid and rests. -/
theorem placeOrder_neverOverspends_atBid :
    Refused (bidBook 100000000 0) (sellOrder .gtc 100000000 13000000 650000) ∨
      NeverOverspends (bidBook 100000000 0) (sellOrder .gtc 100000000 13000000 650000) none 650000 :=
  placeOrder_neverOverspends (bidBook_ready rfl)
    ⟨fun side => by cases side <;> decide, fun price last => by cases last⟩ rfl rfl trivial rfl
    (by decide) (fun _ => by decide) (fun _ => by decide)
    fun maker rest matching serves turns => steady_of_wholeLots (bidBook_ready rfl) (by decide)
      (Or.inl ⟨rfl, by decide⟩) serves turns

end TorusHyperBft.Executor
