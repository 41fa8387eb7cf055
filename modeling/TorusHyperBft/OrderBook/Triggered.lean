import TorusHyperBft.OrderBook.Place
import TorusHyperBft.OrderBook.Valid

namespace TorusHyperBft.OrderBook

/-! The pending stops of a book over one placement.

Only the end of a placement that traded takes stops out, and only a stop order puts one in. -/

namespace Book

/-- Neither the stops nor the price that fires them changed. -/
structure StopsKept (before after : Book) : Prop where
  pendingStops : after.pendingStops = before.pendingStops
  lastTradePrice : after.lastTradePrice = before.lastTradePrice

theorem StopsKept.trans {first second third : Book} (left : StopsKept first second)
    (right : StopsKept second third) : StopsKept first third :=
  ⟨right.pendingStops.trans left.pendingStops, right.lastTradePrice.trans left.lastTradePrice⟩

theorem Frame.stopsKept {before after : Book}
    (frame : Frame before after) : StopsKept before after :=
  ⟨frame.pendingStops, frame.lastTradePrice⟩

variable {book : Book} {placement : Placement}

theorem cancelOrder_framed (id : Nat) : Frame book (book.cancelOrder id).1 := by
  unfold cancelOrder
  split
  · exact Frame.refl book
  · split
    · exact ⟨rfl, rfl, rfl, rfl, rfl, rfl, rfl, rfl⟩
    · split
      · exact ⟨rfl, rfl, rfl, rfl, rfl, rfl, rfl, rfl⟩
      · split
        · exact ⟨rfl, rfl, rfl, rfl, rfl, rfl, rfl, rfl⟩
        · rename_i location _ _ queue _ _ position _ _ order _
          have placed := @setLadder_frame book location.side
            (Ladder.setQueue location.price (queue.eraseIdx position) (book.ladder location.side))
          dsimp only
          split <;> exact ⟨placed.marketId, placed.tickSize, placed.lotSize, placed.nextId,
            placed.pendingStops, placed.lastTradePrice, placed.reduceOnlyPositions,
            placed.accountMargins⟩

theorem modifyOrder_framed (id : Nat) (newPrice newQty : Option Int) :
    Frame book (book.modifyOrder id newPrice newQty).1 := by
  have cancelled := @cancelOrder_framed book id
  unfold modifyOrder
  generalize book.cancelOrder id = taken at cancelled
  obtain ⟨rest, applied⟩ := taken
  -- The order taken out and put back is the same in every branch that re-inserts.
  cases applied with
  | error reason =>
    dsimp only
    split
    · split
      · exact Frame.refl book
      · split
        · exact cancelled
        · split
          · exact cancelled
          · split
            · exact setLadder_frame
            · exact cancelled
    · exact cancelled
  | ok old =>
    dsimp only
    split
    · split
      · exact Frame.refl book
      · split
        · exact cancelled.trans insertOrder_frame
        · split
          · exact cancelled.trans insertOrder_frame
          · split
            · exact setLadder_frame
            · exact cancelled.trans insertOrder_frame
    · exact cancelled.trans insertOrder_frame

theorem sweepOrder_framed (trader : Address) (reducesBuy : Bool) (sweep : Sweep) (id : Nat) :
    Frame sweep.book (sweepOrder trader reducesBuy sweep id).book := by
  unfold sweepOrder
  split
  · exact ⟨rfl, rfl, rfl, rfl, rfl, rfl, rfl, rfl⟩
  · rename_i order _
    dsimp only
    split
    · exact Frame.refl _
    · by_cases gone : sweepKeep reducesBuy sweep.budget order = 0
      · have taken := @cancelOrder_framed sweep.book id
        simp only [gone, if_true]
        split <;> exact taken
      · have shrunk := @modifyOrder_framed sweep.book id none
          (some (sweepKeep reducesBuy sweep.budget order))
        simp only [gone, if_false]
        split <;> exact shrunk

theorem foldl_sweepOrder_framed (trader : Address) (reducesBuy : Bool) (ids : List Nat)
    (sweep : Sweep) :
    Frame sweep.book (ids.foldl (sweepOrder trader reducesBuy) sweep).book := by
  induction ids generalizing sweep with
  | nil => exact Frame.refl _
  | cons id ids ih => exact (sweepOrder_framed trader reducesBuy sweep id).trans (ih _)

theorem sweepReduceOnly_framed (trader : Address) (cuts : List ReduceOnlyCut) :
    Frame book (book.sweepReduceOnly trader cuts).1 := by
  unfold sweepReduceOnly
  split
  · exact Frame.refl _
  · exact foldl_sweepOrder_framed _ _ _ { book, cuts, budget := _ }

theorem sweepTouched_framed (traders : List Address) (taker : Address)
    (state : Book × List ReduceOnlyCut × Option Int) :
    Frame state.1 (traders.foldl (sweepNext taker) state).1 := by
  induction traders generalizing state with
  | nil => exact Frame.refl _
  | cons trader traders ih =>
    exact (sweepReduceOnly_framed trader state.2.1).trans (ih (sweepNext taker state trader))

theorem sweepMatched_framed (matched : Matching) :
    Frame book (book.sweepMatched placement matched).1 := by
  unfold sweepMatched
  split
  · exact Frame.refl _
  · exact sweepTouched_framed _ _ (book, matched.reduceOnlyCuts, none)

theorem settle_framed (order : Order) (exhausted unfilled : Bool) (left : Option Int) :
    Frame book (book.settle placement order exhausted unfilled left).1 := by
  unfold settle
  split
  · exact Frame.refl _
  · split
    · exact Frame.refl _
    · dsimp only
      split
      · split <;> exact Frame.refl _
      · exact insertOrder_frame

theorem chargeTaker_stopsKept (margin : Option MatchMargin) (restedQty : Int) :
    StopsKept book (book.chargeTaker placement margin restedQty) := by
  unfold chargeTaker
  split <;> exact ⟨rfl, rfl⟩

/-- What a placement does to the stops: the last trade takes out those it fires, in order; without
a trade they stay. -/
structure StopsFired (before after : Book) (fills : List Fill) (triggered : List TriggeredStop) :
    Prop where
  kept : after.pendingStops = before.pendingStops.filter fun stop =>
    !((fills.getLast?).any fun fill => stop.fires fill.price)
  fired : triggered = (before.pendingStops.filter fun stop =>
    (fills.getLast?).any fun fill => stop.fires fill.price).map StopOrder.triggered

theorem StopsFired.none {after : Book} (kept : after.pendingStops = book.pendingStops) :
    StopsFired book after [] [] where
  kept := by simp [kept]
  fired := by simp

theorem afterMatch_stops (makerSide : Side) (ladder : Ladder) (matched : Matching) :
    (book.afterMatch makerSide ladder matched).pendingStops = book.pendingStops ∧
      (book.afterMatch makerSide ladder matched).lastTradePrice =
        match matched.fills.getLast? with
        | none => book.lastTradePrice
        | some fill => some fill.price := by
  cases makerSide <;> exact ⟨rfl, rfl⟩

theorem fireStops_stopsFired {after : Book} {fills : List Fill}
    (stops : after.pendingStops = book.pendingStops)
    (traded : ∀ fill, fills.getLast? = some fill → after.lastTradePrice = some fill.price) :
    StopsFired book (after.fireStops fills).1 fills (after.fireStops fills).2 := by
  cases last : fills.getLast? with
  | none =>
    rw [List.getLast?_eq_none_iff] at last
    subst last
    exact StopsFired.none stops
  | some fill =>
    have nonempty : fills.isEmpty = false := by
      cases fills with
      | nil => cases last
      | cons head tail => rfl
    have fires : after.fireStops fills =
        (after.retainStops fun stop => !stop.fires fill.price,
          (after.pendingStops.filter fun stop => stop.fires fill.price).map
            StopOrder.triggered) := by
      simp [fireStops, nonempty, triggerStops, traded fill last]
    rw [fires]
    constructor
    · simp [retainStops, stops, last]
    · simp [stops, last]

theorem finish_charged {matched : Matching} (cuts : List ReduceOnlyCut) (left : Option Int) :
    ∃ charged : Book, StopsKept book charged ∧
      (book.finish placement matched cuts left).1 = (charged.fireStops matched.fills).1 ∧
      (book.finish placement matched cuts left).2.triggeredStops =
        (charged.fireStops matched.fills).2 :=
  ⟨_, (settle_framed _ _ _ _).stopsKept.trans (chargeTaker_stopsKept _ _), rfl, rfl⟩

theorem finish_stopsFired {before : Book} {matched : Matching} (cuts : List ReduceOnlyCut)
    (left : Option Int) (stops : book.pendingStops = before.pendingStops)
    (traded : ∀ fill, matched.fills.getLast? = some fill → book.lastTradePrice = some fill.price) :
    StopsFired before (book.finish placement matched cuts left).1
      (book.finish placement matched cuts left).2.fills
      (book.finish placement matched cuts left).2.triggeredStops := by
  obtain ⟨charged, kept, after, triggered⟩ := @finish_charged book placement matched cuts left
  rw [after, triggered]
  apply fireStops_stopsFired (kept.pendingStops.trans stops)
  intro fill last
  rw [kept.lastTradePrice]
  exact traded fill last

theorem matchOrder_stopsFired (order : Order) (margin : Option MatchMargin) :
    StopsFired book (book.matchOrder placement order margin).1
      (book.matchOrder placement order margin).2.fills
      (book.matchOrder placement order margin).2.triggeredStops := by
  unfold matchOrder
  dsimp only
  apply finish_stopsFired
  · exact (sweepMatched_framed _).pendingStops.trans (afterMatch_stops _ _ _).1
  · intro fill last
    rw [(sweepMatched_framed _).lastTradePrice, (afterMatch_stops _ _ _).2, last]

theorem fireStops_lastTrade (fills : List Fill) :
    (book.fireStops fills).1.lastTradePrice = book.lastTradePrice := by
  unfold fireStops
  split
  · rfl
  · unfold triggerStops
    split <;> rfl

theorem finish_lastTrade {matched : Matching} (cuts : List ReduceOnlyCut) (left : Option Int) :
    (book.finish placement matched cuts left).1.lastTradePrice = book.lastTradePrice := by
  obtain ⟨charged, kept, after, _⟩ := @finish_charged book placement matched cuts left
  rw [after, fireStops_lastTrade, kept.lastTradePrice]

theorem matchOrder_lastTrade (order : Order) (margin : Option MatchMargin) :
    (book.matchOrder placement order margin).1.lastTradePrice =
      match (book.matchOrder placement order margin).2.fills.getLast? with
      | none => book.lastTradePrice
      | some fill => some fill.price := by
  unfold matchOrder
  dsimp only
  rw [finish_lastTrade, (sweepMatched_framed _).lastTradePrice, (afterMatch_stops _ _ _).2]
  rfl

theorem placeOrder_lastTrade :
    (book.placeOrder placement).1.lastTradePrice =
      match (book.placeOrder placement).2.fills.getLast? with
      | none => book.lastTradePrice
      | some fill => some fill.price := by
  unfold placeOrder
  dsimp only
  split
  · rfl
  · split
    · unfold placeStop
      split <;> rfl
    · split
      · rfl
      · unfold placeMatched
        dsimp only
        split
        · split
          · exact matchOrder_lastTrade _ _
          · rfl
        · exact matchOrder_lastTrade _ _

theorem placeStop_stops (orderId : Nat) (trigger : Int) (limitPrice : Option Int) (priceCap : Int) :
    (book.placeStop placement orderId trigger limitPrice priceCap).2.fills = [] ∧
      (book.placeStop placement orderId trigger limitPrice priceCap).2.triggeredStops = [] ∧
      ((book.placeStop placement orderId trigger limitPrice priceCap).1.pendingStops =
          book.pendingStops ∨
        (book.placeStop placement orderId trigger limitPrice priceCap).1.pendingStops =
          book.pendingStops ++ [stopOrder placement orderId trigger limitPrice priceCap]) := by
  unfold placeStop
  split
  · exact ⟨rfl, rfl, .inl rfl⟩
  · exact ⟨rfl, rfl, .inr rfl⟩

theorem placeOrder_stop {terms : Int × Option Int × Int}
    (isStop : stopTerms placement.params = some terms) :
    (book.placeOrder placement).2.triggeredStops = [] ∧
      ((book.placeOrder placement).1.pendingStops = book.pendingStops ∨
        ∃ stop, (book.placeOrder placement).1.pendingStops = book.pendingStops ++ [stop]) := by
  obtain ⟨trigger, limitPrice, priceCap⟩ := terms
  obtain ⟨-, nothing, waits⟩ := @placeStop_stops book.allocId placement book.nextId trigger limitPrice
    priceCap
  unfold placeOrder
  dsimp only
  rw [isStop]
  split
  · exact ⟨rfl, .inl rfl⟩
  · refine ⟨nothing, ?_⟩
    rcases waits with kept | more
    · exact .inl kept
    · exact .inr ⟨_, more⟩

theorem placeOrder_stopsFired (notStop : stopTerms placement.params = none) :
    StopsFired book (book.placeOrder placement).1 (book.placeOrder placement).2.fills
      (book.placeOrder placement).2.triggeredStops := by
  have refused : ∀ reason, StopsFired book book.allocId
      (PlaceResult.rejected book.nextId reason).fills
      (PlaceResult.rejected book.nextId reason).triggeredStops := fun _ => StopsFired.none rfl
  have run : ∀ order margin, StopsFired book (book.allocId.matchOrder placement order margin).1
      (book.allocId.matchOrder placement order margin).2.fills
      (book.allocId.matchOrder placement order margin).2.triggeredStops := by
    intro order margin
    have fired := @matchOrder_stopsFired book.allocId placement order margin
    exact ⟨fired.kept, fired.fired⟩
  unfold placeOrder
  dsimp only
  rw [notStop]
  split
  · exact refused _
  · dsimp only
    split
    · exact refused _
    · unfold placeMatched
      dsimp only
      split
      · split
        · exact run _ _
        · exact refused _
      · exact run _ _

end Book

end TorusHyperBft.OrderBook
