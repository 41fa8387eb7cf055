import TorusHyperBft.Executor.Place
import TorusHyperBft.OrderBook.Triggered

namespace TorusHyperBft.Executor

open FixedPoint OrderBook List
open Account (NativeBalance)

/-! A cascade of stops ends, and fires each stop once. -/

variable {ρ : Type} {around : Around ρ} {ctx after : Context ρ}

namespace Context

def stops (ctx : Context ρ) (marketId : MarketId) : List StopOrder :=
  ((ctx.books.lookup marketId).map Book.pendingStops).getD []

def pending (ctx : Context ρ) : Int :=
  Rows.total (fun _ book => (book.pendingStops.length : Int)) ctx.books

end Context

section OnBook

variable {installed : Installed} {nextGlobalOrderId timestamp : Nat} {sender : Address}
variable {params : PlaceOrderParams} {forcedId : Option Nat} {book : Book}

theorem placeOnBook_stopsFired (notStop : Book.stopTerms params = none) :
    Book.StopsFired book
      (placeOnBook installed nextGlobalOrderId timestamp sender params forcedId book).1
      (placeOnBook installed nextGlobalOrderId timestamp sender params forcedId book).2.2.fills
      (placeOnBook installed nextGlobalOrderId timestamp sender params forcedId book).2.2.triggeredStops
    := by
  have fired := @Book.placeOrder_stopsFired
    { book with
      reduceOnlyPositions := installed.positions.getD book.reduceOnlyPositions
      accountMargins := installed.accounts
      nextId := forcedId.getD nextGlobalOrderId }
    { params, trader := sender, timestamp, margin := installed.margin, makers := installed.makers }
    notStop
  unfold placeOnBook
  cases forcedId <;> exact ⟨fired.kept, fired.fired⟩

theorem placeOnBook_stop {terms : Int × Option Int × Int}
    (isStop : Book.stopTerms params = some terms) :
    (placeOnBook installed nextGlobalOrderId timestamp sender params forcedId book).2.2.triggeredStops =
        [] ∧
      ((placeOnBook installed nextGlobalOrderId timestamp sender params forcedId book).1.pendingStops =
          book.pendingStops ∨
        ∃ stop,
          (placeOnBook installed nextGlobalOrderId timestamp sender params forcedId
            book).1.pendingStops = book.pendingStops ++ [stop]) := by
  obtain ⟨nothing, waits⟩ := @Book.placeOrder_stop
    { book with
      reduceOnlyPositions := installed.positions.getD book.reduceOnlyPositions
      accountMargins := installed.accounts
      nextId := forcedId.getD nextGlobalOrderId }
    { params, trader := sender, timestamp, margin := installed.margin, makers := installed.makers }
    terms isStop
  unfold placeOnBook
  cases forcedId <;> exact ⟨nothing, waits⟩

end OnBook

def fillsOf : Except FailureReason PlaceResult → List Fill
  | .ok result => result.fills
  | .error _ => []

def firedBy (outcome : Except FailureReason PlaceResult) (stop : StopOrder) : Bool :=
  ((fillsOf outcome).getLast?).any fun fill => stop.fires fill.price

/-- What a placement hands back of its own market's stops, and what it leaves. -/
structure StopsHandled (ctx after : Context ρ) (marketId : MarketId)
    (outcome : Except FailureReason PlaceResult) : Prop where
  kept : after.stops marketId = (ctx.stops marketId).filter fun stop => !firedBy outcome stop
  fired : triggered outcome = ((ctx.stops marketId).filter (firedBy outcome)).map StopOrder.triggered
  others : ∀ other, other ≠ marketId → after.stops other = ctx.stops other
  count : after.pending + (triggered outcome).length = ctx.pending

variable {marketId : MarketId}

section Step

variable {sender : Address} {params : PlaceOrderParams} {forcedId : Option Nat}

theorem stopsHandled_refused {balance : Address → NativeBalance}
    {reason : FailureReason} : StopsHandled ctx { ctx with balance } marketId (.error reason) where
  kept := (filter_eq_self.mpr fun _ _ => rfl).symm
  fired := (congrArg (List.map StopOrder.triggered)
    (filter_eq_nil_iff.mpr fun _ _ => Bool.false_ne_true)).symm
  others _ _ := rfl
  count := Int.add_zero _

theorem stopsHandled_placed {book placed : Book} {result : PlaceResult}
    (found : ctx.stops marketId = book.pendingStops)
    (books : after.books = ctx.books.insert marketId placed)
    (fired : Book.StopsFired book placed result.fills result.triggeredStops) :
    StopsHandled ctx after marketId (.ok result) where
  kept := by
    rw [found]
    unfold Context.stops
    rw [books, AList.lookup_insert]
    exact fired.kept
  fired := by
    rw [found]
    exact fired.fired
  others other different := by
    unfold Context.stops
    rw [books, AList.lookup_insert_ne different]
  count := by
    have standing : Rows.weightAt (fun _ (book : Book) => (book.pendingStops.length : Int))
        ctx.books marketId = book.pendingStops.length := by
      rw [← found]
      unfold Rows.weightAt Context.stops
      cases ctx.books.lookup marketId <;> rfl
    have split : placed.pendingStops.length + result.triggeredStops.length =
        book.pendingStops.length := by
      have parts := (filter_append_perm
        (fun stop => (result.fills.getLast?).any fun fill => StopOrder.fires stop fill.price)
        book.pendingStops).length_eq
      rw [length_append] at parts
      rw [fired.kept, fired.fired, length_map, Nat.add_comm]
      exact parts
    unfold Context.pending
    rw [books, Rows.total_insert, standing]
    change _ + (result.triggeredStops.length : Int) = _
    omega

theorem placeOrderInner_stops (notStop : Book.stopTerms params = none) :
    StopsHandled ctx (placeOrderInner around ctx sender params forcedId).1 params.marketId
      (placeOrderInner around ctx sender params forcedId).2 := by
  unfold placeOrderInner
  split
  · exact stopsHandled_refused
  · dsimp only
    split
    · exact stopsHandled_refused
    · split
      · exact stopsHandled_refused
      · apply stopsHandled_placed _ rfl (placeOnBook_stopsFired notStop)
        unfold Context.stops
        cases ctx.books.lookup params.marketId <;> rfl

theorem placeOrderInner_stop {terms : Int × Option Int × Int}
    (isStop : Book.stopTerms params = some terms) :
    triggered (placeOrderInner around ctx sender params forcedId).2 = [] ∧
      ∀ marketId, (placeOrderInner around ctx sender params forcedId).1.stops marketId =
          ctx.stops marketId ∨
        (marketId = params.marketId ∧ ∃ stop,
          (placeOrderInner around ctx sender params forcedId).1.stops marketId =
            ctx.stops marketId ++ [stop]) := by
  unfold placeOrderInner
  split
  · exact ⟨rfl, fun _ => .inl rfl⟩
  · dsimp only
    split
    · exact ⟨rfl, fun _ => .inl rfl⟩
    · split
      · exact ⟨rfl, fun _ => .inl rfl⟩
      · generalize isBook : (ctx.books.lookup params.marketId).getD _ = book
        have found : ctx.stops params.marketId = book.pendingStops := by
          rw [← isBook]
          unfold Context.stops
          cases ctx.books.lookup params.marketId <;> rfl
        obtain ⟨nothing, waits⟩ := @placeOnBook_stop _ ctx.nextGlobalOrderId ctx.timestamp sender
          params forcedId book terms isStop
        refine ⟨nothing, ?_⟩
        intro marketId
        unfold Context.stops
        by_cases same : marketId = params.marketId
        · subst same
          dsimp only
          rw [AList.lookup_insert]
          change ((ctx.books.lookup params.marketId).map Book.pendingStops).getD [] = _ at found
          rw [found]
          rcases waits with kept | ⟨stop, more⟩
          · exact .inl kept
          · exact .inr ⟨rfl, stop, more⟩
        · dsimp only
          rw [AList.lookup_insert_ne same]
          exact .inl rfl

theorem fireStop_stops {stop : TriggeredStop} (notStop : Book.stopTerms stop.params = none) :
    StopsHandled ctx (fireStop around ctx stop).1 stop.params.marketId
      (fireStop around ctx stop).2 := by
  have handled := @placeOrderInner_stops ρ around
    { ctx with
      balance := releaseOrderMargin ctx.balance stop.trader
        ((tryReserveForQty (ctx.marginConfigs stop.params.marketId) stop.params.price
          stop.params.quantity).getD 0) } stop.trader stop.params (some stop.id) notStop
  exact ⟨handled.kept, handled.fired, handled.others, handled.count⟩

theorem triggered_notStop (stop : StopOrder) : Book.stopTerms stop.triggered.params = none := by
  unfold StopOrder.triggered Book.stopTerms
  cases stop.limitPrice <;> rfl

end Step

/-- Which stops were handed out of which market's book between two states, in order. -/
structure HandedOut (ctx after : Context ρ) (handed : List (MarketId × StopOrder)) : Prop where
  split : ∀ marketId, (ctx.stops marketId).Perm
    ((handed.filter fun entry => entry.1 = marketId).map Prod.snd ++ after.stops marketId)
  kept : ∀ marketId, (after.stops marketId).Sublist (ctx.stops marketId)
  count : handed.length + after.pending = ctx.pending

section Run

variable {handed : List (MarketId × StopOrder)}

theorem HandedOut.nothing : HandedOut ctx ctx [] where
  split _ := by simp
  kept _ := List.Sublist.refl _
  count := by simp

theorem HandedOut.trans {middle : Context ρ} {later : List (MarketId × StopOrder)}
    (first : HandedOut ctx middle handed) (second : HandedOut middle after later) :
    HandedOut ctx after (handed ++ later) where
  split marketId := by
    have parts := (first.split marketId).trans ((second.split marketId).append_left _)
    simpa [append_assoc] using parts
  kept marketId := (second.kept marketId).trans (first.kept marketId)
  count := by
    have one := first.count
    have two := second.count
    rw [length_append]
    push_cast
    omega

theorem StopsHandled.handedOut {outcome : Except FailureReason PlaceResult}
    (handled : StopsHandled ctx after marketId outcome) :
    ∃ handed, HandedOut ctx after handed ∧
      triggered outcome = handed.map fun entry => entry.2.triggered := by
  refine ⟨((ctx.stops marketId).filter (firedBy outcome)).map fun stop => (marketId, stop),
    ⟨?_, ?_, ?_⟩, ?_⟩
  · intro other
    by_cases same : other = marketId
    · subst same
      rw [handled.kept, filter_eq_self.mpr, map_map]
      · simpa using (filter_append_perm (firedBy outcome) (ctx.stops other)).symm
      · intro entry member
        obtain ⟨stop, -, rfl⟩ := mem_map.mp member
        simp
    · rw [handled.others other same, filter_eq_nil_iff.mpr]
      · simp
      · intro entry member
        obtain ⟨stop, -, rfl⟩ := mem_map.mp member
        simpa using Ne.symm same
  · intro other
    by_cases same : other = marketId
    · subst same
      rw [handled.kept]
      exact filter_sublist
    · rw [handled.others other same]
  · have count := handled.count
    rw [handled.fired, length_map] at count
    rw [length_map]
    omega
  · rw [handled.fired, map_map]
    rfl

theorem pending_nonneg : 0 ≤ ctx.pending := Rows.total_nonneg fun _ _ => Int.natCast_nonneg _

theorem runTriggeredStops_handedOut (fuel : Nat) (ctx : Context ρ) (queue : List TriggeredStop)
    (forms : ∀ stop ∈ queue, Book.stopTerms stop.params = none)
    (enough : queue.length + ctx.pending ≤ fuel) :
    ∃ after handed, runTriggeredStops around fuel ctx queue =
        some (after, queue ++ handed.map fun entry => entry.2.triggered) ∧
      HandedOut ctx after handed := by
  induction fuel generalizing ctx queue with
  | zero =>
    have none : queue = [] := by
      have nonneg := @pending_nonneg ρ ctx
      apply eq_nil_of_length_eq_zero
      push_cast at enough
      omega
    subst none
    exact ⟨ctx, [], rfl, .nothing⟩
  | succ fuel ih =>
    cases queue with
    | nil => exact ⟨ctx, [], rfl, .nothing⟩
    | cons stop queue =>
      have handled := @fireStop_stops ρ around ctx stop (forms stop mem_cons_self)
      have count := handled.count
      obtain ⟨handed, out, isHanded⟩ := handled.handedOut
      rw [runTriggeredStops]
      generalize fireStop around ctx stop = fired at out isHanded count
      obtain ⟨middle, outcome⟩ := fired
      dsimp only at out isHanded count ⊢
      have laterForms : ∀ other ∈ queue ++ triggered outcome,
          Book.stopTerms other.params = none := by
        intro other member
        rcases mem_append.mp member with waiting | joined
        · exact forms other (mem_cons_of_mem _ waiting)
        · rw [isHanded] at joined
          obtain ⟨entry, -, rfl⟩ := mem_map.mp joined
          exact triggered_notStop entry.2
      have lasts : (queue ++ triggered outcome).length + middle.pending ≤ fuel := by
        rw [length_append]
        rw [length_cons] at enough
        push_cast at enough ⊢
        omega
      obtain ⟨after, later, ran, outLater⟩ := ih middle _ laterForms lasts
      refine ⟨after, handed ++ later, ?_, out.trans outLater⟩
      rw [ran, isHanded]
      simp

theorem runTriggeredStops_mono {fuel more : Nat} {queue placed : List TriggeredStop}
    (ran : runTriggeredStops around fuel ctx queue = some (after, placed)) (le : fuel ≤ more) :
    runTriggeredStops around more ctx queue = some (after, placed) := by
  induction fuel generalizing more ctx queue placed with
  | zero =>
    cases queue with
    | nil =>
      cases more <;> exact ran
    | cons stop queue => cases ran
  | succ fuel ih =>
    cases more with
    | zero => omega
    | succ more =>
      cases queue with
      | nil => exact ran
      | cons stop queue =>
        rw [runTriggeredStops] at ran ⊢
        generalize fireStop around ctx stop = fired at ran
        obtain ⟨middle, outcome⟩ := fired
        dsimp only at ran ⊢
        rw [Option.map_eq_some_iff] at ran
        obtain ⟨⟨last, later⟩, ran, same⟩ := ran
        rw [Prod.mk.injEq] at same
        obtain ⟨rfl, rfl⟩ := same
        rw [ih ran (by omega)]
        rfl

end Run

/-- A release moves at most the order margin there is. -/
theorem releaseOrderMargin_spec (balance : Address → NativeBalance) (trader : Address)
    (amount : Int) :
    let released := if 0 < amount then min amount (balance trader).orderMargin else 0
    releaseOrderMargin balance trader amount = Function.update balance trader
      { available := (balance trader).available + released
        orderMargin := (balance trader).orderMargin - released } := by
  unfold releaseOrderMargin
  dsimp only
  by_cases positive : 0 < amount
  · rw [if_neg (Int.not_le.mpr positive), if_pos positive]
  · rw [if_pos (Int.not_lt.mp positive), if_neg positive]
    simp

/-- An order that is placed, whatever is decided around the book: its cascade ends after as many
placements as stops were handed out, which is at most what was pending; each pending stop is handed
out at most once, in FIFO order, when the last trade of a placement fires it, and is never pending
again; and each gives its reservation back, up to the trader's order margin, before it is placed. -/
theorem execPlaceOrder_cascade (around : Around ρ) (ctx : Context ρ) (sender : Address)
    (params : PlaceOrderParams) :
    (∃ after handed placed,
      (∀ fuel : Nat, ctx.pending ≤ fuel →
        execPlaceOrder around fuel ctx sender params = some (after, placed)) ∧
      placed = handed.map (fun entry : MarketId × StopOrder => entry.2.triggered) ∧
      (placed.length : Int) ≤ ctx.pending ∧
      if Book.stopTerms params = none then HandedOut ctx after handed
      else handed = [] ∧ ∀ marketId, after.stops marketId = ctx.stops marketId ∨
        (marketId = params.marketId ∧
          ∃ stop, after.stops marketId = ctx.stops marketId ++ [stop])) ∧
    (∀ (state : Context ρ) (trader : Address) (order : PlaceOrderParams) (forcedId : Option Nat),
      Book.stopTerms order = none →
        StopsHandled state (placeOrderInner around state trader order forcedId).1 order.marketId
          (placeOrderInner around state trader order forcedId).2) ∧
    (∀ stop : StopOrder, Book.stopTerms stop.triggered.params = none) ∧
    (∀ (state : Context ρ) (stop : TriggeredStop),
      let reserve := (tryReserveForQty (state.marginConfigs stop.params.marketId) stop.params.price
        stop.params.quantity).getD 0
      let held := state.balance stop.trader
      let released := if 0 < reserve then min reserve held.orderMargin else 0
      fireStop around state stop = placeOrderInner around
        { state with
          balance := Function.update state.balance stop.trader
            { available := held.available + released
              orderMargin := held.orderMargin - released } }
        stop.trader stop.params (some stop.id)) := by
  refine ⟨?_, ?_, triggered_notStop, ?_⟩
  · cases isStop : Book.stopTerms params with
    | some terms =>
      obtain ⟨nothing, stops⟩ := @placeOrderInner_stop ρ around ctx sender params none terms isStop
      have ran : ∀ fuel : Nat, ctx.pending ≤ fuel →
          execPlaceOrder around fuel ctx sender params =
            some ((placeOrderInner around ctx sender params none).1, []) := by
        intro fuel _
        unfold execPlaceOrder
        dsimp only
        rw [nothing]
        cases fuel <;> rfl
      refine ⟨_, [], [], ran, rfl, pending_nonneg, ?_⟩
      rw [if_neg (by simp)]
      exact ⟨rfl, stops⟩
    | none =>
      have handled := @placeOrderInner_stops ρ around ctx sender params none isStop
      have count := handled.count
      obtain ⟨first, out, isFirst⟩ := handled.handedOut
      have forms : ∀ stop ∈ triggered (placeOrderInner around ctx sender params none).2,
          Book.stopTerms stop.params = none := by
        intro stop member
        rw [isFirst] at member
        obtain ⟨entry, -, rfl⟩ := mem_map.mp member
        exact triggered_notStop entry.2
      have nonneg := @pending_nonneg ρ ctx
      obtain ⟨after, later, ran, outLater⟩ := @runTriggeredStops_handedOut ρ around
        ctx.pending.toNat (placeOrderInner around ctx sender params none).1 _ forms (by omega)
      have all := out.trans outLater
      have runs : ∀ fuel : Nat, ctx.pending ≤ fuel →
          execPlaceOrder around fuel ctx sender params =
            some (after, (first ++ later).map fun entry => entry.2.triggered) := by
        intro fuel enough
        unfold execPlaceOrder
        dsimp only
        rw [runTriggeredStops_mono ran (by omega), isFirst, map_append]
      refine ⟨after, first ++ later, _, runs, rfl, ?_, ?_⟩
      · have total := all.count
        have left := @pending_nonneg ρ after
        rw [length_map]
        omega
      · rw [if_pos rfl]
        exact all
  · intro state trader order forcedId notStop
    exact placeOrderInner_stops notStop
  · intro state stop
    unfold fireStop
    dsimp only
    rw [releaseOrderMargin_spec]

def openDoor : Around Unit where
  preCheck _ _ _ := none
  reserveTerms _ _ params := (params.price, params.quantity)
  accountCheck _ _ _ := none
  bookShape _ _ := (1, 1)
  install _ _ _ _ := {}
  settle ctx _ _ _ _ := (ctx.balance, ())

def waitingStop : StopOrder where
  id := 5
  trader := 2
  marketId := 7
  side := .buy
  triggerPrice := 200000000
  limitPrice := none
  priceCap := 200000000
  quantity := 200000000
  timeInForce := .ioc
  timestamp := 0
  reduceOnly := false
  clientOrderId := none

/-- An ask of one unit at two, and the stop of a trader that has no order margin. -/
def thinContext : Context Unit where
  books := AList.singleton 7
    { (Book.new 7 1 1).insertOrder
        { id := 4, trader := 3, side := .sell, price := 200000000, remainingQty := 100000000
          originalQty := 100000000, orderType := .limit, timeInForce := .gtc, timestamp := 0
          reduceOnly := false, clientOrderId := none } with pendingStops := [waitingStop] }
  rest := ()

def takingOrder : PlaceOrderParams where
  marketId := 7
  isBuy := true
  price := 200000000
  quantity := 100000000
  orderType := .limit
  timeInForce := .ioc
  reduceOnly := false
  clientOrderId := none

/-- One stop is pending, so one step of the queue is enough. -/
theorem execPlaceOrder_cascade_thin :
    ∃ after placed, execPlaceOrder openDoor 1 thinContext 1 takingOrder = some (after, placed) ∧
      placed.length ≤ 1 ∧
      StopsHandled thinContext (placeOrderInner openDoor thinContext 1 takingOrder none).1 7
        (placeOrderInner openDoor thinContext 1 takingOrder none).2 := by
  have pending : thinContext.pending = 1 := by decide
  obtain ⟨⟨after, handed, placed, ran, -, few, -⟩, handled, -⟩ :=
    execPlaceOrder_cascade openDoor thinContext 1 takingOrder
  rw [pending] at few
  exact ⟨after, placed, ran 1 pending.le, by exact_mod_cast few,
    handled thinContext 1 takingOrder none rfl⟩

/-- The order trades and fires the stop, whose reservation is positive; the trader has less order
margin than that, so nothing is released. -/
theorem execPlaceOrder_releases_less :
    let placed := placeOrderInner openDoor thinContext 1 takingOrder none
    triggered placed.2 = [waitingStop.triggered] ∧
    tryReserveForQty (placed.1.marginConfigs 7) waitingStop.triggered.params.price
      waitingStop.triggered.params.quantity = some 20000000 ∧
    releaseOrderMargin placed.1.balance 2 20000000 2 = placed.1.balance 2 := by
  decide +kernel

end TorusHyperBft.Executor
