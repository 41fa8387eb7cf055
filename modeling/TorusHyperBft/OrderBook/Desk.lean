import TorusHyperBft.OrderBook.Cancelled

namespace TorusHyperBft.OrderBook

open List

/-! A book over its whole life: any sequence of its operations, from the empty book on. -/

/-- A book with the stops it has handed back as triggered and that were not placed since. -/
structure Desk where
  book : Book
  triggered : List Nat := []

inductive Op where
  | setReduceOnlyPositions (positions : ReduceOnlyPositions)
  | setAccountMargins (margins : AccountMargins)
  | place (placement : Placement)
  | placeTriggered (id : Nat) (placement : Placement)
  | cancelOrder (id : Nat)
  | cancelAll (epochFits : LevelKey → Nat → Bool) (trader : Address)
  | cancelAllMany (epochFits : LevelKey → Nat → Bool) (senders : List Address)
  | cancelStop (id : Nat)
  | takePendingStops (trader : Address)
  | sweepReduceOnlyAt (trader : Address) (signedPos : Int)
  | modifyOrder (id : Nat) (newPrice newQty : Option Int)

namespace Desk

def placeForced (book : Book) (id : Nat) (placement : Placement) : Book × PlaceResult :=
  let (after, result) := { book with nextId := id }.placeOrder placement
  ({ after with nextId := book.nextId }, result)

def step (desk : Desk) : Op → Desk
  | .setReduceOnlyPositions positions =>
    { desk with book := { desk.book with reduceOnlyPositions := positions } }
  | .setAccountMargins margins =>
    { desk with book := { desk.book with accountMargins := margins } }
  | .place placement =>
    let (book, result) := desk.book.placeOrder placement
    { book, triggered := desk.triggered ++ result.triggeredStops.map TriggeredStop.id }
  | .placeTriggered id placement =>
    let (book, result) := placeForced desk.book id placement
    { book, triggered := desk.triggered.erase id ++ result.triggeredStops.map TriggeredStop.id }
  | .cancelOrder id => { desk with book := (desk.book.cancelOrder id).1 }
  | .cancelAll epochFits trader => { desk with book := (desk.book.cancelAll epochFits trader).1 }
  | .cancelAllMany epochFits senders =>
    { desk with book := (desk.book.cancelAllMany epochFits senders).1 }
  | .cancelStop id => { desk with book := (desk.book.cancelStop id).1 }
  | .takePendingStops trader => { desk with book := (desk.book.takePendingStops trader).1 }
  | .sweepReduceOnlyAt trader signedPos =>
    { desk with book := (desk.book.sweepReduceOnlyAt trader signedPos).1 }
  | .modifyOrder id newPrice newQty =>
    { desk with book := (desk.book.modifyOrder id newPrice newQty).1 }

/-- A checked name was free. -/
def CloidLookedUp (book : Book) (placement : Placement) : Prop :=
  placement.cloidChecked = true →
    Covers.CloidFree book.indexes placement.trader placement.params.clientOrderId

/-- What callers promise: a forced id is that of a triggered stop, and a modified order
keeps a positive quantity and stays clear of the opposite side. -/
def Allowed (desk : Desk) : Op → Prop
  | .place placement => CloidLookedUp desk.book placement
  | .placeTriggered id placement => id ∈ desk.triggered ∧ CloidLookedUp desk.book placement
  | .modifyOrder id newPrice newQty => ∀ order, desk.book.getOrder id = some order →
      (∀ price, newPrice = some price → 0 < price ∧ ∀ best,
        (desk.book.ladder order.side.opposite).best = some best → Apart order.side price best) ∧
      ∀ qty, newQty = some qty → 0 < qty
  | _ => True

/-- A desk that the operations lead to. -/
inductive Reachable : Desk → Prop
  | new (marketId : MarketId) (tickSize lotSize : Int) (positive : 0 < lotSize) :
      Reachable { book := Book.new marketId tickSize lotSize }
  | step {desk : Desk} (op : Op) (reachable : Reachable desk) (allowed : desk.Allowed op) :
      Reachable (desk.step op)

end Desk

namespace Book

/-- Each index holds what rests in the book, and nothing else. -/
structure Represented (book : Book) : Prop where
  uncrossed : ∀ bid ask, book.bestBid = some bid → book.bestAsk = some ask → bid < ask
  ids : (book.resting.map Order.id).Nodup
  levels : ∀ side, ∀ level ∈ book.ladder side, level.2 ≠ [] ∧
    ∀ order ∈ level.2, order.side = side ∧ order.price = level.1 ∧ 0 < order.remainingQty
  orderIndex : ∀ id location, book.indexes.orderIndex id = some location ↔
    ∃ order ∈ book.resting, order.id = id ∧ order.side = location.side ∧
      order.price = location.price
  orderSeq : ∀ id, (book.indexes.orderSeq id).isSome ↔ id ∈ book.resting.map Order.id
  nextSeq : ∀ id seq, book.indexes.orderSeq id = some seq → seq < book.nextSeq
  increasing : ∀ side, ∀ level ∈ book.ladder side, level.2.Pairwise fun first second =>
    ∃ earlier later, book.indexes.orderSeq first.id = some earlier ∧
      book.indexes.orderSeq second.id = some later ∧ earlier < later
  traderOrders : ∀ trader, (book.indexes.traderOrders trader).Nodup ∧
    ∀ id, id ∈ book.indexes.traderOrders trader ↔
      ∃ order ∈ book.resting, order.id = id ∧ order.trader = trader
  reduceOnlyIndex : ∀ trader, (book.reduceOnlyIndex trader).Nodup ∧
    ∀ id, id ∈ book.reduceOnlyIndex trader ↔
      ∃ order ∈ book.resting, order.id = id ∧ order.trader = trader ∧ order.reduceOnly = true
  cloids : ∀ trader cloid id, book.indexes.cloids trader cloid = some id ↔
    (∃ order ∈ book.resting, order.id = id ∧ order.trader = trader ∧
      order.clientOrderId = some cloid) ∨
    ∃ stop ∈ book.pendingStops, stop.id = id ∧ stop.trader = trader ∧
      stop.clientOrderId = some cloid

theorem Valid.represented {book : Book} (valid : book.Valid) : book.Represented where
  uncrossed bid ask bestBid bestAsk := by
    obtain ⟨⟨bidOrder, bidMember, rfl⟩, _⟩ := (valid.ladders .buy).best_some bestBid
    obtain ⟨⟨askOrder, askMember, rfl⟩, _⟩ := (valid.ladders .sell).best_some bestAsk
    exact valid.uncrossed bidOrder bidMember askOrder askMember
  ids := valid.nodup
  levels side level member := by
    have wf := (valid.ladders side).levels level member
    exact ⟨wf.nonempty, fun order inQueue => ⟨(wf.placed order inQueue).1,
      (wf.placed order inQueue).2, wf.positive order inQueue⟩⟩
  orderIndex id location := by
    obtain ⟨side, price⟩ := location
    simp [valid.covers.indexed, Order.key, Key.location]
  orderSeq id := by
    rw [valid.covers.sequenced, map_map]
    exact Iff.rfl
  nextSeq := valid.covers.bounded
  increasing side level member := by
    have wf := (valid.ladders side).levels level member
    refine wf.ordered.imp_of_mem fun {first second} inFirst inSecond before => ?_
    have sequenced : ∀ order ∈ level.2, ∃ seq, book.indexes.orderSeq order.id = some seq := by
      intro order inQueue
      have rests : order ∈ book.resting :=
        (mem_resting side).mpr (Or.inl (Ladder.mem_orders.mpr ⟨level, member, inQueue⟩))
      refine Option.isSome_iff_exists.mp ((valid.covers.sequenced order.id).mpr ?_)
      rw [map_map]
      exact mem_map_of_mem rests
    obtain ⟨earlier, foundFirst⟩ := sequenced first inFirst
    obtain ⟨later, foundSecond⟩ := sequenced second inSecond
    exact ⟨earlier, later, foundFirst, foundSecond, before earlier later foundFirst foundSecond⟩
  traderOrders trader := ⟨valid.covers.listedOnce trader, fun id => by
    simp [valid.covers.listed, Order.key]⟩
  reduceOnlyIndex trader :=
    ⟨(valid.ascending trader).imp Nat.ne_of_lt, fun id => valid.reduceOnly trader id⟩
  cloids trader cloid id := by simp [valid.covers.cloids, Order.key]

section Lighter

variable {book : Book}

theorem Valid.cancelOrder_lighter (valid : book.Valid) (id : Nat) :
    Lighter book (book.cancelOrder id).1 := by
  by_cases rests : id ∈ book.resting.map Order.id
  · obtain ⟨order, member, rfl⟩ := mem_map.mp rests
    obtain ⟨after, cancelled, perm, afterValid, frame⟩ := valid.cancelOrder member
    rw [cancelled]
    refine ⟨afterValid, fun id left => ?_, fun stop left => frame.pendingStops ▸ left,
      frame.nextId, frame.lotSize⟩
    rw [(perm.map Order.id).mem_iff]
    exact mem_cons_of_mem _ left
  · rw [valid.cancelOrder_absent rests]
    exact .refl valid

theorem Valid.cancelStop_lighter (valid : book.Valid) (id : Nat) :
    Lighter book (book.cancelStop id).1 := by
  unfold Book.cancelStop
  cases found : book.pendingStops.find? fun stop => decide (stop.id = id) with
  | none => exact .refl valid
  | some stop =>
    dsimp only
    have perm : book.pendingStops.Perm
        (stop :: book.pendingStops.eraseP fun stop => decide (stop.id = id)) := by
      obtain ⟨first, before, after, others, matched, split, erased⟩ :=
        exists_of_eraseP (mem_of_find?_eq_some found) (List.find?_some found)
      have same : first = stop := by
        rw [split, List.find?_append, List.find?_eq_none.mpr others, Option.none_or,
          List.find?_cons, matched] at found
        exact Option.some.inj found
      subst same
      rw [erased]
      conv_lhs => rw [split]
      exact perm_middle
    have covers := (valid.covers.perm_stops perm).dropStop
    refine ⟨⟨fun side => ?_, covers, valid.uncrossed, valid.reduceOnly, valid.ascending⟩,
      fun _ member => member, fun other member => perm.mem_iff.mpr (mem_cons_of_mem _ member),
      rfl, rfl⟩
    have wf := valid.ladders side
    rw [← (forgetCloid_frame book.indexes stop.trader stop.clientOrderId stop.id).2.2] at wf
    cases side <;> exact wf

theorem Valid.sweepReduceOnlyAt_lighter (valid : book.Valid) (trader : Address) (signedPos : Int) :
    Lighter book (book.sweepReduceOnlyAt trader signedPos).1 := by
  have policed : Book.Valid { book with
      reduceOnlyPositions := ({} : ReduceOnlyPositions).insert trader signedPos } :=
    valid.congr rfl rfl rfl rfl rfl rfl
  have swept := policed.sweepReduceOnly trader []
  unfold Book.sweepReduceOnlyAt
  dsimp only
  generalize Book.sweepReduceOnly _ _ _ = result at swept
  obtain ⟨after, cuts, spare⟩ := result
  dsimp only at swept ⊢
  refine ⟨swept.valid.congr rfl rfl rfl rfl rfl rfl, fun id member => ?_, fun stop member => ?_,
    swept.frame.nextId, swept.frame.lotSize⟩
  · exact swept.shrinks.ids member
  · exact swept.frame.pendingStops ▸ member

theorem Valid.modifyOrder_lighter (valid : book.Valid) (id : Nat) (newPrice newQty : Option Int)
    (allowed : ∀ order, book.getOrder id = some order →
      (∀ price, newPrice = some price → 0 < price ∧ ∀ best,
        (book.ladder order.side.opposite).best = some best → Apart order.side price best) ∧
      ∀ qty, newQty = some qty → 0 < qty) :
    Lighter book (book.modifyOrder id newPrice newQty).1 := by
  by_cases rests : id ∈ book.resting.map Order.id
  · obtain ⟨order, member, rfl⟩ := mem_map.mp rests
    obtain ⟨clear, positive⟩ := allowed order (valid.getOrder_iff.mpr ⟨member, rfl⟩)
    obtain ⟨after, new, changed, _, replaced⟩ := valid.modifyOrder member newPrice newQty
      (fun price named => (clear price named).2) positive
    obtain ⟨others, before, inAfter⟩ := replaced.resting
    rw [changed]
    refine ⟨replaced.valid, fun id left => ?_, fun stop left => replaced.frame.pendingStops ▸ left,
      replaced.frame.nextId, replaced.frame.lotSize⟩
    rw [(inAfter.map Order.id).mem_iff, map_cons, replaced.sameId] at left
    rw [(before.map Order.id).mem_iff, map_cons]
    exact left
  · rw [valid.modifyOrder_absent newPrice newQty rests]
    exact .refl valid

end Lighter

end Book

namespace Desk

/-- The invariant of a desk: a sound book, and triggered ids that nothing else uses. -/
structure Inv (desk : Desk) : Prop where
  sound : desk.book.Sound
  nodup : desk.triggered.Nodup
  below : ∀ id ∈ desk.triggered, id < desk.book.nextId
  offBook : ∀ id ∈ desk.triggered, id ∉ desk.book.resting.map Order.id ∧
    id ∉ desk.book.pendingStops.map StopOrder.id

variable {desk : Desk}

theorem Inv.lighter (inv : desk.Inv) {after : Book} (lighter : Book.Lighter desk.book after) :
    Inv { desk with book := after } := by
  refine ⟨⟨lighter.valid, lighter.lotSize ▸ inv.sound.lotSize, fun order member => ?_,
    fun stop member => lighter.nextId ▸ inv.sound.stopsBelow stop (lighter.stops stop member)⟩,
    inv.nodup, fun id member => lighter.nextId ▸ inv.below id member, fun id member => ?_⟩
  · rw [lighter.nextId]
    obtain ⟨old, inBook, same⟩ :=
      mem_map.mp (lighter.orders order.id (mem_map_of_mem member))
    rw [← same]
    exact inv.sound.ordersBelow old inBook
  · obtain ⟨notResting, notStop⟩ := inv.offBook id member
    refine ⟨fun rests => notResting (lighter.orders id rests), fun waits => notStop ?_⟩
    obtain ⟨stop, inStops, rfl⟩ := mem_map.mp waits
    exact mem_map_of_mem (lighter.stops stop inStops)

theorem Inv.placed (inv : desk.Inv) {id nextId : Nat} {placement : Placement}
    (ready : Book.ReadyFor { desk.book with nextId := id } placement)
    (idBelow : id < nextId) (kept : desk.book.nextId ≤ nextId) {triggered : List Nat}
    (others : triggered.Sublist desk.triggered) (placedOnce : id ∉ triggered) :
    Inv { book := { ({ desk.book with nextId := id }.placeOrder placement).1 with nextId }
          triggered := triggered ++ ({ desk.book with nextId := id }.placeOrder
            placement).2.triggeredStops.map TriggeredStop.id } := by
  have valid := ready.valid_after
  obtain ⟨_, lotSize, ids, stops, keep, keptStops, fired⟩ := ready.ids_after
  generalize Book.placeOrder _ placement = result at *
  obtain ⟨after, outcome⟩ := result
  dsimp only at *
  have stopsNodup := inv.sound.valid.covers.stopsNodup
  have firedIds : outcome.triggeredStops.map TriggeredStop.id =
      (desk.book.pendingStops.filter fun stop => !keep stop).map StopOrder.id := by
    rw [fired, map_map]
    rfl
  have firedMember : ∀ other ∈ outcome.triggeredStops.map TriggeredStop.id,
      ∃ stop ∈ desk.book.pendingStops, keep stop = false ∧ stop.id = other := by
    intro other member
    rw [firedIds] at member
    obtain ⟨stop, inFired, same⟩ := mem_map.mp member
    obtain ⟨inStops, dropped⟩ := mem_filter.mp inFired
    exact ⟨stop, inStops, by simpa using dropped, same⟩
  refine ⟨⟨valid.congr rfl rfl rfl rfl rfl rfl, lotSize ▸ inv.sound.lotSize, fun order member => ?_,
    fun stop member => ?_⟩, ?_, fun other member => ?_, fun other member => ?_⟩
  · rcases ids order.id (mem_map_of_mem member) with same | old
    · rw [same]
      exact idBelow
    · obtain ⟨before, inBook, same⟩ := mem_map.mp old
      rw [← same]
      exact Nat.lt_of_lt_of_le (inv.sound.ordersBelow before inBook) kept
  · rcases stops stop member with same | old
    · rw [same]
      exact idBelow
    · exact Nat.lt_of_lt_of_le (inv.sound.stopsBelow stop old) kept
  · rw [nodup_append]
    refine ⟨inv.nodup.sublist others, ?_, fun other inOld later inFired same => ?_⟩
    · rw [firedIds]
      exact stopsNodup.sublist (filter_sublist.map StopOrder.id)
    · obtain ⟨stop, inStops, _, sameId⟩ := firedMember later inFired
      refine (inv.offBook other (others.subset inOld)).2 ?_
      rw [same, ← sameId]
      exact mem_map_of_mem inStops
  · rcases mem_append.mp member with inOld | inFired
    · exact Nat.lt_of_lt_of_le (inv.below other (others.subset inOld)) kept
    · obtain ⟨stop, inStops, _, rfl⟩ := firedMember other inFired
      exact Nat.lt_of_lt_of_le (inv.sound.stopsBelow stop inStops) kept
  · have clear : other ≠ id ∧ other ∉ desk.book.resting.map Order.id ∧
        ∀ stop ∈ desk.book.pendingStops, keep stop = true → stop.id ≠ other := by
      rcases mem_append.mp member with inOld | inFired
      · obtain ⟨notResting, notStop⟩ := inv.offBook other (others.subset inOld)
        exact ⟨fun same => placedOnce (same ▸ inOld), notResting,
          fun stop inStops _ same => notStop (same ▸ mem_map_of_mem inStops)⟩
      · obtain ⟨stop, inStops, dropped, rfl⟩ := firedMember other inFired
        refine ⟨fun same => ready.notStop (same ▸ mem_map_of_mem inStops), fun rests => ?_,
          fun kept inKept stays same => ?_⟩
        · obtain ⟨order, inResting, same⟩ := mem_map.mp rests
          exact inv.sound.valid.apart_stops inResting (same ▸ mem_map_of_mem inStops)
        · rw [inj_on_of_nodup_map stopsNodup inKept inStops same, dropped] at stays
          contradiction
    refine ⟨fun rests => ?_, fun waits => ?_⟩
    · rcases ids other rests with same | old
      · exact clear.1 same
      · exact clear.2.1 old
    · obtain ⟨stop, inAfter, rfl⟩ := mem_map.mp waits
      rcases stops stop inAfter with same | old
      · exact clear.1 same
      · exact clear.2.2 stop old (keptStops stop inAfter old) rfl

theorem Inv.new (marketId : MarketId) (tickSize : Int) {lotSize : Int} (positive : 0 < lotSize) :
    Inv { book := Book.new marketId tickSize lotSize } :=
  ⟨.new marketId tickSize positive, nodup_nil, by simp, by simp⟩

/-- Every allowed operation keeps the invariant of the desk. -/
theorem Inv.step (inv : desk.Inv) {op : Op} (allowed : desk.Allowed op) : (desk.step op).Inv := by
  have valid := inv.sound.valid
  cases op with
  | setReduceOnlyPositions positions =>
    exact inv.lighter ⟨valid.congr rfl rfl rfl rfl rfl rfl, fun _ member => member,
      fun _ member => member, rfl, rfl⟩
  | setAccountMargins margins =>
    exact inv.lighter ⟨valid.congr rfl rfl rfl rfl rfl rfl, fun _ member => member,
      fun _ member => member, rfl, rfl⟩
  | place placement =>
    have ready := inv.sound.readyFor allowed
    have next := ready.ids_after.1
    exact @Inv.placed desk inv desk.book.nextId (desk.book.placeOrder placement).1.nextId placement
      ready (by omega) (by omega) _ (List.Sublist.refl _)
      fun member => Nat.lt_irrefl _ (inv.below _ member)
  | placeTriggered id placement =>
    obtain ⟨member, looked⟩ := allowed
    obtain ⟨notResting, notStop⟩ := inv.offBook id member
    have ready : Book.ReadyFor { desk.book with nextId := id } placement :=
      ⟨valid.congr rfl rfl rfl rfl rfl rfl, inv.sound.lotSize, notResting, notStop, looked⟩
    exact @Inv.placed desk inv id desk.book.nextId placement ready (inv.below id member)
      (Nat.le_refl _) _ erase_sublist inv.nodup.not_mem_erase
  | cancelOrder id => exact inv.lighter (valid.cancelOrder_lighter id)
  | cancelAll epochFits trader => exact inv.lighter (valid.cancelAll epochFits trader)
  | cancelAllMany epochFits senders => exact inv.lighter (valid.cancelAllMany epochFits senders)
  | cancelStop id => exact inv.lighter (valid.cancelStop_lighter id)
  | takePendingStops trader => exact inv.lighter (valid.retainStops_lighter _)
  | sweepReduceOnlyAt trader signedPos =>
    exact inv.lighter (valid.sweepReduceOnlyAt_lighter trader signedPos)
  | modifyOrder id newPrice newQty =>
    exact inv.lighter (valid.modifyOrder_lighter id newPrice newQty allowed)

theorem Reachable.inv (reachable : desk.Reachable) : desk.Inv := by
  induction reachable with
  | new marketId tickSize lotSize positive => exact .new marketId tickSize positive
  | step op reachable allowed ih => exact ih.step allowed

/-- After every operation of every run the indexes say exactly what the ladders hold. -/
theorem reachable_represented (reachable : desk.Reachable) : desk.book.Represented :=
  reachable.inv.sound.valid.represented

/-- Two asks, a bid that takes the first and part of the second, and a cancel-all. -/
theorem reachable_represented_fillAndCancel :
    ((((({ book := Book.new 1 1 1 } : Desk).step
      (.place (Book.limitOrder 1 false 10 2))).step (.place (Book.limitOrder 2 false 11 3))).step
      (.place (Book.limitOrder 3 true 11 4))).step (.cancelAll (fun _ _ => true) 2)).book.Represented :=
  reachable_represented
    (.step _ (.step _ (.step _ (.step _ (.new 1 1 1 (by decide))
      (fun checked => absurd checked (by decide))) (fun checked => absurd checked (by decide)))
      (fun checked => absurd checked (by decide))) trivial)

end Desk

end TorusHyperBft.OrderBook
