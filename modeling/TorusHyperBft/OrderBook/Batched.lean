import TorusHyperBft.OrderBook.Events
import TorusHyperBft.OrderBook.Saving

namespace TorusHyperBft.OrderBook

open List

/-! Cancelling for a run of senders at once against cancelling for one after the other. -/

namespace Book

section Emptied

variable {book after : Book} {traders : List Address}

/-- A book without the orders and the stops of some traders. -/
structure Emptied (book : Book) (traders : List Address) (after : Book) : Prop where
  valid : after.Valid
  ladders : ∀ side, after.ladder side =
    (book.ladder side).without (traders.flatMap book.indexes.traderOrders)
  orderSeq : ∀ id, id ∉ traders.flatMap book.indexes.traderOrders →
    after.indexes.orderSeq id = book.indexes.orderSeq id
  traderOrders : ∀ trader, after.indexes.traderOrders trader =
    if trader ∈ traders then [] else book.indexes.traderOrders trader
  pendingStops : after.pendingStops =
    book.pendingStops.filter fun stop => decide (stop.trader ∉ traders)
  nextSeq : after.nextSeq = book.nextSeq
  frame : Frame { book with pendingStops := after.pendingStops } after

theorem Emptied.resting (emptied : Emptied book traders after) :
    after.resting = Queue.without (traders.flatMap book.indexes.traderOrders) book.resting :=
  resting_without emptied.ladders

theorem Emptied.unique {first second : Book} (left : Emptied book traders first)
    (right : Emptied book traders second) : first = second := by
  have bids : first.bids = second.bids := (left.ladders .buy).trans (right.ladders .buy).symm
  have asks : first.asks = second.asks := (left.ladders .sell).trans (right.ladders .sell).symm
  have resting := left.resting.trans right.resting.symm
  have stops := left.pendingStops.trans right.pendingStops.symm
  have index : first.indexes.orderIndex = second.indexes.orderIndex := by
    funext id
    apply Option.ext
    intro location
    rw [left.valid.covers.indexed, right.valid.covers.indexed, resting]
  have seq : first.indexes.orderSeq = second.indexes.orderSeq := by
    funext id
    by_cases gone : id ∈ traders.flatMap book.indexes.traderOrders
    · have absent : id ∉ (first.resting.map Order.key).map Key.id := by
        rw [left.resting, map_map]
        intro member
        obtain ⟨order, kept, same⟩ := mem_map.mp member
        change order.id = id at same
        exact (Queue.mem_without.mp kept).2 (same ▸ gone)
      have none := mt (left.valid.covers.sequenced id).mp absent
      rw [resting] at absent
      have none' := mt (right.valid.covers.sequenced id).mp absent
      rw [Option.not_isSome_iff_eq_none] at none none'
      rw [none, none']
    · rw [left.orderSeq id gone, right.orderSeq id gone]
  have listed : first.indexes.traderOrders = second.indexes.traderOrders :=
    funext fun trader => (left.traderOrders trader).trans (right.traderOrders trader).symm
  have cloids : first.indexes.cloids = second.indexes.cloids := by
    funext trader cloid
    apply Option.ext
    intro id
    rw [left.valid.covers.cloids, right.valid.covers.cloids, resting, stops]
  have reduceOnly : first.reduceOnlyIndex = second.reduceOnlyIndex := by
    funext trader
    refine (left.valid.ascending trader).eq_of_mem_iff (right.valid.ascending trader) fun id => ?_
    rw [left.valid.reduceOnly, right.valid.reduceOnly, resting]
  have nextSeq := left.nextSeq.trans right.nextSeq.symm
  have frame := left.frame
  have frame' := right.frame
  obtain ⟨_, _, _, ⟨_, _, _, _⟩, _, _, _, _, _, _, _, _, _⟩ := first
  obtain ⟨_, _, _, ⟨_, _, _, _⟩, _, _, _, _, _, _, _, _, _⟩ := second
  obtain ⟨marketId, tickSize, lotSize, nextId, _, lastTrade, positions, margins⟩ := frame
  obtain ⟨marketId', tickSize', lotSize', nextId', _, lastTrade', positions', margins'⟩ := frame'
  simp_all

theorem Emptied.nothing (valid : book.Valid) : Emptied book [] book where
  valid := valid
  ladders side := (Ladder.without_untouched
    (fun level member => ((valid.ladders side).levels level member).nonempty) (by simp)).symm
  orderSeq _ _ := rfl
  traderOrders trader := by simp
  pendingStops := by simp
  nextSeq := rfl
  frame := Frame.refl book

theorem Emptied.trans {second third : List Address} {middle last : Book}
    (left : Emptied book second middle) (right : Emptied middle third last) :
    Emptied book (second ++ third) last := by
  have ids : ∀ id, id ∈ (second ++ third).flatMap book.indexes.traderOrders ↔
      id ∈ second.flatMap book.indexes.traderOrders ++
        third.flatMap middle.indexes.traderOrders := by
    intro id
    simp only [flatMap_append, mem_append, mem_flatMap, left.traderOrders]
    constructor
    · rintro (first | ⟨trader, member, own⟩)
      · exact Or.inl first
      · by_cases done : trader ∈ second
        · exact Or.inl ⟨trader, done, own⟩
        · exact Or.inr ⟨trader, member, by rwa [if_neg done]⟩
    · rintro (first | ⟨trader, member, own⟩)
      · exact Or.inl first
      · split at own
        · contradiction
        · exact Or.inr ⟨trader, member, own⟩
  refine ⟨right.valid, fun side => ?_, fun id kept => ?_, fun trader => ?_, ?_,
    right.nextSeq.trans left.nextSeq, ?_⟩
  · rw [right.ladders, left.ladders, Ladder.without_without]
    exact Ladder.without_congr fun id => (ids id).symm
  · rw [ids, mem_append, not_or] at kept
    rw [right.orderSeq id kept.2, left.orderSeq id kept.1]
  · rw [right.traderOrders, left.traderOrders]
    by_cases early : trader ∈ second <;> by_cases late : trader ∈ third <;> simp [early, late]
  · rw [right.pendingStops, left.pendingStops, filter_filter]
    refine filter_congr fun stop _ => ?_
    simp [Bool.and_comm]
  · obtain ⟨marketId, tickSize, lotSize, nextId, _, lastTrade, positions, margins⟩ := left.frame
    have first : Frame { book with pendingStops := last.pendingStops }
        { middle with pendingStops := last.pendingStops } :=
      ⟨marketId, tickSize, lotSize, nextId, rfl, lastTrade, positions, margins⟩
    exact first.trans right.frame

theorem Valid.emptied {gone : List Order} (valid : book.Valid) (afterValid : after.Valid)
    (own : ∀ order ∈ gone, order ∈ book.resting ∧ order.trader ∈ traders)
    (all : ∀ id, id ∈ gone.map Order.id ↔ id ∈ traders.flatMap book.indexes.traderOrders)
    (ladders : ∀ side, after.ladder side = (book.ladder side).without (gone.map Order.id))
    (orderSeq : ∀ id, after.indexes.orderSeq id =
      if id ∈ gone.map Order.id then none else book.indexes.orderSeq id)
    (listed : ∀ trader, after.indexes.traderOrders trader =
      (book.indexes.traderOrders trader).filter fun id =>
        decide (∀ order ∈ gone, order.trader = trader → order.id ≠ id))
    (pendingStops : after.pendingStops =
      book.pendingStops.filter fun stop => decide (stop.trader ∉ traders))
    (nextSeq : after.nextSeq = book.nextSeq)
    (frame : Frame { book with pendingStops := after.pendingStops } after) :
    Emptied book traders after := by
  refine ⟨afterValid, fun side => ?_, fun id kept => ?_, fun trader => ?_, pendingStops, nextSeq,
    frame⟩
  · rw [ladders side]
    exact Ladder.without_congr all
  · rw [orderSeq id, if_neg (mt (all id).mp kept)]
  · rw [listed trader]
    by_cases named : trader ∈ traders
    · rw [if_pos named, filter_eq_nil_iff]
      intro id member
      have inGone := (all id).mpr (mem_flatMap.mpr ⟨trader, named, member⟩)
      obtain ⟨order, inOrders, rfl⟩ := mem_map.mp inGone
      rw [decide_eq_true_eq]
      exact fun kept => kept order inOrders (valid.owner (own order inOrders).1 member) rfl
    · rw [if_neg named, filter_eq_self]
      intro id _
      rw [decide_eq_true_eq]
      exact fun order inOrders owned => absurd (owned ▸ (own order inOrders).2) named

end Emptied

section CancelAll

variable {book : Book} (epochFits : LevelKey → Nat → Bool)

theorem Valid.cancelAll_emptied (valid : book.Valid) (trader : Address) :
    (book.cancelAll epochFits trader).2 = book.ordersOf trader ∧
      Emptied book [trader] (book.cancelAll epochFits trader).1 := by
  have lighter := valid.cancelAll epochFits trader
  have retained := valid.retainStops fun stop => decide (stop.trader ≠ trader)
  obtain ⟨_, traders, seq⟩ := retainStops_frame book fun stop => decide (stop.trader ≠ trader)
  obtain ⟨after, orders, cancelled, all, removed⟩ := retained.cancelAllResting epochFits trader
  have done := retained.cancelAll_withdrawn all removed
  have own : AllOf book trader orders := ⟨by rw [all.listed, traders], all.rests⟩
  have pending := removed.frame.pendingStops
  unfold Book.cancelAll at lighter ⊢
  dsimp only at lighter ⊢
  rw [cancelled] at lighter ⊢
  dsimp only at lighter ⊢
  refine ⟨own.eq_ordersOf valid, ?_⟩
  apply valid.emptied lighter.valid
  · intro order member
    exact ⟨(own.rests order member).1, mem_singleton.mpr (own.rests order member).2⟩
  · intro id
    rw [own.listed, flatMap_singleton]
  · exact done.ladders
  · intro id
    rw [done.indexes, forgetAll_orderSeq, seq]
  · intro other
    rw [done.indexes, forgetAll_traderOrders retained.covers.listedOnce, traders]
  · rw [show after.pendingStops = _ from pending]
    refine filter_congr fun stop _ => ?_
    simp
  · exact done.nextSeq
  · have frame := done.frame
    obtain ⟨marketId, tickSize, lotSize, nextId, _, lastTrade, positions, margins⟩ := frame
    exact ⟨marketId, tickSize, lotSize, nextId, rfl, lastTrade, positions, margins⟩

end CancelAll

section Turns

variable {book after : Book} {done senders : List Address}

def ownedAfter (book : Book) (done : List Address) : List Address → List (List Nat)
  | [] => []
  | sender :: senders =>
    (if sender ∈ done then [] else book.indexes.traderOrders sender) ::
      book.ownedAfter (done ++ [sender]) senders

theorem ownedIds_eq (book : Book) (senders : List Address) :
    book.ownedIds senders = book.ownedAfter [] senders := by
  have later : ∀ done senders : List Address, ((senders.zipIdx done.length).map fun placed =>
      if (done ++ senders).idxOf placed.1 = placed.2 then book.indexes.traderOrders placed.1 else []) =
        book.ownedAfter done senders := by
    intro done senders
    induction senders generalizing done with
    | nil => rfl
    | cons sender senders ih =>
      have next := ih (done ++ [sender])
      rw [length_append, length_singleton, append_assoc,
        singleton_append] at next
      rw [zipIdx_cons, map_cons, next, ownedAfter]
      congr 1
      dsimp only
      by_cases known : sender ∈ done
      · have before := idxOf_lt_length_of_mem known
        rw [if_pos known, idxOf_append_of_mem known, if_neg before.ne]
      · rw [if_neg known, idxOf_append_of_notMem known, idxOf_cons_self, Nat.add_zero,
          if_pos rfl]
  exact later [] senders

theorem mem_ownedAfter {id : Nat} : id ∈ (book.ownedAfter done senders).flatten ↔
    ∃ sender ∈ senders, sender ∉ done ∧ id ∈ book.indexes.traderOrders sender := by
  induction senders generalizing done with
  | nil => simp [ownedAfter]
  | cons sender senders ih =>
    rw [ownedAfter, flatten_cons, mem_append, ih]
    constructor
    · rintro (own | ⟨other, member, left, own⟩)
      · split at own
        · contradiction
        · rename_i left
          exact ⟨sender, mem_cons_self, left, own⟩
      · rw [mem_append, not_or] at left
        exact ⟨other, mem_cons_of_mem _ member, left.1, own⟩
    · rintro ⟨other, member, left, own⟩
      by_cases same : other = sender
      · subst same
        rw [if_neg left]
        exact Or.inl own
      · refine Or.inr ⟨other, mem_of_ne_of_mem same member, ?_, own⟩
        rw [mem_append, mem_singleton, not_or]
        exact ⟨left, same⟩

theorem Valid.trader_unique (valid : book.Valid) {id : Nat} {first second : Address}
    (left : id ∈ book.indexes.traderOrders first) (right : id ∈ book.indexes.traderOrders second) :
    first = second := by
  obtain ⟨order, member, rfl, rfl⟩ := (valid.represented.traderOrders first).2 id |>.mp left
  exact valid.owner member right

theorem Emptied.ordersOf (valid : book.Valid) (emptied : Emptied book done after)
    (trader : Address) :
    after.ordersOf trader = if trader ∈ done then [] else book.ordersOf trader := by
  rw [Book.ordersOf, emptied.traderOrders]
  by_cases early : trader ∈ done
  · rw [if_pos early, if_pos early]
    rfl
  · rw [if_neg early, if_neg early]
    refine filterMap_congr fun id own => ?_
    apply Option.ext
    intro order
    rw [emptied.valid.getOrder_iff, valid.getOrder_iff, emptied.resting, Queue.mem_without]
    constructor
    · rintro ⟨⟨member, _⟩, same⟩
      exact ⟨member, same⟩
    · rintro ⟨member, rfl⟩
      refine ⟨⟨member, fun gone => ?_⟩, rfl⟩
      obtain ⟨other, inDone, listed⟩ := mem_flatMap.mp gone
      exact early (valid.trader_unique own listed ▸ inDone)

def cancelledAfter (book : Book) (done senders : List Address) : List (List Order) :=
  (book.ownedAfter done senders).map fun ids => ids.filterMap book.getOrder

theorem cancelledAfter_cons (book : Book) (done : List Address) (sender : Address)
    (senders : List Address) : book.cancelledAfter done (sender :: senders) =
      (if sender ∈ done then [] else book.ordersOf sender) ::
        book.cancelledAfter (done ++ [sender]) senders := by
  rw [cancelledAfter, ownedAfter, map_cons, ← cancelledAfter]
  congr 1
  split <;> rfl

/-- A planned run of senders: the book is without all of them, and every order is journaled
and returned as in turn. -/
theorem Valid.applyCancelAllMany_emptied (valid : book.Valid) (epochFits : LevelKey → Nat → Bool)
    {levels : List (LevelKey × List Target)}
    (planned : book.planCancelAllMany epochFits senders = some levels) :
    (book.applyCancelAllMany senders levels).2 = book.cancelledAfter [] senders ∧
      Emptied book senders (book.applyCancelAllMany senders levels).1 ∧
      unindexMarks book.indexes (book.removeLevels (book.ownedIds senders).flatten levels).2 =
        allRemovalMarks book.indexes (book.cancelledAfter [] senders).flatten := by
  obtain ⟨next, withdrawn, rests, named, nodup, applied⟩ :=
    valid.cancelAllMany_withdrawn epochFits senders planned
  generalize (book.removeLevels (book.ownedIds senders).flatten levels).2 = cancelled at *
  have read : cancelled = (book.cancelledAfter [] senders).flatten := by
    rw [cancelledAfter, ← ownedIds_eq, ← filterMap_flatten, ← named]
    exact (valid.getOrder_ids rests).symm
  rw [← named] at nodup
  have all : ∀ id, id ∈ cancelled.map Order.id ↔ id ∈ senders.flatMap book.indexes.traderOrders := by
    intro id
    rw [named, ownedIds_eq, mem_ownedAfter, mem_flatMap]
    simp
  obtain ⟨_, traders, seq⟩ := retainStops_frame next fun stop => decide (stop.trader ∉ senders)
  have withdrawnValid := (valid.withdrawn rests nodup withdrawn).1
  rw [applied]
  refine ⟨by rw [cancelledAfter, ← ownedIds_eq], ?_, ?_⟩
  · apply valid.emptied (withdrawnValid.retainStops _) _ all
    · exact withdrawn.ladders
    · intro id
      rw [seq, withdrawn.indexes, forgetAll_orderSeq]
    · intro other
      rw [traders, withdrawn.indexes, forgetAll_traderOrders valid.covers.listedOnce]
    · change next.pendingStops.filter _ = _
      rw [withdrawn.frame.pendingStops]
    · exact withdrawn.nextSeq
    · obtain ⟨marketId, tickSize, lotSize, nextId, _, lastTrade, positions, margins⟩ :=
        withdrawn.frame
      exact ⟨marketId, tickSize, lotSize, nextId, rfl, lastTrade, positions, margins⟩
    · intro order member
      obtain ⟨sender, inSenders, listed⟩ :=
        mem_flatMap.mp ((all order.id).mp (mem_map_of_mem member))
      exact ⟨rests order member, valid.owner (rests order member) listed ▸ inSenders⟩
  · rw [← read]
    exact unindexMarks_eq nodup fun order member => valid.orderIndex (rests order member)

end Turns

section Loop

variable {book base first second after : Book} {trader : Address} {cancelled : List Order}

theorem Removed.unique (left : Removed base cancelled first)
    (right : Removed base cancelled second) :
    first = second := by
  have bids : first.bids = second.bids := (left.ladders .buy).trans (right.ladders .buy).symm
  have asks : first.asks = second.asks := (left.ladders .sell).trans (right.ladders .sell).symm
  have indexes := left.indexes.trans right.indexes.symm
  have reduceOnly := left.reduceOnlyIndex.trans right.reduceOnlyIndex.symm
  have nextSeq := left.nextSeq.trans right.nextSeq.symm
  have frame := left.frame
  have frame' := right.frame
  obtain ⟨_, _, _, _, _, _, _, _, _, _, _, _, _⟩ := first
  obtain ⟨_, _, _, _, _, _, _, _, _, _, _, _, _⟩ := second
  obtain ⟨marketId, tickSize, lotSize, nextId, stops, lastTrade, positions, margins⟩ := frame
  obtain ⟨marketId', tickSize', lotSize', nextId', stops', lastTrade', positions', margins'⟩ := frame'
  simp_all

theorem Valid.tryCancelAllBatch_eq (valid : book.Valid) {epochFits : LevelKey → Nat → Bool}
    (taken : (book.dropTrader trader).tryCancelAllBatch epochFits
      (book.indexes.traderOrders trader) = some (after, cancelled)) :
    (book.indexes.traderOrders trader).foldl cancelEach (book.dropTrader trader, []) =
        (after, cancelled) ∧
      cancelLoopMarks (book.dropTrader trader, []) (book.indexes.traderOrders trader) =
        unindexMarks (book.dropTrader trader).indexes cancelled := by
  have stacked := dropTrader_stacked valid trader
  obtain ⟨named, rests, removed⟩ := tryCancelAllBatch_removed stacked taken
  have all : AllOf book trader cancelled := valid.allOf named rests
  have nodup := all.nodup valid
  have known := fun order (member : order ∈ cancelled) => all.known valid member
  obtain ⟨last, looped, last_removed⟩ := (Removed.nothing stacked).cancelLoop stacked
    (by rw [nil_append]; exact nodup) known
  have marks := (Removed.nothing stacked).cancelLoopMarks_eq stacked
    (by rw [nil_append]; exact nodup) known
  rw [nil_append] at looped last_removed
  rw [← named, looped, marks, last_removed.unique removed]
  exact ⟨rfl, (unindexMarks_eq nodup fun order member => (known order member).1).symm⟩

end Loop

end Book

namespace LoggedBook

open Book (Emptied)

variable {hash : StreamingHash} {logged : LoggedBook hash}

section Log

def cancelEvents (logged : LoggedBook hash) (stops : List StopOrder) (orders : List Order) :
    List OrderEvent :=
  stops.map (fun stop => stopEvent stop .canceled logged.cancelCause) ++
    orders.map fun order => orderEvent logged.book.marketId order .canceled logged.cancelCause 0

theorem logStopsGone_eq (stops : List StopOrder)
    (gone : ∀ stop ∈ stops, ∀ pending ∈ logged.book.pendingStops, pending.id ≠ stop.id) :
    logged.logStopsGone stops =
      { logged with orderEvents := logged.orderEvents.map fun log =>
          log ++ stops.map fun stop => stopEvent stop .canceled logged.cancelCause } := by
  induction stops generalizing logged with
  | nil => cases events : logged.orderEvents <;> simp [logStopsGone, ← events]
  | cons stop stops ih =>
    have absent : (logged.book.pendingStops.any fun pending => decide (pending.id = stop.id)) =
        false := by
      simpa using gone stop mem_cons_self
    have later := @ih (logged.logStopRemoved stop logged.cancelCause)
      fun other member => gone other (mem_cons_of_mem _ member)
    rw [logStopsGone, foldl_cons, absent]
    refine later.trans ?_
    cases events : logged.orderEvents <;>
      simp [logStopRemoved, logEvent, events]

theorem logRemoved_all (orders : List Order) :
    orders.foldl (fun logged order => logged.logRemoved order logged.cancelCause) logged =
      { logged with orderEvents := logged.orderEvents.map fun log =>
          log ++ orders.map fun order =>
            orderEvent logged.book.marketId order .canceled logged.cancelCause 0 } := by
  induction orders generalizing logged with
  | nil => cases events : logged.orderEvents <;> simp [← events]
  | cons order orders ih =>
    rw [foldl_cons, ih]
    cases events : logged.orderEvents <;> simp [logRemoved, logEvent, events]

theorem logCancelled_eq (stops : List StopOrder) (orders : List Order)
    (gone : ∀ stop ∈ stops, ∀ pending ∈ logged.book.pendingStops, pending.id ≠ stop.id) :
    logged.logCancelled stops orders =
      { logged with orderEvents :=
          logged.orderEvents.map fun log => log ++ logged.cancelEvents stops orders } := by
  rw [logCancelled, logStopsGone_eq stops gone, logRemoved_all]
  obtain ⟨book, journals, events, cause⟩ := logged
  cases events <;> simp [cancelEvents]

end Log

section Turns

/-- Orders and stops of the senders are gone and journaled. -/
structure Cancelled (logged : LoggedBook hash) (senders : List Address) (orders : List Order)
    (after : LoggedBook hash) : Prop where
  emptied : Emptied logged.book senders after.book
  journals : after.journals =
    logged.journals.recordAll (Book.allRemovalMarks logged.book.indexes orders)
  cancelCause : after.cancelCause = logged.cancelCause

theorem Cancelled.nothing (valid : logged.book.Valid) : Cancelled logged [] [] logged :=
  ⟨.nothing valid, rfl, rfl⟩

variable {orders : List Order} {senders : List Address} {after : LoggedBook hash}

theorem Cancelled.withEvents (cancelled : Cancelled logged senders orders after)
    (orderEvents : Option (List OrderEvent)) :
    Cancelled logged senders orders { after with orderEvents } :=
  ⟨cancelled.emptied, cancelled.journals, cancelled.cancelCause⟩

theorem Cancelled.eq {first second : LoggedBook hash}
    (left : Cancelled logged senders orders first) (right : Cancelled logged senders orders second)
    (events : first.orderEvents = second.orderEvents) : first = second := by
  have book := left.emptied.unique right.emptied
  have journals := left.journals.trans right.journals.symm
  have cause := left.cancelCause.trans right.cancelCause.symm
  cases first
  cases second
  simp_all

theorem cancelAllUnlogged_cancelled (valid : logged.book.Valid) (trader : Address) :
    (logged.cancelAllUnlogged trader).2 = logged.book.ordersOf trader ∧
      Cancelled logged [trader] (logged.book.ordersOf trader) (logged.cancelAllUnlogged trader).1 ∧
      (logged.cancelAllUnlogged trader).1.orderEvents = logged.orderEvents := by
  have retained := valid.retainStops fun stop => decide (stop.trader ≠ trader)
  obtain ⟨_, traders, seq⟩ := Book.retainStops_frame logged.book fun stop =>
    decide (stop.trader ≠ trader)
  obtain ⟨orders, all⟩ := retained.exists_allOf trader
  have own : Book.AllOf logged.book trader orders := ⟨by rw [all.listed, traders], all.rests⟩
  have marks : logged.book.cancelAllMarks logged.epochFits trader =
      Book.allRemovalMarks logged.book.indexes (logged.book.ordersOf trader) := by
    rw [Book.cancelAllMarks, all.journaled logged.epochFits retained, ← own.eq_ordersOf valid]
    exact Book.allRemovalMarks_congr fun order _ => by rw [seq]
  obtain ⟨returned, emptied⟩ := valid.cancelAll_emptied logged.epochFits trader
  refine ⟨returned, ⟨emptied, ?_, rfl⟩, rfl⟩
  rw [← marks]
  rfl

def stopsOf (logged : LoggedBook hash) (traders : List Address) : List StopOrder :=
  logged.book.pendingStops.filter fun stop => decide (stop.trader ∈ traders)

theorem Cancelled.stops_gone (valid : logged.book.Valid)
    (cancelled : Cancelled logged senders orders after) :
    ∀ stop ∈ logged.stopsOf senders, ∀ pending ∈ after.book.pendingStops, pending.id ≠ stop.id := by
  intro stop member pending kept same
  obtain ⟨inBook, named⟩ := mem_filter.mp member
  rw [cancelled.emptied.pendingStops] at kept
  obtain ⟨pendingInBook, other⟩ := mem_filter.mp kept
  have equal := inj_on_of_nodup_map valid.covers.stopsNodup pendingInBook inBook same
  subst equal
  exact of_decide_eq_true other (of_decide_eq_true named)

theorem Cancelled.log (valid : logged.book.Valid)
    (cancelled : Cancelled logged senders orders after)
    (untouched : after.orderEvents = logged.orderEvents) :
    after.logCancelled (logged.stopsIfLogging fun owner => decide (owner ∈ senders)) orders =
      { after with orderEvents := logged.orderEvents.map fun log =>
          log ++ logged.cancelEvents (logged.stopsOf senders) orders } := by
  have market : after.book.marketId = logged.book.marketId := cancelled.emptied.frame.marketId
  have cause := cancelled.cancelCause
  by_cases off : logged.orderEvents = none
  · rw [off] at untouched ⊢
    rw [logCancelled, untouched]
    exact congrArg (fun events => { after with orderEvents := events }) untouched
  · have stops : logged.stopsIfLogging (fun owner => decide (owner ∈ senders)) =
        logged.stopsOf senders := by
      rw [stopsIfLogging, if_neg (by simpa using off)]
      rfl
    rw [stops, logCancelled_eq _ _ (cancelled.stops_gone valid), untouched, cancelEvents, cancelEvents,
      market, cause]

theorem cancelAll_cancelled (valid : logged.book.Valid) (trader : Address) :
    (logged.cancelAll trader).2 = logged.book.ordersOf trader ∧
      Cancelled logged [trader] (logged.book.ordersOf trader) (logged.cancelAll trader).1 ∧
      (logged.cancelAll trader).1.orderEvents = logged.orderEvents.map fun log =>
        log ++ logged.cancelEvents (logged.stopsOf [trader]) (logged.book.ordersOf trader) := by
  obtain ⟨returned, cancelled, untouched⟩ := cancelAllUnlogged_cancelled valid trader
  have logs := cancelled.log valid untouched
  simp only [mem_singleton] at logs
  rw [← returned] at logs
  have whole : logged.cancelAll trader =
      ((logged.cancelAllUnlogged trader).1.logCancelled
        (logged.stopsIfLogging fun owner => decide (owner = trader))
        (logged.cancelAllUnlogged trader).2, (logged.cancelAllUnlogged trader).2) := rfl
  rw [whole, logs, ← returned]
  refine ⟨rfl, ?_, rfl⟩
  rw [returned]
  exact cancelled.withEvents _

theorem Cancelled.trans {base middle last : LoggedBook hash} {done : List Address}
    {sender : Address}
    (left : Cancelled base done orders middle)
    (right : Cancelled middle [sender] (middle.book.ordersOf sender) last) :
    Cancelled base (done ++ [sender]) (orders ++ middle.book.ordersOf sender) last := by
  refine ⟨left.emptied.trans right.emptied, ?_, right.cancelCause.trans left.cancelCause⟩
  have marks : Book.allRemovalMarks middle.book.indexes (middle.book.ordersOf sender) =
      Book.allRemovalMarks base.book.indexes (middle.book.ordersOf sender) := by
    apply Book.allRemovalMarks_congr
    intro order member
    apply left.emptied.orderSeq
    intro gone
    obtain ⟨id, _, found⟩ := mem_filterMap.mp member
    obtain ⟨rests, _⟩ := left.emptied.valid.getOrder_iff.mp found
    rw [left.emptied.resting] at rests
    exact (Queue.mem_without.mp rests).2 gone
  rw [right.journals, left.journals, marks, Journals.recordAll, Journals.recordAll, Journals.recordAll,
    ← foldl_append, Book.allRemovalMarks, Book.allRemovalMarks, Book.allRemovalMarks,
    flatMap_append]

def turnEvents (logged : LoggedBook hash) (done : List Address) : List Address → List OrderEvent
  | [] => []
  | sender :: senders =>
    (if sender ∈ done then []
      else logged.cancelEvents (logged.stopsOf [sender]) (logged.book.ordersOf sender)) ++
      logged.turnEvents (done ++ [sender]) senders

variable {base : LoggedBook hash}

theorem inTurn_cancelled {cancel : LoggedBook hash → Address → LoggedBook hash × List Order}
    (cancels : ∀ (logged : LoggedBook hash) (trader : Address), logged.book.Valid →
      (cancel logged trader).2 = logged.book.ordersOf trader ∧
        Cancelled logged [trader] (logged.book.ordersOf trader) (cancel logged trader).1)
    (valid : base.book.Valid) {done senders : List Address} {orders : List Order}
    (state : Cancelled base done orders logged) :
    (inTurn cancel logged senders).2 = base.book.cancelledAfter done senders ∧
      Cancelled base (done ++ senders) (orders ++ (base.book.cancelledAfter done senders).flatten)
        (inTurn cancel logged senders).1 := by
  induction senders generalizing done orders logged with
  | nil =>
    refine ⟨rfl, ?_⟩
    simpa [Book.cancelledAfter, Book.ownedAfter, inTurn] using state
  | cons sender senders ih =>
    obtain ⟨returned, cancelled⟩ := cancels logged sender state.emptied.valid
    have own := state.emptied.ordersOf valid sender
    obtain ⟨later, finished⟩ := ih (state.trans cancelled)
    rw [Book.cancelledAfter_cons, inTurn]
    dsimp only
    rw [returned, own, later]
    refine ⟨rfl, ?_⟩
    rw [append_assoc, singleton_append, append_assoc, own] at finished
    exact finished

theorem inTurn_unlogged_events (senders : List Address) :
    (inTurn cancelAllUnlogged logged senders).1.orderEvents = logged.orderEvents := by
  induction senders generalizing logged with
  | nil => rfl
  | cons sender senders ih => exact ih

theorem Cancelled.cancelEvents (valid : base.book.Valid) {done : List Address}
    (state : Cancelled base done orders logged) (sender : Address) :
    logged.cancelEvents (logged.stopsOf [sender]) (logged.book.ordersOf sender) =
      if sender ∈ done then []
      else base.cancelEvents (base.stopsOf [sender]) (base.book.ordersOf sender) := by
  have market : logged.book.marketId = base.book.marketId := state.emptied.frame.marketId
  have stops : logged.stopsOf [sender] =
      if sender ∈ done then [] else base.stopsOf [sender] := by
    rw [stopsOf, stopsOf, state.emptied.pendingStops, filter_filter]
    split
    · rename_i early
      rw [filter_eq_nil_iff]
      intro stop _ both
      simp only [mem_singleton, Bool.and_eq_true, decide_eq_true_eq] at both
      exact both.2 (both.1 ▸ early)
    · rename_i left
      refine filter_congr fun stop _ => ?_
      by_cases own : stop.trader = sender <;> simp [own, left]
  rw [LoggedBook.cancelEvents, LoggedBook.cancelEvents, stops, state.emptied.ordersOf valid, market,
    state.cancelCause]
  split <;> rfl

theorem inTurn_events (valid : base.book.Valid) {done senders : List Address}
    {orders : List Order} (state : Cancelled base done orders logged) :
    (inTurn cancelAll logged senders).1.orderEvents =
      logged.orderEvents.map fun log => log ++ base.turnEvents done senders := by
  induction senders generalizing done orders logged with
  | nil => simp [inTurn, turnEvents]
  | cons sender senders ih =>
    obtain ⟨_, cancelled, logs⟩ := cancelAll_cancelled state.emptied.valid sender
    have own := state.cancelEvents valid sender
    have later := ih (state.trans cancelled)
    rw [logs, own] at later
    rw [inTurn]
    dsimp only
    rw [later, Option.map_map, turnEvents]
    simp only [Function.comp_def, append_assoc]

theorem cancelAllMany_cancelled (valid : logged.book.Valid) (senders : List Address) :
    (logged.cancelAllMany senders).2 = logged.book.cancelledAfter [] senders ∧
      Cancelled logged senders (logged.book.cancelledAfter [] senders).flatten
        (logged.cancelAllMany senders).1 ∧
      (logged.cancelAllMany senders).1.orderEvents = logged.orderEvents.map fun log =>
        log ++ logged.cancelEvents (logged.stopsOf senders)
          (logged.book.cancelledAfter [] senders).flatten := by
  have unlogged : ∃ result : LoggedBook hash × List (List Order),
      logged.cancelAllMany senders =
        (result.1.logCancelled (logged.stopsIfLogging fun owner => decide (owner ∈ senders))
          result.2.flatten, result.2) ∧
      result.2 = logged.book.cancelledAfter [] senders ∧
      Cancelled logged senders (logged.book.cancelledAfter [] senders).flatten result.1 ∧
      result.1.orderEvents = logged.orderEvents := by
    unfold cancelAllMany
    dsimp only
    cases planned : logged.book.planCancelAllMany logged.epochFits senders with
    | some levels =>
      obtain ⟨returned, emptied, marks⟩ :=
        valid.applyCancelAllMany_emptied logged.epochFits planned
      refine ⟨_, rfl, returned, ⟨emptied, ?_, rfl⟩, rfl⟩
      rw [← marks]
      rfl
    | none =>
      obtain ⟨returned, cancelled⟩ := inTurn_cancelled
        (fun logged trader valid => by
          obtain ⟨returned, cancelled, _⟩ := cancelAllUnlogged_cancelled valid trader
          exact ⟨returned, cancelled⟩) valid (Cancelled.nothing valid)
      exact ⟨_, rfl, returned, cancelled, inTurn_unlogged_events senders⟩
  obtain ⟨result, whole, returned, cancelled, untouched⟩ := unlogged
  rw [whole, returned, cancelled.log valid untouched]
  exact ⟨rfl, cancelled.withEvents _, rfl⟩

theorem turnEvents_perm (logged : LoggedBook hash) (done senders : List Address) :
    (logged.turnEvents done senders).Perm
      (logged.cancelEvents
        ((logged.stopsOf senders).filter fun stop => decide (stop.trader ∉ done))
        (logged.book.cancelledAfter done senders).flatten) := by
  induction senders generalizing done with
  | nil => simp [turnEvents, stopsOf, cancelEvents, Book.cancelledAfter, Book.ownedAfter]
  | cons sender senders ih =>
    have stops : ((logged.stopsOf (sender :: senders)).filter fun stop =>
        decide (stop.trader ∉ done)).Perm
        ((if sender ∈ done then [] else logged.stopsOf [sender]) ++
          (logged.stopsOf senders).filter fun stop => decide (stop.trader ∉ done ++ [sender])) := by
      refine (filter_append_perm (fun stop => decide (stop.trader = sender)) _).symm.trans ?_
      apply List.Perm.of_eq
      simp only [stopsOf, filter_filter]
      congr 1
      · split
        · rename_i early
          rw [filter_eq_nil_iff]
          rintro stop - all
          simp only [Bool.and_eq_true, decide_eq_true_eq] at all
          exact all.2.1 (all.1 ▸ early)
        · rename_i left
          refine filter_congr fun stop _ => ?_
          by_cases own : stop.trader = sender <;> simp [own, left]
      · refine filter_congr fun stop _ => ?_
        by_cases own : stop.trader = sender <;> simp [own]
    have own : (if sender ∈ done then []
        else logged.cancelEvents (logged.stopsOf [sender]) (logged.book.ordersOf sender)) =
        logged.cancelEvents (if sender ∈ done then [] else logged.stopsOf [sender])
          (if sender ∈ done then [] else logged.book.ordersOf sender) := by
      split <;> rfl
    rw [turnEvents, own, Book.cancelledAfter_cons, flatten_cons]
    refine ((ih (done ++ [sender])).append_left _).trans ?_
    simp only [cancelEvents, map_append]
    rw [append_assoc, ← append_assoc _ _ (List.map _ (List.flatten _))]
    refine ((perm_append_comm.append_right _).append_left _).trans ?_
    rw [← append_assoc, ← append_assoc, ← map_append, append_assoc]
    exact (stops.symm.map _).append_right _

theorem turnEvents_eq (logged : LoggedBook hash) (senders : List Address)
    (first : ∀ stop ∈ logged.stopsOf senders, senders.head? = some stop.trader) :
    logged.turnEvents [] senders = logged.cancelEvents (logged.stopsOf senders)
      (logged.book.cancelledAfter [] senders).flatten := by
  have later : ∀ done senders : List Address,
      (∀ stop ∈ logged.stopsOf senders, stop.trader ∈ done) →
      logged.turnEvents done senders =
        logged.cancelEvents [] (logged.book.cancelledAfter done senders).flatten := by
    intro done senders
    induction senders generalizing done with
    | nil => exact fun _ => rfl
    | cons sender senders ih =>
      intro early
      have next := ih (done ++ [sender]) fun stop member => by
        obtain ⟨pending, named⟩ := mem_filter.mp member
        refine mem_append_left _ (early stop (mem_filter.mpr ⟨pending, ?_⟩))
        exact decide_eq_true (mem_cons_of_mem _ (of_decide_eq_true named))
      rw [turnEvents, next, Book.cancelledAfter_cons, flatten_cons]
      by_cases known : sender ∈ done
      · rw [if_pos known, if_pos known]
        rfl
      · have none : logged.stopsOf [sender] = [] := by
          rw [stopsOf, filter_eq_nil_iff]
          intro stop pending own
          have same : stop.trader = sender := by simpa using own
          have named := early stop (mem_filter.mpr ⟨pending, by simp [same]⟩)
          exact known (same ▸ named)
        rw [if_neg known, if_neg known, none]
        simp [cancelEvents]
  cases senders with
  | nil => simp [turnEvents, stopsOf, cancelEvents, Book.cancelledAfter, Book.ownedAfter]
  | cons sender senders =>
    have only : logged.stopsOf (sender :: senders) = logged.stopsOf [sender] := by
      refine filter_congr fun stop pending => ?_
      by_cases named : stop.trader ∈ sender :: senders
      · have same := first stop (mem_filter.mpr ⟨pending, decide_eq_true named⟩)
        rw [List.head?_cons, Option.some.injEq] at same
        simp [same]
      · simp_all
    have rest := later [sender] senders fun stop member => by
      obtain ⟨pending, named⟩ := mem_filter.mp member
      have same := first stop (mem_filter.mpr ⟨pending,
        decide_eq_true (mem_cons_of_mem _ (of_decide_eq_true named))⟩)
      rw [List.head?_cons, Option.some.injEq] at same
      rw [same]
      exact mem_singleton_self _
    rw [turnEvents, nil_append, rest, only, Book.cancelledAfter_cons, flatten_cons]
    simp [cancelEvents]

end Turns

/-- Cancelling for many senders at once returns what their cancel-alls in turn return and
leaves the same book and journals.  The log gets the same entries, the stops of all senders
first; and where one sender's batch is taken it does what the loop does. -/
theorem cancelAllMany_inTurn (valid : logged.book.Valid) (senders : List Address) :
    (logged.cancelAllMany senders).2 = (inTurn cancelAll logged senders).2 ∧
      (logged.cancelAllMany senders).1.book = (inTurn cancelAll logged senders).1.book ∧
      (logged.cancelAllMany senders).1.journals = (inTurn cancelAll logged senders).1.journals ∧
      (logged.cancelAllMany senders).1.cancelCause =
        (inTurn cancelAll logged senders).1.cancelCause ∧
      (∃ added inOrder : List OrderEvent,
        (logged.cancelAllMany senders).1.orderEvents =
          logged.orderEvents.map (fun log => log ++ added) ∧
        (inTurn cancelAll logged senders).1.orderEvents =
          logged.orderEvents.map (fun log => log ++ inOrder) ∧
        added = logged.cancelEvents (logged.stopsOf senders)
          (inTurn cancelAll logged senders).2.flatten ∧
        added.Perm inOrder ∧
        ((∀ stop ∈ logged.stopsOf senders, senders.head? = some stop.trader) → added = inOrder)) ∧
      ∀ (trader : Address) (after : Book) (cancelled : List Order),
        (logged.book.dropTrader trader).tryCancelAllBatch logged.epochFits
            (logged.book.indexes.traderOrders trader) = some (after, cancelled) →
          (logged.book.indexes.traderOrders trader).foldl Book.cancelEach
              (logged.book.dropTrader trader, []) = (after, cancelled) ∧
            Book.cancelLoopMarks (logged.book.dropTrader trader, [])
                (logged.book.indexes.traderOrders trader) =
              Book.unindexMarks (logged.book.dropTrader trader).indexes cancelled := by
  obtain ⟨many, manyDone, manyEvents⟩ := cancelAllMany_cancelled valid senders
  have cancels : ∀ (logged : LoggedBook hash) (trader : Address), logged.book.Valid →
      (logged.cancelAll trader).2 = logged.book.ordersOf trader ∧
        Cancelled logged [trader] (logged.book.ordersOf trader) (logged.cancelAll trader).1 := by
    intro logged trader valid
    obtain ⟨returned, cancelled, _⟩ := cancelAll_cancelled valid trader
    exact ⟨returned, cancelled⟩
  obtain ⟨each, eachDone⟩ := @inTurn_cancelled hash logged logged cancelAll cancels valid [] senders []
    (.nothing valid)
  have eachEvents := @inTurn_events hash logged logged valid [] senders [] (.nothing valid)
  have perm := logged.turnEvents_perm [] senders
  have whole : ((logged.stopsOf senders).filter fun stop => decide (stop.trader ∉ [])) =
      logged.stopsOf senders := filter_eq_self.mpr fun stop _ => by simp
  rw [whole] at perm
  rw [nil_append, nil_append] at eachDone
  refine ⟨many.trans each.symm, manyDone.emptied.unique eachDone.emptied,
    manyDone.journals.trans eachDone.journals.symm,
    manyDone.cancelCause.trans eachDone.cancelCause.symm,
    ⟨_, _, manyEvents, eachEvents, by rw [each], perm.symm,
      fun first => (logged.turnEvents_eq senders first).symm⟩, ?_⟩
  exact fun trader after cancelled taken => valid.tryCancelAllBatch_eq taken

def askAndStop : LoggedBook Saving.transcript where
  book := ((({ book := Book.new 1 1 1 } : Desk).step (.place (Book.limitOrder 1 false 10 2))).step
    (.place { Book.limitOrder 2 false 21 2 with
      params := { (Book.limitOrder 2 false 21 2).params with orderType := .stopLimit 20 21 } })).book
  orderEvents := some []

theorem askAndStop_valid : askAndStop.book.Valid := by
  have reachable : Desk.Reachable _ := .step (.place { Book.limitOrder 2 false 21 2 with
      params := { (Book.limitOrder 2 false 21 2).params with orderType := .stopLimit 20 21 } })
    (.step (.place (Book.limitOrder 1 false 10 2)) (.new 1 1 1 (by decide))
      (fun checked => absurd checked (by decide))) (fun checked => absurd checked (by decide))
  exact reachable.inv.sound.valid

theorem cancelAllMany_inTurn_askAndStop : askAndStop.book.Valid ∧
    (askAndStop.cancelAllMany [1, 2, 1]).1.book = (inTurn cancelAll askAndStop [1, 2, 1]).1.book :=
  ⟨askAndStop_valid, (cancelAllMany_inTurn askAndStop_valid [1, 2, 1]).2.1⟩

/-- The log shows the stop before the ask, although the ask's owner comes first. -/
theorem cancelAllMany_logs_stops_first : askAndStop.book.Valid ∧
    ((askAndStop.cancelAllMany [1, 2]).1.orderEvents.map fun log => log.map OrderEvent.orderId) =
      some [some 2, some 1] ∧
    ((inTurn cancelAll askAndStop [1, 2]).1.orderEvents.map fun log =>
      log.map OrderEvent.orderId) = some [some 1, some 2] ∧
    (askAndStop.cancelAllMany [1, 2]).1 ≠ (inTurn cancelAll askAndStop [1, 2]).1 := by
  have many : ((askAndStop.cancelAllMany [1, 2]).1.orderEvents.map fun log =>
      log.map OrderEvent.orderId) = some [some 2, some 1] := by decide
  have each : ((inTurn cancelAll askAndStop [1, 2]).1.orderEvents.map fun log =>
      log.map OrderEvent.orderId) = some [some 1, some 2] := by decide
  refine ⟨askAndStop_valid, many, each, fun same => ?_⟩
  rw [same, each] at many
  exact absurd many (by decide)

end LoggedBook

end TorusHyperBft.OrderBook
