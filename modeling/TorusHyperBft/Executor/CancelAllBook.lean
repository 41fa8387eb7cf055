import TorusHyperBft.Executor.CancelAll
import TorusHyperBft.OrderBook.Batched

/-! What a cancel-all does to one book: a member's stops and orders leave, and no one else's. -/

namespace TorusHyperBft.OrderBook

open List

namespace Book

section StopsTaken

variable {book after : Book} {traders : List Address}

/-- A book without the stops of some traders, and otherwise as it was. -/
structure StopsTaken (book : Book) (traders : List Address) (after : Book) : Prop where
  valid : after.Valid
  ladders : ∀ side, after.ladder side = book.ladder side
  orderSeq : after.indexes.orderSeq = book.indexes.orderSeq
  traderOrders : after.indexes.traderOrders = book.indexes.traderOrders
  pendingStops : after.pendingStops =
    book.pendingStops.filter fun stop => decide (stop.trader ∉ traders)
  nextSeq : after.nextSeq = book.nextSeq
  frame : Frame { book with pendingStops := after.pendingStops } after

theorem StopsTaken.nothing (valid : book.Valid) : StopsTaken book [] book where
  valid := valid
  ladders _ := rfl
  orderSeq := rfl
  traderOrders := rfl
  pendingStops := by simp
  nextSeq := rfl
  frame := Frame.refl book

theorem StopsTaken.trans {second third : List Address} {middle last : Book}
    (left : StopsTaken book second middle) (right : StopsTaken middle third last) :
    StopsTaken book (second ++ third) last where
  valid := right.valid
  ladders side := (right.ladders side).trans (left.ladders side)
  orderSeq := right.orderSeq.trans left.orderSeq
  traderOrders := right.traderOrders.trans left.traderOrders
  pendingStops := by
    rw [right.pendingStops, left.pendingStops, filter_filter]
    refine filter_congr fun stop _ => ?_
    simp [Bool.and_comm]
  nextSeq := right.nextSeq.trans left.nextSeq
  frame := by
    obtain ⟨marketId, tickSize, lotSize, nextId, _, lastTrade, positions, margins⟩ := left.frame
    have first : Frame { book with pendingStops := last.pendingStops }
        { middle with pendingStops := last.pendingStops } :=
      ⟨marketId, tickSize, lotSize, nextId, rfl, lastTrade, positions, margins⟩
    exact first.trans right.frame

theorem Valid.takePendingStops (valid : book.Valid) (trader : Address) :
    StopsTaken book [trader] (book.takePendingStops trader).1 where
  valid := valid.retainStops _
  ladders side := by cases side <;> rfl
  orderSeq := (retainStops_frame book _).2.2
  traderOrders := (retainStops_frame book _).2.1
  pendingStops := by
    change book.pendingStops.filter _ = _
    refine filter_congr fun stop _ => ?_
    simp
  nextSeq := rfl
  frame := ⟨rfl, rfl, rfl, rfl, rfl, rfl, rfl, rfl⟩

theorem StopsTaken.resting
    (taken : StopsTaken book traders after) : after.resting = book.resting := by
  have bids : after.bids = book.bids := taken.ladders .buy
  have asks : after.asks = book.asks := taken.ladders .sell
  rw [Book.resting, Book.resting, bids, asks]

theorem StopsTaken.ordersOf (valid : book.Valid) (taken : StopsTaken book traders after)
    (trader : Address) : after.ordersOf trader = book.ordersOf trader := by
  rw [Book.ordersOf, Book.ordersOf, taken.traderOrders]
  refine filterMap_congr fun id _ => Option.ext fun order => ?_
  rw [taken.valid.getOrder_iff, valid.getOrder_iff, taken.resting]

theorem StopsTaken.emptied {others : List Address} {last : Book}
    (taken : StopsTaken book traders after) (covered : ∀ trader ∈ traders, trader ∈ others)
    (emptied : Emptied after others last) : Emptied book others last where
  valid := emptied.valid
  ladders side := by rw [emptied.ladders, taken.ladders, taken.traderOrders]
  orderSeq id kept := by
    rw [← taken.traderOrders] at kept
    rw [emptied.orderSeq id kept, taken.orderSeq]
  traderOrders trader := by rw [emptied.traderOrders, taken.traderOrders]
  pendingStops := by
    rw [emptied.pendingStops, taken.pendingStops, filter_filter]
    refine filter_congr fun stop _ => ?_
    by_cases early : stop.trader ∈ traders
    · simp [covered _ early]
    · simp [early]
  nextSeq := emptied.nextSeq.trans taken.nextSeq
  frame := by
    obtain ⟨marketId, tickSize, lotSize, nextId, _, lastTrade, positions, margins⟩ := taken.frame
    have first : Frame { book with pendingStops := last.pendingStops }
        { after with pendingStops := last.pendingStops } :=
      ⟨marketId, tickSize, lotSize, nextId, rfl, lastTrade, positions, margins⟩
    exact first.trans emptied.frame

end StopsTaken

def reservedStops (book : Book) (trader : Address) : List (Int × Int) :=
  (book.takePendingStops trader).2

/-- The trader has no order and no stop. -/
def Absent (book : Book) (trader : Address) : Prop :=
  book.indexes.traderOrders trader = [] ∧ ∀ stop ∈ book.pendingStops, stop.trader ≠ trader

section Reserved

variable {book after : Book} {traders : List Address} {trader : Address}

theorem reservedStops_of_filter (stops : after.pendingStops =
      book.pendingStops.filter fun stop => decide (stop.trader ∉ traders)) (trader : Address) :
    after.reservedStops trader = if trader ∈ traders then [] else book.reservedStops trader := by
  unfold reservedStops Book.takePendingStops
  dsimp only
  rw [stops, filter_filter]
  by_cases early : trader ∈ traders
  · rw [if_pos early, map_eq_nil_iff, filter_eq_nil_iff]
    intro stop _ both
    simp only [Bool.and_eq_true, decide_eq_true_eq] at both
    exact both.2 (both.1 ▸ early)
  · rw [if_neg early]
    congr 1
    refine filter_congr fun stop _ => ?_
    by_cases own : stop.trader = trader <;> simp [own, early]

theorem Absent.reservedStops (absent : book.Absent trader) : book.reservedStops trader = [] := by
  unfold Book.reservedStops Book.takePendingStops
  dsimp only
  rw [map_eq_nil_iff, filter_eq_nil_iff]
  intro stop pending own
  exact absent.2 stop pending (of_decide_eq_true own)

theorem Absent.ordersOf (absent : book.Absent trader) : book.ordersOf trader = [] := by
  rw [Book.ordersOf, absent.1]
  rfl

theorem Absent.emptied (valid : book.Valid) (absent : book.Absent trader) :
    Emptied book [trader] book where
  valid := valid
  ladders side := by
    rw [flatMap_singleton, absent.1]
    exact (Ladder.without_untouched
      (fun level member => ((valid.ladders side).levels level member).nonempty) (by simp)).symm
  orderSeq _ _ := rfl
  traderOrders other := by
    by_cases same : other = trader
    · rw [same, if_pos (mem_singleton_self _), absent.1]
    · rw [if_neg (by simpa using same)]
  pendingStops := by
    refine (filter_eq_self.mpr fun stop pending => ?_).symm
    simpa using absent.2 stop pending
  nextSeq := rfl
  frame := Frame.refl book

theorem Emptied.absent (emptied : Emptied book traders after) (early : trader ∈ traders) :
    after.Absent trader := by
  refine ⟨by rw [emptied.traderOrders, if_pos early], fun stop pending same => ?_⟩
  rw [emptied.pendingStops] at pending
  exact of_decide_eq_true (mem_filter.mp pending).2 (same ▸ early)

theorem Emptied.absent_of_absent (emptied : Emptied book traders after)
    (absent : book.Absent trader) : after.Absent trader := by
  refine ⟨?_, fun stop pending => ?_⟩
  · rw [emptied.traderOrders, absent.1, ite_self]
  · rw [emptied.pendingStops] at pending
    exact absent.2 stop (mem_filter.mp pending).1

end Reserved

end Book

namespace LoggedBook

variable {hash : StreamingHash} {logged : LoggedBook hash}

theorem logStops_frame (stops : List StopOrder) :
    (stops.foldl (fun logged stop => logged.logStopRemoved stop logged.cancelCause) logged).book =
        logged.book ∧
      (stops.foldl (fun logged stop => logged.logStopRemoved stop logged.cancelCause)
        logged).journals = logged.journals ∧
      (stops.foldl (fun logged stop => logged.logStopRemoved stop logged.cancelCause)
        logged).cancelCause = logged.cancelCause := by
  induction stops generalizing logged with
  | nil => exact ⟨rfl, rfl, rfl⟩
  | cons stop stops ih => exact @ih (logged.logStopRemoved stop logged.cancelCause)

/-- Only the stops of these traders left. -/
structure StopsTaken (logged : LoggedBook hash) (traders : List Address)
    (after : LoggedBook hash) : Prop where
  book : Book.StopsTaken logged.book traders after.book
  journals : after.journals = logged.journals
  cancelCause : after.cancelCause = logged.cancelCause

theorem takePendingStops_taken (valid : logged.book.Valid) (trader : Address) :
    StopsTaken logged [trader] (logged.takePendingStops trader).1 := by
  obtain ⟨book, journals, cause⟩ := @logStops_frame hash
    { logged with book := (logged.book.takePendingStops trader).1 }
    (logged.book.pendingStops.filter fun stop => stop.trader = trader)
  have whole : (logged.takePendingStops trader).1.book = (logged.book.takePendingStops trader).1 :=
    book
  refine ⟨?_, journals, cause⟩
  rw [whole]
  exact valid.takePendingStops trader

theorem StopsTaken.cancelled {traders senders : List Address} {orders : List Order}
    {middle last : LoggedBook hash} (taken : StopsTaken logged traders middle)
    (covered : ∀ trader ∈ traders, trader ∈ senders)
    (cancelled : Cancelled middle senders orders last) : Cancelled logged senders orders last := by
  refine ⟨taken.book.emptied covered cancelled.emptied, ?_,
    cancelled.cancelCause.trans taken.cancelCause⟩
  rw [cancelled.journals, taken.journals]
  congr 1
  exact Book.allRemovalMarks_congr fun order _ => by rw [taken.book.orderSeq]

theorem takeAll_cancelled (valid : logged.book.Valid) (cause : OrderEventReason)
    (trader : Address) :
    (logged.takeAll cause trader).2 =
        (logged.book.reservedStops trader, logged.book.ordersOf trader) ∧
      Cancelled logged [trader] (logged.book.ordersOf trader) (logged.takeAll cause trader).1 := by
  have taken := @takePendingStops_taken hash { logged with cancelCause := cause } valid trader
  obtain ⟨returned, cancelled, _⟩ := cancelAll_cancelled taken.book.valid trader
  have orders := taken.book.ordersOf valid trader
  rw [orders] at returned cancelled
  have done := taken.cancelled (fun _ member => member) cancelled
  refine ⟨Prod.ext rfl returned, done.emptied, done.journals, rfl⟩

theorem takeAll_absent (valid : logged.book.Valid) (cause : OrderEventReason) {trader : Address}
    (absent : logged.book.Absent trader) : (logged.takeAll cause trader).1 = logged := by
  obtain ⟨_, cancelled⟩ := takeAll_cancelled valid cause trader
  rw [absent.ordersOf] at cancelled
  have none : logged.book.pendingStops.filter (fun stop => decide (stop.trader = trader)) = [] := by
    rw [filter_eq_nil_iff]
    intro stop pending own
    exact absent.2 stop pending (of_decide_eq_true own)
  have idle : Cancelled logged [trader] [] logged := ⟨absent.emptied valid, rfl, rfl⟩
  refine cancelled.eq idle ?_
  have taken := @takePendingStops_taken hash { logged with cancelCause := cause } valid trader
  obtain ⟨_, _, logs⟩ := cancelAll_cancelled taken.book.valid trader
  have silent : ({ logged with cancelCause := cause }.takePendingStops trader).1.orderEvents =
      logged.orderEvents := by
    unfold takePendingStops
    dsimp only
    rw [none]
    rfl
  have gone := taken.book.pendingStops
  have stops : ({ logged with cancelCause := cause }.takePendingStops trader).1.stopsOf [trader] =
      [] := by
    rw [stopsOf, gone, filter_filter, filter_eq_nil_iff]
    intro stop _ both
    simp at both
  rw [taken.book.ordersOf valid, absent.ordersOf, stops, silent] at logs
  refine logs.trans ?_
  cases logged.orderEvents <;> simp [cancelEvents]

theorem takeStops_taken (valid : logged.book.Valid) (senders : List Address) :
    StopsTaken logged senders (Executor.takeStops logged senders).1 ∧
      (senders.Nodup →
        (Executor.takeStops logged senders).2 = senders.map logged.book.reservedStops) := by
  induction senders generalizing logged with
  | nil => exact ⟨⟨.nothing valid, rfl, rfl⟩, fun _ => rfl⟩
  | cons sender senders ih =>
    have taken := takePendingStops_taken valid sender
    obtain ⟨rest, returned⟩ := ih taken.book.valid
    refine ⟨⟨taken.book.trans rest.book, rest.journals.trans taken.journals,
      rest.cancelCause.trans taken.cancelCause⟩, fun nodup => ?_⟩
    obtain ⟨fresh, others⟩ := nodup_cons.mp nodup
    rw [map_cons]
    change (logged.takePendingStops sender).2 ::
      (Executor.takeStops (logged.takePendingStops sender).1 senders).2 = _
    rw [returned others]
    congr 1
    refine map_congr_left fun other member => ?_
    have different : other ∉ [sender] := by
      rw [mem_singleton]
      rintro rfl
      exact fresh member
    rw [Book.reservedStops_of_filter taken.book.pendingStops, if_neg different]

end LoggedBook

theorem Book.cancelledAfter_nodup (book : Book) {senders : List Address} (nodup : senders.Nodup) :
    book.cancelledAfter [] senders = senders.map book.ordersOf := by
  have later : ∀ done senders : List Address, senders.Nodup → (∀ sender ∈ senders, sender ∉ done) →
      book.cancelledAfter done senders = senders.map book.ordersOf := by
    intro done senders nodup apart
    induction senders generalizing done with
    | nil => rfl
    | cons sender senders ih =>
      obtain ⟨fresh, others⟩ := nodup_cons.mp nodup
      rw [Book.cancelledAfter_cons, if_neg (apart sender mem_cons_self), map_cons]
      congr 1
      refine ih _ others fun other member inDone => ?_
      rcases mem_append.mp inDone with early | same
      · exact apart other (mem_cons_of_mem _ member) early
      · rw [mem_singleton.mp same] at member
        exact fresh member
  exact later [] senders nodup fun _ _ => not_mem_nil

end TorusHyperBft.OrderBook

namespace TorusHyperBft.Executor

open FixedPoint OrderBook List

variable {hash : StreamingHash} {logged : LoggedBook hash}

def hitOf (tiers : MarginTiers) (book : Book) (market : MarketId) (place : Nat) (sender : Address) :
    Option (Hit (List Order)) :=
  if book.reservedStops sender ≠ [] ∨ book.ordersOf sender ≠ [] then
    some { place, market, freed := book.ordersOf sender,
           stops := stopReservations tiers (book.reservedStops sender) }
  else none

theorem zip_maps {α β γ : Type} (items : List α) (first : α → β) (second : α → γ) :
    (items.zip (items.map first)).zip (items.map second) =
      items.map fun item => ((item, first item), second item) := by
  induction items with
  | nil => rfl
  | cons item items ih => rw [map_cons, map_cons, zip_cons_cons, zip_cons_cons, ih,
      map_cons]

/-- A group cancels its senders' orders and reports each sender's hit. -/
theorem cancelAllGroup_spec (valid : logged.book.Valid) (tiers : MarginTiers)
    (run : List CancelAllAction) (market : MarketId) {places : List Nat}
    (nodup : (places.map (senderAt run)).Nodup) :
    LoggedBook.Cancelled logged (places.map (senderAt run))
        ((places.map (senderAt run)).flatMap logged.book.ordersOf)
        (cancelAllGroup tiers run market places logged).1 ∧
      (cancelAllGroup tiers run market places logged).2 =
        places.filterMap fun place => hitOf tiers logged.book market place (senderAt run place) := by
  obtain ⟨taken, stops⟩ := LoggedBook.takeStops_taken valid (places.map (senderAt run))
  obtain ⟨returned, cancelled, _⟩ :=
    LoggedBook.cancelAllMany_cancelled taken.book.valid (places.map (senderAt run))
  have orders : (takeStops logged (places.map (senderAt run))).1.book.cancelledAfter []
      (places.map (senderAt run)) = (places.map (senderAt run)).map logged.book.ordersOf := by
    rw [Book.cancelledAfter_nodup _ nodup]
    exact map_congr_left fun sender _ => taken.book.ordersOf valid sender
  rw [orders] at returned cancelled
  rw [flatMap_def]
  refine ⟨taken.cancelled (fun _ member => member) cancelled, ?_⟩
  unfold cancelAllGroup
  dsimp only
  rw [returned, stops nodup, map_map, map_map, zip_maps, filterMap_map]
  rfl

end TorusHyperBft.Executor
