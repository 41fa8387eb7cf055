import TorusHyperBft.OrderBook.Saved

namespace TorusHyperBft.OrderBook

open List

/-! Rebuilding a book from its stored rows. -/

structure BookMeta where
  nextSeq : Nat
  tickSize : Int
  lotSize : Int
  nextId : Nat
  lastTradePrice : Option Int
deriving DecidableEq

def OrderRow.levelKey (row : OrderRow) : LevelKey := row.2.levelKey

/-- An order or a stop under the client id it carries. -/
structure Carrier where
  id : Nat
  trader : Address
  cloid : Option Cloid
deriving DecidableEq

def OrderRow.carrier (row : OrderRow) : Carrier where
  id := row.id
  trader := row.2.trader
  cloid := row.2.clientOrderId

def StopOrder.carrier (stop : StopOrder) : Carrier where
  id := stop.id
  trader := stop.trader
  cloid := stop.clientOrderId

namespace Book

/-- Put an order back under the sequence it was stored with.  A load is not a change, so
nothing is journaled. -/
def insertLoadedOrder (book : Book) (row : OrderRow) : Book :=
  let order := row.2
  let indexes := book.indexes.indexCloid order.trader order.clientOrderId order.id
  let book := book.setLadder order.side (Ladder.pushBack order.side order (book.ladder order.side))
  { book with
    indexes := { indexes with
      orderIndex := Function.update indexes.orderIndex order.id
        (some { side := order.side, price := order.price })
      traderOrders := Function.update indexes.traderOrders order.trader
        (indexes.traderOrders order.trader ++ [order.id])
      orderSeq := Function.update indexes.orderSeq order.id (some row.1) }
    reduceOnlyIndex :=
      if order.reduceOnly then
        Function.update book.reduceOnlyIndex order.trader
          (insertId order.id (book.reduceOnlyIndex order.trader))
      else book.reduceOnlyIndex }

def restoreStop (book : Book) (stop : StopOrder) : Book :=
  { book with
    indexes := book.indexes.indexCloid stop.trader stop.clientOrderId stop.id
    pendingStops := book.pendingStops ++ [stop] }

def loadRows (book : Book) (rows : List OrderRow) : Book := rows.foldl insertLoadedOrder book

def restoreStops (book : Book) (stops : List StopOrder) : Book := stops.foldl restoreStop book

def fromMeta (marketId : MarketId) (header : BookMeta) : Book :=
  { Book.new marketId header.tickSize header.lotSize with
    nextId := header.nextId
    lastTradePrice := header.lastTradePrice
    nextSeq := header.nextSeq }

def load (marketId : MarketId) (header : BookMeta) (rows : List OrderRow)
    (stops : List StopOrder) : Book :=
  ((fromMeta marketId header).loadRows rows).restoreStops stops

end Book

/-- Rows that a book can have stored, level by level in the order of their sequences. -/
structure Loadable (header : BookMeta) (rows : List OrderRow) (stops : List StopOrder) : Prop where
  lotSize : 0 < header.lotSize
  ids : (rows.map OrderRow.id ++ stops.map StopOrder.id).Nodup
  positive : ∀ row ∈ rows, 0 < row.2.remainingQty
  below : ∀ stored ∈ rows, stored.1 < header.nextSeq
  queued : rows.Pairwise fun first second => first.levelKey = second.levelKey → first.1 < second.1
  uncrossed : ∀ bid ∈ rows, ∀ ask ∈ rows, bid.2.side = .buy → ask.2.side = .sell →
    bid.2.price < ask.2.price
  cloids : ∀ first ∈ rows.map OrderRow.carrier ++ stops.map StopOrder.carrier,
    ∀ second ∈ rows.map OrderRow.carrier ++ stops.map StopOrder.carrier,
      first.trader = second.trader → first.cloid = second.cloid → first.cloid ≠ none →
        first.id = second.id
  ordersBelow : ∀ stored ∈ rows, stored.id < header.nextId
  stopsBelow : ∀ stop ∈ stops, stop.id < header.nextId

namespace Book

section Rows

variable {book : Book} {key : LevelKey} {row : OrderRow}

theorem Valid.queueAt_of_resting (valid : book.Valid) {order : Order}
    (member : order ∈ book.resting) : order ∈ book.queueAt order.levelKey := by
  obtain ⟨queue, found, inQueue⟩ := (valid.ladders order.side).get_price (valid.mem_ladder member)
  simpa [queueAt, Order.levelKey, found] using inQueue

theorem Valid.mem_rowsAt (valid : book.Valid) : row ∈ book.rowsAt key ↔
    row.2 ∈ book.resting ∧ row.levelKey = key ∧ book.indexes.orderSeq row.id = some row.1 := by
  rw [rowsAt_eq, Queue.rows, mem_map]
  constructor
  · rintro ⟨order, member, rfl⟩
    obtain ⟨rests, same⟩ := valid.mem_queueAt member
    obtain ⟨seq, found⟩ := valid.seq_of_resting rests
    exact ⟨rests, same, by simp [Order.row, OrderRow.id, found]⟩
  · rintro ⟨rests, rfl, found⟩
    refine ⟨row.2, valid.queueAt_of_resting rests, ?_⟩
    have sequence : book.indexes.orderSeq row.2.id = some row.1 := found
    simp [Order.row, sequence]

end Rows

theorem insertLoadedOrder_eq (book : Book) (row : OrderRow) : book.insertLoadedOrder row =
    { ({ book with nextSeq := row.1 }.insertOrder row.2) with nextSeq := book.nextSeq } := by
  obtain ⟨seq, order⟩ := row
  simp only [insertLoadedOrder, insertOrder]
  cases order.side <;> rfl

/-- The book has exactly these rows. -/
structure Holds (book : Book) (rows : List OrderRow) : Prop where
  valid : book.Valid
  byLevel : ∀ key, book.rowsAt key = rows.filter fun row => decide (row.levelKey = key)
  resting : book.resting.Perm (rows.map Prod.snd)

section Load

variable {book : Book} {rows : List OrderRow} {row : OrderRow}

theorem insertLoadedOrder_frame (book : Book) (row : OrderRow) :
    Frame book (book.insertLoadedOrder row) ∧
      (book.insertLoadedOrder row).nextSeq = book.nextSeq := by
  rw [insertLoadedOrder_eq]
  have frame := @insertOrder_frame { book with nextSeq := row.1 } row.2
  exact ⟨⟨frame.marketId, frame.tickSize, frame.lotSize, frame.nextId, frame.pendingStops,
    frame.lastTradePrice, frame.reduceOnlyPositions, frame.accountMargins⟩, rfl⟩

theorem loadRows_frame (book : Book) (rows : List OrderRow) :
    Frame book (book.loadRows rows) ∧ (book.loadRows rows).nextSeq = book.nextSeq := by
  induction rows generalizing book with
  | nil => exact ⟨.refl book, rfl⟩
  | cons row rows ih =>
    obtain ⟨first, sameSeq⟩ := book.insertLoadedOrder_frame row
    obtain ⟨rest, restSeq⟩ := ih (book.insertLoadedOrder row)
    exact ⟨first.trans rest, restSeq.trans sameSeq⟩

theorem Holds.insertLoadedOrder (holds : book.Holds rows) (restable : book.Restable row.2)
    (below : row.1 < book.nextSeq)
    (queued : ∀ earlier ∈ rows, earlier.levelKey = row.levelKey → earlier.1 < row.1) :
    (book.insertLoadedOrder row).Holds (rows ++ [row]) := by
  have valid := holds.valid
  rw [insertLoadedOrder_eq]
  constructor
  · refine valid.insertAt restable ?_ (Nat.le_refl _) below
    intro other member samePrice earlier found
    have rests : other ∈ book.resting := (mem_resting row.2.side).mpr (Or.inl member)
    have sameKey : OrderRow.levelKey (earlier, other) = row.levelKey := by
      have sameSide := (valid.ladders row.2.side).placed member
      simp [OrderRow.levelKey, Order.levelKey, sameSide, samePrice]
    have stored : (earlier, other) ∈ book.rowsAt row.levelKey :=
      valid.mem_rowsAt.mpr ⟨rests, sameKey, found⟩
    rw [holds.byLevel, mem_filter] at stored
    exact queued (earlier, other) stored.1 sameKey
  · intro key
    change ({ book with nextSeq := row.1 }.insertOrder row.2).rowsAt key = _
    rw [valid.rowsAt_insertOrder restable.unused, holds.byLevel, filter_append]
    by_cases own : key = row.2.levelKey
    · simp [own, OrderRow.levelKey]
    · simp [own, OrderRow.levelKey, Ne.symm own]
  · have perm := @insertOrder_resting { book with nextSeq := row.1 } row.2
    rw [map_append, map_singleton]
    exact perm.trans ((holds.resting.cons row.2).trans (perm_append_singleton _ _).symm)

theorem Holds.carrier (holds : book.Holds rows) {trader : Address} {name : Cloid} {id : Nat}
    (found : book.indexes.cloids trader name = some id) :
    { id, trader, cloid := some name } ∈
      rows.map OrderRow.carrier ++ book.pendingStops.map StopOrder.carrier := by
  obtain ⟨key, inKeys, rfl, rfl, named⟩ | ⟨stop, inStops, rfl, rfl, named⟩ :=
    (holds.valid.covers.cloids _ _ _).mp found
  · obtain ⟨order, member, rfl⟩ := mem_map.mp inKeys
    obtain ⟨row, inRows, rfl⟩ := mem_map.mp (holds.resting.mem_iff.mp member)
    apply mem_append_left
    refine mem_map.mpr ⟨row, inRows, ?_⟩
    have cloid : row.2.clientOrderId = some name := named
    simp [OrderRow.carrier, OrderRow.id, Order.key, cloid]
  · apply mem_append_right
    exact mem_map.mpr ⟨stop, inStops, by simp [StopOrder.carrier, named]⟩

theorem Holds.restoreStop (holds : book.Holds rows) {stop : StopOrder}
    (unused : stop.id ∉ rows.map OrderRow.id)
    (notStop : stop.id ∉ book.pendingStops.map StopOrder.id)
    (free : Covers.CloidFree book.indexes stop.trader stop.clientOrderId) :
    (book.restoreStop stop).Holds rows := by
  obtain ⟨_, _, sameSeq⟩ :=
    Covers.indexCloid_frame book.indexes stop.trader stop.clientOrderId stop.id
  have valid := holds.valid
  have notResting : stop.id ∉ (book.resting.map Order.key).map Key.id := by
    rw [map_map]
    intro used
    apply unused
    have ids := holds.resting.map Order.id
    rw [map_map] at ids
    exact ids.mem_iff.mp used
  have covers := (valid.covers.addStop notResting notStop free).perm_stops
    (perm_append_singleton stop book.pendingStops).symm
  refine ⟨⟨fun side => ?_, covers, valid.uncrossed, valid.reduceOnly, valid.ascending⟩,
    fun key => ?_, holds.resting⟩
  · have wf := valid.ladders side
    rw [← sameSeq] at wf
    cases side <;> exact wf
  · rw [← holds.byLevel key, rowsAt, rowsAt, Book.restoreStop, sameSeq]
    cases key.side <;> rfl

theorem restoreStops_frame (book : Book) (stops : List StopOrder) :
    (book.restoreStops stops).pendingStops = book.pendingStops ++ stops ∧
      (book.restoreStops stops).marketId = book.marketId ∧
      (book.restoreStops stops).tickSize = book.tickSize ∧
      (book.restoreStops stops).lotSize = book.lotSize ∧
      (book.restoreStops stops).nextId = book.nextId ∧
      (book.restoreStops stops).nextSeq = book.nextSeq ∧
      (book.restoreStops stops).lastTradePrice = book.lastTradePrice := by
  induction stops generalizing book with
  | nil => simp [restoreStops]
  | cons stop stops ih => simpa [restoreStops, restoreStop] using ih (book.restoreStop stop)

theorem load_frame (marketId : MarketId) (header : BookMeta) (rows : List OrderRow)
    (stops : List StopOrder) :
    (load marketId header rows stops).pendingStops = stops ∧
      (load marketId header rows stops).marketId = marketId ∧
      (load marketId header rows stops).tickSize = header.tickSize ∧
      (load marketId header rows stops).lotSize = header.lotSize ∧
      (load marketId header rows stops).nextId = header.nextId ∧
      (load marketId header rows stops).nextSeq = header.nextSeq ∧
      (load marketId header rows stops).lastTradePrice = header.lastTradePrice := by
  obtain ⟨frame, sameSeq⟩ := (fromMeta marketId header).loadRows_frame rows
  have restored := ((fromMeta marketId header).loadRows rows).restoreStops_frame stops
  rw [frame.pendingStops, frame.marketId, frame.tickSize, frame.lotSize, frame.nextId, sameSeq,
    frame.lastTradePrice] at restored
  exact restored

end Load

end Book

namespace Loadable

variable {book : Book} {header : BookMeta} {rows : List OrderRow} {row : OrderRow}
  {stops : List StopOrder}

theorem dropLast (loadable : Loadable header (rows ++ [row]) stops) :
    Loadable header rows stops := by
  have ids : (rows.map OrderRow.id ++ stops.map StopOrder.id).Nodup := by
    have shorter : (rows.map OrderRow.id ++ stops.map StopOrder.id).Sublist
        ((rows ++ [row]).map OrderRow.id ++ stops.map StopOrder.id) := by
      rw [map_append, append_assoc]
      exact (sublist_append_right _ _).append_left _
    exact List.Nodup.sublist shorter loadable.ids
  have carriers : ∀ carrier ∈ rows.map OrderRow.carrier ++ stops.map StopOrder.carrier,
      carrier ∈ (rows ++ [row]).map OrderRow.carrier ++ stops.map StopOrder.carrier := by
    intro carrier member
    rw [map_append, append_assoc]
    rcases mem_append.mp member with inRows | inStops
    · exact mem_append_left _ inRows
    · exact mem_append_right _ (mem_append_right _ inStops)
  have earlier : ∀ stored ∈ rows, stored ∈ rows ++ [row] := fun stored member =>
    mem_append_left _ member
  exact
    { lotSize := loadable.lotSize
      ids
      positive := fun stored member => loadable.positive stored (earlier stored member)
      below := fun stored member => loadable.below stored (earlier stored member)
      queued := (pairwise_append.mp loadable.queued).1
      uncrossed := fun bid bidMember ask askMember =>
        loadable.uncrossed bid (earlier bid bidMember) ask (earlier ask askMember)
      cloids := fun first firstMember second secondMember =>
        loadable.cloids first (carriers first firstMember) second (carriers second secondMember)
      ordersBelow := fun stored member => loadable.ordersBelow stored (earlier stored member)
      stopsBelow := loadable.stopsBelow }

theorem cloidFree (loadable : Loadable header rows stops) {loaded : List OrderRow}
    (holds : book.Holds loaded) {own : Carrier}
    (member : own ∈ rows.map OrderRow.carrier ++ stops.map StopOrder.carrier)
    (others : ∀ carrier ∈ loaded.map OrderRow.carrier ++ book.pendingStops.map StopOrder.carrier,
      carrier ∈ rows.map OrderRow.carrier ++ stops.map StopOrder.carrier ∧ carrier.id ≠ own.id) :
    Covers.CloidFree book.indexes own.trader own.cloid := by
  intro name named
  cases found : book.indexes.cloids own.trader name with
  | none => rfl
  | some id =>
    obtain ⟨inAll, different⟩ := others _ (holds.carrier found)
    exact absurd (loadable.cloids _ inAll own member rfl named.symm (by simp)) different

theorem restable (loadable : Loadable header (rows ++ [row]) stops) (holds : book.Holds rows)
    (noStops : book.pendingStops = []) : book.Restable row.2 := by
  have last : row ∈ rows ++ [row] := mem_append_right _ mem_cons_self
  have stored : ∀ order ∈ book.resting, ∃ seq, (seq, order) ∈ rows := by
    intro order member
    obtain ⟨⟨seq, _⟩, inRows, rfl⟩ := mem_map.mp (holds.resting.mem_iff.mp member)
    exact ⟨seq, inRows⟩
  have different : ∀ other ∈ rows, other.id ≠ row.id := by
    have nodup := (nodup_append.mp loadable.ids).1
    rw [map_append, nodup_append] at nodup
    intro other member same
    exact nodup.2.2 other.id (mem_map_of_mem member) row.id (by simp) same
  refine ⟨loadable.positive row last, ?_, by simp [noStops], ?_, ?_⟩
  · intro used
    obtain ⟨order, member, same⟩ := mem_map.mp used
    obtain ⟨seq, inRows⟩ := stored order member
    exact different _ inRows same
  · refine loadable.cloidFree holds (mem_append_left _ (mem_map_of_mem last)) ?_
    intro carrier earlier
    rw [noStops, map_nil, append_nil] at earlier
    obtain ⟨other, inRows, rfl⟩ := mem_map.mp earlier
    refine ⟨mem_append_left _ (mem_map_of_mem ?_), different other inRows⟩
    exact mem_append_left _ inRows
  · intro other member
    have rests : other ∈ book.resting := (Book.mem_resting row.2.side).mpr (Or.inr member)
    have side := (holds.valid.ladders row.2.side.opposite).placed member
    obtain ⟨seq, inRows⟩ := stored other rests
    have inAll : (seq, other) ∈ rows ++ [row] := mem_append_left _ inRows
    cases own : row.2.side with
    | buy =>
      rw [own] at side
      exact loadable.uncrossed row last _ inAll own side
    | sell =>
      rw [own] at side
      exact loadable.uncrossed _ inAll row last side own

theorem holds (marketId : MarketId) (loadable : Loadable header rows stops) :
    ((Book.fromMeta marketId header).loadRows rows).Holds rows := by
  induction rows using List.reverseRecOn with
  | nil =>
    have valid : (Book.fromMeta marketId header).Valid := by
      have new := Book.new_valid marketId header.tickSize header.lotSize
      exact ⟨new.ladders, { new.covers with bounded := by simp [Book.fromMeta, Book.new] },
        new.uncrossed, new.reduceOnly, new.ascending⟩
    exact ⟨valid, fun key => by cases key with | mk side price => cases side <;> rfl, .refl _⟩
  | append_singleton rows row ih =>
    have holds := ih loadable.dropLast
    obtain ⟨frame, sameSeq⟩ := (Book.fromMeta marketId header).loadRows_frame rows
    rw [Book.loadRows, foldl_append]
    change (((Book.fromMeta marketId header).loadRows rows).insertLoadedOrder row).Holds _
    apply holds.insertLoadedOrder
    · exact loadable.restable holds frame.pendingStops
    · rw [sameSeq]
      exact loadable.below row (mem_append_right _ mem_cons_self)
    · intro earlier member sameKey
      exact (pairwise_append.mp loadable.queued).2.2 earlier member row mem_cons_self
        sameKey

theorem dropLastStop {stop : StopOrder} (loadable : Loadable header rows (stops ++ [stop])) :
    Loadable header rows stops := by
  have ids : (rows.map OrderRow.id ++ stops.map StopOrder.id).Nodup := by
    have all := loadable.ids
    rw [map_append, ← append_assoc] at all
    exact (nodup_append.mp all).1
  have carriers : ∀ carrier ∈ rows.map OrderRow.carrier ++ stops.map StopOrder.carrier,
      carrier ∈ rows.map OrderRow.carrier ++ (stops ++ [stop]).map StopOrder.carrier := by
    intro carrier member
    rw [map_append, ← append_assoc]
    exact mem_append_left _ member
  exact { loadable with
    ids
    cloids := fun first firstMember second secondMember =>
      loadable.cloids first (carriers first firstMember) second (carriers second secondMember)
    stopsBelow := fun other member => loadable.stopsBelow other (mem_append_left _ member) }

theorem load_holds (marketId : MarketId) (loadable : Loadable header rows stops) :
    (Book.load marketId header rows stops).Holds rows := by
  induction stops using List.reverseRecOn with
  | nil => exact loadable.holds marketId
  | append_singleton stops stop ih =>
    have holds := ih loadable.dropLastStop
    have pending := (Book.load_frame marketId header rows stops).1
    have ids := loadable.ids
    rw [map_append, nodup_append] at ids
    obtain ⟨_, stopIds, apart⟩ := ids
    have last : stop ∈ stops ++ [stop] := mem_append_right _ mem_cons_self
    rw [Book.load, Book.restoreStops, foldl_append]
    apply holds.restoreStop
    · intro used
      exact apart stop.id used stop.id (by simp) rfl
    · rw [nodup_append] at stopIds
      intro used
      rw [pending] at used
      exact stopIds.2.2 stop.id used stop.id (by simp) rfl
    · refine loadable.cloidFree holds (mem_append_right _ (mem_map_of_mem last)) ?_
      intro carrier earlier
      rw [pending] at earlier
      rcases mem_append.mp earlier with inRows | inStops
      · obtain ⟨row, member, rfl⟩ := mem_map.mp inRows
        exact ⟨mem_append_left _ inRows,
          apart row.id (mem_map_of_mem member) stop.id (by simp)⟩
      · obtain ⟨other, member, rfl⟩ := mem_map.mp inStops
        refine ⟨mem_append_right _ (mem_map_of_mem (mem_append_left _ member)), ?_⟩
        rw [nodup_append] at stopIds
        exact stopIds.2.2 other.id (mem_map_of_mem member) stop.id (by simp)

theorem inv (marketId : MarketId) (loadable : Loadable header rows stops) :
    Desk.Inv { book := Book.load marketId header rows stops } := by
  have holds := loadable.load_holds marketId
  obtain ⟨pending, _, _, lotSize, nextId, _, _⟩ := Book.load_frame marketId header rows stops
  refine ⟨⟨holds.valid, by rw [lotSize]; exact loadable.lotSize, ?_, ?_⟩, nodup_nil,
    by simp, by simp⟩
  · intro order member
    obtain ⟨row, inRows, rfl⟩ := mem_map.mp (holds.resting.mem_iff.mp member)
    rw [nextId]
    exact loadable.ordersBelow row inRows
  · intro stop member
    rw [pending] at member
    rw [nextId]
    exact loadable.stopsBelow stop member

end Loadable

end TorusHyperBft.OrderBook
