import TorusHyperBft.OrderBook.Covers
import TorusHyperBft.OrderBook.Ladder

namespace TorusHyperBft.OrderBook

open List Ladder

/-! The representation invariant of a book, and the operations on single orders. -/

theorem Side.opposite_opposite (side : Side) : side.opposite.opposite = side := by
  cases side <;> rfl

/-- The two prices do not cross. -/
def Apart (side : Side) (own opposite : Int) : Prop :=
  match side with
  | .buy => own < opposite
  | .sell => opposite < own

variable {id : Nat}

namespace Book

def resting (book : Book) : List Order := book.bids.orders ++ book.asks.orders

/-- The invariant of a book: levels, indexes and no crossing. -/
structure Valid (book : Book) : Prop where
  ladders : ∀ side, LadderWf side book.indexes.orderSeq (book.ladder side)
  covers : Covers book.indexes (book.resting.map Order.key) book.pendingStops book.nextSeq
  uncrossed : ∀ bid ∈ book.bids.orders, ∀ ask ∈ book.asks.orders, bid.price < ask.price
  reduceOnly : ∀ trader id, id ∈ book.reduceOnlyIndex trader ↔
    ∃ order ∈ book.resting, order.id = id ∧ order.trader = trader ∧ order.reduceOnly = true
  ascending : ∀ trader, (book.reduceOnlyIndex trader).Pairwise (· < ·)

/-- What the operations on single orders leave alone. -/
structure Frame (before after : Book) : Prop where
  marketId : after.marketId = before.marketId
  tickSize : after.tickSize = before.tickSize
  lotSize : after.lotSize = before.lotSize
  nextId : after.nextId = before.nextId
  pendingStops : after.pendingStops = before.pendingStops
  lastTradePrice : after.lastTradePrice = before.lastTradePrice
  reduceOnlyPositions : after.reduceOnlyPositions = before.reduceOnlyPositions
  accountMargins : after.accountMargins = before.accountMargins

theorem Frame.refl (book : Book) : Frame book book := ⟨rfl, rfl, rfl, rfl, rfl, rfl, rfl, rfl⟩

theorem Frame.trans {first second third : Book} (left : Frame first second)
    (right : Frame second third) : Frame first third where
  marketId := right.marketId.trans left.marketId
  tickSize := right.tickSize.trans left.tickSize
  lotSize := right.lotSize.trans left.lotSize
  nextId := right.nextId.trans left.nextId
  pendingStops := right.pendingStops.trans left.pendingStops
  lastTradePrice := right.lastTradePrice.trans left.lastTradePrice
  reduceOnlyPositions := right.reduceOnlyPositions.trans left.reduceOnlyPositions
  accountMargins := right.accountMargins.trans left.accountMargins

section Ladders

variable {book : Book} {side : Side} {ladder : Ladder}

@[simp]
theorem setLadder_ladder : (book.setLadder side ladder).ladder side = ladder := by
  cases side <;> rfl

@[simp]
theorem setLadder_opposite :
    (book.setLadder side ladder).ladder side.opposite = book.ladder side.opposite := by
  cases side <;> rfl

theorem setLadder_frame : Frame book (book.setLadder side ladder) := by
  cases side <;> exact ⟨rfl, rfl, rfl, rfl, rfl, rfl, rfl, rfl⟩

theorem setLadder_indexes : (book.setLadder side ladder).indexes = book.indexes ∧
    (book.setLadder side ladder).nextSeq = book.nextSeq ∧
    (book.setLadder side ladder).reduceOnlyIndex = book.reduceOnlyIndex := by
  cases side <;> exact ⟨rfl, rfl, rfl⟩

theorem resting_perm (book : Book) (side : Side) :
    book.resting.Perm ((book.ladder side).orders ++ (book.ladder side.opposite).orders) := by
  cases side with
  | buy => exact .refl _
  | sell => exact perm_append_comm

theorem mem_resting {order : Order} (side : Side) : order ∈ book.resting ↔
    order ∈ (book.ladder side).orders ∨ order ∈ (book.ladder side.opposite).orders := by
  rw [(resting_perm book side).mem_iff, mem_append]

end Ladders

theorem new_valid (marketId : MarketId) (tickSize lotSize : Int) :
    (new marketId tickSize lotSize).Valid where
  ladders side := by
    cases side <;> exact ⟨List.Pairwise.nil, fun level member => absurd member not_mem_nil⟩
  covers :=
    { nodup := nodup_nil
      apart := fun stop member => absurd member not_mem_nil
      stopsNodup := nodup_nil
      indexed := by simp [new, resting, Ladder.orders]
      sequenced := by simp [new, resting, Ladder.orders]
      bounded := by simp [new]
      listed := by simp [new, resting, Ladder.orders]
      listedOnce := fun _ => nodup_nil
      cloids := by simp [new, resting, Ladder.orders] }
  uncrossed bid member := absurd member not_mem_nil
  reduceOnly := by simp [new, resting, Ladder.orders]
  ascending _ := List.Pairwise.nil

namespace Valid

variable {book : Book} {order : Order}

variable (valid : book.Valid)
include valid

theorem mem_ladder (member : order ∈ book.resting) : order ∈ (book.ladder order.side).orders := by
  rcases (mem_resting order.side).mp member with own | other
  · exact own
  · have placed := (valid.ladders order.side.opposite).placed other
    cases side : order.side <;> rw [side] at placed <;> contradiction

theorem nodup : (book.resting.map Order.id).Nodup := by
  have nodup := valid.covers.nodup
  rwa [map_map] at nodup

theorem eq_of_id {other : Order} (member : order ∈ book.resting)
    (otherMember : other ∈ book.resting) (same : order.id = other.id) : order = other :=
  inj_on_of_nodup_map valid.nodup member otherMember same

theorem positive (member : order ∈ book.resting) : 0 < order.remainingQty :=
  (valid.ladders order.side).positive (valid.mem_ladder member)

theorem apart_stops (member : order ∈ book.resting) :
    order.id ∉ book.pendingStops.map StopOrder.id := by
  intro inStops
  obtain ⟨stop, stopMember, same⟩ := mem_map.mp inStops
  refine valid.covers.apart stop stopMember ?_
  rw [map_map]
  exact mem_map.mpr ⟨order, member, same.symm⟩

theorem orderIndex (member : order ∈ book.resting) :
    book.indexes.orderIndex order.id = some { side := order.side, price := order.price } :=
  (valid.covers.indexed _ _).mpr ⟨order.key, mem_map_of_mem member, rfl, rfl⟩

theorem orderIndex_none (absent : id ∉ book.resting.map Order.id) :
    book.indexes.orderIndex id = none := by
  cases found : book.indexes.orderIndex id with
  | none => rfl
  | some location =>
    obtain ⟨key, member, same, _⟩ := (valid.covers.indexed _ _).mp found
    obtain ⟨order, inResting, rfl⟩ := mem_map.mp member
    exact absurd (mem_map.mpr ⟨order, inResting, same⟩) absent

end Valid

end Book

theorem Indexes.queuePosition_found {indexes : Indexes} {queue : Queue} {order : Order}
    (member : order ∈ queue) :
    ∃ position found, indexes.queuePosition queue order.id = some position ∧
      queue[position]? = some found ∧ found.id = order.id := by
  have scanned : ∃ position found,
      queue.findIdx? (fun other => decide (other.id = order.id)) = some position ∧
        queue[position]? = some found ∧ found.id = order.id := by
    cases scan : queue.findIdx? fun other => decide (other.id = order.id) with
    | none =>
      have := List.findIdx?_eq_none_iff.mp scan order member
      simp at this
    | some position =>
      obtain ⟨bound, matched, _⟩ := List.findIdx?_eq_some_iff_getElem.mp scan
      exact ⟨position, queue[position], rfl, List.getElem?_eq_getElem bound,
        of_decide_eq_true matched⟩
  unfold queuePosition
  dsimp only
  split
  · exact scanned
  · split
    · rename_i found
      split
      · rename_i same
        exact ⟨_, _, rfl, found, same⟩
      · exact scanned
    · exact scanned

namespace Book

section Locate

variable {book : Book} {order : Order}

theorem Valid.locate (valid : book.Valid) (member : order ∈ book.resting) :
    ∃ queue position, (book.ladder order.side).get order.price = some queue ∧
      book.indexes.queuePosition queue order.id = some position ∧
      queue[position]? = some order := by
  obtain ⟨queue, level, inQueue⟩ := (valid.ladders order.side).get_price (valid.mem_ladder member)
  obtain ⟨position, found, positioned, located, same⟩ :=
    @Indexes.queuePosition_found book.indexes queue order inQueue
  have foundMember : found ∈ book.resting := by
    refine (mem_resting order.side).mpr (Or.inl ?_)
    obtain ⟨others, split, _⟩ := setQueue_orders level
    exact split.mem_iff.mpr (mem_append_left _ (mem_of_getElem? located))
  rw [valid.eq_of_id foundMember member same] at located
  exact ⟨queue, position, level, positioned, located⟩

theorem Valid.getOrder_iff (valid : book.Valid) :
    book.getOrder id = some order ↔ order ∈ book.resting ∧ order.id = id := by
  constructor
  · intro found
    by_cases absent : id ∈ book.resting.map Order.id
    · obtain ⟨resting, member, rfl⟩ := mem_map.mp absent
      obtain ⟨queue, position, level, positioned, located⟩ := valid.locate member
      simp only [getOrder, valid.orderIndex member, Option.bind_eq_bind, Option.bind_some, level,
        positioned, located, Option.some.injEq] at found
      subst found
      exact ⟨member, rfl⟩
    · simp only [getOrder, valid.orderIndex_none absent, Option.bind_eq_bind,
        Option.bind_none] at found
      contradiction
  · rintro ⟨member, rfl⟩
    obtain ⟨queue, position, level, positioned, located⟩ := valid.locate member
    simp only [getOrder, valid.orderIndex member, Option.bind_eq_bind, Option.bind_some, level,
      positioned, located]

theorem Valid.getOrder_none (valid : book.Valid)
    (absent : id ∉ book.resting.map Order.id) : book.getOrder id = none := by
  cases found : book.getOrder id with
  | none => rfl
  | some order =>
    obtain ⟨member, same⟩ := valid.getOrder_iff.mp found
    exact absurd (mem_map.mpr ⟨order, member, same⟩) absent

end Locate

section Rebuild

variable {book after : Book} {side : Side}

theorem Valid.apart (valid : book.Valid) (side : Side) :
    ∀ own ∈ (book.ladder side).orders, ∀ other ∈ (book.ladder side.opposite).orders,
      Apart side own.price other.price := by
  cases side with
  | buy => exact valid.uncrossed
  | sell => exact fun own ownMember other otherMember => valid.uncrossed other otherMember own ownMember

theorem Valid.rebuild (valid : book.Valid) (side : Side)
    (opposite : after.ladder side.opposite = book.ladder side.opposite)
    (own : LadderWf side after.indexes.orderSeq (after.ladder side))
    (kept : ∀ order ∈ (book.ladder side.opposite).orders, ∀ seq,
      after.indexes.orderSeq order.id = some seq → book.indexes.orderSeq order.id = some seq)
    (covers : Covers after.indexes (after.resting.map Order.key) after.pendingStops after.nextSeq)
    (apart : ∀ own ∈ (after.ladder side).orders, ∀ other ∈ (book.ladder side.opposite).orders,
      Apart side own.price other.price)
    (reduceOnly : ∀ trader id, id ∈ after.reduceOnlyIndex trader ↔
      ∃ order ∈ after.resting, order.id = id ∧ order.trader = trader ∧ order.reduceOnly = true)
    (ascending : ∀ trader, (after.reduceOnlyIndex trader).Pairwise (· < ·)) : after.Valid := by
  have other : LadderWf side.opposite after.indexes.orderSeq (after.ladder side.opposite) := by
    rw [opposite]
    exact (valid.ladders side.opposite).mono kept
  refine ⟨?_, covers, ?_, reduceOnly, ascending⟩
  · cases side <;> intro each <;> cases each <;> assumption
  · rw [← opposite] at apart
    cases side with
    | buy => exact apart
    | sell => exact fun bid bidMember ask askMember => apart ask askMember bid bidMember

end Rebuild

section Reduce

variable {ids : List Nat} {id other : Nat}

theorem mem_insertId : other ∈ insertId id ids ↔ other = id ∨ other ∈ ids := by
  induction ids with
  | nil => simp [insertId]
  | cons head rest ih =>
    unfold insertId
    split
    · rename_i same
      subst same
      simp
    · split
      · simp
      · simp only [mem_cons, ih]
        exact or_left_comm

theorem insertId_ascending (ascending : ids.Pairwise (· < ·)) :
    (insertId id ids).Pairwise (· < ·) := by
  induction ids with
  | nil => exact pairwise_singleton _ _
  | cons head rest ih =>
    obtain ⟨least, ascendingRest⟩ := pairwise_cons.mp ascending
    unfold insertId
    split
    · exact ascending
    · rename_i different
      split
      · rename_i less
        refine pairwise_cons.mpr ⟨fun later member => ?_, ascending⟩
        rcases mem_cons.mp member with rfl | member
        · exact less
        · exact Nat.lt_trans less (least later member)
      · rename_i notLess
        refine pairwise_cons.mpr ⟨fun later member => ?_, ih ascendingRest⟩
        rcases mem_insertId.mp member with rfl | member
        · omega
        · exact least later member

end Reduce

section Cancel

variable {book : Book} {order : Order}

theorem forgetReduceOnly_mem (ascending : ∀ trader, (book.reduceOnlyIndex trader).Pairwise (· < ·))
    (owner : Address) (id : Nat) (trader : Address) (other : Nat) :
    other ∈ (book.forgetReduceOnly owner id).reduceOnlyIndex trader ↔
      other ∈ book.reduceOnlyIndex trader ∧ ¬ (trader = owner ∧ other = id) := by
  unfold forgetReduceOnly
  dsimp only
  by_cases same : trader = owner
  · subst same
    have nodup : (book.reduceOnlyIndex trader).Nodup := (ascending trader).imp Nat.ne_of_lt
    rw [Function.update_self, nodup.mem_erase_iff]
    simp [and_comm]
  · rw [Function.update_of_ne same]
    simp [same]

theorem forgetReduceOnly_ascending
    (ascending : ∀ trader, (book.reduceOnlyIndex trader).Pairwise (· < ·)) (owner : Address)
    (id : Nat) (trader : Address) :
    ((book.forgetReduceOnly owner id).reduceOnlyIndex trader).Pairwise (· < ·) := by
  unfold forgetReduceOnly
  dsimp only
  by_cases same : trader = owner
  · subst same
    rw [Function.update_self]
    exact (ascending trader).sublist erase_sublist
  · rw [Function.update_of_ne same]
    exact ascending trader

def without (book : Book) (order : Order) (queue : Queue) : Book :=
  let book := book.setLadder order.side
    (Ladder.setQueue order.price queue (book.ladder order.side))
  let book := if order.reduceOnly then book.forgetReduceOnly order.trader order.id else book
  { book with indexes := book.indexes.forget order }

theorem without_frame {queue : Queue} : Frame book (book.without order queue) := by
  unfold without
  cases order.reduceOnly <;> cases order.side <;> exact ⟨rfl, rfl, rfl, rfl, rfl, rfl, rfl, rfl⟩

theorem Valid.cancelOrder_eq (valid : book.Valid) (member : order ∈ book.resting) :
    ∃ queue position, (book.ladder order.side).get order.price = some queue ∧
      queue[position]? = some order ∧
      book.cancelOrder order.id = (book.without order (queue.eraseIdx position), .ok order) := by
  obtain ⟨queue, position, level, positioned, located⟩ := valid.locate member
  refine ⟨queue, position, level, located, ?_⟩
  simp only [cancelOrder, valid.orderIndex member, level, positioned, located]
  rfl

section Without

variable (book order) (queue : Queue)

theorem without_ladder : (book.without order queue).ladder order.side =
    Ladder.setQueue order.price queue (book.ladder order.side) := by
  unfold without
  cases order.reduceOnly <;> cases order.side <;> rfl

theorem without_opposite :
    (book.without order queue).ladder order.side.opposite = book.ladder order.side.opposite := by
  unfold without
  cases order.reduceOnly <;> cases order.side <;> rfl

theorem without_indexes : (book.without order queue).indexes = book.indexes.forget order ∧
    (book.without order queue).nextSeq = book.nextSeq := by
  unfold without
  cases order.reduceOnly <;> cases order.side <;> exact ⟨rfl, rfl⟩

theorem without_reduceOnlyIndex : (book.without order queue).reduceOnlyIndex =
    if order.reduceOnly then (book.forgetReduceOnly order.trader order.id).reduceOnlyIndex
    else book.reduceOnlyIndex := by
  unfold without
  cases order.reduceOnly <;> cases order.side <;> rfl

end Without

theorem Valid.without (valid : book.Valid) {queue : Queue} {position : Nat}
    (level : (book.ladder order.side).get order.price = some queue)
    (located : queue[position]? = some order) :
    book.resting.Perm (order :: (book.without order (queue.eraseIdx position)).resting) ∧
      (book.without order (queue.eraseIdx position)).Valid := by
  have ladder := without_ladder book order (queue.eraseIdx position)
  have opposite := without_opposite book order (queue.eraseIdx position)
  obtain ⟨indexes, nextSeq⟩ := without_indexes book order (queue.eraseIdx position)
  have reduceOnlyIndex := without_reduceOnlyIndex book order (queue.eraseIdx position)
  have frame := @without_frame book order (queue.eraseIdx position)
  generalize book.without order (queue.eraseIdx position) = after at *
  -- The order is taken out of its queue, and the queue out of its ladder.
  obtain ⟨bound, atPosition⟩ := List.getElem?_eq_some_iff.mp located
  have removed : queue.Perm (order :: queue.eraseIdx position) := by
    rw [← atPosition]
    exact (getElem_cons_eraseIdx_perm bound).symm
  obtain ⟨others, before, replaced⟩ := setQueue_orders level
  have own : (book.ladder order.side).orders.Perm (order :: (after.ladder order.side).orders) := by
    rw [ladder]
    exact before.trans ((removed.append_right others).trans
      ((replaced (queue.eraseIdx position)).symm.cons order))
  have perm : book.resting.Perm (order :: after.resting) := by
    refine (resting_perm book order.side).trans ((own.append_right _).trans ?_)
    rw [cons_append, ← opposite]
    exact (resting_perm after order.side).symm.cons order
  have kept : ∀ id seq, after.indexes.orderSeq id = some seq →
      book.indexes.orderSeq id = some seq := by
    intro id seq found
    rw [indexes, forget_orderSeq] at found
    by_cases same : id = order.id
    · rw [same, Function.update_self] at found
      contradiction
    · rwa [Function.update_of_ne same] at found
  have wf := (valid.ladders order.side).get_level level
  refine ⟨perm, valid.rebuild order.side opposite ?_ (fun other _ => kept other.id) ?_ ?_ ?_ ?_⟩
  · rw [ladder]
    refine setQueue_wf ((valid.ladders order.side).mono fun other _ => kept other.id) level
      fun nonempty => ⟨nonempty, fun other member => ?_, fun other member => ?_, ?_⟩
    · exact wf.placed other (mem_of_mem_eraseIdx member)
    · exact wf.positive other (mem_of_mem_eraseIdx member)
    · exact (SeqBefore.mono wf.ordered fun other _ => kept other.id).sublist
        (eraseIdx_sublist _ _)
  · rw [indexes, nextSeq, frame.pendingStops]
    exact (valid.covers.perm (perm.map Order.key)).forget
  · exact fun left leftMember => valid.apart order.side left
      (own.mem_iff.mpr (mem_cons_of_mem _ leftMember))
  · intro trader id
    have nodup := valid.nodup
    rw [(perm.map Order.id).nodup_iff, map_cons, nodup_cons] at nodup
    have before := valid.reduceOnly trader id
    simp only [perm.mem_iff, mem_cons, exists_eq_or_imp] at before
    have notLeft : ∀ other ∈ after.resting, other.id ≠ order.id := fun other member same =>
      nodup.1 (same ▸ mem_map_of_mem member)
    rw [reduceOnlyIndex]
    split
    · rw [forgetReduceOnly_mem valid.ascending, before]
      constructor
      · rintro ⟨(⟨rfl, rfl, _⟩ | found), other⟩
        · exact absurd ⟨rfl, rfl⟩ other
        · exact found
      · rintro ⟨other, member, rfl, rfl, reduceOnly⟩
        exact ⟨Or.inr ⟨other, member, rfl, rfl, reduceOnly⟩, fun same => notLeft other member same.2⟩
    · rename_i unpoliced
      rw [before]
      exact or_iff_right fun own => unpoliced own.2.2
  · intro trader
    rw [reduceOnlyIndex]
    split
    · exact forgetReduceOnly_ascending valid.ascending _ _ _
    · exact valid.ascending trader

theorem Valid.cancelOrder (valid : book.Valid) (member : order ∈ book.resting) :
    ∃ after, book.cancelOrder order.id = (after, .ok order) ∧
      book.resting.Perm (order :: after.resting) ∧ after.Valid ∧ Frame book after := by
  obtain ⟨queue, position, level, located, cancelled⟩ := valid.cancelOrder_eq member
  obtain ⟨perm, afterValid⟩ := valid.without level located
  exact ⟨_, cancelled, perm, afterValid, without_frame⟩

theorem Valid.cancelOrder_absent (valid : book.Valid) (absent : id ∉ book.resting.map Order.id) :
    book.cancelOrder id = (book, .error (.orderNotFound id)) := by
  simp only [Book.cancelOrder, valid.orderIndex_none absent]

end Cancel

section Insert

variable {book : Book} {order : Order}

theorem insertOrder_frame : Frame book (book.insertOrder order) := by
  unfold insertOrder
  cases order.side <;> exact ⟨rfl, rfl, rfl, rfl, rfl, rfl, rfl, rfl⟩

theorem insertOrder_ladder : (book.insertOrder order).ladder order.side =
    Ladder.pushBack order.side order (book.ladder order.side) := by
  unfold insertOrder
  cases side : order.side <;> rfl

theorem insertOrder_opposite :
    (book.insertOrder order).ladder order.side.opposite = book.ladder order.side.opposite := by
  unfold insertOrder
  cases side : order.side <;> rfl

theorem insertOrder_resting : (book.insertOrder order).resting.Perm (order :: book.resting) := by
  refine (resting_perm _ order.side).trans ?_
  rw [insertOrder_ladder, insertOrder_opposite]
  exact (pushBack_orders.append_right _).trans ((resting_perm book order.side).symm.cons order)

theorem insertOrder_reduceOnlyIndex : (book.insertOrder order).reduceOnlyIndex =
    if order.reduceOnly then
      Function.update book.reduceOnlyIndex order.trader
        (insertId order.id (book.reduceOnlyIndex order.trader))
    else book.reduceOnlyIndex := by
  unfold insertOrder
  cases side : order.side <;> rfl

/-- What a book needs of an order to put it to rest. -/
structure Restable (book : Book) (order : Order) : Prop where
  positive : 0 < order.remainingQty
  unused : order.id ∉ book.resting.map Order.id
  notStop : order.id ∉ book.pendingStops.map StopOrder.id
  cloidFree : Covers.CloidFree book.indexes order.trader order.clientOrderId
  apart : ∀ other ∈ (book.ladder order.side.opposite).orders,
    Apart order.side order.price other.price

theorem Valid.insertAt {seq bound : Nat} (valid : book.Valid) (restable : book.Restable order)
    (last : ∀ other ∈ (book.ladder order.side).orders, other.price = order.price →
      ∀ earlier, book.indexes.orderSeq other.id = some earlier → earlier < seq)
    (grown : book.nextSeq ≤ bound) (below : seq < bound) :
    Valid { ({ book with nextSeq := seq }.insertOrder order) with nextSeq := bound } := by
  have ladder := @insertOrder_ladder { book with nextSeq := seq } order
  have opposite := @insertOrder_opposite { book with nextSeq := seq } order
  have perm := @insertOrder_resting { book with nextSeq := seq } order
  have reduceOnlyIndex := @insertOrder_reduceOnlyIndex { book with nextSeq := seq } order
  have unusedKey : order.id ∉ (book.resting.map Order.key).map Key.id := by
    rw [map_map]
    exact restable.unused
  have inserted := @Covers.insert _ _ _ _ _ seq bound valid.covers unusedKey restable.notStop
    restable.cloidFree grown below
  generalize afterEq : { book with nextSeq := seq }.insertOrder order = after at *
  have covers : Covers after.indexes (order.key :: book.resting.map Order.key)
      after.pendingStops bound := by
    rw [← afterEq, insertOrder_frame.pendingStops]
    unfold Book.insertOrder
    cases side : order.side <;> rw [side] at inserted <;> exact inserted
  have kept : ∀ other ∈ book.resting, ∀ seq, after.indexes.orderSeq other.id = some seq →
      book.indexes.orderSeq other.id = some seq := by
    intro other member earlier found
    have different : other.id ≠ order.id := fun same =>
      restable.unused (same ▸ mem_map_of_mem member)
    have sameSeq : after.indexes.orderSeq other.id = book.indexes.orderSeq other.id := by
      rw [← afterEq]
      change Function.update _ order.id _ other.id = _
      rw [Function.update_of_ne different, (Covers.indexCloid_frame _ _ _ _).2.2]
    rwa [sameSeq] at found
  have own : after.indexes.orderSeq order.id = some seq := by
    rw [← afterEq]
    change Function.update _ order.id _ order.id = _
    rw [Function.update_self]
    cases side : order.side <;> rfl
  refine @Valid.rebuild book { after with nextSeq := bound } valid order.side opposite ?_
    (fun other member => kept other ((mem_resting order.side).mpr (Or.inr member)))
    (covers.perm (perm.map Order.key).symm) ?_ ?_ ?_
  · change LadderWf order.side after.indexes.orderSeq (after.ladder order.side)
    rw [ladder]
    refine pushBack_wf ((valid.ladders order.side).mono fun other member =>
      kept other ((mem_resting order.side).mpr (Or.inl member))) rfl restable.positive ?_
    intro other member samePrice earlier later first second
    rw [own, Option.some.injEq] at second
    subst second
    exact last other member samePrice earlier
      (kept other ((mem_resting order.side).mpr (Or.inl member)) earlier first)
  · intro own ownMember other otherMember
    change own ∈ (after.ladder order.side).orders at ownMember
    rw [ladder, pushBack_orders.mem_iff] at ownMember
    rcases mem_cons.mp ownMember with rfl | ownMember
    · exact restable.apart other otherMember
    · exact valid.apart order.side own ownMember other otherMember
  · intro trader id
    change id ∈ after.reduceOnlyIndex trader ↔ ∃ order ∈ after.resting, _
    simp only [perm.mem_iff, mem_cons, exists_eq_or_imp]
    change _ ↔ _ ∨ ∃ order ∈ book.resting, _
    rw [← valid.reduceOnly, reduceOnlyIndex]
    split
    · rename_i policed
      by_cases same : trader = order.trader
      · subst same
        rw [Function.update_self, mem_insertId]
        simp only [policed, and_true]
        exact or_congr_left eq_comm
      · rw [Function.update_of_ne same]
        simp [Ne.symm same]
    · rename_i unpoliced
      simp [unpoliced]
  · intro trader
    change (after.reduceOnlyIndex trader).Pairwise _
    rw [reduceOnlyIndex]
    split
    · by_cases same : trader = order.trader
      · subst same
        rw [Function.update_self]
        exact insertId_ascending (valid.ascending _)
      · rw [Function.update_of_ne same]
        exact valid.ascending trader
    · exact valid.ascending trader

theorem Valid.insertOrder (valid : book.Valid) (restable : book.Restable order) :
    (book.insertOrder order).Valid := by
  have inserted := @Valid.insertAt book order book.nextSeq (book.nextSeq + 1) valid restable
    (fun other _ _ earlier found => valid.covers.bounded other.id earlier found) (by omega)
    (by omega)
  have same : ({ (book.insertOrder order) with nextSeq := book.nextSeq + 1 } : Book) =
      book.insertOrder order := by
    unfold Book.insertOrder
    cases order.side <;> rfl
  rw [← same]
  exact inserted

end Insert

section Modify

variable {book : Book} {order : Order}

/-- A resting order is replaced by another of the same id. -/
structure Replaced (before after : Book) (old new : Order) : Prop where
  valid : after.Valid
  frame : Frame before after
  sameId : new.id = old.id
  sameTrader : new.trader = old.trader
  sameReduceOnly : new.reduceOnly = old.reduceOnly
  resting : ∃ others, before.resting.Perm (old :: others) ∧ after.resting.Perm (new :: others)

theorem Valid.modifyOrder_shrink (valid : book.Valid) (member : order ∈ book.resting) {qty : Int}
    (positive : 0 < qty) (smaller : qty < order.remainingQty) :
    ∃ after, book.modifyOrder order.id none (some qty) =
        (after, .ok { order with remainingQty := qty }) ∧
      Replaced book after order { order with remainingQty := qty } := by
  obtain ⟨queue, position, level, positioned, located⟩ := valid.locate member
  generalize shrunkEq : { order with remainingQty := qty } = shrunk
  have key : shrunk.key = order.key := by rw [← shrunkEq]; rfl
  have changed : book.modifyOrder order.id none (some qty) =
      (book.setLadder order.side (Ladder.setQueue order.price (queue.set position shrunk)
        (book.ladder order.side)), .ok shrunk) := by
    simp only [modifyOrder, valid.orderIndex member, level, positioned, located, Option.bind_some,
      Option.map_some, if_pos (And.intro positive smaller), shrunkEq]
  refine ⟨_, changed, ?_⟩
  obtain ⟨bound, atPosition⟩ := List.getElem?_eq_some_iff.mp located
  obtain ⟨around, before, replaced⟩ := setQueue_orders level
  have wf := (valid.ladders order.side).get_level level
  have placed : shrunk.side = order.side ∧ shrunk.price = order.price := by
    rw [← shrunkEq]
    exact ⟨rfl, rfl⟩
  have left : 0 < shrunk.remainingQty := by rw [← shrunkEq]; exact positive
  have oldQueue : queue.Perm (order :: queue.eraseIdx position) := by
    rw [← atPosition]
    exact (getElem_cons_eraseIdx_perm bound).symm
  have newQueue : (queue.set position shrunk).Perm (shrunk :: queue.eraseIdx position) :=
    set_perm_cons_eraseIdx bound shrunk
  have sameIds : (queue.set position shrunk).map Order.id = queue.map Order.id := by
    have inIds : position < (queue.map Order.id).length := by rwa [length_map]
    have sameId : shrunk.id = (queue.map Order.id)[position] := by
      rw [getElem_map, atPosition, ← shrunkEq]
    rw [map_set, sameId]
    exact set_getElem_self _
  have others : ∃ others, book.resting.Perm (order :: others) ∧
      (book.setLadder order.side (Ladder.setQueue order.price (queue.set position shrunk)
        (book.ladder order.side))).resting.Perm (shrunk :: others) := by
    refine ⟨queue.eraseIdx position ++ around ++ (book.ladder order.side.opposite).orders, ?_, ?_⟩
    · refine (resting_perm book order.side).trans ?_
      exact ((before.trans (oldQueue.append_right around)).append_right _)
    · refine (resting_perm _ order.side).trans ?_
      rw [setLadder_ladder, setLadder_opposite]
      exact (((replaced _).trans (newQueue.append_right around)).append_right _)
  obtain ⟨indexes, nextSeq, reduceOnlyIndex⟩ := @setLadder_indexes book order.side
    (Ladder.setQueue order.price (queue.set position shrunk) (book.ladder order.side))
  have opposite := @setLadder_opposite book order.side
    (Ladder.setQueue order.price (queue.set position shrunk) (book.ladder order.side))
  have ladder := @setLadder_ladder book order.side
    (Ladder.setQueue order.price (queue.set position shrunk) (book.ladder order.side))
  have frame := @setLadder_frame book order.side
    (Ladder.setQueue order.price (queue.set position shrunk) (book.ladder order.side))
  generalize book.setLadder order.side (Ladder.setQueue order.price (queue.set position shrunk)
    (book.ladder order.side)) = after at *
  refine ⟨?_, frame, by rw [← shrunkEq], by rw [← shrunkEq], by rw [← shrunkEq], others⟩
  obtain ⟨others, oldPerm, newPerm⟩ := others
  have sameResting : (after.resting.map Order.key).Perm (book.resting.map Order.key) := by
    refine (newPerm.map Order.key).trans ?_
    rw [map_cons, key, ← map_cons]
    exact (oldPerm.map Order.key).symm
  refine valid.rebuild order.side opposite ?_ (fun other _ seq found => by rwa [indexes] at found)
    ?_ ?_ ?_ ?_
  · rw [ladder, indexes]
    refine setQueue_wf (valid.ladders order.side) level fun nonempty =>
      ⟨nonempty, fun other inQueue => ?_, fun other inQueue => ?_, ?_⟩
    · rcases mem_cons.mp (newQueue.mem_iff.mp inQueue) with rfl | old
      · exact placed
      · exact wf.placed other (mem_of_mem_eraseIdx old)
    · rcases mem_cons.mp (newQueue.mem_iff.mp inQueue) with rfl | old
      · exact left
      · exact wf.positive other (mem_of_mem_eraseIdx old)
    · exact SeqBefore.of_ids (sameIds ▸ List.Sublist.refl _) wf.ordered
  · rw [indexes, nextSeq, frame.pendingStops]
    exact valid.covers.perm sameResting.symm
  · intro own ownMember other otherMember
    rw [ladder, (replaced _).mem_iff, mem_append, newQueue.mem_iff, mem_cons] at ownMember
    rcases ownMember with (rfl | inQueue) | elsewhere
    · rw [placed.2]
      exact valid.apart order.side order (valid.mem_ladder member) other otherMember
    · exact valid.apart order.side own (before.mem_iff.mpr (mem_append_left _
        (mem_of_mem_eraseIdx inQueue))) other otherMember
    · exact valid.apart order.side own (before.mem_iff.mpr (mem_append_right _ elsewhere))
        other otherMember
  · intro trader id
    rw [reduceOnlyIndex, valid.reduceOnly]
    simp only [oldPerm.mem_iff, newPerm.mem_iff, mem_cons, exists_eq_or_imp, ← shrunkEq]
  · intro trader
    rw [reduceOnlyIndex]
    exact valid.ascending trader

theorem Valid.apart_of_best (valid : book.Valid) {side : Side} {price : Int}
    (clear : ∀ best, (book.ladder side.opposite).best = some best → Apart side price best) :
    ∀ other ∈ (book.ladder side.opposite).orders, Apart side price other.price := by
  intro other member
  cases found : (book.ladder side.opposite).best with
  | none =>
    rw [LadderWf.best_none found] at member
    exact absurd member not_mem_nil
  | some best =>
    have apart := clear best found
    rcases ((valid.ladders side.opposite).best_some found).2 other member with same | worse
    · rw [same]
      exact apart
    · cases side <;> simp only [Apart, Side.opposite, betterPrice, decide_eq_true_eq] at * <;> omega

theorem Valid.cloidFree_cancelled (valid : book.Valid) {after : Book} (afterValid : after.Valid)
    (frame : Frame book after) (perm : book.resting.Perm (order :: after.resting)) :
    Covers.CloidFree after.indexes order.trader order.clientOrderId := by
  intro cloid named
  cases found : after.indexes.cloids order.trader cloid with
  | none => rfl
  | some id =>
    have owner : book.indexes.cloids order.trader cloid = some order.id :=
      (valid.covers.cloids _ _ _).mpr (Or.inl ⟨order.key,
        mem_map_of_mem (perm.mem_iff.mpr mem_cons_self), rfl, rfl, named⟩)
    have nodup := valid.nodup
    rw [(perm.map Order.id).nodup_iff, map_cons, nodup_cons] at nodup
    -- Whoever carries the client id now carried it before.
    rcases (afterValid.covers.cloids _ _ _).mp found with
      ⟨key, member, sameId, sameTrader, sameCloid⟩ | ⟨stop, member, sameId, sameTrader, sameCloid⟩
    · obtain ⟨other, inAfter, rfl⟩ := mem_map.mp member
      have before : book.indexes.cloids order.trader cloid = some other.id :=
        (valid.covers.cloids _ _ _).mpr (Or.inl ⟨other.key,
          mem_map_of_mem (perm.mem_iff.mpr (mem_cons_of_mem _ inAfter)), rfl,
          sameTrader, sameCloid⟩)
      rw [owner, Option.some.injEq] at before
      exact absurd (before ▸ mem_map_of_mem inAfter) nodup.1
    · rw [frame.pendingStops] at member
      have before : book.indexes.cloids order.trader cloid = some stop.id :=
        (valid.covers.cloids _ _ _).mpr (Or.inr ⟨stop, member, rfl, sameTrader, sameCloid⟩)
      rw [owner, Option.some.injEq] at before
      exact absurd (mem_map.mpr ⟨stop, member, before.symm⟩)
        (valid.apart_stops (perm.mem_iff.mpr mem_cons_self))

def replacement (order : Order) (newPrice newQty : Option Int) : Order :=
  let replacement := match newPrice with
    | none => order
    | some price => { order with price }
  match newQty with
  | none => replacement
  | some qty =>
    { replacement with
      remainingQty := qty
      originalQty := if replacement.originalQty < qty then qty else replacement.originalQty }

theorem replacement_same (order : Order) (newPrice newQty : Option Int) :
    (replacement order newPrice newQty).id = order.id ∧
      (replacement order newPrice newQty).trader = order.trader ∧
      (replacement order newPrice newQty).side = order.side ∧
      (replacement order newPrice newQty).reduceOnly = order.reduceOnly ∧
      (replacement order newPrice newQty).clientOrderId = order.clientOrderId ∧
      (replacement order newPrice newQty).price = newPrice.getD order.price ∧
      (replacement order newPrice newQty).remainingQty = newQty.getD order.remainingQty := by
  cases newPrice <;> cases newQty <;> exact ⟨rfl, rfl, rfl, rfl, rfl, rfl, rfl⟩

theorem Valid.reinsert (valid : book.Valid) (member : order ∈ book.resting)
    (newPrice newQty : Option Int)
    (clear : ∀ price, newPrice = some price → ∀ best,
      (book.ladder order.side.opposite).best = some best → Apart order.side price best)
    (positive : ∀ qty, newQty = some qty → 0 < qty) :
    ∃ cancelled, book.cancelOrder order.id = (cancelled, .ok order) ∧
      Replaced book (cancelled.insertOrder (replacement order newPrice newQty)) order
        (replacement order newPrice newQty) := by
  obtain ⟨cancelled, removed, perm, cancelledValid, frame⟩ := valid.cancelOrder member
  obtain ⟨sameId, sameTrader, sameSide, sameReduceOnly, sameCloid, samePrice, remaining⟩ :=
    replacement_same order newPrice newQty
  refine ⟨cancelled, removed, ?_⟩
  generalize replacement order newPrice newQty = new at *
  have nodup := valid.nodup
  rw [(perm.map Order.id).nodup_iff, map_cons, nodup_cons] at nodup
  have restable : cancelled.Restable new := by
    refine ⟨?_, by rw [sameId]; exact nodup.1, ?_, ?_, ?_⟩
    · rw [remaining]
      cases newQty with
      | none => exact valid.positive member
      | some qty => exact positive qty rfl
    · rw [sameId, frame.pendingStops]
      exact valid.apart_stops member
    · rw [sameTrader, sameCloid]
      exact valid.cloidFree_cancelled cancelledValid frame perm
    · rw [sameSide, samePrice]
      intro other inOpposite
      have inBook : other ∈ (book.ladder order.side.opposite).orders := by
        have placed := (cancelledValid.ladders _).placed inOpposite
        have inResting := perm.mem_iff.mpr (mem_cons_of_mem order
          ((mem_resting order.side).mpr (Or.inr inOpposite)))
        rw [← placed]
        exact valid.mem_ladder inResting
      cases newPrice with
      | none => exact valid.apart order.side order (valid.mem_ladder member) other inBook
      | some price => exact valid.apart_of_best (clear price rfl) other inBook
  exact ⟨cancelledValid.insertOrder restable, frame.trans insertOrder_frame, sameId, sameTrader,
    sameReduceOnly, cancelled.resting, perm, insertOrder_resting⟩

theorem Valid.modifyOrder (valid : book.Valid) (member : order ∈ book.resting)
    (newPrice newQty : Option Int)
    (clear : ∀ price, newPrice = some price → ∀ best,
      (book.ladder order.side.opposite).best = some best → Apart order.side price best)
    (positive : ∀ qty, newQty = some qty → 0 < qty) :
    ∃ after new, book.modifyOrder order.id newPrice newQty = (after, .ok new) ∧
      new.remainingQty = newQty.getD order.remainingQty ∧ Replaced book after order new := by
  obtain ⟨cancelled, removed, replaced⟩ := valid.reinsert member newPrice newQty clear positive
  have remaining := (replacement_same order newPrice newQty).2.2.2.2.2.2
  cases newPrice with
  | some price =>
    refine ⟨_, _, ?_, remaining, replaced⟩
    cases newQty <;> simp only [Book.modifyOrder, removed] <;> rfl
  | none =>
    cases newQty with
    | none =>
      refine ⟨_, _, ?_, remaining, replaced⟩
      simp only [Book.modifyOrder, removed]
      rfl
    | some qty =>
      by_cases smaller : qty < order.remainingQty
      · obtain ⟨after, changed, replaced⟩ :=
          valid.modifyOrder_shrink member (positive qty rfl) smaller
        exact ⟨after, _, changed, rfl, replaced⟩
      · refine ⟨_, _, ?_, remaining, replaced⟩
        obtain ⟨queue, position, level, positioned, located⟩ := valid.locate member
        simp only [Book.modifyOrder, valid.orderIndex member, level, positioned, located,
          Option.bind_some, Option.map_some, smaller, and_false, if_false, removed]
        rfl

theorem Valid.modifyOrder_absent (valid : book.Valid) (newPrice newQty : Option Int)
    (absent : id ∉ book.resting.map Order.id) :
    book.modifyOrder id newPrice newQty = (book, .error (.orderNotFound id)) := by
  cases newPrice <;> cases newQty <;>
    simp only [Book.modifyOrder, valid.cancelOrder_absent absent, valid.orderIndex_none absent]

end Modify

end Book

end TorusHyperBft.OrderBook
