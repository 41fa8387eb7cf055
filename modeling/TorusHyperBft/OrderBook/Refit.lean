import TorusHyperBft.OrderBook.Placed

namespace TorusHyperBft.OrderBook

open List

/-! Changing an order, and re-fitting a trader's reduce-only orders: who keeps which place, and what
each cut takes. -/

namespace Book

section Seq

variable {book after : Book} {order : Order}

theorem Valid.cancelOrder_seq (valid : book.Valid) (member : order ∈ book.resting) :
    (book.cancelOrder order.id).1.indexes.orderSeq =
        Function.update book.indexes.orderSeq order.id none ∧
      (book.cancelOrder order.id).1.nextSeq = book.nextSeq := by
  obtain ⟨queue, position, level, located, cancelled⟩ := valid.cancelOrder_eq member
  obtain ⟨indexes, nextSeq⟩ := without_indexes book order (queue.eraseIdx position)
  rw [cancelled]
  exact ⟨by rw [indexes, forget_orderSeq], nextSeq⟩

theorem insertOrder_seq (book : Book) (order : Order) :
    (book.insertOrder order).indexes.orderSeq =
      Function.update book.indexes.orderSeq order.id (some book.nextSeq) := by
  have same : (book.indexes.indexCloid order.trader order.clientOrderId order.id).orderSeq =
      book.indexes.orderSeq := by
    unfold Indexes.indexCloid
    cases order.clientOrderId <;> rfl
  unfold Book.insertOrder
  dsimp only
  rw [same]
  cases order.side <;> rfl

theorem Valid.shrink_seq (valid : book.Valid) (member : order ∈ book.resting) {qty : Int}
    (positive : 0 < qty) (smaller : qty < order.remainingQty) :
    (book.modifyOrder order.id none (some qty)).1.indexes = book.indexes := by
  obtain ⟨queue, position, level, positioned, located⟩ := valid.locate member
  simp only [Book.modifyOrder, valid.orderIndex member, level, positioned, located, Option.bind_some,
    Option.map_some, if_pos (And.intro positive smaller)]
  exact setLadder_indexes.1

/-- A smaller quantity at the same price. -/
def InPlace (order : Order) (newPrice newQty : Option Int) : Prop :=
  newPrice = none ∧ ∃ qty, newQty = some qty ∧ qty < order.remainingQty

/-- What a modification leaves: the order in its new terms, in place or at the back. -/
structure Reworked (book : Book) (order : Order) (newPrice newQty : Option Int) (after : Book)
    (new : Order) : Prop where
  replaced : Replaced book after order new
  side : new.side = order.side
  cloid : new.clientOrderId = order.clientOrderId
  price : new.price = newPrice.getD order.price
  remaining : new.remainingQty = newQty.getD order.remainingQty
  others : ∀ id, id ≠ order.id → after.indexes.orderSeq id = book.indexes.orderSeq id
  inPlace : InPlace order newPrice newQty →
    after.indexes.orderSeq order.id = book.indexes.orderSeq order.id
  atBack : ¬ InPlace order newPrice newQty →
    after.indexes.orderSeq order.id = some book.nextSeq

theorem Valid.modifyOrder_reworked (valid : book.Valid) (member : order ∈ book.resting)
    (newPrice newQty : Option Int)
    (clear : ∀ price, newPrice = some price → ∀ best,
      (book.ladder order.side.opposite).best = some best → Apart order.side price best)
    (positive : ∀ qty, newQty = some qty → 0 < qty) :
    ∃ after new, book.modifyOrder order.id newPrice newQty = (after, .ok new) ∧
      Reworked book order newPrice newQty after new := by
  by_cases inPlace : InPlace order newPrice newQty
  · obtain ⟨rfl, qty, rfl, smaller⟩ := inPlace
    obtain ⟨after, changed, replaced⟩ :=
      valid.modifyOrder_shrink member (positive qty rfl) smaller
    have indexes := valid.shrink_seq member (positive qty rfl) smaller
    rw [changed] at indexes
    dsimp only at indexes
    exact ⟨after, _, changed, replaced, rfl, rfl, rfl, rfl, fun id _ => by rw [indexes],
      fun _ => by rw [indexes], fun moved => absurd ⟨rfl, qty, rfl, smaller⟩ moved⟩
  · obtain ⟨cancelled, removed, replaced⟩ := valid.reinsert member newPrice newQty clear positive
    obtain ⟨sameId, _, sameSide, _, sameCloid, samePrice, remaining⟩ :=
      replacement_same order newPrice newQty
    obtain ⟨seq, nextSeq⟩ := valid.cancelOrder_seq member
    rw [removed] at seq nextSeq
    have inserted := insertOrder_seq cancelled (replacement order newPrice newQty)
    rw [sameId] at inserted
    dsimp only at seq nextSeq
    have changed : book.modifyOrder order.id newPrice newQty =
        (cancelled.insertOrder (replacement order newPrice newQty),
          .ok (replacement order newPrice newQty)) := by
      cases newPrice with
      | some price => cases newQty <;> simp only [Book.modifyOrder, removed] <;> rfl
      | none =>
        cases newQty with
        | none =>
          simp only [Book.modifyOrder, removed]
          rfl
        | some qty =>
          have larger : ¬ qty < order.remainingQty := fun smaller =>
            inPlace ⟨rfl, qty, rfl, smaller⟩
          obtain ⟨queue, position, level, positioned, located⟩ := valid.locate member
          simp only [Book.modifyOrder, valid.orderIndex member, level, positioned, located,
            Option.bind_some, Option.map_some, larger, and_false, if_false, removed]
          rfl
    refine ⟨_, _, changed, replaced, sameSide, sameCloid, samePrice, remaining, fun id other => ?_,
      fun kept => absurd kept inPlace, fun _ => ?_⟩
    · rw [inserted, Function.update_of_ne other, seq, Function.update_of_ne other]
    · rw [inserted, Function.update_self, nextSeq]

end Seq

end Book

def Book.leftOf (book : Book) (id : Nat) : Int := ((book.getOrder id).map Order.remainingQty).getD 0

/-- A sweep of one trader's reduce-only orders.  Each cut is of another order, and takes what the order
has lost. -/
structure Recut (trader : Address) (before after : Book) (cuts : List ReduceOnlyCut) : Prop where
  valid : after.Valid
  frame : Book.Frame before after
  nodup : (cuts.map ReduceOnlyCut.orderId).Nodup
  cut : ∀ cut ∈ cuts, ∃ order ∈ before.resting, order.id = cut.orderId ∧ order.trader = trader ∧
    order.reduceOnly = true ∧ order.price = cut.price ∧ 0 < cut.qty ∧
    order.remainingQty = after.leftOf cut.orderId + cut.qty
  kept : ∀ order ∈ before.resting, order.id ∉ cuts.map ReduceOnlyCut.orderId → order ∈ after.resting
  shrinks : Shrinks before.resting after.resting
  seq : ∀ id ∈ after.resting.map Order.id, after.indexes.orderSeq id = before.indexes.orderSeq id

namespace Recut

variable {trader : Address} {before after : Book} {cuts : List ReduceOnlyCut}

theorem nothing (valid : before.Valid) : Recut trader before before [] where
  valid := valid
  frame := .refl _
  nodup := nodup_nil
  cut _ member := absurd member not_mem_nil
  kept _ member _ := member
  shrinks := .refl _
  seq _ _ := rfl

theorem untouched (recut : Recut trader before after cuts) {order : Order}
    (member : order ∈ after.resting) (uncut : order.id ∉ cuts.map ReduceOnlyCut.orderId) :
    order ∈ before.resting := by
  obtain ⟨old, inBefore, same, _⟩ := recut.shrinks order member
  have stays := recut.kept old inBefore (by rw [Order.terms_id same]; exact uncut)
  rw [← recut.valid.eq_of_id stays member (Order.terms_id same)]
  exact inBefore

theorem others (recut : Recut trader before after cuts) (valid : before.Valid) {order : Order}
    (other : order.trader ≠ trader) : order ∈ after.resting ↔ order ∈ before.resting := by
  have uncut : ∀ order : Order, order ∈ before.resting → order.trader ≠ trader →
      order.id ∉ cuts.map ReduceOnlyCut.orderId := by
    intro order inBefore different named
    obtain ⟨cut, member, same⟩ := mem_map.mp named
    obtain ⟨own, ownMember, sameId, sameTrader, _⟩ := recut.cut cut member
    rw [valid.eq_of_id ownMember inBefore (sameId.trans same)] at sameTrader
    exact different sameTrader
  constructor
  · intro inAfter
    obtain ⟨old, inBefore, same, _⟩ := recut.shrinks order inAfter
    have apart := uncut old inBefore (by
      rw [Order.terms_trader same]
      exact other)
    rw [Order.terms_id same] at apart
    exact recut.untouched inAfter apart
  · exact fun inBefore => recut.kept order inBefore (uncut order inBefore other)

theorem refit (recut : Recut trader before after cuts) {last : Book} {order : Order} {keep : Int}
    (member : order ∈ after.resting) (own : order.trader = trader)
    (reduceOnly : order.reduceOnly = true) (uncut : order.id ∉ cuts.map ReduceOnlyCut.orderId)
    (less : keep < order.remainingQty) (valid : last.Valid) (frame : Book.Frame after last)
    (refitted : Refitted after last order keep)
    (seq : ∀ id ∈ last.resting.map Order.id,
      last.indexes.orderSeq id = after.indexes.orderSeq id) :
    Recut trader before last
      (cuts ++ [⟨order.id, trader, order.price, order.remainingQty - keep⟩]) := by
  have shrinks := refitted.shrinks (Int.le_of_lt less)
  obtain ⟨others, old, new⟩ := refitted
  have nodup := recut.valid.nodup
  rw [(old.map Order.id).nodup_iff, map_cons, nodup_cons] at nodup
  have stays : ∀ other ∈ after.resting, other.id ≠ order.id → other ∈ last.resting := by
    intro other inAfter different
    have inOthers : other ∈ others :=
      (mem_cons.mp (old.mem_iff.mp inAfter)).resolve_left fun same => different (same ▸ rfl)
    rw [new.mem_iff]
    split
    · exact inOthers
    · exact mem_cons_of_mem _ inOthers
  have left : last.leftOf order.id = keep := by
    unfold Book.leftOf
    by_cases gone : keep = 0
    · rw [if_pos gone] at new
      have absent : order.id ∉ last.resting.map Order.id := by
        rw [(new.map Order.id).mem_iff]
        exact nodup.1
      rw [valid.getOrder_none absent, gone]
      rfl
    · rw [if_neg gone] at new
      rw [valid.getOrder_iff.mpr ⟨new.mem_iff.mpr mem_cons_self, rfl⟩]
      rfl
  have elsewhere : ∀ id, id ≠ order.id → last.leftOf id = after.leftOf id := by
    intro id different
    have same : last.getOrder id = after.getOrder id := by
      refine Option.ext fun other => ?_
      rw [valid.getOrder_iff, recut.valid.getOrder_iff]
      constructor
      · rintro ⟨inLast, rfl⟩
        refine ⟨?_, rfl⟩
        rw [new.mem_iff] at inLast
        split at inLast
        · exact old.mem_iff.mpr (mem_cons_of_mem _ inLast)
        · rcases mem_cons.mp inLast with rfl | inOthers
          · exact absurd rfl different
          · exact old.mem_iff.mpr (mem_cons_of_mem _ inOthers)
      · rintro ⟨inAfter, rfl⟩
        exact ⟨stays other inAfter different, rfl⟩
    rw [Book.leftOf, Book.leftOf, same]
  refine ⟨valid, recut.frame.trans frame, ?_, fun cut inCuts => ?_, fun other inBefore apart => ?_,
    recut.shrinks.trans shrinks, fun id inLast => ?_⟩
  · rw [map_append, nodup_append]
    refine ⟨recut.nodup, nodup_singleton _, fun id inCuts other single same => uncut ?_⟩
    rw [map_singleton, mem_singleton] at single
    rw [same, single] at inCuts
    exact inCuts
  · rcases mem_append.mp inCuts with early | now
    · obtain ⟨cutOrder, inBefore, sameId, rest⟩ := recut.cut cut early
      refine ⟨cutOrder, inBefore, sameId, ?_⟩
      rw [elsewhere cut.orderId fun same => uncut (same ▸ mem_map_of_mem early)]
      exact rest
    · rw [mem_singleton.mp now]
      refine ⟨order, recut.untouched member uncut, rfl, own, reduceOnly, rfl, ?_, ?_⟩
      · exact Int.sub_pos_of_lt less
      · dsimp only
        rw [left]
        omega
  · rw [map_append, mem_append, not_or, map_singleton, mem_singleton] at apart
    exact stays other (recut.kept other inBefore apart.1) apart.2
  · rw [seq id inLast]
    exact recut.seq id (shrinks.ids inLast)

end Recut

theorem sweepOrder_seq {sweep : Sweep} (valid : sweep.book.Valid) (trader : Address)
    (reducesBuy : Bool) (id : Nat) :
    ∀ other ∈ (sweepOrder trader reducesBuy sweep id).book.resting.map Order.id,
      (sweepOrder trader reducesBuy sweep id).book.indexes.orderSeq other =
        sweep.book.indexes.orderSeq other := by
  by_cases rests : id ∈ sweep.book.resting.map Order.id
  · obtain ⟨order, member, rfl⟩ := mem_map.mp rests
    have found : sweep.book.getOrder order.id = some order := valid.getOrder_iff.mpr ⟨member, rfl⟩
    obtain ⟨nonneg, bounded⟩ :=
      @sweepKeep_bounds reducesBuy sweep.budget order (valid.positive member)
    unfold sweepOrder
    rw [found]
    dsimp only
    generalize sweepKeep reducesBuy sweep.budget order = keep at *
    by_cases whole : keep = order.remainingQty
    · rw [if_pos whole]
      exact fun _ _ => rfl
    · rw [if_neg whole]
      by_cases gone : keep = 0
      · obtain ⟨after, cancelled, perm, _, _⟩ := valid.cancelOrder member
        obtain ⟨seq, _⟩ := valid.cancelOrder_seq member
        rw [cancelled] at seq
        rw [if_pos gone, cancelled]
        intro other left
        have nodup := valid.nodup
        rw [(perm.map Order.id).nodup_iff, map_cons, nodup_cons] at nodup
        have different : other ≠ order.id := fun same => nodup.1 (same ▸ left)
        exact (congrFun seq other).trans (Function.update_of_ne different _ _)
      · have indexes := valid.shrink_seq member (show 0 < keep by omega)
          (show keep < order.remainingQty by omega)
        obtain ⟨after, changed, _⟩ :=
          valid.modifyOrder_shrink member (show 0 < keep by omega)
            (show keep < order.remainingQty by omega)
        rw [changed] at indexes
        rw [if_neg gone, changed]
        exact fun other _ => congrArg (fun indexes : Indexes => indexes.orderSeq other) indexes
  · rw [sweepOrder_absent valid rests]
    exact fun _ _ => rfl

theorem Recut.sweepOrders {trader : Address} {before : Book} {sweep : Sweep} (reducesBuy : Bool)
    {ids : List Nat} (nodup : ids.Nodup) (recut : Recut trader before sweep.book sweep.cuts)
    (uncut : ∀ id ∈ ids, id ∉ sweep.cuts.map ReduceOnlyCut.orderId)
    (own : ∀ id ∈ ids, ∀ order ∈ sweep.book.resting, order.id = id →
      order.trader = trader ∧ order.reduceOnly = true) :
    Recut trader before (ids.foldl (sweepOrder trader reducesBuy) sweep).book
      (ids.foldl (sweepOrder trader reducesBuy) sweep).cuts := by
  induction ids generalizing sweep with
  | nil => exact recut
  | cons id ids ih =>
    obtain ⟨fresh, rest⟩ := nodup_cons.mp nodup
    have step : Recut trader before (sweepOrder trader reducesBuy sweep id).book
          (sweepOrder trader reducesBuy sweep id).cuts ∧
        ∀ other ∈ (sweepOrder trader reducesBuy sweep id).cuts.map ReduceOnlyCut.orderId,
          other = id ∨ other ∈ sweep.cuts.map ReduceOnlyCut.orderId := by
      by_cases rests : id ∈ sweep.book.resting.map Order.id
      · obtain ⟨order, member, rfl⟩ := mem_map.mp rests
        obtain ⟨ownTrader, reduceOnly⟩ := own order.id mem_cons_self order member rfl
        obtain ⟨swept, _, refitted⟩ := sweepOrder_present recut.valid member trader reducesBuy
        obtain ⟨nonneg, bounded⟩ :=
          @sweepKeep_bounds reducesBuy sweep.budget order (recut.valid.positive member)
        have seq := sweepOrder_seq recut.valid trader reducesBuy order.id
        by_cases whole : sweepKeep reducesBuy sweep.budget order = order.remainingQty
        · have found : sweep.book.getOrder order.id = some order :=
            recut.valid.getOrder_iff.mpr ⟨member, rfl⟩
          have idle : (sweepOrder trader reducesBuy sweep order.id).book = sweep.book ∧
              (sweepOrder trader reducesBuy sweep order.id).cuts = sweep.cuts := by
            unfold sweepOrder
            rw [found]
            dsimp only
            rw [if_pos whole]
            exact ⟨rfl, rfl⟩
          rw [idle.1, idle.2]
          exact ⟨recut, fun other named => Or.inr named⟩
        · have less : sweepKeep reducesBuy sweep.budget order < order.remainingQty := by omega
          have cuts : (sweepOrder trader reducesBuy sweep order.id).cuts = sweep.cuts ++
              [⟨order.id, trader, order.price,
                order.remainingQty - sweepKeep reducesBuy sweep.budget order⟩] := by
            have found : sweep.book.getOrder order.id = some order :=
              recut.valid.getOrder_iff.mpr ⟨member, rfl⟩
            unfold sweepOrder
            rw [found]
            dsimp only
            rw [if_neg whole]
            by_cases gone : sweepKeep reducesBuy sweep.budget order = 0
            · obtain ⟨after, cancelled, _⟩ := recut.valid.cancelOrder member
              rw [if_pos gone, cancelled]
            · obtain ⟨after, changed, _⟩ := recut.valid.modifyOrder_shrink member
                (show 0 < sweepKeep reducesBuy sweep.budget order by omega) less
              rw [if_neg gone, changed]
          rw [cuts]
          refine ⟨recut.refit member ownTrader reduceOnly
            (uncut order.id mem_cons_self) less swept.valid swept.frame refitted seq,
            fun other named => ?_⟩
          rw [map_append, mem_append, map_singleton, mem_singleton] at named
          exact named.symm
      · rw [sweepOrder_absent recut.valid rests]
        exact ⟨recut, fun other named => Or.inr named⟩
    have swept := sweepOrder_swept recut.valid trader reducesBuy id
    refine ih rest step.1 (fun other later named => ?_) fun other later order inAfter same => ?_
    · rcases step.2 other named with rfl | early
      · exact fresh later
      · exact uncut other (mem_cons_of_mem _ later) early
    · obtain ⟨old, inBook, terms, _⟩ := swept.shrinks order inAfter
      obtain ⟨trader, reduceOnly⟩ := own other (mem_cons_of_mem _ later) old inBook
        ((Order.terms_id terms).trans same)
      exact ⟨(Order.terms_trader terms).symm.trans trader,
        (Order.terms_reduceOnly terms).symm.trans reduceOnly⟩

theorem Book.Valid.sweepReduceOnlyAt_recut {book : Book} (valid : book.Valid) (trader : Address)
    (signedPos : Int) :
    Recut trader book (book.sweepReduceOnlyAt trader signedPos).1
      (book.sweepReduceOnlyAt trader signedPos).2 := by
  obtain ⟨policed, same⟩ : ∃ policed : Book, policed = { book with
      reduceOnlyPositions := ({} : ReduceOnlyPositions).insert trader signedPos } := ⟨_, rfl⟩
  have policedValid : policed.Valid := same ▸ valid.congr rfl rfl rfl rfl rfl rfl
  have swept : Recut trader policed (policed.sweepReduceOnly trader []).1
      (policed.sweepReduceOnly trader []).2.1 := by
    unfold Book.sweepReduceOnly
    cases policed.reduceOnlyPositions.get trader with
    | none => exact .nothing policedValid
    | some position =>
      refine @Recut.sweepOrders trader policed ⟨policed, [], _⟩ _ _
        ((policedValid.ascending trader).imp Nat.ne_of_lt) (.nothing policedValid)
        (fun _ _ => not_mem_nil) fun id listed order member same => ?_
      obtain ⟨found, inResting, foundId, foundTrader, reduceOnly⟩ :=
        (policedValid.reduceOnly trader id).mp listed
      rw [policedValid.eq_of_id member inResting (same.trans foundId.symm)]
      exact ⟨foundTrader, reduceOnly⟩
  have whole : book.sweepReduceOnlyAt trader signedPos =
      ({ (policed.sweepReduceOnly trader []).1 with
          reduceOnlyPositions := book.reduceOnlyPositions },
        (policed.sweepReduceOnly trader []).2.1) := by
    rw [same]
    rfl
  rw [whole]
  generalize policed.sweepReduceOnly trader [] = result at swept
  obtain ⟨after, cuts, spare⟩ := result
  subst same
  obtain ⟨marketId, tickSize, lotSize, nextId, stops, lastTrade, _, margins⟩ := swept.frame
  exact ⟨swept.valid.congr rfl rfl rfl rfl rfl rfl,
    ⟨marketId, tickSize, lotSize, nextId, stops, lastTrade, rfl, margins⟩, swept.nodup, swept.cut,
    swept.kept, swept.shrinks, swept.seq⟩

end TorusHyperBft.OrderBook
