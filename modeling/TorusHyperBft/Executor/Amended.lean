import TorusHyperBft.Executor.Modified

namespace TorusHyperBft.Executor

open FixedPoint OrderBook
open Account (NativeBalance)

/-! What a modification leaves of the book, before the sweep of the sender's reduce-only orders and
after it. -/

/-- A book in which one order has new terms.  The order keeps its place, or takes the last. -/
structure Amended (book : Book) (old : Order) (price qty : Int) (changed : Book) (new : Order) :
    Prop where
  valid : changed.Valid
  member : new ∈ changed.resting
  id : new.id = old.id
  trader : new.trader = old.trader
  side : new.side = old.side
  cloid : new.clientOrderId = old.clientOrderId
  reduceOnly : new.reduceOnly = old.reduceOnly
  newPrice : new.price = price
  remaining : new.remainingQty = qty
  others : ∀ order : Order, order.id ≠ old.id → (order ∈ changed.resting ↔ order ∈ book.resting)
  othersPlace : ∀ id, id ≠ old.id → changed.indexes.orderSeq id = book.indexes.orderSeq id
  place : price = old.price ∧ qty ≤ old.remainingQty →
    changed.indexes.orderSeq old.id = book.indexes.orderSeq old.id
  last : ¬ (price = old.price ∧ qty ≤ old.remainingQty) →
    changed.indexes.orderSeq old.id = some book.nextSeq

section Amended

variable {book changed last : Book} {old new : Order} {price qty : Int} {sender : Address}
  {cuts : List ReduceOnlyCut}

theorem Amended.nothing (valid : book.Valid) (member : old ∈ book.resting) :
    Amended book old old.price old.remainingQty book old where
  valid := valid
  member := member
  id := rfl
  trader := rfl
  side := rfl
  cloid := rfl
  reduceOnly := rfl
  newPrice := rfl
  remaining := rfl
  others _ _ := Iff.rfl
  othersPlace _ _ := rfl
  place _ := rfl
  last moved := absurd ⟨rfl, Int.le_refl _⟩ moved

theorem amended_of_modifyOrder (valid : book.Valid) (member : old ∈ book.resting)
    (changes : ¬ (price = old.price ∧ qty = old.remainingQty)) (positive : 0 < qty)
    (clear : ∀ best, (book.ladder old.side.opposite).best = some best →
      Apart old.side price best) :
    ∃ changed new, book.modifyOrder old.id (if price ≠ old.price then some price else none)
        (if qty ≠ old.remainingQty then some qty else none) = (changed, .ok new) ∧
      Amended book old price qty changed new := by
  obtain ⟨changed, new, modified, reworked⟩ := valid.modifyOrder_reworked member
    (if price ≠ old.price then some price else none)
    (if qty ≠ old.remainingQty then some qty else none)
    (fun newPrice given => by
      split at given
      · cases given
        exact clear
      · contradiction)
    (fun newQty given => by
      split at given
      · cases given
        exact positive
      · contradiction)
  have inPlace : Book.InPlace old (if price ≠ old.price then some price else none)
      (if qty ≠ old.remainingQty then some qty else none) ↔
      price = old.price ∧ qty ≤ old.remainingQty := by
    unfold Book.InPlace
    by_cases samePrice : price = old.price
    · by_cases sameQty : qty = old.remainingQty
      · exact absurd ⟨samePrice, sameQty⟩ changes
      · simp [samePrice, sameQty]
        omega
    · simp [samePrice]
  obtain ⟨others, before, after⟩ := reworked.replaced.resting
  have newPrice : new.price = price := by
    rw [reworked.price]
    split
    · rfl
    · rename_i same
      exact (not_not.mp same).symm
  have remaining : new.remainingQty = qty := by
    rw [reworked.remaining]
    split
    · rfl
    · rename_i same
      exact (not_not.mp same).symm
  refine ⟨changed, new, modified, reworked.replaced.valid, after.mem_iff.mpr List.mem_cons_self,
    reworked.replaced.sameId, reworked.replaced.sameTrader, reworked.side, reworked.cloid,
    reworked.replaced.sameReduceOnly, newPrice, remaining, fun order other => ?_, reworked.others,
    fun kept => reworked.inPlace (inPlace.mpr kept),
    fun moved => reworked.atBack fun kept => moved (inPlace.mp kept)⟩
  rw [before.mem_iff, after.mem_iff, List.mem_cons, List.mem_cons]
  have notNew : order ≠ new := fun same => other (same ▸ reworked.replaced.sameId)
  have notOld : order ≠ old := fun same => other (same ▸ rfl)
  simp [notNew, notOld]

/-- The book after the sweep.  Only orders of the sender that may only reduce are cut, the modified
order perhaps among them. -/
structure Revised (book : Book) (sender : Address) (old : Order) (price qty : Int) (last : Book)
    (cuts : List ReduceOnlyCut) : Prop where
  valid : last.Valid
  uncrossed : ∀ bid ask, last.bestBid = some bid → last.bestAsk = some ask → bid < ask
  terms : ∀ order ∈ last.resting, order.id = old.id → order.trader = old.trader ∧
    order.side = old.side ∧ order.clientOrderId = old.clientOrderId ∧ order.price = price
  rests : old.id ∉ cuts.map ReduceOnlyCut.orderId →
    old.id ∈ last.resting.map Order.id ∧ last.leftOf old.id = qty
  others : ∀ order : Order, order.trader ≠ sender → (order ∈ last.resting ↔ order ∈ book.resting)
  cutOnce : (cuts.map ReduceOnlyCut.orderId).Nodup
  uncut : ∀ order : Order, order.id ≠ old.id → order.id ∉ cuts.map ReduceOnlyCut.orderId →
    (order ∈ last.resting ↔ order ∈ book.resting)
  cut : ∀ cut ∈ cuts, ∃ order ∈ book.resting, order.id = cut.orderId ∧ order.trader = sender ∧
    order.reduceOnly = true ∧ 0 < cut.qty ∧
    (cut.price, last.leftOf cut.orderId + cut.qty) =
      if cut.orderId = old.id then (price, qty) else (order.price, order.remainingQty)
  /-- Every other order keeps its place, and the order does where its price stays and its quantity
  does not grow. -/
  othersPlace : ∀ order ∈ last.resting, order.id ≠ old.id →
    last.indexes.orderSeq order.id = book.indexes.orderSeq order.id
  place : ∀ order ∈ last.resting, order.id = old.id →
    (last.indexes.orderSeq old.id = book.indexes.orderSeq old.id ↔
      price = old.price ∧ qty ≤ old.remainingQty)
  behind : ¬ (price = old.price ∧ qty ≤ old.remainingQty) → ∀ order ∈ last.resting,
    order.id = old.id → ∀ other ∈ last.resting, other.id ≠ old.id →
      SeqBefore last.indexes.orderSeq other order

theorem Amended.revised (amended : Amended book old price qty changed new) (valid : book.Valid)
    (member : old ∈ book.resting) (owner : old.trader = sender)
    (recut : Recut sender changed last cuts) : Revised book sender old price qty last cuts := by
  have left : changed.leftOf old.id = qty := by
    unfold Book.leftOf
    rw [amended.valid.getOrder_iff.mpr ⟨amended.member, amended.id⟩]
    exact amended.remaining
  have source : ∀ order ∈ last.resting, order.id = old.id → order.terms = new.terms := by
    intro order inLast same
    obtain ⟨early, inChanged, terms, _⟩ := recut.shrinks order inLast
    have sameId : early.id = new.id := (Order.terms_id terms).trans (same.trans amended.id.symm)
    rw [← terms, amended.valid.eq_of_id inChanged amended.member sameId]
  have nextSeq : ∀ id seq, book.indexes.orderSeq id = some seq → seq < book.nextSeq :=
    valid.covers.bounded
  have oldSeq : book.indexes.orderSeq old.id ≠ some book.nextSeq := fun same =>
    Nat.lt_irrefl _ (nextSeq _ _ same)
  refine ⟨recut.valid, recut.valid.represented.uncrossed, fun order inLast same => ?_, fun uncut => ?_,
    fun order other => ?_, recut.nodup, fun order other uncut => ?_, fun cut inCuts => ?_,
    fun order inLast other => ?_, fun order inLast same => ?_,
    fun moved order inLast same other otherLast different => ?_⟩
  · have terms := source order inLast same
    exact ⟨(Order.terms_trader terms).trans amended.trader, (Order.terms_side terms).trans amended.side,
      (congrArg Key.cloid (Order.terms_key terms)).trans amended.cloid,
      (Order.terms_price terms).trans amended.newPrice⟩
  · have stays := recut.kept new amended.member (by rw [amended.id]; exact uncut)
    refine ⟨List.mem_map.mpr ⟨new, stays, amended.id⟩, ?_⟩
    unfold Book.leftOf
    rw [recut.valid.getOrder_iff.mpr ⟨stays, amended.id⟩]
    exact amended.remaining
  · rw [recut.others amended.valid other]
    by_cases same : order.id = old.id
    · have notChanged : order ∉ changed.resting := fun inChanged => other (by
        rw [amended.valid.eq_of_id inChanged amended.member (same.trans amended.id.symm),
          amended.trader, owner])
      have notBook : order ∉ book.resting := fun inBook => other (by
        rw [valid.eq_of_id inBook member same, owner])
      exact iff_of_false notChanged notBook
    · exact amended.others order same
  · rw [← amended.others order other]
    exact ⟨fun inLast => recut.untouched inLast uncut, fun inChanged => recut.kept order inChanged uncut⟩
  · obtain ⟨order, inChanged, sameId, trader, reduceOnly, cutPrice, positive, whole⟩ :=
      recut.cut cut inCuts
    by_cases same : cut.orderId = old.id
    · have isNew : order = new := amended.valid.eq_of_id inChanged amended.member
        (sameId.trans (same.trans amended.id.symm))
      subst isNew
      refine ⟨old, member, same.symm, owner, amended.reduceOnly ▸ reduceOnly, positive, ?_⟩
      rw [if_pos same, ← whole, ← cutPrice, amended.newPrice, amended.remaining]
    · refine ⟨order, (amended.others order (sameId ▸ same)).mp inChanged, sameId, trader, reduceOnly,
        positive, ?_⟩
      rw [if_neg same, ← whole, cutPrice]
  · rw [recut.seq order.id (List.mem_map_of_mem inLast), amended.othersPlace order.id other]
  · rw [recut.seq old.id (List.mem_map.mpr ⟨order, inLast, same⟩)]
    constructor
    · intro kept
      by_contra moved
      rw [amended.last moved] at kept
      exact oldSeq kept.symm
    · exact amended.place
  · intro earlier later earlierSeq laterSeq
    rw [recut.seq other.id (List.mem_map_of_mem otherLast),
      amended.othersPlace other.id different] at earlierSeq
    rw [same, recut.seq old.id (List.mem_map.mpr ⟨order, inLast, same⟩), amended.last moved] at laterSeq
    cases laterSeq
    exact nextSeq _ _ earlierSeq

end Amended

end TorusHyperBft.Executor
