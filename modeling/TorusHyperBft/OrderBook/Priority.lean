import TorusHyperBft.OrderBook.Conservation

namespace TorusHyperBft.OrderBook

open List

/-! Price-time priority of the fills of a placement. -/

/-- On one side, an order at this price and of this id is matched before that one. -/
def Ahead (side : Side) (orderSeq : Nat → Option Nat) (price : Int) (id : Nat) (otherPrice : Int)
    (other : Nat) : Prop :=
  betterPrice side price otherPrice = true ∨
    (price = otherPrice ∧ ∃ earlier later, orderSeq id = some earlier ∧
      orderSeq other = some later ∧ earlier < later)

theorem Ahead.asymm {side : Side} {orderSeq : Nat → Option Nat} {price otherPrice : Int}
    {id other : Nat} (first : Ahead side orderSeq price id otherPrice other) :
    ¬ Ahead side orderSeq otherPrice other price id := by
  rintro (better | ⟨same, earlier, later, foundEarlier, foundLater, less⟩)
  · rcases first with worse | ⟨same, _⟩
    · cases side <;> simp only [betterPrice, decide_eq_true_eq] at * <;> omega
    · cases side <;> simp only [betterPrice, decide_eq_true_eq] at * <;> omega
  · rcases first with worse | ⟨_, earlier', later', foundEarlier', foundLater', less'⟩
    · cases side <;> simp only [betterPrice, decide_eq_true_eq] at * <;> omega
    · rw [foundEarlier'] at foundLater
      rw [foundLater'] at foundEarlier
      cases foundLater
      cases foundEarlier
      omega

theorem LadderWf.pairwise_ahead {side : Side} {orderSeq : Nat → Option Nat} {ladder : Ladder}
    (wf : LadderWf side orderSeq ladder)
    (sequenced : ∀ order ∈ ladder.orders, (orderSeq order.id).isSome) :
    ladder.orders.Pairwise fun first second =>
      Ahead side orderSeq first.price first.id second.price second.id := by
  induction ladder with
  | nil => exact List.Pairwise.nil
  | cons level rest ih =>
    obtain ⟨nonempty, placed, positive, ordered⟩ := wf.levels level mem_cons_self
    rw [Ladder.orders_cons] at sequenced ⊢
    refine pairwise_append.mpr ⟨?_, ih wf.tail fun order member =>
      sequenced order (mem_append_right _ member), ?_⟩
    · refine ordered.imp_of_mem fun {first second} firstMember secondMember before => ?_
      obtain ⟨earlier, foundEarlier⟩ := Option.isSome_iff_exists.mp
        (sequenced first (mem_append_left _ firstMember))
      obtain ⟨later, foundLater⟩ := Option.isSome_iff_exists.mp
        (sequenced second (mem_append_left _ secondMember))
      refine Or.inr ⟨?_, earlier, later, foundEarlier, foundLater,
        before earlier later foundEarlier foundLater⟩
      rw [(placed first firstMember).2, (placed second secondMember).2]
    · intro first firstMember second secondMember
      obtain ⟨other, inRest, inQueue⟩ := Ladder.mem_orders.mp secondMember
      rw [(placed first firstMember).2,
        ((wf.levels other (mem_cons_of_mem _ inRest)).placed second inQueue).2]
      exact Or.inl ((pairwise_cons.mp wf.sorted).1 other inRest)

namespace Book

/-- Order and completeness of the fills of a placement. -/
structure Prioritised (book : Book) (placement : Placement) (after : Book) (result : PlaceResult) :
    Prop where
  inOrder : result.fills.Pairwise fun first second =>
    Ahead placement.params.side.opposite book.indexes.orderSeq first.price first.makerOrderId
      second.price second.makerOrderId
  fills : ∀ fill ∈ result.fills, ∃ maker, book.getOrder fill.makerOrderId = some maker ∧
    maker.side = placement.params.side.opposite ∧ fill.maker = maker.trader ∧
    fill.taker = placement.trader ∧ fill.maker ≠ fill.taker ∧ fill.price = maker.price ∧
    withinLimit maker.side fill.price placement.params.price = true
  noneSkipped : ∀ fill ∈ result.fills, ∀ order ∈ book.resting,
    order.side = placement.params.side.opposite → order.trader ≠ placement.trader →
    Ahead order.side book.indexes.orderSeq order.price order.id fill.price fill.makerOrderId →
    after.getOrder order.id = none ∧
      (filledQty result.fills order.id = order.remainingQty ∨
        order.id ∈ result.selfTradeCancels.map Order.id ∨
        order.id ∈ result.reduceOnlyCuts.map ReduceOnlyCut.orderId ∨
        order.id ∈ result.marginCancels.map ReduceOnlyCut.orderId)

theorem Prioritised.no_fills {book after : Book} {placement : Placement} {result : PlaceResult}
    (none : result.fills = []) : Prioritised book placement after result where
  inOrder := by rw [none]; exact List.Pairwise.nil
  fills fill member := absurd (none ▸ member) not_mem_nil
  noneSkipped fill member := absurd (none ▸ member) not_mem_nil

section Matched

variable {book swept after : Book} {placement : Placement} {order : Order}
  {margin : Option MatchMargin} {ladder : Ladder} {matched : Matching} {result : PlaceResult}

theorem Valid.sequenced (valid : book.Valid) (member : order ∈ book.resting) :
    (book.indexes.orderSeq order.id).isSome := by
  rw [valid.covers.sequenced, map_map]
  exact mem_map.mpr ⟨order, member, rfl⟩

theorem Valid.pairwise_ahead (valid : book.Valid) (side : Side) :
    (book.ladder side).orders.Pairwise fun first second =>
      Ahead side book.indexes.orderSeq first.price first.id second.price second.id :=
  (valid.ladders side).pairwise_ahead fun _ member =>
    valid.sequenced ((mem_resting side).mpr (Or.inl member))

theorem Valid.fills_inOrder (valid : book.Valid) (side : Side) {fills : List Fill}
    (sublist : (fills.map Fill.makerOrderId).Sublist ((book.ladder side).orders.map Order.id))
    (priced : ∀ fill ∈ fills, ∃ maker ∈ (book.ladder side).orders,
      fill.makerOrderId = maker.id ∧ fill.price = maker.price) :
    fills.Pairwise fun first second => Ahead side book.indexes.orderSeq first.price
      first.makerOrderId second.price second.makerOrderId := by
  have byId : ((book.ladder side).orders.map Order.id).Pairwise fun first second =>
      ∀ one ∈ (book.ladder side).orders, ∀ two ∈ (book.ladder side).orders,
        one.id = first → two.id = second →
          Ahead side book.indexes.orderSeq one.price first two.price second := by
    rw [pairwise_map]
    refine (valid.pairwise_ahead side).imp_of_mem
      fun {first second} firstMember secondMember ahead one oneMember two twoMember same other => ?_
    have inResting : ∀ order ∈ (book.ladder side).orders, order ∈ book.resting :=
      fun order member => (mem_resting side).mpr (Or.inl member)
    rw [valid.eq_of_id (inResting one oneMember) (inResting first firstMember) same,
      valid.eq_of_id (inResting two twoMember) (inResting second secondMember) other]
    exact ahead
  have ordered := byId.sublist sublist
  rw [pairwise_map] at ordered
  refine ordered.imp_of_mem fun {first second} firstMember secondMember ahead => ?_
  obtain ⟨one, oneMember, sameOne, priceOne⟩ := priced first firstMember
  obtain ⟨two, twoMember, sameTwo, priceTwo⟩ := priced second secondMember
  rw [priceOne, priceTwo]
  exact ahead one oneMember two twoMember sameOne.symm sameTwo.symm

theorem Valid.gone_of_ahead (valid : book.Valid) {side : Side} {taker : Order}
    {gone rest ahead : List Order}
    (progress : Progress (book.ladder side).orders taker gone rest ahead matched)
    {fill : Fill} (filled : fill ∈ matched.fills) {maker : Order}
    (makerMember : maker ∈ (book.ladder side).orders) (named : fill.makerOrderId = maker.id)
    (member : order ∈ (book.ladder side).orders)
    (before : Ahead side book.indexes.orderSeq order.price order.id maker.price maker.id) :
    order ∈ gone := by
  have pairwise := valid.pairwise_ahead side
  have reached : maker ∈ gone ++ rest.take 1 := by
    have inIds := progress.fills_sublist.subset (mem_map_of_mem filled)
    rw [named] at inIds
    obtain ⟨same, inReached, sameId⟩ := mem_map.mp inIds
    have inLadder : same ∈ (book.ladder side).orders := by
      rw [progress.split]
      rcases mem_append.mp inReached with inGone | inFront
      · exact mem_append_left _ inGone
      · exact mem_append_right _ (mem_of_mem_take inFront)
    rw [← valid.eq_of_id ((mem_resting side).mpr (Or.inl inLadder))
      ((mem_resting side).mpr (Or.inl makerMember)) sameId]
    exact inReached
  rw [progress.split] at member pairwise
  rcases mem_append.mp member with inGone | inRest
  · exact inGone
  · exfalso
    obtain ⟨_, pairwiseRest, across⟩ := pairwise_append.mp pairwise
    rcases mem_append.mp reached with inGone | inFront
    · exact before.asymm (across maker inGone order inRest)
    · cases rest with
      | nil => exact absurd inRest not_mem_nil
      | cons front behind =>
        cases mem_singleton.mp (show maker ∈ [front] from inFront)
        rcases mem_cons.mp inRest with rfl | inBehind
        · exact before.asymm before
        · exact before.asymm ((pairwise_cons.mp pairwiseRest).1 order inBehind)

theorem Matched.prioritised (valid : book.Valid)
    (done : Matched book placement order margin ladder matched swept after result)
    (unused : order.id ∉ book.resting.map Order.id) (sameSide : order.side = placement.params.side)
    (sameTrader : order.trader = placement.trader)
    (samePrice : order.price = placement.params.price) :
    Prioritised book placement after result := by
  obtain ⟨gone, rest, progress⟩ := done.run.progress
  have fillOf : ∀ fill ∈ result.fills, ∃ maker ∈ (book.ladder order.side.opposite).orders,
      FillOf order maker fill := by
    rw [done.fills]
    exact progress.fills
  have inResting : ∀ maker ∈ (book.ladder order.side.opposite).orders, maker ∈ book.resting :=
    fun maker member => (mem_resting order.side.opposite).mpr (Or.inl member)
  refine ⟨?_, ?_, ?_⟩
  · rw [← sameSide]
    refine valid.fills_inOrder _ ?_ fun fill member => ?_
    · rw [done.fills, progress.split]
      refine progress.fills_sublist.trans (List.Sublist.map _ ?_)
      exact (List.Sublist.refl gone).append (take_sublist 1 rest)
    · obtain ⟨maker, makerMember, fillOf⟩ := fillOf fill member
      exact ⟨maker, makerMember, fillOf.makerOrderId, fillOf.price⟩
  · intro fill member
    obtain ⟨maker, makerMember, fillOf⟩ := fillOf fill member
    refine ⟨maker, ?_, ?_, fillOf.makerTrader, ?_, ?_, fillOf.price, ?_⟩
    · exact valid.getOrder_iff.mpr ⟨inResting maker makerMember, fillOf.makerOrderId.symm⟩
    · rw [← sameSide]
      exact (valid.ladders _).placed makerMember
    · rw [← sameTrader]
      exact fillOf.takerTrader
    · rw [fillOf.makerTrader, fillOf.takerTrader]
      exact fillOf.other
    · rw [fillOf.price, ← samePrice]
      exact fillOf.within
  · intro fill member resting inBook opposite others before
    obtain ⟨maker, makerMember, fillOf⟩ := fillOf fill member
    rw [← sameSide] at opposite
    have inLadder : resting ∈ (book.ladder order.side.opposite).orders := by
      rw [← opposite]
      exact valid.mem_ladder inBook
    rw [opposite, fillOf.price, fillOf.makerOrderId] at before
    have left : resting ∈ gone := valid.gone_of_ahead progress (done.fills ▸ member) makerMember
      fillOf.makerOrderId inLadder before
    have different : resting.id ≠ order.id := fun same =>
      unused (same ▸ mem_map_of_mem inBook)
    have absent : after.getOrder resting.id = none := by
      refine done.valid.getOrder_none fun rests => ?_
      rw [(done.resting.map Order.id).mem_iff] at rests
      have inSwept : resting.id ∈ swept.resting.map Order.id := by
        split at rests
        · exact rests
        · exact (mem_cons.mp rests).resolve_left different
      exact valid.gone_absent progress left (done.sweep.shrinks.ids inSwept)
    refine ⟨absent, ?_⟩
    have conserved := done.conserves valid different
    have remaining : book.remainingOf resting.id = resting.remainingQty := by
      rw [remainingOf, valid.getOrder_iff.mpr ⟨inBook, rfl⟩]
      rfl
    rw [remaining, remainingOf, absent] at conserved
    by_contra unreported
    simp only [not_or] at unreported
    obtain ⟨notFilled, notSelf, notCut, notMargin⟩ := unreported
    refine notFilled ?_
    simp only [PlaceResult.taken, cutQty, restingQty, totalFor_absent notSelf,
      totalFor_absent notCut, totalFor_absent notMargin, Option.map_none, Option.getD_none] at conserved
    omega

end Matched

/-- Fills come in price-time priority, at the makers' prices, and pass nobody over. -/
theorem placeOrder_priority {book : Book} {placement : Placement}
    (ready : book.ReadyFor placement) :
    Prioritised book placement (book.placeOrder placement).1 (book.placeOrder placement).2 := by
  have outcome := ready.placeOrder
  generalize book.placeOrder placement = placed at outcome
  obtain ⟨after, result⟩ := placed
  cases outcome with
  | rejected reason unchanged said =>
    dsimp only at said ⊢
    exact .no_fills (by rw [said]; rfl)
  | stored trigger limitPrice priceCap accepted terms stored said =>
    dsimp only at said ⊢
    exact .no_fills (by rw [said])
  | matched noStop clamped positive done =>
    have prioritised := done.prioritised ready.valid.allocId ready.unused rfl rfl rfl
    exact { prioritised with }

theorem placeOrder_priority_threeAsks :
    (threeAsks.placeOrder (limitOrder 4 true 101 8)).2.fills.map Fill.makerOrderId = [1, 3, 2] ∧
      Prioritised threeAsks (limitOrder 4 true 101 8)
        (threeAsks.placeOrder (limitOrder 4 true 101 8)).1
        (threeAsks.placeOrder (limitOrder 4 true 101 8)).2 :=
  ⟨by decide +kernel, placeOrder_priority (threeAsks_readyFor 4 true 101 8)⟩

end Book

end TorusHyperBft.OrderBook
