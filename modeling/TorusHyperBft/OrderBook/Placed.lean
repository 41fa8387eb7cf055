import TorusHyperBft.OrderBook.Sweep

namespace TorusHyperBft.OrderBook

open List

/-! A placement on a valid book: what each stage keeps, and the book and the result it
ends with. -/

namespace Book

theorem Valid.congr {book after : Book} (valid : book.Valid) (bids : after.bids = book.bids)
    (asks : after.asks = book.asks) (indexes : after.indexes = book.indexes)
    (pendingStops : after.pendingStops = book.pendingStops) (nextSeq : after.nextSeq = book.nextSeq)
    (reduceOnlyIndex : after.reduceOnlyIndex = book.reduceOnlyIndex) : after.Valid := by
  obtain ⟨marketId, bids', asks', indexes', pendingStops', tickSize, lotSize, nextId, lastTradePrice,
    reduceOnlyIndex', reduceOnlyPositions, accountMargins, nextSeq'⟩ := after
  subst bids asks indexes pendingStops nextSeq reduceOnlyIndex
  exact ⟨fun side => by cases side; exacts [valid.ladders .buy, valid.ladders .sell], valid.covers,
    valid.uncrossed, valid.reduceOnly, valid.ascending⟩

section Matched

variable {book : Book} {taker : Order} {env : MatchEnv} {matching : Matching}

/-- A run of the matching loop against one side of a valid book, before anything else is
done with the book. -/
structure MatchRun (book : Book) (side : Side) (matching : Matching) (ladder : Ladder)
    (matched : Matching) : Prop where
  wf : LadderWf side book.indexes.orderSeq ladder
  positive : matched.Positive
  takerTotal : matched.takerTotal = matching.taker.remainingQty
  conserves : ∀ id, restingQty ladder.orders id + matched.taken id =
    restingQty (book.ladder side).orders id
  terms : ladder.orders.map Order.terms <:+ (book.ladder side).orders.map Order.terms
  covers : Covers matched.indexes
    ((ladder.orders ++ (book.ladder side.opposite).orders).map Order.key) book.pendingStops
    book.nextSeq
  orderSeq : ∀ id seq, matched.indexes.orderSeq id = some seq →
    book.indexes.orderSeq id = some seq
  progress : ∃ gone rest, Progress (book.ladder side).orders matching.taker gone rest
    ladder.orders matched
  done : matched.taker.remainingQty ≤ 0 ∨ matched.exhausted = true ∨
    ∀ order ∈ ladder.orders, withinLimit side order.price matching.taker.price = false

theorem Valid.matchRun (valid : book.Valid) (env : MatchEnv) (side : Side) (matching : Matching)
    (wants : 0 ≤ matching.taker.remainingQty) (indexes : matching.indexes = book.indexes)
    (noFills : matching.fills = []) (noCancels : matching.selfTradeCancels = [])
    (noCuts : matching.reduceOnlyCuts = []) (noMarginCancels : matching.marginCancels = []) :
    MatchRun book side matching (executeMatch env side (book.ladder side) matching).1
      (executeMatch env side (book.ladder side) matching).2 := by
  have wf := valid.ladders side
  have turns := @executeMatch_turns env side _ _ matching wf
  have afterWf := @executeMatch_wf env side _ _ matching wf
  have done := @executeMatch_done env side _ _ matching wf
  generalize executeMatch env side (book.ladder side) matching = outcome at *
  obtain ⟨ladder, matched⟩ := outcome
  have positive : AllPositive (book.ladder side).orders := fun order member => wf.positive member
  refine ⟨afterWf, ?_, ?_, ?_, turns.terms, ?_, ?_, ?_, ?_⟩
  · refine turns.recorded positive ⟨?_, ?_, ?_, ?_, wants⟩ <;> simp [*]
  · rw [turns.takerTotal]
    simp [Matching.takerTotal, noFills]
  · intro id
    rw [turns.conserves]
    simp [Matching.taken, noFills, noCancels, noCuts, noMarginCancels, filledQty, cutQty,
      restingQty]
  · refine turns.covers ?_
    rw [indexes]
    exact valid.covers.perm ((resting_perm book side).map Order.key)
  · intro id seq found
    rw [← indexes]
    exact turns.orderSeq found
  · exact Progress.turns turns ⟨[], _, .initial _ matching noFills noCancels noCuts noMarginCancels⟩
  · obtain ⟨remaining, sameTaker⟩ := turns.taker
    dsimp only at sameTaker done
    rwa [show matched.taker.price = matching.taker.price by rw [sameTaker]] at done

section AfterMatch

variable {side : Side} {ladder : Ladder} {matched : Matching}

theorem afterMatch_ladder : (book.afterMatch side ladder matched).ladder side = ladder := by
  cases side <;> rfl

theorem afterMatch_opposite :
    (book.afterMatch side ladder matched).ladder side.opposite = book.ladder side.opposite := by
  cases side <;> rfl

theorem afterMatch_frame : (book.afterMatch side ladder matched).indexes = matched.indexes ∧
    (book.afterMatch side ladder matched).pendingStops = book.pendingStops ∧
    (book.afterMatch side ladder matched).nextSeq = book.nextSeq ∧
    (book.afterMatch side ladder matched).nextId = book.nextId ∧
    (book.afterMatch side ladder matched).lotSize = book.lotSize ∧
    (book.afterMatch side ladder matched).reduceOnlyPositions = matched.positions := by
  cases side <;> exact ⟨rfl, rfl, rfl, rfl, rfl, rfl⟩

/-- The entries that leave the reduce-only index after matching. -/
inductive Dropped (matched : Matching) : Address → Nat → Prop where
  | cancelled {order : Order} (member : order ∈ matched.selfTradeCancels)
      (reduceOnly : order.reduceOnly = true) : Dropped matched order.trader order.id
  | cut {cut : ReduceOnlyCut} (member : cut ∈ matched.reduceOnlyCuts) :
      Dropped matched cut.trader cut.orderId
  | marginCancelled {cut : ReduceOnlyCut} (member : cut ∈ matched.marginCancels) :
      Dropped matched cut.trader cut.orderId
  | filled {fill : Fill} (member : fill ∈ matched.fills)
      (unindexed : matched.indexes.orderIndex fill.makerOrderId = none) :
      Dropped matched fill.maker fill.makerOrderId

theorem mem_afterMatch_reduceOnlyIndex (trader : Address) (id : Nat) :
    id ∈ (book.afterMatch side ladder matched).reduceOnlyIndex trader ↔
      id ∈ book.reduceOnlyIndex trader ∧ ¬ Dropped matched trader id := by
  have same : (book.applyMatch side ladder matched).reduceOnlyIndex = book.reduceOnlyIndex := by
    cases side <;> rfl
  unfold afterMatch dropReduceOnly
  simp only [mem_filter, same, decide_eq_true_eq]
  refine and_congr_right fun _ => not_congr ?_
  simp only [mem_append, mem_map, mem_filter, Prod.mk.injEq, Option.isNone_iff_eq_none]
  constructor
  · rintro ((⟨order, ⟨member, reduceOnly⟩, rfl, rfl⟩ | ⟨cut, inCuts | inMarginCancels, rfl, rfl⟩) |
      ⟨fill, ⟨member, unindexed⟩, rfl, rfl⟩)
    · exact .cancelled member reduceOnly
    · exact .cut inCuts
    · exact .marginCancelled inMarginCancels
    · exact .filled member unindexed
  · intro dropped
    cases dropped with
    | cancelled member reduceOnly => exact Or.inl (Or.inl ⟨_, ⟨member, reduceOnly⟩, rfl, rfl⟩)
    | cut member => exact Or.inl (Or.inr ⟨_, Or.inl member, rfl, rfl⟩)
    | marginCancelled member => exact Or.inl (Or.inr ⟨_, Or.inr member, rfl, rfl⟩)
    | filled member unindexed => exact Or.inr ⟨_, ⟨member, unindexed⟩, rfl, rfl⟩

theorem afterMatch_ascending (valid : book.Valid) (trader : Address) :
    ((book.afterMatch side ladder matched).reduceOnlyIndex trader).Pairwise (· < ·) := by
  have same : (book.applyMatch side ladder matched).reduceOnlyIndex = book.reduceOnlyIndex := by
    cases side <;> rfl
  unfold afterMatch dropReduceOnly
  dsimp only
  rw [same]
  exact (valid.ascending trader).filter _

theorem afterMatch_resting : (book.afterMatch side ladder matched).resting.Perm
    (ladder.orders ++ (book.ladder side.opposite).orders) := by
  have perm := Book.resting_perm (book.afterMatch side ladder matched) side
  rwa [afterMatch_ladder, afterMatch_opposite] at perm

theorem Valid.gone_absent (valid : book.Valid) {gone rest : List Order}
    (progress : Progress (book.ladder side).orders matching.taker gone rest ladder.orders matched)
    {order : Order} (member : order ∈ gone) :
    order.id ∉ (book.afterMatch side ladder matched).resting.map Order.id := by
  have nodup := valid.nodup
  rw [((Book.resting_perm book side).map Order.id).nodup_iff, progress.split, append_assoc,
    map_append, nodup_append] at nodup
  intro rests
  rw [(afterMatch_resting.map Order.id).mem_iff, map_append] at rests
  have sameIds : ladder.orders.map Order.id = rest.map Order.id := by
    have ids := congrArg (List.map Order.id) progress.terms
    rw [map_map, map_map] at ids
    exact ids.symm
  rw [sameIds, ← map_append] at rests
  exact nodup.2.2 _ (mem_map_of_mem member) _ rests rfl

namespace MatchRun

variable (run : MatchRun book side matching ladder matched) (valid : book.Valid)
include run

theorem terms_before {order : Order}
    (member : order ∈ (book.afterMatch side ladder matched).resting) :
    ∃ old ∈ book.resting, old.terms = order.terms := by
  rcases mem_append.mp (afterMatch_resting.mem_iff.mp member) with own | opposite
  · obtain ⟨old, inLadder, same⟩ := mem_map.mp (run.terms.subset (mem_map_of_mem own))
    exact ⟨old, (mem_resting side).mpr (Or.inl inLadder), same⟩
  · exact ⟨order, (mem_resting side).mpr (Or.inr opposite), rfl⟩

include valid

theorem reduceOnly (trader : Address) (id : Nat)
    (covers : Covers matched.indexes
      ((book.afterMatch side ladder matched).resting.map Order.key) book.pendingStops book.nextSeq) :
    id ∈ (book.afterMatch side ladder matched).reduceOnlyIndex trader ↔
      ∃ order ∈ (book.afterMatch side ladder matched).resting,
        order.id = id ∧ order.trader = trader ∧ order.reduceOnly = true := by
  obtain ⟨gone, rest, progress⟩ := run.progress
  have absent : ∀ order ∈ gone, order.id ∉
      (book.afterMatch side ladder matched).resting.map Order.id :=
    fun order => valid.gone_absent progress
  have resting := @afterMatch_resting book side ladder matched
  rw [mem_afterMatch_reduceOnlyIndex, valid.reduceOnly]
  constructor
  · rintro ⟨⟨old, member, rfl, rfl, policed⟩, kept⟩
    rcases (mem_resting side).mp member with own | opposite
    · rw [progress.split] at own
      rcases mem_append.mp own with left | stayed
      · refine absurd ?_ kept
        rcases progress.reported old left with ⟨fill, inFills, sameId, sameTrader⟩ |
          ⟨cancelled, inCancels, same⟩ | ⟨cut, inCuts, sameId, sameTrader⟩ |
          ⟨cut, inCuts, sameId, sameTrader⟩
        · rw [← sameId, ← sameTrader]
          refine .filled inFills ?_
          cases indexed : matched.indexes.orderIndex fill.makerOrderId with
          | none => rfl
          | some location =>
            obtain ⟨key, inKeys, keyId, _⟩ := (covers.indexed _ _).mp indexed
            obtain ⟨order, inResting, rfl⟩ := mem_map.mp inKeys
            refine absurd (mem_map.mpr ⟨order, inResting, ?_⟩) (absent old left)
            exact keyId.trans sameId
        · rw [← Order.terms_id same, ← Order.terms_trader same]
          exact .cancelled inCancels ((Order.terms_reduceOnly same).trans policed)
        · rw [← sameId, ← sameTrader]
          exact .cut inCuts
        · rw [← sameId, ← sameTrader]
          exact .marginCancelled inCuts
      · have inTerms := mem_map_of_mem (f := Order.terms) stayed
        rw [progress.terms] at inTerms
        obtain ⟨order, inLadder, same⟩ := mem_map.mp inTerms
        exact ⟨order, resting.mem_iff.mpr (mem_append_left _ inLadder), Order.terms_id same,
          Order.terms_trader same, (Order.terms_reduceOnly same).trans policed⟩
    · exact ⟨old, resting.mem_iff.mpr (mem_append_right _ opposite), rfl, rfl, policed⟩
  · rintro ⟨order, member, rfl, rfl, policed⟩
    obtain ⟨old, inBook, same⟩ := run.terms_before member
    refine ⟨⟨old, inBook, Order.terms_id same, Order.terms_trader same,
      (Order.terms_reduceOnly same).trans policed⟩, fun dropped => ?_⟩
    have rests : order.id ∈ (book.afterMatch side ladder matched).resting.map Order.id :=
      mem_map_of_mem member
    generalize ownerEq : order.trader = owner at dropped
    generalize idEq : order.id = id at dropped rests
    cases dropped with
    | cancelled inCancels _ =>
      obtain ⟨left, inGone, same⟩ := progress.cancels _ inCancels
      exact absent left inGone (Order.terms_id same ▸ rests)
    | cut inCuts =>
      obtain ⟨left, inGone, same, _⟩ := progress.cuts _ inCuts
      exact absent left inGone (same ▸ rests)
    | marginCancelled inCuts =>
      obtain ⟨left, inGone, same, _⟩ := progress.marginCancels _ inCuts
      exact absent left inGone (same ▸ rests)
    | @filled fill inFills unindexed =>
      have indexed := (covers.indexed fill.makerOrderId order.key.location).mpr
        ⟨order.key, mem_map_of_mem member, idEq, rfl⟩
      rw [unindexed] at indexed
      contradiction

theorem valid_after : (book.afterMatch side ladder matched).Valid := by
  obtain ⟨indexes, pendingStops, nextSeq, _⟩ := @afterMatch_frame book side ladder matched
  have covers : Covers matched.indexes
      ((book.afterMatch side ladder matched).resting.map Order.key) book.pendingStops
      book.nextSeq := run.covers.perm (afterMatch_resting.map Order.key).symm
  refine valid.rebuild side afterMatch_opposite ?_ (fun order _ seq found => ?_) ?_ ?_
    (fun trader id => run.reduceOnly valid trader id covers) (afterMatch_ascending valid)
  · rw [afterMatch_ladder, indexes]
    exact run.wf.mono fun order _ => run.orderSeq order.id
  · rw [indexes] at found
    exact run.orderSeq order.id seq found
  · rw [indexes, pendingStops, nextSeq]
    exact covers
  · intro own ownMember other otherMember
    rw [afterMatch_ladder] at ownMember
    obtain ⟨old, inLadder, same⟩ :=
      mem_map.mp (run.terms.subset (mem_map_of_mem ownMember))
    rw [← Order.terms_price same]
    exact valid.apart side old inLadder other otherMember

end MatchRun

end AfterMatch

end Matched

section Stops

variable {book : Book}

theorem retainStops_frame (book : Book) (keep : StopOrder → Bool) :
    (book.retainStops keep).indexes.orderIndex = book.indexes.orderIndex ∧
      (book.retainStops keep).indexes.traderOrders = book.indexes.traderOrders ∧
      (book.retainStops keep).indexes.orderSeq = book.indexes.orderSeq := by
  unfold Book.retainStops
  dsimp only
  generalize book.pendingStops.filter (fun stop => !keep stop) = gone
  generalize book.indexes = indexes
  induction gone generalizing indexes with
  | nil => exact ⟨rfl, rfl, rfl⟩
  | cons stop gone ih =>
    obtain ⟨index, traders, seq⟩ :=
      forgetCloid_frame indexes stop.trader stop.clientOrderId stop.id
    obtain ⟨laterIndex, laterTraders, laterSeq⟩ := ih _
    exact ⟨laterIndex.trans index, laterTraders.trans traders, laterSeq.trans seq⟩

theorem Valid.retainStops (valid : book.Valid) (keep : StopOrder → Bool) :
    (book.retainStops keep).Valid := by
  have split : book.pendingStops.Perm
      ((book.pendingStops.filter fun stop => !keep stop) ++ book.pendingStops.filter keep) := by
    have parts := filter_append_perm (fun stop => !keep stop) book.pendingStops
    simp only [Bool.not_not] at parts
    exact parts.symm
  have covers := (valid.covers.perm_stops split).dropStops
  refine ⟨fun side => ?_, covers, valid.uncrossed, valid.reduceOnly, valid.ascending⟩
  rw [(retainStops_frame book keep).2.2]
  exact valid.ladders side

end Stops

section Settle

variable {book : Book} {placement : Placement} {order : Order}

/-- How an order ends once matching and sweeping are over. -/
structure Settlement (book : Book) (order : Order) (after : Book) (status : OrderStatus)
    (restedQty : Int) : Prop where
  valid : after.Valid
  frame : Frame book after
  nonneg : 0 ≤ restedQty
  bounded : restedQty ≤ order.remainingQty
  filled : status = .filled → order.remainingQty = 0
  resting : after.resting.Perm (if restedQty = 0 then book.resting
    else { order with remainingQty := restedQty } :: book.resting)

theorem Settlement.nothing (valid : book.Valid) (nonneg : 0 ≤ order.remainingQty)
    {status : OrderStatus} (filled : status = .filled → order.remainingQty = 0) :
    Settlement book order book status 0 :=
  ⟨valid, .refl _, Int.le_refl 0, nonneg, filled, by rw [if_pos rfl]⟩

theorem restQuantity_bounds (nonneg : 0 ≤ order.remainingQty) {left : Option Int}
    (budget : ∀ spare, left = some spare → 0 ≤ spare) :
    0 ≤ restQuantity order left ∧ restQuantity order left ≤ order.remainingQty := by
  unfold restQuantity
  split
  · have := budget _ rfl
    omega
  · exact ⟨nonneg, Int.le_refl _⟩

theorem Valid.settle (valid : book.Valid) (nonneg : 0 ≤ order.remainingQty)
    {exhausted unfilled : Bool} {left : Option Int} (budget : ∀ spare, left = some spare → 0 ≤ spare)
    (restable : exhausted = false → 0 < order.remainingQty →
      ∀ qty, 0 < qty → book.Restable { order with remainingQty := qty }) :
    Settlement book order (book.settle placement order exhausted unfilled left).1
      (book.settle placement order exhausted unfilled left).2.1
      (book.settle placement order exhausted unfilled left).2.2.1 := by
  unfold Book.settle
  split
  · rename_i sated
    exact .nothing valid nonneg fun _ => sated
  rename_i unsated
  split
  · exact .nothing valid nonneg (by simp)
  rename_i mayRest
  obtain ⟨remainingNonneg, remainingLe⟩ := restQuantity_bounds nonneg budget
  generalize restQuantity order left = remaining at *
  dsimp only
  split
  · cases unfilled <;> exact .nothing valid nonneg (by simp)
  · rename_i rests
    have live : exhausted = false := by
      cases exhausted with
      | false => rfl
      | true => exact absurd (Or.inr (Or.inl rfl)) mayRest
    have restable := restable live (by omega) remaining (by omega)
    refine ⟨valid.insertOrder restable, insertOrder_frame, remainingNonneg, remainingLe, ?_, ?_⟩
    · cases unfilled <;> simp
    · rw [if_neg rests]
      exact insertOrder_resting

end Settle

section MatchOrder

variable {book : Book} {placement : Placement} {order : Order} {margin : Option MatchMargin}

/-- The matching of an order that reached it, and what became of the book and the order. -/
structure Matched (book : Book) (placement : Placement) (order : Order)
    (margin : Option MatchMargin) (ladder : Ladder) (matched : Matching) (swept after : Book)
    (result : PlaceResult) : Prop where
  outcome : executeMatch { marketId := book.marketId, makers := placement.makers }
    order.side.opposite (book.ladder order.side.opposite)
    (book.startMatching placement order margin) = (ladder, matched)
  run : MatchRun book order.side.opposite (book.startMatching placement order margin) ladder matched
  sweep : Swept (book.afterMatch order.side.opposite ladder matched) matched.reduceOnlyCuts swept
    result.reduceOnlyCuts
  orderId : result.orderId = order.id
  fills : result.fills = matched.fills
  selfTradeCancels : result.selfTradeCancels = matched.selfTradeCancels
  marginCancels : result.marginCancels = matched.marginCancels
  nonneg : 0 ≤ result.restedQty
  bounded : result.restedQty ≤ matched.taker.remainingQty
  filled : result.status = .filled → matched.taker.remainingQty = 0
  valid : after.Valid
  resting : after.resting.Perm (if result.restedQty = 0 then swept.resting
    else { order with remainingQty := result.restedQty } :: swept.resting)
  positions : after.reduceOnlyPositions = matched.positions
  nextId : after.nextId = book.nextId
  lotSize : after.lotSize = book.lotSize
  stops : ∃ keep : StopOrder → Bool, after.pendingStops = book.pendingStops.filter keep ∧
    result.triggeredStops =
      (book.pendingStops.filter fun stop => !keep stop).map StopOrder.triggered

theorem CloidFree.of_terms {before after : Book} (beforeValid : before.Valid)
    (afterValid : after.Valid)
    (terms : ∀ order ∈ after.resting, ∃ old ∈ before.resting, old.terms = order.terms)
    (stops : after.pendingStops = before.pendingStops) {trader : Address} {cloid : Option Cloid}
    (free : Covers.CloidFree before.indexes trader cloid) :
    Covers.CloidFree after.indexes trader cloid := by
  intro name named
  have unused := free name named
  cases found : after.indexes.cloids trader name with
  | none => rfl
  | some id =>
    -- Whoever carries the client id now carried it before.
    have before : before.indexes.cloids trader name = some id := by
      rw [beforeValid.covers.cloids]
      rcases (afterValid.covers.cloids _ _ _).mp found with
        ⟨key, member, sameId, sameTrader, sameCloid⟩ | ⟨stop, member, said⟩
      · obtain ⟨order, inAfter, rfl⟩ := mem_map.mp member
        obtain ⟨old, inBefore, same⟩ := terms order inAfter
        have sameKey := Order.terms_key same
        exact Or.inl ⟨old.key, mem_map_of_mem inBefore, sameKey ▸ sameId,
          sameKey ▸ sameTrader, sameKey ▸ sameCloid⟩
      · exact Or.inr ⟨stop, stops ▸ member, said⟩
    rw [unused] at before
    contradiction

theorem chargeTaker_frame (book : Book) (placement : Placement) (margin : Option MatchMargin)
    (restedQty : Int) :
    ∃ accountMargins, book.chargeTaker placement margin restedQty = { book with accountMargins } := by
  unfold chargeTaker
  split <;> exact ⟨_, rfl⟩

theorem MatchRun.restable {ladder : Ladder} {matched : Matching} {swept : Book}
    {cuts : List ReduceOnlyCut} (valid : book.Valid)
    (run : MatchRun book order.side.opposite (book.startMatching placement order margin) ladder
      matched)
    (sweep : Swept (book.afterMatch order.side.opposite ladder matched) matched.reduceOnlyCuts swept
      cuts)
    (unused : order.id ∉ book.resting.map Order.id)
    (notStop : order.id ∉ book.pendingStops.map StopOrder.id)
    (free : Covers.CloidFree book.indexes order.trader order.clientOrderId)
    (live : matched.exhausted = false) (wants : 0 < matched.taker.remainingQty) {qty : Int}
    (positive : 0 < qty) : swept.Restable { matched.taker with remainingQty := qty } := by
  obtain ⟨gone, rest, progress⟩ := run.progress
  have sameTaker : matched.taker.terms = order.terms := progress.sameTaker
  obtain ⟨_, pendingStops, _⟩ := @afterMatch_frame book order.side.opposite ladder matched
  have terms : ∀ resting ∈ swept.resting, ∃ old ∈ book.resting, old.terms = resting.terms := by
    intro resting member
    obtain ⟨middle, inMatched, sameMiddle, _⟩ := sweep.shrinks resting member
    obtain ⟨old, inBook, sameOld⟩ := run.terms_before inMatched
    exact ⟨old, inBook, sameOld.trans sameMiddle⟩
  have stops : swept.pendingStops = book.pendingStops := sweep.frame.pendingStops.trans pendingStops
  refine ⟨positive, ?_, ?_, ?_, ?_⟩
  · intro rests
    obtain ⟨resting, member, sameId⟩ := mem_map.mp rests
    obtain ⟨old, inBook, same⟩ := terms resting member
    exact unused (mem_map.mpr ⟨old, inBook,
      (Order.terms_id same).trans (sameId.trans (Order.terms_id sameTaker))⟩)
  · rw [stops]
    exact (Order.terms_id sameTaker) ▸ notStop
  · have sameCloid : matched.taker.clientOrderId = order.clientOrderId := by injection sameTaker
    change Covers.CloidFree swept.indexes matched.taker.trader matched.taker.clientOrderId
    rw [sameCloid, Order.terms_trader sameTaker]
    exact CloidFree.of_terms valid sweep.valid terms stops free
  · change ∀ other ∈ (swept.ladder matched.taker.side.opposite).orders,
      Apart matched.taker.side matched.taker.price other.price
    rw [Order.terms_side sameTaker, Order.terms_price sameTaker]
    intro other member
    have side : other.side = order.side.opposite := (sweep.valid.ladders _).placed member
    obtain ⟨middle, inMatched, sameMiddle, _⟩ :=
      sweep.shrinks other ((mem_resting order.side).mpr (Or.inr member))
    have middleMember : middle ∈ ladder.orders := by
      have inLadder := (run.valid_after valid).mem_ladder inMatched
      rwa [Order.terms_side sameMiddle, side, afterMatch_ladder] at inLadder
    rcases run.done with sated | exhausted | beyond
    · omega
    · rw [live] at exhausted
      contradiction
    · have beyond : withinLimit order.side.opposite middle.price order.price = false :=
        beyond middle middleMember
      rw [Order.terms_price sameMiddle] at beyond
      cases side : order.side <;> rw [side] at beyond <;>
        simp only [Side.opposite, withinLimit, decide_eq_false_iff_not, Apart] at * <;> omega

theorem Valid.sweepMatched (valid : book.Valid) (placement : Placement) (matched : Matching) :
    Swept book matched.reduceOnlyCuts (book.sweepMatched placement matched).1
        (book.sweepMatched placement matched).2.1 ∧
      ∀ spare, (book.sweepMatched placement matched).2.2 = some spare → 0 ≤ spare := by
  unfold Book.sweepMatched
  split
  · exact ⟨.refl valid, by simp⟩
  · exact valid.sweepTouched _ _ _

theorem Valid.fireStops (valid : book.Valid) (fills : List Fill) :
    (book.fireStops fills).1.Valid ∧ (book.fireStops fills).1.resting = book.resting ∧
      (book.fireStops fills).1.nextId = book.nextId ∧
      (book.fireStops fills).1.lotSize = book.lotSize ∧
      (book.fireStops fills).1.reduceOnlyPositions = book.reduceOnlyPositions ∧
      ∃ keep : StopOrder → Bool,
        (book.fireStops fills).1.pendingStops = book.pendingStops.filter keep ∧
        (book.fireStops fills).2 =
          (book.pendingStops.filter fun stop => !keep stop).map StopOrder.triggered := by
  have idle : ∃ keep : StopOrder → Bool, book.pendingStops = book.pendingStops.filter keep ∧
      ([] : List TriggeredStop) =
        (book.pendingStops.filter fun stop => !keep stop).map StopOrder.triggered :=
    ⟨fun _ => true, by simp, by simp⟩
  unfold Book.fireStops
  split
  · exact ⟨valid, rfl, rfl, rfl, rfl, idle⟩
  · unfold triggerStops
    split
    · exact ⟨valid, rfl, rfl, rfl, rfl, idle⟩
    · rename_i price _
      exact ⟨valid.retainStops _, rfl, rfl, rfl, rfl, _, rfl, by simp only [Bool.not_not]⟩

theorem Valid.matchOrder (valid : book.Valid) (placement : Placement) (margin : Option MatchMargin)
    (wants : 0 ≤ order.remainingQty) (unused : order.id ∉ book.resting.map Order.id)
    (notStop : order.id ∉ book.pendingStops.map StopOrder.id)
    (free : Covers.CloidFree book.indexes order.trader order.clientOrderId) :
    ∃ ladder matched swept, Matched book placement order margin ladder matched swept
      (book.matchOrder placement order margin).1 (book.matchOrder placement order margin).2 := by
  have run := valid.matchRun { marketId := book.marketId, makers := placement.makers }
    order.side.opposite (book.startMatching placement order margin) wants rfl rfl rfl rfl rfl
  unfold Book.matchOrder
  dsimp only
  generalize outcomeEq : executeMatch { marketId := book.marketId, makers := placement.makers }
    order.side.opposite (book.ladder order.side.opposite)
    (book.startMatching placement order margin) = outcome at run
  obtain ⟨ladder, matched⟩ := outcome
  dsimp only at run ⊢
  obtain ⟨sweep, budget⟩ := (run.valid_after valid).sweepMatched placement matched
  obtain ⟨_, pendingStops, _, nextId, lotSize, positions⟩ :=
    @afterMatch_frame book order.side.opposite ladder matched
  generalize (book.afterMatch order.side.opposite ladder matched).sweepMatched placement matched =
    sweepOutcome at *
  obtain ⟨swept, cuts, left⟩ := sweepOutcome
  dsimp only at sweep budget ⊢
  obtain ⟨gone, rest, progress⟩ := run.progress
  have sameTaker : matched.taker.terms = order.terms := progress.sameTaker
  have settled := @Valid.settle swept placement matched.taker sweep.valid run.positive.remaining
    matched.exhausted matched.fills.isEmpty left budget fun live wants qty positive =>
      run.restable valid sweep unused notStop free live wants positive
  unfold finish
  generalize swept.settle placement matched.taker matched.exhausted matched.fills.isEmpty left =
    settlement at *
  obtain ⟨after, status, restedQty, reject⟩ := settlement
  dsimp only at settled ⊢
  obtain ⟨accountMargins, charged⟩ := chargeTaker_frame after placement matched.margin restedQty
  rw [charged]
  have chargedValid : ({ after with accountMargins } : Book).Valid :=
    settled.valid.congr rfl rfl rfl rfl rfl rfl
  obtain ⟨firedValid, firedResting, firedNextId, firedLotSize, firedPositions, fired⟩ :=
    chargedValid.fireStops matched.fills
  generalize ({ after with accountMargins } : Book).fireStops matched.fills = firing at *
  obtain ⟨final, triggered⟩ := firing
  dsimp only at firedValid firedResting firedNextId firedLotSize firedPositions fired ⊢
  have stops : after.pendingStops = book.pendingStops :=
    settled.frame.pendingStops.trans (sweep.frame.pendingStops.trans pendingStops)
  refine ⟨ladder, matched, swept, outcomeEq, run, sweep, Order.terms_id sameTaker, rfl, rfl, rfl,
    settled.nonneg, settled.bounded, settled.filled, firedValid, ?_, ?_, ?_, ?_, ?_⟩
  · have rested : ({ matched.taker with remainingQty := restedQty } : Order) =
        { order with remainingQty := restedQty } :=
      congrArg (fun taker : Order => { taker with remainingQty := restedQty }) sameTaker
    rw [firedResting, ← rested]
    exact settled.resting
  · rw [firedPositions]
    exact settled.frame.reduceOnlyPositions.trans (sweep.frame.reduceOnlyPositions.trans positions)
  · rw [firedNextId]
    exact settled.frame.nextId.trans (sweep.frame.nextId.trans nextId)
  · rw [firedLotSize]
    exact settled.frame.lotSize.trans (sweep.frame.lotSize.trans lotSize)
  · rw [stops] at fired
    exact fired

section Before

variable {swept after : Book} {ladder : Ladder} {matched : Matching} {result : PlaceResult}

theorem Matched.terms_before (done : Matched book placement order margin ladder matched swept after
    result) {left : Order} (member : left ∈ swept.resting) :
    ∃ old ∈ book.resting, old.terms = left.terms := by
  obtain ⟨middle, inMatched, sameMiddle, _⟩ := done.sweep.shrinks left member
  obtain ⟨old, inBook, sameOld⟩ := done.run.terms_before inMatched
  exact ⟨old, inBook, sameOld.trans sameMiddle⟩

theorem Matched.ids_before (done : Matched book placement order margin ladder matched swept after
    result) {id : Nat} (member : id ∈ swept.resting.map Order.id) : id ∈ book.resting.map Order.id := by
  obtain ⟨left, inSwept, rfl⟩ := mem_map.mp member
  obtain ⟨old, inBook, same⟩ := done.terms_before inSwept
  exact mem_map.mpr ⟨old, inBook, Order.terms_id same⟩

end Before

end MatchOrder

/-- What a placement may count on: the next id is unused, and a caller that skips the
client-id lookup has made it. -/
structure ReadyFor (book : Book) (placement : Placement) : Prop where
  valid : book.Valid
  lotSize : 0 < book.lotSize
  unused : book.nextId ∉ book.resting.map Order.id
  notStop : book.nextId ∉ book.pendingStops.map StopOrder.id
  cloidChecked : placement.cloidChecked = true →
    Covers.CloidFree book.indexes placement.trader placement.params.clientOrderId

/-- A placement is rejected, stored as a stop, or matched. -/
inductive PlaceOutcome (book : Book) (placement : Placement) (after : Book)
    (result : PlaceResult) : Prop where
  | rejected (reason : FailureReason) (unchanged : after = book.allocId)
      (said : result = .rejected book.nextId reason)
  | stored (trigger : Int) (limitPrice : Option Int) (priceCap : Int)
      (accepted : book.allocId.shapeReject placement = none)
      (terms : stopTerms placement.params = some (trigger, limitPrice, priceCap))
      (stored : after = { book.allocId with
        indexes := book.indexes.indexCloid placement.trader placement.params.clientOrderId
          book.nextId
        pendingStops :=
          book.pendingStops ++ [stopOrder placement book.nextId trigger limitPrice priceCap] })
      (said : result = { orderId := book.nextId, status := .pendingTrigger
                         restedQty := placement.params.quantity })
  | matched {quantity : Int} {margin : Option MatchMargin} {ladder : Ladder} {matched : Matching}
      {swept : Book} (noStop : stopTerms placement.params = none)
      (clamped : book.allocId.matchQuantity placement = .ok quantity)
      (positive : 0 < quantity)
      (done : Matched book.allocId placement (takerOrder placement book.nextId quantity) margin
        ladder matched swept after result)

section PlaceOrder

variable {book : Book} {placement : Placement}

theorem Valid.allocId (valid : book.Valid) : book.allocId.Valid :=
  valid.congr rfl rfl rfl rfl rfl rfl

theorem ReadyFor.cloidFree (ready : book.ReadyFor placement)
    (accepted : book.shapeReject placement = none) :
    Covers.CloidFree book.indexes placement.trader placement.params.clientOrderId := by
  cases checked : placement.cloidChecked with
  | true => exact ready.cloidChecked checked
  | false =>
    intro cloid named
    cases found : book.indexes.cloids placement.trader cloid with
    | none => rfl
    | some id => simp [shapeReject, named, checked, found] at accepted

theorem shapeReject_quantity (accepted : book.shapeReject placement = none) :
    book.lotSize ≤ placement.params.quantity := by
  by_contra small
  have below : placement.params.quantity < book.lotSize := Int.not_le.mp small
  unfold shapeReject at accepted
  simp only [if_pos below] at accepted
  split at accepted
  · contradiction
  · split at accepted <;> contradiction

theorem matchQuantity_positive {quantity : Int} (positive : 0 < placement.params.quantity)
    (clamped : book.matchQuantity placement = .ok quantity) :
    0 < quantity ∧ quantity ≤ placement.params.quantity := by
  unfold matchQuantity at clamped
  dsimp only at clamped
  split at clamped
  · contradiction
  · split at clamped
    · contradiction
    · split at clamped
      · split at clamped
        · cases clamped
          omega
        · split at clamped
          · contradiction
          · cases clamped
            omega
      · cases clamped
        omega

variable (ready : book.ReadyFor placement)
include ready

theorem ReadyFor.matchOrder {quantity : Int} (accepted : book.shapeReject placement = none)
    (positive : 0 < quantity) (margin : Option MatchMargin) :
    ∃ ladder matched swept, Matched book.allocId placement
      (takerOrder placement book.nextId quantity) margin ladder matched swept
      (book.allocId.matchOrder placement (takerOrder placement book.nextId quantity) margin).1
      (book.allocId.matchOrder placement (takerOrder placement book.nextId quantity) margin).2 :=
  ready.valid.allocId.matchOrder placement margin (Int.le_of_lt positive) ready.unused
    ready.notStop (ready.cloidFree accepted)

theorem ReadyFor.placeOrder :
    PlaceOutcome book placement (book.placeOrder placement).1 (book.placeOrder placement).2 := by
  unfold Book.placeOrder
  dsimp only
  cases accepted : book.allocId.shapeReject placement with
  | some reason => exact .rejected reason rfl rfl
  | none =>
    dsimp only
    have positive : 0 < placement.params.quantity :=
      Int.lt_of_lt_of_le ready.lotSize (shapeReject_quantity accepted)
    cases terms : stopTerms placement.params with
    | some stop =>
      obtain ⟨trigger, limitPrice, priceCap⟩ := stop
      dsimp only
      unfold placeStop
      cases refused : book.allocId.stopReject placement trigger with
      | some reason => exact .rejected reason rfl rfl
      | none => exact .stored trigger limitPrice priceCap accepted terms rfl rfl
    | none =>
      dsimp only
      cases clamped : book.allocId.matchQuantity placement with
      | error reason => exact .rejected reason rfl rfl
      | ok quantity =>
        dsimp only
        have enters := (matchQuantity_positive positive clamped).1
        unfold placeMatched
        dsimp only
        split
        · generalize fokFits _ quantity _ _ = check
          obtain ⟨fits, margin⟩ := check
          dsimp only
          split
          · obtain ⟨ladder, matched, swept, done⟩ := ready.matchOrder accepted enters margin
            exact .matched terms clamped enters done
          · exact .rejected .fokCancel rfl rfl
        · obtain ⟨ladder, matched, swept, done⟩ := ready.matchOrder accepted enters
            (placement.margin.map (book.allocId.matchMargin placement))
          exact .matched terms clamped enters done

theorem ReadyFor.valid_after : (book.placeOrder placement).1.Valid := by
  cases ready.placeOrder with
  | rejected reason unchanged said =>
    rw [unchanged]
    exact ready.valid.allocId
  | stored trigger limitPrice priceCap accepted terms stored said =>
    rw [stored]
    have valid := ready.valid
    have unusedKey : book.nextId ∉ (book.resting.map Order.key).map Key.id := by
      rw [map_map]
      exact ready.unused
    have covers := @Covers.addStop _ _ _ _ (stopOrder placement book.nextId trigger limitPrice
      priceCap) valid.covers unusedKey ready.notStop (ready.cloidFree accepted)
    have sameSeq := (Covers.indexCloid_frame book.indexes placement.trader
      placement.params.clientOrderId book.nextId).2.2
    refine ⟨fun side => ?_, ?_, valid.uncrossed, valid.reduceOnly, valid.ascending⟩
    · change LadderWf side (book.indexes.indexCloid _ _ _).orderSeq (book.ladder side)
      rw [sameSeq]
      exact valid.ladders side
    · exact covers.perm_stops (perm_append_singleton _ _).symm
  | matched noStop clamped positive done => exact done.valid

theorem ReadyFor.ids_after : (book.placeOrder placement).1.nextId = book.nextId + 1 ∧
      (book.placeOrder placement).1.lotSize = book.lotSize ∧
      (∀ id ∈ (book.placeOrder placement).1.resting.map Order.id,
        id = book.nextId ∨ id ∈ book.resting.map Order.id) ∧
      (∀ stop ∈ (book.placeOrder placement).1.pendingStops,
        stop.id = book.nextId ∨ stop ∈ book.pendingStops) ∧
      ∃ keep : StopOrder → Bool, (∀ stop ∈ (book.placeOrder placement).1.pendingStops,
          stop ∈ book.pendingStops → keep stop = true) ∧
        (book.placeOrder placement).2.triggeredStops =
          (book.pendingStops.filter fun stop => !keep stop).map StopOrder.triggered := by
  have outcome := ready.placeOrder
  generalize book.placeOrder placement = placed at outcome
  obtain ⟨after, result⟩ := placed
  have nothing : ∃ keep : StopOrder → Bool, (∀ stop ∈ after.pendingStops,
      stop ∈ book.pendingStops → keep stop = true) ∧ ([] : List TriggeredStop) =
        (book.pendingStops.filter fun stop => !keep stop).map StopOrder.triggered :=
    ⟨fun _ => true, by simp, by simp⟩
  cases outcome with
  | rejected reason unchanged said =>
    dsimp only at unchanged said nothing ⊢
    subst unchanged said
    exact ⟨rfl, rfl, fun id member => Or.inr member, fun stop member => Or.inr member, nothing⟩
  | stored trigger limitPrice priceCap accepted terms stored said =>
    dsimp only at stored said nothing ⊢
    subst stored said
    refine ⟨rfl, rfl, fun id member => Or.inr member, fun stop member => ?_, nothing⟩
    rcases mem_append.mp member with old | new
    · exact Or.inr old
    · exact Or.inl (by rw [mem_singleton.mp new]; rfl)
  | matched noStop clamped positive done =>
    obtain ⟨keep, stops, triggered⟩ := done.stops
    dsimp only at stops triggered ⊢
    refine ⟨done.nextId, done.lotSize, fun id member => ?_, fun stop member => ?_, keep, ?_, triggered⟩
    · rw [(done.resting.map Order.id).mem_iff] at member
      split at member
      · exact Or.inr (done.ids_before member)
      · rcases mem_cons.mp member with same | old
        · exact Or.inl same
        · exact Or.inr (done.ids_before old)
    · rw [stops] at member
      exact Or.inr (mem_of_mem_filter member)
    · intro stop member _
      rw [stops] at member
      exact (mem_filter.mp member).2

end PlaceOrder

/-- A valid book whose ids all lie below the next one to be handed out. -/
structure Sound (book : Book) : Prop where
  valid : book.Valid
  lotSize : 0 < book.lotSize
  ordersBelow : ∀ order ∈ book.resting, order.id < book.nextId
  stopsBelow : ∀ stop ∈ book.pendingStops, stop.id < book.nextId

namespace Sound

variable {book : Book} {placement : Placement}

theorem new (marketId : MarketId) (tickSize : Int) {lotSize : Int} (positive : 0 < lotSize) :
    (Book.new marketId tickSize lotSize).Sound :=
  ⟨new_valid marketId tickSize lotSize, positive, fun _ member => absurd member not_mem_nil,
    fun _ member => absurd member not_mem_nil⟩

theorem readyFor (sound : book.Sound) (cloidChecked : placement.cloidChecked = true →
    Covers.CloidFree book.indexes placement.trader placement.params.clientOrderId) :
    book.ReadyFor placement where
  valid := sound.valid
  lotSize := sound.lotSize
  unused rests := by
    obtain ⟨order, member, same⟩ := mem_map.mp rests
    exact absurd (sound.ordersBelow order member) (by omega)
  notStop waits := by
    obtain ⟨stop, member, same⟩ := mem_map.mp waits
    exact absurd (sound.stopsBelow stop member) (by omega)
  cloidChecked := cloidChecked

theorem placeOrder (sound : book.Sound) (cloidChecked : placement.cloidChecked = true →
    Covers.CloidFree book.indexes placement.trader placement.params.clientOrderId) :
    (book.placeOrder placement).1.Sound := by
  have ready := sound.readyFor cloidChecked
  obtain ⟨nextId, lotSize, ids, stops, _⟩ := ready.ids_after
  refine ⟨ready.valid_after, lotSize ▸ sound.lotSize, fun order member => ?_, fun stop member => ?_⟩
  · rw [nextId]
    rcases ids order.id (mem_map_of_mem member) with same | old
    · omega
    · obtain ⟨before, inBook, same⟩ := mem_map.mp old
      have := sound.ordersBelow before inBook
      omega
  · rw [nextId]
    rcases stops stop member with same | old
    · omega
    · have := sound.stopsBelow stop old
      omega

end Sound

def limitOrder (trader : Address) (isBuy : Bool) (price quantity : Int) : Placement where
  params :=
    { marketId := 1
      isBuy
      price
      quantity
      orderType := .limit
      timeInForce := .gtc
      reduceOnly := false
      clientOrderId := none }
  trader
  timestamp := 0

def placeAll (book : Book) (placements : List Placement) : Book :=
  placements.foldl (fun book placement => (book.placeOrder placement).1) book

theorem Sound.placeAll {book : Book} (sound : book.Sound) {placements : List Placement}
    (unchecked : ∀ placement ∈ placements, placement.cloidChecked = false) :
    (book.placeAll placements).Sound := by
  induction placements generalizing book with
  | nil => exact sound
  | cons placement placements ih =>
    have first := unchecked placement mem_cons_self
    exact ih (sound.placeOrder fun checked => by rw [first] at checked; contradiction)
      fun later member => unchecked later (mem_cons_of_mem _ member)

end Book

end TorusHyperBft.OrderBook
