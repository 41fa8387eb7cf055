import TorusHyperBft.OrderBook.Tracked

namespace TorusHyperBft.OrderBook

open List Visited Ladder

/-! Every operation of a book journals what it does to the queues. -/

namespace Rewrites

variable {key : LevelKey} {marks others : List Mark} {row changed : OrderRow}
  {rows after : List OrderRow}

theorem dropHead (marked : Marked key marks row) (rest : Rewrites key others rows after) :
    Rewrites key (marks ++ others) (row :: rows) after :=
  ((@remove key marks [] rows row marked).mono (subset_append_left _ _)).trans
    (rest.mono (subset_append_right _ _))

theorem changeHead (marked : Marked key marks row) (sameSeq : changed.1 = row.1)
    (sameId : changed.id = row.id) (rest : Rewrites key others (changed :: rows) after) :
    Rewrites key (marks ++ others) (row :: rows) after :=
  ((@change key marks [] rows row changed marked sameSeq sameId).mono
    (subset_append_left _ _)).trans (rest.mono (subset_append_right _ _))

end Rewrites

section Matching

variable {env : MatchEnv} {key : LevelKey} {orderSeq : Nat → Option Nat} {maker : Order}
  {queue rest : Queue} {matching after : Matching}

theorem matchLoopMarks_cons (wants : 0 < matching.taker.remainingQty) :
    matchLoopMarks env key (maker :: rest) matching =
      match visit env key.price maker matching with
      | .selfTrade =>
        makerMarks key matching maker ++
          matchLoopMarks env key rest (matching.cancelSelfTrade maker)
      | .cut =>
        makerMarks key matching maker ++
          matchLoopMarks env key rest (matching.cutMaker maker)
      | .starved _ => []
      | .marginCancel after =>
        makerMarks key after maker ++
          matchLoopMarks env key rest (after.marginCancelMaker maker)
      | .fill quantity after =>
        let recorded := after.recordFill maker key.price quantity
        if maker.remainingQty - quantity = 0 then
          let popped := recorded.forget maker
          makerMarks key recorded maker ++
            if popped.exhausted then [] else matchLoopMarks env key rest popped
        else
          makerMarks key recorded maker ++
            if recorded.exhausted then []
            else matchLoopMarks env key (maker.filled quantity :: rest) recorded := by
  rw [matchLoopMarks, dif_pos wants]
  split <;> rename_i visited <;> rw [visited]

/-- The matching still has the sequence number of every queued order. -/
def Sequenced (orderSeq : Nat → Option Nat) (queue : Queue) (matching : Matching) : Prop :=
  ∀ order ∈ queue, (orderSeq order.id).isSome ∧
    matching.indexes.orderSeq order.id = orderSeq order.id

theorem Sequenced.marked (sequenced : Sequenced orderSeq (maker :: rest) matching)
    (same : after.indexes = matching.indexes) :
    Rewrites.Marked key (makerMarks key after maker) (maker.row orderSeq) := by
  obtain ⟨known, read⟩ := sequenced maker mem_cons_self
  obtain ⟨seq, found⟩ := Option.isSome_iff_exists.mp known
  constructor
  · simp [makerMarks, Order.row, OrderRow.id]
  · simp [makerMarks, Order.row, same, read, found]

theorem Sequenced.forgotten (sequenced : Sequenced orderSeq (maker :: rest) matching)
    (nodup : ((maker :: rest).map Order.id).Nodup)
    (same : after.indexes = matching.indexes.forget maker) : Sequenced orderSeq rest after := by
  intro order member
  have different : order.id ≠ maker.id := by
    intro equal
    exact (nodup_cons.mp nodup).1 (equal ▸ mem_map_of_mem member)
  obtain ⟨known, read⟩ := sequenced order (mem_cons_of_mem _ member)
  rw [same, forget_orderSeq, Function.update_of_ne different]
  exact ⟨known, read⟩

theorem matchLoop_rewrites (side : Side) (price : Int) (nodup : (queue.map Order.id).Nodup)
    (sequenced : Sequenced orderSeq queue matching) :
    Rewrites { side, price } (matchLoopMarks env { side, price } queue matching)
      (Queue.rows orderSeq queue)
      (Queue.rows orderSeq (matchAtLevel env price queue matching).1) := by
  fun_induction matchAtLevel env price queue matching with
  | case1 matching => exact .refl _ _
  | case2 maker queue matching wants visited ih =>
    rw [matchLoopMarks_cons wants, visited]
    exact .dropHead (sequenced.marked rfl)
      (ih (nodup_cons.mp nodup).2 (sequenced.forgotten nodup rfl))
  | case3 maker queue matching wants visited ih =>
    rw [matchLoopMarks_cons wants, visited]
    exact .dropHead (sequenced.marked rfl)
      (ih (nodup_cons.mp nodup).2 (sequenced.forgotten nodup rfl))
  | case4 maker queue matching wants after visited => exact .refl _ _
  | case5 maker queue matching wants after visited ih =>
    rw [matchLoopMarks_cons wants, visited]
    cases of_visit wants visited with
    | marginCancel other same seeded exhausted =>
      have forgotten : (after.marginCancelMaker maker).indexes =
          matching.indexes.forget maker := by
        rw [← same.indexes]
        rfl
      exact .dropHead (sequenced.marked same.indexes)
        (ih (nodup_cons.mp nodup).2 (sequenced.forgotten nodup forgotten))
  | case6 maker queue matching wants quantity after visited recorded done popped exhausted =>
    rw [matchLoopMarks_cons wants, visited]
    cases of_visit wants visited with
    | fill other policed same =>
      have recordedSame : recorded.indexes = matching.indexes := same.indexes
      dsimp only
      rw [if_pos done]
      exact .dropHead (sequenced.marked recordedSame) (.refl _ _)
  | case7 maker queue matching wants quantity after visited recorded done popped goesOn ih =>
    rw [matchLoopMarks_cons wants, visited]
    cases of_visit wants visited with
    | fill other policed same =>
      have recordedSame : recorded.indexes = matching.indexes := same.indexes
      have forgotten : popped.indexes = matching.indexes.forget maker := by
        rw [← recordedSame]
        rfl
      dsimp only
      rw [if_pos done, if_neg goesOn]
      exact .dropHead (sequenced.marked recordedSame)
        (ih (nodup_cons.mp nodup).2 (sequenced.forgotten nodup forgotten))
  | case8 maker queue matching wants quantity after visited recorded kept exhausted =>
    rw [matchLoopMarks_cons wants, visited]
    cases of_visit wants visited with
    | fill other policed same =>
      have recordedSame : recorded.indexes = matching.indexes := same.indexes
      dsimp only
      rw [if_neg kept]
      exact @Rewrites.changeHead _ _ _ _ ((maker.filled quantity).row orderSeq) _ _
        (sequenced.marked recordedSame) rfl rfl (.refl _ _)
  | case9 maker queue matching wants quantity after visited recorded kept goesOn ih =>
    rw [matchLoopMarks_cons wants, visited]
    cases of_visit wants visited with
    | fill other policed same =>
      have recordedSame : recorded.indexes = matching.indexes := same.indexes
      have still : Sequenced orderSeq (maker.filled quantity :: queue) recorded := by
        intro order member
        rw [recordedSame]
        rcases mem_cons.mp member with rfl | member
        · exact sequenced maker mem_cons_self
        · exact sequenced order (mem_cons_of_mem _ member)
      dsimp only
      rw [if_neg kept, if_neg goesOn]
      exact @Rewrites.changeHead _ _ _ _ ((maker.filled quantity).row orderSeq) _ _
        (sequenced.marked recordedSame) rfl rfl (ih nodup still)
  | case10 maker queue matching sated => exact .refl _ _

theorem matchAtLevel_orderSeq {price : Int} {id : Nat} (outside : id ∉ queue.map Order.id) :
    (matchAtLevel env price queue matching).2.indexes.orderSeq id =
      matching.indexes.orderSeq id := by
  have forgotten : ∀ (maker : Order) (rest : Queue) (indexes : Indexes),
      id ∉ (maker :: rest).map Order.id → (indexes.forget maker).orderSeq id = indexes.orderSeq id := by
    intro maker rest indexes apart
    rw [forget_orderSeq, Function.update_of_ne]
    exact fun same => apart (same ▸ mem_cons_self)
  fun_induction matchAtLevel env price queue matching with
  | case1 matching => rfl
  | case2 maker queue matching wants visited ih =>
    rw [ih fun member => outside (mem_cons_of_mem _ member)]
    exact forgotten maker queue _ outside
  | case3 maker queue matching wants visited ih =>
    rw [ih fun member => outside (mem_cons_of_mem _ member)]
    exact forgotten maker queue _ outside
  | case4 maker queue matching wants after visited =>
    cases of_visit wants visited with
    | starved other same => rw [same.indexes]
  | case5 maker queue matching wants after visited ih =>
    cases of_visit wants visited with
    | marginCancel other same =>
      rw [ih fun member => outside (mem_cons_of_mem _ member), ← same.indexes]
      exact forgotten maker queue _ outside
  | case6 maker queue matching wants quantity after visited recorded done popped exhausted =>
    cases of_visit wants visited with
    | fill other policed same =>
      rw [← same.indexes]
      exact forgotten maker queue _ outside
  | case7 maker queue matching wants quantity after visited recorded done popped goesOn ih =>
    cases of_visit wants visited with
    | fill other policed same =>
      rw [ih fun member => outside (mem_cons_of_mem _ member), ← same.indexes]
      exact forgotten maker queue _ outside
  | case8 maker queue matching wants quantity after visited recorded kept exhausted =>
    cases of_visit wants visited with
    | fill other policed same =>
      rw [← same.indexes]
      rfl
  | case9 maker queue matching wants quantity after visited recorded kept goesOn ih =>
    cases of_visit wants visited with
    | fill other policed same =>
      rw [ih outside, ← same.indexes]
      rfl
  | case10 maker queue matching sated => rfl

theorem executeMatch_tracked {side : Side} {ladder : Ladder} {others : Nat → Option Nat}
    (wf : LadderWf side others ladder) (nodup : (ladder.orders.map Order.id).Nodup)
    (sequenced : Sequenced orderSeq ladder.orders matching) (price : Int) :
    TrackedAt { side, price } (executeMatchMarks env side ladder matching)
      (ladder.rowsAt orderSeq price)
      ((executeMatch env side ladder matching).1.rowsAt orderSeq price) := by
  induction ladder generalizing matching with
  | nil => exact .refl _ _
  | cons level ladder ih =>
    obtain ⟨own, queue⟩ := level
    rw [orders_cons] at nodup sequenced
    rw [map_append, nodup_append] at nodup
    obtain ⟨nodupQueue, nodupRest, apart⟩ := nodup
    unfold executeMatch executeMatchMarks
    by_cases ready : 0 < matching.taker.remainingQty ∧ matching.exhausted = false ∧
        withinLimit side own matching.taker.price = true
    · have nonempty := (wf.levels _ mem_cons_self).nonempty
      have first := @matchLoop_rewrites env orderSeq queue matching side own nodupQueue
        fun order member => sequenced order (mem_append_left _ member)
      have frame : ∀ order ∈ Ladder.orders ladder,
          (matchAtLevel env own queue matching).2.indexes.orderSeq order.id =
            matching.indexes.orderSeq order.id := by
        intro order member
        apply matchAtLevel_orderSeq
        intro inQueue
        exact apart _ inQueue _ (mem_map_of_mem member) rfl
      rw [if_pos ready, if_pos ready]
      generalize matchAtLevel env own queue matching = outcome at first frame ⊢
      obtain ⟨left, after⟩ := outcome
      dsimp only at first frame ⊢
      have opened : matchLevelMarks env { side, price := own } queue matching =
          [.level { side, price := own }, .epoch { side, price := own }] ++
            matchLoopMarks env { side, price := own } queue matching := by
        rw [matchLevelMarks, if_pos ⟨ready.1, nonempty⟩]
      have ownLevel : TrackedAt { side, price := own }
          (matchLevelMarks env { side, price := own } queue matching)
          (Queue.rows orderSeq queue) (Queue.rows orderSeq left) := by
        apply TrackedAt.changed
        · exact first.mono (opened ▸ subset_append_right _ _)
        · simp [opened]
        · simp [opened]
      by_cases empty : left.isEmpty = true
      · rw [if_pos empty, if_pos empty]
        have later := ih wf.tail nodupRest fun order member => by
          obtain ⟨known, read⟩ := sequenced order (mem_append_right _ member)
          exact ⟨known, (frame order member).trans read⟩
        apply TrackedAt.trans _ later
        by_cases same : own = price
        · subst same
          have gone : Ladder.get ladder own = none := get_absent fun level member =>
            betterPrice_ne ((pairwise_cons.mp wf.sorted).1 level member)
          rw [List.isEmpty_iff.mp empty] at ownLevel
          simpa [Ladder.rowsAt, get_cons, gone] using ownLevel
        · simp only [Ladder.rowsAt, get_cons, if_neg same]
          exact .refl _ _
      · rw [if_neg empty, if_neg empty, append_nil]
        by_cases same : own = price
        · subst same
          simpa [Ladder.rowsAt, get_cons] using ownLevel
        · simp only [Ladder.rowsAt, get_cons, if_neg same]
          exact .refl _ _
    · rw [if_neg ready, if_neg ready]
      exact .refl _ _

end Matching

namespace Book

variable {order : Order}

section Placing

variable {book : Book}

theorem Valid.tracked_afterMatch (valid : book.Valid) (env : MatchEnv) (side : Side)
    (start : Matching) (wants : 0 ≤ start.taker.remainingQty)
    (indexes : start.indexes = book.indexes) (noFills : start.fills = [])
    (noCancels : start.selfTradeCancels = []) (noCuts : start.reduceOnlyCuts = [])
    (noMarginCancels : start.marginCancels = []) :
    Tracked book (executeMatchMarks env side (book.ladder side) start)
      (book.afterMatch side (executeMatch env side (book.ladder side) start).1
        (executeMatch env side (book.ladder side) start).2) := by
  have run := valid.matchRun env side start wants indexes noFills noCancels noCuts noMarginCancels
  have nodup : ((book.ladder side).orders.map Order.id).Nodup := by
    have whole := ((resting_perm book side).map Order.id).nodup_iff.mp valid.nodup
    rw [map_append] at whole
    exact (nodup_append.mp whole).1
  have sequenced : Sequenced book.indexes.orderSeq (book.ladder side).orders start := by
    intro order member
    obtain ⟨seq, found⟩ := valid.seq_of_resting ((mem_resting side).mpr (Or.inl member))
    rw [indexes, found]
    exact ⟨rfl, rfl⟩
  have levels := @executeMatch_tracked env book.indexes.orderSeq start side (book.ladder side) _
    (valid.ladders side) nodup sequenced
  generalize executeMatch env side (book.ladder side) start = outcome at run levels ⊢
  obtain ⟨ladder, matched⟩ := outcome
  dsimp only at run levels ⊢
  -- What still rests kept its sequence number.
  have kept : ∀ order ∈ ladder.orders ++ (book.ladder side.opposite).orders,
      matched.indexes.orderSeq order.id = book.indexes.orderSeq order.id := by
    intro order member
    have known : (matched.indexes.orderSeq order.id).isSome := by
      rw [run.covers.sequenced, map_map]
      exact mem_map_of_mem member
    obtain ⟨seq, found⟩ := Option.isSome_iff_exists.mp known
    rw [found, run.orderSeq order.id seq found]
  intro key
  obtain ⟨keySide, price⟩ := key
  rcases Side.eq_or_opposite side keySide with rfl | rfl
  · have after : (book.afterMatch keySide ladder matched).rowsAt { side := keySide, price } =
        ladder.rowsAt book.indexes.orderSeq price := by
      rw [rowsAt_eq, queueAt, afterMatch_ladder, afterMatch_frame.1]
      apply Queue.rows_congr
      intro order member
      exact kept order (mem_append_left _ (mem_getD member))
    rw [after]
    exact levels price
  · have after : (book.afterMatch side ladder matched).rowsAt { side := side.opposite, price } =
        book.rowsAt { side := side.opposite, price } := by
      rw [rowsAt_eq, rowsAt_eq, queueAt, afterMatch_opposite, afterMatch_frame.1]
      apply Queue.rows_congr
      intro order member
      exact kept order (mem_append_right _ (mem_getD member))
    rw [after]
    exact .refl _ _

theorem tracked_sweepOrder {sweep : Sweep} (valid : sweep.book.Valid) (trader : Address)
    (reducesBuy : Bool) (id : Nat) :
    Tracked sweep.book (sweepOrderMarks reducesBuy sweep id)
      (sweepOrder trader reducesBuy sweep id).book := by
  cases found : sweep.book.getOrder id with
  | none =>
    simp only [sweepOrderMarks, sweepOrder, found]
    exact .unchanged (fun _ => rfl) _
  | some order =>
    simp only [sweepOrderMarks, sweepOrder, found]
    by_cases whole : sweepKeep reducesBuy sweep.budget order = order.remainingQty
    · rw [if_pos whole, if_pos whole]
      exact .unchanged (fun _ => rfl) _
    · rw [if_neg whole, if_neg whole]
      by_cases gone : sweepKeep reducesBuy sweep.budget order = 0
      · rw [if_pos gone, if_pos gone]
        have tracked := valid.tracked_cancelOrder id
        generalize sweep.book.cancelOrder id = result at tracked ⊢
        obtain ⟨after, applied⟩ := result
        cases applied <;> exact tracked
      · rw [if_neg gone, if_neg gone]
        have tracked := valid.tracked_modifyOrder id none
          (some (sweepKeep reducesBuy sweep.budget order))
        generalize sweep.book.modifyOrder id none
          (some (sweepKeep reducesBuy sweep.budget order)) = result at tracked ⊢
        obtain ⟨after, applied⟩ := result
        cases applied <;> exact tracked

theorem tracked_sweeps {sweep : Sweep} (valid : sweep.book.Valid) (trader : Address)
    (reducesBuy : Bool) (ids : List Nat) :
    Tracked sweep.book (sweepMarks trader reducesBuy sweep ids)
      (ids.foldl (sweepOrder trader reducesBuy) sweep).book := by
  induction ids generalizing sweep with
  | nil => exact .unchanged (fun _ => rfl) _
  | cons id ids ih =>
    have first := tracked_sweepOrder valid trader reducesBuy id
    have next := (sweepOrder_swept valid trader reducesBuy id).valid
    exact first.trans (ih next)

theorem Valid.tracked_sweepReduceOnly (valid : book.Valid) (trader : Address)
    (cuts : List ReduceOnlyCut) :
    Tracked book (book.sweepReduceOnlyMarks trader cuts) (book.sweepReduceOnly trader cuts).1 := by
  unfold sweepReduceOnlyMarks Book.sweepReduceOnly
  cases book.reduceOnlyPositions.get trader with
  | none => exact .unchanged (fun _ => rfl) _
  | some position => exact @tracked_sweeps { book, cuts, budget := _ } valid trader _ _

theorem Valid.tracked_sweepReduceOnlyAt (valid : book.Valid) (trader : Address) (signedPos : Int) :
    Tracked book (book.sweepReduceOnlyAtMarks trader signedPos)
      (book.sweepReduceOnlyAt trader signedPos).1 := by
  have policed : Book.Valid { book with
      reduceOnlyPositions := ({} : ReduceOnlyPositions).insert trader signedPos } :=
    valid.congr rfl rfl rfl rfl rfl rfl
  exact policed.tracked_sweepReduceOnly trader []

theorem tracked_sweepTouched (taker : Address) (traders : List Address)
    (state : Book × List ReduceOnlyCut × Option Int) (valid : state.1.Valid) :
    Tracked state.1 (sweepTouchedMarks taker state traders)
      (traders.foldl (sweepNext taker) state).1 := by
  induction traders generalizing state with
  | nil => exact .unchanged (fun _ => rfl) _
  | cons trader traders ih =>
    obtain ⟨book, cuts, left⟩ := state
    have first := valid.tracked_sweepReduceOnly trader cuts
    have next := (valid.sweepReduceOnly trader cuts).valid
    exact first.trans (ih (sweepNext taker (book, cuts, left) trader) next)

theorem Valid.tracked_sweepMatched (valid : book.Valid) (placement : Placement)
    (matched : Matching) :
    Tracked book (book.sweepMatchedMarks placement matched)
      (book.sweepMatched placement matched).1 := by
  unfold sweepMatchedMarks Book.sweepMatched
  split
  · exact .unchanged (fun _ => rfl) _
  · exact tracked_sweepTouched placement.trader _ (book, matched.reduceOnlyCuts, none) valid

theorem retainStops_rowsAt (book : Book) (keep : StopOrder → Bool) (key : LevelKey) :
    (book.retainStops keep).rowsAt key = book.rowsAt key := by
  rw [rowsAt_eq, (retainStops_frame book keep).2.2]
  rfl

theorem Valid.tracked_settle (valid : book.Valid) (placement : Placement)
    (exhausted unfilled : Bool) (left : Option Int)
    (unused : order.id ∉ book.resting.map Order.id) :
    Tracked book (book.settleMarks placement order exhausted left)
      (book.settle placement order exhausted unfilled left).1 := by
  unfold settleMarks Book.settle
  by_cases done : order.remainingQty = 0
  · rw [if_pos done, if_pos done]
    exact .unchanged (fun _ => rfl) _
  · rw [if_neg done, if_neg done]
    by_cases cancelled : placement.params.orderType = .market ∨ exhausted ∨
        placement.params.timeInForce = .ioc ∨ placement.params.timeInForce = .fok
    · rw [if_pos cancelled, if_pos cancelled]
      exact .unchanged (fun _ => rfl) _
    · rw [if_neg cancelled, if_neg cancelled]
      dsimp only
      by_cases nothing : restQuantity order left = 0
      · rw [if_pos nothing, if_pos nothing]
        cases unfilled <;> exact .unchanged (fun _ => rfl) _
      · rw [if_neg nothing, if_neg nothing]
        exact valid.tracked_insertOrder unused

theorem tracked_finish {swept : Book} {marks : List Mark} {placement : Placement}
    {matched : Matching} {cuts : List ReduceOnlyCut} {left : Option Int}
    (settled : Tracked swept marks (swept.settle placement matched.taker matched.exhausted
      matched.fills.isEmpty left).1) :
    Tracked swept marks (swept.finish placement matched cuts left).1 := by
  unfold Book.finish
  generalize swept.settle placement matched.taker matched.exhausted matched.fills.isEmpty left =
    outcome at settled ⊢
  obtain ⟨after, status, restedQty, reject⟩ := outcome
  dsimp only at settled ⊢
  obtain ⟨accountMargins, charged⟩ := chargeTaker_frame after placement matched.margin restedQty
  rw [charged]
  intro key
  have same : (Book.fireStops { after with accountMargins } matched.fills).1.rowsAt key =
      after.rowsAt key := by
    unfold Book.fireStops Book.triggerStops
    split
    · rfl
    · cases after.lastTradePrice with
      | none => rfl
      | some price => exact retainStops_rowsAt _ _ key
  rw [same]
  exact settled key

theorem Valid.tracked_matchOrder (valid : book.Valid) (placement : Placement)
    (margin : Option MatchMargin) (wants : 0 ≤ order.remainingQty)
    (unused : order.id ∉ book.resting.map Order.id) :
    Tracked book (book.matchOrderMarks placement order margin)
      (book.matchOrder placement order margin).1 := by
  unfold matchOrderMarks Book.matchOrder
  dsimp only
  have run := valid.matchRun { marketId := book.marketId, makers := placement.makers }
    order.side.opposite (book.startMatching placement order margin) wants rfl rfl rfl rfl rfl
  have matching := valid.tracked_afterMatch
    { marketId := book.marketId, makers := placement.makers } order.side.opposite
    (book.startMatching placement order margin) wants rfl rfl rfl rfl rfl
  generalize executeMatch _ order.side.opposite (book.ladder order.side.opposite)
    (book.startMatching placement order margin) = outcome at run matching ⊢
  obtain ⟨ladder, matched⟩ := outcome
  dsimp only at run matching ⊢
  have rematched := run.valid_after valid
  have sweeping := rematched.tracked_sweepMatched placement matched
  have swept := (rematched.sweepMatched placement matched).1
  generalize Book.sweepMatched _ placement matched = outcome at sweeping swept ⊢
  obtain ⟨after, cuts, left⟩ := outcome
  dsimp only at sweeping swept ⊢
  obtain ⟨gone, rest, progress⟩ := run.progress
  have sameTaker : matched.taker.terms = order.terms := progress.sameTaker
  have stillUnused : matched.taker.id ∉ after.resting.map Order.id := by
    intro rests
    obtain ⟨resting, member, sameId⟩ := mem_map.mp rests
    obtain ⟨middle, inMatched, sameMiddle, _⟩ := swept.shrinks resting member
    obtain ⟨old, inBook, sameOld⟩ := run.terms_before inMatched
    apply unused
    rw [← Order.terms_id sameTaker, ← sameId, ← Order.terms_id sameMiddle, ← Order.terms_id sameOld]
    exact mem_map_of_mem inBook
  exact matching.trans (sweeping.trans (tracked_finish (swept.valid.tracked_settle placement
    matched.exhausted matched.fills.isEmpty left stillUnused)))

theorem Valid.tracked_placeMatched (valid : book.Valid) (placement : Placement) {orderId : Nat}
    {quantity : Int} (wants : 0 ≤ quantity) (unused : orderId ∉ book.resting.map Order.id) :
    Tracked book (book.placeMatchedMarks placement orderId quantity)
      (book.placeMatched placement orderId quantity).1 := by
  have matched : ∀ margin, Tracked book
      (book.matchOrderMarks placement (takerOrder placement orderId quantity) margin)
      (book.matchOrder placement (takerOrder placement orderId quantity) margin).1 :=
    fun margin => valid.tracked_matchOrder placement margin wants unused
  unfold placeMatchedMarks placeMatched
  dsimp only
  by_cases fillOrKill : placement.params.timeInForce = .fok
  · rw [if_pos fillOrKill, if_pos fillOrKill]
    generalize fokFits _ quantity _ _ = walked
    obtain ⟨fits, margin⟩ := walked
    cases fits with
    | true => exact matched margin
    | false => exact .unchanged (fun _ => rfl) _
  · rw [if_neg fillOrKill, if_neg fillOrKill]
    exact matched _

theorem ReadyFor.tracked_placeOrder {placement : Placement} (ready : book.ReadyFor placement) :
    Tracked book (book.placeMarks placement) (book.placeOrder placement).1 := by
  unfold placeMarks Book.placeOrder
  dsimp only
  have allocated : Tracked book [] book.allocId := .unchanged (fun _ => rfl) _
  cases accepted : book.allocId.shapeReject placement with
  | some reason => exact allocated
  | none =>
    dsimp only
    cases terms : stopTerms placement.params with
    | some stop =>
      obtain ⟨trigger, limitPrice, priceCap⟩ := stop
      dsimp only
      unfold Book.placeStop
      cases book.allocId.stopReject placement trigger with
      | some reason => exact allocated
      | none =>
        apply Tracked.unchanged
        intro key
        rw [rowsAt_eq, rowsAt_eq]
        dsimp only
        rw [(Covers.indexCloid_frame _ _ _ _).2.2]
        rfl
    | none =>
      dsimp only
      cases clamped : book.allocId.matchQuantity placement with
      | error reason => exact allocated
      | ok quantity =>
        have lot := shapeReject_quantity accepted
        have lotSize : 0 < book.allocId.lotSize := ready.lotSize
        have positive := (matchQuantity_positive (by omega) clamped).1
        exact allocated.trans (ready.valid.allocId.tracked_placeMatched placement
          (by omega) ready.unused)

end Placing

section Cancelling

variable {book after : Book} {trader : Address} {orders : List Order}

def allRemovalMarks (indexes : Indexes) (orders : List Order) : List Mark :=
  orders.flatMap fun order => removalMarks indexes order.levelKey order.id

theorem removalMarks_subset {indexes : Indexes} (member : order ∈ orders) :
    removalMarks indexes order.levelKey order.id ⊆ allRemovalMarks indexes orders :=
  fun _ mark => mem_flatMap.mpr ⟨order, member, mark⟩

theorem allRemovalMarks_congr {indexes others : Indexes}
    (same : ∀ order ∈ orders, indexes.orderSeq order.id = others.orderSeq order.id) :
    allRemovalMarks indexes orders = allRemovalMarks others orders := by
  rw [allRemovalMarks, allRemovalMarks, flatMap_def, flatMap_def]
  congr 1
  apply map_congr_left
  intro order member
  rw [removalMarks, removalMarks, same order member]

theorem unindexMarks_eq {indexes : Indexes} (nodup : (orders.map Order.id).Nodup)
    (known : ∀ order ∈ orders, indexes.orderIndex order.id =
      some { side := order.side, price := order.price }) :
    unindexMarks indexes orders = allRemovalMarks indexes orders := by
  induction orders generalizing indexes with
  | nil => rfl
  | cons first rest ih =>
    have others : ∀ other ∈ rest, other.id ≠ first.id := by
      intro other inRest same
      exact (nodup_cons.mp nodup).1 (same ▸ mem_map_of_mem inRest)
    have stillKnown : ∀ other ∈ rest, (unindex indexes first.id).orderIndex other.id =
        some { side := other.side, price := other.price } := by
      intro other inRest
      rw [unindex]
      dsimp only
      rw [Function.update_of_ne (others other inRest)]
      exact known other (mem_cons_of_mem _ inRest)
    have same : ∀ other ∈ rest,
        (unindex indexes first.id).orderSeq other.id = indexes.orderSeq other.id := by
      intro other inRest
      rw [unindex]
      dsimp only
      rw [Function.update_of_ne (others other inRest)]
    rw [unindexMarks, known first mem_cons_self, ih (nodup_cons.mp nodup).2 stillKnown,
      allRemovalMarks_congr same]
    rfl

theorem Removed.cancelEachMarks_eq {base : Book} {cancelled : List Order}
    (stacked : base.Stacked) (removed : Removed base cancelled book)
    (left : order.id ∉ cancelled.map Order.id)
    (indexed : base.indexes.orderIndex order.id =
      some { side := order.side, price := order.price })
    (placed : order ∈ (base.ladder order.side).orders) :
    book.cancelEachMarks order.id = removalMarks base.indexes order.levelKey order.id := by
  have inLadder : order ∈ (book.ladder order.side).orders := by
    rw [removed.ladders, orders_without]
    exact Queue.mem_without.mpr ⟨placed, left⟩
  obtain ⟨queue, level, inQueue⟩ :=
    ((removed.stacked stacked).ladders order.side).get_price inLadder
  obtain ⟨position, _, positioned, _⟩ :=
    @Indexes.queuePosition_found book.indexes queue order inQueue
  have index : book.indexes.orderIndex order.id =
      some { side := order.side, price := order.price } := by
    rw [removed.indexes, unindexAll_orderIndex, if_neg left, indexed]
  simp only [cancelEachMarks, index, level, positioned]
  rw [removalMarks, removalMarks, removed.indexes, unindexAll_orderSeq, if_neg left]
  rfl

theorem Removed.cancelLoopMarks_eq {base : Book} {cancelled : List Order}
    (stacked : base.Stacked) (removed : Removed base cancelled book)
    (nodup : ((cancelled ++ orders).map Order.id).Nodup)
    (known : ∀ order ∈ orders, base.indexes.orderIndex order.id =
      some { side := order.side, price := order.price } ∧
        order ∈ (base.ladder order.side).orders) :
    cancelLoopMarks (book, cancelled) (orders.map Order.id) =
      allRemovalMarks base.indexes orders := by
  induction orders generalizing book cancelled with
  | nil => rfl
  | cons first orders ih =>
    have left : first.id ∉ cancelled.map Order.id := by
      rw [map_append, nodup_append] at nodup
      exact fun member => nodup.2.2 first.id member first.id mem_cons_self rfl
    obtain ⟨indexed, placed⟩ := known first mem_cons_self
    have own := removed.cancelEachMarks_eq stacked left indexed placed
    obtain ⟨next, taken, step⟩ := removed.cancelEach stacked left indexed placed
    rw [append_cons] at nodup
    rw [map_cons, cancelLoopMarks, own, taken,
      ih step nodup fun other member => known other (mem_cons_of_mem _ member)]
    rfl

variable (epochFits : LevelKey → Nat → Bool)

theorem AllOf.journaled (valid : book.Valid) (all : AllOf book trader orders) :
    book.cancelAllRestingMarks epochFits trader = allRemovalMarks book.indexes orders := by
  have stacked := dropTrader_stacked valid trader
  unfold cancelAllRestingMarks
  dsimp only
  cases taken : (book.dropTrader trader).tryCancelAllBatch epochFits
      (book.indexes.traderOrders trader) with
  | some result =>
    obtain ⟨after, cancelled⟩ := result
    obtain ⟨named, rests, removed⟩ := tryCancelAllBatch_removed stacked taken
    dsimp only
    rw [(valid.allOf named rests).eq_ordersOf valid, ← all.eq_ordersOf valid]
    exact unindexMarks_eq (all.nodup valid) fun order member => (all.known valid member).1
  | none =>
    have looped := (Removed.nothing stacked).cancelLoopMarks_eq stacked
      (by rw [nil_append]; exact all.nodup valid) fun _ member => all.known valid member
    rw [← all.listed]
    exact looped

theorem Valid.tracked_withdrawn (valid : book.Valid) (done : Withdrawn book orders after)
    (rests : ∀ order ∈ orders, order ∈ book.resting) {marks : List Mark}
    (journaled : ∀ order ∈ orders, removalMarks book.indexes order.levelKey order.id ⊆ marks) :
    Tracked book marks after := by
  apply valid.tracked_without done.ladders
  · intro id kept
    rw [done.indexes, forgetAll_orderSeq, if_neg kept]
  · intro order member gone
    obtain ⟨other, inOrders, same⟩ := mem_map.mp gone
    rw [← inj_on_of_nodup_map valid.nodup (rests other inOrders) member same]
    exact journaled other inOrders

theorem Valid.tracked_cancelAll (valid : book.Valid) (trader : Address) :
    Tracked book (book.cancelAllMarks epochFits trader) (book.cancelAll epochFits trader).1 := by
  have retained := valid.retainStops fun stop => decide (stop.trader ≠ trader)
  obtain ⟨after, orders, cancelled, all, removed⟩ := retained.cancelAllResting epochFits trader
  have done := retained.cancelAll_withdrawn all removed
  have withdrawn := retained.tracked_withdrawn done (fun order member => (all.rests order member).1)
    fun order member => removalMarks_subset member
  rw [← all.journaled epochFits retained] at withdrawn
  unfold Book.cancelAll cancelAllMarks
  dsimp only
  rw [cancelled]
  intro key
  rw [← retainStops_rowsAt book fun stop => decide (stop.trader ≠ trader)]
  exact withdrawn key

theorem Valid.tracked_cancelAllEach (valid : book.Valid) (senders : List Address)
    (out : List (List Order)) :
    Tracked book (book.cancelAllEachMarks epochFits senders)
      (senders.foldl (fun (state : Book × List (List Order)) sender =>
        let (book, cancelled) := state.1.cancelAll epochFits sender
        (book, state.2 ++ [cancelled])) (book, out)).1 := by
  induction senders generalizing book out with
  | nil => exact .unchanged (fun _ => rfl) _
  | cons sender senders ih =>
    have first := valid.tracked_cancelAll epochFits sender
    exact first.trans (ih (valid.cancelAll epochFits sender).valid _)

theorem Valid.tracked_cancelAllMany (valid : book.Valid) (senders : List Address) :
    Tracked book (book.cancelAllManyMarks epochFits senders)
      (book.cancelAllMany epochFits senders).1 := by
  unfold Book.cancelAllMany cancelAllManyMarks
  cases planned : book.planCancelAllMany epochFits senders with
  | none => exact valid.tracked_cancelAllEach epochFits senders []
  | some levels =>
    obtain ⟨next, done, rests, named, nodup, applied⟩ :=
      valid.cancelAllMany_withdrawn epochFits senders planned
    rw [← named] at nodup
    dsimp only
    rw [applied]
    rw [unindexMarks_eq nodup fun order member => valid.orderIndex (rests order member)]
    have withdrawn := valid.tracked_withdrawn done rests fun order member =>
      removalMarks_subset member
    intro key
    rw [retainStops_rowsAt]
    exact withdrawn key

end Cancelling

end Book

theorem Desk.Inv.tracked {desk : Desk} (inv : desk.Inv) {op : Op} (allowed : desk.Allowed op) :
    Tracked desk.book (desk.marks op) (desk.step op).book := by
  have valid := inv.sound.valid
  cases op with
  | setReduceOnlyPositions positions => exact .unchanged (fun _ => rfl) _
  | setAccountMargins margins => exact .unchanged (fun _ => rfl) _
  | place placement => exact (inv.sound.readyFor allowed).tracked_placeOrder
  | placeTriggered id placement =>
    obtain ⟨member, looked⟩ := allowed
    obtain ⟨notResting, notStop⟩ := inv.offBook id member
    have ready : Book.ReadyFor { desk.book with nextId := id } placement :=
      ⟨valid.congr rfl rfl rfl rfl rfl rfl, inv.sound.lotSize, notResting, notStop, looked⟩
    exact ready.tracked_placeOrder
  | cancelOrder id => exact valid.tracked_cancelOrder id
  | cancelAll epochFits trader => exact valid.tracked_cancelAll epochFits trader
  | cancelAllMany epochFits senders => exact valid.tracked_cancelAllMany epochFits senders
  | cancelStop id =>
    apply Tracked.unchanged
    intro key
    simp only [Desk.step, Book.cancelStop]
    split
    · rfl
    · rw [Book.rowsAt_eq, Book.rowsAt_eq]
      dsimp only
      rw [(forgetCloid_frame _ _ _ _).2.2]
      rfl
  | takePendingStops trader => exact .unchanged (Book.retainStops_rowsAt _ _) _
  | sweepReduceOnlyAt trader signedPos => exact valid.tracked_sweepReduceOnlyAt trader signedPos
  | modifyOrder id newPrice newQty => exact valid.tracked_modifyOrder id newPrice newQty

end TorusHyperBft.OrderBook
