import TorusHyperBft.OrderBook.Depth

namespace TorusHyperBft.OrderBook

open List Ladder

/-! What the depth of some orders is, however it is computed: for each price they are at one level,
the best price first. -/

def atPrice (orders : List Order) (price : Int) : List Order :=
  orders.filter fun order => decide (order.price = price)

def totalAt (orders : List Order) (price : Int) : Int :=
  ((atPrice orders price).map Order.remainingQty).sum

theorem atPrice_perm {orders others : List Order} (same : orders.Perm others) (price : Int) :
    (atPrice orders price).Perm (atPrice others price) :=
  same.filter _

theorem totalAt_perm {orders others : List Order} (same : orders.Perm others) (price : Int) :
    totalAt orders price = totalAt others price :=
  ((atPrice_perm same price).map Order.remainingQty).sum_eq

/-- One entry for each price, the best first, with its total and count. -/
structure DepthOf (side : Side) (orders : List Order) (levels : List DepthLevel) : Prop where
  sorted : levels.Pairwise fun first second => betterPrice side first.price second.price = true
  levels : ∀ level, level ∈ levels ↔ atPrice orders level.price ≠ [] ∧
    level.quantity = totalAt orders level.price ∧
    level.orderCount = (atPrice orders level.price).length % 2 ^ 32

namespace DepthOf

variable {side : Side} {orders others : List Order} {levels otherLevels : List DepthLevel}

theorem unique (left : DepthOf side orders levels) (right : DepthOf side orders otherLevels) :
    levels = otherLevels := by
  have asymm : ∀ first second : DepthLevel, betterPrice side first.price second.price = true →
      ¬ betterPrice side second.price first.price = true := by
    intro first second better
    cases side <;> simp only [betterPrice, decide_eq_true_eq] at * <;> omega
  have irrefl : Std.Irrefl fun first second : DepthLevel =>
      betterPrice side first.price second.price = true :=
    ⟨fun level better => asymm level level better better⟩
  have antisymm : Std.Antisymm fun first second : DepthLevel =>
      betterPrice side first.price second.price = true :=
    ⟨fun first second better worse => absurd worse (asymm first second better)⟩
  exact List.Pairwise.eq_of_mem_iff left.sorted right.sorted fun level => by
    rw [left.levels, right.levels]

theorem perm (same : orders.Perm others) (depth : DepthOf side orders levels) :
    DepthOf side others levels := by
  refine ⟨depth.sorted, fun level => ?_⟩
  have length := (atPrice_perm same level.price).length_eq
  rw [depth.levels, totalAt_perm same, length]
  refine and_congr_left fun _ => not_congr ?_
  rw [← length_eq_zero_iff, length, length_eq_zero_iff]

end DepthOf

section Memory

variable {side : Side} {ladder : Ladder}

/-- A ladder of levels that are not empty, the best price first. -/
structure Shaped (side : Side) (ladder : Ladder) : Prop where
  sorted : ladder.Pairwise fun first second => betterPrice side first.1 second.1 = true
  placed : ∀ level ∈ ladder, level.2 ≠ [] ∧ ∀ order ∈ level.2, order.price = level.1

theorem LadderWf.shaped {orderSeq : Nat → Option Nat} (wf : LadderWf side orderSeq ladder) :
    Shaped side ladder where
  sorted := wf.sorted
  placed level member := ⟨(wf.levels level member).nonempty,
    fun order inQueue => ((wf.levels level member).placed order inQueue).2⟩

theorem Shaped.pushBack (shaped : Shaped side ladder) (order : Order) :
    Shaped side (ladder.pushBack side order) where
  sorted := pushBack_sorted shaped.sorted
  placed level member := by
    rcases mem_pushBack member with old | rfl | ⟨queue, old, rfl⟩
    · exact shaped.placed level old
    · exact ⟨cons_ne_nil _ _, fun other inQueue => by rw [mem_singleton.mp inQueue]⟩
    · refine ⟨by simp, fun other inQueue => ?_⟩
      rcases mem_append.mp inQueue with inQueue | inQueue
      · exact (shaped.placed _ old).2 other inQueue
      · rw [mem_singleton.mp inQueue]

theorem atPrice_append (first second : List Order) (price : Int) :
    atPrice (first ++ second) price = atPrice first price ++ atPrice second price :=
  filter_append ..

theorem Shaped.atPrice_level (shaped : Shaped side ladder) {price : Int} {queue : Queue}
    (member : (price, queue) ∈ ladder) : atPrice ladder.orders price = queue := by
  have apart : ∀ {first second : Int}, betterPrice side first second = true → first ≠ second := by
    rintro first second better rfl
    cases side <;> simp [betterPrice] at better
  have others : ∀ levels : Ladder, (∀ level ∈ levels, level ∈ ladder) →
      (∀ level ∈ levels, level.1 ≠ price) → atPrice levels.orders price = [] := by
    intro levels inLadder different
    refine filter_eq_nil_iff.mpr fun order inOrders => ?_
    obtain ⟨level, inLevels, inQueue⟩ := mem_orders.mp inOrders
    rw [decide_eq_true_eq, (shaped.placed level (inLadder level inLevels)).2 order inQueue]
    exact different level inLevels
  obtain ⟨before, after, rfl⟩ := append_of_mem member
  obtain ⟨_, sortedRest, across⟩ := pairwise_append.mp shaped.sorted
  have whole : atPrice queue price = queue := filter_eq_self.mpr fun order inQueue => by
    rw [decide_eq_true_eq]
    exact (shaped.placed _ member).2 order inQueue
  rw [orders_append, orders_cons, atPrice_append, atPrice_append, whole,
    others before (fun level inBefore => mem_append_left _ inBefore) fun level inBefore =>
      apart (across level inBefore _ mem_cons_self),
    others after (fun level inAfter => mem_append_right _ (mem_cons_of_mem _ inAfter))
      fun level inAfter => (apart ((pairwise_cons.mp sortedRest).1 level inAfter)).symm]
  simp

theorem Shaped.level_of_atPrice (shaped : Shaped side ladder) {price : Int}
    (some : atPrice ladder.orders price ≠ []) : ∃ queue, (price, queue) ∈ ladder := by
  obtain ⟨order, member⟩ := exists_mem_of_ne_nil _ some
  obtain ⟨inOrders, same⟩ := mem_filter.mp member
  obtain ⟨level, inLadder, inQueue⟩ := mem_orders.mp inOrders
  have price := (shaped.placed level inLadder).2 order inQueue
  rw [decide_eq_true_eq] at same
  exact ⟨level.2, by rw [← same, price]; exact inLadder⟩

theorem foldlM_checkedAdd {queue : Queue} {start total : Int} (fits : IsI128 start)
    (summed : queue.foldlM (fun total order => FixedPoint.checkedAdd total order.remainingQty) start =
      some total) : total = start + (queue.map Order.remainingQty).sum ∧ IsI128 total := by
  induction queue generalizing start with
  | nil =>
    cases summed
    exact ⟨(Int.add_zero _).symm, fits⟩
  | cons order queue ih =>
    rw [foldlM_cons] at summed
    obtain ⟨next, added, rest⟩ := Option.bind_eq_some_iff.mp summed
    unfold FixedPoint.checkedAdd FixedPoint.fit at added
    split at added
    · rename_i range
      cases added
      have nextFits : IsI128 (start + order.remainingQty) := by
        unfold FixedPoint.minRaw FixedPoint.maxRaw at range
        unfold IsI128
        omega
      obtain ⟨sum, totalFits⟩ := ih nextFits rest
      refine ⟨?_, totalFits⟩
      rw [sum, map_cons, sum_cons, Int.add_assoc]
    · contradiction

theorem Queue.total_some {queue : Queue} {total : Int} (summed : queue.total = some total) :
    total = (queue.map Order.remainingQty).sum ∧ IsI128 total := by
  have sum := foldlM_checkedAdd (show IsI128 0 by unfold IsI128; omega) summed
  rwa [Int.zero_add] at sum

variable {summed : List (Int × Int × Nat)}

theorem Ladder.depth_some (depth : ladder.depth = some summed) :
    summed = ladder.map (fun level => (level.1, (level.2.map Order.remainingQty).sum, level.2.length)) ∧
      ∀ level ∈ ladder, IsI128 (level.2.map Order.remainingQty).sum := by
  unfold Ladder.depth at depth
  induction ladder generalizing summed with
  | nil =>
    cases depth
    exact ⟨rfl, fun level member => absurd member not_mem_nil⟩
  | cons level ladder ih =>
    rw [mapM_cons] at depth
    obtain ⟨first, computed, rest⟩ := Option.bind_eq_some_iff.mp depth
    obtain ⟨total, summedUp, rfl⟩ := Option.map_eq_some_iff.mp computed
    obtain ⟨others, computedRest, same⟩ := Option.bind_eq_some_iff.mp rest
    obtain ⟨sum, fits⟩ := Queue.total_some summedUp
    obtain ⟨later, laterFit⟩ := ih computedRest
    cases same
    refine ⟨?_, fun other member => ?_⟩
    · rw [map_cons, later, sum]
    · rcases mem_cons.mp member with rfl | member
      · rw [← sum]
        exact fits
      · exact laterFit other member

theorem Shaped.depthOf (shaped : Shaped side ladder)
    (depth : ladder.depth = some summed) : DepthOf side ladder.orders (toLevels summed) := by
  obtain ⟨rfl, _⟩ := depth_some depth
  refine ⟨?_, fun level => ?_⟩
  · rw [toLevels, map_map, pairwise_map]
    exact shaped.sorted
  · simp only [toLevels, map_map, mem_map]
    constructor
    · rintro ⟨⟨price, queue⟩, member, rfl⟩
      have queued := shaped.atPrice_level member
      dsimp only [Function.comp_apply]
      unfold totalAt
      rw [queued]
      exact ⟨(shaped.placed _ member).1, rfl, rfl⟩
    · rintro ⟨some, quantity, count⟩
      obtain ⟨queue, member⟩ := shaped.level_of_atPrice some
      have queued := shaped.atPrice_level member
      unfold totalAt at quantity
      rw [queued] at quantity count
      refine ⟨_, member, ?_⟩
      dsimp only [Function.comp_apply]
      rw [← quantity, ← count]

theorem Shaped.total_fits (shaped : Shaped side ladder)
    (depth : ladder.depth = some summed) (price : Int) : IsI128 (totalAt ladder.orders price) := by
  by_cases empty : atPrice ladder.orders price = []
  · unfold totalAt IsI128
    rw [empty]
    decide
  · obtain ⟨queue, member⟩ := shaped.level_of_atPrice empty
    have fits := (depth_some depth).2 _ member
    unfold totalAt
    rwa [shaped.atPrice_level member]

end Memory

end TorusHyperBft.OrderBook
