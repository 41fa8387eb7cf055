import TorusHyperBft.OrderBook.CancelAll

namespace TorusHyperBft.OrderBook

open List

/-! A book without some of its orders, whichever way they were taken off it. -/

def Queue.without (ids : List Nat) (queue : Queue) : Queue :=
  queue.filter fun order => decide (order.id ∉ ids)

theorem Queue.mem_without {ids : List Nat} {queue : Queue} {order : Order} :
    order ∈ Queue.without ids queue ↔ order ∈ queue ∧ order.id ∉ ids := by
  simp [Queue.without]

theorem Queue.without_all {ids : List Nat} {queue : Queue}
    (apart : ∀ order ∈ queue, order.id ∉ ids) : Queue.without ids queue = queue :=
  filter_eq_self.mpr fun order member => decide_eq_true (apart order member)

theorem Queue.eraseIdx_without {queue : Queue} {order : Order} {position : Nat}
    (nodup : (queue.map Order.id).Nodup) (located : queue[position]? = some order) :
    queue.eraseIdx position = Queue.without [order.id] queue := by
  have bound := (List.getElem?_eq_some_iff.mp located).1
  have erased := @eraseIdx_dropAt _ position [] queue bound (by simp)
  rw [dropAt_outside (by simp)] at erased
  rw [erased]
  refine dropAt_filter fun index item found => ?_
  have unique : item.id = order.id ↔ index = position := by
    constructor
    · intro same
      have inIds : index < (queue.map Order.id).length := by
        rw [length_map]
        exact (List.getElem?_eq_some_iff.mp found).1
      refine (List.getElem?_inj inIds nodup).mp ?_
      rw [List.getElem?_map, List.getElem?_map, found, located]
      exact congrArg some same
    · rintro rfl
      rw [found] at located
      cases located
      rfl
  simp [unique]

namespace Ladder

/-- What is left of a ladder; a level that loses all of its orders goes too. -/
def without (ids : List Nat) (ladder : Ladder) : Ladder :=
  ladder.filterMap fun level =>
    if (Queue.without ids level.2).isEmpty then none else some (level.1, Queue.without ids level.2)

variable {ids : List Nat} {ladder : Ladder} {side : Side} {orderSeq : Nat → Option Nat}
  {price : Int} {queue : Queue}

theorem without_untouched (nonempty : ∀ level ∈ ladder, level.2 ≠ [])
    (apart : ∀ order ∈ orders ladder, order.id ∉ ids) : without ids ladder = ladder := by
  have kept : ∀ level ∈ ladder, (if (Queue.without ids level.2).isEmpty then none
      else some (level.1, Queue.without ids level.2)) = some level := by
    intro level member
    have all := Queue.without_all fun order inQueue =>
      apart order (mem_orders.mpr ⟨level, member, inQueue⟩)
    rw [all, if_neg (by simpa using nonempty level member)]
  rw [without, filterMap_congr kept, filterMap_some]

theorem without_congr {others : List Nat} (same : ∀ id, id ∈ ids ↔ id ∈ others) :
    without ids ladder = without others ladder := by
  have queues : Queue.without ids = Queue.without others := by
    funext queue
    unfold Queue.without
    simp only [same]
  rw [without, without, queues]

theorem without_without (first second : List Nat) :
    without second (without first ladder) = without (first ++ second) ladder := by
  have both : ∀ queue, Queue.without second (Queue.without first queue) =
      Queue.without (first ++ second) queue := by
    intro queue
    rw [Queue.without, Queue.without, filter_filter, Queue.without]
    refine filter_congr fun order _ => ?_
    simp [Bool.and_comm]
  unfold without
  rw [filterMap_filterMap]
  refine filterMap_congr fun level _ => ?_
  by_cases empty : (Queue.without first level.2).isEmpty = true
  · rw [if_pos empty, ← both, List.isEmpty_iff.mp empty]
    rfl
  · rw [if_neg empty, Option.bind_some, both]

theorem orders_without : orders (without ids ladder) = Queue.without ids (orders ladder) := by
  induction ladder with
  | nil => rfl
  | cons level rest ih =>
    have split : Queue.without ids (level.2 ++ orders rest) =
        Queue.without ids level.2 ++ Queue.without ids (orders rest) := filter_append _ _
    rw [without, filterMap_cons, ← without, orders_cons, split, ← ih]
    by_cases empty : (Queue.without ids level.2).isEmpty = true
    · rw [if_pos empty, List.isEmpty_iff.mp empty]
      rfl
    · rw [if_neg empty]
      rfl

theorem mem_without {level : Int × Queue} (member : level ∈ without ids ladder) :
    ∃ old ∈ ladder, level = (old.1, Queue.without ids old.2) ∧ Queue.without ids old.2 ≠ [] := by
  obtain ⟨old, inLadder, kept⟩ := mem_filterMap.mp member
  by_cases empty : (Queue.without ids old.2).isEmpty = true
  · rw [if_pos empty] at kept
    contradiction
  · rw [if_neg empty] at kept
    cases kept
    exact ⟨old, inLadder, rfl, fun nil => empty (List.isEmpty_iff.mpr nil)⟩

theorem without_wf (wf : LadderWf side orderSeq ladder) :
    LadderWf side orderSeq (without ids ladder) where
  sorted := by
    refine List.Pairwise.filterMap _ ?_ wf.sorted
    intro first second better left leftKept right rightKept
    split at leftKept
    · contradiction
    · split at rightKept
      · contradiction
      · cases leftKept
        cases rightKept
        exact better
  levels level member := by
    obtain ⟨old, inLadder, rfl, nonempty⟩ := mem_without member
    obtain ⟨_, placed, positive, ordered⟩ := wf.levels old inLadder
    exact ⟨nonempty, fun order inQueue => placed order (Queue.mem_without.mp inQueue).1,
      fun order inQueue => positive order (Queue.mem_without.mp inQueue).1,
      ordered.sublist filter_sublist⟩

theorem get_without (found : get ladder price = some queue) (nonempty : queue ≠ [])
    (apart : ∀ order ∈ queue, order.id ∉ ids) : get (without ids ladder) price = some queue := by
  obtain ⟨before, after, rfl, others⟩ := get_split found
  rw [without, filterMap_append, filterMap_cons, ← without, Queue.without_all apart,
    if_neg (by simpa using nonempty), get, lookup_append]
  have absent : (without ids before).lookup price = none := by
    rw [lookup_eq_none_iff]
    intro level member
    obtain ⟨old, inBefore, rfl, _⟩ := mem_without member
    simpa using Ne.symm (others old inBefore)
  rw [absent]
  simp

theorem setQueue_without (wf : LadderWf side orderSeq ladder)
    (found : get ladder price = some queue)
    (own : ∀ order ∈ orders ladder, order.id ∈ ids → order.price = price) :
    setQueue price (Queue.without ids queue) ladder = without ids ladder := by
  obtain ⟨before, after, rfl, others⟩ := get_split found
  rw [setQueue_split others, without, filterMap_append, filterMap_cons, ← without,
    ← without]
  obtain ⟨sorted, levels⟩ := wf
  have elsewhere : ∀ level ∈ before ++ (price, queue) :: after, level.1 ≠ price →
      level.2 ≠ [] ∧ ∀ order ∈ level.2, order.id ∉ ids := by
    intro level member other
    have wf := levels level member
    refine ⟨wf.nonempty, fun order inQueue named => other ?_⟩
    rw [← (wf.placed order inQueue).2]
    exact own order (mem_orders.mpr ⟨level, member, inQueue⟩) named
  have apartAfter : ∀ level ∈ after, level.1 ≠ price := by
    intro level member same
    have better := (pairwise_cons.mp (pairwise_append.mp sorted).2.1).1 level member
    rw [same] at better
    cases side <;> simp [betterPrice] at better
  have untouched : ∀ part : Ladder, (∀ level ∈ part, level ∈ before ++ (price, queue) :: after ∧
      level.1 ≠ price) → without ids part = part := by
    intro part inside
    refine without_untouched (fun level member => (elsewhere level (inside level member).1
      (inside level member).2).1) fun order member => ?_
    obtain ⟨level, inPart, inQueue⟩ := mem_orders.mp member
    exact (elsewhere level (inside level inPart).1 (inside level inPart).2).2 order inQueue
  rw [untouched before fun level member => ⟨mem_append_left _ member, others level member⟩,
    untouched after fun level member => ⟨mem_append_right _ (mem_cons_of_mem _ member),
      apartAfter level member⟩]
  split <;> rfl

end Ladder

section Forgotten

variable {indexes : Indexes} {gone : List Order}

def Indexes.forgetAll (indexes : Indexes) (gone : List Order) : Indexes :=
  gone.foldl Indexes.forget indexes

theorem Covers.forgetAll {keys : List Key} {stops : List StopOrder} {nextSeq : Nat}
    (covers : Covers indexes (gone.map Order.key ++ keys) stops nextSeq) :
    Covers (indexes.forgetAll gone) keys stops nextSeq := by
  induction gone generalizing indexes with
  | nil => exact covers
  | cons order gone ih => exact ih covers.forget

theorem foldl_clear {Entry : Type} (entries : Nat → Option Entry) (id : Nat) :
    (gone.foldl (fun (entries : Nat → Option Entry) order =>
      Function.update entries order.id none) entries) id =
      if id ∈ gone.map Order.id then none else entries id := by
  induction gone generalizing entries with
  | nil => simp
  | cons order gone ih =>
    rw [foldl_cons, ih, Function.update_apply, map_cons]
    by_cases same : id = order.id <;> simp [same]

theorem forgetAll_orderIndex (id : Nat) : (indexes.forgetAll gone).orderIndex id =
    if id ∈ gone.map Order.id then none else indexes.orderIndex id := by
  rw [← foldl_clear, Indexes.forgetAll]
  exact congrFun (foldl_hom Indexes.orderIndex fun indexes order =>
    (forget_orderIndex indexes order).symm).symm id

theorem forgetAll_orderSeq (id : Nat) : (indexes.forgetAll gone).orderSeq id =
    if id ∈ gone.map Order.id then none else indexes.orderSeq id := by
  rw [← foldl_clear, Indexes.forgetAll]
  exact congrFun (foldl_hom Indexes.orderSeq fun indexes order =>
    (forget_orderSeq indexes order).symm).symm id

theorem unindexAll_orderIndex (id : Nat) : (Book.unindexAll indexes gone).orderIndex id =
    if id ∈ gone.map Order.id then none else indexes.orderIndex id := by
  rw [← foldl_clear, Book.unindexAll]
  exact congrFun (foldl_hom Indexes.orderIndex fun _ _ => rfl).symm id

theorem unindexAll_orderSeq (id : Nat) : (Book.unindexAll indexes gone).orderSeq id =
    if id ∈ gone.map Order.id then none else indexes.orderSeq id := by
  rw [← foldl_clear, Book.unindexAll]
  exact congrFun (foldl_hom Indexes.orderSeq fun _ _ => rfl).symm id

theorem unindexAll_frame : (Book.unindexAll indexes gone).traderOrders = indexes.traderOrders ∧
    (Book.unindexAll indexes gone).cloids = indexes.cloids := by
  induction gone generalizing indexes with
  | nil => exact ⟨rfl, rfl⟩
  | cons order gone ih => exact @ih (Book.unindex indexes order.id)

theorem forgetCloids_frame : (Book.forgetCloids indexes gone).orderIndex = indexes.orderIndex ∧
    (Book.forgetCloids indexes gone).traderOrders = indexes.traderOrders ∧
    (Book.forgetCloids indexes gone).orderSeq = indexes.orderSeq := by
  induction gone generalizing indexes with
  | nil => exact ⟨rfl, rfl, rfl⟩
  | cons order gone ih =>
    obtain ⟨index, traders, seq⟩ :=
      @ih (indexes.forgetCloid order.trader order.clientOrderId order.id)
    obtain ⟨index', traders', seq'⟩ :=
      forgetCloid_frame indexes order.trader order.clientOrderId order.id
    exact ⟨index.trans index', traders.trans traders', seq.trans seq'⟩

theorem forgetCloid_congr {others : Indexes} (same : indexes.cloids = others.cloids)
    (trader : Address) (cloid : Option Cloid) (id : Nat) :
    (indexes.forgetCloid trader cloid id).cloids = (others.forgetCloid trader cloid id).cloids := by
  unfold Indexes.forgetCloid
  cases cloid with
  | none => exact same
  | some cloid =>
    dsimp only
    rw [same]
    split
    · rfl
    · exact same

theorem forgetCloids_congr {others : Indexes} (same : indexes.cloids = others.cloids) :
    (Book.forgetCloids indexes gone).cloids = (Book.forgetCloids others gone).cloids := by
  induction gone generalizing indexes others with
  | nil => exact same
  | cons order gone ih => exact ih (forgetCloid_congr same _ _ _)

theorem forgetAll_cloids :
    (indexes.forgetAll gone).cloids = (Book.forgetCloids indexes gone).cloids := by
  induction gone generalizing indexes with
  | nil => rfl
  | cons order gone ih =>
    exact (@ih (indexes.forget order)).trans (forgetCloids_congr (forget_cloids indexes order))

theorem forgetAll_traderOrders (listedOnce : ∀ trader, (indexes.traderOrders trader).Nodup)
    (trader : Address) : (indexes.forgetAll gone).traderOrders trader =
      (indexes.traderOrders trader).filter fun id =>
        decide (∀ order ∈ gone, order.trader = trader → order.id ≠ id) := by
  induction gone generalizing indexes with
  | nil => simp [Indexes.forgetAll]
  | cons order gone ih =>
    have once : ∀ trader, ((indexes.forget order).traderOrders trader).Nodup := by
      intro trader
      rw [forget_traderOrders]
      by_cases own : trader = order.trader
      · subst own
        rw [Function.update_self]
        exact Indexes.removeId_nodup (listedOnce _)
      · rw [Function.update_of_ne own]
        exact listedOnce trader
    rw [Indexes.forgetAll, foldl_cons, ← Indexes.forgetAll, ih once, forget_traderOrders]
    by_cases own : trader = order.trader
    · subst own
      have erased : Indexes.removeId (indexes.traderOrders order.trader) order.id =
          (indexes.traderOrders order.trader).filter fun id => decide (order.id ≠ id) := by
        rw [Indexes.removeId, (nodup_reverse.mpr (listedOnce _)).erase_eq_filter,
          ← filter_reverse, reverse_reverse]
        refine filter_congr fun id _ => ?_
        by_cases same : order.id = id <;> simp [same, Ne.symm]
      rw [Function.update_self, erased, filter_filter]
      refine filter_congr fun id _ => ?_
      simp [Bool.and_comm]
    · rw [Function.update_of_ne own]
      refine filter_congr fun id _ => ?_
      simp [Ne.symm own]

end Forgotten

namespace Book

/-- Exactly these orders left the book. -/
structure Withdrawn (book : Book) (gone : List Order) (after : Book) : Prop where
  ladders : ∀ side, after.ladder side = (book.ladder side).without (gone.map Order.id)
  indexes : after.indexes = book.indexes.forgetAll gone
  reduceOnly : ∀ trader id, id ∈ after.reduceOnlyIndex trader ↔
    id ∈ book.reduceOnlyIndex trader ∧ id ∉ gone.map Order.id
  ascending : ∀ trader, (after.reduceOnlyIndex trader).Pairwise (· < ·)
  nextSeq : after.nextSeq = book.nextSeq
  frame : Frame book after

section Withdrawn

variable {book after : Book} {gone : List Order}

theorem resting_without {ids : List Nat}
    (ladders : ∀ side, after.ladder side = (book.ladder side).without ids) :
    after.resting = Queue.without ids book.resting := by
  have bids : after.bids = book.bids.without ids := ladders .buy
  have asks : after.asks = book.asks.without ids := ladders .sell
  rw [resting, bids, asks, Ladder.orders_without, Ladder.orders_without, resting]
  exact (filter_append _ _).symm

theorem withdrawn_perm (valid : book.Valid) (inBook : ∀ order ∈ gone, order ∈ book.resting)
    (nodup : (gone.map Order.id).Nodup) :
    book.resting.Perm (gone ++ Queue.without (gone.map Order.id) book.resting) := by
  have taken : gone.Perm
      (book.resting.filter fun order => !decide (order.id ∉ gone.map Order.id)) := by
    refine (perm_ext_iff_of_nodup (List.Nodup.of_map _ nodup)
      ((List.Nodup.of_map _ valid.nodup).filter _)).mpr fun order => ?_
    constructor
    · intro member
      simpa [mem_filter] using ⟨inBook order member, order, member, rfl⟩
    · intro member
      obtain ⟨inResting, named⟩ := mem_filter.mp member
      obtain ⟨other, inGone, same⟩ : ∃ other ∈ gone, other.id = order.id := by simpa using named
      rw [← valid.eq_of_id (inBook other inGone) inResting same]
      exact inGone
  refine (List.Perm.trans ?_ (taken.symm.append_right _))
  exact ((perm_append_comm).trans (filter_append_perm _ _)).symm

theorem Valid.withdrawn (valid : book.Valid) (inBook : ∀ order ∈ gone, order ∈ book.resting)
    (nodup : (gone.map Order.id).Nodup) (done : Withdrawn book gone after) :
    after.Valid ∧ book.resting.Perm (gone ++ after.resting) := by
  have resting := resting_without done.ladders
  have perm := withdrawn_perm valid inBook nodup
  rw [← resting] at perm
  have stays : ∀ order ∈ after.resting, order ∈ book.resting ∧ order.id ∉ gone.map Order.id := by
    intro order member
    rw [resting] at member
    exact Queue.mem_without.mp member
  have kept : ∀ id seq, after.indexes.orderSeq id = some seq →
      book.indexes.orderSeq id = some seq := by
    intro id seq found
    rw [done.indexes, forgetAll_orderSeq] at found
    split at found
    · contradiction
    · exact found
  refine ⟨⟨fun side => ?_, ?_, fun bid bidMember ask askMember => ?_, fun trader id => ?_,
    done.ascending⟩, perm⟩
  · rw [done.ladders]
    exact Ladder.without_wf ((valid.ladders side).mono fun order _ => kept order.id)
  · rw [done.indexes, done.nextSeq, done.frame.pendingStops]
    refine Covers.forgetAll ?_
    rw [← map_append]
    exact valid.covers.perm (perm.map Order.key)
  · have bids : after.bids = book.bids.without _ := done.ladders .buy
    have asks : after.asks = book.asks.without _ := done.ladders .sell
    rw [bids, Ladder.orders_without] at bidMember
    rw [asks, Ladder.orders_without] at askMember
    exact valid.uncrossed bid (Queue.mem_without.mp bidMember).1 ask
      (Queue.mem_without.mp askMember).1
  · rw [done.reduceOnly, valid.reduceOnly]
    constructor
    · rintro ⟨⟨order, member, rfl, rest⟩, stayed⟩
      refine ⟨order, ?_, rfl, rest⟩
      rw [resting]
      exact Queue.mem_without.mpr ⟨member, stayed⟩
    · rintro ⟨order, member, rfl, rest⟩
      obtain ⟨inResting, stayed⟩ := stays order member
      exact ⟨⟨order, inResting, rfl, rest⟩, stayed⟩

end Withdrawn

end Book

end TorusHyperBft.OrderBook
