import TorusHyperBft.OrderBook.Codec
import TorusHyperBft.OrderBook.Journal

namespace TorusHyperBft.OrderBook

open List

/-! The journals miss nothing: whatever an operation does to the orders of a book, it makes
the entries that say so. -/

def levelChunkSeqs : Nat := 64

namespace OrderRow

def id (row : OrderRow) : Nat := row.2.id

def chunk (row : OrderRow) : Nat := row.1 / levelChunkSeqs

end OrderRow

def Order.row (orderSeq : Nat → Option Nat) (order : Order) : OrderRow :=
  ((orderSeq order.id).getD 0, order)

def Queue.rows (orderSeq : Nat → Option Nat) (queue : Queue) : List OrderRow :=
  queue.map (Order.row orderSeq)

def Ladder.rowsAt (orderSeq : Nat → Option Nat) (ladder : Ladder) (price : Int) :
    List OrderRow :=
  Queue.rows orderSeq ((ladder.get price).getD [])

def Book.rowsAt (book : Book) (key : LevelKey) : List OrderRow :=
  (book.ladder key.side).rowsAt book.indexes.orderSeq key.price

/-- A level's rows change only where they are marked, by id and by chunk. -/
structure Rewrites (key : LevelKey) (marks : List Mark) (before after : List OrderRow) : Prop where
  rows : before.filter (fun row => decide (Mark.row row.id ∉ marks)) =
    after.filter fun row => decide (Mark.row row.id ∉ marks)
  chunks : ∀ chunk, (∀ seq, Mark.chunk key (some seq) ∈ marks → seq / levelChunkSeqs ≠ chunk) →
    before.filter (fun row => decide (row.chunk = chunk)) =
      after.filter fun row => decide (row.chunk = chunk)

namespace Rewrites

variable {key : LevelKey} {marks others : List Mark} {before middle after : List OrderRow}

theorem refl (marks : List Mark) (rows : List OrderRow) : Rewrites key marks rows rows :=
  ⟨rfl, fun _ _ => rfl⟩

theorem mono (rewrites : Rewrites key marks before after) (subset : marks ⊆ others) :
    Rewrites key others before after where
  rows := by
    have narrower : ∀ rows : List OrderRow,
        (rows.filter fun row => decide (Mark.row row.id ∉ marks)).filter
          (fun row => decide (Mark.row row.id ∉ others)) =
        rows.filter fun row => decide (Mark.row row.id ∉ others) := by
      intro rows
      rw [filter_filter]
      apply filter_congr
      intro row _
      by_cases marked : Mark.row row.id ∈ marks
      · simp [marked, subset marked]
      · simp [marked]
    rw [← narrower before, ← narrower after, rewrites.rows]
  chunks chunk apart := rewrites.chunks chunk fun seq marked => apart seq (subset marked)

theorem trans (left : Rewrites key marks before middle) (right : Rewrites key marks middle after) :
    Rewrites key marks before after :=
  ⟨left.rows.trans right.rows, fun chunk apart =>
    (left.chunks chunk apart).trans (right.chunks chunk apart)⟩

variable {front rest : List OrderRow} {row changed : OrderRow}

/-- The row and its chunk are marked. -/
structure Marked (key : LevelKey) (marks : List Mark) (row : OrderRow) : Prop where
  byId : Mark.row row.id ∈ marks
  byChunk : Mark.chunk key (some row.1) ∈ marks

theorem remove (marked : Marked key marks row) :
    Rewrites key marks (front ++ row :: rest) (front ++ rest) where
  rows := by simp [filter_append, marked.byId]
  chunks chunk apart := by
    have other : row.chunk ≠ chunk := apart row.1 marked.byChunk
    simp [filter_append, other]

theorem insert (marked : Marked key marks row) :
    Rewrites key marks (front ++ rest) (front ++ row :: rest) where
  rows := (remove marked).rows.symm
  chunks chunk apart := ((remove marked).chunks chunk apart).symm

theorem change (marked : Marked key marks row) (sameSeq : changed.1 = row.1)
    (sameId : changed.id = row.id) :
    Rewrites key marks (front ++ row :: rest) (front ++ changed :: rest) := by
  have changedMarked : Marked key marks changed :=
    ⟨by rw [sameId]; exact marked.byId, by rw [sameSeq]; exact marked.byChunk⟩
  exact (remove marked).trans (insert changedMarked)

theorem filter {kept : OrderRow → Bool}
    (marked : ∀ row ∈ before, kept row = false → Marked key marks row) :
    Rewrites key marks before (before.filter kept) := by
  induction before with
  | nil => exact refl _ _
  | cons row before ih =>
    have rest := ih fun other member => marked other (mem_cons_of_mem _ member)
    by_cases stays : kept row = true
    · rw [filter_cons_of_pos stays]
      constructor
      · simp only [filter_cons, rest.rows]
      · intro chunk apart
        simp only [filter_cons, rest.chunks chunk apart]
    · rw [filter_cons_of_neg stays]
      have gone := marked row mem_cons_self (by simpa using stays)
      exact (@remove key marks [] before row gone).trans rest

end Rewrites

/-- What an operation did to the rows of one level is journaled by `marks`. -/
structure TrackedAt (key : LevelKey) (marks : List Mark) (before after : List OrderRow) : Prop where
  rewrites : Rewrites key marks before after
  levels : Mark.level key ∉ marks → after = before
  appends : Mark.epoch key ∉ marks → before <+: after

namespace TrackedAt

variable {key : LevelKey} {marks others : List Mark} {before middle after : List OrderRow}

theorem refl (marks : List Mark) (rows : List OrderRow) : TrackedAt key marks rows rows :=
  ⟨.refl _ _, fun _ => rfl, fun _ => prefix_rfl⟩

theorem trans (left : TrackedAt key marks before middle)
    (right : TrackedAt key others middle after) :
    TrackedAt key (marks ++ others) before after where
  rewrites := (left.rewrites.mono (subset_append_left _ _)).trans
    (right.rewrites.mono (subset_append_right _ _))
  levels absent := by
    rw [mem_append, not_or] at absent
    rw [right.levels absent.2, left.levels absent.1]
  appends absent := by
    rw [mem_append, not_or] at absent
    exact (left.appends absent.1).trans (right.appends absent.2)

theorem changed (rewrites : Rewrites key marks before after) (level : Mark.level key ∈ marks)
    (epoch : Mark.epoch key ∈ marks) : TrackedAt key marks before after :=
  ⟨rewrites, fun absent => absurd level absent, fun absent => absurd epoch absent⟩

end TrackedAt

/-- The marks tell every change of every level. -/
def Tracked (before : Book) (marks : List Mark) (after : Book) : Prop :=
  ∀ key, TrackedAt key marks (before.rowsAt key) (after.rowsAt key)

namespace Tracked

variable {first second third : Book} {marks others : List Mark}

theorem unchanged (same : ∀ key, second.rowsAt key = first.rowsAt key) (marks : List Mark) :
    Tracked first marks second := by
  intro key
  rw [same key]
  exact .refl _ _

theorem trans (left : Tracked first marks second) (right : Tracked second others third) :
    Tracked first (marks ++ others) third :=
  fun key => (left key).trans (right key)

theorem atLevel (key : LevelKey)
    (same : ∀ other, other ≠ key → second.rowsAt other = first.rowsAt other)
    (own : TrackedAt key marks (first.rowsAt key) (second.rowsAt key)) :
    Tracked first marks second := by
  intro other
  by_cases equal : other = key
  · rw [equal]
    exact own
  · rw [same other equal]
    exact .refl _ _

end Tracked

namespace Ladder

variable {side : Side} {orderSeq : Nat → Option Nat} {ladder : Ladder} {price asked : Int}
  {queue left : Queue} {order : Order}

theorem get_cons (level : Int × Queue) :
    get (level :: ladder) asked = if level.1 = asked then some level.2 else get ladder asked := by
  obtain ⟨price, queue⟩ := level
  rw [get, List.lookup_cons]
  by_cases same : price = asked
  · simp [same]
  · rw [beq_eq_false_iff_ne.mpr (Ne.symm same), if_neg same]
    rfl

theorem get_absent (absent : ∀ level ∈ ladder, level.1 ≠ asked) : get ladder asked = none := by
  induction ladder with
  | nil => rfl
  | cons level ladder ih =>
    rw [get_cons, if_neg (absent level mem_cons_self)]
    exact ih fun other member => absent other (mem_cons_of_mem _ member)

theorem betterPrice_ne {first second : Int} (better : betterPrice side first second = true) :
    second ≠ first := by
  cases side <;> simp [betterPrice] at better <;> omega

theorem get_setQueue_other (different : asked ≠ price) :
    get (setQueue price left ladder) asked = get ladder asked := by
  induction ladder with
  | nil => rfl
  | cons level ladder ih =>
    obtain ⟨other, old⟩ := level
    unfold setQueue
    by_cases own : other = price
    · have apart : other ≠ asked := fun same => different (same.symm.trans own)
      rw [if_pos own]
      split
      · rw [get_cons, if_neg apart]
      · rw [get_cons, get_cons, if_neg apart, if_neg apart]
    · rw [if_neg own, get_cons, get_cons, ih]

theorem get_setQueue (wf : LadderWf side orderSeq ladder) (found : get ladder price = some queue) :
    (get (setQueue price left ladder) price).getD [] = left := by
  obtain ⟨before, after, rfl, apart⟩ := get_split found
  rw [setQueue_split apart]
  have later : ∀ level ∈ after, level.1 ≠ price := by
    have sorted := (pairwise_append.mp wf.sorted).2.1
    intro level member
    exact betterPrice_ne ((pairwise_cons.mp sorted).1 level member)
  induction before with
  | nil =>
    rw [nil_append]
    split
    · rename_i empty
      rw [get_absent later, List.isEmpty_iff.mp empty]
      rfl
    · rw [get_cons, if_pos rfl]
      rfl
  | cons level before ih =>
    rw [cons_append, get_cons, if_neg (apart level mem_cons_self)]
    rw [cons_append, get_cons, if_neg (apart level mem_cons_self)] at found
    exact ih (fun other member => apart other (mem_cons_of_mem _ member)) wf.tail found

theorem get_pushBack_other (different : asked ≠ order.price) :
    get (pushBack side order ladder) asked = get ladder asked := by
  induction ladder with
  | nil => rw [pushBack, get_cons, if_neg (Ne.symm different)]
  | cons level ladder ih =>
    obtain ⟨price, queue⟩ := level
    unfold pushBack
    split
    · rename_i same
      have apart : price ≠ asked := fun equal => different (equal.symm.trans same)
      rw [get_cons, get_cons, if_neg apart, if_neg apart]
    · split
      · rw [get_cons, if_neg (Ne.symm different)]
      · rw [get_cons, get_cons, ih]

theorem get_pushBack (wf : LadderWf side orderSeq ladder) :
    get (pushBack side order ladder) order.price =
      some ((get ladder order.price).getD [] ++ [order]) := by
  induction ladder with
  | nil =>
    rw [pushBack, get_cons, if_pos rfl]
    rfl
  | cons level ladder ih =>
    obtain ⟨price, queue⟩ := level
    unfold pushBack
    split
    · rename_i same
      rw [get_cons, get_cons, if_pos same, if_pos same]
      rfl
    · rename_i other
      split
      · rename_i better
        have absent : get ((price, queue) :: ladder) order.price = none := by
          apply get_absent
          intro level member
          rcases mem_cons.mp member with rfl | member
          · exact other
          · have behind := (pairwise_cons.mp wf.sorted).1 level member
            exact betterPrice_ne (betterPrice_trans better behind)
        rw [get_cons, if_pos rfl, absent]
        rfl
      · rw [get_cons, get_cons, if_neg other, if_neg other]
        exact ih wf.tail

theorem without_cons (ids : List Nat) :
    without ids ((price, queue) :: ladder) =
      if (Queue.without ids queue).isEmpty then without ids ladder
      else (price, Queue.without ids queue) :: without ids ladder := by
  rw [without, filterMap_cons]
  dsimp only
  by_cases empty : (Queue.without ids queue).isEmpty = true
  · rw [if_pos empty, if_pos empty]
    rfl
  · rw [if_neg empty, if_neg empty]
    rfl

theorem getD_without (wf : LadderWf side orderSeq ladder) (ids : List Nat) :
    (get (without ids ladder) asked).getD [] = Queue.without ids ((get ladder asked).getD []) := by
  induction ladder with
  | nil => rfl
  | cons level ladder ih =>
    obtain ⟨price, queue⟩ := level
    rw [get_cons, without_cons]
    by_cases same : price = asked
    · have later : ∀ level ∈ without ids ladder, level.1 ≠ asked := by
        intro level member
        obtain ⟨old, inLadder, rfl, _⟩ := mem_without member
        rw [← same]
        exact betterPrice_ne ((pairwise_cons.mp wf.sorted).1 old inLadder)
      rw [if_pos same]
      split
      · rename_i empty
        rw [get_absent later]
        exact (List.isEmpty_iff.mp empty).symm
      · rw [get_cons, if_pos same]
        rfl
    · rw [if_neg same, ← ih wf.tail]
      split
      · rfl
      · rw [get_cons, if_neg same]

theorem mem_getD (member : order ∈ (get ladder price).getD []) : order ∈ orders ladder := by
  cases found : get ladder price with
  | none =>
    rw [found] at member
    simp at member
  | some queue =>
    rw [found] at member
    obtain ⟨before, after, rfl, _⟩ := get_split found
    exact mem_orders.mpr ⟨(price, queue), by simp, member⟩

end Ladder

theorem Queue.rows_congr {orderSeq other : Nat → Option Nat} {queue : Queue}
    (same : ∀ order ∈ queue, other order.id = orderSeq order.id) :
    Queue.rows other queue = Queue.rows orderSeq queue := by
  apply map_congr_left
  intro order member
  rw [Order.row, Order.row, same order member]

namespace Book

section Single

variable {book after : Book} {order : Order} {key : LevelKey} {marks : List Mark}

def queueAt (book : Book) (key : LevelKey) : Queue :=
  ((book.ladder key.side).get key.price).getD []

theorem rowsAt_eq (book : Book) (key : LevelKey) :
    book.rowsAt key = Queue.rows book.indexes.orderSeq (book.queueAt key) := rfl

variable (valid : book.Valid)
include valid

theorem Valid.mem_queueAt (member : order ∈ book.queueAt key) :
    order ∈ book.resting ∧ order.levelKey = key := by
  refine ⟨(mem_resting key.side).mpr (Or.inl (Ladder.mem_getD member)), ?_⟩
  unfold queueAt at member
  cases found : (book.ladder key.side).get key.price with
  | none =>
    rw [found] at member
    simp at member
  | some queue =>
    rw [found] at member
    obtain ⟨side, price⟩ := ((valid.ladders key.side).get_level found).placed order member
    rw [Order.levelKey, side, price]

theorem Valid.seq_of_resting (member : order ∈ book.resting) :
    ∃ seq, book.indexes.orderSeq order.id = some seq := by
  apply Option.isSome_iff_exists.mp
  rw [valid.covers.sequenced, map_map]
  exact mem_map_of_mem member

theorem Valid.marked (member : order ∈ book.resting)
    (journaled : removalMarks book.indexes key order.id ⊆ marks) :
    Rewrites.Marked key marks (order.row book.indexes.orderSeq) := by
  obtain ⟨seq, found⟩ := valid.seq_of_resting member
  constructor
  · exact journaled (by simp [removalMarks, Order.row, OrderRow.id])
  · apply journaled
    simp [removalMarks, Order.row, found]

theorem Valid.tracked_without {ids : List Nat}
    (ladders : ∀ side, after.ladder side = (book.ladder side).without ids)
    (orderSeq : ∀ id, id ∉ ids → after.indexes.orderSeq id = book.indexes.orderSeq id)
    (journaled : ∀ order ∈ book.resting, order.id ∈ ids →
      removalMarks book.indexes order.levelKey order.id ⊆ marks) : Tracked book marks after := by
  have left : ∀ key, after.rowsAt key =
      (book.rowsAt key).filter fun row => decide (row.id ∉ ids) := by
    intro key
    rw [rowsAt_eq, rowsAt_eq, queueAt, ladders, Ladder.getD_without (valid.ladders key.side)]
    rw [Queue.rows, Queue.rows, filter_map]
    apply map_congr_left
    intro order member
    rw [Order.row, Order.row, orderSeq order.id (Queue.mem_without.mp member).2]
  have marked : ∀ key, ∀ order ∈ book.queueAt key, order.id ∈ ids →
      removalMarks book.indexes key order.id ⊆ marks := by
    intro key order member gone
    obtain ⟨rests, own⟩ := valid.mem_queueAt member
    rw [← own]
    exact journaled order rests gone
  have untouched : ∀ key, (∀ order ∈ book.queueAt key, order.id ∉ ids) →
      after.rowsAt key = book.rowsAt key := by
    intro key kept
    rw [left, filter_eq_self]
    intro row member
    obtain ⟨order, inQueue, rfl⟩ := mem_map.mp member
    exact decide_eq_true (kept order inQueue)
  intro key
  constructor
  · rw [left]
    apply Rewrites.filter
    intro row member dropped
    obtain ⟨order, inQueue, rfl⟩ := mem_map.mp member
    have gone : order.id ∈ ids := not_not.mp (of_decide_eq_false dropped)
    exact valid.marked (valid.mem_queueAt inQueue).1 (marked key order inQueue gone)
  · intro absent
    exact untouched key fun order member gone =>
      absent (marked key order member gone (by simp [removalMarks]))
  · intro absent
    have same := untouched key fun order member gone =>
      absent (marked key order member gone (by simp [removalMarks]))
    exact same ▸ prefix_rfl

theorem Valid.tracked_cancelOrder (id : Nat) :
    Tracked book (book.cancelMarks id) (book.cancelOrder id).1 := by
  by_cases rests : id ∈ book.resting.map Order.id
  · obtain ⟨order, member, rfl⟩ := mem_map.mp rests
    obtain ⟨queue, position, level, located, cancelled⟩ := valid.cancelOrder_eq member
    rw [cancelMarks, cancelled]
    have only : ∀ other ∈ book.resting, other.id ∈ [order.id] → other = order := by
      intro other inBook same
      exact inj_on_of_nodup_map valid.nodup inBook member (mem_singleton.mp same)
    have nodup : (queue.map Order.id).Nodup := valid.stacked.queue_nodup level
    have ladders : ∀ side, (book.without order (queue.eraseIdx position)).ladder side =
        (book.ladder side).without [order.id] := by
      intro side
      rcases Side.eq_or_opposite order.side side with rfl | rfl
      · rw [without_ladder, Queue.eraseIdx_without nodup located]
        apply Ladder.setQueue_without (valid.ladders order.side) level
        intro other inLadder same
        rw [only other ((mem_resting order.side).mpr (Or.inl inLadder)) same]
      · rw [without_opposite]
        symm
        apply Ladder.without_untouched
        · intro level inLadder
          exact ((valid.ladders _).levels level inLadder).nonempty
        · intro other inLadder same
          have own := only other ((mem_resting _).mpr (Or.inl inLadder)) same
          have placed := (valid.ladders _).placed inLadder
          rw [own] at placed
          exact Side.ne_opposite _ placed
    apply valid.tracked_without ladders
    · intro id other
      rw [(without_indexes book order _).1, forget_orderSeq, Function.update_of_ne]
      exact fun same => other (mem_singleton.mpr same)
    · intro other inBook same
      rw [only other inBook same]
      exact List.Subset.refl _
  · rw [cancelMarks, valid.cancelOrder_absent rests]
    exact .unchanged (fun _ => rfl) _

theorem Valid.rowsAt_insertOrder
    (unused : order.id ∉ book.resting.map Order.id) (seq : Nat) (key : LevelKey) :
    ({ book with nextSeq := seq }.insertOrder order).rowsAt key =
      if key = order.levelKey then book.rowsAt key ++ [(seq, order)] else book.rowsAt key := by
  have sequence : ({ book with nextSeq := seq }.insertOrder order).indexes.orderSeq =
      Function.update book.indexes.orderSeq order.id (some seq) := by
    have frame := (Covers.indexCloid_frame book.indexes order.trader order.clientOrderId order.id).2.2
    rw [← frame]
    cases side : order.side <;> simp [Book.insertOrder, setLadder, side]
  have others : Queue.rows (Function.update book.indexes.orderSeq order.id (some seq))
      (book.queueAt key) = book.rowsAt key := by
    apply Queue.rows_congr
    intro other member
    rw [Function.update_of_ne]
    intro same
    exact unused (same ▸ mem_map_of_mem (valid.mem_queueAt member).1)
  rw [rowsAt_eq, sequence]
  by_cases own : key = order.levelKey
  · subst own
    have queue : ({ book with nextSeq := seq }.insertOrder order).queueAt order.levelKey =
        book.queueAt order.levelKey ++ [order] := by
      rw [queueAt, Order.levelKey, insertOrder_ladder]
      change ((Ladder.pushBack order.side order (book.ladder order.side)).get order.price).getD [] = _
      rw [Ladder.get_pushBack (valid.ladders order.side)]
      rfl
    rw [if_pos rfl, queue, Queue.rows, map_append, map_singleton, Order.row,
      Function.update_self, ← others]
    rfl
  · have queue : ({ book with nextSeq := seq }.insertOrder order).queueAt key =
        book.queueAt key := by
      rw [queueAt, queueAt]
      rcases Side.eq_or_opposite order.side key.side with same | opposite
      · have apart : key.price ≠ order.price := by
          intro samePrice
          exact own (LevelKey.ext same samePrice)
        rw [same, insertOrder_ladder, Ladder.get_pushBack_other apart]
        rfl
      · rw [opposite, insertOrder_opposite]
        rfl
    rw [if_neg own, queue, others]

theorem Valid.tracked_insertAt (unused : order.id ∉ book.resting.map Order.id) (seq : Nat) :
    Tracked book (insertMarks { book with nextSeq := seq } order)
      ({ book with nextSeq := seq }.insertOrder order) := by
  apply Tracked.atLevel order.levelKey
  · intro key different
    rw [valid.rowsAt_insertOrder unused, if_neg different]
  · have inserted := @Rewrites.insert order.levelKey
      (insertMarks { book with nextSeq := seq } order) (book.rowsAt order.levelKey) []
      (seq, order) ⟨by simp [insertMarks, OrderRow.id], by simp [insertMarks]⟩
    rw [append_nil] at inserted
    rw [valid.rowsAt_insertOrder unused, if_pos rfl]
    exact ⟨inserted, fun absent => absurd (by simp [insertMarks]) absent,
      fun _ => prefix_append _ _⟩

theorem Valid.tracked_insertOrder (unused : order.id ∉ book.resting.map Order.id) :
    Tracked book (book.insertMarks order) (book.insertOrder order) :=
  valid.tracked_insertAt unused book.nextSeq

theorem Valid.tracked_shrink (member : order ∈ book.resting) {qty : Int}
    (positive : 0 < qty) (smaller : qty < order.remainingQty) :
    Tracked book (removalMarks book.indexes order.levelKey order.id)
      (book.modifyOrder order.id none (some qty)).1 := by
  obtain ⟨queue, position, level, positioned, located⟩ := valid.locate member
  have changed : (book.modifyOrder order.id none (some qty)).1 =
      book.setLadder order.side (Ladder.setQueue order.price
        (queue.set position { order with remainingQty := qty }) (book.ladder order.side)) := by
    simp only [Book.modifyOrder, valid.orderIndex member, level, positioned, located,
      Option.bind_some, Option.map_some, if_pos (And.intro positive smaller)]
  rw [changed]
  obtain ⟨bound, atPosition⟩ := List.getElem?_eq_some_iff.mp located
  have before : book.queueAt order.levelKey = queue := by
    rw [queueAt, Order.levelKey, level]
    rfl
  apply Tracked.atLevel order.levelKey
  · intro key different
    rw [rowsAt_eq, rowsAt_eq, setLadder_indexes.1, queueAt, queueAt]
    rcases Side.eq_or_opposite order.side key.side with own | opposite
    · have apart : key.price ≠ order.price := fun same => different (LevelKey.ext own same)
      rw [own, setLadder_ladder, Ladder.get_setQueue_other apart]
    · rw [opposite, setLadder_opposite]
  · have after : (book.setLadder order.side (Ladder.setQueue order.price
        (queue.set position { order with remainingQty := qty })
        (book.ladder order.side))).queueAt order.levelKey =
        queue.set position { order with remainingQty := qty } := by
      rw [queueAt, Order.levelKey, setLadder_ladder]
      exact Ladder.get_setQueue (valid.ladders order.side) level
    apply TrackedAt.changed
    · rw [rowsAt_eq, rowsAt_eq, before, after, setLadder_indexes.1]
      rw [set_eq_take_append_cons_drop, if_pos bound]
      conv =>
        arg 3
        rw [split_at bound, atPosition]
      rw [Queue.rows, Queue.rows, map_append, map_cons, map_append, map_cons]
      exact Rewrites.change (valid.marked member (List.Subset.refl _)) rfl rfl
    · simp [removalMarks]
    · simp [removalMarks]

theorem Valid.tracked_reinsert (member : order ∈ book.resting)
    {cancelled : Book} (removed : book.cancelOrder order.id = (cancelled, .ok order))
    {changed : Order} (sameId : changed.id = order.id) :
    Tracked book (book.cancelMarks order.id ++ cancelled.insertMarks changed)
      (cancelled.insertOrder changed) := by
  obtain ⟨after, alsoRemoved, perm, afterValid, _⟩ := valid.cancelOrder member
  rw [removed] at alsoRemoved
  obtain rfl := (Prod.mk.inj alsoRemoved).1
  have first := valid.tracked_cancelOrder order.id
  rw [removed] at first
  apply first.trans
  apply afterValid.tracked_insertOrder
  have nodup := (perm.map Order.id).nodup_iff.mp valid.nodup
  rw [sameId]
  exact (nodup_cons.mp nodup).1

theorem Valid.tracked_modifyOrder (id : Nat) (newPrice newQty : Option Int) :
    Tracked book (book.modifyMarks id newPrice newQty) (book.modifyOrder id newPrice newQty).1 := by
  by_cases rests : id ∈ book.resting.map Order.id
  · obtain ⟨order, member, rfl⟩ := mem_map.mp rests
    obtain ⟨cancelled, removed, _⟩ := valid.cancelOrder member
    have same := (replacement_same order newPrice newQty).1
    have reinserted := valid.tracked_reinsert member removed same
    have shape : ({ replacement order newPrice newQty with id := order.id } : Order) =
        replacement order newPrice newQty := by
      rw [← same]
    cases newPrice with
    | some price =>
      have marks : book.modifyMarks order.id (some price) newQty = book.cancelMarks order.id ++
          cancelled.insertMarks (replacement order (some price) newQty) := by
        simp only [modifyMarks, removed, shape]
      rw [marks]
      cases newQty with
      | none | some =>
        simp only [Book.modifyOrder, removed]
        exact reinserted
    | none =>
      cases newQty with
      | none =>
        have marks : book.modifyMarks order.id none none = book.cancelMarks order.id ++
            cancelled.insertMarks (replacement order none none) := by
          simp only [modifyMarks, removed, shape]
        rw [marks]
        simp only [Book.modifyOrder, removed]
        exact reinserted
      | some qty =>
        obtain ⟨queue, position, level, positioned, located⟩ := valid.locate member
        by_cases smaller : 0 < qty ∧ qty < order.remainingQty
        · have marks : book.modifyMarks order.id none (some qty) =
              removalMarks book.indexes order.levelKey order.id := by
            simp only [modifyMarks, valid.orderIndex member, level, positioned, located,
              Option.bind_some, Option.map_some, if_pos smaller]
            rfl
          rw [marks]
          exact valid.tracked_shrink member smaller.1 smaller.2
        · have marks : book.modifyMarks order.id none (some qty) = book.cancelMarks order.id ++
              cancelled.insertMarks (replacement order none (some qty)) := by
            simp only [modifyMarks, valid.orderIndex member, level, positioned, located,
              Option.bind_some, Option.map_some, if_neg smaller, removed, shape]
          rw [marks]
          simp only [Book.modifyOrder, valid.orderIndex member, level, positioned, located,
            Option.bind_some, Option.map_some, if_neg smaller, removed]
          exact reinserted
  · have nothing : book.modifyMarks id newPrice newQty = [] := by
      cases newPrice <;> cases newQty <;>
        simp only [modifyMarks, valid.cancelOrder_absent rests, valid.orderIndex_none rests]
    rw [nothing, valid.modifyOrder_absent newPrice newQty rests]
    exact .unchanged (fun _ => rfl) _

end Single

end Book

end TorusHyperBft.OrderBook
