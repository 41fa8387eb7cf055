import TorusHyperBft.OrderBook.Book

namespace TorusHyperBft.OrderBook

open List Ladder

/-! Well-formed price ladders and what the ladder operations do to the orders on them. -/

/-- The first came earlier. -/
def SeqBefore (orderSeq : Nat → Option Nat) (first second : Order) : Prop :=
  ∀ earlier later, orderSeq first.id = some earlier → orderSeq second.id = some later →
    earlier < later

/-- A level with live orders of its price, by arrival. -/
structure LevelWf (side : Side) (orderSeq : Nat → Option Nat) (price : Int) (queue : Queue) :
    Prop where
  nonempty : queue ≠ []
  placed : ∀ order ∈ queue, order.side = side ∧ order.price = price
  positive : ∀ order ∈ queue, 0 < order.remainingQty
  ordered : queue.Pairwise (SeqBefore orderSeq)

/-- Levels sorted by price, the best first. -/
structure LadderWf (side : Side) (orderSeq : Nat → Option Nat) (ladder : Ladder) : Prop where
  sorted : ladder.Pairwise fun first second => betterPrice side first.1 second.1 = true
  levels : ∀ level ∈ ladder, LevelWf side orderSeq level.1 level.2

def Ladder.orders (ladder : Ladder) : List Order := ladder.flatMap Prod.snd

section Price

variable {side : Side} {first second third : Int}

theorem betterPrice_trans (left : betterPrice side first second = true)
    (right : betterPrice side second third = true) : betterPrice side first third = true := by
  cases side <;> simp only [betterPrice, decide_eq_true_eq] at * <;> omega

theorem betterPrice_total (different : first ≠ second)
    (not : ¬ betterPrice side first second = true) : betterPrice side second first = true := by
  cases side <;> simp only [betterPrice, decide_eq_true_eq] at * <;> omega

theorem withinLimit_better {limit : Int} (better : betterPrice side first second = true)
    (within : withinLimit side second limit = true) : withinLimit side first limit = true := by
  cases side <;> simp only [betterPrice, withinLimit, decide_eq_true_eq] at * <;> omega

end Price

theorem SeqBefore.mono {old new : Nat → Option Nat} {queue : Queue}
    (ordered : queue.Pairwise (SeqBefore old))
    (kept : ∀ order ∈ queue, ∀ seq, new order.id = some seq → old order.id = some seq) :
    queue.Pairwise (SeqBefore new) :=
  ordered.imp_of_mem fun {_ _} firstMember secondMember before earlier later first second =>
    before earlier later (kept _ firstMember earlier first) (kept _ secondMember later second)

theorem SeqBefore.of_ids {orderSeq : Nat → Option Nat} {queue left : Queue}
    (ids : (left.map Order.id).Sublist (queue.map Order.id))
    (ordered : queue.Pairwise (SeqBefore orderSeq)) : left.Pairwise (SeqBefore orderSeq) := by
  have byId : ∀ orders : Queue, orders.Pairwise (SeqBefore orderSeq) ↔
      (orders.map Order.id).Pairwise fun first second => ∀ earlier later,
        orderSeq first = some earlier → orderSeq second = some later → earlier < later :=
    fun orders => by rw [pairwise_map]; exact Iff.rfl
  rw [byId] at ordered ⊢
  exact ordered.sublist ids

theorem LevelWf.mono {side : Side} {old new : Nat → Option Nat} {price : Int} {queue : Queue}
    (level : LevelWf side old price queue)
    (kept : ∀ order ∈ queue, ∀ seq, new order.id = some seq → old order.id = some seq) :
    LevelWf side new price queue :=
  { level with ordered := SeqBefore.mono level.ordered kept }

namespace Ladder

variable {side : Side} {orderSeq : Nat → Option Nat} {ladder : Ladder} {price : Int}
  {queue left : Queue} {order : Order}

theorem orders_cons (level : Int × Queue) : orders (level :: ladder) = level.2 ++ orders ladder :=
  flatMap_cons

theorem orders_append (first second : Ladder) :
    orders (first ++ second) = orders first ++ orders second :=
  flatMap_append

theorem mem_orders : order ∈ orders ladder ↔ ∃ level ∈ ladder, order ∈ level.2 :=
  mem_flatMap

theorem get_split (found : get ladder price = some queue) :
    ∃ before after, ladder = before ++ (price, queue) :: after ∧
      ∀ level ∈ before, level.1 ≠ price := by
  obtain ⟨before, after, same, others⟩ := lookup_eq_some_iff.mp found
  refine ⟨before, after, same, fun level member equal => ?_⟩
  have := others level member
  rw [equal] at this
  simp at this

theorem setQueue_split {before after : Ladder} (others : ∀ level ∈ before, level.1 ≠ price) :
    setQueue price left (before ++ (price, queue) :: after) =
      before ++ if left.isEmpty then after else (price, left) :: after := by
  induction before with
  | nil => simp [setQueue]
  | cons level before ih =>
    have other := others level mem_cons_self
    rw [cons_append, setQueue, if_neg other,
      ih fun level member => others level (mem_cons_of_mem _ member)]
    rfl

theorem setQueue_orders (found : get ladder price = some queue) :
    ∃ others, (orders ladder).Perm (queue ++ others) ∧
      ∀ left, (orders (setQueue price left ladder)).Perm (left ++ others) := by
  obtain ⟨before, after, rfl, apart⟩ := get_split found
  refine ⟨orders before ++ orders after, ?_, fun left => ?_⟩
  · rw [orders_append, orders_cons]
    exact perm_append_comm_assoc _ _ _
  · rw [setQueue_split apart, orders_append]
    split
    · rename_i empty
      rw [List.isEmpty_iff.mp empty]
      exact .refl _
    · rw [orders_cons]
      exact perm_append_comm_assoc _ _ _

theorem setQueue_wf (wf : LadderWf side orderSeq ladder) (found : get ladder price = some queue)
    (level : left ≠ [] → LevelWf side orderSeq price left) :
    LadderWf side orderSeq (setQueue price left ladder) := by
  obtain ⟨before, after, rfl, apart⟩ := get_split found
  obtain ⟨sorted, levels⟩ := wf
  rw [setQueue_split apart]
  rw [pairwise_append, pairwise_cons] at sorted
  obtain ⟨sortedBefore, ⟨best, sortedAfter⟩, across⟩ := sorted
  split
  · constructor
    · rw [pairwise_append]
      exact ⟨sortedBefore, sortedAfter, fun first member second inAfter =>
        across first member second (mem_cons_of_mem _ inAfter)⟩
    · intro level member
      rcases mem_append.mp member with member | member
      · exact levels level (mem_append_left _ member)
      · exact levels level (mem_append_right _ (mem_cons_of_mem _ member))
  · rename_i kept
    constructor
    · rw [pairwise_append, pairwise_cons]
      refine ⟨sortedBefore, ⟨best, sortedAfter⟩, fun first member second inRest => ?_⟩
      rcases mem_cons.mp inRest with rfl | inAfter
      · exact across first member (price, queue) mem_cons_self
      · exact across first member second (mem_cons_of_mem _ inAfter)
    · intro other member
      rcases mem_append.mp member with member | member
      · exact levels other (mem_append_left _ member)
      · rcases mem_cons.mp member with rfl | member
        · exact level fun empty => kept (List.isEmpty_iff.mpr empty)
        · exact levels other (mem_append_right _ (mem_cons_of_mem _ member))

theorem pushBack_orders : (orders (pushBack side order ladder)).Perm (order :: orders ladder) := by
  induction ladder with
  | nil => exact .refl _
  | cons level rest ih =>
    obtain ⟨price, queue⟩ := level
    unfold pushBack
    split
    · rw [orders_cons, orders_cons]
      change (queue ++ [order] ++ orders rest).Perm (order :: (queue ++ orders rest))
      rw [append_assoc]
      exact perm_middle
    · split
      · rw [orders_cons]
        exact .refl _
      · rw [orders_cons, orders_cons]
        exact (ih.append_left queue).trans perm_middle

theorem mem_pushBack {level : Int × Queue} (member : level ∈ pushBack side order ladder) :
    level ∈ ladder ∨ level = (order.price, [order]) ∨
      ∃ queue, (order.price, queue) ∈ ladder ∧ level = (order.price, queue ++ [order]) := by
  induction ladder with
  | nil => exact Or.inr (Or.inl (mem_singleton.mp member))
  | cons head rest ih =>
    obtain ⟨price, queue⟩ := head
    unfold pushBack at member
    split at member
    · rename_i same
      rcases mem_cons.mp member with rfl | member
      · subst same
        exact Or.inr (Or.inr ⟨queue, mem_cons_self, rfl⟩)
      · exact Or.inl (mem_cons_of_mem _ member)
    · split at member
      · rcases mem_cons.mp member with rfl | member
        · exact Or.inr (Or.inl rfl)
        · exact Or.inl member
      · rcases mem_cons.mp member with rfl | member
        · exact Or.inl mem_cons_self
        · rcases ih member with old | opened | ⟨queue, old, pushed⟩
          · exact Or.inl (mem_cons_of_mem _ old)
          · exact Or.inr (Or.inl opened)
          · exact Or.inr (Or.inr ⟨queue, mem_cons_of_mem _ old, pushed⟩)

theorem pushBack_sorted
    (sorted : ladder.Pairwise fun first second => betterPrice side first.1 second.1 = true) :
    (pushBack side order ladder).Pairwise
      fun first second => betterPrice side first.1 second.1 = true := by
  induction ladder with
  | nil => exact pairwise_singleton _ _
  | cons head rest ih =>
    obtain ⟨price, queue⟩ := head
    obtain ⟨best, sortedRest⟩ := pairwise_cons.mp sorted
    unfold pushBack
    split
    · exact pairwise_cons.mpr ⟨best, sortedRest⟩
    · rename_i different
      split
      · rename_i better
        refine pairwise_cons.mpr ⟨fun level member => ?_, sorted⟩
        rcases mem_cons.mp member with rfl | member
        · exact better
        · exact betterPrice_trans better (best level member)
      · rename_i worse
        refine pairwise_cons.mpr ⟨fun level member => ?_, ih sortedRest⟩
        have ahead : betterPrice side price order.price = true :=
          betterPrice_total (Ne.symm different) worse
        rcases mem_pushBack member with old | rfl | ⟨queue, _, rfl⟩
        · exact best level old
        · exact ahead
        · exact ahead

theorem pushBack_wf (wf : LadderWf side orderSeq ladder) (own : order.side = side)
    (positive : 0 < order.remainingQty)
    (last : ∀ other ∈ orders ladder, other.price = order.price → SeqBefore orderSeq other order) :
    LadderWf side orderSeq (pushBack side order ladder) where
  sorted := pushBack_sorted wf.sorted
  levels level member := by
    rcases mem_pushBack member with old | rfl | ⟨queue, old, rfl⟩
    · exact wf.levels level old
    · exact ⟨by simp, by simp [own], by simp [positive], pairwise_singleton _ _⟩
    · obtain ⟨_, placed, positives, ordered⟩ := wf.levels _ old
      refine ⟨by simp, fun other inQueue => ?_, fun other inQueue => ?_, ?_⟩
      · rcases mem_append.mp inQueue with inQueue | inQueue
        · exact placed other inQueue
        · rw [mem_singleton.mp inQueue]
          exact ⟨own, rfl⟩
      · rcases mem_append.mp inQueue with inQueue | inQueue
        · exact positives other inQueue
        · rw [mem_singleton.mp inQueue]
          exact positive
      · refine pairwise_append.mpr ⟨ordered, pairwise_singleton _ _, ?_⟩
        intro other inQueue pushed inPushed
        rw [mem_singleton.mp inPushed]
        exact last other (mem_orders.mpr ⟨_, old, inQueue⟩) (placed other inQueue).2

end Ladder

namespace LadderWf

variable {side : Side} {orderSeq : Nat → Option Nat} {ladder : Ladder} {order : Order}

theorem mono {other : Nat → Option Nat} (wf : LadderWf side orderSeq ladder)
    (kept : ∀ order ∈ ladder.orders, ∀ seq, other order.id = some seq →
      orderSeq order.id = some seq) : LadderWf side other ladder where
  sorted := wf.sorted
  levels level member := (wf.levels level member).mono fun order inQueue =>
    kept order (mem_orders.mpr ⟨level, member, inQueue⟩)

theorem placed (wf : LadderWf side orderSeq ladder) (member : order ∈ ladder.orders) :
    order.side = side := by
  obtain ⟨level, inLadder, inQueue⟩ := mem_orders.mp member
  exact ((wf.levels level inLadder).placed order inQueue).1

theorem positive (wf : LadderWf side orderSeq ladder) (member : order ∈ ladder.orders) :
    0 < order.remainingQty := by
  obtain ⟨level, inLadder, inQueue⟩ := mem_orders.mp member
  exact (wf.levels level inLadder).positive order inQueue

theorem tail {level : Int × Queue} (wf : LadderWf side orderSeq (level :: ladder)) :
    LadderWf side orderSeq ladder :=
  ⟨(pairwise_cons.mp wf.sorted).2, fun other member =>
    wf.levels other (mem_cons_of_mem _ member)⟩

theorem get_price (wf : LadderWf side orderSeq ladder) (member : order ∈ ladder.orders) :
    ∃ queue, ladder.get order.price = some queue ∧ order ∈ queue := by
  induction ladder with
  | nil => exact absurd member not_mem_nil
  | cons head rest ih =>
    obtain ⟨price, queue⟩ := head
    have placed := (wf.levels _ mem_cons_self).placed
    rw [orders_cons] at member
    unfold Ladder.get
    rw [List.lookup_cons]
    rcases mem_append.mp member with member | member
    · have same := (placed order member).2
      simp only [same, beq_self_eq_true]
      exact ⟨queue, rfl, member⟩
    · obtain ⟨level, inRest, inQueue⟩ := mem_orders.mp member
      have better := (pairwise_cons.mp wf.sorted).1 level inRest
      have same := ((wf.levels level (mem_cons_of_mem _ inRest)).placed order inQueue).2
      have different : (order.price == price) = false := by
        rw [same, beq_eq_false_iff_ne]
        intro equal
        rw [equal] at better
        cases side <;> simp [betterPrice] at better
      rw [different]
      exact ih wf.tail member

theorem get_level (wf : LadderWf side orderSeq ladder) {price : Int} {queue : Queue}
    (found : ladder.get price = some queue) : LevelWf side orderSeq price queue := by
  obtain ⟨before, after, rfl, _⟩ := get_split found
  exact wf.levels _ (mem_append_right _ mem_cons_self)

theorem best_some (wf : LadderWf side orderSeq ladder) {price : Int}
    (best : ladder.best = some price) :
    (∃ order ∈ ladder.orders, order.price = price) ∧
      ∀ order ∈ ladder.orders, order.price = price ∨ betterPrice side price order.price = true := by
  cases ladder with
  | nil => contradiction
  | cons head rest =>
    cases best
    obtain ⟨sorted, levels⟩ := wf
    obtain ⟨nonempty, placed, _⟩ := levels head mem_cons_self
    constructor
    · obtain ⟨order, member⟩ := exists_mem_of_ne_nil _ nonempty
      exact ⟨order, mem_orders.mpr ⟨head, mem_cons_self, member⟩,
        (placed order member).2⟩
    · intro order member
      obtain ⟨level, inLadder, inQueue⟩ := mem_orders.mp member
      rw [((levels level inLadder).placed order inQueue).2]
      rcases mem_cons.mp inLadder with rfl | inRest
      · exact Or.inl rfl
      · exact Or.inr ((pairwise_cons.mp sorted).1 level inRest)

theorem best_none (best : ladder.best = none) : ladder.orders = [] := by
  cases ladder with
  | nil => rfl
  | cons head rest => contradiction

end LadderWf

end TorusHyperBft.OrderBook
