import TorusHyperBft.OrderBook.Place
import TorusHyperBft.OrderBook.Record
import TorusHyperBft.OrderBook.Valid

namespace TorusHyperBft.OrderBook

open List

/-! The reduce-only sweep of a valid book: resting orders only shrink or go, and every
quantity that goes is reported. -/

/-- No order grows or appears. -/
def Shrinks (before after : List Order) : Prop :=
  ∀ order ∈ after, ∃ old ∈ before, old.terms = order.terms ∧
    order.remainingQty ≤ old.remainingQty

theorem Shrinks.refl (orders : List Order) : Shrinks orders orders :=
  fun order member => ⟨order, member, rfl, Int.le_refl _⟩

theorem Shrinks.trans {first second third : List Order} (left : Shrinks first second)
    (right : Shrinks second third) : Shrinks first third := by
  intro order member
  obtain ⟨middle, middleMember, middleTerms, middleLe⟩ := right order member
  obtain ⟨old, oldMember, oldTerms, oldLe⟩ := left middle middleMember
  exact ⟨old, oldMember, oldTerms.trans middleTerms, middleLe.trans oldLe⟩

theorem Shrinks.ids {before after : List Order} (shrinks : Shrinks before after) {id : Nat}
    (member : id ∈ after.map Order.id) : id ∈ before.map Order.id := by
  obtain ⟨order, inAfter, rfl⟩ := mem_map.mp member
  obtain ⟨old, oldMember, same, _⟩ := shrinks order inAfter
  exact mem_map.mpr ⟨old, oldMember, Order.terms_id same⟩

/-- What a sweep, or part of one, does to a book and the list of its cuts. -/
structure Swept (before : Book) (cuts : List ReduceOnlyCut) (after : Book)
    (more : List ReduceOnlyCut) : Prop where
  valid : after.Valid
  frame : Book.Frame before after
  shrinks : Shrinks before.resting after.resting
  conserves : ∀ id, restingQty after.resting id + cutQty more id =
    restingQty before.resting id + cutQty cuts id
  positive : (∀ cut ∈ cuts, 0 < cut.qty) → ∀ cut ∈ more, 0 < cut.qty
  kept : cuts ⊆ more

namespace Swept

variable {first second third : Book} {firstCuts secondCuts thirdCuts : List ReduceOnlyCut}

theorem refl (valid : first.Valid) : Swept first firstCuts first firstCuts :=
  ⟨valid, .refl _, .refl _, fun _ => rfl, fun positive => positive, List.Subset.refl _⟩

theorem trans (left : Swept first firstCuts second secondCuts)
    (right : Swept second secondCuts third thirdCuts) : Swept first firstCuts third thirdCuts where
  valid := right.valid
  frame := left.frame.trans right.frame
  shrinks := left.shrinks.trans right.shrinks
  conserves id := (right.conserves id).trans (left.conserves id)
  positive start := right.positive (left.positive start)
  kept := List.Subset.trans left.kept right.kept

end Swept

namespace Book

theorem forgetReduceOnly_absent {book : Book} {trader : Address} {id : Nat}
    (absent : id ∉ book.reduceOnlyIndex trader) : book.forgetReduceOnly trader id = book := by
  unfold forgetReduceOnly
  rw [erase_of_not_mem absent, Function.update_eq_self]

theorem Valid.forgetReduceOnly_stale {book : Book} (valid : book.Valid) {id : Nat}
    (absent : id ∉ book.resting.map Order.id) (trader : Address) :
    book.forgetReduceOnly trader id = book := by
  refine forgetReduceOnly_absent fun listed => absent ?_
  obtain ⟨order, member, same, _⟩ := (valid.reduceOnly trader id).mp listed
  exact mem_map.mpr ⟨order, member, same⟩

end Book

theorem sweepKeep_bounds {reducesBuy : Bool} {budget : Int} {order : Order}
    (positive : 0 < order.remainingQty) :
    0 ≤ sweepKeep reducesBuy budget order ∧
      sweepKeep reducesBuy budget order ≤ order.remainingQty := by
  unfold sweepKeep
  split <;> omega

/-- Only this order changed, to what it keeps. -/
def Refitted (before after : Book) (order : Order) (keep : Int) : Prop :=
  ∃ others, before.resting.Perm (order :: others) ∧
    after.resting.Perm
      (if keep = 0 then others else { order with remainingQty := keep } :: others)

variable {order : Order} {before after : Book}

theorem Refitted.shrinks {keep : Int}
    (refitted : Refitted before after order keep) (bounded : keep ≤ order.remainingQty) :
    Shrinks before.resting after.resting := by
  obtain ⟨others, old, new⟩ := refitted
  intro left member
  rw [new.mem_iff] at member
  split at member
  · exact ⟨left, old.mem_iff.mpr (mem_cons_of_mem _ member), rfl, Int.le_refl _⟩
  · rcases mem_cons.mp member with rfl | member
    · exact ⟨order, old.mem_iff.mpr mem_cons_self, rfl, bounded⟩
    · exact ⟨left, old.mem_iff.mpr (mem_cons_of_mem _ member), rfl, Int.le_refl _⟩

theorem Refitted.restingQty {keep : Int} (refitted : Refitted before after order keep) (id : Nat) :
    restingQty after.resting id + (if order.id = id then order.remainingQty - keep else 0) =
      restingQty before.resting id := by
  obtain ⟨others, old, new⟩ := refitted
  unfold OrderBook.restingQty
  rw [totalFor_perm old, totalFor_perm new, totalFor_cons]
  split
  · rename_i gone
    subst gone
    split <;> omega
  · rw [totalFor_cons]
    dsimp only
    split <;> omega

theorem Refitted.whole {book : Book} (member : order ∈ book.resting)
    (positive : 0 < order.remainingQty) : Refitted book book order order.remainingQty := by
  obtain ⟨before, after, split⟩ := append_of_mem member
  have perm : book.resting.Perm (order :: (before ++ after)) := by
    rw [split]
    exact perm_middle
  refine ⟨before ++ after, perm, ?_⟩
  rw [if_neg (Int.ne_of_gt positive)]
  exact perm

theorem Refitted.swept {keep : Int}
    {cuts : List ReduceOnlyCut} (refitted : Refitted before after order keep) (valid : after.Valid)
    (frame : Book.Frame before after) (less : keep < order.remainingQty) (trader : Address) :
    Swept before cuts after
      (cuts ++ [⟨order.id, trader, order.price, order.remainingQty - keep⟩]) where
  valid := valid
  frame := frame
  shrinks := refitted.shrinks (Int.le_of_lt less)
  conserves id := by
    have total := refitted.restingQty id
    simp only [cutQty, totalFor_append, totalFor_cons, totalFor_nil]
    omega
  positive start cut member := by
    rcases mem_append.mp member with old | new
    · exact start cut old
    · rw [mem_singleton.mp new]
      exact Int.sub_pos_of_lt less
  kept := subset_append_left _ _

theorem sweepOrder_present {sweep : Sweep} (valid : sweep.book.Valid)
    (member : order ∈ sweep.book.resting) (trader : Address) (reducesBuy : Bool) :
    Swept sweep.book sweep.cuts (sweepOrder trader reducesBuy sweep order.id).book
        (sweepOrder trader reducesBuy sweep order.id).cuts ∧
      (sweepOrder trader reducesBuy sweep order.id).budget =
        sweep.budget - sweepKeep reducesBuy sweep.budget order ∧
      Refitted sweep.book (sweepOrder trader reducesBuy sweep order.id).book order
        (sweepKeep reducesBuy sweep.budget order) := by
  have found : sweep.book.getOrder order.id = some order := valid.getOrder_iff.mpr ⟨member, rfl⟩
  have positive := valid.positive member
  obtain ⟨nonneg, bounded⟩ := @sweepKeep_bounds reducesBuy sweep.budget order positive
  unfold sweepOrder
  rw [found]
  dsimp only
  generalize sweepKeep reducesBuy sweep.budget order = keep at *
  by_cases whole : keep = order.remainingQty
  · rw [if_pos whole, whole]
    exact ⟨.refl valid, rfl, .whole member positive⟩
  · rw [if_neg whole]
    have less : keep < order.remainingQty := by omega
    by_cases gone : keep = 0
    · obtain ⟨after, cancelled, perm, afterValid, frame⟩ := valid.cancelOrder member
      rw [if_pos gone, cancelled]
      have refitted : Refitted sweep.book after order keep :=
        ⟨after.resting, perm, by rw [if_pos gone]⟩
      exact ⟨refitted.swept afterValid frame less trader, rfl, refitted⟩
    · obtain ⟨after, changed, replaced⟩ :=
        valid.modifyOrder_shrink member (show 0 < keep by omega) less
      rw [if_neg gone, changed]
      obtain ⟨others, old, new⟩ := replaced.resting
      have refitted : Refitted sweep.book after order keep :=
        ⟨others, old, by rw [if_neg gone]; exact new⟩
      exact ⟨refitted.swept replaced.valid replaced.frame less trader, rfl, refitted⟩

theorem sweepOrder_absent {sweep : Sweep} (valid : sweep.book.Valid) {id : Nat}
    (absent : id ∉ sweep.book.resting.map Order.id) (trader : Address) (reducesBuy : Bool) :
    sweepOrder trader reducesBuy sweep id = sweep := by
  simp only [sweepOrder, valid.getOrder_none absent, valid.forgetReduceOnly_stale absent]

theorem sweepOrder_swept {sweep : Sweep} (valid : sweep.book.Valid) (trader : Address)
    (reducesBuy : Bool) (id : Nat) :
    Swept sweep.book sweep.cuts (sweepOrder trader reducesBuy sweep id).book
      (sweepOrder trader reducesBuy sweep id).cuts := by
  by_cases rests : id ∈ sweep.book.resting.map Order.id
  · obtain ⟨order, member, rfl⟩ := mem_map.mp rests
    exact (sweepOrder_present valid member trader reducesBuy).1
  · rw [sweepOrder_absent valid rests]
    exact .refl valid

theorem sweepOrders_swept {sweep : Sweep} (valid : sweep.book.Valid) (trader : Address)
    (reducesBuy : Bool) (ids : List Nat) :
    Swept sweep.book sweep.cuts (ids.foldl (sweepOrder trader reducesBuy) sweep).book
      (ids.foldl (sweepOrder trader reducesBuy) sweep).cuts := by
  induction ids generalizing sweep with
  | nil => exact .refl valid
  | cons id ids ih =>
    have first := sweepOrder_swept valid trader reducesBuy id
    exact first.trans (ih first.valid)

theorem sweepOrders_budget {sweep : Sweep} (valid : sweep.book.Valid) (trader : Address)
    (reducesBuy : Bool) (ids : List Nat) (nonneg : 0 ≤ sweep.budget) :
    0 ≤ (ids.foldl (sweepOrder trader reducesBuy) sweep).budget := by
  induction ids generalizing sweep with
  | nil => exact nonneg
  | cons id ids ih =>
    refine ih (sweepOrder_swept valid trader reducesBuy id).valid ?_
    by_cases rests : id ∈ sweep.book.resting.map Order.id
    · obtain ⟨order, member, rfl⟩ := mem_map.mp rests
      rw [(sweepOrder_present valid member trader reducesBuy).2.1]
      unfold sweepKeep
      split <;> omega
    · rw [sweepOrder_absent valid rests]
      exact nonneg

namespace Book

variable {book : Book}

theorem Valid.sweepReduceOnly_budget (valid : book.Valid) (trader : Address)
    (cuts : List ReduceOnlyCut) {spare : Int}
    (left : (book.sweepReduceOnly trader cuts).2.2 = some spare) : 0 ≤ spare := by
  unfold Book.sweepReduceOnly at left
  cases position : book.reduceOnlyPositions.get trader with
  | none =>
    rw [position] at left
    contradiction
  | some held =>
    rw [position] at left
    cases left
    refine @sweepOrders_budget ⟨book, cuts, _⟩ valid trader _ _ ?_
    dsimp only
    simp only [decide_eq_true_eq]
    split <;> omega

theorem Valid.sweepReduceOnly (valid : book.Valid) (trader : Address)
    (cuts : List ReduceOnlyCut) :
    Swept book cuts (book.sweepReduceOnly trader cuts).1 (book.sweepReduceOnly trader cuts).2.1 := by
  unfold Book.sweepReduceOnly
  cases book.reduceOnlyPositions.get trader with
  | none => exact .refl valid
  | some position => exact @sweepOrders_swept ⟨book, cuts, _⟩ valid trader _ _

theorem sweepNexts (traders : List Address) (taker : Address)
    (state : Book × List ReduceOnlyCut × Option Int) (valid : state.1.Valid)
    (nonneg : ∀ spare, state.2.2 = some spare → 0 ≤ spare) :
    Swept state.1 state.2.1 (traders.foldl (sweepNext taker) state).1
        (traders.foldl (sweepNext taker) state).2.1 ∧
      ∀ spare, (traders.foldl (sweepNext taker) state).2.2 = some spare → 0 ≤ spare := by
  induction traders generalizing state with
  | nil => exact ⟨.refl valid, nonneg⟩
  | cons trader traders ih =>
    have first : Swept state.1 state.2.1 (sweepNext taker state trader).1
        (sweepNext taker state trader).2.1 := valid.sweepReduceOnly trader state.2.1
    obtain ⟨rest, restNonneg⟩ := ih (sweepNext taker state trader) first.valid fun spare left => by
      unfold sweepNext at left
      dsimp only at left
      split at left
      · exact valid.sweepReduceOnly_budget trader state.2.1 left
      · exact nonneg spare left
    exact ⟨first.trans rest, restNonneg⟩

theorem Valid.sweepTouched (valid : book.Valid) (traders : List Address) (taker : Address)
    (cuts : List ReduceOnlyCut) :
    Swept book cuts (book.sweepTouched traders taker cuts).1
        (book.sweepTouched traders taker cuts).2.1 ∧
      ∀ spare, (book.sweepTouched traders taker cuts).2.2 = some spare → 0 ≤ spare :=
  sweepNexts traders taker (book, cuts, none) valid (by simp)

end Book

end TorusHyperBft.OrderBook
