import TorusHyperBft.OrderBook.Turn
import TorusHyperBft.Totals

namespace TorusHyperBft.OrderBook

open List

/-! What a matching run records: quantities add up, indexes follow the queues, and fills
come in the order of the queues. -/

def restingQty (orders : List Order) (id : Nat) : Int :=
  totalFor Order.id Order.remainingQty orders id

def filledQty (fills : List Fill) (id : Nat) : Int :=
  totalFor Fill.makerOrderId Fill.quantity fills id

def cutQty (cuts : List ReduceOnlyCut) (id : Nat) : Int :=
  totalFor ReduceOnlyCut.orderId ReduceOnlyCut.qty cuts id

def Matching.taken (matching : Matching) (id : Nat) : Int :=
  filledQty matching.fills id + cutQty matching.reduceOnlyCuts id +
    cutQty matching.marginCancels id + restingQty matching.selfTradeCancels id

def Matching.takerTotal (matching : Matching) : Int :=
  matching.taker.remainingQty + (matching.fills.map Fill.quantity).sum

/-- Nothing empty is recorded. -/
structure Matching.Positive (matching : Matching) : Prop where
  fills : ∀ fill ∈ matching.fills, 0 < fill.quantity
  selfTradeCancels : ∀ order ∈ matching.selfTradeCancels, 0 < order.remainingQty
  reduceOnlyCuts : ∀ cut ∈ matching.reduceOnlyCuts, 0 < cut.qty
  marginCancels : ∀ cut ∈ matching.marginCancels, 0 < cut.qty
  remaining : 0 ≤ matching.taker.remainingQty

variable {before after : Matching}

theorem SameRecord.taken (same : SameRecord before after) (id : Nat) :
    after.taken id = before.taken id := by
  simp only [Matching.taken, same.fills, same.reduceOnlyCuts, same.marginCancels,
    same.selfTradeCancels]

theorem SameRecord.takerTotal (same : SameRecord before after) :
    after.takerTotal = before.takerTotal := by
  simp only [Matching.takerTotal, same.fills, same.taker]

theorem SameRecord.positive (same : SameRecord before after)
    (positive : before.Positive) : after.Positive where
  fills := same.fills ▸ positive.fills
  selfTradeCancels := same.selfTradeCancels ▸ positive.selfTradeCancels
  reduceOnlyCuts := same.reduceOnlyCuts ▸ positive.reduceOnlyCuts
  marginCancels := same.marginCancels ▸ positive.marginCancels
  remaining := same.taker ▸ positive.remaining

variable {quantity : Int}

namespace Turn

variable {env : MatchEnv} {before after : List Order × Matching}

theorem conserves (turn : Turn env before after) (id : Nat) :
    restingQty after.1 id + after.2.taken id = restingQty before.1 id + before.2.taken id := by
  cases turn with
  | selfTrade ready own =>
    simp only [Matching.taken, Matching.cancelSelfTrade, Matching.forget, restingQty,
      totalFor_append, totalFor_cons, totalFor_nil]
    omega
  | cut ready other spent =>
    simp only [Matching.taken, Matching.cutMaker, Matching.cutOf, Matching.forget, restingQty,
      cutQty, totalFor_append, totalFor_cons, totalFor_nil]
    omega
  | starved ready other same => rw [same.taken]
  | marginCancel ready other same =>
    rw [← same.taken]
    simp only [Matching.taken, Matching.marginCancelMaker, Matching.cutOf, Matching.forget,
      restingQty, cutQty, totalFor_append, totalFor_cons, totalFor_nil]
    omega
  | fillWhole ready filling =>
    rw [← filling.same.taken]
    simp only [Matching.taken, Matching.recordFill, Matching.fillOf, Matching.forget, restingQty,
      filledQty, totalFor_append, totalFor_cons, totalFor_nil]
    omega
  | fillPart ready filling part =>
    rw [← filling.same.taken]
    simp only [Matching.taken, Matching.recordFill, Matching.fillOf, Order.filled, restingQty,
      filledQty, totalFor_append, totalFor_cons, totalFor_nil]
    split <;> omega

theorem takerTotal (turn : Turn env before after) :
    after.2.takerTotal = before.2.takerTotal := by
  cases turn with
  | selfTrade | cut => rfl
  | starved ready other same => exact same.takerTotal
  | marginCancel ready other same => exact same.takerTotal
  | fillWhole ready filling =>
    rw [← filling.same.takerTotal]
    simp only [Matching.takerTotal, Matching.recordFill, Matching.fillOf, Matching.forget,
      map_append, map_cons, map_nil, sum_append, sum_singleton]
    omega
  | fillPart ready filling part =>
    rw [← filling.same.takerTotal]
    simp only [Matching.takerTotal, Matching.recordFill, Matching.fillOf,
      map_append, map_cons, map_nil, sum_append, sum_singleton]
    omega

theorem recordFill_positive {maker : Order} {matching after : Matching}
    (filling : Filling env maker matching quantity after) (positive : matching.Positive)
    (price : Int) : (after.recordFill maker price quantity).Positive := by
  have filled := filling.same.positive positive
  refine ⟨fun fill member => ?_, filled.selfTradeCancels, filled.reduceOnlyCuts,
    filled.marginCancels, ?_⟩
  · rcases mem_append.mp member with member | member
    · exact filled.fills fill member
    · rw [mem_singleton.mp member]
      exact filling.positive
  · rw [filling.recordFill_taker]
    exact Int.sub_nonneg_of_le filling.wanted

theorem recorded (turn : Turn env before after) (orders : AllPositive before.1)
    (positive : before.2.Positive) : after.2.Positive := by
  cases turn with
  | @selfTrade maker _ _ ready own =>
    refine { positive with selfTradeCancels := fun order member => ?_ }
    rcases mem_append.mp member with member | member
    · exact positive.selfTradeCancels order member
    · rw [mem_singleton.mp member]
      exact orders maker mem_cons_self
  | @cut maker _ _ ready other spent =>
    refine { positive with reduceOnlyCuts := fun cut member => ?_ }
    rcases mem_append.mp member with member | member
    · exact positive.reduceOnlyCuts cut member
    · rw [mem_singleton.mp member]
      exact orders maker mem_cons_self
  | starved ready other same => exact same.positive positive
  | @marginCancel maker _ _ _ ready other same =>
    have checked := same.positive positive
    refine { checked with marginCancels := fun cut member => ?_ }
    rcases mem_append.mp member with member | member
    · exact checked.marginCancels cut member
    · rw [mem_singleton.mp member]
      exact orders maker mem_cons_self
  | @fillWhole maker _ _ _ ready filling =>
    exact { recordFill_positive filling positive maker.price with }
  | @fillPart maker _ _ _ _ ready filling part =>
    exact recordFill_positive filling positive maker.price

theorem covers {others : List Order} {stops : List StopOrder} {nextSeq : Nat}
    (turn : Turn env before after)
    (covers : Covers before.2.indexes ((before.1 ++ others).map Order.key) stops nextSeq) :
    Covers after.2.indexes ((after.1 ++ others).map Order.key) stops nextSeq := by
  cases turn with
  | selfTrade | cut => exact covers.forget
  | starved ready other same => rw [same.indexes]; exact covers
  | marginCancel ready other same =>
    rw [← same.indexes] at covers
    exact covers.forget
  | fillWhole ready filling =>
    rw [← filling.same.indexes] at covers
    exact covers.forget
  | fillPart ready filling part =>
    rw [← filling.same.indexes] at covers
    exact covers

theorem forget_seq_some {indexes : Indexes} {order : Order} {id seq : Nat}
    (found : (indexes.forget order).orderSeq id = some seq) : indexes.orderSeq id = some seq := by
  rw [forget_orderSeq] at found
  by_cases same : id = order.id
  · rw [same, Function.update_self] at found
    contradiction
  · rwa [Function.update_of_ne same] at found

theorem orderSeq {id seq : Nat} (turn : Turn env before after)
    (found : after.2.indexes.orderSeq id = some seq) :
    before.2.indexes.orderSeq id = some seq := by
  cases turn with
  | selfTrade | cut => exact forget_seq_some found
  | starved ready other same => rwa [same.indexes] at found
  | marginCancel ready other same =>
    rw [← same.indexes]
    exact forget_seq_some found
  | fillWhole ready filling =>
    rw [← filling.same.indexes]
    exact forget_seq_some found
  | fillPart ready filling part =>
    rw [← filling.same.indexes]
    exact found

end Turn

namespace Turns

variable {env : MatchEnv} {before after : List Order × Matching}

theorem conserves (turns : Turns env before after) (id : Nat) :
    restingQty after.1 id + after.2.taken id = restingQty before.1 id + before.2.taken id := by
  induction turns with
  | refl => rfl
  | tail _ turn ih => exact (turn.conserves id).trans ih

theorem takerTotal (turns : Turns env before after) :
    after.2.takerTotal = before.2.takerTotal := by
  induction turns with
  | refl => rfl
  | tail _ turn ih => exact turn.takerTotal.trans ih

theorem recorded (turns : Turns env before after) (orders : AllPositive before.1)
    (positive : before.2.Positive) : after.2.Positive := by
  induction turns with
  | refl => exact positive
  | tail earlier turn ih => exact turn.recorded (Turns.positive earlier orders) ih

theorem covers {others : List Order} {stops : List StopOrder} {nextSeq : Nat}
    (turns : Turns env before after)
    (covers : Covers before.2.indexes ((before.1 ++ others).map Order.key) stops nextSeq) :
    Covers after.2.indexes ((after.1 ++ others).map Order.key) stops nextSeq := by
  induction turns with
  | refl => exact covers
  | tail _ turn ih => exact turn.covers ih

theorem orderSeq {id seq : Nat} (turns : Turns env before after)
    (found : after.2.indexes.orderSeq id = some seq) :
    before.2.indexes.orderSeq id = some seq := by
  induction turns with
  | refl => exact found
  | tail _ turn ih => exact ih (turn.orderSeq found)

end Turns

section Priority

variable {env : MatchEnv}

/-- A policed reduce-only maker that was filled up to its owner's position has nothing left
to reduce, so it is not filled twice. -/
theorem Filling.spent {maker : Order} {matching after : Matching}
    (filling : Filling env maker matching quantity after) (part : quantity < maker.remainingQty) :
    matching.taker.remainingQty - quantity ≤ 0 ∨ after.exhausted = true ∨
      makerFillable after.positions (maker.filled quantity) = none := by
  obtain ⟨fillable, policed, _, whole⟩ := filling.policed
  obtain ⟨loaded, seeded, moved⟩ := filling.moved
  rcases whole with exhausted | ⟨_, whole⟩
  · exact Or.inr (Or.inl exhausted)
  by_cases sated : matching.taker.remainingQty ≤ fillable
  · exact Or.inl (by omega)
  refine Or.inr (Or.inr ?_)
  unfold makerFillable at policed
  cases reduceOnly : maker.reduceOnly with
  | false =>
    rw [reduceOnly, if_neg (by simp)] at policed
    cases policed
    omega
  | true =>
    rw [reduceOnly, if_pos rfl] at policed
    cases position : matching.positions.get maker.trader with
    | none =>
      rw [position] at policed
      cases policed
      omega
    | some held =>
      rw [position] at policed
      dsimp only at policed
      split at policed
      · contradiction
      cases policed
      have loadedHeld : loaded.get maker.trader = some held := seeded.get_some position
      have left := moved maker.trader
      rw [ReduceOnlyPositions.get_applyFill, if_pos rfl, ReduceOnlyPositions.get_applyFill,
        if_neg filling.other, loadedHeld] at left
      unfold makerFillable
      rw [if_pos (show (maker.filled quantity).reduceOnly = true from reduceOnly),
        show (maker.filled quantity).trader = maker.trader from rfl, left]
      change (if reduceOnlyAllowance _ maker.isBuy ≤ 0 then _ else _) = none
      rw [if_pos]
      unfold reduceOnlyAllowance at *
      cases maker.isBuy <;> simp at * <;> split <;> omega

/-- A fill of these two orders at the maker's price. -/
structure FillOf (taker maker : Order) (fill : Fill) : Prop where
  makerOrderId : fill.makerOrderId = maker.id
  takerOrderId : fill.takerOrderId = taker.id
  makerTrader : fill.maker = maker.trader
  takerTrader : fill.taker = taker.trader
  makerSide : fill.makerSide = maker.side
  price : fill.price = maker.price
  within : withinLimit maker.side maker.price taker.price = true
  other : maker.trader ≠ taker.trader

/-- The cut is of this order. -/
def CutOf (order : Order) (cut : ReduceOnlyCut) : Prop :=
  cut.orderId = order.id ∧ cut.trader = order.trader

/-- The result names the order. -/
def Matching.Reports (matching : Matching) (order : Order) : Prop :=
  (∃ fill ∈ matching.fills, fill.makerOrderId = order.id ∧ fill.maker = order.trader) ∨
    (∃ cancelled ∈ matching.selfTradeCancels, cancelled.terms = order.terms) ∨
    (∃ cut ∈ matching.reduceOnlyCuts, CutOf order cut) ∨
    ∃ cut ∈ matching.marginCancels, CutOf order cut

theorem Matching.cancelSelfTrade_reports (matching : Matching) (maker : Order) :
    (matching.cancelSelfTrade maker).Reports maker :=
  Or.inr (Or.inl ⟨maker, mem_append_right _ (mem_singleton_self _), rfl⟩)

theorem Matching.cutMaker_reports (matching : Matching) (maker : Order) :
    (matching.cutMaker maker).Reports maker :=
  Or.inr (Or.inr (Or.inl
    ⟨cutOf maker, mem_append_right _ (mem_singleton_self _), rfl, rfl⟩))

theorem Matching.marginCancelMaker_reports (matching : Matching) (maker : Order) :
    (matching.marginCancelMaker maker).Reports maker :=
  Or.inr (Or.inr (Or.inr
    ⟨cutOf maker, mem_append_right _ (mem_singleton_self _), rfl, rfl⟩))

theorem Matching.recordFill_reports (matching : Matching) (maker : Order) (price quantity : Int) :
    (matching.recordFill maker price quantity).Reports maker :=
  Or.inl ⟨fillOf matching.taker maker price quantity,
    mem_append_right _ (mem_singleton_self _), rfl, rfl⟩

/-- The match would not have filled this maker. -/
def Matching.Passed (matching : Matching) (maker : Order) : Prop :=
  matching.taker.remainingQty ≤ 0 ∨ matching.exhausted = true ∨
    makerFillable matching.positions maker = none

/-- Only what concerns `maker` was added to the record. -/
structure Extends (maker : Order) (before after : Matching) : Prop where
  taker : after.taker.terms = before.taker.terms
  keepsFills : before.fills ⊆ after.fills
  keepsCancels : before.selfTradeCancels ⊆ after.selfTradeCancels
  keepsCuts : before.reduceOnlyCuts ⊆ after.reduceOnlyCuts
  keepsMarginCancels : before.marginCancels ⊆ after.marginCancels
  fills : ∀ fill ∈ after.fills, fill ∈ before.fills ∨ FillOf before.taker maker fill
  cancels : ∀ cancelled ∈ after.selfTradeCancels,
    cancelled ∈ before.selfTradeCancels ∨ cancelled.terms = maker.terms
  cuts : ∀ cut ∈ after.reduceOnlyCuts, cut ∈ before.reduceOnlyCuts ∨ CutOf maker cut
  marginCancels : ∀ cut ∈ after.marginCancels, cut ∈ before.marginCancels ∨ CutOf maker cut

/-- How far a run that began with the orders `start` has come: `gone` left the book, `rest`
are ahead (with less quantity, perhaps). -/
structure Progress (start : List Order) (taker : Order) (gone rest ahead : List Order)
    (matching : Matching) : Prop where
  split : start = gone ++ rest
  terms : rest.map Order.terms = ahead.map Order.terms
  sameTaker : matching.taker.terms = taker.terms
  reported : ∀ order ∈ gone, matching.Reports order
  fills : ∀ fill ∈ matching.fills, ∃ maker ∈ start, FillOf taker maker fill
  cancels : ∀ cancelled ∈ matching.selfTradeCancels, ∃ order ∈ gone, cancelled.terms = order.terms
  cuts : ∀ cut ∈ matching.reduceOnlyCuts, ∃ order ∈ gone, CutOf order cut
  marginCancels : ∀ cut ∈ matching.marginCancels, ∃ order ∈ gone, CutOf order cut
  inOrder : (matching.fills.map Fill.makerOrderId).Sublist (gone.map Order.id) ∨
    ∃ maker behind, ahead = maker :: behind ∧
      (matching.fills.map Fill.makerOrderId).Sublist (gone.map Order.id ++ [maker.id]) ∧
      matching.Passed maker

theorem Matching.Reports.mono {maker order : Order}
    (reports : before.Reports order) (more : Extends maker before after) :
    after.Reports order := by
  rcases reports with ⟨fill, member, said⟩ | ⟨cancelled, member, said⟩ | ⟨cut, member, said⟩ |
    ⟨cut, member, said⟩
  · exact Or.inl ⟨fill, more.keepsFills member, said⟩
  · exact Or.inr (Or.inl ⟨cancelled, more.keepsCancels member, said⟩)
  · exact Or.inr (Or.inr (Or.inl ⟨cut, more.keepsCuts member, said⟩))
  · exact Or.inr (Or.inr (Or.inr ⟨cut, more.keepsMarginCancels member, said⟩))

theorem Matching.Reports.congr {matching : Matching} {first second : Order}
    (reports : matching.Reports first) (same : first.terms = second.terms) :
    matching.Reports second := by
  unfold Matching.Reports CutOf at *
  rwa [← same, ← Order.terms_id same, ← Order.terms_trader same]

theorem FillOf.congr {taker maker otherTaker otherMaker : Order} {fill : Fill}
    (fillOf : FillOf taker maker fill) (sameTaker : taker.terms = otherTaker.terms)
    (sameMaker : maker.terms = otherMaker.terms) : FillOf otherTaker otherMaker fill := by
  obtain ⟨makerId, takerId, makerTrader, takerTrader, side, price, within, other⟩ := fillOf
  rw [Order.terms_id sameMaker] at makerId
  rw [Order.terms_id sameTaker] at takerId
  rw [Order.terms_trader sameMaker] at makerTrader other
  rw [Order.terms_trader sameTaker] at takerTrader other
  rw [Order.terms_side sameMaker] at side within
  rw [Order.terms_price sameMaker] at price within
  rw [Order.terms_price sameTaker] at within
  exact ⟨makerId, takerId, makerTrader, takerTrader, side, price, within, other⟩

namespace Extends

variable {maker : Order} {matching checked : Matching}

theorem of_same (same : SameRecord matching checked) : Extends maker matching checked where
  taker := by rw [same.taker]
  keepsFills := by rw [same.fills]; exact List.Subset.refl _
  keepsCancels := by rw [same.selfTradeCancels]; exact List.Subset.refl _
  keepsCuts := by rw [same.reduceOnlyCuts]; exact List.Subset.refl _
  keepsMarginCancels := by rw [same.marginCancels]; exact List.Subset.refl _
  fills fill member := Or.inl (same.fills ▸ member)
  cancels order member := Or.inl (same.selfTradeCancels ▸ member)
  cuts cut member := Or.inl (same.reduceOnlyCuts ▸ member)
  marginCancels cut member := Or.inl (same.marginCancels ▸ member)

theorem cancelSelfTrade : Extends maker matching (matching.cancelSelfTrade maker) :=
  { of_same (.refl matching) with
    keepsCancels := subset_append_left _ _
    cancels := fun order member => by
      rcases mem_append.mp member with old | new
      · exact Or.inl old
      · exact Or.inr (by rw [mem_singleton.mp new]) }

theorem cutMaker : Extends maker matching (matching.cutMaker maker) :=
  { of_same (.refl matching) with
    keepsCuts := subset_append_left _ _
    cuts := fun cut member => by
      rcases mem_append.mp member with old | new
      · exact Or.inl old
      · exact Or.inr (by rw [mem_singleton.mp new]; exact ⟨rfl, rfl⟩) }

theorem marginCancelMaker (same : SameRecord matching checked) :
    Extends maker matching (checked.marginCancelMaker maker) :=
  { of_same same with
    keepsMarginCancels := subset_append_of_subset_left _
      (@of_same maker _ _ same).keepsMarginCancels
    marginCancels := fun cut member => by
      rcases mem_append.mp member with old | new
      · exact (of_same same).marginCancels cut old
      · exact Or.inr (by rw [mem_singleton.mp new]; exact ⟨rfl, rfl⟩) }

theorem recordFill (ready : Ready maker matching)
    (filling : Filling env maker matching quantity checked) :
    Extends maker matching (checked.recordFill maker maker.price quantity) :=
  { of_same filling.same with
    taker := by rw [filling.recordFill_taker]; rfl
    keepsFills := subset_append_of_subset_left _
      (@of_same maker _ _ filling.same).keepsFills
    fills := fun fill member => by
      rcases mem_append.mp member with old | new
      · exact (of_same filling.same).fills fill old
      · rw [mem_singleton.mp new, filling.same.taker]
        exact Or.inr ⟨rfl, rfl, rfl, rfl, rfl, rfl, ready.within, filling.other⟩ }

end Extends

namespace Progress

variable {start gone rest ahead : List Order} {taker maker : Order} {matching after : Matching}

theorem initial (orders : List Order) (matching : Matching) (noFills : matching.fills = [])
    (noCancels : matching.selfTradeCancels = []) (noCuts : matching.reduceOnlyCuts = [])
    (noMarginCancels : matching.marginCancels = []) :
    Progress orders matching.taker [] orders orders matching where
  split := rfl
  terms := rfl
  sameTaker := rfl
  reported order member := absurd member not_mem_nil
  fills fill member := absurd (noFills ▸ member) not_mem_nil
  cancels order member := absurd (noCancels ▸ member) not_mem_nil
  cuts cut member := absurd (noCuts ▸ member) not_mem_nil
  marginCancels cut member := absurd (noMarginCancels ▸ member) not_mem_nil
  inOrder := Or.inl (by rw [noFills]; exact nil_sublist _)

variable (progress : Progress start taker gone rest (maker :: ahead) matching)
include progress

theorem leave (more : Extends maker matching after) (reports : after.Reports maker)
    (inOrder : (after.fills.map Fill.makerOrderId).Sublist (gone.map Order.id ++ [maker.id])) :
    ∃ gone rest, Progress start taker gone rest ahead after := by
  obtain ⟨split, terms, sameTaker, reported, fills, cancels, cuts, marginCancels, _⟩ := progress
  obtain ⟨front, behind, rfl⟩ : ∃ front behind, rest = front :: behind := by
    cases rest with
    | nil => simp at terms
    | cons front behind => exact ⟨front, behind, rfl⟩
  rw [map_cons, map_cons, List.cons.injEq] at terms
  have sameMaker : front.terms = maker.terms := terms.1
  have sameId : front.id = maker.id := Order.terms_id sameMaker
  have sameTrader : front.trader = maker.trader := Order.terms_trader sameMaker
  have inGone : front ∈ gone ++ [front] := mem_append_right _ (mem_singleton_self _)
  have cutOf : ∀ cut, CutOf maker cut → CutOf front cut := fun cut ⟨id, trader⟩ =>
    ⟨id.trans sameId.symm, trader.trans sameTrader.symm⟩
  refine ⟨gone ++ [front], behind, ?_, terms.2, more.taker.trans sameTaker, ?_, ?_, ?_, ?_, ?_, ?_⟩
  · rw [split, append_assoc]
    rfl
  · intro order member
    rcases mem_append.mp member with member | member
    · exact (reported order member).mono more
    · rw [mem_singleton.mp member]
      exact reports.congr sameMaker.symm
  · intro fill member
    rcases more.fills fill member with old | new
    · exact fills fill old
    · refine ⟨front, ?_, new.congr sameTaker sameMaker.symm⟩
      rw [split]
      exact mem_append_right _ mem_cons_self
  · intro cancelled member
    rcases more.cancels cancelled member with old | new
    · obtain ⟨order, member, same⟩ := cancels cancelled old
      exact ⟨order, mem_append_left _ member, same⟩
    · exact ⟨front, inGone, new.trans sameMaker.symm⟩
  · intro cut member
    rcases more.cuts cut member with old | new
    · obtain ⟨order, member, same⟩ := cuts cut old
      exact ⟨order, mem_append_left _ member, same⟩
    · exact ⟨front, inGone, cutOf cut new⟩
  · intro cut member
    rcases more.marginCancels cut member with old | new
    · obtain ⟨order, member, same⟩ := marginCancels cut old
      exact ⟨order, mem_append_left _ member, same⟩
    · exact ⟨front, inGone, cutOf cut new⟩
  · rw [map_append, map_singleton, sameId]
    exact Or.inl inOrder

theorem stay {left : Order}
    (more : Extends maker matching after) (sameMaker : left.terms = maker.terms)
    (sameCancels : after.selfTradeCancels = matching.selfTradeCancels)
    (sameCuts : after.reduceOnlyCuts = matching.reduceOnlyCuts)
    (sameMarginCancels : after.marginCancels = matching.marginCancels)
    (inOrder : (after.fills.map Fill.makerOrderId).Sublist (gone.map Order.id ++ [maker.id]))
    (passed : after.Passed left) :
    Progress start taker gone rest (left :: ahead) after := by
  obtain ⟨split, terms, sameTaker, reported, fills, cancels, cuts, marginCancels, _⟩ := progress
  refine ⟨split, ?_, more.taker.trans sameTaker, fun order member => (reported order member).mono more,
    ?_, sameCancels ▸ cancels, sameCuts ▸ cuts, sameMarginCancels ▸ marginCancels,
    Or.inr ⟨left, ahead, rfl, ?_, passed⟩⟩
  · rw [terms, map_cons, map_cons, sameMaker]
  · intro fill member
    rcases more.fills fill member with old | new
    · exact fills fill old
    · cases rest with
      | nil => simp at terms
      | cons front behind =>
        rw [map_cons, map_cons, List.cons.injEq] at terms
        refine ⟨front, ?_, new.congr sameTaker terms.1.symm⟩
        rw [split]
        exact mem_append_right _ mem_cons_self
  · rwa [Order.terms_id sameMaker]

theorem sublist :
    (matching.fills.map Fill.makerOrderId).Sublist (gone.map Order.id ++ [maker.id]) := by
  rcases progress.inOrder with behind | ⟨front, others, same, inOrder, _⟩
  · exact behind.trans (sublist_append_left _ _)
  · cases same
    exact inOrder

theorem sublist_fill
    (ready : Ready maker matching) (filling : Filling env maker matching quantity after) :
    ((after.recordFill maker maker.price quantity).fills.map Fill.makerOrderId).Sublist
      (gone.map Order.id ++ [maker.id]) := by
  rcases progress.inOrder with behind | ⟨front, others, same, _, passed⟩
  · change ((after.fills ++ [_]).map Fill.makerOrderId).Sublist _
    rw [filling.same.fills, map_append]
    exact behind.append (List.Sublist.refl _)
  · cases same
    obtain ⟨fillable, policed, _⟩ := filling.policed
    rcases passed with sated | exhausted | spent
    · exact absurd ready.wants (Int.not_lt.mpr sated)
    · rw [ready.live] at exhausted
      contradiction
    · rw [policed] at spent
      contradiction

omit progress

theorem fills_sublist (progress : Progress start taker gone rest ahead matching) :
    (matching.fills.map Fill.makerOrderId).Sublist ((gone ++ rest.take 1).map Order.id) := by
  rw [map_append]
  rcases progress.inOrder with behind | ⟨maker, others, rfl, inOrder, _⟩
  · exact behind.trans (sublist_append_left _ _)
  · have terms := progress.terms
    cases rest with
    | nil => simp at terms
    | cons front behind =>
      rw [map_cons, map_cons, List.cons.injEq] at terms
      rw [← Order.terms_id terms.1] at inOrder
      exact inOrder

theorem turn {before next : List Order × Matching} (turn : Turn env before next)
    (progress : ∃ gone rest, Progress start taker gone rest before.1 before.2) :
    ∃ gone rest, Progress start taker gone rest next.1 next.2 := by
  obtain ⟨gone, rest, progress⟩ := progress
  cases turn with
  | selfTrade ready own =>
    exact progress.leave .cancelSelfTrade (Matching.cancelSelfTrade_reports _ _)
      progress.sublist
  | cut ready other spent =>
    exact progress.leave .cutMaker (Matching.cutMaker_reports _ _) progress.sublist
  | starved ready other same seeded exhausted =>
    refine ⟨gone, rest, progress.stay (.of_same same) rfl same.selfTradeCancels
      same.reduceOnlyCuts same.marginCancels ?_ (Or.inr (Or.inl exhausted))⟩
    rw [same.fills]
    exact progress.sublist
  | @marginCancel maker _ _ after ready other same seeded live =>
    refine progress.leave (.marginCancelMaker same) (Matching.marginCancelMaker_reports _ _) ?_
    change (after.fills.map Fill.makerOrderId).Sublist _
    rw [same.fills]
    exact progress.sublist
  | fillWhole ready filling =>
    have recorded := Extends.recordFill ready filling
    exact progress.leave { recorded with } (Matching.recordFill_reports _ _ _ _)
      (progress.sublist_fill ready filling)
  | @fillPart maker _ _ after quantity ready filling part =>
    have passed : (after.recordFill maker maker.price quantity).Passed
        (maker.filled quantity) := by
      rcases filling.spent part with sated | exhausted | spent
      · exact Or.inl (by rw [filling.recordFill_taker]; exact sated)
      · exact Or.inr (Or.inl exhausted)
      · exact Or.inr (Or.inr spent)
    exact ⟨gone, rest, progress.stay (.recordFill ready filling) rfl
      filling.same.selfTradeCancels filling.same.reduceOnlyCuts filling.same.marginCancels
      (progress.sublist_fill ready filling) passed⟩

theorem turns {before next : List Order × Matching} (turns : Turns env before next)
    (progress : ∃ gone rest, Progress start taker gone rest before.1 before.2) :
    ∃ gone rest, Progress start taker gone rest next.1 next.2 := by
  induction turns with
  | refl => exact progress
  | tail _ turn ih => exact Progress.turn turn ih

end Progress

end Priority

end TorusHyperBft.OrderBook
