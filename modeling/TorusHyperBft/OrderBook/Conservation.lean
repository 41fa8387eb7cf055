import TorusHyperBft.OrderBook.Placed

namespace TorusHyperBft.OrderBook

/-! Every quantity a placement moves is accounted for in its result. -/

def PlaceResult.taken (result : PlaceResult) (id : Nat) : Int :=
  filledQty result.fills id + cutQty result.reduceOnlyCuts id + cutQty result.marginCancels id +
    restingQty result.selfTradeCancels id

namespace Book

def remainingOf (book : Book) (id : Nat) : Int :=
  ((book.getOrder id).map Order.remainingQty).getD 0

def clampedQuantity (book : Book) (placement : Placement) : Int :=
  if placement.params.reduceOnly then
    match book.reduceOnlyPositions.get placement.trader with
    | none => placement.params.quantity
    | some position =>
      min placement.params.quantity (reduceOnlyAllowance position placement.params.isBuy)
  else placement.params.quantity

/-- The quantities of a placement's result add up with the book before and after it. -/
structure Conserved (book : Book) (placement : Placement) (after : Book) (result : PlaceResult) :
    Prop where
  own : ∃ discarded, book.clampedQuantity placement =
      (result.fills.map Fill.quantity).sum + result.restedQty + discarded ∧
    (result.status = .filled → discarded = 0) ∧ (0 ≤ placement.params.quantity → 0 ≤ discarded)
  rests : (after.getOrder result.orderId).map Order.remainingQty =
    if 0 < result.restedQty then some result.restedQty else none
  others : ∀ id, id ≠ result.orderId → (book.getOrder id).isSome →
    book.remainingOf id = after.remainingOf id + result.taken id
  fills : ∀ fill ∈ result.fills, 0 < fill.quantity
  reduceOnlyCuts : ∀ cut ∈ result.reduceOnlyCuts, 0 < cut.qty
  marginCancels : ∀ cut ∈ result.marginCancels, 0 < cut.qty
  selfTradeCancels : ∀ order ∈ result.selfTradeCancels, 0 < order.remainingQty
  known : ∀ id, (after.getOrder id).isSome → id = result.orderId ∨ (book.getOrder id).isSome

section Quantities

variable {book : Book} {placement : Placement}

theorem Valid.restingQty_eq (valid : book.Valid) (id : Nat) :
    restingQty book.resting id = book.remainingOf id := by
  unfold remainingOf
  cases found : book.getOrder id with
  | none =>
    refine totalFor_absent fun rests => ?_
    obtain ⟨order, member, same⟩ := List.mem_map.mp rests
    have := valid.getOrder_iff.mpr ⟨member, same⟩
    rw [found] at this
    contradiction
  | some order =>
    obtain ⟨member, rfl⟩ := valid.getOrder_iff.mp found
    exact totalFor_unique valid.nodup member

theorem Valid.getOrder_isSome (valid : book.Valid) {id : Nat} :
    (book.getOrder id).isSome ↔ id ∈ book.resting.map Order.id := by
  rw [Option.isSome_iff_exists, List.mem_map]
  exact exists_congr fun order => valid.getOrder_iff

theorem reduceOnlyAllowance_nonneg (position : Int) (isBuy : Bool) :
    0 ≤ reduceOnlyAllowance position isBuy := by
  unfold reduceOnlyAllowance
  split
  · omega
  · split <;> omega

theorem clampedQuantity_nonneg (nonneg : 0 ≤ placement.params.quantity) :
    0 ≤ book.clampedQuantity placement := by
  unfold clampedQuantity
  split
  · split
    · exact nonneg
    · exact le_min nonneg (reduceOnlyAllowance_nonneg _ _)
  · exact nonneg

theorem matchQuantity_clamped {quantity : Int}
    (clamped : book.matchQuantity placement = .ok quantity) :
    book.clampedQuantity placement = quantity := by
  unfold matchQuantity at clamped
  unfold clampedQuantity
  dsimp only at clamped
  split at clamped
  · contradiction
  · split at clamped
    · contradiction
    · cases reduceOnly : placement.params.reduceOnly with
      | false => simpa [reduceOnly] using clamped
      | true =>
        rw [reduceOnly] at clamped
        cases position : book.reduceOnlyPositions.get placement.trader with
        | none => simpa [position] using clamped
        | some held =>
          simp only [position, if_true] at clamped ⊢
          split at clamped
          · contradiction
          · simpa using clamped

theorem Valid.conserved_rejected (valid : book.Valid)
    (unused : book.nextId ∉ book.resting.map Order.id) (reason : FailureReason) :
    Conserved book placement book.allocId (.rejected book.nextId reason) where
  own := ⟨book.clampedQuantity placement, by simp [PlaceResult.rejected],
    fun filled => by simp [PlaceResult.rejected] at filled, clampedQuantity_nonneg⟩
  rests := by
    have absent : book.allocId.getOrder book.nextId = none :=
      valid.allocId.getOrder_none unused
    simp [PlaceResult.rejected, absent]
  others id _ _ := by
    simp only [PlaceResult.taken, PlaceResult.rejected, filledQty, cutQty, restingQty, totalFor_nil,
      Int.add_zero]
    rfl
  fills fill member := absurd member List.not_mem_nil
  reduceOnlyCuts cut member := absurd member List.not_mem_nil
  marginCancels cut member := absurd member List.not_mem_nil
  selfTradeCancels order member := absurd member List.not_mem_nil
  known id rests := Or.inr rests

end Quantities

section Matched

variable {book swept after : Book} {placement : Placement} {order : Order}
  {margin : Option MatchMargin} {ladder : Ladder} {matched : Matching} {result : PlaceResult}

theorem Matched.conserves (valid : book.Valid)
    (done : Matched book placement order margin ladder matched swept after result) {id : Nat}
    (other : id ≠ order.id) :
    book.remainingOf id = after.remainingOf id + result.taken id := by
  have inSwept : restingQty after.resting id = restingQty swept.resting id := by
    unfold restingQty
    rw [totalFor_perm done.resting]
    split
    · rfl
    · rw [totalFor_cons, if_neg (Ne.symm other), Int.zero_add]
  have sweep := done.sweep.conserves id
  have run := done.run.conserves id
  have matchedTotal : restingQty (book.afterMatch order.side.opposite ladder matched).resting id =
      restingQty ladder.orders id + restingQty (book.ladder order.side).orders id := by
    unfold restingQty
    rw [totalFor_perm afterMatch_resting, totalFor_append, Side.opposite_opposite]
  have bookTotal : restingQty book.resting id =
      restingQty (book.ladder order.side.opposite).orders id +
        restingQty (book.ladder order.side).orders id := by
    unfold restingQty
    rw [totalFor_perm (resting_perm book order.side.opposite), totalFor_append,
      Side.opposite_opposite]
  rw [← valid.restingQty_eq, ← done.valid.restingQty_eq, inSwept]
  simp only [PlaceResult.taken, Matching.taken, done.fills, done.marginCancels,
    done.selfTradeCancels] at *
  omega

theorem Matched.rests (done : Matched book placement order margin ladder matched swept after result)
    (unused : order.id ∉ book.resting.map Order.id) :
    (after.getOrder order.id).map Order.remainingQty =
      if 0 < result.restedQty then some result.restedQty else none := by
  have resting := done.resting
  have nonneg := done.nonneg
  by_cases zero : result.restedQty = 0
  · rw [if_pos zero] at resting
    have absent : order.id ∉ after.resting.map Order.id := fun rests =>
      unused (done.ids_before ((resting.map Order.id).mem_iff.mp rests))
    rw [done.valid.getOrder_none absent, if_neg (by omega)]
    rfl
  · rw [if_neg zero] at resting
    have found : after.getOrder order.id = some { order with remainingQty := result.restedQty } :=
      done.valid.getOrder_iff.mpr ⟨resting.mem_iff.mpr List.mem_cons_self, rfl⟩
    rw [found, if_pos (by omega)]
    rfl

end Matched

/-- For every order that does not become a stop, the quantities add up: its own, those of
every order that rested before, and nothing else rests afterwards. -/
theorem placeOrder_conserves_quantity {book : Book} {placement : Placement}
    (ready : book.ReadyFor placement) (noStop : stopTerms placement.params = none) :
    Conserved book placement (book.placeOrder placement).1 (book.placeOrder placement).2 := by
  have outcome := ready.placeOrder
  generalize book.placeOrder placement = placed at outcome
  obtain ⟨after, result⟩ := placed
  cases outcome with
  | rejected reason unchanged said =>
    dsimp only at unchanged said ⊢
    rw [unchanged, said]
    exact ready.valid.conserved_rejected ready.unused reason
  | stored trigger limitPrice priceCap accepted terms =>
    rw [noStop] at terms
    contradiction
  | @matched quantity margin ladder matched swept _ clamped positive done =>
    dsimp only at done ⊢
    have before : ∀ id, (book.getOrder id).isSome ↔ id ∈ book.resting.map Order.id :=
      fun id => ready.valid.getOrder_isSome
    refine ⟨?_, ?_, ?_, ?_, ?_, ?_, ?_, ?_⟩
    · refine ⟨matched.taker.remainingQty - result.restedQty, ?_, ?_, ?_⟩
      · have total := done.run.takerTotal
        have entered : book.clampedQuantity placement = quantity :=
          matchQuantity_clamped clamped
        simp only [Matching.takerTotal, startMatching, takerOrder] at total
        rw [entered, done.fills]
        omega
      · intro filled
        have sated := done.filled filled
        have nonneg := done.nonneg
        have bounded := done.bounded
        omega
      · have bounded := done.bounded
        omega
    · rw [done.orderId]
      exact done.rests ready.unused
    · intro id other _
      rw [done.orderId] at other
      exact done.conserves ready.valid.allocId other
    · rw [done.fills]
      exact done.run.positive.fills
    · exact done.sweep.positive done.run.positive.reduceOnlyCuts
    · rw [done.marginCancels]
      exact done.run.positive.marginCancels
    · rw [done.selfTradeCancels]
      exact done.run.positive.selfTradeCancels
    · intro id rests
      rw [done.valid.getOrder_isSome, (done.resting.map Order.id).mem_iff] at rests
      rw [before, done.orderId]
      split at rests
      · exact Or.inr (done.ids_before rests)
      · rcases List.mem_cons.mp rests with same | rests
        · exact Or.inl same
        · exact Or.inr (done.ids_before rests)

def threeAsks : Book :=
  (new 1 1 1).placeAll [limitOrder 1 false 100 5, limitOrder 2 false 101 4, limitOrder 3 false 100 2]

theorem threeAsks_readyFor (trader : Address) (isBuy : Bool) (price quantity : Int) :
    threeAsks.ReadyFor (limitOrder trader isBuy price quantity) :=
  ((Sound.new 1 1 (by decide)).placeAll (by simp [limitOrder])).readyFor
    (by simp [limitOrder])

theorem placeOrder_conserves_quantity_threeAsks :
    (threeAsks.placeOrder (limitOrder 3 true 101 8)).2.fills.map Fill.quantity = [5, 3] ∧
      (threeAsks.placeOrder (limitOrder 3 true 101 8)).2.selfTradeCancels.map Order.id = [3] ∧
      Conserved threeAsks (limitOrder 3 true 101 8)
        (threeAsks.placeOrder (limitOrder 3 true 101 8)).1
        (threeAsks.placeOrder (limitOrder 3 true 101 8)).2 :=
  ⟨by decide +kernel, by decide +kernel,
    placeOrder_conserves_quantity (threeAsks_readyFor 3 true 101 8) rfl⟩

end Book

end TorusHyperBft.OrderBook
