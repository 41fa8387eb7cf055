import TorusHyperBft.Executor.Modify
import TorusHyperBft.OrderBook.Desk
import TorusHyperBft.OrderBook.Refit

namespace TorusHyperBft.Executor

open FixedPoint OrderBook
open Account (NativeBalance)

/-! A modification that fails touches nothing; one that succeeds touches the sender alone. -/

variable {ρ : Type} {ctx after : Context ρ} {sender : Address} {marketId : MarketId}

section Balances

variable {balance : Address → NativeBalance}

/-- Order margin that moves to the available balance, or back. -/
structure MarginMoved (sender : Address) (before after : Address → NativeBalance) : Prop where
  others : ∀ trader, trader ≠ sender → after trader = before trader
  total : (after sender).available + (after sender).orderMargin =
    (before sender).available + (before sender).orderMargin

theorem MarginMoved.refl (sender : Address) (balance : Address → NativeBalance) :
    MarginMoved sender balance balance :=
  ⟨fun _ _ => rfl, rfl⟩

theorem MarginMoved.trans {first second third : Address → NativeBalance}
    (left : MarginMoved sender first second) (right : MarginMoved sender second third) :
    MarginMoved sender first third :=
  ⟨fun trader other => (right.others trader other).trans (left.others trader other),
    right.total.trans left.total⟩

def drawDown (margin amount : Int) : Int := if amount ≤ 0 then margin else margin - min amount margin

theorem releaseOrderMargin_moved (balance : Address → NativeBalance) (sender : Address)
    (amount : Int) :
    MarginMoved sender balance (releaseOrderMargin balance sender amount) ∧
      (releaseOrderMargin balance sender amount sender).orderMargin =
        drawDown (balance sender).orderMargin amount := by
  unfold releaseOrderMargin drawDown
  split
  · exact ⟨.refl sender balance, rfl⟩
  · refine ⟨⟨fun trader other => Function.update_of_ne other _ _, ?_⟩, ?_⟩
    · rw [Function.update_self]
      dsimp only
      omega
    · rw [Function.update_self]

theorem reserveOrderMargin_moved (balance : Address → NativeBalance) (sender : Address)
    (required : Int) :
    MarginMoved sender balance (reserveOrderMargin balance sender required) ∧
      (reserveOrderMargin balance sender required sender).orderMargin =
        (balance sender).orderMargin + max required 0 := by
  unfold reserveOrderMargin
  split
  · rename_i positive
    refine ⟨⟨fun trader other => Function.update_of_ne other _ _, ?_⟩, ?_⟩
    · rw [Function.update_self]
      dsimp only
      omega
    · rw [Function.update_self, max_eq_left (Int.le_of_lt positive)]
  · rename_i nothing
    refine ⟨.refl sender balance, ?_⟩
    rw [max_eq_right (by omega), Int.add_zero]

def released (releases : List Int) : Int := (releases.map fun release => max release 0).sum

theorem released_cons (release : Int) (releases : List Int) :
    released (release :: releases) = max release 0 + released releases := by
  unfold released
  rw [List.map_cons, List.sum_cons]

theorem released_nonneg (releases : List Int) : 0 ≤ released releases := by
  induction releases with
  | nil => exact Int.le_refl 0
  | cons release releases ih =>
    rw [released_cons]
    have first := Int.le_max_right release 0
    omega

theorem drawDown_covered {margin amount : Int} (covered : max amount 0 ≤ margin) :
    drawDown margin amount = margin - max amount 0 := by
  unfold drawDown
  split
  · rename_i nothing
    rw [max_eq_right nothing, Int.sub_zero]
  · rw [max_eq_left (by omega)] at covered ⊢
    rw [min_eq_left covered]

theorem foldl_drawDown_covered {margin : Int} {releases : List Int}
    (covered : released releases ≤ margin) :
    releases.foldl drawDown margin = margin - released releases := by
  induction releases generalizing margin with
  | nil => exact (Int.sub_zero margin).symm
  | cons release releases ih =>
    have nonneg := released_nonneg releases
    rw [released_cons] at covered ⊢
    rw [List.foldl_cons, drawDown_covered (by omega), ih (by omega)]
    omega

theorem releases_moved (balance : Address → NativeBalance) (sender : Address)
    (releases : List Int) :
    MarginMoved sender balance
        (releases.foldl (fun balance release => releaseOrderMargin balance sender release) balance) ∧
      (releases.foldl (fun balance release => releaseOrderMargin balance sender release) balance
        sender).orderMargin = releases.foldl drawDown (balance sender).orderMargin := by
  induction releases generalizing balance with
  | nil => exact ⟨.refl sender balance, rfl⟩
  | cons release releases ih =>
    obtain ⟨moved, drawn⟩ := releaseOrderMargin_moved balance sender release
    obtain ⟨later, rest⟩ := ih (releaseOrderMargin balance sender release)
    refine ⟨moved.trans later, ?_⟩
    rw [List.foldl_cons, List.foldl_cons, rest, drawn]

end Balances

section Checks

variable {reads : ModifyReads ρ} {book : Book} {old : Order} {newPrice newQty : Option Int}

/-- The terms that pass the checks of a modification. -/
structure Checked (reads : ModifyReads ρ) (ctx : Context ρ) (sender : Address) (marketId : MarketId)
    (book : Book) (old : Order) (newPrice newQty : Option Int) (terms : ModifyTerms) : Prop where
  owner : old.trader = sender
  price : terms.price = newPrice.getD old.price
  pricePositive : 0 < terms.price
  qtyPositive : 0 < terms.qty
  clear : ∀ best, (book.ladder old.side.opposite).best = some best →
    Apart old.side terms.price best
  plain : old.reduceOnly = false →
    terms.qty = newQty.getD old.remainingQty ∧ terms.roPos = none
  clamped : old.reduceOnly = true → ∃ pos, reads.signedPosition ctx sender marketId = some pos ∧
    terms.qty = min (newQty.getD old.remainingQty) (reduceOnlyAllowance pos old.isBuy) ∧
    terms.roPos = some pos

theorem checkPrice_positive {price : Int}
    (passed : checkPrice reads ctx marketId book old price = .ok ()) : 0 < price := by
  unfold checkPrice at passed
  split at passed
  · contradiction
  · omega

theorem checkQuantity_positive {qty : Int} (passed : checkQuantity book newQty qty = .ok ()) :
    0 < qty := by
  unfold checkQuantity at passed
  split at passed
  · contradiction
  · omega

theorem crosses_clear {price : Int} (clear : crosses book old.isBuy price = false) :
    ∀ best, (book.ladder old.side.opposite).best = some best → Apart old.side price best := by
  intro best found
  unfold crosses Order.isBuy at clear
  cases side : old.side with
  | buy =>
    rw [side] at found clear
    change book.bestAsk = some best at found
    rw [if_pos (decide_eq_true rfl), found] at clear
    have apart : ¬ best ≤ price := by simpa using clear
    exact Int.not_le.mp apart
  | sell =>
    rw [side] at found clear
    change book.bestBid = some best at found
    rw [if_neg (by simp), found] at clear
    have apart : ¬ price ≤ best := by simpa using clear
    exact Int.not_le.mp apart

theorem reduceOnlyAllowance_nonneg (pos : Int)
    (isBuy : Bool) : 0 ≤ reduceOnlyAllowance pos isBuy := by
  unfold reduceOnlyAllowance
  split
  · omega
  · split <;> omega

theorem clampToPosition_ok {price qty : Int} {terms : ModifyTerms} (positive : 0 < qty)
    (passed : clampToPosition reads ctx sender marketId old price qty = .ok terms) :
    terms.price = price ∧ 0 < terms.qty ∧
      (old.reduceOnly = false → terms.qty = qty ∧ terms.roPos = none) ∧
      (old.reduceOnly = true → ∃ pos, reads.signedPosition ctx sender marketId = some pos ∧
        terms.qty = min qty (reduceOnlyAllowance pos old.isBuy) ∧ terms.roPos = some pos) := by
  unfold clampToPosition at passed
  by_cases policed : old.reduceOnly = true
  · rw [if_pos policed] at passed
    cases read : reads.signedPosition ctx sender marketId with
    | none =>
      rw [read] at passed
      contradiction
    | some pos =>
      rw [read] at passed
      dsimp only at passed
      split at passed
      · contradiction
      · rename_i some
        have nonneg := reduceOnlyAllowance_nonneg pos old.isBuy
        cases passed
        refine ⟨rfl, ?_, fun unpoliced => ?_, fun _ => ⟨pos, rfl, rfl, rfl⟩⟩
        · exact lt_min positive (by omega)
        · rw [policed] at unpoliced
          contradiction
  · rw [if_neg policed] at passed
    cases passed
    exact ⟨rfl, positive, fun _ => ⟨rfl, rfl⟩, fun yes => absurd yes policed⟩

theorem checkModify_ok {terms : ModifyTerms}
    (passed : checkModify reads ctx sender marketId book old newPrice newQty = .ok terms) :
    Checked reads ctx sender marketId book old newPrice newQty terms := by
  unfold checkModify at passed
  by_cases owner : old.trader = sender
  · by_cases marked : reads.everMarked ctx marketId = true
    · simp only [ne_eq, owner, not_true_eq_false, if_false, marked, Bool.not_true,
        Bool.false_eq_true] at passed
      cases price : checkPrice reads ctx marketId book old (newPrice.getD old.price) with
      | error reason =>
        rw [price] at passed
        contradiction
      | ok _ =>
        rw [price] at passed
        cases quantity : checkQuantity book newQty (newQty.getD old.remainingQty) with
        | error reason =>
          rw [quantity] at passed
          contradiction
        | ok _ =>
          rw [quantity] at passed
          by_cases clear : crosses book old.isBuy (newPrice.getD old.price) = true
          · simp [clear] at passed
            contradiction
          · have apart : crosses book old.isBuy (newPrice.getD old.price) = false := by
              simpa using clear
            simp only [clear] at passed
            obtain ⟨samePrice, positive, plain, clamped⟩ :=
              clampToPosition_ok (checkQuantity_positive quantity) passed
            refine ⟨owner, samePrice, ?_, positive, ?_, plain, clamped⟩
            · rw [samePrice]
              exact checkPrice_positive price
            · rw [samePrice]
              exact crosses_clear apart
    · simp [owner, marked] at passed
      contradiction
  · simp [owner] at passed
    contradiction

end Checks

end TorusHyperBft.Executor
