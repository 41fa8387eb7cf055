import TorusHyperBft.FixedPoint.Raw
import TorusHyperBft.OrderBook.Accounts

namespace TorusHyperBft

open FixedPoint List
open FixedPoint.Raw (I128)
open OrderBook (reduceOnlyAllowance)

/-! The margin an order needs when it is placed, and the two ways of computing it.

Every overflow shows here: a checked operation has no value, a plain sum or difference and a tier
of leverage zero panic, and the negation of the least value is that value again. -/

inductive Panic where
  | arithmetic
  | divisionByZero
deriving DecidableEq

abbrev NeedM := OptionT (Except Panic)

namespace NeedM

def checked (value : Option Int) : NeedM Int := OptionT.mk (.ok value)

def plain (value : Option Int) : NeedM Int :=
  match value with
  | some value => pure value
  | none => OptionT.mk (.error .arithmetic)

end NeedM

open NeedM

def negRaw (raw : Int) : Int := if raw = minRaw then minRaw else -raw

def sizeOf (signed : Int) : Int := if signed < 0 then negRaw signed else signed

def allowanceRaw (signed : Int) (isBuy : Bool) : Int :=
  if isBuy ∧ signed < 0 then negRaw signed else if ¬ isBuy ∧ 0 < signed then signed else 0

def initialMargin (tiers : MarginTiers) (notional : Int) : NeedM Int :=
  if orderLeverage tiers notional = 0 then OptionT.mk (.error .divisionByZero)
  else pure (orderInitialMargin tiers notional)

def marginDelta (tiers : MarginTiers) (before after : Int) : NeedM Int := do
  let after ← initialMargin tiers after
  let before ← initialMargin tiers before
  plain (checkedSub after before)

def leftNotional (size px before closing : Int) : NeedM Int :=
  if closing = 0 then pure before
  else do
    let rest ← plain (checkedSub size closing)
    checked (checkedMul rest px)

/-- Where nothing closes, the complete fill and the resting order are one notional. -/
def placementNeed (tiers : MarginTiers) (signed px : Int) (isBuy : Bool) (qty price : Int)
    (canRest : Bool) : NeedM Int := do
  let size := sizeOf signed
  let closing := min qty (allowanceRaw signed isBuy)
  let opening ← plain (checkedSub qty closing)
  let openingNotional ← checked (checkedMul price opening)
  let before ← checked (checkedMul size px)
  let left ← leftNotional size px before closing
  let afterFill ← checked (checkedAdd left openingNotional)
  let imAfterFill ← initialMargin tiers afterFill
  let imBefore ← initialMargin tiers before
  let filled ← plain (checkedSub imAfterFill imBefore)
  if ¬ canRest ∨ closing = 0 then
    return filled
  let rested ← checked (checkedAdd before openingNotional)
  let imRested ← initialMargin tiers rested
  let rested ← plain (checkedSub imRested imBefore)
  return max filled rested

def placementNeedReference (tiers : MarginTiers) (signed px : Int) (isBuy : Bool) (qty price : Int)
    (canRest : Bool) : NeedM Int := do
  let size := sizeOf signed
  let closing := min qty (allowanceRaw signed isBuy)
  let opening ← plain (checkedSub qty closing)
  let openingNotional ← checked (checkedMul price opening)
  let before ← checked (checkedMul size px)
  let rest ← plain (checkedSub size closing)
  let left ← checked (checkedMul rest px)
  let afterFill ← checked (checkedAdd left openingNotional)
  let filled ← marginDelta tiers before afterFill
  if ¬ canRest then
    return filled
  let rested ← checked (checkedAdd before openingNotional)
  let rested ← marginDelta tiers before rested
  return max filled rested

theorem sizeOf_bounds (signed : I128) :
    minRaw ≤ sizeOf signed.toInt ∧ sizeOf signed.toInt ≤ maxRaw := by
  have bounds := Raw.toInt_bounds signed
  rcases Decidable.em (signed.toInt < 0) with short | long
  · rcases Decidable.em (signed.toInt = minRaw) with least | above
    · rw [sizeOf, if_pos short, negRaw, if_pos least]
      decide
    · rw [sizeOf, if_pos short, negRaw, if_neg above]
      simp only [minRaw, maxRaw] at bounds above ⊢
      omega
  · rw [sizeOf, if_neg long]
    exact bounds

theorem sizeOf_fits (signed : I128) :
    checkedSub (sizeOf signed.toInt) 0 = some (sizeOf signed.toInt) := by
  rw [checkedSub, Int.sub_zero, fit, if_pos (sizeOf_bounds signed)]

theorem bind_twice {α : Type} (step : NeedM Int) (next : Int → Int → NeedM α) :
    (step >>= fun first => step >>= fun second => next first second) =
      step >>= fun value => next value value := by
  rcases step with panic | (_ | value)
  · rfl
  · rfl
  · rfl

theorem plain_some (value : Int) : plain (some value) = pure value := rfl

theorem checked_some (value : Int) : checked (some value) = pure value := rfl

theorem placementNeed_eq_reference (tiers : MarginTiers) (signed px : I128) (isBuy : Bool)
    (qty price : I128) (canRest : Bool) :
    placementNeed tiers signed.toInt px.toInt isBuy qty.toInt price.toInt canRest =
      placementNeedReference tiers signed.toInt px.toInt isBuy qty.toInt price.toInt canRest := by
  unfold placementNeed placementNeedReference
  apply bind_congr
  intro opening
  apply bind_congr
  intro openingNotional
  rcases Decidable.em (min qty.toInt (allowanceRaw signed.toInt isBuy) = 0) with nothing | some_
  · simp only [leftNotional, nothing, if_true, sizeOf_fits, plain_some, pure_bind, or_true]
    cases product : checkedMul (sizeOf signed.toInt) px.toInt with
    | none => rfl
    | some before =>
      simp only [checked_some, pure_bind]
      cases sum : checkedAdd before openingNotional with
      | none => rfl
      | some after =>
        simp only [checked_some, pure_bind]
        cases canRest with
        | false => simp [marginDelta]
        | true =>
          simp only [not_true_eq_false, if_false, bind_twice, max_self]
          simp [marginDelta]
  · simp only [leftNotional, some_, if_false, or_false, bind_assoc]
    apply bind_congr
    intro before
    apply bind_congr
    intro rest
    apply bind_congr
    intro left
    apply bind_congr
    intro afterFill
    simp only [marginDelta, bind_assoc]
    apply bind_congr
    intro imAfterFill
    rcases margin : initialMargin tiers before with panic | (_ | imBefore)
    · rfl
    · rfl
    · cases canRest with
      | false => rfl
      | true => rfl

/-- Positive leverages that never rise with the notional. -/
structure Falls (tiers : List MarginTier) : Prop where
  positive : ∀ tier ∈ tiers, 0 < tier.maxLeverage
  falls : tiers.Pairwise fun first second => second.maxLeverage ≤ first.maxLeverage

theorem Falls.tail {tier : MarginTier} {tiers : List MarginTier} (falls : Falls (tier :: tiers)) :
    Falls tiers where
  positive other member := falls.positive other (mem_cons_of_mem tier member)
  falls := (pairwise_cons.mp falls.falls).2

variable {tiers : List MarginTier}

theorem Falls.leverage_pos (falls : Falls tiers) (notional : Int) :
    0 < effectiveMaxLeverage tiers notional := by
  induction tiers with
  | nil => exact Nat.one_pos
  | cons tier tiers ih =>
    unfold effectiveMaxLeverage
    split
    · exact falls.positive tier mem_cons_self
    · exact ih falls.tail

theorem effectiveMaxLeverage_le {bound : Nat} (one : 1 ≤ bound)
    (below : ∀ tier ∈ tiers, tier.maxLeverage ≤ bound) (notional : Int) :
    effectiveMaxLeverage tiers notional ≤ bound := by
  induction tiers with
  | nil => exact one
  | cons tier tiers ih =>
    unfold effectiveMaxLeverage
    split
    · exact below tier mem_cons_self
    · exact ih fun other member => below other (mem_cons_of_mem tier member)

variable {smaller larger : Int}

theorem Falls.leverage_antitone (falls : Falls tiers) (le : smaller ≤ larger) :
    effectiveMaxLeverage tiers larger ≤ effectiveMaxLeverage tiers smaller := by
  induction tiers with
  | nil => exact Nat.le_refl 1
  | cons tier tiers ih =>
    obtain ⟨first, rest⟩ := pairwise_cons.mp falls.falls
    have positive := falls.positive tier mem_cons_self
    unfold effectiveMaxLeverage
    split
    · rename_i larger_
      rw [if_pos (le_trans le larger_)]
    · split
      · exact effectiveMaxLeverage_le positive first larger
      · exact ih falls.tail

theorem tdiv_leverage_mono {high low : Nat} (le : smaller ≤ larger)
    (nonneg : 0 ≤ larger) (lower : low ≤ high) (positive : 0 < low) :
    smaller.tdiv high ≤ larger.tdiv low := by
  rcases Int.lt_or_le smaller 0 with negative | nonneg'
  · have flipped : 0 ≤ (-smaller).tdiv high := Int.tdiv_nonneg (by omega) (by omega)
    have above : 0 ≤ larger.tdiv low := Int.tdiv_nonneg nonneg (by omega)
    rw [Int.neg_tdiv] at flipped
    omega
  · rw [Int.tdiv_eq_ediv_of_nonneg nonneg', Int.tdiv_eq_ediv_of_nonneg nonneg]
    apply Int.le_ediv_of_mul_le (by omega)
    calc smaller / (high : Int) * low
        ≤ smaller / (high : Int) * high :=
          Int.mul_le_mul_of_nonneg_left (by omega) (Int.ediv_nonneg nonneg' (by omega))
      _ ≤ smaller := Int.ediv_mul_le _ (by omega)
      _ ≤ larger := le

/-- A larger position never pays a lower rate. -/
def TiersFall : MarginTiers → Prop
  | none => True
  | some tiers => Falls tiers

variable {tiers : MarginTiers}

theorem orderInitialMargin_mono (fall : TiersFall tiers) (le : smaller ≤ larger)
    (nonneg : 0 ≤ larger) :
    orderInitialMargin tiers smaller ≤ orderInitialMargin tiers larger := by
  cases tiers with
  | none => exact tdiv_leverage_mono le nonneg (Nat.le_refl _) (Nat.succ_pos 19)
  | some tiers =>
    have falls : Falls tiers := fall
    exact tdiv_leverage_mono le nonneg (falls.leverage_antitone le) (falls.leverage_pos larger)

theorem bind_ok {α β : Type} {step : NeedM α} {next : α → NeedM β} {value : β}
    (ran : (step >>= next).run = .ok (some value)) :
    ∃ result, step.run = .ok (some result) ∧ (next result).run = .ok (some value) := by
  rcases step with panic | (_ | result)
  · cases ran
  · cases ran
  · exact ⟨result, rfl, ran⟩

theorem checked_ok {value : Option Int} {result : Int}
    (ran : (checked value).run = .ok (some result)) :
    value = some result := by
  cases ran
  rfl

theorem plain_ok {value : Option Int} {result : Int} (ran : (plain value).run = .ok (some result)) :
    value = some result := by
  cases value with
  | none => cases ran
  | some value =>
    cases ran
    rfl

theorem initialMargin_ok {notional margin : Int}
    (ran : (initialMargin tiers notional).run = .ok (some margin)) :
    margin = orderInitialMargin tiers notional := by
  unfold initialMargin at ran
  split at ran
  · cases ran
  · cases ran
    rfl

theorem fit_some {raw value : Int} (fits : fit raw = some value) : value = raw := by
  unfold fit at fits
  split at fits
  · cases fits
    rfl
  · cases fits

theorem leftNotional_ok {size px before closing left : Int}
    (isBefore : before = (size * px).tdiv scale)
    (ran : (leftNotional size px before closing).run = .ok (some left)) :
    left = ((size - closing) * px).tdiv scale := by
  unfold leftNotional at ran
  split at ran
  · rename_i nothing
    cases ran
    rw [isBefore, nothing, Int.sub_zero]
  · obtain ⟨rest, isRest, ran⟩ := bind_ok ran
    rw [fit_some (checked_ok ran), fit_some (plain_ok isRest)]

theorem allowanceRaw_eq_sizeOf {signed : Int} {isBuy : Bool}
    (closes : 0 < allowanceRaw signed isBuy) :
    allowanceRaw signed isBuy = sizeOf signed := by
  unfold allowanceRaw sizeOf at *
  split
  · rename_i buys
    rw [if_pos buys.2]
  · rename_i sells
    rw [if_neg sells] at closes
    split
    · rename_i long
      rw [if_neg (by omega)]
    · rename_i flat
      rw [if_neg flat] at closes
      omega

theorem tdiv_scale_mono (nonneg : 0 ≤ smaller) (le : smaller ≤ larger) :
    smaller.tdiv scale ≤ larger.tdiv scale := by
  rw [Int.tdiv_eq_ediv_of_nonneg nonneg, Int.tdiv_eq_ediv_of_nonneg (le_trans nonneg le)]
  exact Int.ediv_le_ediv (by decide) le

theorem placementNeed_nonpos (fall : TiersFall tiers)
    {signed px qty price need : Int} {isBuy canRest : Bool} (valued : 0 ≤ px) (sized : 0 ≤ qty)
    (closes : qty ≤ allowanceRaw signed isBuy)
    (needed : (placementNeed tiers signed px isBuy qty price canRest).run = .ok (some need)) :
    need ≤ 0 := by
  have isClosing : min qty (allowanceRaw signed isBuy) = qty := min_eq_left closes
  unfold placementNeed at needed
  rw [isClosing] at needed
  obtain ⟨opening, isOpening, needed⟩ := bind_ok needed
  obtain ⟨openingNotional, isNotional, needed⟩ := bind_ok needed
  obtain ⟨before, isBefore, needed⟩ := bind_ok needed
  obtain ⟨left, isLeft, needed⟩ := bind_ok needed
  obtain ⟨afterFill, isAfter, needed⟩ := bind_ok needed
  obtain ⟨imAfterFill, isImAfter, needed⟩ := bind_ok needed
  obtain ⟨imBefore, isImBefore, needed⟩ := bind_ok needed
  obtain ⟨filled, isFilled, needed⟩ := bind_ok needed
  have noOpening := fit_some (plain_ok isOpening)
  have noNotional := fit_some (checked_ok isNotional)
  have before_ := fit_some (checked_ok isBefore)
  have left_ := leftNotional_ok before_ isLeft
  have after_ := fit_some (checked_ok isAfter)
  have filled_ := fit_some (plain_ok isFilled)
  rw [noOpening, Int.sub_self, Int.mul_zero, Int.zero_tdiv] at noNotional
  rw [noNotional, Int.add_zero] at after_
  rw [initialMargin_ok isImAfter, initialMargin_ok isImBefore, after_] at filled_
  have fillFrees : filled ≤ 0 := by
    rcases Int.lt_or_eq_of_le sized with positive | zero
    · have isSize := allowanceRaw_eq_sizeOf (lt_of_lt_of_le positive closes)
      have shrinks : left ≤ before := by
        rw [left_, before_]
        apply tdiv_scale_mono (Int.mul_nonneg (by omega) valued)
        exact Int.mul_le_mul_of_nonneg_right (by omega) valued
      have nonneg : 0 ≤ before := by
        rw [before_]
        exact Int.tdiv_nonneg (Int.mul_nonneg (by omega) valued) (by decide)
      have freed := orderInitialMargin_mono fall shrinks nonneg
      omega
    · rw [← zero, Int.sub_zero, ← before_] at left_
      rw [filled_, left_, Int.sub_self]
  split at needed
  · cases needed
    exact fillFrees
  · obtain ⟨rested, isRested, needed⟩ := bind_ok needed
    obtain ⟨imRested, isImRested, needed⟩ := bind_ok needed
    obtain ⟨restNeed, isRestNeed, needed⟩ := bind_ok needed
    cases needed
    have rested_ := fit_some (checked_ok isRested)
    have restNeed_ := fit_some (plain_ok isRestNeed)
    rw [noNotional, Int.add_zero] at rested_
    rw [initialMargin_ok isImRested, initialMargin_ok isImBefore, rested_, Int.sub_self] at restNeed_
    exact max_le fillFrees (le_of_eq restNeed_)

/-- The two ways agree on every value, overflows and panics included; the initial margin rises with
a notional that is not negative, and an order that opens nothing needs nothing. -/
theorem placementNeed_agrees_reduces (tiers : MarginTiers) :
    (∀ (signed px : I128) (isBuy : Bool) (qty price : I128) (canRest : Bool),
      (placementNeed tiers signed.toInt px.toInt isBuy qty.toInt price.toInt canRest).run =
        (placementNeedReference tiers signed.toInt px.toInt isBuy qty.toInt price.toInt canRest).run) ∧
    (TiersFall tiers →
      (∀ smaller larger : I128, smaller.toInt ≤ larger.toInt → 0 ≤ larger.toInt →
        orderInitialMargin tiers smaller.toInt ≤ orderInitialMargin tiers larger.toInt) ∧
      ∀ (signed px : I128) (isBuy : Bool) (qty price : I128) (canRest : Bool) (need : Int),
        0 ≤ px.toInt → 0 ≤ qty.toInt → min qty.toInt (allowanceRaw signed.toInt isBuy) = qty.toInt →
        (placementNeed tiers signed.toInt px.toInt isBuy qty.toInt price.toInt canRest).run =
          .ok (some need) →
        need ≤ 0) := by
  refine ⟨?_, ?_⟩
  · intro signed px isBuy qty price canRest
    rw [placementNeed_eq_reference]
  · intro fall
    refine ⟨fun smaller larger le nonneg => orderInitialMargin_mono fall le nonneg, ?_⟩
    intro signed px isBuy qty price canRest need valued sized closes needed
    exact placementNeed_nonpos fall valued sized (by omega) needed

/-- Closing half of a position of four at a price of one leaves the higher tier. -/
theorem placementNeed_reduces_half :
    let tiers := [{ maxNotional := 300000000, maxLeverage := 20 },
      { maxNotional := maxRaw, maxLeverage := 10 }]
    ∃ need, (placementNeed (some tiers) 400000000 100000000 false 200000000 100000000 false).run =
      .ok (some need) ∧ need ≤ 0 := by
  intro tiers
  have four : (400000000#128).toInt = 400000000 := by decide
  have two : (200000000#128).toInt = 200000000 := by decide
  have one : (100000000#128).toInt = 100000000 := by decide
  have needed : (placementNeed (some tiers) 400000000 100000000 false 200000000 100000000 false).run =
      .ok (some (-30000000)) := by decide
  have fall : TiersFall (some tiers) := ⟨by decide, by decide⟩
  have reduces := ((placementNeed_agrees_reduces (some tiers)).2 fall).2 400000000#128 100000000#128
    false 200000000#128 100000000#128 false (-30000000)
  rw [four, two, one] at reduces
  exact ⟨_, needed, reduces (by decide) (by decide) (by decide) needed⟩

/-- At a negative valuation price a position that shrinks needs margin. -/
theorem placementNeed_negative_price :
    let tiers := [{ maxNotional := maxRaw, maxLeverage := 1 }]
    Falls tiers ∧
      min 100000000 (allowanceRaw 200000000 false) = 100000000 ∧
      (placementNeed (some tiers) 200000000 (-100000000) false 100000000 100000000 false).run =
        .ok (some 100000000) ∧
      ¬(100000000 : Int) ≤ 0 := by
  refine ⟨⟨?_, ?_⟩, by decide, by decide, by decide⟩
  · intro tier member
    rw [mem_singleton.mp member]
    decide
  · exact pairwise_singleton _ _

end TorusHyperBft
