import TorusHyperBft.Margin.Need
import TorusHyperBft.OrderBook.LargestFit

namespace TorusHyperBft.OrderBook

open FixedPoint List

/-! The initial margin that a taker's fills and the rest of its order need, over all its fills so
far, and the check of one more fill against it. -/

def takenQty (fills : List Fill) : Int := (fills.map Fill.quantity).sum

/-- The notional of what the fills opened; the first `closable` of them only close. -/
def openedNotional : Int → List Fill → Int
  | _, [] => 0
  | closable, fill :: rest =>
    mul fill.price (fill.quantity - min fill.quantity closable) +
      openedNotional (closable - min fill.quantity closable) rest

/-- No price or quantity is negative. -/
def Traded (fills : List Fill) : Prop := ∀ fill ∈ fills, 0 ≤ fill.price ∧ 0 ≤ fill.quantity

theorem fixedMul_nonneg {left right : Int} (leftNonneg : 0 ≤ left) (rightNonneg : 0 ≤ right) :
    0 ≤ mul left right :=
  Int.tdiv_nonneg (Int.mul_nonneg leftNonneg rightNonneg) (by decide)

theorem fixedMul_mono {factor fewer more : Int} (factorNonneg : 0 ≤ factor) (nonneg : 0 ≤ fewer)
    (le : fewer ≤ more) : mul factor fewer ≤ mul factor more :=
  tdiv_scale_mono (Int.mul_nonneg factorNonneg nonneg)
    (Int.mul_le_mul_of_nonneg_left le factorNonneg)

section Fills

variable {fills : List Fill} {fill : Fill} {closable : Int}

theorem Traded.concat (traded : Traded fills) (price : 0 ≤ fill.price)
    (quantity : 0 ≤ fill.quantity) :
    Traded (fills ++ [fill]) := by
  intro other member
  rcases mem_append.mp member with earlier | last
  · exact traded other earlier
  · rw [mem_singleton.mp last]
    exact ⟨price, quantity⟩

theorem takenQty_concat : takenQty (fills ++ [fill]) = takenQty fills + fill.quantity := by
  simp [takenQty]

theorem takenQty_nonneg (traded : Traded fills) : 0 ≤ takenQty fills := by
  induction fills with
  | nil => exact le_refl 0
  | cons first rest ih =>
    have first_nonneg := (traded first mem_cons_self).2
    have rest_nonneg := ih fun other member => traded other (mem_cons_of_mem _ member)
    simp only [takenQty, map_cons, sum_cons] at rest_nonneg ⊢
    omega

theorem openedNotional_nonneg (traded : Traded fills) : 0 ≤ openedNotional closable fills := by
  induction fills generalizing closable with
  | nil => exact le_refl 0
  | cons first rest ih =>
    obtain ⟨price, quantity⟩ := traded first mem_cons_self
    have restTraded : Traded rest := fun other member =>
      traded other (mem_cons_of_mem _ member)
    exact Int.add_nonneg (fixedMul_nonneg price (by omega)) (ih restTraded)

theorem openedNotional_concat (traded : Traded fills) (closes : 0 ≤ closable) :
    openedNotional closable (fills ++ [fill]) = openedNotional closable fills +
      mul fill.price
        (fill.quantity - min fill.quantity (closable - min (takenQty fills) closable)) := by
  induction fills generalizing closable with
  | nil =>
    have none_taken : min (takenQty []) closable = 0 := min_eq_left closes
    simp [openedNotional, none_taken]
  | cons first rest ih =>
    have restTraded : Traded rest := fun other member =>
      traded other (mem_cons_of_mem _ member)
    have first_nonneg := (traded first mem_cons_self).2
    have rest_nonneg := takenQty_nonneg restTraded
    have taken : takenQty (first :: rest) = first.quantity + takenQty rest := by simp [takenQty]
    have left : closable - min first.quantity closable -
          min (takenQty rest) (closable - min first.quantity closable) =
        closable - min (takenQty (first :: rest)) closable := by omega
    rw [cons_append, openedNotional, openedNotional, ih restTraded (by omega), left,
      Int.add_assoc]

end Fills

namespace MatchMargin

variable (start : MatchMargin)

def closable (fills : List Fill) : Int := start.allowance0 - min (takenQty fills) start.allowance0

/-- The notional of what is left of the position at the start, and of what the fills opened. -/
def positionNotional (fills : List Fill) : Int :=
  mul (start.size0 - min (takenQty fills) start.allowance0) start.px +
    openedNotional start.allowance0 fills

def restNotional (openRest : Int) : Int :=
  match start.limit.holdPrice with
  | none => 0
  | some hold => mul hold (max openRest 0)

def exposure (fills : List Fill) (left : Int) : Int :=
  start.positionNotional fills + start.restNotional (left - start.closable fills)

/-- What the fills and a rest of `left` need over the initial margin at the start. -/
def marginNeed (fills : List Fill) (left : Int) : Int :=
  imDelta start.limit.tiers (mul start.size0 start.px) (start.exposure fills left)

/-- The need is within the reservation and the sender's free margin; a taker-only budget is
forgiven one raw unit beyond its reservation. -/
def WithinBudget (need : Int) : Prop :=
  need ≤ start.budget ∨
    (start.takerOnly = true ∧ start.limit.budget ≤ start.budget ∧ need = start.limit.budget + 1)

/-- Nothing was opened, or the need of what was is within the budget.  A notional that overflows
is not. -/
def Affords (fills : List Fill) (left : Int) : Prop :=
  takenQty fills ≤ start.allowance0 ∨
    (mul start.size0 start.px ≤ maxRaw ∧ start.exposure fills left ≤ maxRaw ∧
      start.WithinBudget (start.marginNeed fills left))

def after (fills : List Fill) (exhausted : Bool) (cutAt : Option Int) : MatchMargin :=
  { start with charged := openedNotional start.allowance0 fills, exhausted, cutAt }

/-- A taker's margin before its first fill, in a book without a mark. -/
structure Fresh : Prop where
  unmarked : start.mark = none
  notPrechecked : start.prechecked = false
  adverse : start.adverse = 0
  charged : start.charged = 0
  before : start.before = checkedMul start.size0 start.px
  valued : 0 ≤ start.px
  closes : 0 ≤ start.allowance0
  position : start.allowance0 ≤ start.size0
  hold : ∀ hold, start.limit.holdPrice = some hold → 0 ≤ hold

section Need

variable {start : MatchMargin} {price quantity free left : Int}

theorem Fresh.restNotional_nonneg (fresh : start.Fresh) (openRest : Int) :
    0 ≤ start.restNotional openRest := by
  unfold restNotional
  split
  · exact le_refl 0
  · rename_i hold isHold
    exact fixedMul_nonneg (fresh.hold hold isHold) (by omega)

theorem need_eq {kept opened rest : Int}
    (isBefore : start.before = checkedMul start.size0 start.px)
    (position : 0 ≤ mul start.size0 start.px) (charged : 0 ≤ start.charged)
    (isKept : mul (start.size0 - (start.allowance0 - free + min quantity free)) start.px = kept)
    (keptNonneg : 0 ≤ kept)
    (isOpened : mul price (quantity - min quantity free) = opened) (openedNonneg : 0 ≤ opened)
    (isRest : start.restNotional (left - quantity - (free - min quantity free)) = rest)
    (restNonneg : 0 ≤ rest) (need : Int) :
    start.need price quantity free left = some need ↔
      mul start.size0 start.px ≤ maxRaw ∧ kept + start.charged + opened + rest ≤ maxRaw ∧
        need = imDelta start.limit.tiers (mul start.size0 start.px)
          (kept + start.charged + opened + rest) := by
  have product : ∀ first second, checkedMul first second = fit (mul first second) := fun _ _ => rfl
  have sum : ∀ first second, checkedAdd first second = fit (first + second) := fun _ _ => rfl
  have least : minRaw ≤ 0 := by decide
  unfold MatchMargin.need
  simp only [isBefore, product, isKept, isOpened, sum, Option.bind_eq_bind, Option.bind_eq_some_iff,
    fit_eq_some]
  unfold restNotional at isRest
  cases isHold : start.limit.holdPrice with
  | none =>
    rw [isHold] at isRest
    dsimp only at isRest ⊢
    subst isRest
    rw [Int.add_zero]
    constructor
    · rintro ⟨_, ⟨_, positionFits, rfl⟩, _, ⟨_, _, rfl⟩, _, ⟨_, _, rfl⟩, _, ⟨_, _, rfl⟩, _,
        ⟨_, fits, rfl⟩, isNeed⟩
      exact ⟨positionFits, fits, (Option.some.inj isNeed).symm⟩
    · rintro ⟨positionFits, fits, rfl⟩
      exact ⟨_, ⟨by omega, positionFits, rfl⟩, _, ⟨by omega, by omega, rfl⟩, _,
        ⟨by omega, by omega, rfl⟩, _, ⟨by omega, by omega, rfl⟩, _, ⟨by omega, fits, rfl⟩, rfl⟩
  | some hold =>
    rw [isHold] at isRest
    dsimp only at isRest ⊢
    rw [isRest]
    simp only [Option.bind_eq_some_iff, fit_eq_some]
    constructor
    · rintro ⟨_, ⟨_, positionFits, rfl⟩, _, ⟨_, _, rfl⟩, _, ⟨_, _, rfl⟩, _, ⟨_, _, rfl⟩, _,
        ⟨_, _, rfl⟩, _, ⟨_, _, rfl⟩, _, ⟨_, fits, rfl⟩, isNeed⟩
      exact ⟨positionFits, fits, (Option.some.inj isNeed).symm⟩
    · rintro ⟨positionFits, fits, rfl⟩
      exact ⟨_, ⟨by omega, positionFits, rfl⟩, _, ⟨by omega, by omega, rfl⟩, _,
        ⟨by omega, by omega, rfl⟩, _, ⟨by omega, by omega, rfl⟩, _, ⟨by omega, by omega, rfl⟩, _,
        ⟨by omega, by omega, rfl⟩, _, ⟨by omega, fits, rfl⟩, rfl⟩

variable {fills : List Fill} {fill : Fill} {exhausted : Bool} {cutAt : Option Int}

theorem Fresh.sized (fresh : start.Fresh) : 0 ≤ mul start.size0 start.px :=
  fixedMul_nonneg (le_trans fresh.closes fresh.position) fresh.valued

theorem Fresh.positionNotional_nonneg (fresh : start.Fresh) (traded : Traded fills) :
    0 ≤ start.positionNotional fills := by
  have := fresh.position
  exact Int.add_nonneg (fixedMul_nonneg (by omega) fresh.valued) (openedNotional_nonneg traded)

theorem Fresh.need_concat (fresh : start.Fresh) (traded : Traded fills) (price : 0 ≤ fill.price)
    (quantity : 0 ≤ fill.quantity) (need : Int) :
    (start.after fills exhausted cutAt).need fill.price fill.quantity (start.closable fills) left =
        some need ↔
      mul start.size0 start.px ≤ maxRaw ∧
        start.exposure (fills ++ [fill]) (left - fill.quantity) ≤ maxRaw ∧
        need = start.marginNeed (fills ++ [fill]) (left - fill.quantity) := by
  have closes := fresh.closes
  have position := fresh.position
  have taken := takenQty_nonneg traded
  have closed : start.allowance0 - start.closable fills + min fill.quantity (start.closable fills) =
      min (takenQty (fills ++ [fill])) start.allowance0 := by
    rw [takenQty_concat, closable]
    omega
  have stillClosable : start.closable fills - min fill.quantity (start.closable fills) =
      start.closable (fills ++ [fill]) := by
    rw [closable, closable, takenQty_concat]
    omega
  have total : start.exposure (fills ++ [fill]) (left - fill.quantity) =
      mul (start.size0 - min (takenQty (fills ++ [fill])) start.allowance0) start.px +
          openedNotional start.allowance0 fills +
        mul fill.price (fill.quantity - min fill.quantity (start.closable fills)) +
        start.restNotional (left - fill.quantity - start.closable (fills ++ [fill])) := by
    have opened := @openedNotional_concat fills fill start.allowance0 traded closes
    rw [exposure, positionNotional, opened, ← closable]
    omega
  rw [marginNeed, total]
  apply @need_eq (start.after fills exhausted cutAt) fill.price fill.quantity (start.closable fills)
    left
  · exact fresh.before
  · exact fresh.sized
  · exact openedNotional_nonneg traded
  · exact congrArg (fun part => mul (start.size0 - part) start.px) closed
  · exact fixedMul_nonneg (by omega) fresh.valued
  · rfl
  · exact fixedMul_nonneg price (by omega)
  · exact congrArg (fun part => start.restNotional (left - fill.quantity - part)) stillClosable
  · exact fresh.restNotional_nonneg _

theorem Fresh.need_settled (fresh : start.Fresh) (traded : Traded fills) (need : Int) :
    (start.after fills exhausted cutAt).need 0 0 (start.closable fills) (start.closable fills) =
        some need ↔
      mul start.size0 start.px ≤ maxRaw ∧ start.positionNotional fills ≤ maxRaw ∧
        need = imDelta start.limit.tiers (mul start.size0 start.px)
          (start.positionNotional fills) := by
  have closes := fresh.closes
  have position := fresh.position
  have taken := takenQty_nonneg traded
  have nothing : min 0 (start.closable fills) = 0 := by
    rw [closable]
    omega
  have closed : start.allowance0 - start.closable fills + min 0 (start.closable fills) =
      min (takenQty fills) start.allowance0 := by
    rw [nothing, closable]
    omega
  have noRest : start.restNotional 0 = 0 := by
    unfold restNotional
    split
    · rfl
    · simp [mul]
  have total : start.positionNotional fills =
      mul (start.size0 - min (takenQty fills) start.allowance0) start.px +
        openedNotional start.allowance0 fills + 0 + 0 := by
    rw [positionNotional, Int.add_zero, Int.add_zero]
  rw [total]
  apply @need_eq (start.after fills exhausted cutAt) 0 0 (start.closable fills)
    (start.closable fills)
  · exact fresh.before
  · exact fresh.sized
  · exact openedNotional_nonneg traded
  · exact congrArg (fun part => mul (start.size0 - part) start.px) closed
  · exact fixedMul_nonneg (by omega) fresh.valued
  · simp [mul]
  · exact le_refl 0
  · rw [nothing, Int.sub_zero, Int.sub_self]
    exact noRest
  · exact le_refl 0

theorem fits_iff {margin : MatchMargin} {need : Int} :
    margin.fits need = true ↔ margin.WithinBudget need := by
  unfold fits overReservation WithinBudget
  simp only [Bool.or_eq_true, decide_eq_true_eq]
  split
  · rename_i forgiven
    constructor
    · rintro (within | room)
      · exact Or.inl within
      · exact Or.inr ⟨forgiven.1, by omega, by omega⟩
    · rintro (within | ⟨_, room, _⟩)
      · exact Or.inl within
      · exact Or.inr (by omega)
  · rename_i charged
    constructor
    · rintro (within | room)
      · exact Or.inl within
      · exact Or.inl (by omega)
    · rintro (within | ⟨only, _, exact⟩)
      · exact Or.inl within
      · exact absurd ⟨only, by omega⟩ charged

theorem Fresh.fillFits_iff (fresh : start.Fresh) :
    (start.after fills exhausted cutAt).fillFits price free left quantity = true ↔
      quantity ≤ free ∨ ∃ need,
        (start.after fills exhausted cutAt).need price quantity free left = some need ∧
          minRaw ≤ need ∧ need ≤ maxRaw ∧ start.WithinBudget need := by
  have noLoss : (start.after fills exhausted cutAt).loss price quantity free = some .zero := by
    rw [loss, after, fresh.unmarked]
  have noAdverse : (start.after fills exhausted cutAt).adverse = 0 := fresh.adverse
  have sum : ∀ need, checkedAdd need 0 = fit need := fun need => by rw [checkedAdd, Int.add_zero]
  have sameBudget : ∀ need, (start.after fills exhausted cutAt).fits need = true ↔
      start.WithinBudget need := fun need => fits_iff
  unfold fillFits
  rw [noLoss, noAdverse]
  simp only [MarkLoss.zero, if_true, Bool.or_eq_true, decide_eq_true_eq, sum]
  cases (start.after fills exhausted cutAt).need price quantity free left with
  | none => simp
  | some need =>
    simp only [Option.bind_some, Option.some.injEq, exists_eq_left']
    by_cases small : minRaw ≤ need ∧ need ≤ maxRaw
    · simp [fit, small, sameBudget]
    · simp only [fit, if_neg small, Option.map_none, Option.getD_none, Bool.false_eq_true]
      constructor
      · rintro (closes | never)
        · exact Or.inl closes
        · exact never.elim
      · rintro (closes | ⟨least, most, _⟩)
        · exact Or.inl closes
        · exact absurd ⟨least, most⟩ small

theorem orderInitialMargin_bounds {tiers : MarginTiers} {notional : Int} (nonneg : 0 ≤ notional) :
    0 ≤ orderInitialMargin tiers notional ∧ orderInitialMargin tiers notional ≤ notional :=
  ⟨Int.tdiv_nonneg nonneg (Int.natCast_nonneg _), Int.tdiv_le_self _ nonneg⟩

theorem imDelta_bounds {tiers : MarginTiers} {before after : Int} (beforeNonneg : 0 ≤ before)
    (beforeFits : before ≤ maxRaw) (afterNonneg : 0 ≤ after) :
    minRaw ≤ imDelta tiers before after ∧ imDelta tiers before after ≤ after := by
  have first := @orderInitialMargin_bounds tiers before beforeNonneg
  have second := @orderInitialMargin_bounds tiers after afterNonneg
  have least : minRaw ≤ -maxRaw := by decide
  unfold imDelta
  omega

theorem Fresh.exposure_nonneg (fresh : start.Fresh) (traded : Traded fills) :
    0 ≤ start.exposure fills left :=
  Int.add_nonneg (fresh.positionNotional_nonneg traded) (fresh.restNotional_nonneg _)

theorem Fresh.affords_concat_zero (fresh : start.Fresh) (traded : Traded fills)
    (affords : start.Affords fills left) (nothing : fill.quantity = 0) :
    start.Affords (fills ++ [fill]) (left - fill.quantity) := by
  have taken : takenQty (fills ++ [fill]) = takenQty fills := by
    rw [takenQty_concat, nothing, Int.add_zero]
  have opened : openedNotional start.allowance0 (fills ++ [fill]) =
      openedNotional start.allowance0 fills := by
    have noOpening : fill.quantity - min fill.quantity
        (start.allowance0 - min (takenQty fills) start.allowance0) = 0 := by omega
    rw [openedNotional_concat traded fresh.closes, noOpening]
    simp [mul]
  have exposed : start.exposure (fills ++ [fill]) (left - fill.quantity) =
      start.exposure fills left := by
    rw [exposure, exposure, positionNotional, positionNotional, closable, closable, taken, opened,
      nothing, Int.sub_zero]
  unfold Affords marginNeed
  rw [taken, exposed]
  exact affords

theorem Fresh.fillFits_affords (fresh : start.Fresh) (traded : Traded fills)
    (affords : start.Affords fills left) (price : 0 ≤ fill.price) (quantity : 0 ≤ fill.quantity) :
    (start.after fills exhausted cutAt).fillFits fill.price (start.closable fills) left
        fill.quantity = true ↔
      start.Affords (fills ++ [fill]) (left - fill.quantity) := by
  have taken := takenQty_nonneg traded
  have closes := fresh.closes
  have concat := @takenQty_concat fills fill
  rw [fresh.fillFits_iff]
  constructor
  · rintro (closing | ⟨need, found, _, _, within⟩)
    · by_cases opened : takenQty fills ≤ start.allowance0
      · rw [closable, min_eq_left opened] at closing
        exact Or.inl (by omega)
      · rw [closable] at closing
        exact fresh.affords_concat_zero traded affords (by omega)
    · obtain ⟨positionFits, exposureFits, rfl⟩ := (fresh.need_concat traded price quantity need).mp found
      exact Or.inr ⟨positionFits, exposureFits, within⟩
  · rintro (closing | ⟨positionFits, exposureFits, within⟩)
    · refine Or.inl ?_
      rw [closable]
      omega
    · have bounds := @imDelta_bounds start.limit.tiers _ _ fresh.sized positionFits
        (@Fresh.exposure_nonneg start (left - fill.quantity) (fills ++ [fill]) fresh
          (traded.concat price quantity))
      refine Or.inr ⟨_, (fresh.need_concat traded price quantity _).mpr
        ⟨positionFits, exposureFits, rfl⟩, bounds.1, le_trans bounds.2 exposureFits, within⟩

end Need

section Search

variable {start : MatchMargin} {fills : List Fill} {exhausted : Bool} {cutAt : Option Int}
  {left wanted : Int}

/-- Going up by whole lots beyond what closes never lowers the notional of the fill and of the hold
together.  The two products are truncated apart, so that they can dip by one raw unit. -/
def Steady (start : MatchMargin) (fills : List Fill) (price left wanted : Int) : Prop :=
  ∀ hold, start.limit.holdPrice = some hold → ∀ fewer more, 0 < fewer → fewer ≤ more →
    start.closable fills < fewer * lotStep start.lot → more * lotStep start.lot < wanted →
    mul price (fewer * lotStep start.lot - start.closable fills) +
        mul hold (left - fewer * lotStep start.lot) ≤
      mul price (more * lotStep start.lot - start.closable fills) +
        mul hold (left - more * lotStep start.lot)

theorem Fresh.exposure_mono (fresh : start.Fresh) (traded : Traded fills) {fewer more : Fill}
    (samePrice : more.price = fewer.price) (price : 0 ≤ fewer.price)
    (le : fewer.quantity ≤ more.quantity) (opens : start.closable fills < fewer.quantity)
    (within : more.quantity ≤ left)
    (steady : ∀ hold, start.limit.holdPrice = some hold →
      mul fewer.price (fewer.quantity - start.closable fills) + mul hold (left - fewer.quantity) ≤
        mul fewer.price (more.quantity - start.closable fills) + mul hold (left - more.quantity)) :
    start.exposure (fills ++ [fewer]) (left - fewer.quantity) ≤
      start.exposure (fills ++ [more]) (left - more.quantity) := by
  have taken := takenQty_nonneg traded
  have closes := fresh.closes
  have exposed : ∀ fill : Fill, start.closable fills < fill.quantity →
      start.exposure (fills ++ [fill]) (left - fill.quantity) =
        mul (start.size0 - start.allowance0) start.px + openedNotional start.allowance0 fills +
          mul fill.price (fill.quantity - start.closable fills) +
          start.restNotional (left - fill.quantity) := by
    intro fill beyond
    have all : min (takenQty (fills ++ [fill])) start.allowance0 = start.allowance0 := by
      rw [takenQty_concat]
      rw [closable] at beyond
      omega
    have closing : min fill.quantity (start.closable fills) = start.closable fills :=
      min_eq_right (le_of_lt beyond)
    have opened := @openedNotional_concat fills fill start.allowance0 traded closes
    rw [← closable, closing] at opened
    have spent : start.closable (fills ++ [fill]) = 0 := by
      rw [closable, all, Int.sub_self]
    rw [exposure, positionNotional, all, opened, spent, Int.sub_zero]
    omega
  rw [exposed fewer opens, exposed more (by omega), samePrice]
  unfold restNotional
  split
  · have := fixedMul_mono price (show 0 ≤ fewer.quantity - start.closable fills by omega)
      (show _ ≤ more.quantity - start.closable fills by omega)
    omega
  · rename_i hold isHold
    rw [max_eq_left (show (0 : Int) ≤ left - fewer.quantity by omega),
      max_eq_left (show (0 : Int) ≤ left - more.quantity by omega)]
    have := steady hold isHold
    omega

theorem WithinBudget.of_le {need more : Int} (within : start.WithinBudget more) (le : need ≤ more) :
    start.WithinBudget need := by
  unfold WithinBudget at *
  rcases within with within | ⟨only, room, exact⟩
  · exact Or.inl (le_trans le within)
  · rcases Int.lt_or_le start.limit.budget need with last | inside
    · exact Or.inr ⟨only, room, by omega⟩
    · exact Or.inl (le_trans inside room)

theorem Fresh.affords_fewer (fresh : start.Fresh) (fall : TiersFall start.limit.tiers)
    (traded : Traded fills) {fewer more : Fill} (samePrice : more.price = fewer.price)
    (price : 0 ≤ fewer.price) (quantity : 0 < fewer.quantity) (le : fewer.quantity ≤ more.quantity)
    (within : more.quantity ≤ left)
    (steady : start.closable fills < fewer.quantity → ∀ hold,
      start.limit.holdPrice = some hold →
      mul fewer.price (fewer.quantity - start.closable fills) + mul hold (left - fewer.quantity) ≤
        mul fewer.price (more.quantity - start.closable fills) + mul hold (left - more.quantity))
    (affords : start.Affords (fills ++ [more]) (left - more.quantity)) :
    start.Affords (fills ++ [fewer]) (left - fewer.quantity) := by
  have closes := fresh.closes
  have fewerTaken := @takenQty_concat fills fewer
  have moreTaken := @takenQty_concat fills more
  by_cases opens : takenQty (fills ++ [fewer]) ≤ start.allowance0
  · exact Or.inl opens
  rcases affords with closing | ⟨positionFits, exposureFits, budget⟩
  · exact Or.inl (by omega)
  · have beyond : start.closable fills < fewer.quantity := by
      rw [closable]
      omega
    have mono := fresh.exposure_mono traded samePrice price le beyond within (steady beyond)
    have moreNonneg : 0 ≤ start.exposure (fills ++ [more]) (left - more.quantity) :=
      fresh.exposure_nonneg (traded.concat (by omega) (by omega))
    refine Or.inr ⟨positionFits, le_trans mono exposureFits, budget.of_le ?_⟩
    have margins := orderInitialMargin_mono fall mono moreNonneg
    unfold marginNeed imDelta
    omega

theorem Fresh.affordable_greatest (fresh : start.Fresh) (fall : TiersFall start.limit.tiers)
    (traded : Traded fills) (affords : start.Affords fills left) {price : Int} (nonneg : 0 ≤ price)
    (wants : 0 ≤ wanted) (within : wanted ≤ left) (steady : start.Steady fills price left wanted)
    {fill : Int → Fill} (fillPrice : ∀ quantity, (fill quantity).price = price)
    (fillQuantity : ∀ quantity, (fill quantity).quantity = quantity) :
    IsGreatest {quantity | Offered wanted (lotStep start.lot) quantity ∧
        start.Affords (fills ++ [fill quantity]) (left - quantity)}
      ((start.after fills exhausted cutAt).affordable price wanted (start.closable fills) left) := by
  have positive := lotStep_pos start.lot
  have tested : ∀ quantity, 0 ≤ quantity →
      ((start.after fills exhausted cutAt).fillFits price (start.closable fills) left quantity =
          true ↔ start.Affords (fills ++ [fill quantity]) (left - quantity)) := by
    intro quantity quantityNonneg
    have fits := @Fresh.fillFits_affords start left fills (fill quantity) exhausted cutAt fresh traded
      affords (by rw [fillPrice]; exact nonneg) (by rw [fillQuantity]; exact quantityNonneg)
    rw [fillPrice, fillQuantity] at fits
    exact fits
  have searched : (start.after fills exhausted cutAt).affordable price wanted (start.closable fills)
      left = (largestFit wanted start.lot (pureCheck ((start.after fills exhausted cutAt).fillFits
        price (start.closable fills) left)) ()).1 := by
    unfold affordable
    rw [show (start.after fills exhausted cutAt).prechecked = false from fresh.notPrechecked]
    rfl
  have zero : (start.after fills exhausted cutAt).fillFits price (start.closable fills) left 0 =
      true := by
    rw [tested 0 (le_refl 0)]
    have kept := @Fresh.affords_concat_zero start left fills (fill 0) fresh traded affords
      (fillQuantity 0)
    rw [fillQuantity] at kept
    exact kept
  rw [searched]
  have greatest := @largestFit_greatest _ wanted start.lot wants zero fun fewer more fewerPos le
      moreWithin moreFits => by
    have fewerNonneg : 0 < fewer * lotStep start.lot := Int.mul_pos fewerPos positive
    have lotsLe : fewer * lotStep start.lot ≤ more * lotStep start.lot :=
      Int.mul_le_mul_of_nonneg_right le (le_of_lt positive)
    rw [tested _ (by omega)] at moreFits
    rw [tested _ (le_of_lt fewerNonneg)]
    have fewerAffords := @Fresh.affords_fewer start fills left fresh fall traded
      (fill (fewer * lotStep start.lot)) (fill (more * lotStep start.lot))
    simp only [fillPrice, fillQuantity] at fewerAffords
    exact fewerAffords trivial nonneg fewerNonneg lotsLe (by omega)
      (fun opens hold isHold => steady hold isHold fewer more fewerPos le opens moreWithin) moreFits
  constructor
  · obtain ⟨offered, fits⟩ := greatest.1
    refine ⟨offered, (tested _ ?_).mp fits⟩
    rcases offered with whole | ⟨quantityNonneg, _⟩
    · omega
    · exact quantityNonneg
  · rintro quantity ⟨offered, fits⟩
    refine greatest.2 ⟨offered, (tested _ ?_).mpr fits⟩
    rcases offered with whole | ⟨quantityNonneg, _⟩
    · omega
    · exact quantityNonneg

theorem fixedMul_add_le {factor quantity more units : Int} (nonneg : 0 ≤ factor * quantity)
    (unitsNonneg : 0 ≤ units) (le : units * scale ≤ factor * more) :
    mul factor quantity + units ≤ mul factor (quantity + more) := by
  have scaled : 0 ≤ units * scale := Int.mul_nonneg unitsNonneg (by decide)
  have grown := tdiv_scale_mono (Int.add_nonneg nonneg scaled)
    (show factor * quantity + units * scale ≤ factor * (quantity + more) by
      rw [Int.mul_add]
      omega)
  rw [Int.tdiv_eq_ediv_of_nonneg (Int.add_nonneg nonneg scaled),
    Int.add_mul_ediv_right _ _ (by decide)] at grown
  unfold mul
  rw [Int.tdiv_eq_ediv_of_nonneg nonneg]
  exact grown

theorem fixedMul_le_add {factor quantity more units : Int} (nonneg : 0 ≤ factor * quantity)
    (moreNonneg : 0 ≤ factor * more) (unitsNonneg : 0 ≤ units)
    (le : factor * more ≤ units * scale) :
    mul factor (quantity + more) ≤ mul factor quantity + units := by
  have scaled : 0 ≤ units * scale := Int.mul_nonneg unitsNonneg (by decide)
  have sum : factor * (quantity + more) = factor * quantity + factor * more := Int.mul_add _ _ _
  have grown := tdiv_scale_mono (show 0 ≤ factor * (quantity + more) by omega)
    (show factor * (quantity + more) ≤ factor * quantity + units * scale by omega)
  rw [Int.tdiv_eq_ediv_of_nonneg (Int.add_nonneg nonneg scaled),
    Int.add_mul_ediv_right _ _ (by decide)] at grown
  unfold mul
  rw [Int.tdiv_eq_ediv_of_nonneg nonneg]
  exact grown

theorem steady_of_between {price : Int} (within : wanted ≤ left)
    (between : ∀ hold, start.limit.holdPrice = some hold → 0 ≤ hold ∧ ∃ units,
      hold * lotStep start.lot ≤ units * scale ∧ units * scale ≤ price * lotStep start.lot) :
    start.Steady fills price left wanted := by
  intro hold isHold fewer more fewerPos le opens moreWithin
  obtain ⟨holdNonneg, units, below, above⟩ := between hold isHold
  have positive := lotStep_pos start.lot
  have unitsNonneg : 0 ≤ units := by
    have : 0 ≤ hold * lotStep start.lot := Int.mul_nonneg holdNonneg (le_of_lt positive)
    by_contra negative
    have : units * scale < 0 := Int.mul_neg_of_neg_of_pos (by omega) (by decide)
    omega
  have priceNonneg : 0 ≤ price := by
    have : 0 ≤ units * scale := Int.mul_nonneg unitsNonneg (by decide)
    by_contra negative
    have : price * lotStep start.lot < 0 := Int.mul_neg_of_neg_of_pos (by omega) positive
    omega
  obtain ⟨lots, rfl⟩ : ∃ lots, more = fewer + lots := ⟨more - fewer, by omega⟩
  have lotsNonneg : 0 ≤ lots := by omega
  have stepped : (fewer + lots) * lotStep start.lot =
      fewer * lotStep start.lot + lots * lotStep start.lot := Int.add_mul _ _ _
  have grownNonneg : 0 ≤ lots * lotStep start.lot := Int.mul_nonneg lotsNonneg (le_of_lt positive)
  have priced : lots * units * scale ≤ price * (lots * lotStep start.lot) := by
    calc lots * units * scale = lots * (units * scale) := Int.mul_assoc _ _ _
      _ ≤ lots * (price * lotStep start.lot) := Int.mul_le_mul_of_nonneg_left above lotsNonneg
      _ = price * (lots * lotStep start.lot) := Int.mul_left_comm _ _ _
  have held : hold * (lots * lotStep start.lot) ≤ lots * units * scale := by
    calc hold * (lots * lotStep start.lot) = lots * (hold * lotStep start.lot) :=
          Int.mul_left_comm _ _ _
      _ ≤ lots * (units * scale) := Int.mul_le_mul_of_nonneg_left below lotsNonneg
      _ = lots * units * scale := (Int.mul_assoc _ _ _).symm
  have lotUnits : 0 ≤ lots * units := Int.mul_nonneg lotsNonneg unitsNonneg
  have up := @fixedMul_add_le price (fewer * lotStep start.lot - start.closable fills)
    (lots * lotStep start.lot) (lots * units)
    (Int.mul_nonneg priceNonneg (by omega)) lotUnits priced
  have down := @fixedMul_le_add hold (left - (fewer + lots) * lotStep start.lot)
    (lots * lotStep start.lot) (lots * units) (Int.mul_nonneg holdNonneg (by omega))
    (Int.mul_nonneg holdNonneg grownNonneg) lotUnits held
  have upAt : fewer * lotStep start.lot - start.closable fills + lots * lotStep start.lot =
      (fewer + lots) * lotStep start.lot - start.closable fills := by omega
  have downAt : left - (fewer + lots) * lotStep start.lot + lots * lotStep start.lot =
      left - fewer * lotStep start.lot := by omega
  rw [upAt] at up
  rw [downAt] at down
  omega

end Search

end MatchMargin

end TorusHyperBft.OrderBook
