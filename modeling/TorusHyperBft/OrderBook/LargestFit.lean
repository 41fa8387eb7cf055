import TorusHyperBft.OrderBook.Accounts

namespace TorusHyperBft.OrderBook

/-! What the binary search for the largest quantity that fits comes to. -/

/-- The quantities the search chooses from: all of `quantity`, or a whole number of lots. -/
def Offered (quantity lot candidate : Int) : Prop :=
  candidate = quantity ∨ (0 ≤ candidate ∧ candidate < quantity ∧ lot ∣ candidate)

def lotStep (lot : Int) : Int := if 0 < lot then lot else 1

theorem lotStep_pos (lot : Int) : 0 < lotStep lot := by
  unfold lotStep
  split <;> omega

def pureCheck (test : Int → Bool) : Int → Unit → Bool × Unit := fun candidate state =>
  (test candidate, state)

section Search

variable {test : Int → Bool} {quantity step : Int}

theorem half_eq {low high : Int} (ordered : low ≤ high) :
    (high - low).tdiv 2 = (high - low) / 2 := Int.tdiv_eq_ediv_of_nonneg (by omega)

theorem largestFitLoop_greatest {low high : Int} {state : Unit}
    (closed : ∀ fewer more, 0 < fewer → fewer ≤ more → more * step < quantity →
      test (more * step) = true → test (fewer * step) = true)
    (positive : 0 < step) (nonneg : 0 ≤ low) (ordered : low < high)
    (fits : low = 0 ∨ (low * step < quantity ∧ test (low * step) = true))
    (beyond : ∀ lots, high ≤ lots → lots * step < quantity → test (lots * step) = false) :
    ∃ lots, (largestFitLoop quantity step (pureCheck test) low high state).1 = lots * step ∧
      0 ≤ lots ∧ (lots = 0 ∨ (lots * step < quantity ∧ test (lots * step) = true)) ∧
      ∀ more, lots < more → more * step < quantity → test (more * step) = false := by
  fun_induction largestFitLoop quantity step (pureCheck test) low high state with
  | case1 low high state apart middle candidate smaller next fit ih =>
    have half := @half_eq low high (by omega)
    have tested : test candidate = true := congrArg Prod.fst fit
    exact ih (by omega) (by omega) (Or.inr ⟨smaller, tested⟩) beyond
  | case2 low high state apart middle candidate smaller fit next found fails ih =>
    have half := @half_eq low high (by omega)
    have tested : test candidate = fit := congrArg Prod.fst found
    apply ih nonneg (by omega) fits
    intro lots past within
    cases fitting : test (lots * step) with
    | false => rfl
    | true =>
      have := closed middle lots (by omega) past within fitting
      exact absurd (tested.symm.trans this) fails
  | case3 low high state apart middle candidate larger ih =>
    have half := @half_eq low high (by omega)
    apply ih nonneg (by omega) fits
    intro lots past within
    have : middle * step ≤ lots * step := Int.mul_le_mul_of_nonneg_right past (by omega)
    omega
  | case4 low high state near =>
    exact ⟨low, rfl, nonneg, fits, fun more past within => beyond more (by omega) within⟩

variable {lot : Int}

theorem largestFit_greatest (nonneg : 0 ≤ quantity) (zero : test 0 = true)
    (closed : ∀ fewer more, 0 < fewer → fewer ≤ more → more * lotStep lot < quantity →
      test (more * lotStep lot) = true → test (fewer * lotStep lot) = true) :
    IsGreatest {candidate | Offered quantity (lotStep lot) candidate ∧ test candidate = true}
      (largestFit quantity lot (pureCheck test) ()).1 := by
  have positive := lotStep_pos lot
  unfold largestFit
  cases whole : test quantity with
  | true =>
    simp only [pureCheck, whole, if_true]
    refine ⟨⟨Or.inl rfl, whole⟩, fun candidate member => ?_⟩
    rcases member.1 with rfl | ⟨_, smaller, _⟩
    · exact le_refl _
    · exact le_of_lt smaller
  | false =>
    have wanted : quantity ≠ 0 := by
      rintro rfl
      rw [zero] at whole
      contradiction
    have tried : pureCheck test quantity () = (false, ()) := by rw [pureCheck, whole]
    rw [tried]
    have last : quantity.tdiv (lotStep lot) = quantity / lotStep lot :=
      Int.tdiv_eq_ediv_of_nonneg nonneg
    have room := Int.ediv_nonneg nonneg (le_of_lt positive)
    obtain ⟨lots, found, lotsNonneg, fits, beyond⟩ :=
      @largestFitLoop_greatest test quantity (lotStep lot) 0 (quantity.tdiv (lotStep lot) + 1) ()
        closed positive (le_refl 0) (by omega) (Or.inl rfl) fun lots past within => by
          have : (quantity / lotStep lot + 1) * lotStep lot ≤ lots * lotStep lot :=
            Int.mul_le_mul_of_nonneg_right (by omega) (le_of_lt positive)
          have := Int.lt_ediv_add_one_mul_self quantity positive
          omega
    have fitting : lots * lotStep lot < quantity ∧ test (lots * lotStep lot) = true := by
      rcases fits with rfl | fitting
      · rw [Int.zero_mul]
        exact ⟨by omega, zero⟩
      · exact fitting
    refine Eq.subst (motive := IsGreatest _) found.symm ?_
    refine ⟨⟨Or.inr ⟨Int.mul_nonneg lotsNonneg (le_of_lt positive), fitting.1,
      Int.dvd_mul_left lots (lotStep lot)⟩, fitting.2⟩, fun candidate member => ?_⟩
    obtain ⟨rfl | ⟨_, within, more, rfl⟩, candidateFits⟩ := member
    · rw [whole] at candidateFits
      contradiction
    · rw [Int.mul_comm] at within candidateFits ⊢
      apply Int.mul_le_mul_of_nonneg_right _ (le_of_lt positive)
      by_contra larger
      have := beyond more (by omega) within
      rw [candidateFits] at this
      contradiction

theorem largestFitLoop_lt {low high : Int} {state : Unit} (positive : 0 < step)
    (ordered : low < high) :
    (largestFitLoop quantity step (pureCheck test) low high state).1 < high * step := by
  fun_induction largestFitLoop quantity step (pureCheck test) low high state with
  | case1 low high state apart middle candidate smaller next fit ih =>
    have half := @half_eq low high (by omega)
    exact ih (by omega)
  | case2 low high state apart middle candidate smaller fit next found fails ih =>
    have half := @half_eq low high (by omega)
    have le : middle * step ≤ high * step :=
      Int.mul_le_mul_of_nonneg_right (by omega) (le_of_lt positive)
    exact lt_of_lt_of_le (ih (by omega)) le
  | case3 low high state apart middle candidate larger ih =>
    have half := @half_eq low high (by omega)
    have le : middle * step ≤ high * step :=
      Int.mul_le_mul_of_nonneg_right (by omega) (le_of_lt positive)
    exact lt_of_lt_of_le (ih (by omega)) le
  | case4 low high state near => exact Int.mul_lt_mul_of_pos_right ordered positive

theorem largestFit_lt_probe {probe : Int}
    (isProbe : (quantity.tdiv (lotStep lot) + 1).tdiv 2 = probe)
    (several : 1 < quantity.tdiv (lotStep lot) + 1) (whole : test quantity = false)
    (fails : test (probe * lotStep lot) = false) :
    (largestFit quantity lot (pureCheck test) ()).1 < probe * lotStep lot := by
  have positive := lotStep_pos lot
  have half : (quantity.tdiv (lotStep lot) + 1).tdiv 2 = (quantity.tdiv (lotStep lot) + 1) / 2 :=
    Int.tdiv_eq_ediv_of_nonneg (by omega)
  have tried : pureCheck test quantity () = (false, ()) := by rw [pureCheck, whole]
  have probed : pureCheck test (probe * lotStep lot) () = (false, ()) := by rw [pureCheck, fails]
  have after := @largestFitLoop_lt test quantity (lotStep lot) 0 probe () positive (by omega)
  have start : (largestFit quantity lot (pureCheck test) ()).1 =
      (largestFitLoop quantity (lotStep lot) (pureCheck test) 0
        (quantity.tdiv (lotStep lot) + 1) ()).1 := by
    unfold largestFit
    rw [tried]
    rfl
  rw [start]
  unfold largestFitLoop
  rw [if_pos (by omega)]
  simp only [Int.sub_zero, Int.zero_add, isProbe, probed, Bool.false_eq_true, if_false, ite_self]
  exact after

end Search

end TorusHyperBft.OrderBook
