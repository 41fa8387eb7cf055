import TorusHyperBft.Account.Liquidation

namespace TorusHyperBft.Account

open FixedPoint
open OrderBook (Address)

/-! The order in which the counterparties of an ADL close are taken.

The rank is a quotient.  The source never divides: it compares two ranks by multiplying crosswise in
1024 bits. -/

abbrev U1024 := BitVec 1024

def wide (x : Int) : U1024 := BitVec.ofNat 1024 (max x 0).toNat

/-- The numerator and the denominator of the rank; a zero denominator ranks last. -/
def AdlCandidate.rankParts (mark : Int) (candidate : AdlCandidate) : U1024 × U1024 :=
  let notional := wide candidate.size * wide mark
  let (pxNum, pxDen) :=
    if candidate.isLong then (mark, candidate.entryPrice) else (candidate.entryPrice, mark)
  let den := if candidate.accountValue ≤ 0 then 0 else wide pxDen * wide candidate.accountValue
  (wide pxNum * notional, den)

def adlCompare (a b : (U1024 × U1024) × AdlCandidate) : Ordering :=
  let byRank : Ordering :=
    match decide (a.1.2 = 0), decide (b.1.2 = 0) with
    | true, true => .eq
    | true, false => .gt
    | false, true => .lt
    | false, false => compare (b.1.1 * a.1.2).toNat (a.1.1 * b.1.2).toNat
  byRank.then (compare a.2.trader b.2.trader)

def adlRank (mark : Int) (cands : List AdlCandidate) : List AdlCandidate :=
  let keyed := cands.map fun candidate => (candidate.rankParts mark, candidate)
  (keyed.mergeSort fun a b => adlCompare a b ≠ .gt).map Prod.snd

/-- The rank as a rational, of values clamped at zero: the price ratio times the notional per unit
of account value.  Without an account value or a price to divide by there is none. -/
def AdlCandidate.exactRank (mark : Int) (candidate : AdlCandidate) : WithBot ℚ :=
  let mark : ℚ := (max mark 0 : Int)
  let entry : ℚ := (max candidate.entryPrice 0 : Int)
  let size : ℚ := (max candidate.size 0 : Int)
  let ratio := if candidate.isLong then mark / entry else entry / mark
  if candidate.accountValue ≤ 0 ∨ (if candidate.isLong then entry else mark) = 0 then ⊥
  else (ratio * (size * mark / candidate.accountValue) : ℚ)

/-- Higher ranks first, those without a rank last, ties by ascending address. -/
def AdlCandidate.rankKey (mark : Int) (candidate : AdlCandidate) : (WithBot ℚ)ᵒᵈ ×ₗ Address :=
  toLex (OrderDual.toDual (candidate.exactRank mark), candidate.trader)

/-- Its numbers are at most the largest the type has. -/
structure AdlCandidate.InRange (candidate : AdlCandidate) : Prop where
  size : candidate.size ≤ maxRaw
  entryPrice : candidate.entryPrice ≤ maxRaw
  accountValue : candidate.accountValue ≤ maxRaw

/-- What the source multiplies for a candidate, without a bound on the bits. -/
def AdlCandidate.exactParts (mark : Int) (candidate : AdlCandidate) : Nat × Nat :=
  let clamp (x : Int) : Nat := (max x 0).toNat
  let (pxNum, pxDen) :=
    if candidate.isLong then (mark, candidate.entryPrice) else (candidate.entryPrice, mark)
  (clamp pxNum * (clamp candidate.size * clamp mark),
    if candidate.accountValue ≤ 0 then 0 else clamp pxDen * clamp candidate.accountValue)

section Exact

variable {mark : Int} {candidate a b : AdlCandidate}

theorem toNat_ofNat_exact {width bits n : Nat} (bound : n < 2 ^ bits) (fits : bits ≤ width) :
    (BitVec.ofNat width n).toNat = n := by
  rw [BitVec.toNat_ofNat]
  exact Nat.mod_eq_of_lt (bound.trans_le (Nat.pow_le_pow_right (by decide) fits))

theorem toNat_wide {x : Int} (fits : x ≤ maxRaw) :
    (wide x).toNat = (max x 0).toNat ∧ (max x 0).toNat < 2 ^ 127 := by
  have bound : (max x 0).toNat < 2 ^ 127 := by
    unfold maxRaw at fits
    omega
  exact ⟨toNat_ofNat_exact bound (by decide), bound⟩

theorem cross_bound {m n p q width : Nat} (left : m < 2 ^ p) (right : n < 2 ^ q)
    (fits : p + q ≤ width) : m * n < 2 ^ width := by
  have product : m * n < 2 ^ (p + q) := by
    rw [Nat.pow_add]
    exact Nat.mul_lt_mul_of_lt_of_lt left right
  exact product.trans_le (Nat.pow_le_pow_right (by decide) fits)

theorem toNat_mul_exact {width m n p q : Nat} {x y : BitVec width} (left : x.toNat = m)
    (right : y.toNat = n)
    (leftBound : m < 2 ^ p) (rightBound : n < 2 ^ q) (fits : p + q ≤ width) :
    (x * y).toNat = m * n ∧ m * n < 2 ^ (p + q) := by
  refine ⟨?_, cross_bound leftBound rightBound le_rfl⟩
  rw [BitVec.toNat_mul, left, right]
  exact Nat.mod_eq_of_lt (cross_bound leftBound rightBound fits)

theorem eq_zero_iff_toNat {width : Nat} (x : BitVec width) : x = 0 ↔ x.toNat = 0 := by
  rw [← BitVec.toNat_inj, BitVec.ofNat_eq_ofNat, BitVec.toNat_zero]

theorem rankParts_exact (marked : mark ≤ maxRaw) (range : candidate.InRange) :
    (candidate.rankParts mark).1.toNat = (candidate.exactParts mark).1 ∧
      (candidate.exactParts mark).1 < 2 ^ (127 + (127 + 127)) ∧
      (candidate.rankParts mark).2.toNat = (candidate.exactParts mark).2 ∧
      (candidate.exactParts mark).2 < 2 ^ (127 + 127) := by
  obtain ⟨sizeIs, sizeBound⟩ := toNat_wide range.size
  obtain ⟨markIs, markBound⟩ := toNat_wide marked
  obtain ⟨entryIs, entryBound⟩ := toNat_wide range.entryPrice
  obtain ⟨valueIs, valueBound⟩ := toNat_wide range.accountValue
  obtain ⟨notionalIs, notionalBound⟩ :=
    toNat_mul_exact sizeIs markIs sizeBound markBound (by decide)
  unfold AdlCandidate.rankParts AdlCandidate.exactParts
  cases candidate.isLong with
  | true =>
    obtain ⟨numIs, numBound⟩ :=
      toNat_mul_exact markIs notionalIs markBound notionalBound (by decide)
    obtain ⟨denIs, denBound⟩ :=
      toNat_mul_exact entryIs valueIs entryBound valueBound (by decide)
    refine ⟨numIs, numBound, ?_, ?_⟩
    · dsimp only
      split
      · exact (eq_zero_iff_toNat _).mp rfl
      · exact denIs
    · dsimp only
      split
      · exact Nat.two_pow_pos _
      · exact denBound
  | false =>
    obtain ⟨numIs, numBound⟩ :=
      toNat_mul_exact entryIs notionalIs entryBound notionalBound (by decide)
    obtain ⟨denIs, denBound⟩ :=
      toNat_mul_exact markIs valueIs markBound valueBound (by decide)
    refine ⟨numIs, numBound, ?_, ?_⟩
    · dsimp only [Bool.false_eq_true, if_false]
      split
      · exact (eq_zero_iff_toNat _).mp rfl
      · exact denIs
    · dsimp only [Bool.false_eq_true, if_false]
      split
      · exact Nat.two_pow_pos _
      · exact denBound

theorem exactRank_eq : candidate.exactRank mark =
    if (candidate.exactParts mark).2 = 0 then (⊥ : WithBot ℚ)
    else ((((candidate.exactParts mark).1 : ℚ) / (candidate.exactParts mark).2 : ℚ) : WithBot ℚ) := by
  have clamped : ∀ x : Int, ((max x 0 : Int) : ℚ) = ((max x 0).toNat : ℚ) := by
    intro x
    rw [← Int.cast_natCast, Int.toNat_of_nonneg (le_max_right x 0)]
  unfold AdlCandidate.exactRank AdlCandidate.exactParts
  by_cases valued : candidate.accountValue ≤ 0
  · simp [valued]
  have value : (candidate.accountValue : ℚ) = ((max candidate.accountValue 0).toNat : ℚ) := by
    rw [← clamped, max_eq_left (by omega)]
  have valuePos : (max candidate.accountValue 0).toNat ≠ 0 := by omega
  rw [value]
  simp only [clamped]
  cases candidate.isLong with
  | true =>
    simp only [if_true, valued, false_or, if_false, Nat.cast_eq_zero, Nat.mul_eq_zero, valuePos,
      or_false, Nat.cast_mul]
    rw [div_mul_div_comm]
  | false =>
    simp only [Bool.false_eq_true, if_false, valued, false_or, Nat.cast_eq_zero, Nat.mul_eq_zero,
      valuePos, or_false, Nat.cast_mul]
    rw [div_mul_div_comm]

theorem compare_of_iff {α β : Type} [LinearOrder α] [LinearOrder β] {w x : α} {y z : β}
    (below : w < x ↔ y < z) (above : x < w ↔ z < y) : compare w x = compare y z := by
  rcases lt_trichotomy w x with less | same | more
  · rw [compare_lt_iff_lt.mpr less, compare_lt_iff_lt.mpr (below.mp less)]
  · have other : y = z := by
      apply le_antisymm
      · exact not_lt.mp fun more => same.not_gt (above.mpr more)
      · exact not_lt.mp fun less => same.not_lt (below.mpr less)
    rw [compare_eq_iff_eq.mpr same, compare_eq_iff_eq.mpr other]
  · rw [compare_gt_iff_gt.mpr more, compare_gt_iff_gt.mpr (above.mp more)]

theorem compare_cross {an ad bn bd : Nat} (aPos : ad ≠ 0) (bPos : bd ≠ 0) :
    compare (bn * ad) (an * bd) =
      compare (((bn : ℚ) / bd : ℚ) : WithBot ℚ) (((an : ℚ) / ad : ℚ) : WithBot ℚ) := by
  have aRat : (0 : ℚ) < ad := by exact_mod_cast Nat.pos_of_ne_zero aPos
  have bRat : (0 : ℚ) < bd := by exact_mod_cast Nat.pos_of_ne_zero bPos
  apply compare_of_iff
  · rw [WithBot.coe_lt_coe, div_lt_div_iff₀ bRat aRat]
    exact_mod_cast Iff.rfl
  · rw [WithBot.coe_lt_coe, div_lt_div_iff₀ aRat bRat]
    exact_mod_cast Iff.rfl

variable (marked : mark ≤ maxRaw)
include marked

theorem adlCompare_eq (aRange : a.InRange) (bRange : b.InRange) :
    adlCompare (a.rankParts mark, a) (b.rankParts mark, b) =
      (compare (b.exactRank mark) (a.exactRank mark)).then (compare a.trader b.trader) := by
  obtain ⟨aNum, aNumBound, aDen, aDenBound⟩ := rankParts_exact marked aRange
  obtain ⟨bNum, bNumBound, bDen, bDenBound⟩ := rankParts_exact marked bRange
  unfold adlCompare
  simp only [eq_zero_iff_toNat, aDen, bDen, exactRank_eq]
  by_cases aZero : (a.exactParts mark).2 = 0
  · by_cases bZero : (b.exactParts mark).2 = 0
    · simp [aZero, bZero]
    · have above : compare
          ((((b.exactParts mark).1 : ℚ) / (b.exactParts mark).2 : ℚ) : WithBot ℚ) ⊥ = .gt :=
        compare_gt_iff_gt.mpr (WithBot.bot_lt_coe _)
      simp [aZero, bZero, above]
  · by_cases bZero : (b.exactParts mark).2 = 0
    · have below : compare ⊥
          ((((a.exactParts mark).1 : ℚ) / (a.exactParts mark).2 : ℚ) : WithBot ℚ) = .lt :=
        compare_lt_iff_lt.mpr (WithBot.bot_lt_coe _)
      simp [aZero, bZero, below]
    · have first := (toNat_mul_exact bNum aDen bNumBound aDenBound (by decide)).1
      have second := (toNat_mul_exact aNum bDen aNumBound bDenBound (by decide)).1
      simp only [aZero, bZero, decide_false, if_false, first, second]
      rw [compare_cross aZero bZero]

theorem adlCompare_lt (aRange : a.InRange) (bRange : b.InRange) :
    adlCompare (a.rankParts mark, a) (b.rankParts mark, b) = .lt ↔
      a.rankKey mark < b.rankKey mark := by
  rw [adlCompare_eq marked aRange bRange, Ordering.then_eq_lt, compare_lt_iff_lt, compare_eq_iff_eq,
    compare_lt_iff_lt, AdlCandidate.rankKey, AdlCandidate.rankKey, Prod.Lex.toLex_lt_toLex]
  simp only [OrderDual.toDual_lt_toDual, OrderDual.toDual_inj, eq_comm]

theorem adlCompare_gt (aRange : a.InRange) (bRange : b.InRange) :
    adlCompare (a.rankParts mark, a) (b.rankParts mark, b) = .gt ↔
      b.rankKey mark < a.rankKey mark := by
  rw [adlCompare_eq marked aRange bRange, Ordering.then_eq_gt, compare_gt_iff_gt, compare_eq_iff_eq,
    compare_gt_iff_gt, AdlCandidate.rankKey, AdlCandidate.rankKey, Prod.Lex.toLex_lt_toLex]
  simp only [OrderDual.toDual_lt_toDual, OrderDual.toDual_inj]

theorem adlRank_eq {cands : List AdlCandidate} (range : ∀ candidate ∈ cands, candidate.InRange) :
    adlRank mark cands =
      cands.mergeSort fun a b => decide (a.rankKey mark ≤ b.rankKey mark) := by
  have unkeyed : (cands.map fun candidate => (candidate.rankParts mark, candidate)).map Prod.snd =
      cands := by
    rw [List.map_map]
    exact List.map_id' cands
  unfold adlRank
  dsimp only
  rw [List.map_mergeSort (s := fun a b => decide (a.rankKey mark ≤ b.rankKey mark)), unkeyed]
  · intro first inFirst second inSecond
    obtain ⟨a, aIn, rfl⟩ := List.mem_map.mp inFirst
    obtain ⟨b, bIn, rfl⟩ := List.mem_map.mp inSecond
    rw [decide_eq_decide, ne_eq, adlCompare_gt marked (range a aIn) (range b bIn), not_lt]

theorem adlRank_sorted {cands : List AdlCandidate} (range : ∀ candidate ∈ cands, candidate.InRange)
    (distinct : (cands.map AdlCandidate.trader).Nodup) :
    (adlRank mark cands).Perm cands ∧
      (adlRank mark cands).Pairwise fun a b => a.rankKey mark < b.rankKey mark := by
  rw [adlRank_eq marked range]
  have perm := List.mergeSort_perm cands fun a b => decide (a.rankKey mark ≤ b.rankKey mark)
  refine ⟨perm, ?_⟩
  have sorted := @List.pairwise_mergeSort AdlCandidate
    (fun a b => decide (a.rankKey mark ≤ b.rankKey mark))
    (fun a b c first second => by
      simp only [decide_eq_true_eq] at first second ⊢
      exact first.trans second)
    (fun a b => by simpa using le_total (a.rankKey mark) (b.rankKey mark)) cands
  have apart : (cands.mergeSort fun a b => decide (a.rankKey mark ≤ b.rankKey mark)).Pairwise
      fun a b => a.trader ≠ b.trader := by
    have nodup := (perm.map AdlCandidate.trader).nodup_iff.mpr distinct
    exact List.pairwise_map.mp nodup
  refine (sorted.and apart).imp ?_
  intro a b both
  have below : a.rankKey mark ≤ b.rankKey mark := of_decide_eq_true both.1
  apply lt_of_le_of_ne below
  intro same
  exact both.2 (congrArg (fun key => (ofLex key).2) same)

end Exact

end TorusHyperBft.Account
