import TorusHyperBft.FixedPoint

namespace TorusHyperBft.FixedPoint.Raw

/-! The checked product and quotient as they run on 128-bit words.

A product that fits 128 bits is divided there; any other goes through 256-bit integers of a
library. -/

abbrev I128 := BitVec 128

inductive ArithmeticError where
  | overflow
  | underflow
  | divisionByZero
deriving DecidableEq

def I128.max : I128 := BitVec.intMax 128

def I128.min : I128 := BitVec.intMin 128

def I128.checkedMul (left right : I128) : Option I128 :=
  if left.smulOverflow right then none else some (left * right)

def I128.checkedDiv (left right : I128) : Option I128 :=
  if right = 0 ∨ (left = I128.min ∧ right = -1) then none else some (left.sdiv right)

/-- The 256-bit integers: exact for values below `2 ^ 255`. -/
structure WideInt (ω : Type) where
  value : ω → Int
  ofI128 : I128 → ω
  mul : ω → ω → ω
  div : ω → ω → ω
  lt : ω → ω → Bool
  asI128 : ω → I128
  value_ofI128 : ∀ raw, value (ofI128 raw) = raw.toInt
  value_mul : ∀ left right, (value left * value right).natAbs < 2 ^ 255 →
    value (mul left right) = value left * value right
  value_div : ∀ left right, (value left).natAbs < 2 ^ 255 → value right ≠ 0 →
    value (div left right) = (value left).tdiv (value right)
  lt_iff : ∀ left right, lt left right = true ↔ value left < value right
  toInt_asI128 : ∀ wide, minRaw ≤ value wide → value wide ≤ maxRaw →
    (asI128 wide).toInt = value wide

def scaleRaw : I128 := 100000000#128

variable {ω : Type} (wide : WideInt ω)

def narrow (result : ω) : Except ArithmeticError I128 :=
  if wide.lt (wide.ofI128 I128.max) result || wide.lt result (wide.ofI128 I128.min) then
    .error .overflow
  else .ok (wide.asI128 result)

def checkedMul (left right : I128) : Except ArithmeticError I128 :=
  match left.checkedMul right with
  | some product => .ok (product.sdiv scaleRaw)
  | none =>
    narrow wide
      (wide.div (wide.mul (wide.ofI128 left) (wide.ofI128 right)) (wide.ofI128 scaleRaw))

def checkedDiv (left right : I128) : Except ArithmeticError I128 :=
  if right = 0 then .error .divisionByZero
  else
    match (left.checkedMul scaleRaw).bind fun product => product.checkedDiv right with
    | some quotient => .ok quotient
    | none =>
      narrow wide
        (wide.div (wide.mul (wide.ofI128 left) (wide.ofI128 scaleRaw)) (wide.ofI128 right))

/-- A result holds the integer if it fits, and is the overflow error if not. -/
def Holds (result : Except ArithmeticError I128) (exact : Int) : Prop :=
  (∀ raw, result = .ok raw ↔ raw.toInt = exact) ∧
    ∀ error, result = .error error ↔ error = .overflow ∧ fit exact = none

theorem toInt_bounds (raw : I128) : minRaw ≤ raw.toInt ∧ raw.toInt ≤ maxRaw := by
  have low := raw.le_toInt
  have high := @BitVec.toInt_lt 128 raw
  simp only [minRaw, maxRaw]
  omega

theorem fit_toInt (raw : I128) : fit raw.toInt = some raw.toInt := by
  rw [fit, if_pos (toInt_bounds raw)]

theorem Holds.ok (raw : I128) {exact : Int} (same : raw.toInt = exact) : Holds (.ok raw) exact := by
  constructor
  · intro other
    constructor
    · rintro ⟨⟩
      exact same
    · intro toInt
      rw [← same] at toInt
      rw [BitVec.eq_of_toInt_eq toInt]
  · intro error
    constructor
    · rintro ⟨⟩
    · rintro ⟨-, outside⟩
      rw [← same, fit_toInt] at outside
      cases outside

theorem Holds.overflow {exact : Int} (outside : fit exact = none) :
    Holds (.error .overflow) exact := by
  constructor
  · intro raw
    constructor
    · rintro ⟨⟩
    · intro same
      rw [← same, fit_toInt] at outside
      cases outside
  · intro error
    constructor
    · rintro ⟨⟩
      exact ⟨rfl, outside⟩
    · rintro ⟨rfl, -⟩
      rfl

theorem narrow_holds (result : ω) : Holds (narrow wide result) (wide.value result) := by
  have above := wide.lt_iff (wide.ofI128 I128.max) result
  have below := wide.lt_iff result (wide.ofI128 I128.min)
  have isMax : I128.max.toInt = maxRaw := by decide
  have isMin : I128.min.toInt = minRaw := by decide
  rw [wide.value_ofI128, isMax] at above
  rw [wide.value_ofI128, isMin] at below
  unfold narrow
  split
  · rename_i out
    rw [Bool.or_eq_true, above, below] at out
    apply Holds.overflow
    rw [fit, if_neg (by omega)]
  · rename_i inside
    rw [Bool.or_eq_true, above, below] at inside
    exact Holds.ok _ (wide.toInt_asI128 result (by omega) (by omega))

theorem checkedMul_some {left right product : I128} (small : left.checkedMul right = some product) :
    product.toInt = left.toInt * right.toInt := by
  unfold I128.checkedMul at small
  split at small
  · cases small
  · rename_i fits
    cases small
    simp only [BitVec.smulOverflow, Bool.or_eq_true, decide_eq_true_eq] at fits
    rw [BitVec.toInt_mul]
    apply Int.bmod_eq_of_le_mul_two
    · omega
    · omega

theorem checkedDiv_some {left right quotient : I128}
    (small : left.checkedDiv right = some quotient) :
    quotient.toInt = left.toInt.tdiv right.toInt := by
  unfold I128.checkedDiv at small
  split at small
  · cases small
  · rename_i fits
    cases small
    apply BitVec.toInt_sdiv_of_ne_or_ne
    exact Decidable.not_and_iff_not_or_not.mp (not_or.mp fits).2

theorem natAbs_product_lt (left right : I128) : (left.toInt * right.toInt).natAbs < 2 ^ 255 := by
  have leftBounds := toInt_bounds left
  have rightBounds := toInt_bounds right
  simp only [minRaw, maxRaw] at leftBounds rightBounds
  have product : left.toInt.natAbs * right.toInt.natAbs ≤ 2 ^ 127 * 2 ^ 127 :=
    Nat.mul_le_mul (by omega) (by omega)
  rw [Int.natAbs_mul]
  omega

theorem value_quotient (left right divisor : I128) (nonzero : divisor.toInt ≠ 0) :
    wide.value (wide.div (wide.mul (wide.ofI128 left) (wide.ofI128 right)) (wide.ofI128 divisor)) =
      (left.toInt * right.toInt).tdiv divisor.toInt := by
  have small := natAbs_product_lt left right
  have product := wide.value_mul (wide.ofI128 left) (wide.ofI128 right)
  simp only [wide.value_ofI128] at product
  rw [wide.value_div _ _ (by rw [product small]; exact small)
    (by rw [wide.value_ofI128]; exact nonzero), product small, wide.value_ofI128]

theorem toInt_scaleRaw : scaleRaw.toInt = scale := by decide

theorem checkedMul_holds (left right : I128) :
    Holds (checkedMul wide left right) ((left.toInt * right.toInt).tdiv scale) := by
  unfold checkedMul
  cases small : left.checkedMul right with
  | some product =>
    apply Holds.ok
    have quotient := BitVec.toInt_sdiv_of_ne_or_ne product scaleRaw (.inr (by decide))
    rw [quotient, checkedMul_some small, toInt_scaleRaw]
  | none =>
    have quotient := value_quotient wide left right scaleRaw (by decide)
    rw [toInt_scaleRaw] at quotient
    rw [← quotient]
    exact narrow_holds wide _

theorem checkedDiv_holds {left right : I128} (nonzero : right ≠ 0) :
    Holds (checkedDiv wide left right) ((left.toInt * scale).tdiv right.toInt) := by
  have divisor : right.toInt ≠ 0 := by
    intro zero
    exact nonzero (BitVec.eq_of_toInt_eq zero)
  unfold checkedDiv
  rw [if_neg nonzero]
  cases small : (left.checkedMul scaleRaw).bind fun product => product.checkedDiv right with
  | some quotient =>
    obtain ⟨product, fits, divided⟩ := Option.bind_eq_some_iff.mp small
    apply Holds.ok
    rw [checkedDiv_some divided, checkedMul_some fits, toInt_scaleRaw]
  | none =>
    have quotient := value_quotient wide left scaleRaw right divisor
    rw [toInt_scaleRaw] at quotient
    rw [← quotient]
    exact narrow_holds wide _

/-- Product and quotient are the exact ones truncated toward zero, or an error. -/
theorem checkedMul_checkedDiv_exact (left right : I128) :
    (∀ raw, checkedMul wide left right = .ok raw ↔
      raw.toInt = (left.toInt * right.toInt).tdiv scale) ∧
    (∀ error, checkedMul wide left right = .error error ↔
      error = .overflow ∧ fit ((left.toInt * right.toInt).tdiv scale) = none) ∧
    (∀ raw, checkedDiv wide left right = .ok raw ↔
      right ≠ 0 ∧ raw.toInt = (left.toInt * scale).tdiv right.toInt) ∧
    (∀ error, checkedDiv wide left right = .error error ↔
      right = 0 ∧ error = .divisionByZero ∨
      right ≠ 0 ∧ error = .overflow ∧ fit ((left.toInt * scale).tdiv right.toInt) = none) := by
  obtain ⟨product, tooLarge⟩ := checkedMul_holds wide left right
  refine ⟨product, tooLarge, ?_, ?_⟩
  · intro raw
    rcases Decidable.em (right = 0) with zero | nonzero
    · simp [checkedDiv, zero]
    · rw [(checkedDiv_holds wide nonzero).1 raw]
      exact (and_iff_right nonzero).symm
  · intro error
    rcases Decidable.em (right = 0) with zero | nonzero
    · simp [checkedDiv, zero, eq_comm]
    · rw [(checkedDiv_holds wide nonzero).2 error]
      tauto

/-- The wide integers as words of 256 bits. -/
def i256 : WideInt (BitVec 256) where
  value := BitVec.toInt
  ofI128 raw := raw.signExtend 256
  mul left right := left * right
  div left right := left.sdiv right
  lt left right := left.slt right
  asI128 wide := wide.setWidth 128
  value_ofI128 raw := BitVec.toInt_signExtend_of_le (by decide)
  value_mul left right small := by
    rw [BitVec.toInt_mul]
    exact Int.bmod_eq_of_le_mul_two (by omega) (by omega)
  value_div left right small nonzero := by
    apply BitVec.toInt_sdiv_of_ne_or_ne
    left
    rintro rfl
    exact absurd small (by decide)
  lt_iff left right := BitVec.slt_iff_toInt_lt
  toInt_asI128 wide low high := by
    simp only [minRaw, maxRaw] at low high
    have inside : wide.toInt.bmod (2 ^ 128) = wide.toInt :=
      Int.bmod_eq_of_le_mul_two (by omega) (by omega)
    rw [BitVec.toInt_setWidth, ← inside, BitVec.toInt_eq_toNat_bmod,
      Int.bmod_bmod_of_dvd (by decide)]

/-- Both leave 128 bits: the square of the largest value overflows, its half is found. -/
theorem checkedMul_checkedDiv_exact_largest :
    checkedMul i256 I128.max I128.max = .error .overflow ∧
      checkedDiv i256 I128.max 200000000#128 = .ok (BitVec.ofNat 128 (2 ^ 126 - 1)) :=
  ⟨((checkedMul_checkedDiv_exact i256 _ _).2.1 _).mpr ⟨rfl, by decide⟩,
    ((checkedMul_checkedDiv_exact i256 _ _).2.2.1 _).mpr ⟨by decide, by decide⟩⟩

/-! The operations on raw integers are these, read through `toInt`. -/

theorem Holds.toInt {result : Except ArithmeticError I128} {exact : Int}
    (holds : Holds result exact) : result.toOption.map BitVec.toInt = fit exact := by
  cases result with
  | ok raw =>
    rw [← (holds.1 raw).mp rfl, fit_toInt]
    rfl
  | error error =>
    rw [((holds.2 error).mp rfl).2]
    rfl

theorem toInt_checkedMul (left right : I128) :
    (checkedMul wide left right).toOption.map BitVec.toInt =
      FixedPoint.checkedMul left.toInt right.toInt :=
  (checkedMul_holds wide left right).toInt

theorem toInt_checkedDiv {left right : I128} (nonzero : right ≠ 0) :
    (checkedDiv wide left right).toOption.map BitVec.toInt = fit (div left.toInt right.toInt) :=
  (checkedDiv_holds wide nonzero).toInt

end TorusHyperBft.FixedPoint.Raw
