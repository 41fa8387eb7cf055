import Mathlib

namespace TorusHyperBft

/-! Fixed-point decimals with eight implicit places, as raw `i128` units.

Sums and differences that the source writes with plain operators panic on overflow and
are exact here; the checked operations keep their failure case. -/

namespace FixedPoint

def scale : Int := 100000000

def maxRaw : Int := 2 ^ 127 - 1

def minRaw : Int := -2 ^ 127

def fit (raw : Int) : Option Int :=
  if minRaw ≤ raw ∧ raw ≤ maxRaw then some raw else none

theorem fit_eq_some {raw value : Int} :
    fit raw = some value ↔ minRaw ≤ raw ∧ raw ≤ maxRaw ∧ value = raw := by
  unfold fit
  split
  · rename_i within
    simp [within, eq_comm]
  · rename_i outside
    simp only [reduceCtorEq, false_iff]
    exact fun within => outside ⟨within.1, within.2.1⟩

def checkedAdd (left right : Int) : Option Int := fit (left + right)

def checkedSub (left right : Int) : Option Int := fit (left - right)

def checkedMul (left right : Int) : Option Int := fit ((left * right).tdiv scale)

def mul (left right : Int) : Int := (left * right).tdiv scale

/-- The `/` operator, where it does not overflow and the divisor is not zero. -/
def div (left right : Int) : Int := (left * scale).tdiv right

def saturate (raw : Int) : Int := max minRaw (min maxRaw raw)

end FixedPoint

end TorusHyperBft
