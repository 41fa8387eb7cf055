import Mathlib

namespace TorusHyperBft

open List

/-! Amounts cut by floor division in proportion to weights. -/

namespace Proportion

def floorShare (pool whole weight : Nat) : Nat := pool * weight / whole

variable {pool whole : Nat}

theorem sum_floorShare_mul_le (weights : List Nat) :
    (weights.map (floorShare pool whole)).sum * whole ≤ pool * weights.sum := by
  induction weights with
  | nil => simp
  | cons weight weights ih =>
    have first : floorShare pool whole weight * whole ≤ pool * weight := Nat.div_mul_le_self _ _
    rw [map_cons, sum_cons, sum_cons, Nat.add_mul, Nat.mul_add]
    omega

theorem mul_sum_le (positive : 0 < whole) (weights : List Nat) :
    pool * weights.sum ≤ ((weights.map (floorShare pool whole)).sum + weights.length) * whole := by
  induction weights with
  | nil => simp
  | cons weight weights ih =>
    have first : pool * weight < (floorShare pool whole weight + 1) * whole := by
      rw [Nat.mul_comm _ whole]
      exact Nat.lt_mul_div_succ _ positive
    rw [map_cons, sum_cons, sum_cons, length_cons, Nat.mul_add]
    simp only [Nat.add_mul] at first ih ⊢
    omega

theorem sum_floorShare_le (positive : 0 < whole) {weights : List Nat}
    (within : weights.sum ≤ whole) :
    (weights.map (floorShare pool whole)).sum ≤ pool := by
  have bound := @sum_floorShare_mul_le pool whole weights
  have most : pool * weights.sum ≤ pool * whole := Nat.mul_le_mul_left _ within
  exact Nat.le_of_mul_le_mul_right (Nat.le_trans bound most) positive

theorem remainder_le (positive : 0 < whole) {weights : List Nat} {last : Nat}
    (together : weights.sum + last = whole) :
    pool - (weights.map (floorShare pool whole)).sum ≤
      floorShare pool whole last + (weights.length + 1) := by
  have bound := @mul_sum_le pool whole positive (weights ++ [last])
  rw [sum_append, sum_singleton, together, map_append, sum_append,
    length_append] at bound
  have total := Nat.le_of_mul_le_mul_right bound positive
  simp only [map_cons, map_nil, sum_singleton, length_singleton] at total
  omega

theorem floorShare_le (positive : 0 < whole) {weight : Nat} (within : weight ≤ whole) :
    floorShare pool whole weight ≤ pool := by
  have bound : pool * weight ≤ pool * whole := Nat.mul_le_mul_left _ within
  exact Nat.le_trans (Nat.div_le_div_right bound) (Nat.le_of_eq (Nat.mul_div_cancel _ positive))

end Proportion

end TorusHyperBft
