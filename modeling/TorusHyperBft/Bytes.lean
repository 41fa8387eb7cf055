import Mathlib

namespace TorusHyperBft

open List

/-! Byte strings in lexicographic order, and big-endian numerals of a fixed width. -/

abbrev Byte := Fin 256

abbrev U64 := Fin (2 ^ 64)

-- the numerals of these widths and their lists carry one and the same instance everywhere
instance neZero_256 : NeZero 256 := inferInstance
instance neZero_u16 : NeZero (2 ^ 16) := inferInstance
instance neZero_u32 : NeZero (2 ^ 32) := inferInstance
instance neZero_u64 : NeZero (2 ^ 64) := inferInstance
instance neZero_u160 : NeZero (2 ^ 160) := inferInstance
instance lawfulBEq_bytes : LawfulBEq (List Byte) := inferInstance
instance lawfulBEq_u160 : LawfulBEq (Fin (2 ^ 160)) := inferInstance
instance lawfulBEq_u256 : LawfulBEq (BitVec 256) := inferInstance

namespace U64

def ofNatSaturating (value : Nat) : U64 := ⟨min value (2 ^ 64 - 1), by omega⟩

def saturatingAdd (left right : U64) : U64 := ofNatSaturating (left.val + right.val)

def saturatingSub (left right : U64) : U64 := ofNatSaturating (left.val - right.val)

def saturatingMul (left right : U64) : U64 := ofNatSaturating (left.val * right.val)

@[simp] theorem ofNatSaturating_val (value : Nat) :
    (ofNatSaturating value).val = min value (2 ^ 64 - 1) := rfl

end U64

def toBytes : Nat → Nat → List Byte
  | 0, _ => []
  | width + 1, value =>
    ⟨value / 256 ^ width % 256, Nat.mod_lt _ (by decide)⟩ :: toBytes width (value % 256 ^ width)

@[simp] theorem toBytes_length (width value : Nat) : (toBytes width value).length = width := by
  induction width generalizing value with
  | zero => rfl
  | succ width ih => simp [toBytes, ih]

theorem toBytes_append_lt {width left right : Nat} (leftFits : left < 256 ^ width)
    (rightFits : right < 256 ^ width) {leftTail rightTail : List Byte} :
    toBytes width left ++ leftTail < toBytes width right ++ rightTail ↔
      left < right ∨ (left = right ∧ leftTail < rightTail) := by
  induction width generalizing left right with
  | zero =>
    have leftZero : left = 0 := by omega
    have rightZero : right = 0 := by omega
    simp [toBytes, leftZero, rightZero]
  | succ width ih =>
    have positive : 0 < 256 ^ width := Nat.pow_pos (by decide)
    rw [Nat.pow_succ] at leftFits rightFits
    have leftHigh : left / 256 ^ width < 256 := Nat.div_lt_of_lt_mul leftFits
    have rightHigh : right / 256 ^ width < 256 := Nat.div_lt_of_lt_mul rightFits
    have rest := @ih (left % 256 ^ width) (right % 256 ^ width)
      (Nat.mod_lt _ positive) (Nat.mod_lt _ positive)
    have leftSplit := Nat.div_add_mod left (256 ^ width)
    have rightSplit := Nat.div_add_mod right (256 ^ width)
    have leftLow := Nat.mod_lt left positive
    have rightLow := Nat.mod_lt right positive
    simp only [toBytes, cons_append, cons_lt_cons_iff, rest, Fin.mk_lt_mk,
      Fin.mk.injEq, Nat.mod_eq_of_lt leftHigh, Nat.mod_eq_of_lt rightHigh]
    rcases Nat.lt_trichotomy (left / 256 ^ width) (right / 256 ^ width) with below | same | above
    · have less : left < right := Nat.lt_of_div_lt_div below
      simp [below, less]
    · rw [same] at leftSplit
      have lows : left % 256 ^ width < right % 256 ^ width ↔ left < right := by omega
      have equals : left % 256 ^ width = right % 256 ^ width ↔ left = right := by omega
      simp [same, lows, equals]
    · have more : right < left := Nat.lt_of_div_lt_div above
      have notBelow : ¬ left / 256 ^ width < right / 256 ^ width := by omega
      have different : left / 256 ^ width ≠ right / 256 ^ width := by omega
      have notLess : ¬ left < right := by omega
      have notSame : left ≠ right := by omega
      simp [notBelow, different, notLess, notSame]

theorem toBytes_append_inj {width left right : Nat} (leftFits : left < 256 ^ width)
    (rightFits : right < 256 ^ width) {leftTail rightTail : List Byte}
    (same : toBytes width left ++ leftTail = toBytes width right ++ rightTail) :
    left = right ∧ leftTail = rightTail := by
  have notBelow := (toBytes_append_lt leftFits rightFits).not.mp (not_lt_of_ge (ge_of_eq same))
  have notAbove := (toBytes_append_lt rightFits leftFits).not.mp (not_lt_of_ge (le_of_eq same))
  have values : left = right := by
    rcases Nat.lt_trichotomy left right with below | is | above
    · exact absurd (.inl below) notBelow
    · exact is
    · exact absurd (.inl above) notAbove
  subst values
  exact ⟨rfl, append_cancel_left same⟩

theorem append_zero_le_iff (key other : List Byte) : key ++ [0] ≤ other ↔ key < other := by
  rw [← not_lt]
  induction key generalizing other with
  | nil =>
    cases other with
    | nil => simp
    | cons byte rest => simp [cons_lt_cons_iff]
  | cons first key ih =>
    cases other with
    | nil => simp
    | cons byte rest =>
      rw [cons_append, cons_lt_cons_iff, cons_lt_cons_iff, ← ih rest]
      rcases lt_trichotomy first byte with below | same | above
      · simp [below, not_lt_of_gt below, ne_of_gt below]
      · simp [same]
      · simp [above, not_lt_of_gt above, ne_of_gt above]

def fromBytes : List Byte → Nat
  | [] => 0
  | byte :: bytes => byte.val * 256 ^ bytes.length + fromBytes bytes

theorem fromBytes_lt (bytes : List Byte) : fromBytes bytes < 256 ^ bytes.length := by
  induction bytes with
  | nil => decide
  | cons byte bytes ih =>
    have high : byte.val * 256 ^ bytes.length + 256 ^ bytes.length ≤ 256 * 256 ^ bytes.length := by
      rw [← Nat.succ_mul]
      exact Nat.mul_le_mul_right _ byte.isLt
    rw [fromBytes, length_cons, Nat.pow_succ, Nat.mul_comm (256 ^ bytes.length)]
    omega

theorem fromBytes_toBytes {width value : Nat} (fits : value < 256 ^ width) :
    fromBytes (toBytes width value) = value := by
  induction width generalizing value with
  | zero => simp [toBytes, fromBytes]; omega
  | succ width ih =>
    have positive : 0 < 256 ^ width := Nat.pow_pos (by decide)
    rw [Nat.pow_succ] at fits
    have high : value / 256 ^ width < 256 := Nat.div_lt_of_lt_mul fits
    rw [toBytes, fromBytes, ih (Nat.mod_lt _ positive), toBytes_length]
    simp only [Nat.mod_eq_of_lt high]
    exact Nat.div_add_mod' value (256 ^ width)

theorem toBytes_fromBytes (bytes : List Byte) : toBytes bytes.length (fromBytes bytes) = bytes := by
  induction bytes with
  | nil => rfl
  | cons byte bytes ih =>
    have positive : 0 < 256 ^ bytes.length := Nat.pow_pos (by decide)
    have low := fromBytes_lt bytes
    have high : (byte.val * 256 ^ bytes.length + fromBytes bytes) / 256 ^ bytes.length = byte.val := by
      rw [Nat.mul_comm, Nat.mul_add_div positive, Nat.div_eq_of_lt low, Nat.add_zero]
    have rest : (byte.val * 256 ^ bytes.length + fromBytes bytes) % 256 ^ bytes.length =
        fromBytes bytes := by
      rw [Nat.mul_comm, Nat.mul_add_mod, Nat.mod_eq_of_lt low]
    rw [length_cons, toBytes, fromBytes, rest, ih]
    congr 1
    apply Fin.ext
    simp only [high]
    exact Nat.mod_eq_of_lt byte.isLt

end TorusHyperBft
