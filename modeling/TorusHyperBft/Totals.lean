import Mathlib

namespace TorusHyperBft

open List

/-! Sums of signed quantities per id, over lists of records. -/

def totalFor {α : Type} (idOf : α → Nat) (qtyOf : α → Int) (items : List α) (id : Nat) : Int :=
  (items.map fun item => if idOf item = id then qtyOf item else 0).sum

section TotalFor

variable {α : Type} {idOf : α → Nat} {qtyOf : α → Int} {items others : List α} {item : α} {id : Nat}

@[simp]
theorem totalFor_nil : totalFor idOf qtyOf [] id = 0 := rfl

@[simp]
theorem totalFor_cons : totalFor idOf qtyOf (item :: items) id =
    (if idOf item = id then qtyOf item else 0) + totalFor idOf qtyOf items id := rfl

@[simp]
theorem totalFor_append : totalFor idOf qtyOf (items ++ others) id =
    totalFor idOf qtyOf items id + totalFor idOf qtyOf others id := by
  simp [totalFor]

theorem totalFor_perm (same : items.Perm others) :
    totalFor idOf qtyOf items id = totalFor idOf qtyOf others id :=
  (same.map _).sum_eq

theorem totalFor_absent (absent : id ∉ items.map idOf) : totalFor idOf qtyOf items id = 0 := by
  induction items with
  | nil => rfl
  | cons item items ih =>
    rw [map_cons, mem_cons, not_or] at absent
    rw [totalFor_cons, if_neg (Ne.symm absent.1), ih absent.2, Int.add_zero]

theorem totalFor_nonneg (nonneg : ∀ item ∈ items, 0 ≤ qtyOf item) :
    0 ≤ totalFor idOf qtyOf items id := by
  apply sum_nonneg
  intro part member
  obtain ⟨item, inItems, rfl⟩ := mem_map.mp member
  split
  · exact nonneg item inItems
  · exact Int.le_refl 0

theorem totalFor_unique (nodup : (items.map idOf).Nodup) (member : item ∈ items) :
    totalFor idOf qtyOf items (idOf item) = qtyOf item := by
  induction items with
  | nil => exact absurd member not_mem_nil
  | cons head items ih =>
    rw [map_cons, nodup_cons] at nodup
    rw [totalFor_cons]
    rcases mem_cons.mp member with rfl | member
    · rw [if_pos rfl, totalFor_absent nodup.1, Int.add_zero]
    · have different : idOf head ≠ idOf item := fun same =>
        nodup.1 (same ▸ mem_map_of_mem member)
      rw [if_neg different, ih nodup.2 member, Int.zero_add]

end TotalFor

end TorusHyperBft
