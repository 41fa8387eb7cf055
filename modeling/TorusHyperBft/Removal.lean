import Mathlib

namespace TorusHyperBft

open List

/-! Removing the items at given positions of a list, and keeping the others in order. -/

variable {α : Type}

/-- The items that do not stand at one of the positions, counted from `offset`. -/
def dropAt (positions : List Nat) : Nat → List α → List α
  | _, [] => []
  | offset, item :: items =>
    if offset ∈ positions then dropAt positions (offset + 1) items
    else item :: dropAt positions (offset + 1) items

def pickAt (positions : List Nat) : Nat → List α → List α
  | _, [] => []
  | offset, item :: items =>
    if offset ∈ positions then item :: pickAt positions (offset + 1) items
    else pickAt positions (offset + 1) items

section Append

variable {positions : List Nat} {offset : Nat}

theorem dropAt_append (first second : List α) : dropAt positions offset (first ++ second) =
    dropAt positions offset first ++ dropAt positions (offset + first.length) second := by
  induction first generalizing offset with
  | nil => rfl
  | cons item first ih =>
    have next := @ih (offset + 1)
    rw [show offset + 1 + first.length = offset + (item :: first).length by
      rw [length_cons]; omega] at next
    simp only [cons_append, dropAt, next]
    split <;> rfl

theorem pickAt_append (first second : List α) : pickAt positions offset (first ++ second) =
    pickAt positions offset first ++ pickAt positions (offset + first.length) second := by
  induction first generalizing offset with
  | nil => rfl
  | cons item first ih =>
    have next := @ih (offset + 1)
    rw [show offset + 1 + first.length = offset + (item :: first).length by
      rw [length_cons]; omega] at next
    simp only [cons_append, pickAt, next]
    split <;> rfl

theorem pickAt_dropAt_perm (items : List α) :
    (pickAt positions offset items ++ dropAt positions offset items).Perm items := by
  induction items generalizing offset with
  | nil => exact .refl _
  | cons item items ih =>
    simp only [pickAt, dropAt]
    split
    · exact (ih.cons item)
    · exact perm_middle.trans (ih.cons item)

variable {items : List α}

theorem dropAt_congr {others : List Nat}
    (same : ∀ index, offset ≤ index → index < offset + items.length →
      (index ∈ positions ↔ index ∈ others)) :
    dropAt positions offset items = dropAt others offset items := by
  induction items generalizing offset with
  | nil => rfl
  | cons item items ih =>
    rw [length_cons] at same
    have rest := @ih (offset + 1) fun index low high => same index (by omega) (by omega)
    have here := same offset (by omega) (by omega)
    simp only [dropAt, here, rest]

theorem dropAt_outside
    (outside : ∀ position ∈ positions, position < offset ∨ offset + items.length ≤ position) :
    dropAt positions offset items = items := by
  induction items generalizing offset with
  | nil => rfl
  | cons item items ih =>
    rw [length_cons] at outside
    have absent : offset ∉ positions := fun member => by
      have := outside offset member
      omega
    rw [dropAt, if_neg absent, ih fun position member => by
      have := outside position member
      omega]

theorem pickAt_outside
    (outside : ∀ position ∈ positions, position < offset ∨ offset + items.length ≤ position) :
    pickAt positions offset items = [] := by
  have split := (@pickAt_dropAt_perm α positions offset items).length_eq
  rw [dropAt_outside outside, length_append] at split
  exact length_eq_zero_iff.mp (by omega)

theorem pickAt_congr {others : List Nat}
    (same : ∀ index, offset ≤ index → (index ∈ positions ↔ index ∈ others)) :
    pickAt positions offset items = pickAt others offset items := by
  induction items generalizing offset with
  | nil => rfl
  | cons item items ih =>
    have rest := @ih (offset + 1) fun index low => same index (by omega)
    simp only [pickAt, same offset (Nat.le_refl _), rest]

theorem pickAt_filterMap (ascending : positions.Pairwise (· < ·))
    (low : ∀ position ∈ positions, offset ≤ position) :
    pickAt positions offset items = positions.filterMap fun position => items[position - offset]? := by
  induction items generalizing offset positions with
  | nil => simp [pickAt]
  | cons item items ih =>
    have next : ∀ {others : List Nat}, (∀ position ∈ others, offset < position) →
        others.filterMap (fun position => (item :: items)[position - offset]?) =
          others.filterMap fun position => items[position - (offset + 1)]? := by
      intro others above
      refine filterMap_congr fun position member => ?_
      have := above position member
      rw [show position - offset = position - (offset + 1) + 1 by omega, List.getElem?_cons_succ]
    simp only [pickAt]
    split
    · rename_i here
      cases positions with
      | nil => contradiction
      | cons first later =>
        obtain ⟨below, ascendingLater⟩ := pairwise_cons.mp ascending
        have same : first = offset := by
          have := low first mem_cons_self
          rcases mem_cons.mp here with rfl | member
          · rfl
          · have := below offset member
            omega
        subst same
        rw [filterMap_cons, Nat.sub_self, next below, ← ih ascendingLater below,
          List.getElem?_cons_zero]
        refine congrArg (item :: ·) (pickAt_congr fun index above => ?_)
        rw [mem_cons]
        exact or_iff_right (by omega)
    · rename_i absent
      have above : ∀ position ∈ positions, offset < position := fun position member => by
        have := low position member
        rcases Nat.lt_or_ge offset position with less | ge
        · exact less
        · exact absurd ((show offset = position by omega) ▸ member) absent
      rw [next above, ih ascending above]

theorem dropAt_filter {keep : α → Bool} (same : ∀ index item, items[index]? = some item →
      (offset + index ∈ positions ↔ keep item = false)) :
    dropAt positions offset items = items.filter keep := by
  induction items generalizing offset with
  | nil => rfl
  | cons item items ih =>
    have here := same 0 item rfl
    have rest := @ih (offset + 1) fun index other found => by
      have := same (index + 1) other (by rw [List.getElem?_cons_succ]; exact found)
      rwa [show offset + 1 + index = offset + (index + 1) by omega]
    rw [Nat.add_zero] at here
    rw [dropAt, rest]
    by_cases dropped : keep item = false
    · rw [if_pos (here.mpr dropped), filter_cons_of_neg (by rw [dropped]; decide)]
    · rw [if_neg (mt here.mp dropped),
        filter_cons_of_pos (eq_true_of_ne_false dropped)]

theorem dropAt_getElem {index : Nat} (later : ∀ position ∈ positions, offset + index < position) :
    (dropAt positions offset items)[index]? = items[index]? := by
  induction items generalizing offset index with
  | nil => rfl
  | cons item items ih =>
    have absent : offset ∉ positions := fun member => by
      have := later offset member
      omega
    rw [dropAt, if_neg absent]
    cases index with
    | zero => rfl
    | succ index =>
      exact ih fun position member => by
        have := later position member
        omega

theorem dropAt_shift (positive : ∀ position ∈ positions, 0 < position) :
    dropAt (positions.map (· - 1)) offset items = dropAt positions (offset + 1) items := by
  induction items generalizing offset with
  | nil => rfl
  | cons item items ih =>
    have here : offset ∈ positions.map (· - 1) ↔ offset + 1 ∈ positions := by
      rw [mem_map]
      constructor
      · rintro ⟨position, member, same⟩
        have := positive position member
        rwa [show offset + 1 = position by omega]
      · exact fun member => ⟨offset + 1, member, by omega⟩
    simp only [dropAt, here, ih]

end Append

section Erase

variable {position : Nat} {positions : List Nat} {items : List α}

theorem split_at (bound : position < items.length) :
    items = items.take position ++ items[position] :: items.drop (position + 1) := by
  rw [getElem_cons_drop bound, take_append_drop]

variable (bound : position < items.length) (below : ∀ later ∈ positions, position < later)
include bound below

theorem dropAt_later : dropAt positions 0 items =
    items.take position ++ items[position] :: dropAt positions (position + 1)
      (items.drop (position + 1)) := by
  have length : (items.take position).length = position := length_take_of_le (by omega)
  have front : dropAt positions 0 (items.take position) = items.take position :=
    dropAt_outside fun later member => Or.inr (by have := below later member; omega)
  have here : position ∉ positions := fun member => Nat.lt_irrefl _ (below position member)
  conv_lhs => rw [split_at bound]
  rw [dropAt_append, front, length, Nat.zero_add, dropAt, if_neg here]

theorem dropAt_cons : dropAt (position :: positions) 0 items =
    items.take position ++ dropAt positions (position + 1) (items.drop (position + 1)) := by
  have length : (items.take position).length = position := length_take_of_le (by omega)
  have front : dropAt (position :: positions) 0 (items.take position) = items.take position :=
    dropAt_outside fun later member => Or.inr (by
      rcases mem_cons.mp member with rfl | member
      · omega
      · have := below later member
        omega)
  conv_lhs => rw [split_at bound]
  rw [dropAt_append, front, length, Nat.zero_add, dropAt, if_pos mem_cons_self]
  exact congrArg _ (dropAt_congr fun index low _ => by
    rw [mem_cons]
    exact or_iff_right (by omega))

theorem eraseIdx_dropAt :
    (dropAt positions 0 items).eraseIdx position = dropAt (position :: positions) 0 items := by
  have length : (items.take position).length = position := length_take_of_le (by omega)
  rw [dropAt_later bound below, dropAt_cons bound below,
    eraseIdx_append_of_length_le (by omega), length, Nat.sub_self]
  rfl

theorem dropAt_eraseIdx : dropAt (positions.map (· - 1)) 0 (items.eraseIdx position) =
    dropAt (position :: positions) 0 items := by
  have length : (items.take position).length = position := length_take_of_le (by omega)
  have front : dropAt (positions.map (· - 1)) 0 (items.take position) = items.take position :=
    dropAt_outside fun later member => Or.inr (by
      obtain ⟨old, inOld, rfl⟩ := mem_map.mp member
      have := below old inOld
      omega)
  rw [eraseIdx_eq_take_drop_succ, dropAt_append, front, length, Nat.zero_add,
    dropAt_shift fun later member => by have := below later member; omega,
    dropAt_cons bound below]

end Erase

end TorusHyperBft
