import Mathlib

namespace TorusHyperBft.Rows

open List

/-! Totals over the rows of a finite map.

A total changes under an insertion or an erasure only by the weight of the key written. -/

universe u v w

variable {α : Type u} {β : Type v}

def total {M : Type w} [AddCommGroup M] (weight : α → β → M) (rows : AList fun _ : α => β) : M :=
  (rows.entries.map fun row => weight row.1 row.2).sum

variable {rows : AList fun _ : α => β}

theorem total_add {M : Type w} [AddCommGroup M] {weight other : α → β → M} :
    total (fun key value => weight key value + other key value) rows =
      total weight rows + total other rows := by
  unfold total
  exact sum_map_add

theorem total_mul {weight : α → β → Int} (factor : Int) :
    total (fun key value => weight key value * factor) rows = total weight rows * factor := by
  unfold total
  exact sum_map_mul_right ..

variable [DecidableEq α]

section Total

variable {M : Type w} [AddCommGroup M] {weight other : α → β → M}
variable {rows : AList fun _ : α => β} {key : α} {value : β}

def weightAt (weight : α → β → M) (rows : AList fun _ : α => β) (key : α) : M :=
  match rows.lookup key with
  | none => 0
  | some value => weight key value

theorem mem_entries_lookup {row : Sigma fun _ : α => β} (member : row ∈ rows.entries) :
    rows.lookup row.1 = some row.2 :=
  AList.mem_lookup_iff.mpr member

theorem sum_kerase (entries : List (Sigma fun _ : α => β)) (nodup : entries.NodupKeys) :
    (entries.map fun row => weight row.1 row.2).sum =
      (match entries.dlookup key with
        | none => 0
        | some value => weight key value) +
      ((entries.kerase key).map fun row => weight row.1 row.2).sum := by
  induction entries with
  | nil => simp
  | cons row entries ih =>
    obtain ⟨head, headValue⟩ := row
    rw [nodupKeys_cons] at nodup
    by_cases same : key = head
    · subst same
      simp
    · have rest := ih nodup.2
      rw [dlookup_cons_ne _ _ same, kerase_cons_ne same, map_cons, sum_cons,
        rest, map_cons, sum_cons]
      abel

theorem total_erase : total weight rows = weightAt weight rows key + total weight
    (rows.erase key) :=
  sum_kerase rows.entries rows.nodupKeys

theorem total_insert : total weight (rows.insert key value) =
    total weight rows - weightAt weight rows key + weight key value := by
  have written : total weight (rows.insert key value) =
      weight key value + total weight (rows.erase key) := by
    unfold total
    rw [AList.entries_insert, map_cons, sum_cons]
    rfl
  rw [written, @total_erase _ _ _ _ _ weight rows key]
  abel

theorem total_congr (same : ∀ key value, rows.lookup key = some value →
    weight key value = other key value) : total weight rows = total other rows := by
  unfold total
  congr 1
  apply map_congr_left
  intro row member
  exact same row.1 row.2 (mem_entries_lookup member)

theorem total_single (others : ∀ other value, rows.lookup other = some value → other ≠ key →
    weight other value = 0) : total weight rows = weightAt weight rows key := by
  have zero : total weight (rows.erase key) = total (fun _ _ => 0) (rows.erase key) := by
    apply total_congr
    intro other value found
    by_cases same : other = key
    · subst same
      rw [AList.lookup_erase] at found
      cases found
    · rw [AList.lookup_erase_ne same] at found
      exact others other value found same
  rw [@total_erase _ _ _ _ _ weight rows key, zero]
  simp [total]

theorem sum_weightAt (keys : List α) (nodup : keys.Nodup) :
    (keys.map (weightAt weight rows)).sum =
      total (fun key value => if key ∈ keys then weight key value else 0) rows := by
  induction keys with
  | nil => simp [total]
  | cons key keys ih =>
    rw [nodup_cons] at nodup
    have single : total (fun other value => if other = key then weight other value else 0) rows =
        weightAt weight rows key := by
      refine (@total_single _ _ _ _ _ _ rows key ?_).trans (by simp [weightAt])
      intro other value _ apart
      rw [if_neg apart]
    rw [map_cons, sum_cons, ih nodup.2, ← single, ← total_add]
    apply total_congr
    intro other value _
    by_cases same : other = key
    · subst same
      simp [nodup.1]
    · simp [same]

end Total

theorem total_le {weight other : α → β → Int}
    (bound : ∀ key value, rows.lookup key = some value → weight key value ≤ other key value) :
    total weight rows ≤ total other rows := by
  unfold total
  apply sum_le_sum
  intro row member
  exact bound row.1 row.2 (mem_entries_lookup member)

section Nonneg

variable {weight : α → β → Int} {rows : AList fun _ : α => β}

omit [DecidableEq α] in
theorem total_nonneg (nonneg : ∀ key value, 0 ≤ weight key value) : 0 ≤ total weight rows := by
  apply sum_nonneg
  intro value member
  obtain ⟨row, _, rfl⟩ := mem_map.mp member
  exact nonneg _ _

theorem weightAt_le_total (nonneg : ∀ key value, 0 ≤ weight key value) (key : α) :
    weightAt weight rows key ≤ total weight rows := by
  have rest := @total_nonneg _ _ weight (rows.erase key) nonneg
  have split := @total_erase _ _ _ _ _ weight rows key
  omega

theorem le_total (nonneg : ∀ key value, 0 ≤ weight key value) {key : α} {value : β}
    (found : rows.lookup key = some value) : weight key value ≤ total weight rows := by
  have least := @weightAt_le_total _ _ _ weight rows nonneg key
  rw [weightAt, found] at least
  exact least

end Nonneg

end TorusHyperBft.Rows
