import Mathlib

namespace TorusHyperBft.RoundRobin

open List

/-! Interleaved weighted round robin.

The schedule has a row for each threshold; in the row of a threshold stand the members whose weight
reaches it. Between two weights that follow on each other all rows are the same. -/

universe u

variable {α : Type u}

def row (members : List (α × Nat)) (threshold : Nat) : List (α × Nat) :=
  members.filter fun member => threshold < member.2

def rows (members : List (α × Nat)) (first count : Nat) : List (α × Nat) :=
  (List.range' first count).flatMap (row members)

def maxWeight (members : List (α × Nat)) : Nat := (members.map Prod.snd).foldr max 0

def schedule (members : List (α × Nat)) : List (α × Nat) := rows members 0 (maxWeight members)

def totalWeight (members : List (α × Nat)) : Nat := (members.map Prod.snd).sum

variable {member : α × Nat}

section Rows

variable {members : List (α × Nat)} {first count : Nat}

theorem weight_le_max (inside : member ∈ members) : member.2 ≤ maxWeight members := by
  unfold maxWeight
  induction members with
  | nil => cases inside
  | cons head members ih =>
    rw [map_cons, foldr_cons]
    rcases mem_cons.mp inside with rfl | inside
    · exact Nat.le_max_left _ _
    · exact (ih inside).trans (Nat.le_max_right _ _)

theorem rows_add (first count more : Nat) :
    rows members first (count + more) = rows members first count ++ rows members (first + count) more := by
  unfold rows
  rw [← List.range'_append_1, flatMap_append]

theorem rows_above (above : ∀ member ∈ members, member.2 ≤ first) : rows members first count =
    [] := by
  unfold rows
  rw [flatMap_eq_nil_iff]
  intro threshold inside
  have from_ := (List.mem_range'_1.mp inside).1
  rw [row, filter_eq_nil_iff]
  intro member held
  have bound := above member held
  simp
  omega

theorem rows_segment {level : Nat} (below : first < level)
    (gap : ∀ member ∈ members, member.2 ≤ first ∨ level ≤ member.2) :
    rows members first (level - first) =
      (List.replicate (level - first) (members.filter fun member => level ≤ member.2)).flatten := by
  have same : ∀ threshold ∈ List.range' first (level - first),
      row members threshold = members.filter fun member => level ≤ member.2 := by
    intro threshold inside
    have bounds := List.mem_range'_1.mp inside
    apply filter_congr
    intro member held
    rcases gap member held with low | high
    · simp
      omega
    · simp
      omega
  unfold rows
  rw [flatMap_def, map_congr_left same, List.map_const', List.length_range']

theorem getElem?_replicate_flatten {β : Type u} (copies : Nat) (part : List β) (index : Nat)
    (inside : index < copies * part.length) :
    (List.replicate copies part).flatten[index]? = part[index % part.length]? := by
  induction copies generalizing index with
  | zero =>
    rw [Nat.zero_mul] at inside
    omega
  | succ copies ih =>
    rw [replicate_succ, flatten_cons]
    by_cases here : index < part.length
    · rw [List.getElem?_append_left here, Nat.mod_eq_of_lt here]
    · have past : part.length ≤ index := Nat.le_of_not_lt here
      have within : index - part.length < copies * part.length := by
        rw [Nat.succ_mul] at inside
        omega
      rw [List.getElem?_append_right past, ih _ within, ← Nat.mod_eq_sub_mod past]

end Rows

/-- The member at `index`, `passed` entries of which lie in the rows below `prev`. -/
def walk (members : List (α × Nat)) (index : Nat) : List Nat → Nat → Nat → Option (α × Nat)
  | [], _, _ => none
  | level :: levels, passed, prev =>
    let row := members.filter fun member => level ≤ member.2
    let segment := (level - prev) * row.length
    if index < passed + segment then row[(index - passed) % row.length]?
    else walk members index levels (passed + segment) level

def levels (members : List (α × Nat)) : List Nat :=
  (((members.map Prod.snd).filter (0 < ·)).mergeSort (· ≤ ·)).dedup

theorem levels_sorted (members : List (α × Nat)) : (levels members).Pairwise (· < ·) := by
  have sorted : (((members.map Prod.snd).filter (0 < ·)).mergeSort (· ≤ ·)).Pairwise (· ≤ ·) := by
    have := List.pairwise_mergeSort' (· ≤ ·) ((members.map Prod.snd).filter (0 < ·))
    simpa using this
  have distinct := nodup_dedup (((members.map Prod.snd).filter (0 < ·)).mergeSort (· ≤ ·))
  have ordered := sorted.sublist (dedup_sublist _)
  exact (ordered.and distinct).imp fun both => lt_of_le_of_ne both.1 both.2

theorem mem_levels {members : List (α × Nat)} {level : Nat} :
    level ∈ levels members ↔ 0 < level ∧ ∃ member ∈ members, member.2 = level := by
  unfold levels
  rw [mem_dedup, mem_mergeSort, mem_filter, mem_map]
  simp [and_comm]

theorem walk_eq {members : List (α × Nat)} {index top : Nat} (levels : List Nat) (passed prev : Nat)
    (reached : passed ≤ index) (sorted : (prev :: levels).Pairwise (· < ·))
    (covers : ∀ member ∈ members, member.2 ≤ prev ∨ member.2 ∈ levels)
    (within : ∀ level ∈ levels, level ≤ top) (below : prev ≤ top) :
    walk members index levels passed prev = (rows members prev (top - prev))[index - passed]? := by
  induction levels generalizing passed prev with
  | nil =>
    have above : ∀ member ∈ members, member.2 ≤ prev := by
      intro member held
      rcases covers member held with low | listed
      · exact low
      · cases listed
    rw [rows_above above]
    rfl
  | cons level levels ih =>
    have later := pairwise_cons.mp sorted
    have step := later.1 level mem_cons_self
    have reaches := within level mem_cons_self
    have gap : ∀ member ∈ members, member.2 ≤ prev ∨ level ≤ member.2 := by
      intro member held
      rcases covers member held with low | listed
      · exact .inl low
      · rcases mem_cons.mp listed with same | listed
        · exact .inr (le_of_eq same.symm)
        · exact .inr ((pairwise_cons.mp later.2).1 _ listed).le
    have cut : rows members prev (top - prev) =
        (List.replicate (level - prev) (members.filter fun member => level ≤ member.2)).flatten ++
          rows members level (top - level) := by
      have split : top - prev = (level - prev) + (top - level) := by omega
      have next : prev + (level - prev) = level := by omega
      rw [split, rows_add, rows_segment step gap, next]
    have length : (List.replicate (level - prev)
        (members.filter fun member => level ≤ member.2)).flatten.length =
        (level - prev) * (members.filter fun member => level ≤ member.2).length := by
      simp
    rw [cut, walk]
    split
    · rename_i inside
      rw [List.getElem?_append_left (by rw [length]; omega),
        getElem?_replicate_flatten _ _ _ (by omega)]
    · rename_i past
      rw [List.getElem?_append_right (by rw [length]; omega), length,
        ih _ _ (by omega) later.2 ?_ (fun level listed => within level (mem_cons_of_mem _ listed))
          reaches, Nat.sub_add_eq]
      intro member held
      rcases covers member held with low | listed
      · exact .inl (low.trans step.le)
      · rcases mem_cons.mp listed with same | listed
        · exact .inl (le_of_eq same)
        · exact .inr listed

theorem walk_schedule (members : List (α × Nat)) (index : Nat) :
    walk members index (levels members) 0 0 = (schedule members)[index]? := by
  have walked := @walk_eq _ members index (maxWeight members) (levels members) 0 0 (Nat.zero_le _) ?_ ?_
    ?_ (Nat.zero_le _)
  · rw [walked]
    rfl
  · rw [pairwise_cons]
    exact ⟨fun level listed => (mem_levels.mp listed).1, levels_sorted members⟩
  · intro member held
    rcases Nat.eq_zero_or_pos member.2 with zero | positive
    · exact .inl (le_of_eq zero)
    · exact .inr (mem_levels.mpr ⟨positive, member, held, rfl⟩)
  · intro level listed
    obtain ⟨-, member, held, rfl⟩ := mem_levels.mp listed
    exact weight_le_max held

section Counts

variable {members : List (α × Nat)}

theorem count_rows [DecidableEq α] (member : α × Nat) (count : Nat) :
    (rows members 0 count).count member = min member.2 count * members.count member := by
  induction count with
  | zero => simp [rows]
  | succ count ih =>
    have last : rows members (0 + count) 1 = row members count := by simp [rows]
    rw [rows_add, List.count_append, ih, last, row]
    by_cases reached : count < member.2
    · have bounds : min member.2 (count + 1) = min member.2 count + 1 := by omega
      rw [count_filter (by simpa using reached), bounds, Nat.succ_mul]
    · have bounds : min member.2 (count + 1) = min member.2 count := by omega
      have absent : (members.filter fun member => count < member.2).count member = 0 := by
        rw [count_eq_zero]
        intro listed
        have above := (mem_filter.mp listed).2
        simp at above
        omega
      rw [absent, bounds, Nat.add_zero]

theorem count_schedule [DecidableEq α] (distinct : members.Nodup)
    (inside : member ∈ members) : (schedule members).count member = member.2 := by
  rw [schedule, count_rows, count_eq_one_of_mem distinct inside, Nat.mul_one]
  exact Nat.min_eq_left (weight_le_max inside)

theorem mem_of_mem_schedule (listed : member ∈ schedule members) : member ∈ members := by
  obtain ⟨threshold, -, inside⟩ := mem_flatMap.mp listed
  exact mem_of_mem_filter inside

theorem length_rows (count : Nat) :
    (rows members 0 count).length = (members.map fun member => min member.2 count).sum := by
  induction count with
  | zero => simp [rows]
  | succ count ih =>
    have last : rows members (0 + count) 1 = row members count := by simp [rows]
    have one : ∀ others : List (α × Nat), (others.map fun member => min member.2 (count + 1)).sum =
        (others.map fun member => min member.2 count).sum +
          (others.filter fun member => count < member.2).length := by
      intro others
      induction others with
      | nil => rfl
      | cons member others ih =>
        rw [map_cons, sum_cons, map_cons, sum_cons, ih, filter_cons]
        by_cases reached : count < member.2
        · simp [reached]
          omega
        · simp [reached]
          omega
    rw [rows_add, length_append, ih, last, row, one]

theorem length_schedule : (schedule members).length = totalWeight members := by
  rw [schedule, length_rows, totalWeight]
  congr 1
  apply map_congr_left
  intro member inside
  exact Nat.min_eq_left (weight_le_max inside)

theorem turn_eq_rotate {β : Type u} (entries : List β) (start : Nat) :
    (List.range entries.length).map (fun offset => entries[(start + offset) % entries.length]?) =
      (entries.rotate start).map some := by
  apply ext_getElem?
  intro offset
  rw [List.getElem?_map, List.getElem?_map]
  by_cases inside : offset < entries.length
  · have bound := Nat.mod_lt (start + offset) (Nat.zero_lt_of_lt inside)
    rw [List.getElem?_range inside, List.getElem?_rotate inside, Nat.add_comm offset start,
      Option.map_some, List.getElem?_eq_getElem bound]
    rfl
  · have out : entries.length ≤ offset := Nat.le_of_not_lt inside
    rw [List.getElem?_eq_none (by simpa using out), List.getElem?_eq_none (by simpa using out)]
    rfl

theorem count_turn [DecidableEq α] (distinct : members.Nodup)
    (inside : member ∈ members) (start : Nat) :
    ((List.range (totalWeight members)).map fun offset =>
      (schedule members)[(start + offset) % totalWeight members]?).count (some member) = member.2 := by
  rw [← length_schedule, turn_eq_rotate, count_map_of_injective _ _ (Option.some_injective _),
    (rotate_perm _ _).count_eq, count_schedule distinct inside]

end Counts

end TorusHyperBft.RoundRobin
