import TorusHyperBft.OrderBook.Place
import TorusHyperBft.Removal

namespace TorusHyperBft.OrderBook

open List

/-! Cancelling everything a trader has: order by order, or level by level when many orders
of one level go at once. -/

/-- A target's position in its untouched queue and in the output list. -/
structure Target where
  position : Nat
  output : Nat
deriving DecidableEq

def swap {α : Type} (items : List α) (left right : Nat) : List α :=
  match items[left]?, items[right]? with
  | some first, some second => (items.set left second).set right first
  | _, _ => items

/-- The widest gap between targets: how many targets lie before it, and how many survivors
lie outside of it. -/
def endSplit (len : Nat) (targets : List Target) : Nat × Nat :=
  let rec widest (index previous split largest : Nat) : List Target → Nat × Nat
    | [] =>
      let gap := len - previous - 1
      if largest < gap then (index, gap) else (split, largest)
    | target :: rest =>
      let gap := target.position - previous - 1
      let (split, largest) := if largest < gap then (index, gap) else (split, largest)
      widest (index + 1) target.position split largest rest
  match targets with
  | [] => (0, 0)
  | first :: rest =>
    let (split, largest) := widest 1 first.position 0 first.position rest
    (split, len - largest - targets.length)

section Compact

variable {α : Type} (targets : List Target)

def compactFront : Nat → Nat → Nat → List α → List α
  | 0, _, _, queue => queue
  | read + 1, write, target, queue =>
    if 0 < target ∧ (targets[target - 1]?).map Target.position = some read then
      compactFront read write (target - 1) queue
    else compactFront read (write - 1) target (swap queue read (write - 1))

/-- Move survivors behind the gap down to it; `count` slots are left to read. -/
def compactBack : Nat → Nat → Nat → Nat → List α → List α
  | 0, _, _, _, queue => queue
  | count + 1, read, write, target, queue =>
    if target < targets.length ∧ (targets[target]?).map Target.position = some read then
      compactBack count (read + 1) write (target + 1) queue
    else compactBack count (read + 1) (write + 1) target (swap queue read write)

def compactToEnds (queue : List α) (split : Nat) : List α :=
  let queue := match (targets.take split).getLast? with
    | none => queue
    | some last => compactFront targets (last.position + 1) (last.position + 1) split queue
  match targets[split]? with
  | none => queue
  | some first =>
    compactBack targets (queue.length - first.position) first.position first.position split queue

end Compact

inductive Removal where
  | compact (split : Nat)
  | reverse
  | forward
deriving DecidableEq

def chooseRemoval (len : Nat) (targets : List Target) : Removal :=
  let (split, affected) := endSplit len targets
  let forward := (targets.zipIdx.map fun (target, index) =>
    min (target.position - index) (len - 1 - target.position)).sum
  let reverse := (targets.zipIdx.map fun (target, index) =>
    min target.position (len - (targets.length - 1 - index) - 1 - target.position)).sum
  if affected * 3 < min forward reverse then .compact split
  else if reverse < forward then .reverse
  else .forward

abbrev Slots := List (Option Order)

def removeReverse (targets : List Target) (state : Queue × Slots) : Queue × Slots :=
  targets.foldr (fun target state =>
    (state.1.eraseIdx target.position, state.2.set target.output state.1[target.position]?)) state

def removeForward : Nat → List Target → Queue × Slots → Queue × Slots
  | _, [], state => state
  | removed, target :: rest, state =>
    removeForward (removed + 1) rest
      (state.1.eraseIdx (target.position - removed),
        state.2.set target.output state.1[target.position - removed]?)

/-- After compaction the targets stand at both ends and are popped from there. -/
def popEnds (queue : Queue) (front back : Nat) (cancelled : Slots) (outputOf : Nat → Nat) :
    Queue × Slots :=
  let kept := queue.drop front
  let popped := queue.take front ++ (kept.drop (kept.length - back)).reverse
  (kept.take (kept.length - back),
    popped.foldl (fun slots order => slots.set (outputOf order.id) (some order)) cancelled)

def removeTargets (queue : Queue) (targets : List Target) (cancelled : Slots)
    (outputOf : Nat → Nat) : Queue × Slots :=
  match chooseRemoval queue.length targets with
  | .compact split =>
    popEnds (compactToEnds targets queue split) split (targets.length - split) cancelled outputOf
  | .reverse => removeReverse targets (queue, cancelled)
  | .forward => removeForward 0 targets (queue, cancelled)

section Swap

variable {α : Type} {front middle rest : List α} {first second : α}

theorem swap_comm (items : List α) (left right : Nat) :
    swap items left right = swap items right left := by
  unfold swap
  cases atLeft : items[left]? <;> cases atRight : items[right]? <;> try rfl
  by_cases same : left = right
  · subst same
    rw [atLeft] at atRight
    cases atRight
    rfl
  · exact set_comm _ _ same

theorem swap_self (item : α) :
    swap (front ++ item :: rest) front.length front.length = front ++ item :: rest := by
  simp [swap]

theorem swap_apart : swap (front ++ first :: (middle ++ second :: rest)) front.length
      (front.length + 1 + middle.length) = front ++ second :: (middle ++ first :: rest) := by
  have left : (front ++ first :: (middle ++ second :: rest))[front.length]? = some first := by simp
  have right : (front ++ first :: (middle ++ second :: rest))[front.length + 1 + middle.length]? =
      some second := by
    rw [List.getElem?_append_right (by omega),
      show front.length + 1 + middle.length - front.length = middle.length + 1 by omega,
      List.getElem?_cons_succ, List.getElem?_append_right (Nat.le_refl _), Nat.sub_self]
    rfl
  simp only [swap, left, right]
  rw [set_append_right _ _ (Nat.le_refl _), Nat.sub_self, set_cons_zero,
    set_append_right _ _ (by omega),
    show front.length + 1 + middle.length - front.length = middle.length + 1 by omega,
    set_cons_succ, set_append_right _ _ (Nat.le_refl _), Nat.sub_self, set_cons_zero]

end Swap

/-- Targets in the order of the queue. -/
def Ascending (targets : List Target) : Prop :=
  targets.Pairwise fun first second => first.position < second.position

/-- The first `target` targets are those that lie below `bound`. -/
structure Divides (targets : List Target) (target bound : Nat) : Prop where
  within : target ≤ targets.length
  below : ∀ (index : Nat) (entry : Target), targets[index]? = some entry → (index < target ↔ entry.position < bound)

section Divide

variable {targets : List Target} {target read : Nat}

theorem Ascending.getElem (ascending : Ascending targets) {left right : Nat} {first second : Target}
    (atLeft : targets[left]? = some first) (atRight : targets[right]? = some second)
    (less : left < right) : first.position < second.position := by
  obtain ⟨leftBound, rfl⟩ := List.getElem?_eq_some_iff.mp atLeft
  obtain ⟨rightBound, rfl⟩ := List.getElem?_eq_some_iff.mp atRight
  exact pairwise_iff_getElem.mp ascending left right leftBound rightBound less

theorem mem_positions : read ∈ targets.map Target.position ↔
    ∃ (index : Nat) (entry : Target), targets[index]? = some entry ∧ entry.position = read := by
  constructor
  · intro member
    obtain ⟨entry, inTargets, same⟩ := mem_map.mp member
    obtain ⟨index, found⟩ := mem_iff_getElem?.mp inTargets
    exact ⟨index, entry, found, same⟩
  · rintro ⟨index, entry, found, same⟩
    exact mem_map.mpr ⟨entry, mem_of_getElem? found, same⟩

theorem Divides.down (ascending : Ascending targets) (divides : Divides targets target (read + 1))
    (hit : 0 < target ∧ (targets[target - 1]?).map Target.position = some read) :
    Divides targets (target - 1) read ∧ read ∈ targets.map Target.position := by
  obtain ⟨positive, found⟩ := hit
  obtain ⟨last, atLast, same⟩ := Option.map_eq_some_iff.mp found
  have within := divides.within
  refine ⟨⟨by omega, fun index entry atIndex => ?_⟩, mem_positions.mpr ⟨_, last, atLast, same⟩⟩
  have below := divides.below index entry atIndex
  constructor
  · intro less
    have := ascending.getElem atIndex atLast less
    omega
  · intro less
    rcases Nat.lt_or_ge index (target - 1) with earlier | later
    · exact earlier
    · have last : index = target - 1 := by omega
      subst last
      rw [atLast] at atIndex
      cases atIndex
      omega

theorem Divides.down_past (ascending : Ascending targets)
    (divides : Divides targets target (read + 1))
    (miss : ¬ (0 < target ∧ (targets[target - 1]?).map Target.position = some read)) :
    Divides targets target read ∧ read ∉ targets.map Target.position := by
  have within := divides.within
  have absent : ∀ (index : Nat) (entry : Target), targets[index]? = some entry → entry.position ≠ read := by
    intro index entry atIndex same
    have before := (divides.below index entry atIndex).mpr (by omega)
    have bound : target - 1 < targets.length := by omega
    have atLast := List.getElem?_eq_getElem bound
    have below := (divides.below _ _ atLast).mp (by omega)
    rcases Nat.lt_or_ge index (target - 1) with earlier | later
    · have := ascending.getElem atIndex atLast earlier
      omega
    · have last : index = target - 1 := by omega
      subst last
      exact miss ⟨by omega, by rw [atIndex, Option.map_some, same]⟩
  refine ⟨⟨within, fun index entry atIndex => ?_⟩, fun member => ?_⟩
  · have := absent index entry atIndex
    rw [divides.below index entry atIndex]
    omega
  · obtain ⟨index, entry, found, same⟩ := mem_positions.mp member
    exact absent index entry found same

theorem Divides.up (ascending : Ascending targets) (divides : Divides targets target read)
    (hit : target < targets.length ∧ (targets[target]?).map Target.position = some read) :
    Divides targets (target + 1) (read + 1) ∧ read ∈ targets.map Target.position := by
  obtain ⟨bound, found⟩ := hit
  obtain ⟨first, atFirst, same⟩ := Option.map_eq_some_iff.mp found
  refine ⟨⟨bound, fun index entry atIndex => ?_⟩, mem_positions.mpr ⟨_, first, atFirst, same⟩⟩
  have below := divides.below index entry atIndex
  constructor
  · intro less
    rcases Nat.lt_or_ge index target with earlier | later
    · omega
    · have here : index = target := by omega
      subst here
      rw [atFirst] at atIndex
      cases atIndex
      omega
  · intro less
    by_contra later
    have := ascending.getElem atFirst atIndex (by omega)
    omega

theorem Divides.up_past (ascending : Ascending targets) (divides : Divides targets target read)
    (miss : ¬ (target < targets.length ∧ (targets[target]?).map Target.position = some read)) :
    Divides targets target (read + 1) ∧ read ∉ targets.map Target.position := by
  have absent : ∀ (index : Nat) (entry : Target), targets[index]? = some entry → entry.position ≠ read := by
    intro index entry atIndex same
    have notBefore := mt (divides.below index entry atIndex).mp (by omega)
    obtain ⟨indexBound, _⟩ := List.getElem?_eq_some_iff.mp atIndex
    have bound : target < targets.length := by omega
    have atFirst := List.getElem?_eq_getElem bound
    have notBelow := mt (divides.below _ _ atFirst).mpr (by omega)
    rcases Nat.lt_or_ge target index with earlier | later
    · have := ascending.getElem atFirst atIndex earlier
      omega
    · have here : index = target := by omega
      subst here
      exact miss ⟨bound, by rw [atIndex, Option.map_some, same]⟩
  refine ⟨⟨divides.within, fun index entry atIndex => ?_⟩, fun member => ?_⟩
  · have := absent index entry atIndex
    rw [divides.below index entry atIndex]
    omega
  · obtain ⟨index, entry, found, same⟩ := mem_positions.mp member
    exact absent index entry found same

end Divide

section Compaction

variable {α : Type} {targets : List Target} {target : Nat}

theorem compactFront_spec (ascending : Ascending targets) {front cancelled survivors rest : List α}
    (divides : Divides targets target front.length) :
    ∃ moved, moved.Perm (pickAt (targets.map Target.position) 0 front ++ cancelled) ∧
      compactFront targets front.length (front.length + cancelled.length) target
          (front ++ (cancelled ++ (survivors ++ rest))) =
        moved ++ (dropAt (targets.map Target.position) 0 front ++ (survivors ++ rest)) := by
  generalize read : front.length = count at divides
  induction count generalizing front cancelled survivors target with
  | zero =>
    rw [length_eq_zero_iff.mp read]
    exact ⟨cancelled, .refl _, rfl⟩
  | succ count ih =>
    obtain ⟨unread, item, rfl⟩ : ∃ unread item, front = unread ++ [item] :=
      (List.eq_nil_or_concat' front).resolve_left (by rintro rfl; contradiction)
    have length : unread.length = count := by simpa using read
    rw [pickAt_append, dropAt_append, length, Nat.zero_add]
    simp only [pickAt, dropAt, compactFront]
    by_cases hit : 0 < target ∧ (targets[target - 1]?).map Target.position = some count
    · obtain ⟨next, member⟩ := divides.down ascending hit
      obtain ⟨moved, perm, compacted⟩ :=
        @ih _ unread (item :: cancelled) survivors length next
      rw [if_pos hit, if_pos member, if_pos member, append_nil]
      refine ⟨moved, perm.trans ?_, ?_⟩
      · rw [append_assoc]
        exact .refl _
      · rw [← compacted]
        simp only [length_cons, append_assoc, cons_append, nil_append]
        rw [Nat.add_assoc, Nat.add_comm 1]
    · obtain ⟨next, absent⟩ := divides.down_past ascending hit
      rw [if_neg hit, if_neg absent, if_neg absent, append_nil]
      rcases List.eq_nil_or_concat' cancelled with rfl | ⟨others, last, rfl⟩
      · obtain ⟨moved, perm, compacted⟩ := @ih _ unread [] (item :: survivors) length next
        refine ⟨moved, perm, ?_⟩
        have swapped := @swap_self α unread (survivors ++ rest) item
        rw [length] at swapped
        simp only [append_assoc, cons_append, nil_append, length_nil,
          Nat.add_zero, Nat.add_sub_cancel, swapped] at compacted ⊢
        exact compacted
      · -- The survivor changes places with the last of the cancelled.
        obtain ⟨moved, perm, compacted⟩ :=
          @ih _ unread (last :: others) (item :: survivors) length next
        refine ⟨moved, perm.trans ?_, ?_⟩
        · exact (perm_append_singleton last others).symm.append_left _
        · have swapped := @swap_apart α unread others (survivors ++ rest) item last
          rw [length] at swapped
          have place : count + 1 + (others ++ [last]).length - 1 = count + 1 + others.length := by
            simp only [length_append, length_cons, length_nil]
            omega
          have same : count + (last :: others).length = count + 1 + others.length := by
            rw [length_cons]
            omega
          simp only [append_assoc, cons_append, nil_append, place, swapped, same]
            at compacted ⊢
          exact compacted

theorem compactBack_spec (ascending : Ascending targets) {front cancelled rest : List α}
    {read : Nat} (length : read = front.length + cancelled.length)
    (divides : Divides targets target read) :
    ∃ moved, moved.Perm (cancelled ++ pickAt (targets.map Target.position) read rest) ∧
      compactBack targets rest.length read front.length target (front ++ (cancelled ++ rest)) =
        front ++ (dropAt (targets.map Target.position) read rest ++ moved) := by
  induction rest generalizing front cancelled read target with
  | nil => exact ⟨cancelled, by simp [pickAt], by simp [compactBack, dropAt]⟩
  | cons item rest ih =>
    simp only [pickAt, dropAt, compactBack, length_cons]
    by_cases hit : target < targets.length ∧ (targets[target]?).map Target.position = some read
    · obtain ⟨next, member⟩ := divides.up ascending hit
      obtain ⟨moved, perm, compacted⟩ := @ih _ front (cancelled ++ [item]) (read + 1)
        (by rw [length_append, length]; rfl) next
      rw [if_pos hit, if_pos member, if_pos member]
      simp only [append_assoc, cons_append, nil_append] at perm compacted
      exact ⟨moved, perm, compacted⟩
    · obtain ⟨next, absent⟩ := divides.up_past ascending hit
      rw [if_neg hit, if_neg absent, if_neg absent]
      cases cancelled with
      | nil =>
        obtain ⟨moved, perm, compacted⟩ := @ih _ (front ++ [item]) [] (read + 1)
          (by rw [length_append, length]; rfl) next
        refine ⟨moved, perm, ?_⟩
        have same : read = front.length := length
        subst same
        simp only [length_append, length_cons, length_nil, Nat.zero_add,
          append_assoc, cons_append, nil_append, swap_self] at compacted ⊢
        exact compacted
      | cons first others =>
        obtain ⟨moved, perm, compacted⟩ :=
          @ih _ (front ++ [item]) (others ++ [first]) (read + 1) (by
            simp only [length_append, length_cons, length_nil] at length ⊢
            omega) next
        refine ⟨moved, perm.trans ?_, ?_⟩
        · exact (perm_append_singleton first others).append_right _
        · have place : read = front.length + 1 + others.length := by
            rw [length, length_cons]
            omega
          have swapped := @swap_apart α front others rest first item
          rw [← place, swap_comm] at swapped
          simp only [length_append, length_cons, length_nil, Nat.zero_add,
            append_assoc, cons_append, nil_append] at compacted ⊢
          rw [swapped]
          exact compacted

variable {queue : List α} {split : Nat}

theorem Divides.length_filterMap {bound : Nat} (divides : Divides targets split bound)
    (within : bound ≤ queue.length) :
    ((targets.map Target.position).filterMap fun position =>
      (queue.take bound)[position - 0]?).length = split := by
  have length : (queue.take bound).length = bound := length_take_of_le within
  have below : (((targets.take split).map Target.position).filterMap fun position =>
      (queue.take bound)[position - 0]?).length = split := by
    rw [filterMap_length_eq_length.mpr, length_map, length_take_of_le divides.within]
    intro position member
    obtain ⟨index, entry, atIndex, rfl⟩ := mem_positions.mp member
    obtain ⟨indexBound, _⟩ := List.getElem?_eq_some_iff.mp atIndex
    rw [length_take_of_le divides.within] at indexBound
    rw [List.getElem?_take_of_lt indexBound] at atIndex
    have := (divides.below index entry atIndex).mp indexBound
    rw [List.getElem?_eq_getElem (by omega)]
    rfl
  have above : ((targets.drop split).map Target.position).filterMap (fun position =>
      (queue.take bound)[position - 0]?) = [] := by
    refine filterMap_eq_nil_iff.mpr fun position member => ?_
    obtain ⟨index, entry, atIndex, rfl⟩ := mem_positions.mp member
    rw [List.getElem?_drop] at atIndex
    have := mt (divides.below _ entry atIndex).mpr (by omega)
    exact List.getElem?_eq_none (by omega)
  conv_lhs => rw [← take_append_drop split targets]
  rw [map_append, filterMap_append, length_append, above, below]
  rfl

theorem compactFront_stage (ascending : Ascending targets) (within : split ≤ targets.length)
    (bounded : ∀ entry ∈ targets, entry.position < queue.length) :
    ∃ bound moved, bound ≤ queue.length ∧ Divides targets split bound ∧
      moved.Perm (pickAt (targets.map Target.position) 0 (queue.take bound)) ∧
      (match (targets.take split).getLast? with
        | none => queue
        | some last => compactFront targets (last.position + 1) (last.position + 1) split queue) =
        moved ++ (dropAt (targets.map Target.position) 0 (queue.take bound) ++ queue.drop bound) := by
  cases found : (targets.take split).getLast? with
  | none =>
    have none : split = 0 := by
      have := congrArg List.length (List.getLast?_eq_none_iff.mp found)
      rw [length_take, length_nil] at this
      omega
    subst none
    exact ⟨0, [], Nat.zero_le _, ⟨Nat.zero_le _, by simp⟩, by simp [pickAt], by simp [dropAt]⟩
  | some last =>
    have positive : 0 < split := by
      rcases Nat.eq_zero_or_pos split with rfl | positive
      · simp at found
      · exact positive
    have atLast : targets[split - 1]? = some last := by
      rw [List.getLast?_eq_getElem?, length_take_of_le within,
        List.getElem?_take_of_lt (by omega)] at found
      exact found
    have inQueue := bounded last (mem_of_getElem? atLast)
    have divides : Divides targets split (last.position + 1) := by
      refine ⟨within, fun index entry atIndex => ⟨fun less => ?_, fun less => ?_⟩⟩
      · rcases Nat.lt_or_ge index (split - 1) with earlier | later
        · have := ascending.getElem atIndex atLast earlier
          omega
        · rw [show index = split - 1 by omega, atLast] at atIndex
          cases atIndex
          omega
      · by_contra later
        have := ascending.getElem atLast atIndex (by omega)
        omega
    have length : (queue.take (last.position + 1)).length = last.position + 1 :=
      length_take_of_le inQueue
    obtain ⟨moved, perm, compacted⟩ := @compactFront_spec α targets split ascending
      (queue.take (last.position + 1)) [] [] (queue.drop (last.position + 1))
      (by rwa [length])
    rw [length, nil_append, nil_append, take_append_drop] at compacted
    rw [append_nil] at perm
    exact ⟨last.position + 1, moved, inQueue, divides, perm, compacted⟩

theorem compactBack_stage (ascending : Ascending targets) {front rest : List α} {bound : Nat}
    (length : front.length = bound) (divides : Divides targets split bound)
    (bounded : ∀ entry ∈ targets, entry.position < bound + rest.length) :
    ∃ moved, moved.Perm (pickAt (targets.map Target.position) bound rest) ∧
      (match targets[split]? with
        | none => front ++ rest
        | some first => compactBack targets ((front ++ rest).length - first.position)
            first.position first.position split (front ++ rest)) =
        front ++ (dropAt (targets.map Target.position) bound rest ++ moved) := by
  subst length
  cases found : targets[split]? with
  | none =>
    have all : ∀ position ∈ targets.map Target.position, position < front.length ∨
        front.length + rest.length ≤ position := fun position member => by
      obtain ⟨index, entry, atIndex, rfl⟩ := mem_positions.mp member
      obtain ⟨bound, _⟩ := List.getElem?_eq_some_iff.mp atIndex
      have ended := List.getElem?_eq_none_iff.mp found
      exact Or.inl ((divides.below index entry atIndex).mp (by omega))
    exact ⟨[], by rw [pickAt_outside all], by rw [dropAt_outside all, append_nil]⟩
  | some first =>
    have start : front.length ≤ first.position := by
      have := mt (divides.below split first found).mpr (Nat.lt_irrefl _)
      omega
    have inQueue := bounded first (mem_of_getElem? found)
    obtain ⟨middle, back, rfl, length⟩ : ∃ middle back, rest = middle ++ back ∧
        front.length + middle.length = first.position :=
      ⟨rest.take (first.position - front.length), rest.drop (first.position - front.length),
        (take_append_drop _ _).symm, by rw [length_take_of_le (by omega)]; omega⟩
    -- Between the two parts no target lies.
    have beyond : Divides targets split first.position := by
      refine ⟨divides.within, fun index entry atIndex => ⟨fun less => ?_, fun less => ?_⟩⟩
      · exact ascending.getElem atIndex found less
      · by_contra later
        rcases Nat.lt_or_ge split index with after | same
        · have := ascending.getElem found atIndex after
          omega
        · rw [show index = split by omega, found] at atIndex
          cases atIndex
          omega
    have gap : ∀ position ∈ targets.map Target.position, position < front.length ∨
        front.length + middle.length ≤ position := fun position member => by
      obtain ⟨index, entry, atIndex, rfl⟩ := mem_positions.mp member
      rcases Nat.lt_or_ge index split with less | ge
      · exact Or.inl ((divides.below index entry atIndex).mp less)
      · have := mt (beyond.below index entry atIndex).mpr (by omega)
        exact Or.inr (by omega)
    obtain ⟨moved, perm, compacted⟩ := @compactBack_spec α targets split ascending
      (front ++ middle) [] back first.position
      (by rw [length_append, length_nil, length]; rfl) beyond
    refine ⟨moved, ?_, ?_⟩
    · rw [pickAt_append, pickAt_outside gap, length]
      exact perm
    · rw [dropAt_append, dropAt_outside gap, length]
      rw [length_append, length, nil_append, append_assoc, append_assoc]
        at compacted
      rw [append_assoc, ← compacted]
      have count : (front ++ (middle ++ back)).length - first.position = back.length := by
        rw [length_append, length_append]
        omega
      dsimp only
      rw [count]

/-- The kept orders end up together, with the removed ones at both ends. -/
theorem compactToEnds_spec (ascending : Ascending targets) (within : split ≤ targets.length)
    (bounded : ∀ entry ∈ targets, entry.position < queue.length) :
    ∃ front back, front.length = split ∧ back.length = targets.length - split ∧
      (front ++ back).Perm (pickAt (targets.map Target.position) 0 queue) ∧
      compactToEnds targets queue split =
        front ++ (dropAt (targets.map Target.position) 0 queue ++ back) := by
  obtain ⟨bound, front, boundWithin, divides, frontPerm, compacted⟩ :=
    compactFront_stage ascending within bounded
  have length : (queue.take bound).length = bound := length_take_of_le boundWithin
  have both := (@pickAt_dropAt_perm α (targets.map Target.position) 0 (queue.take bound)).length_eq
  rw [length, length_append, ← frontPerm.length_eq] at both
  have split_eq : queue = queue.take bound ++ queue.drop bound := (take_append_drop _ _).symm
  obtain ⟨back, backPerm, done⟩ := @compactBack_stage α targets split ascending
    (front ++ dropAt (targets.map Target.position) 0 (queue.take bound)) (queue.drop bound) bound
    (by rw [length_append, both]) divides (by
      rw [length_drop]
      intro entry member
      have := bounded entry member
      omega)
  have picked : (front ++ back).Perm (pickAt (targets.map Target.position) 0 queue) := by
    conv_rhs => rw [split_eq]
    rw [pickAt_append, length, Nat.zero_add]
    exact frontPerm.append backPerm
  have positions : (targets.map Target.position).Pairwise (· < ·) := pairwise_map.mpr ascending
  have total : (pickAt (targets.map Target.position) 0 queue).length = targets.length := by
    rw [pickAt_filterMap positions fun _ _ => Nat.zero_le _,
      filterMap_length_eq_length.mpr, length_map]
    intro position member
    obtain ⟨entry, inTargets, rfl⟩ := mem_map.mp member
    simp [bounded entry inTargets]
  have frontLength : front.length = split := by
    rw [frontPerm.length_eq, pickAt_filterMap positions fun _ _ => Nat.zero_le _]
    exact divides.length_filterMap boundWithin
  refine ⟨front, back, frontLength, ?_, picked, ?_⟩
  · have := picked.length_eq
    rw [total, length_append] at this
    omega
  · unfold compactToEnds
    dsimp only
    rw [compacted, ← append_assoc, done]
    conv_rhs => rw [split_eq]
    rw [dropAt_append, length, Nat.zero_add, append_assoc, append_assoc]

end Compaction

section Slots

def fillSlots (want : Nat → Option Order) (outputs : List Nat) (slots : Slots) : Slots :=
  outputs.foldl (fun slots output => slots.set output (want output)) slots

variable {want : Nat → Option Order} {outputs : List Nat}

theorem fillSlots_getElem (slots : Slots) (index : Nat) :
    (fillSlots want outputs slots)[index]? =
      if index ∈ outputs then slots[index]?.map fun _ => want index else slots[index]? := by
  induction outputs generalizing slots with
  | nil => rfl
  | cons output outputs ih =>
    have rest := ih (slots.set output (want output))
    rw [fillSlots, foldl_cons, ← fillSlots, rest, List.getElem?_set']
    by_cases same : output = index
    · subst same
      rw [if_pos rfl, if_pos mem_cons_self]
      cases slots[output]? <;> simp
    · rw [if_neg same]
      simp [Ne.symm same]

theorem fillSlots_perm {others : List Nat} (same : outputs.Perm others) (slots : Slots) :
    fillSlots want outputs slots = fillSlots want others slots := by
  refine ext_getElem? fun index => ?_
  simp only [fillSlots_getElem, same.mem_iff]

theorem fillSlots_append (first second : List Nat) (slots : Slots) :
    fillSlots want (first ++ second) slots = fillSlots want second (fillSlots want first slots) :=
  foldl_append

end Slots

/-- The targets stand where the plan says, and each order belongs into its slot. -/
structure Aimed (queue : Queue) (targets : List Target) (want : Nat → Option Order)
    (outputOf : Nat → Nat) : Prop where
  ascending : Ascending targets
  hits : ∀ entry ∈ targets, ∃ order, queue[entry.position]? = some order ∧
    want entry.output = some order ∧ outputOf order.id = entry.output

namespace Aimed

variable {queue : Queue} {targets : List Target} {want : Nat → Option Order}
  {outputOf : Nat → Nat}

theorem bounded (aimed : Aimed queue targets want outputOf) :
    ∀ entry ∈ targets, entry.position < queue.length := by
  intro entry member
  obtain ⟨order, found, _⟩ := aimed.hits entry member
  exact (List.getElem?_eq_some_iff.mp found).1

theorem found (aimed : Aimed queue targets want outputOf) {entry : Target}
    (member : entry ∈ targets) : queue[entry.position]? = want entry.output := by
  obtain ⟨order, found, wanted, _⟩ := aimed.hits entry member
  rw [found, wanted]

theorem tail {entry : Target} (aimed : Aimed queue (entry :: targets) want outputOf) :
    Aimed queue targets want outputOf :=
  ⟨(pairwise_cons.mp aimed.ascending).2, fun later member =>
    aimed.hits later (mem_cons_of_mem _ member)⟩

theorem later {entry : Target} (aimed : Aimed queue (entry :: targets) want outputOf) :
    ∀ position ∈ targets.map Target.position, entry.position < position := by
  intro position member
  obtain ⟨other, inTargets, rfl⟩ := mem_map.mp member
  exact (pairwise_cons.mp aimed.ascending).1 other inTargets

theorem removeReverse (aimed : Aimed queue targets want outputOf) (slots : Slots) :
    OrderBook.removeReverse targets (queue, slots) =
      (dropAt (targets.map Target.position) 0 queue,
        fillSlots want (targets.map Target.output).reverse slots) := by
  induction targets with
  | nil => rw [map_nil, dropAt_outside (by simp)]; rfl
  | cons entry targets ih =>
    have rest := ih aimed.tail
    have bound := aimed.bounded entry mem_cons_self
    have below := aimed.later
    unfold OrderBook.removeReverse at rest ⊢
    rw [foldr_cons, rest]
    dsimp only
    rw [eraseIdx_dropAt bound below, dropAt_getElem (by simpa using below),
      aimed.found mem_cons_self, map_cons, map_cons, reverse_cons,
      fillSlots_append]
    rfl

theorem removeForward {removed : Nat} {untouched : Queue}
    (aimed : Aimed untouched targets want outputOf)
    (low : ∀ entry ∈ targets, removed ≤ entry.position)
    (moved : ∀ entry ∈ targets, queue[entry.position - removed]? = untouched[entry.position]?)
    (slots : Slots) :
    OrderBook.removeForward removed targets (queue, slots) =
      (dropAt (targets.map fun entry => entry.position - removed) 0 queue,
        fillSlots want (targets.map Target.output) slots) := by
  induction targets generalizing removed queue slots with
  | nil => rw [map_nil, dropAt_outside (by simp)]; rfl
  | cons entry targets ih =>
    have here := moved entry mem_cons_self
    have lowest := low entry mem_cons_self
    obtain ⟨order, found, _⟩ := aimed.hits entry mem_cons_self
    have bound : entry.position - removed < queue.length :=
      (List.getElem?_eq_some_iff.mp (here.trans found)).1
    have below : ∀ later ∈ targets, entry.position < later.position :=
      (pairwise_cons.mp aimed.ascending).1
    have rest := @ih (queue.eraseIdx (entry.position - removed)) (removed + 1) aimed.tail
      (fun later member => by have := below later member; omega)
      (fun later member => by
        have := below later member
        rw [List.getElem?_eraseIdx_of_ge (by omega),
          ← moved later (mem_cons_of_mem _ member)]
        congr 1
        omega)
      (slots.set entry.output (want entry.output))
    have shift : targets.map (fun later => later.position - (removed + 1)) =
        (targets.map fun later => later.position - removed).map (· - 1) := by
      rw [map_map]
      rfl
    rw [OrderBook.removeForward]
    dsimp only
    rw [here, aimed.found mem_cons_self, rest, shift, dropAt_eraseIdx bound]
    · rfl
    · intro position member
      obtain ⟨later, inTargets, rfl⟩ := mem_map.mp member
      have := below later inTargets
      omega

theorem popEnds {split : Nat} (aimed : Aimed queue targets want outputOf)
    (within : split ≤ targets.length) (slots : Slots) :
    OrderBook.popEnds (compactToEnds targets queue split) split (targets.length - split) slots
        outputOf =
      (dropAt (targets.map Target.position) 0 queue,
        fillSlots want (targets.map Target.output) slots) := by
  obtain ⟨front, back, frontLength, backLength, perm, compacted⟩ :=
    compactToEnds_spec aimed.ascending within aimed.bounded
  have positions : (targets.map Target.position).Pairwise (· < ·) :=
    pairwise_map.mpr aimed.ascending
  have popped : (front ++ back.reverse).Perm
      (targets.filterMap fun entry => queue[entry.position]?) := by
    rw [pickAt_filterMap positions fun _ _ => Nat.zero_le _, filterMap_map] at perm
    exact ((reverse_perm back).append_left front).trans perm
  have placed : ∀ order ∈ front ++ back.reverse, want (outputOf order.id) = some order := by
    intro order member
    obtain ⟨entry, inTargets, found⟩ := mem_filterMap.mp (popped.mem_iff.mp member)
    obtain ⟨hit, foundHit, wanted, output⟩ := aimed.hits entry inTargets
    rw [foundHit] at found
    cases found
    rw [output, wanted]
  have outputs : ((front ++ back.reverse).map fun order => outputOf order.id).Perm
      (targets.map Target.output) := by
    refine (popped.map _).trans (.of_eq ?_)
    have each : ∀ entry ∈ targets, (queue[entry.position]?).map (fun order => outputOf order.id) =
        some entry.output := by
      intro entry member
      obtain ⟨order, found, _, output⟩ := aimed.hits entry member
      rw [found, Option.map_some, output]
    rw [map_filterMap, filterMap_congr each]
    exact congrFun List.filterMap_eq_map' targets
  have filled : (front ++ back.reverse).foldl
      (fun slots order => slots.set (outputOf order.id) (some order)) slots =
      fillSlots want (targets.map Target.output) slots := by
    rw [← fillSlots_perm outputs, fillSlots, foldl_map]
    exact foldl_ext _ _ _ fun slots order member => by rw [placed order member]
  unfold OrderBook.popEnds
  dsimp only
  rw [compacted, List.drop_left' frontLength, List.take_left' frontLength]
  have survivors : (dropAt (targets.map Target.position) 0 queue ++ back).length -
      (targets.length - split) = (dropAt (targets.map Target.position) 0 queue).length := by
    rw [length_append, backLength, Nat.add_sub_cancel]
  rw [survivors, List.drop_left' rfl, List.take_left' rfl, filled]

end Aimed

theorem endSplit_widest_le (len index previous split largest : Nat) (targets : List Target)
    (within : split ≤ index) :
    (endSplit.widest len index previous split largest targets).1 ≤ index + targets.length := by
  induction targets generalizing index previous split largest with
  | nil =>
    unfold endSplit.widest
    dsimp only
    split <;> simp only [length_nil] <;> omega
  | cons target targets ih =>
    unfold endSplit.widest
    dsimp only
    rw [length_cons]
    split
    · exact Nat.le_trans (ih _ _ _ _ (Nat.le_succ _)) (by omega)
    · exact Nat.le_trans (ih _ _ _ _ (by omega)) (by omega)

theorem endSplit_le (len : Nat) (targets : List Target) :
    (endSplit len targets).1 ≤ targets.length := by
  cases targets with
  | nil => exact Nat.le_refl _
  | cons first rest =>
    have := endSplit_widest_le len 1 first.position 0 first.position rest (Nat.zero_le _)
    rw [length_cons, Nat.add_comm]
    exact this

/-- The targets leave the queue, and each goes to its own output slot. -/
theorem removeTargets_spec {queue : Queue} {targets : List Target} {want : Nat → Option Order}
    {outputOf : Nat → Nat} (aimed : Aimed queue targets want outputOf) (slots : Slots) :
    removeTargets queue targets slots outputOf =
      (dropAt (targets.map Target.position) 0 queue,
        fillSlots want (targets.map Target.output) slots) := by
  unfold removeTargets
  cases chosen : chooseRemoval queue.length targets with
  | compact split =>
    have within : split ≤ targets.length := by
      have := endSplit_le queue.length targets
      unfold chooseRemoval at chosen
      dsimp only at chosen
      split at chosen
      · cases chosen
        exact this
      · split at chosen <;> contradiction
    exact aimed.popEnds within slots
  | reverse =>
    rw [← fillSlots_perm (reverse_perm _)]
    exact aimed.removeReverse slots
  | forward => exact aimed.removeForward (fun _ _ => Nat.zero_le _) (fun _ _ => rfl) slots

/-- The queue keeps its other orders as they stood, and each order that is taken lies in the
slot its target names. -/
structure StablyRemoved (queue : Queue) (targets : List Target) (slots : Slots)
    (outcome : Queue × Slots) : Prop where
  survivors : outcome.1 = dropAt (targets.map Target.position) 0 queue
  taken : ∀ target ∈ targets, outcome.2[target.output]? = some queue[target.position]?
  others : ∀ index ∉ targets.map Target.output, outcome.2[index]? = slots[index]?

/-- Whichever way is chosen, the removal is stable. The source indexes the first target, so there
is one. -/
theorem removeTargets_stablyRemoved {queue : Queue} {targets : List Target} {slots : Slots}
    {outputOf : Nat → Nat} (_nonempty : targets ≠ []) (ascending : Ascending targets)
    (inside : ∀ target ∈ targets, target.position < queue.length ∧ target.output < slots.length)
    (distinct : (targets.map Target.output).Nodup)
    (named : ∀ target ∈ targets, ∀ order, queue[target.position]? = some order →
      outputOf order.id = target.output) :
    StablyRemoved queue targets slots (removeTargets queue targets slots outputOf) := by
  let want := fun output => (targets.find? fun target => target.output = output).bind
    fun target => queue[target.position]?
  have wanted : ∀ target ∈ targets, want target.output = queue[target.position]? := by
    intro target member
    cases found : targets.find? fun other => other.output = target.output with
    | none => simpa using List.find?_eq_none.mp found target member
    | some other =>
      have output := List.find?_some found
      have same := inj_on_of_nodup_map distinct (mem_of_find?_eq_some found) member
        (of_decide_eq_true output)
      simp only [want, found, Option.bind_some, same]
  have aimed : Aimed queue targets want outputOf := by
    refine ⟨ascending, fun target member => ?_⟩
    have found := List.getElem?_eq_getElem (inside target member).1
    exact ⟨_, found, (wanted target member).trans found, named target member _ found⟩
  rw [removeTargets_spec aimed]
  refine ⟨rfl, fun target member => ?_, fun index absent => ?_⟩
  · rw [fillSlots_getElem, if_pos (mem_map_of_mem member), wanted target member,
      List.getElem?_eq_getElem (inside target member).2, Option.map_some]
  · rw [fillSlots_getElem, if_neg absent]

def plainOrder (id : Nat) : Order :=
  { id, trader := 0, side := .buy, price := 1, remainingQty := 1, originalQty := 1,
    orderType := .limit, timeInForce := .gtc, timestamp := 0, reduceOnly := false,
    clientOrderId := none }

theorem removeTargets_stablyRemoved_three :
    StablyRemoved [plainOrder 7, plainOrder 8, plainOrder 9] [⟨0, 1⟩, ⟨2, 0⟩] [none, none]
      (removeTargets [plainOrder 7, plainOrder 8, plainOrder 9] [⟨0, 1⟩, ⟨2, 0⟩] [none, none]
        fun id => if id = 7 then 1 else 0) :=
  removeTargets_stablyRemoved (by decide) (by simp [Ascending]) (by decide) (by decide)
    (by simp [plainOrder])

/-- An order that is listed first but queued last comes back first. -/
theorem removeTargets_not_queueOrder :
    (removeTargets [plainOrder 7, plainOrder 8] [⟨0, 1⟩, ⟨1, 0⟩] [none, none]
        fun id => if id = 7 then 1 else 0).2.reduceOption ≠
      pickAt [0, 1] 0 [plainOrder 7, plainOrder 8] := by
  decide

end TorusHyperBft.OrderBook
