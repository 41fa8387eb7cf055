import TorusHyperBft.Feed.Pass

namespace TorusHyperBft.Feed

open List

/-! What the app has seen over the life of the store: its calls, and where a new
process took over. -/

inductive Entry (Hash Block : Type) where
  | delivered (delivery : Delivery Hash Block)
  | booted
deriving DecidableEq

variable {Hash Block : Type}

def Entry.height? : Entry Hash Block → Option Nat
  | .delivered delivery => some delivery.height
  | .booted => none

def heights (history : List (Entry Hash Block)) : List Nat :=
  history.filterMap Entry.height?

/-- Each delivered height above the first delivered one comes after its predecessor,
and none is below the first. -/
def Preceded (history : List (Entry Hash Block)) : Prop :=
  ∀ before delivery after first, history = before ++ .delivered delivery :: after →
    (heights before).head? = some first →
    first ≤ delivery.height ∧
      (first < delivery.height → delivery.height - 1 ∈ heights before)

/-- Within one process a height that was delivered before is delivered again only ahead
of the new ones. -/
def RedeliveredFirst (history : List (Entry Hash Block)) : Prop :=
  ∀ before new middle later after,
    history = before ++ .delivered new :: (middle ++ .delivered later :: after) →
    .booted ∉ middle → new.height ∉ heights before →
    later.height ∉ heights (before ++ .delivered new :: middle)

/-- A delivery follows the height below it. -/
def Ascending (history : List (Entry Hash Block)) : Prop :=
  ∀ before delivery next after,
    history = before ++ .delivered delivery :: .delivered next :: after →
    next.height = delivery.height + 1

/-- The app took the block in: it was not halted when the callback was over. -/
def Taken (history : List (Entry Hash Block)) (height : Nat) : Prop :=
  ∃ delivery, .delivered delivery ∈ history ∧ delivery.height = height ∧ delivery.halted = false

section Heights

@[simp] theorem heights_nil : heights ([] : List (Entry Hash Block)) = [] := rfl

@[simp] theorem heights_append (left right : List (Entry Hash Block)) :
    heights (left ++ right) = heights left ++ heights right :=
  filterMap_append

@[simp] theorem heights_cons_delivered (delivery : Delivery Hash Block)
    (rest : List (Entry Hash Block)) :
    heights (.delivered delivery :: rest) = delivery.height :: heights rest := rfl

@[simp] theorem heights_cons_booted (rest : List (Entry Hash Block)) :
    heights (.booted :: rest) = heights rest := rfl

variable {history : List (Entry Hash Block)}

theorem mem_heights {height : Nat} :
    height ∈ heights history ↔ ∃ delivery, .delivered delivery ∈ history ∧
      delivery.height = height := by
  simp only [heights, mem_filterMap]
  constructor
  · rintro ⟨entry, member, found⟩
    cases entry with
    | delivered delivery => exact ⟨delivery, member, Option.some.inj found⟩
    | booted => contradiction
  · rintro ⟨delivery, member, rfl⟩
    exact ⟨.delivered delivery, member, rfl⟩

theorem heights_map_delivered (deliveries : List (Delivery Hash Block)) :
    heights (deliveries.map Entry.delivered) = deliveries.map Delivery.height := by
  induction deliveries with
  | nil => rfl
  | cons delivery rest ih => rw [map_cons, heights_cons_delivered, ih, map_cons]

theorem Taken.mem_heights {height : Nat}
    (taken : Taken history height) : height ∈ heights history := by
  obtain ⟨delivery, member, same, _⟩ := taken
  exact Feed.mem_heights.mpr ⟨delivery, member, same⟩

theorem Taken.append {height : Nat}
    (taken : Taken history height) (more : List (Entry Hash Block)) :
    Taken (history ++ more) height := by
  obtain ⟨delivery, member, properties⟩ := taken
  exact ⟨delivery, mem_append_left _ member, properties⟩

end Heights

section Append

variable {history : List (Entry Hash Block)} {delivery : Delivery Hash Block}

private theorem snoc_split {α : Type} {list before after : List α} {entry last : α}
    (split : list ++ [last] = before ++ entry :: after) :
    (∃ rest, after = rest ++ [last] ∧ list = before ++ entry :: rest) ∨
      (after = [] ∧ entry = last ∧ list = before) := by
  rcases eq_nil_or_concat after with rfl | ⟨rest, final, rfl⟩
  · obtain ⟨same, last_eq⟩ := List.append_inj' split rfl
    exact Or.inr ⟨rfl, (List.cons.inj last_eq).1.symm, same⟩
  · rw [concat_eq_append, ← cons_append, ← append_assoc] at split
    obtain ⟨same, last_eq⟩ := List.append_inj' split rfl
    rw [(List.cons.inj last_eq).1]
    exact Or.inl ⟨rest, concat_eq_append, same⟩

theorem Preceded.boot (preceded : Preceded history) : Preceded (history ++ [.booted]) := by
  intro before delivery after first split
  rcases snoc_split split with ⟨rest, _, same⟩ | ⟨_, impossible, _⟩
  · exact preceded before delivery rest first same
  · contradiction

theorem Preceded.deliver (preceded : Preceded history)
    (next : ∀ first, (heights history).head? = some first →
      first ≤ delivery.height ∧
        (first < delivery.height → delivery.height - 1 ∈ heights history)) :
    Preceded (history ++ [.delivered delivery]) := by
  intro before other after first split
  rcases snoc_split split with ⟨rest, _, same⟩ | ⟨_, last, same⟩
  · exact preceded before other rest first same
  · cases last
    exact same ▸ next first

theorem Ascending.boot (ascending : Ascending history) : Ascending (history ++ [.booted]) := by
  intro before delivery next after split
  rcases snoc_split split with ⟨rest, tail, same⟩ | ⟨impossible, _, _⟩
  · cases rest with
    | nil => simp at tail
    | cons entry rest =>
      rw [cons_append] at tail
      obtain ⟨rfl, _⟩ := List.cons.inj tail
      exact ascending before delivery next rest same
  · contradiction

theorem Ascending.deliver (ascending : Ascending history)
    (next : ∀ before last, history = before ++ [.delivered last] →
      delivery.height = last.height + 1) :
    Ascending (history ++ [.delivered delivery]) := by
  intro before first second after split
  rcases snoc_split split with ⟨rest, tail, same⟩ | ⟨impossible, _, _⟩
  · cases rest with
    | nil =>
      obtain ⟨last, _⟩ := List.cons.inj tail
      cases last
      exact next before first same
    | cons entry rest =>
      rw [cons_append] at tail
      obtain ⟨rfl, _⟩ := List.cons.inj tail
      exact ascending before first second rest same
  · contradiction

theorem append_deliveries {deliveries : List (Delivery Hash Block)} {next : Nat}
    (preceded : Preceded history) (ascending : Ascending history)
    (consecutive : deliveries.map Delivery.height = List.range' next deliveries.length)
    (follows : deliveries ≠ [] → ∀ first, (heights history).head? = some first →
      first ≤ next ∧ (first < next → next - 1 ∈ heights history))
    (adjacent : deliveries ≠ [] → ∀ before last, history = before ++ [.delivered last] →
      next = last.height + 1) :
    Preceded (history ++ deliveries.map .delivered) ∧
      Ascending (history ++ deliveries.map .delivered) := by
  induction deliveries generalizing history next with
  | nil => simpa using ⟨preceded, ascending⟩
  | cons delivery rest ih =>
    rw [length_cons, List.range'_succ, map_cons] at consecutive
    obtain ⟨rfl, consecutive⟩ := List.cons.inj consecutive
    have more := ih (preceded.deliver (follows (by simp)))
      (ascending.deliver (adjacent (by simp))) consecutive
      (by
        intro _ first head
        rw [heights_append, List.head?_append] at head
        refine ⟨?_, by simp⟩
        cases earlier : (heights history).head? with
        | none =>
          rw [earlier] at head
          have : delivery.height = first := Option.some.inj head
          omega
        | some found =>
          rw [earlier] at head
          have same : found = first := Option.some.inj head
          have := (follows (by simp) found earlier).1
          omega)
      (by
        intro _ before last split
        obtain ⟨_, entry_eq⟩ := List.append_inj' split rfl
        cases entry_eq
        rfl)
    simpa using more

end Append

section Order

variable {history before after : List (Entry Hash Block)} {first height : Nat}

theorem Preceded.prefix_closed (preceded : Preceded (before ++ after)) : Preceded before := by
  intro start delivery rest first split head
  exact preceded start delivery (rest ++ after) first (by rw [split]; simp) head

theorem Preceded.contiguous (preceded : Preceded history)
    (head : (heights history).head? = some first) (delivered : height ∈ heights history) :
    first ≤ height ∧ ∀ below, first ≤ below → below ≤ height → below ∈ heights history := by
  induction height using Nat.strongRecOn with
  | _ height ih =>
    obtain ⟨delivery, member, rfl⟩ := mem_heights.mp delivered
    obtain ⟨start, rest, split⟩ := append_of_mem member
    cases earlier : (heights start).head? with
    | none =>
      have none_before : heights start = [] := List.head?_eq_none_iff.mp earlier
      have first_eq : delivery.height = first := by
        rw [split, heights_append, none_before] at head
        exact Option.some.inj head
      refine ⟨by omega, fun below lower upper => ?_⟩
      obtain rfl : below = delivery.height := by omega
      exact delivered
    | some found =>
      obtain rfl : found = first := by
        rw [split, heights_append, List.head?_append, earlier] at head
        exact Option.some.inj head
      obtain ⟨lower, predecessor⟩ := preceded start delivery rest found split earlier
      refine ⟨lower, fun below above upper => ?_⟩
      by_cases top : below = delivery.height
      · exact top ▸ delivered
      · have previous : delivery.height - 1 ∈ heights history := by
          rw [split, heights_append]
          exact mem_append_left _ (predecessor (by omega))
        exact (ih (delivery.height - 1) (by omega) previous).2 below above (by omega)

theorem Ascending.within_process {new later : Delivery Hash Block}
    {middle : List (Entry Hash Block)}
    (ascending : Ascending (before ++ .delivered new :: (middle ++ .delivered later :: after)))
    (noBoot : .booted ∉ middle) :
    new.height < later.height ∧ ∀ height ∈ heights middle, height < later.height := by
  induction middle generalizing before new with
  | nil =>
    have step := ascending before new later after rfl
    exact ⟨by omega, by simp⟩
  | cons entry rest ih =>
    cases entry with
    | booted => simp at noBoot
    | delivered delivery =>
      have step := ascending before new delivery (rest ++ .delivered later :: after) rfl
      have onwards := @ih (before ++ [.delivered new]) delivery
        (by simpa using ascending) (fun member => noBoot (mem_cons_of_mem _ member))
      refine ⟨by omega, fun height member => ?_⟩
      rcases mem_cons.mp member with rfl | member
      · exact onwards.1
      · exact onwards.2 height member

theorem redeliveredFirst (preceded : Preceded history) (ascending : Ascending history) :
    RedeliveredFirst history := by
  intro before new middle later after split noBoot unseen
  subst split
  obtain ⟨above, middleBelow⟩ := ascending.within_process noBoot
  -- Heights delivered before the new one lie below it, as they leave no gap.
  have earlierBelow : ∀ height ∈ heights before, height < new.height := by
    intro height member
    obtain ⟨first, head⟩ : ∃ first, (heights before).head? = some first := by
      cases head : (heights before).head? with
      | none => simp [List.head?_eq_none_iff.mp head] at member
      | some first => exact ⟨first, rfl⟩
    obtain ⟨lower, _⟩ := preceded before new _ first rfl head
    have gapless := (preceded.prefix_closed.contiguous head member).2
    by_contra reaches
    exact unseen (gapless new.height lower (by omega))
  intro member
  simp only [heights_append, heights_cons_delivered, mem_append, mem_cons] at member
  rcases member with earlier | same | between
  · have := earlierBelow later.height earlier
    omega
  · omega
  · exact absurd (middleBelow later.height between) (by omega)

end Order

end TorusHyperBft.Feed
