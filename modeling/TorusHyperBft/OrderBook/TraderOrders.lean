import Mathlib

namespace TorusHyperBft.OrderBook

open List

/-! One trader's resting order ids in one book, in the order they came. A long list keeps a map
of positions and leaves holes where ids go, until the holes outnumber the ids. -/

def hole : Nat := 2 ^ 128 - 1

def small : Nat := 32

structure Large where
  pos : Nat → Option Nat
  live : Nat

structure TraderOrders where
  slots : List Nat := []
  large : Option Large := none

namespace TraderOrders

def enterSlots : List Nat → Nat → (Nat → Option Nat) → Nat → Option Nat
  | [], _, pos => pos
  | id :: ids, slot, pos => enterSlots ids (slot + 1) (Function.update pos id (some slot))

def push (orders : TraderOrders) (id : Nat) : TraderOrders :=
  { slots := orders.slots ++ [id]
    large :=
      match orders.large with
      | some large =>
        some ⟨Function.update large.pos id (some orders.slots.length), large.live + 1⟩
      | none =>
        if orders.slots.length = small then
          some ⟨Function.update (enterSlots orders.slots 0 fun _ => none) id (some small), small + 1⟩
        else none }

def rposition (slots : List Nat) (id : Nat) : Option Nat :=
  (List.range slots.length).reverse.find? fun slot => slots[slot]? = some id

def remove (orders : TraderOrders) (id : Nat) : TraderOrders :=
  match orders.large with
  | none =>
    match rposition orders.slots id with
    | some slot => { orders with slots := orders.slots.eraseIdx slot }
    | none => orders
  | some large =>
    match large.pos id with
    | none => orders
    | some slot =>
      let pos := Function.update large.pos id none
      let slots := orders.slots.set slot hole
      let live := large.live - 1
      if small ≤ slots.length ∧ 2 * live < slots.length then
        let slots := slots.filter (· ≠ hole)
        if live ≤ small then ⟨slots, none⟩ else ⟨slots, some ⟨enterSlots slots 0 pos, live⟩⟩
      else ⟨slots, some ⟨pos, live⟩⟩

def len (orders : TraderOrders) : Nat :=
  (orders.large.map Large.live).getD orders.slots.length

def iter (orders : TraderOrders) : List Nat := orders.slots.filter (· ≠ hole)

def intoVec (orders : TraderOrders) : List Nat :=
  if orders.large.isSome then orders.slots.filter (· ≠ hole) else orders.slots

end TraderOrders

inductive TraderOrdersCall where
  | push (id : Nat)
  | remove (id : Nat)

def TraderOrders.step (orders : TraderOrders) : TraderOrdersCall → TraderOrders
  | .push id => orders.push id
  | .remove id => orders.remove id

def vecStep (vec : List Nat) : TraderOrdersCall → List Nat
  | .push id => vec ++ [id]
  | .remove id => vec.erase id

/-- Only new ids are pushed. -/
def PushesFresh : List Nat → List TraderOrdersCall → Prop
  | _, [] => True
  | vec, call :: calls =>
    (∀ id, call = .push id → id ∉ vec ∧ id ≠ hole) ∧ PushesFresh (vecStep vec call) calls

section

variable {slots vec : List Nat} {id other : Nat}

theorem enterSlots_eq (distinct : slots.Nodup) (slot : Nat) (pos : Nat → Option Nat) (id : Nat) :
    TraderOrders.enterSlots slots slot pos id =
      if id ∈ slots then some (slot + slots.idxOf id) else pos id := by
  induction slots generalizing slot pos with
  | nil => simp [TraderOrders.enterSlots]
  | cons first slots ih =>
    obtain ⟨fresh, distinct⟩ := nodup_cons.mp distinct
    rw [TraderOrders.enterSlots, ih distinct]
    by_cases same : id = first
    · simp [same, fresh]
    · by_cases member : id ∈ slots
      · simp [member, same, idxOf_cons_ne _ (Ne.symm same)]
        omega
      · simp [member, same]

/-- A hole in place of an id takes that id alone. -/
theorem set_hole_filter (real : id ≠ hole) (slots : List Nat) :
    (slots.set (slots.idxOf id) hole).filter (· ≠ hole) = (slots.filter (· ≠ hole)).erase id := by
  induction slots with
  | nil => rfl
  | cons first slots ih =>
    by_cases same : first = id
    · simp [same, real]
    · rw [idxOf_cons_ne _ same, set_cons_succ]
      by_cases empty : first = hole
      · simpa [empty] using ih
      · simpa [empty, erase_cons, same] using ih

theorem set_hole_idxOf (different : other ≠ id) (real : other ≠ hole) (slots : List Nat) :
    (slots.set (slots.idxOf id) hole).idxOf other = slots.idxOf other := by
  induction slots with
  | nil => rfl
  | cons first slots ih =>
    by_cases same : first = id
    · subst same
      simp [idxOf_cons_ne _ (Ne.symm different), idxOf_cons_ne _ (Ne.symm real)]
    · rw [idxOf_cons_ne _ same, set_cons_succ, idxOf_cons, idxOf_cons, ih]

theorem eraseIdx_rposition (distinct : slots.Nodup) (id : Nat) :
    (match TraderOrders.rposition slots id with
      | some slot => slots.eraseIdx slot
      | none => slots) = slots.erase id := by
  cases found : TraderOrders.rposition slots id with
  | none =>
    have absent : id ∉ slots := by
      intro member
      obtain ⟨slot, bound, here⟩ := getElem_of_mem member
      have missed := List.find?_eq_none.mp found slot (by simpa using bound)
      simp [bound, here] at missed
    rw [erase_of_not_mem absent]
  | some slot =>
    have here : slots[slot]? = some id := by
      have here := List.find?_some found
      simpa using here
    obtain ⟨bound, value⟩ := List.getElem?_eq_some_iff.mp here
    rw [erase_eq_eraseIdx_of_idxOf]
    rw [← value]
    exact distinct.idxOf_getElem slot bound

/-- The ids a list holds: its slots without the holes. Only a long list has holes, and its map
knows where each id stands. -/
structure Represents (orders : TraderOrders) (vec : List Nat) : Prop where
  distinct : vec.Nodup
  real : hole ∉ vec
  filled : orders.slots.filter (· ≠ hole) = vec
  whole : orders.large = none → orders.slots = vec
  mapped : ∀ large, orders.large = some large → large.live = vec.length ∧
    ∀ id, large.pos id = if id ∈ vec then some (orders.slots.idxOf id) else none

variable {orders : TraderOrders}

theorem Represents.mem_slots (represents : Represents orders vec)
    (real : id ≠ hole) : id ∈ orders.slots ↔ id ∈ vec := by
  rw [← represents.filled, mem_filter]
  simp [real]

theorem Represents.push (represents : Represents orders vec)
    (fresh : id ∉ vec) (real : id ≠ hole) : Represents (orders.push id) (vec ++ [id]) := by
  have absent : id ∉ orders.slots := (represents.mem_slots real).not.mpr fresh
  refine ⟨?_, ?_, ?_, ?_, ?_⟩
  · exact represents.distinct.append (nodup_singleton id) (by simpa using fresh)
  · simpa [real.symm] using represents.real
  · simpa [TraderOrders.push, real] using represents.filled
  · cases longEq : orders.large with
    | some large => simp [TraderOrders.push, longEq]
    | none => simp [TraderOrders.push, represents.whole longEq]
  · have last : (orders.slots ++ [id]).idxOf id = orders.slots.length := by
      simp [idxOf_append_of_notMem absent]
    have entered : ∀ pos : Nat → Option Nat,
        (∀ other, pos other = if other ∈ vec then some (orders.slots.idxOf other) else none) →
        ∀ other, Function.update pos id (some orders.slots.length) other =
          if other ∈ vec ++ [id] then some ((orders.slots ++ [id]).idxOf other) else none := by
      intro pos known other
      by_cases same : other = id
      · simp [same, last]
      · rw [Function.update_of_ne same, known other]
        by_cases member : other ∈ vec
        · have there : other ∈ orders.slots := by
            rw [← represents.filled] at member
            exact mem_of_mem_filter member
          simp [member, idxOf_append_of_mem there]
        · simp [member, same]
    intro large long
    cases longEq : orders.large with
    | some earlier =>
      simp only [TraderOrders.push, longEq, Option.some.injEq] at long
      subst long
      obtain ⟨count, known⟩ := represents.mapped earlier longEq
      exact ⟨by simp [count], entered earlier.pos known⟩
    | none =>
      simp only [TraderOrders.push, longEq] at long
      split at long
      next full =>
          cases long
          have slots := represents.whole longEq
          refine ⟨by simp [← slots, full], full ▸ entered _ fun other => ?_⟩
          rw [enterSlots_eq (slots ▸ represents.distinct), slots, Nat.zero_add]
      next => cases long

theorem Represents.remove {orders : TraderOrders} (represents : Represents orders vec) (id : Nat) :
    Represents (orders.remove id) (vec.erase id) := by
  have distinct := represents.distinct.erase id
  have real : hole ∉ vec.erase id := fun member => represents.real (mem_of_mem_erase member)
  have kept : (vec.erase id).filter (· ≠ hole) = vec.erase id := by
    apply filter_eq_self.mpr
    intro other member
    simpa using ne_of_mem_of_not_mem member real
  cases longEq : orders.large with
  | none =>
    have slots := represents.whole longEq
    have erased := eraseIdx_rposition (slots ▸ represents.distinct) id
    have short : orders.remove id = ⟨vec.erase id, none⟩ := by
      obtain ⟨listed, large⟩ := orders
      cases longEq
      cases slots
      rw [← erased, TraderOrders.remove]
      dsimp only
      cases TraderOrders.rposition listed id <;> rfl
    rw [short]
    exact ⟨distinct, real, kept, fun _ => rfl, nofun⟩
  | some large =>
    obtain ⟨count, known⟩ := represents.mapped large longEq
    rw [TraderOrders.remove, longEq]
    dsimp only
    by_cases member : id ∈ vec
    · have there := ne_of_mem_of_not_mem member represents.real
      have filled := set_hole_filter there orders.slots
      rw [represents.filled] at filled
      have left : large.live - 1 = (vec.erase id).length := by
        rw [count, length_erase_of_mem member]
      have forgotten : ∀ other, Function.update large.pos id none other =
          if other ∈ vec.erase id then some ((orders.slots.set (orders.slots.idxOf id) hole).idxOf other)
          else none := by
        intro other
        by_cases same : other = id
        · simp [same, represents.distinct.not_mem_erase]
        · rw [Function.update_of_ne same, known other]
          by_cases inside : other ∈ vec
          · simp [inside, same, mem_erase_of_ne,
              set_hole_idxOf same (ne_of_mem_of_not_mem inside represents.real)]
          · simp [inside, same, mem_erase_of_ne]
      rw [known id, if_pos member]
      dsimp only
      split
      next =>
          split
          next => exact ⟨distinct, real, by rw [filled, kept], fun _ => filled, nofun⟩
          next =>
              refine ⟨distinct, real, by rw [filled, kept], nofun, ?_⟩
              rintro _ ⟨⟩
              refine ⟨left, fun other => ?_⟩
              dsimp only
              rw [filled, enterSlots_eq distinct, forgotten other, Nat.zero_add]
              split <;> rfl
      next =>
          refine ⟨distinct, real, filled, nofun, ?_⟩
          rintro _ ⟨⟩
          exact ⟨left, forgotten⟩
    · rw [known id, if_neg member, erase_of_not_mem member]
      exact represents

theorem Represents.step (represents : Represents orders vec)
    {call : TraderOrdersCall} (fresh : ∀ id, call = .push id → id ∉ vec ∧ id ≠ hole) :
    Represents (orders.step call) (vecStep vec call) := by
  cases call with
  | push id => exact represents.push (fresh id rfl).1 (fresh id rfl).2
  | remove id => exact represents.remove id

/-- The slots represent the list of ids through every run of calls. -/
theorem Represents.run {orders : TraderOrders} {calls : List TraderOrdersCall}
    (represents : Represents orders vec) (fresh : PushesFresh vec calls) :
    Represents (calls.foldl TraderOrders.step orders) (calls.foldl vecStep vec) := by
  induction calls generalizing orders vec with
  | nil => exact represents
  | cons call calls ih => exact ih (represents.step fresh.1) fresh.2

/-- After any calls the list is the plain one: its ids, their order and their number. -/
theorem traderOrders_refines_vec {calls : List TraderOrdersCall} (fresh : PushesFresh [] calls) :
    (calls.foldl TraderOrders.step {}).iter = calls.foldl vecStep [] ∧
      (calls.foldl TraderOrders.step {}).intoVec = calls.foldl vecStep [] ∧
      (calls.foldl TraderOrders.step {}).len = (calls.foldl vecStep []).length := by
  have empty : Represents {} [] := ⟨nodup_nil, not_mem_nil, rfl, fun _ => rfl, nofun⟩
  have represents := empty.run fresh
  generalize calls.foldl TraderOrders.step {} = orders at represents ⊢
  refine ⟨represents.filled, ?_, ?_⟩
  · cases longEq : orders.large with
    | none => simp [TraderOrders.intoVec, longEq, represents.whole longEq]
    | some large => simpa [TraderOrders.intoVec, longEq] using represents.filled
  · cases longEq : orders.large with
    | none => simp [TraderOrders.len, longEq, represents.whole longEq]
    | some large => simp [TraderOrders.len, longEq, (represents.mapped large longEq).1]

theorem traderOrders_refines_vec_three :
    ([.push 5, .push 7, .remove 5, .remove 9, .push 5].foldl TraderOrders.step {}).iter = [7, 5] :=
  (traderOrders_refines_vec (by simp [PushesFresh, vecStep, hole])).1

/-- A short list has few slots; of the more slots of a long one at least half are in use. -/
structure Packed (orders : TraderOrders) : Prop where
  short : orders.large = none → orders.slots.length ≤ small
  long : ∀ large, orders.large = some large →
    small < orders.slots.length ∧ orders.slots.length ≤ 2 * large.live

theorem Packed.push (packed : Packed orders) (id : Nat) : Packed (orders.push id) := by
  unfold TraderOrders.push
  cases longEq : orders.large with
  | some large =>
    have long := packed.long large longEq
    refine ⟨nofun, ?_⟩
    rintro _ ⟨⟩
    simp only [length_append, length_singleton]
    omega
  | none =>
    have short := packed.short longEq
    dsimp only
    split
    next full =>
      refine ⟨nofun, ?_⟩
      rintro _ ⟨⟩
      simp only [length_append, length_singleton, full]
      omega
    next =>
      refine ⟨fun _ => ?_, nofun⟩
      simp only [length_append, length_singleton]
      omega

theorem Packed.remove {orders : TraderOrders} (packed : Packed orders)
    (represents : Represents orders vec) (id : Nat) : Packed (orders.remove id) := by
  unfold TraderOrders.remove
  cases longEq : orders.large with
  | none =>
    dsimp only
    split
    · exact ⟨fun _ => (length_eraseIdx_le _ _).trans (packed.short longEq), nofun⟩
    · exact packed
  | some large =>
    obtain ⟨count, known⟩ := represents.mapped large longEq
    have long := packed.long large longEq
    dsimp only
    rw [known id]
    by_cases member : id ∈ vec
    · have left : ((orders.slots.set (orders.slots.idxOf id) hole).filter (· ≠ hole)).length =
          large.live - 1 := by
        rw [set_hole_filter (ne_of_mem_of_not_mem member represents.real), represents.filled,
          length_erase_of_mem member, count]
      rw [if_pos member]
      dsimp only
      split
      · split
        · refine ⟨fun _ => ?_, nofun⟩
          rw [left]
          assumption
        · refine ⟨nofun, ?_⟩
          rintro _ ⟨⟩
          dsimp only
          omega
      · refine ⟨nofun, ?_⟩
        rintro _ ⟨⟩
        simp only [length_set] at *
        omega
    · rw [if_neg member]
      exact packed

/-- At least half the slots of a long list stay in use through every run of calls. -/
theorem Packed.run {orders : TraderOrders} {calls : List TraderOrdersCall} (packed : Packed orders)
    (represents : Represents orders vec) (fresh : PushesFresh vec calls) :
    Packed (calls.foldl TraderOrders.step orders) := by
  induction calls generalizing orders vec with
  | nil => exact packed
  | cons call calls ih =>
    refine ih ?_ (represents.step fresh.1) fresh.2
    cases call with
    | push id => exact packed.push id
    | remove id => exact packed.remove represents id

/-- After any calls the slots are at most those of a short list, or two for each id. -/
theorem traderOrders_slots_bounded {calls : List TraderOrdersCall} (fresh : PushesFresh [] calls) :
    (calls.foldl TraderOrders.step {}).slots.length ≤
      max small (2 * (calls.foldl vecStep []).length) := by
  have empty : Represents {} [] := ⟨nodup_nil, not_mem_nil, rfl, fun _ => rfl, nofun⟩
  have start : Packed {} := ⟨fun _ => Nat.zero_le _, nofun⟩
  have packed := start.run empty fresh
  have represents := empty.run fresh
  cases longEq : (calls.foldl TraderOrders.step {}).large with
  | none => exact (packed.short longEq).trans (Nat.le_max_left _ _)
  | some large =>
    rw [← (represents.mapped large longEq).1]
    exact (packed.long large longEq).2.trans (Nat.le_max_right _ _)

theorem traderOrders_slots_bounded_pair :
    ([.push 5, .push 7, .remove 5, .push 5].foldl TraderOrders.step {}).slots.length ≤
      max small (2 * [7, 5].length) :=
  traderOrders_slots_bounded (by simp [PushesFresh, vecStep, hole])

end

end TorusHyperBft.OrderBook
