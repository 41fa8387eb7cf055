import Mathlib

namespace TorusHyperBft.Tally

open List

/-! Counting the weight of members whose signatures stand at the members' own places.

A signature set has a slot for every member, in the members' order. -/

universe u v

variable {κ : Type u} {σ : Type v}

def signedPower : List (Option σ) → List (κ × Nat) → Nat
  | some _ :: slots, member :: members => member.2 + signedPower slots members
  | none :: slots, _ :: members => signedPower slots members
  | _, _ => 0

/-- Check each filled slot at its place and add up the weights; a bad signature ends the
count without a result. -/
def count (check : Nat → κ → σ → Bool) (place total : Nat) :
    List (Option σ) → List (κ × Nat) → Option Nat
  | some signature :: slots, member :: members =>
    if check place member.1 signature then
      count check (place + 1) (total + member.2) slots members
    else none
  | none :: slots, _ :: members => count check (place + 1) total slots members
  | _, _ => some total

variable {member : κ × Nat}

section Count

variable {check : Nat → κ → σ → Bool} {place total sum : Nat} {slots : List (Option σ)}
  {members : List (κ × Nat)}

/-- Every signature in a slot checks for the member at its place. -/
def Checked (check : Nat → κ → σ → Bool) (place : Nat) (slots : List (Option σ))
    (members : List (κ × Nat)) : Prop :=
  ∀ (index : Nat) (signature : σ) (member : κ × Nat), slots[index]? = some (some signature) →
    members[index]? = some member → check (place + index) member.1 signature = true

theorem checked_cons_none : Checked check place (none :: slots) (member :: members) ↔
      Checked check (place + 1) slots members := by
  constructor
  · intro checked index signature other filled found
    have later := checked (index + 1) signature other (by simpa using filled) (by simpa using found)
    rwa [← Nat.add_assoc, Nat.add_right_comm] at later
  · intro checked index signature other filled found
    cases index with
    | zero => simp at filled
    | succ index =>
      have later := checked index signature other (by simpa using filled) (by simpa using found)
      rwa [Nat.add_right_comm] at later

theorem checked_cons_some {signature : σ} :
    Checked check place (some signature :: slots) (member :: members) ↔
      check place member.1 signature = true ∧ Checked check (place + 1) slots members := by
  constructor
  · intro checked
    refine ⟨checked 0 signature member rfl rfl, fun index other found filled named => ?_⟩
    have later := checked (index + 1) other found (by simpa using filled) (by simpa using named)
    rwa [← Nat.add_assoc, Nat.add_right_comm] at later
  · rintro ⟨first, rest⟩ index other found filled named
    cases index with
    | zero =>
      simp only [List.getElem?_cons_zero, Option.some.injEq] at filled named
      subst filled named
      exact first
    | succ index =>
      have later := rest index other found (by simpa using filled) (by simpa using named)
      rwa [Nat.add_right_comm] at later

theorem count_eq_some : count check place total slots members = some sum ↔
    Checked check place slots members ∧ sum = total + signedPower slots members := by
  induction slots generalizing place total members with
  | nil =>
    simp only [count, signedPower, Checked, Option.some.injEq, Nat.add_zero, List.getElem?_nil]
    simp [@eq_comm _ total]
  | cons slot slots ih =>
    cases members with
    | nil =>
      cases slot <;>
        simp only [count, signedPower, Checked, Option.some.injEq, Nat.add_zero,
          List.getElem?_nil] <;>
        simp [@eq_comm _ total]
    | cons member members =>
      cases slot with
      | none => rw [count, ih, checked_cons_none, signedPower]
      | some signature =>
        rw [count, checked_cons_some, signedPower]
        split
        · rename_i good
          rw [ih, Nat.add_assoc]
          simp [good]
        · rename_i bad
          simp [bad]

end Count

section Fill

variable {slots : List (Option σ)} {members : List (κ × Nat)}

theorem signedPower_empty (length : Nat) (members : List (κ × Nat)) :
    signedPower (List.replicate length (none : Option σ)) members = 0 := by
  induction length generalizing members with
  | zero => simp [signedPower]
  | succ length ih => cases members <;> simp [replicate_succ, signedPower, ih]

theorem signedPower_set {index : Nat} (signature : σ)
    (empty : slots[index]? = some none) (named : members[index]? = some member) :
    signedPower (slots.set index (some signature)) members =
      signedPower slots members + member.2 := by
  induction slots generalizing index members with
  | nil => simp at empty
  | cons slot slots ih =>
    cases members with
    | nil => simp at named
    | cons first members =>
      cases index with
      | zero =>
        simp only [List.getElem?_cons_zero, Option.some.injEq] at empty named
        subst empty named
        rw [set_cons_zero, signedPower, signedPower, Nat.add_comm]
      | succ index =>
        have rest := ih (by simpa using empty) (by simpa using named)
        rw [set_cons_succ]
        cases slot with
        | none => rw [signedPower, signedPower, rest]
        | some other => rw [signedPower, signedPower, rest, Nat.add_assoc]

/-- A slot for every member, a good signature in each filled one, and the weight of the signers. -/
structure Tallied (check : Nat → κ → σ → Bool) (members : List (κ × Nat))
    (slots : List (Option σ)) (power : Nat) : Prop where
  length : slots.length = members.length
  checked : Checked check 0 slots members
  power : power = signedPower slots members

theorem tallied_empty (check : Nat → κ → σ → Bool) (members : List (κ × Nat)) :
    Tallied check members (List.replicate members.length none) 0 where
  length := length_replicate
  checked := by
    intro index signature member filled _
    rw [List.getElem?_replicate] at filled
    split at filled <;> simp at filled
  power := (signedPower_empty _ _).symm

theorem Tallied.fill {check check' : Nat → κ → σ → Bool} {power place : Nat} {member : κ × Nat}
    {signature : σ} (tallied : Tallied check members slots power)
    (vacant : slots[place]?.join = none) (named : members[place]? = some member)
    (good : check' place member.1 signature = true)
    (others : ∀ other, other ≠ place → check' other = check other) :
    Tallied check' members (slots.set place (some signature)) (power + member.2) where
  length := by rw [length_set, tallied.length]
  checked := by
    intro index other found filled listed
    by_cases same : index = place
    · subst same
      have inside : index < slots.length := by
        rw [tallied.length]
        exact (List.getElem?_eq_some_iff.mp named).1
      rw [List.getElem?_set_self inside, Option.some.injEq, Option.some.injEq] at filled
      rw [named, Option.some.injEq] at listed
      rw [← filled, ← listed, Nat.zero_add]
      exact good
    · rw [List.getElem?_set_ne (Ne.symm same)] at filled
      have before := tallied.checked index other found filled listed
      rw [Nat.zero_add] at before ⊢
      rw [others index same]
      exact before
  power := by
    have inside : place < slots.length := by
      rw [tallied.length]
      exact (List.getElem?_eq_some_iff.mp named).1
    have empty : slots[place]? = some none := by
      rw [List.getElem?_eq_getElem inside] at vacant ⊢
      exact congrArg some vacant
    rw [signedPower_set signature empty named, tallied.power]

end Fill

section Signers

def signedKeys : List (Option σ) → List κ → List κ
  | some _ :: slots, key :: keys => key :: signedKeys slots keys
  | none :: slots, _ :: keys => signedKeys slots keys
  | _, _ => []

variable {slots : List (Option σ)} {keys : List κ}

theorem signedKeys_sublist : (signedKeys slots keys).Sublist keys := by
  induction slots generalizing keys with
  | nil => simp [signedKeys]
  | cons slot slots ih =>
    cases keys with
    | nil => cases slot <;> simp [signedKeys]
    | cons key keys =>
      cases slot with
      | none => exact ih.cons key
      | some signature => exact ih.cons_cons key

theorem mem_signedKeys {key : κ} (signed : key ∈ signedKeys slots keys) :
    ∃ (place : Nat) (signature : σ), slots[place]? = some (some signature) ∧
      keys[place]? = some key := by
  induction slots generalizing keys with
  | nil => simp [signedKeys] at signed
  | cons slot slots ih =>
    cases keys with
    | nil => cases slot <;> simp [signedKeys] at signed
    | cons first keys =>
      cases slot with
      | none =>
        obtain ⟨place, signature, filled, named⟩ := ih signed
        exact ⟨place + 1, signature, filled, named⟩
      | some signature =>
        rw [signedKeys, mem_cons] at signed
        rcases signed with rfl | signed
        · exact ⟨0, signature, rfl, rfl⟩
        · obtain ⟨place, signature, filled, named⟩ := ih signed
          exact ⟨place + 1, signature, filled, named⟩

theorem exists_outside [DecidableEq κ] {weight : κ → Nat} {few : Finset κ} (distinct : keys.Nodup)
    (more : ∑ key ∈ few, weight key < (keys.map weight).sum) :
    ∃ key ∈ keys, weight key ≠ 0 ∧ key ∉ few := by
  by_contra none
  push Not at none
  have sum : (keys.map weight).sum = ∑ key ∈ keys.toFinset, weight key :=
    (sum_toFinset weight distinct).symm
  have bounded : ∑ key ∈ keys.toFinset, weight key ≤ ∑ key ∈ few, weight key := by
    apply Finset.sum_le_sum_of_ne_zero
    intro key listed heavy
    exact none key (mem_toFinset.mp listed) heavy
  omega

end Signers

section Gather

universe w x

variable {ς : Type u} {ι : Type w} {γ : Type x} {collect : ς → ι → ς × Option γ}

def gather (collect : ς → ι → ς × Option γ) : ς → List ι → List γ
  | _, [] => []
  | state, input :: inputs =>
    (collect state input).2.toList ++ gather collect (collect state input).1 inputs

theorem gather_all {Inv : ς → Prop} {Fed : ι → Prop} {Good : γ → Prop}
    (step : ∀ state input, Inv state → Fed input →
      Inv (collect state input).1 ∧ ∀ out, (collect state input).2 = some out → Good out)
    {inputs : List ι} {state : ς} (start : Inv state) (fed : ∀ input ∈ inputs, Fed input) :
    ∀ out ∈ gather collect state inputs, Good out := by
  induction inputs generalizing state with
  | nil => simp [gather]
  | cons input inputs ih =>
    intro out given
    obtain ⟨kept, good⟩ := step state input start (fed input mem_cons_self)
    rw [gather, mem_append, Option.mem_toList] at given
    rcases given with now | later
    · exact good out now
    · exact ih kept (fun input inside => fed input (mem_cons_of_mem _ inside)) out later

end Gather

end TorusHyperBft.Tally
