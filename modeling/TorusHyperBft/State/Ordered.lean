import Mathlib

namespace TorusHyperBft

open List

/-! Ordered maps as lists of entries by strictly ascending key. -/

universe u v

variable {κ : Type u} {ν : Type v} [LinearOrder κ]

/-- Each key comes once, in ascending order. -/
def Ascends (entries : List (κ × ν)) : Prop :=
  entries.Pairwise fun left right => left.1 < right.1

namespace Ascends

variable {entries others : List (κ × ν)} {key : κ} {value : ν}

theorem key_unique (ascends : Ascends entries) {left right : κ × ν} (inLeft : left ∈ entries)
    (inRight : right ∈ entries) (same : left.1 = right.1) : left = right := by
  induction entries with
  | nil => cases inLeft
  | cons head entries ih =>
    have later := pairwise_cons.mp ascends
    rcases mem_cons.mp inLeft with rfl | leftLater
    · rcases mem_cons.mp inRight with rfl | rightLater
      · rfl
      · exact absurd same (ne_of_lt (later.1 right rightLater))
    · rcases mem_cons.mp inRight with rfl | rightLater
      · exact absurd same.symm (ne_of_lt (later.1 left leftLater))
      · exact ih later.2 leftLater rightLater

theorem ext (left : Ascends entries) (right : Ascends others)
    (same : ∀ entry, entry ∈ entries ↔ entry ∈ others) : entries = others := by
  have irrefl : Std.Irrefl fun left right : κ × ν => left.1 < right.1 := ⟨fun entry => lt_irrefl _⟩
  have antisymm : Std.Antisymm fun left right : κ × ν => left.1 < right.1 :=
    ⟨fun left right below above => absurd below (lt_asymm above)⟩
  exact List.Pairwise.eq_of_mem_iff left right same

theorem filter (ascends : Ascends entries) (wanted : κ × ν → Bool) :
    Ascends (entries.filter wanted) :=
  List.Pairwise.filter wanted ascends

theorem mem_takeWhile_lt (ascends : Ascends entries) {isBelow : κ × ν → Bool}
    (decides : ∀ entry, isBelow entry = true ↔ entry.1 < key) {entry : κ × ν} :
    entry ∈ entries.takeWhile isBelow ↔ entry ∈ entries ∧ entry.1 < key := by
  induction entries with
  | nil => simp
  | cons head entries ih =>
    have later := pairwise_cons.mp ascends
    by_cases below : head.1 < key
    · rw [takeWhile_cons_of_pos ((decides head).mpr below), mem_cons, mem_cons,
        ih later.2]
      constructor
      · rintro (rfl | ⟨member, less⟩)
        · exact ⟨.inl rfl, below⟩
        · exact ⟨.inr member, less⟩
      · rintro ⟨rfl | member, less⟩
        · exact .inl rfl
        · exact .inr ⟨member, less⟩
    · rw [takeWhile_cons_of_neg ((decides head).not.mpr below)]
      simp only [not_mem_nil, false_iff]
      rintro ⟨member, less⟩
      rcases mem_cons.mp member with rfl | member
      · exact below less
      · exact below (lt_trans (later.1 entry member) less)

end Ascends

structure OrderedMap (κ : Type u) (ν : Type v) [LinearOrder κ] where
  entries : List (κ × ν) := []
  ascends : Ascends entries := by exact List.Pairwise.nil

namespace OrderedMap

abbrev empty : OrderedMap κ ν := {}

def insertEntry (key : κ) (value : ν) : List (κ × ν) → List (κ × ν)
  | [] => [(key, value)]
  | entry :: entries =>
    if key < entry.1 then (key, value) :: entry :: entries
    else if key = entry.1 then (key, value) :: entries
    else entry :: insertEntry key value entries

section Entries

variable {entries : List (κ × ν)} {key : κ} {value : ν}

theorem mem_insertEntry (ascends : Ascends entries) {entry : κ × ν} :
    entry ∈ insertEntry key value entries ↔
      entry = (key, value) ∨ (entry ∈ entries ∧ entry.1 ≠ key) := by
  induction entries with
  | nil => simp [insertEntry]
  | cons head entries ih =>
    have later := pairwise_cons.mp ascends
    have rest := ih later.2
    unfold insertEntry
    split
    · rename_i before
      have others : ∀ entry ∈ head :: entries, entry.1 ≠ key := by
        intro entry member
        rcases mem_cons.mp member with rfl | member
        · exact ne_of_gt before
        · exact ne_of_gt (lt_trans before (later.1 entry member))
      rw [mem_cons]
      exact or_congr_right ⟨fun member => ⟨member, others entry member⟩, fun member => member.1⟩
    · split
      · rename_i same
        subst same
        have others : ∀ entry ∈ entries, entry.1 ≠ head.1 := fun entry member =>
          ne_of_gt (later.1 entry member)
        rw [mem_cons, mem_cons]
        constructor
        · rintro (rfl | member)
          · exact .inl rfl
          · exact .inr ⟨.inr member, others entry member⟩
        · rintro (rfl | ⟨rfl | member, different⟩)
          · exact .inl rfl
          · exact absurd rfl different
          · exact .inr member
      · rename_i different
        rw [mem_cons, mem_cons, rest]
        constructor
        · rintro (rfl | rfl | ⟨member, other⟩)
          · exact .inr ⟨.inl rfl, Ne.symm different⟩
          · exact .inl rfl
          · exact .inr ⟨.inr member, other⟩
        · rintro (rfl | ⟨rfl | member, other⟩)
          · exact .inr (.inl rfl)
          · exact .inl rfl
          · exact .inr (.inr ⟨member, other⟩)

theorem insertEntry_ascends (ascends : Ascends entries) :
    Ascends (insertEntry key value entries) := by
  induction entries with
  | nil => exact pairwise_singleton ..
  | cons head entries ih =>
    have later := pairwise_cons.mp ascends
    unfold insertEntry
    split
    · rename_i before
      refine pairwise_cons.mpr ⟨?_, ascends⟩
      intro entry member
      rcases mem_cons.mp member with rfl | member
      · exact before
      · exact lt_trans before (later.1 entry member)
    · split
      · rename_i same
        exact pairwise_cons.mpr ⟨fun entry member => same ▸ later.1 entry member, later.2⟩
      · rename_i notBefore different
        refine pairwise_cons.mpr ⟨?_, ih later.2⟩
        intro entry member
        rcases (mem_insertEntry later.2).mp member with rfl | ⟨member, _⟩
        · exact lt_of_le_of_ne (not_lt.mp notBefore) (Ne.symm different)
        · exact later.1 entry member

end Entries

def insert (map : OrderedMap κ ν) (key : κ) (value : ν) : OrderedMap κ ν where
  entries := insertEntry key value map.entries
  ascends := insertEntry_ascends map.ascends

def erase (map : OrderedMap κ ν) (key : κ) : OrderedMap κ ν where
  entries := map.entries.filter fun entry => entry.1 ≠ key
  ascends := map.ascends.filter _

def lookup (map : OrderedMap κ ν) (key : κ) : Option ν :=
  (map.entries.find? fun entry => entry.1 = key).map Prod.snd

def range (map : OrderedMap κ ν) (start : κ) : List (κ × ν) :=
  map.entries.filter fun entry => start ≤ entry.1

section Lookup

variable {map : OrderedMap κ ν} {key other : κ} {value : ν}

theorem lookup_eq_some : map.lookup key = some value ↔ (key, value) ∈ map.entries := by
  unfold lookup
  rw [Option.map_eq_some_iff]
  constructor
  · rintro ⟨entry, found, rfl⟩
    have same := List.find?_some found
    rw [← of_decide_eq_true same]
    exact mem_of_find?_eq_some found
  · intro member
    have some : (map.entries.find? fun entry => entry.1 = key).isSome :=
      List.find?_isSome.mpr ⟨_, member, decide_eq_true rfl⟩
    obtain ⟨entry, found⟩ := Option.isSome_iff_exists.mp some
    have same := List.find?_some found
    refine ⟨entry, found, ?_⟩
    rw [map.ascends.key_unique (mem_of_find?_eq_some found) member (of_decide_eq_true same)]

theorem lookup_insert : (map.insert key value).lookup other =
    if other = key then some value else map.lookup other := by
  apply Option.ext
  intro found
  rw [lookup_eq_some]
  change (other, found) ∈ insertEntry key value map.entries ↔ _
  rw [mem_insertEntry map.ascends]
  split
  · rename_i same
    subst same
    simp [eq_comm]
  · rename_i different
    rw [lookup_eq_some]
    simp [different]

theorem lookup_erase : (map.erase key).lookup other =
    if other = key then none else map.lookup other := by
  apply Option.ext
  intro found
  rw [lookup_eq_some]
  change (other, found) ∈ map.entries.filter _ ↔ _
  rw [mem_filter]
  split
  · rename_i same
    simp [same]
  · rename_i different
    rw [lookup_eq_some]
    simp [different]

end Lookup

end OrderedMap

end TorusHyperBft
