import TorusHyperBft.State.Ordered

namespace TorusHyperBft

open List

/-! The merge of ascending ranges over a base, every key resolved by a layered lookup. -/

universe u v

variable {κ : Type u} {ν : Type v} [LinearOrder κ]

def minHead : List (List (κ × ν)) → Option κ
  | [] => none
  | [] :: rest => minHead rest
  | ((key, _) :: _) :: rest =>
    match minHead rest with
    | none => some key
    | some other => if other < key then some other else some key

def advance (key : κ) : List (κ × ν) → List (κ × ν)
  | [] => []
  | entry :: entries => if entry.1 = key then entries else entry :: entries

/-- A hit of a layer (a value or a tombstone), else the base row when it stands at the key. -/
def resolve (layered : Option (Option ν)) (base : List (κ × ν)) (key : κ) : Option ν :=
  match layered with
  | some hit => hit
  | none => (base.head?.filter fun entry => entry.1 = key).map Prod.snd

/-- At most `limit` live rows by ascending key; the fuel bounds the keys read. -/
def mergeFrom (layered : κ → Option (Option ν)) :
    Nat → Nat → List (List (κ × ν)) → List (κ × ν) → List (κ × ν)
  | 0, _, _, _ => []
  | _ + 1, 0, _, _ => []
  | fuel + 1, limit + 1, writes, base =>
    match minHead (base :: writes) with
    | none => []
    | some key =>
      match resolve (layered key) base key with
      | some value =>
        (key, value) ::
          mergeFrom layered fuel limit (writes.map (advance key)) (advance key base)
      | none =>
        mergeFrom layered fuel (limit + 1) (writes.map (advance key)) (advance key base)

section Heads

variable {ranges : List (List (κ × ν))} {range : List (κ × ν)} {key : κ}

theorem minHead_none (none : minHead ranges = none) : ∀ range ∈ ranges, range = [] := by
  induction ranges with
  | nil => simp
  | cons first rest ih =>
    cases first with
    | nil =>
      intro range member
      rcases mem_cons.mp member with rfl | member
      · rfl
      · exact ih none range member
    | cons entry entries =>
      unfold minHead at none
      cases least : minHead rest with
      | none => simp [least] at none
      | some other =>
        simp only [least] at none
        split at none <;> cases none

theorem minHead_mem (found : minHead ranges = some key) :
    ∃ range ∈ ranges, ∃ entry ∈ range, entry.1 = key := by
  induction ranges with
  | nil => cases found
  | cons first rest ih =>
    have later : minHead rest = some key →
        ∃ range ∈ first :: rest, ∃ entry ∈ range, entry.1 = key := by
      intro found
      obtain ⟨range, member, entry⟩ := ih found
      exact ⟨range, mem_cons_of_mem _ member, entry⟩
    cases first with
    | nil => exact later found
    | cons entry entries =>
      have here : entry.1 = key →
          ∃ range ∈ (entry :: entries) :: rest, ∃ entry ∈ range, entry.1 = key :=
        fun same => ⟨_, mem_cons_self, entry, mem_cons_self, same⟩
      unfold minHead at found
      cases least : minHead rest with
      | none =>
        simp only [least] at found
        exact here (Option.some.inj found)
      | some other =>
        simp only [least] at found
        split at found
        · exact later (least.trans found)
        · exact here (Option.some.inj found)

theorem Ascends.head_le {entry : κ × ν} {entries : List (κ × ν)}
    (ascends : Ascends (entry :: entries)) : ∀ other ∈ entry :: entries, entry.1 ≤ other.1 := by
  intro other member
  rcases mem_cons.mp member with rfl | member
  · exact le_refl _
  · exact le_of_lt ((pairwise_cons.mp ascends).1 other member)

theorem minHead_le (ascend : ∀ range ∈ ranges, Ascends range) (found : minHead ranges = some key) :
    ∀ range ∈ ranges, ∀ entry ∈ range, key ≤ entry.1 := by
  induction ranges generalizing key with
  | nil => simp
  | cons first rest ih =>
    have restAscend : ∀ range ∈ rest, Ascends range :=
      fun range member => ascend range (mem_cons_of_mem _ member)
    intro range member
    cases first with
    | nil =>
      rcases mem_cons.mp member with rfl | member
      · simp
      · exact ih restAscend found range member
    | cons entry entries =>
      have least_here := Ascends.head_le (ascend _ mem_cons_self)
      unfold minHead at found
      cases least : minHead rest with
      | none =>
        simp only [least] at found
        cases found
        rcases mem_cons.mp member with rfl | member
        · exact least_here
        · rw [minHead_none least range member]
          simp
      | some other =>
        have least_rest := ih restAscend least
        simp only [least] at found
        split at found
        · rename_i below
          cases found
          rcases mem_cons.mp member with rfl | member
          · exact fun entry inRange => le_trans (le_of_lt below) (least_here entry inRange)
          · exact least_rest range member
        · rename_i notBelow
          cases found
          rcases mem_cons.mp member with rfl | member
          · exact least_here
          · exact fun entry inRange =>
              le_trans (not_lt.mp notBelow) (least_rest range member entry inRange)

theorem mem_advance (ascends : Ascends range) (least : ∀ entry ∈ range, key ≤ entry.1)
    {entry : κ × ν} : entry ∈ advance key range ↔ entry ∈ range ∧ entry.1 ≠ key := by
  cases range with
  | nil => simp [advance]
  | cons head entries =>
    have later := (pairwise_cons.mp ascends).1
    by_cases same : head.1 = key
    · have others : ∀ entry ∈ entries, entry.1 ≠ key :=
        fun entry member => same ▸ ne_of_gt (later entry member)
      simp only [advance, same, if_true, mem_cons]
      constructor
      · exact fun member => ⟨.inr member, others entry member⟩
      · rintro ⟨rfl | member, different⟩
        · exact absurd same different
        · exact member
    · have others : ∀ entry ∈ head :: entries, entry.1 ≠ key := by
        intro entry member
        have above := lt_of_le_of_ne (least head mem_cons_self) (Ne.symm same)
        exact ne_of_gt (lt_of_lt_of_le above (Ascends.head_le ascends entry member))
      simp only [advance, same, if_false]
      exact ⟨fun member => ⟨member, others entry member⟩, fun member => member.1⟩

theorem Ascends.advance (ascends : Ascends range) : Ascends (advance key range) := by
  cases range with
  | nil => exact ascends
  | cons head entries =>
    by_cases same : head.1 = key
    · simp only [TorusHyperBft.advance, same, if_true]
      exact (pairwise_cons.mp ascends).2
    · simp only [TorusHyperBft.advance, same, if_false]
      exact ascends

theorem advance_ascends (ascend : ∀ range ∈ ranges, Ascends range) :
    ∀ range ∈ ranges.map (advance key), Ascends range := by
  intro range member
  obtain ⟨before, held, rfl⟩ := mem_map.mp member
  exact (ascend before held).advance

theorem advance_length_le : (advance key range).length ≤ range.length := by
  cases range with
  | nil => exact le_refl _
  | cons head entries =>
    by_cases same : head.1 = key
    · simp [advance, same]
    · simp [advance, same]

def remaining (ranges : List (List (κ × ν))) : Nat := (ranges.map List.length).sum

theorem remaining_advance_le : remaining (ranges.map (advance key)) ≤ remaining ranges := by
  induction ranges with
  | nil => exact le_refl _
  | cons first rest ih =>
    simp only [remaining, map_cons, sum_cons] at ih ⊢
    exact Nat.add_le_add advance_length_le ih

theorem remaining_advance_lt (found : minHead ranges = some key) :
    remaining (ranges.map (advance key)) < remaining ranges := by
  induction ranges with
  | nil => cases found
  | cons first rest ih =>
    have rest_le := @remaining_advance_le _ _ _ rest key
    simp only [remaining, map_cons, sum_cons] at ih rest_le ⊢
    cases first with
    | nil => exact Nat.add_lt_add_of_le_of_lt (le_refl _) (ih found)
    | cons entry entries =>
      have here : entry.1 = key → (advance key (entry :: entries)).length <
          (entry :: entries).length := by
        intro same
        simp [advance, same]
      have first_le := @advance_length_le _ _ _ (entry :: entries) key
      unfold minHead at found
      cases least : minHead rest with
      | none =>
        simp only [least] at found
        exact Nat.add_lt_add_of_lt_of_le (here (Option.some.inj found)) rest_le
      | some other =>
        simp only [least] at found
        split at found
        · exact Nat.add_lt_add_of_le_of_lt first_le (ih (least.trans found))
        · exact Nat.add_lt_add_of_lt_of_le (here (Option.some.inj found)) rest_le

end Heads

def mergeAll (layered : κ → Option (Option ν)) :
    Nat → List (List (κ × ν)) → List (κ × ν) → List (κ × ν)
  | 0, _, _ => []
  | fuel + 1, writes, base =>
    match minHead (base :: writes) with
    | none => []
    | some key =>
      match resolve (layered key) base key with
      | some value =>
        (key, value) :: mergeAll layered fuel (writes.map (advance key)) (advance key base)
      | none => mergeAll layered fuel (writes.map (advance key)) (advance key base)

section Merge

variable {layered : κ → Option (Option ν)} {fuel limit : Nat} {writes : List (List (κ × ν))}
  {base : List (κ × ν)}

theorem mergeFrom_eq_take :
    mergeFrom layered fuel limit writes base = (mergeAll layered fuel writes base).take limit := by
  induction fuel generalizing limit writes base with
  | zero => simp [mergeFrom, mergeAll]
  | succ fuel ih =>
    cases limit with
    | zero => simp [mergeFrom]
    | succ limit =>
      unfold mergeFrom mergeAll
      cases minHead (base :: writes) with
      | none => rfl
      | some key =>
        dsimp only
        cases resolve (layered key) base key with
        | none => exact ih
        | some value => simp only [take_succ_cons, ih]

def live (layered : κ → Option (Option ν)) (base : List (κ × ν)) (key : κ) : Option ν :=
  match layered key with
  | some hit => hit
  | none => (base.find? fun entry => entry.1 = key).map Prod.snd

theorem resolve_eq_live {key : κ} (ascends : Ascends base) (least : ∀ entry ∈ base, key ≤ entry.1) :
    resolve (layered key) base key = live layered base key := by
  unfold resolve live
  cases layered key with
  | some hit => rfl
  | none =>
    cases base with
    | nil => rfl
    | cons head entries =>
      by_cases same : head.1 = key
      · subst same
        simp [Option.filter]
      · have others : ∀ entry ∈ head :: entries, ¬ entry.1 = key := by
          intro entry member
          have above := lt_of_le_of_ne (least head mem_cons_self) (Ne.symm same)
          exact ne_of_gt (lt_of_lt_of_le above (Ascends.head_le ascends entry member))
        have missing : (head :: entries).find? (fun entry => entry.1 = key) = none := by
          rw [List.find?_eq_none]
          intro entry member
          simpa using others entry member
        rw [missing]
        simp [same]

theorem live_advance {key other : κ} (different : other ≠ key) :
    live layered (advance key base) other = live layered base other := by
  unfold live
  cases layered other with
  | some hit => rfl
  | none =>
    cases base with
    | nil => rfl
    | cons head entries =>
      by_cases same : head.1 = key
      · simp [advance, same, Ne.symm different]
      · simp [advance, same]

theorem mem_mergeAll (ascend : ∀ range ∈ base :: writes, Ascends range)
    (enough : remaining (base :: writes) ≤ fuel) {entry : κ × ν} :
    entry ∈ mergeAll layered fuel writes base ↔
      (∃ range ∈ base :: writes, ∃ other ∈ range, other.1 = entry.1) ∧
        live layered base entry.1 = some entry.2 := by
  induction fuel generalizing writes base with
  | zero =>
    have empty : ∀ range ∈ base :: writes, range = [] := by
      intro range member
      have least := single_le_sum (fun _ _ => Nat.zero_le _) _
        (mem_map_of_mem (f := List.length) member)
      exact length_eq_zero_iff.mp (Nat.le_zero.mp (least.trans enough))
    simp only [mergeAll, not_mem_nil, false_iff]
    rintro ⟨⟨range, member, other, inRange, _⟩, _⟩
    rw [empty range member] at inRange
    cases inRange
  | succ fuel ih =>
    unfold mergeAll
    cases found : minHead (base :: writes) with
    | none =>
      have empty := minHead_none found
      simp only [not_mem_nil, false_iff]
      rintro ⟨⟨range, member, other, inRange, _⟩, _⟩
      rw [empty range member] at inRange
      cases inRange
    | some key =>
      have least := minHead_le ascend found
      have stepped := @advance_ascends _ _ _ _ key ascend
      have less := remaining_advance_lt found
      have later := ih stepped (Nat.le_of_lt_succ (lt_of_lt_of_le less enough))
      -- The keys that remain are the keys of the ranges other than the one read.
      have keys : (∃ range ∈ advance key base :: writes.map (advance key),
          ∃ other ∈ range, other.1 = entry.1) ↔
          (∃ range ∈ base :: writes, ∃ other ∈ range, other.1 = entry.1) ∧ entry.1 ≠ key := by
        rw [← map_cons]
        constructor
        · rintro ⟨range, member, other, inRange, same⟩
          obtain ⟨before, held, rfl⟩ := mem_map.mp member
          have kept := (mem_advance (ascend before held) (least before held)).mp inRange
          exact ⟨⟨before, held, other, kept.1, same⟩, same ▸ kept.2⟩
        · rintro ⟨⟨before, member, other, inRange, same⟩, different⟩
          refine ⟨advance key before, mem_map_of_mem member, other, ?_, same⟩
          rw [mem_advance (ascend before member) (least before member)]
          exact ⟨inRange, same ▸ different⟩
      have rest : entry ∈ mergeAll layered fuel (writes.map (advance key)) (advance key base) ↔
          ((∃ range ∈ base :: writes, ∃ other ∈ range, other.1 = entry.1) ∧
            live layered base entry.1 = some entry.2) ∧ entry.1 ≠ key := by
        rw [later, keys]
        constructor
        · rintro ⟨⟨held, different⟩, value⟩
          exact ⟨⟨held, live_advance different ▸ value⟩, different⟩
        · rintro ⟨⟨held, value⟩, different⟩
          exact ⟨⟨held, different⟩, (live_advance different).trans value⟩
      have value_at := @resolve_eq_live _ _ _ layered base key
        (ascend base mem_cons_self) (least base mem_cons_self)
      dsimp only
      rw [value_at]
      cases value : live layered base key with
      | none =>
        dsimp only
        rw [rest]
        refine ⟨fun both => both.1, fun both => ⟨both, ?_⟩⟩
        rintro same
        rw [same, value] at both
        cases both.2
      | some here =>
        dsimp only
        rw [mem_cons, rest]
        constructor
        · rintro (rfl | both)
          · exact ⟨minHead_mem found, value⟩
          · exact both.1
        · intro both
          by_cases same : entry.1 = key
          · rw [same, value] at both
            exact .inl (Prod.ext same (Option.some.inj both.2).symm)
          · exact .inr ⟨both, same⟩

theorem mergeAll_ascends (ascend : ∀ range ∈ base :: writes, Ascends range)
    (enough : remaining (base :: writes) ≤ fuel) :
    Ascends (mergeAll layered fuel writes base) := by
  induction fuel generalizing writes base with
  | zero => exact List.Pairwise.nil
  | succ fuel ih =>
    unfold mergeAll
    cases found : minHead (base :: writes) with
    | none => exact List.Pairwise.nil
    | some key =>
      have least := minHead_le ascend found
      have stepped := @advance_ascends _ _ _ _ key ascend
      have fits := Nat.le_of_lt_succ (lt_of_lt_of_le (remaining_advance_lt found) enough)
      have later := ih stepped fits
      dsimp only
      cases resolve (layered key) base key with
      | none => exact later
      | some value =>
        refine pairwise_cons.mpr ⟨?_, later⟩
        intro entry member
        obtain ⟨⟨range, inRanges, other, inRange, same⟩, _⟩ :=
          (mem_mergeAll stepped fits).mp member
        rw [← map_cons] at inRanges
        obtain ⟨before, held, rfl⟩ := mem_map.mp inRanges
        have kept := (mem_advance (ascend before held) (least before held)).mp inRange
        rw [← same]
        exact lt_of_le_of_ne (least before held other kept.1) (Ne.symm kept.2)

end Merge

end TorusHyperBft
