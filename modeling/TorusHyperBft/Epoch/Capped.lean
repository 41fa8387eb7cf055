import TorusHyperBft.Epoch.Plan

namespace TorusHyperBft.Epoch

open Staking List

/-! What a capped rotation keeps of the installed set. -/

section Members

variable {oldSet newSet members : List PlanMember} {kept : List Address} {address : Address}
  {member : PlanMember}

theorem mem_missingFrom : address ∈ missingFrom newSet oldSet ↔
    address ∈ addresses oldSet ∧ address ∉ addresses newSet := by
  simp [missingFrom, mem_insertionSort]

theorem missingFrom_nodup (others members : List PlanMember) :
    (missingFrom others members).Nodup :=
  (perm_insertionSort _ _).nodup_iff.mpr (nodup_dedup _)

theorem eq_of_address {first second : PlanMember} (distinct : (addresses members).Nodup)
    (inFirst : first ∈ members) (inSecond : second ∈ members)
    (same : first.address = second.address) : first = second :=
  inj_on_of_nodup_map distinct inFirst inSecond same

/-- Reseating adds the kept old members that are not in yet. -/
theorem reseat_spec (oldDistinct : (addresses oldSet).Nodup)
    (distinct : (addresses members).Nodup) :
    (addresses (reseat oldSet kept members)).Nodup ∧
      ∀ member, member ∈ reseat oldSet kept members ↔ member ∈ members ∨
        member ∈ oldSet ∧ member.address ∈ kept ∧ member.address ∉ addresses members := by
  induction oldSet generalizing members with
  | nil => simp [reseat, distinct]
  | cons head rest ih =>
    have headApart : head.address ∉ addresses rest := (nodup_cons.mp oldDistinct).1
    have restDistinct : (addresses rest).Nodup := (nodup_cons.mp oldDistinct).2
    have apart : ∀ other ∈ rest, other.address ≠ head.address := fun other member same =>
      headApart (same ▸ mem_map_of_mem member)
    by_cases takes : head.address ∈ kept ∧ head.address ∉ addresses members
    · have added : (addresses (members ++ [head])).Nodup := by
        simp only [addresses, map_append, map_cons, map_nil]
        exact nodup_append.mpr ⟨distinct, by simp, by
          intro other member single same
          rw [mem_singleton] at same
          intro equal
          exact takes.2 (same ▸ equal ▸ member)⟩
      obtain ⟨nodup, mem⟩ := ih restDistinct added
      rw [reseat, foldl_cons, if_pos takes]
      refine ⟨nodup, fun member => (mem member).trans ?_⟩
      have others : ∀ member ∈ rest, (member.address ∉ addresses (members ++ [head]) ↔
          member.address ∉ addresses members) := by
        intro member inRest
        simp [addresses, apart member inRest]
      constructor
      · rintro (old | ⟨inRest, inKept, absent⟩)
        · rcases mem_append.mp old with inMembers | single
          · exact Or.inl inMembers
          · rw [mem_singleton.mp single]
            exact Or.inr ⟨mem_cons_self, takes⟩
        · exact Or.inr ⟨mem_cons_of_mem _ inRest, inKept, (others member inRest).mp absent⟩
      · rintro (inMembers | ⟨inOld, inKept, absent⟩)
        · exact Or.inl (mem_append_left _ inMembers)
        · rcases mem_cons.mp inOld with rfl | inRest
          · exact Or.inl (mem_append_right _ mem_cons_self)
          · exact Or.inr ⟨inRest, inKept, (others member inRest).mpr absent⟩
    · obtain ⟨nodup, mem⟩ := ih restDistinct distinct
      rw [reseat, foldl_cons, if_neg takes]
      refine ⟨nodup, fun member => (mem member).trans ?_⟩
      constructor
      · rintro (inMembers | ⟨inRest, rest⟩)
        · exact Or.inl inMembers
        · exact Or.inr ⟨mem_cons_of_mem _ inRest, rest⟩
      · rintro (inMembers | ⟨inOld, rest⟩)
        · exact Or.inl inMembers
        · rcases mem_cons.mp inOld with rfl | inRest
          · exact absurd rest takes
          · exact Or.inr ⟨inRest, rest⟩

end Members

/-! Who leaves and who enters, from the installed set and the set with the most stake. -/

section Cap

variable (oldSet newSet : List PlanMember)

/-- The members a capped rotation lets go: all that departed if they fit in the cap, else the
first ones by address. -/
def letGo (cap : Nat) : List Address :=
  if (departures oldSet newSet).length + (arrivals oldSet newSet).length ≤ cap then
    departures oldSet newSet
  else (departures oldSet newSet).take (allowedSwaps oldSet newSet cap)

def letIn (cap : Nat) : List Address :=
  if (departures oldSet newSet).length + (arrivals oldSet newSet).length ≤ cap then
    arrivals oldSet newSet
  else (arrivals oldSet newSet).take (allowedSwaps oldSet newSet cap)

variable {oldSet newSet}

theorem letGo_nodup (cap : Nat) : (letGo oldSet newSet cap).Nodup := by
  have nodup := missingFrom_nodup newSet oldSet
  unfold letGo
  split
  · exact nodup
  · exact List.Nodup.sublist (take_sublist _ _) nodup

theorem letIn_nodup (cap : Nat) : (letIn oldSet newSet cap).Nodup := by
  have nodup := missingFrom_nodup oldSet newSet
  unfold letIn
  split
  · exact nodup
  · exact List.Nodup.sublist (take_sublist _ _) nodup

variable {cap : Nat}

theorem letGo_departs {address : Address} (member : address ∈ letGo oldSet newSet cap) :
    address ∈ addresses oldSet ∧ address ∉ addresses newSet := by
  unfold letGo at member
  split at member
  · exact mem_missingFrom.mp member
  · exact mem_missingFrom.mp (mem_of_mem_take member)

theorem letIn_arrives {cap : Nat} {address : Address} (member : address ∈ letIn oldSet newSet cap) :
    address ∈ addresses newSet ∧ address ∉ addresses oldSet := by
  unfold letIn at member
  split at member
  · exact mem_missingFrom.mp member
  · exact mem_missingFrom.mp (mem_of_mem_take member)

theorem letGo_letIn_length (cap : Nat) :
    (letGo oldSet newSet cap).length + (letIn oldSet newSet cap).length ≤ cap := by
  unfold letGo letIn
  split
  · assumption
  · rw [length_take, length_take]
    unfold allowedSwaps
    omega

theorem mem_drop_iff {α : Type} [DecidableEq α] {values : List α} (nodup : values.Nodup)
    (count : Nat)
    {value : α} : value ∈ values.drop count ↔ value ∈ values ∧ value ∉ values.take count := by
  have split := take_append_drop count values
  have apart := nodup
  rw [← split, nodup_append] at apart
  constructor
  · intro later
    refine ⟨mem_of_mem_drop later, fun front => apart.2.2 value front value later rfl⟩
  · rintro ⟨member, notFront⟩
    rw [← split] at member
    exact (mem_append.mp member).resolve_left notFront

/-- A member of the capped set stayed, was let in, or was not let go. -/
theorem applyRotationCap_spec (oldDistinct : (addresses oldSet).Nodup)
    (newDistinct : (addresses newSet).Nodup) (positive : 0 < cap) :
    (addresses (applyRotationCap oldSet newSet cap)).Nodup ∧
      ∀ member, member ∈ applyRotationCap oldSet newSet cap ↔
        (member ∈ newSet ∧
          (member.address ∈ addresses oldSet ∨ member.address ∈ letIn oldSet newSet cap)) ∨
        (member ∈ oldSet ∧ member.address ∉ addresses newSet ∧
          member.address ∉ letGo oldSet newSet cap) := by
  rw [applyRotationCap, if_neg (Nat.ne_of_gt positive), letGo, letIn]
  by_cases fits : (departures oldSet newSet).length + (arrivals oldSet newSet).length ≤ cap
  · rw [if_pos fits, if_pos fits, if_pos fits]
    refine ⟨newDistinct, fun member => ⟨fun inNew => Or.inl ⟨inNew, ?_⟩, ?_⟩⟩
    · by_cases old : member.address ∈ addresses oldSet
      · exact Or.inl old
      · exact Or.inr (mem_missingFrom.mpr ⟨mem_map_of_mem inNew, old⟩)
    · rintro (⟨inNew, _⟩ | ⟨inOld, absent, stays⟩)
      · exact inNew
      · exact absurd (mem_missingFrom.mpr ⟨mem_map_of_mem inOld, absent⟩) stays
  · rw [if_neg fits, if_neg fits, if_neg fits]
    generalize allowedSwaps oldSet newSet cap = swaps
    have retainedDistinct : (addresses (newSet.filter fun member =>
        member.address ∉ (arrivals oldSet newSet).drop swaps)).Nodup :=
      List.Nodup.sublist (filter_sublist.map _) newDistinct
    obtain ⟨nodup, mem⟩ := @reseat_spec oldSet _ ((departures oldSet newSet).drop swaps)
      oldDistinct retainedDistinct
    refine ⟨((perm_insertionSort Outranks _).map _).nodup_iff.mpr nodup, fun member => ?_⟩
    rw [mem_insertionSort, mem]
    have deferred := @mem_drop_iff _ _ _ (missingFrom_nodup oldSet newSet) swaps member.address
    have keptBack := @mem_drop_iff _ _ _ (missingFrom_nodup newSet oldSet) swaps member.address
    rw [mem_missingFrom] at deferred keptBack
    have retained : member ∈ newSet.filter (fun member =>
        member.address ∉ (arrivals oldSet newSet).drop swaps) ↔ member ∈ newSet ∧
          (member.address ∈ addresses oldSet ∨
            member.address ∈ (arrivals oldSet newSet).take swaps) := by
      rw [mem_filter, decide_eq_true_eq, arrivals, deferred]
      constructor
      · rintro ⟨inNew, undeferred⟩
        refine ⟨inNew, or_iff_not_imp_left.mpr fun notOld => ?_⟩
        exact not_not.mp fun notFront =>
          undeferred ⟨⟨mem_map_of_mem inNew, notOld⟩, notFront⟩
      · rintro ⟨inNew, stays⟩
        refine ⟨inNew, fun undeferred => ?_⟩
        exact stays.elim undeferred.1.2 undeferred.2
    rw [retained, departures, keptBack]
    refine or_congr_right ⟨?_, ?_⟩
    · rintro ⟨inOld, ⟨⟨_, absent⟩, notFront⟩, _⟩
      exact ⟨inOld, absent, notFront⟩
    · rintro ⟨inOld, absent, notFront⟩
      refine ⟨inOld, ⟨⟨mem_map_of_mem inOld, absent⟩, notFront⟩, fun inRetained => absent ?_⟩
      obtain ⟨other, inFilter, same⟩ := mem_map.mp inRetained
      exact same ▸ mem_map_of_mem (mem_of_mem_filter inFilter)

def inSet (members : List PlanMember) (member : PlanMember) : PlanMember :=
  (members.find? fun other => other.address = member.address).getD member

theorem inSet_address (members : List PlanMember) (member : PlanMember) :
    (inSet members member).address = member.address := by
  cases found : members.find? fun other => other.address = member.address with
  | none => simp [inSet, found]
  | some other =>
    have same : other.address = member.address := by simpa using List.find?_some found
    simp [inSet, found, same]

theorem inSet_of_mem {members : List PlanMember} (distinct : (addresses members).Nodup)
    {member other : PlanMember} (inMembers : other ∈ members)
    (same : other.address = member.address) : inSet members member = other := by
  cases found : members.find? fun other => other.address = member.address with
  | none => simpa [same] using List.find?_eq_none.mp found other inMembers
  | some first =>
    have sameFirst : first.address = member.address := by simpa using List.find?_some found
    rw [inSet, found, Option.getD_some]
    exact eq_of_address distinct (mem_of_find?_eq_some found) inMembers
      (sameFirst.trans same.symm)

variable {member : PlanMember}

theorem inSet_of_absent {members : List PlanMember}
    (absent : member.address ∉ addresses members) : inSet members member = member := by
  have none : members.find? (fun other => other.address = member.address) = none := by
    rw [List.find?_eq_none]
    intro other inMembers same
    exact absent (mem_map.mpr ⟨other, inMembers, by simpa using same⟩)
  rw [inSet, none, Option.getD_none]

theorem mem_letGo_iff (oldDistinct : (addresses oldSet).Nodup)
    (newDistinct : (addresses newSet).Nodup) (positive : 0 < cap)
    (inOld : member ∈ oldSet) : member.address ∉ addresses (applyRotationCap oldSet newSet cap) ↔
      member.address ∈ letGo oldSet newSet cap := by
  obtain ⟨_, mem⟩ := applyRotationCap_spec oldDistinct newDistinct positive
  have oldAddress : member.address ∈ addresses oldSet := mem_map_of_mem inOld
  constructor
  · intro absent
    by_contra stays
    by_cases inNew : member.address ∈ addresses newSet
    · obtain ⟨other, inNew, same⟩ := mem_map.mp inNew
      have capped := (mem other).mpr (Or.inl ⟨inNew, Or.inl (same ▸ oldAddress)⟩)
      exact absent (same ▸ mem_map_of_mem capped)
    · exact absent (mem_map_of_mem ((mem member).mpr (Or.inr ⟨inOld, inNew, stays⟩)))
  · intro gone present
    obtain ⟨_, notNew⟩ := letGo_departs gone
    obtain ⟨other, capped, same⟩ := mem_map.mp present
    rcases (mem other).mp capped with ⟨inNew, _⟩ | ⟨_, _, stays⟩
    · exact notNew (same ▸ mem_map_of_mem inNew)
    · exact stays (same.symm ▸ gone)

variable (oldSet newSet)

/-- The departed members that a set of fewer than the minimum takes back, most power first. -/
def seatedBack (cap : Nat) : List PlanMember :=
  let size := oldSet.length - (letGo oldSet newSet cap).length + (letIn oldSet newSet cap).length
  if size < minActiveValidators ∧ minActiveValidators ≤ oldSet.length then
    ((oldSet.filter fun member => member.address ∈ letGo oldSet newSet cap).insertionSort
      Outranks).take (minActiveValidators - size)
  else []

def keepsSeat (cap : Nat) (member : PlanMember) : Bool :=
  decide (member.address ∉ letGo oldSet newSet cap ∨ member ∈ seatedBack oldSet newSet cap)

def staying (cap : Nat) : List PlanMember := oldSet.filter (keepsSeat oldSet newSet cap)

def entering (cap : Nat) : List PlanMember :=
  newSet.filter fun member => member.address ∈ letIn oldSet newSet cap

variable {oldSet newSet}

theorem seatedBack_subset (back : member ∈ seatedBack oldSet newSet cap) :
    member ∈ oldSet ∧ member.address ∈ letGo oldSet newSet cap := by
  unfold seatedBack at back
  dsimp only at back
  split at back
  · have sorted := mem_of_mem_take back
    rw [mem_insertionSort, mem_filter] at sorted
    exact ⟨sorted.1, by simpa using sorted.2⟩
  · simp at back

theorem perm_of_addresses {first second : List PlanMember} (firstDistinct : (addresses first).Nodup)
    (secondDistinct : (addresses second).Nodup)
    (same : ∀ member, member ∈ first ↔ member ∈ second) :
    first.Perm second :=
  (perm_ext_iff_of_nodup (List.Nodup.of_map _ firstDistinct)
    (List.Nodup.of_map _ secondDistinct)).mpr same

section Kept

variable {keeps : PlanMember → Bool}

theorem mem_kept (newDistinct : (addresses newSet).Nodup) :
    member ∈ (oldSet.filter keeps).map (inSet newSet) ↔
      (member ∈ newSet ∧ ∃ old ∈ oldSet, old.address = member.address ∧ keeps old = true) ∨
        (member ∈ oldSet ∧ member.address ∉ addresses newSet ∧ keeps member = true) := by
  rw [mem_map]
  constructor
  · rintro ⟨old, inFilter, rfl⟩
    obtain ⟨inOld, kept⟩ := mem_filter.mp inFilter
    by_cases present : old.address ∈ addresses newSet
    · obtain ⟨other, inNew, same⟩ := mem_map.mp present
      rw [inSet_of_mem newDistinct inNew same]
      exact Or.inl ⟨inNew, old, inOld, same.symm, kept⟩
    · rw [inSet_of_absent present]
      exact Or.inr ⟨inOld, present, kept⟩
  · rintro (⟨inNew, old, inOld, same, kept⟩ | ⟨inOld, absent, kept⟩)
    · exact ⟨old, mem_filter.mpr ⟨inOld, kept⟩, inSet_of_mem newDistinct inNew same.symm⟩
    · exact ⟨member, mem_filter.mpr ⟨inOld, kept⟩, inSet_of_absent absent⟩

theorem kept_distinct (oldDistinct : (addresses oldSet).Nodup)
    (newDistinct : (addresses newSet).Nodup) (cap : Nat) :
    (addresses ((oldSet.filter keeps).map (inSet newSet) ++ entering oldSet newSet cap)).Nodup := by
  have sameAddresses : addresses ((oldSet.filter keeps).map (inSet newSet)) =
      addresses (oldSet.filter keeps) := by
    simp [addresses, inSet_address]
  rw [addresses, map_append]
  change (addresses _ ++ addresses _).Nodup
  rw [sameAddresses, nodup_append]
  refine ⟨List.Nodup.sublist (filter_sublist.map _) oldDistinct,
    List.Nodup.sublist (filter_sublist.map _) newDistinct, fun address stays other enters => ?_⟩
  obtain ⟨member, inFilter, rfl⟩ := mem_map.mp stays
  obtain ⟨newcomer, inEntering, rfl⟩ := mem_map.mp enters
  have letInto := (mem_filter.mp inEntering).2
  rw [decide_eq_true_eq] at letInto
  intro same
  exact (letIn_arrives letInto).2 (same ▸ mem_map_of_mem (mem_of_mem_filter inFilter))

end Kept

theorem applyRotationCap_perm (oldDistinct : (addresses oldSet).Nodup)
    (newDistinct : (addresses newSet).Nodup) (positive : 0 < cap) :
    (applyRotationCap oldSet newSet cap).Perm
      ((oldSet.filter fun member => member.address ∉ letGo oldSet newSet cap).map (inSet newSet) ++
        entering oldSet newSet cap) := by
  obtain ⟨distinct, mem⟩ := applyRotationCap_spec oldDistinct newDistinct positive
  refine perm_of_addresses distinct (kept_distinct oldDistinct newDistinct cap)
    fun member => (mem member).trans ?_
  rw [mem_append, mem_kept newDistinct, entering, mem_filter, decide_eq_true_eq]
  constructor
  · rintro (⟨inNew, old | letInto⟩ | ⟨inOld, absent, stays⟩)
    · obtain ⟨other, inOld, same⟩ := mem_map.mp old
      refine Or.inl (Or.inl ⟨inNew, other, inOld, same, ?_⟩)
      rw [decide_eq_true_eq]
      exact fun gone => (letGo_departs gone).2 (same ▸ mem_map_of_mem inNew)
    · exact Or.inr ⟨inNew, by simpa using letInto⟩
    · exact Or.inl (Or.inr ⟨inOld, absent, by simpa using stays⟩)
  · rintro ((⟨inNew, other, inOld, same, _⟩ | ⟨inOld, absent, stays⟩) | ⟨inNew, letInto⟩)
    · exact Or.inl ⟨inNew, Or.inl (same ▸ mem_map_of_mem inOld)⟩
    · exact Or.inr ⟨inOld, absent, by simpa using stays⟩
    · exact Or.inl ⟨inNew, Or.inr (by simpa using letInto)⟩

theorem length_filter_addresses {members : List PlanMember} (distinct : (addresses members).Nodup)
    {chosen : List Address} (nodup : chosen.Nodup)
    (subset : ∀ address ∈ chosen, address ∈ addresses members) :
    (members.filter fun member => member.address ∈ chosen).length = chosen.length := by
  have perm : (addresses (members.filter fun member => member.address ∈ chosen)).Perm chosen := by
    refine (perm_ext_iff_of_nodup (List.Nodup.sublist (filter_sublist.map _) distinct)
      nodup).mpr fun address => ?_
    constructor
    · intro present
      obtain ⟨member, inFilter, rfl⟩ := mem_map.mp present
      simpa using (mem_filter.mp inFilter).2
    · intro inChosen
      obtain ⟨member, inMembers, rfl⟩ := mem_map.mp (subset address inChosen)
      exact mem_map_of_mem (mem_filter.mpr ⟨inMembers, by simpa using inChosen⟩)
  rw [← perm.length_eq, addresses, length_map]

variable (oldDistinct : (addresses oldSet).Nodup)
include oldDistinct

theorem length_letGo_le (cap : Nat) :
    (oldSet.filter fun member => member.address ∈ letGo oldSet newSet cap).length =
      (letGo oldSet newSet cap).length :=
  length_filter_addresses oldDistinct (letGo_nodup cap) fun _ gone => (letGo_departs gone).1

theorem applyRotationCap_length (newDistinct : (addresses newSet).Nodup) (positive : 0 < cap) :
    (applyRotationCap oldSet newSet cap).length = oldSet.length -
      (letGo oldSet newSet cap).length + (letIn oldSet newSet cap).length := by
  have entered := @length_filter_addresses newSet newDistinct _ (letIn_nodup cap)
    (fun _ letInto => (@letIn_arrives oldSet newSet cap _ letInto).1)
  have gone := @length_letGo_le oldSet newSet oldDistinct cap
  have both := length_eq_length_filter_add
    (l := oldSet) fun member => decide (member.address ∈ letGo oldSet newSet cap)
  rw [(applyRotationCap_perm oldDistinct newDistinct positive).length_eq, length_append,
    length_map, entering, entered]
  simp only [decide_not]
  omega

theorem seatedBack_distinct (cap : Nat) : (addresses (seatedBack oldSet newSet cap)).Nodup := by
  unfold seatedBack
  dsimp only
  split
  · refine List.Nodup.sublist ((take_sublist _ _).map _) ?_
    refine ((perm_insertionSort Outranks _).map _).nodup_iff.mpr ?_
    exact List.Nodup.sublist (filter_sublist.map _) oldDistinct
  · exact nodup_nil

theorem staying_perm (cap : Nat) : (staying oldSet newSet cap).Perm
      ((oldSet.filter fun member => member.address ∉ letGo oldSet newSet cap) ++
        seatedBack oldSet newSet cap) := by
  refine perm_of_addresses (List.Nodup.sublist (filter_sublist.map _) oldDistinct) ?_ ?_
  · rw [addresses, map_append, nodup_append]
    refine ⟨List.Nodup.sublist (filter_sublist.map _) oldDistinct,
      seatedBack_distinct oldDistinct cap, fun address stays other back same => ?_⟩
    obtain ⟨member, inFilter, rfl⟩ := mem_map.mp stays
    obtain ⟨departed, inBack, rfl⟩ := mem_map.mp back
    have kept := (mem_filter.mp inFilter).2
    rw [decide_eq_true_eq] at kept
    exact kept (same ▸ (seatedBack_subset inBack).2)
  · intro member
    simp only [staying, keepsSeat, mem_append, mem_filter, decide_eq_true_eq]
    constructor
    · rintro ⟨inOld, stays | back⟩
      · exact Or.inl ⟨inOld, stays⟩
      · exact Or.inr back
    · rintro (⟨inOld, stays⟩ | back)
      · exact ⟨inOld, Or.inl stays⟩
      · exact ⟨(seatedBack_subset back).1, Or.inr back⟩

theorem reseated_eq (newDistinct : (addresses newSet).Nodup) (positive : 0 < cap)
    (small : (applyRotationCap oldSet newSet cap).length < minActiveValidators)
    (large : minActiveValidators ≤ oldSet.length) :
    reseated oldSet (applyRotationCap oldSet newSet cap) = seatedBack oldSet newSet cap := by
  have length := applyRotationCap_length oldDistinct newDistinct positive
  rw [length] at small
  have departed : (oldSet.filter fun member =>
      member.address ∉ addresses (applyRotationCap oldSet newSet cap)) =
      oldSet.filter fun member => member.address ∈ letGo oldSet newSet cap := by
    apply filter_congr
    intro member inOld
    rw [decide_eq_decide]
    exact mem_letGo_iff oldDistinct newDistinct positive inOld
  rw [reseated, seatedBack, departed, length, if_pos ⟨small, large⟩]

/-- The set after the cap and the floor is those who stay and those who enter. -/
theorem enforceMinimumFloor_perm (newDistinct : (addresses newSet).Nodup) (positive : 0 < cap) :
    (enforceMinimumFloor oldSet (applyRotationCap oldSet newSet cap)).Perm
      ((staying oldSet newSet cap).map (inSet newSet) ++ entering oldSet newSet cap) := by
  have capped := applyRotationCap_perm oldDistinct newDistinct positive
  have length := applyRotationCap_length oldDistinct newDistinct positive
  have stays := (@staying_perm oldSet newSet oldDistinct cap).map (inSet newSet)
  rw [map_append] at stays
  -- Nobody is seated back unless the floor applies.
  have unfloored : ¬ ((applyRotationCap oldSet newSet cap).length < minActiveValidators ∧
      minActiveValidators ≤ oldSet.length) → seatedBack oldSet newSet cap = [] := by
    intro above
    rw [length] at above
    rw [seatedBack, if_neg above]
  unfold enforceMinimumFloor
  split
  · rename_i enough
    rw [unfloored fun small => by omega, map_nil, append_nil] at stays
    exact capped.trans (stays.symm.append_right _)
  · split
    · rename_i few
      rw [unfloored fun small => by omega, map_nil, append_nil] at stays
      exact capped.trans (stays.symm.append_right _)
    · rename_i small large
      rw [reseated_eq oldDistinct newDistinct positive (by omega) (by omega)]
      refine (perm_insertionSort Outranks _).trans ?_
      have unmapped : (seatedBack oldSet newSet cap).map (inSet newSet) =
          seatedBack oldSet newSet cap := by
        conv_rhs => rw [← List.map_id (seatedBack oldSet newSet cap)]
        apply map_congr_left
        intro member back
        exact inSet_of_absent (letGo_departs (seatedBack_subset back).2).2
      rw [unmapped] at stays
      refine (capped.append_right _).trans ?_
      refine List.Perm.trans ?_ (stays.symm.append_right _)
      rw [append_assoc, append_assoc]
      exact perm_append_comm.append_left _

theorem enforceMinimumFloor_length (newDistinct : (addresses newSet).Nodup) (positive : 0 < cap)
    (large : minActiveValidators ≤ oldSet.length) :
    minActiveValidators ≤ (enforceMinimumFloor oldSet (applyRotationCap oldSet newSet cap)).length := by
  have length := applyRotationCap_length oldDistinct newDistinct positive
  have gone := @length_letGo_le oldSet newSet oldDistinct cap
  have fewer := length_filter_le
    (fun member => decide (member.address ∈ letGo oldSet newSet cap)) oldSet
  unfold enforceMinimumFloor
  split
  · assumption
  · rw [if_neg (by omega), length_insertionSort, length_append,
      reseated_eq oldDistinct newDistinct positive (by omega) large, seatedBack, ← length,
      if_pos ⟨by omega, large⟩, length_take, length_insertionSort, gone]
    omega

end Cap

end TorusHyperBft.Epoch
