import TorusHyperBft.Epoch.Consensus
import TorusHyperBft.Program

namespace TorusHyperBft.Epoch

open List

/-! What the updates of a boundary block do to the set of consensus. -/

open Program

namespace ValidatorSet

variable {set : ValidatorSet} {key : PubKey}

theorem putAll_lookup (rows : List (Sigma fun _ : PubKey => U64)) (distinct : rows.NodupKeys)
    (set : ValidatorSet) :
    (rows.foldl (fun set row => set.put row.1 row.2) set).powers.lookup key =
      (rows.dlookup key).or (set.powers.lookup key) := by
  induction rows generalizing set with
  | nil => simp
  | cons row rest ih =>
    obtain ⟨absent, restDistinct⟩ := nodupKeys_cons.mp distinct
    rw [foldl_cons, ih restDistinct]
    by_cases same : row.1 = key
    · subst same
      have missing : rest.dlookup row.1 = none := dlookup_eq_none.mpr absent
      have here : (row :: rest).dlookup row.1 = some row.2 := dlookup_cons_eq _ _ _
      rw [missing, here]
      simp [put]
    · rw [dlookup_cons_ne _ _ (Ne.symm same)]
      congr 1
      exact AList.lookup_insert_ne (Ne.symm same)

theorem putAll_leaderExcluded (rows : List (Sigma fun _ : PubKey => U64)) (set : ValidatorSet) :
    (rows.foldl (fun set row => set.put row.1 row.2) set).leaderExcluded = set.leaderExcluded :=
  foldl_keeps leaderExcluded (fun set row => set.put row.1 row.2) (fun _ _ => rfl) rows set

theorem removeAll_lookup (keys : List PubKey) (set : ValidatorSet) :
    (keys.foldl remove set).powers.lookup key =
      if key ∈ keys then none else set.powers.lookup key := by
  induction keys generalizing set with
  | nil => simp
  | cons first rest ih =>
    rw [foldl_cons, ih]
    by_cases same : key = first
    · subst same
      simp [remove]
    · simp [remove, same, AList.lookup_erase_ne same]

theorem removeAll_leaderExcluded (keys : List PubKey) (set : ValidatorSet) :
    key ∈ (keys.foldl remove set).leaderExcluded ↔ key ∈ set.leaderExcluded ∧ key ∉ keys := by
  induction keys generalizing set with
  | nil => simp
  | cons first rest ih =>
    rw [foldl_cons, ih]
    simp only [remove, Finset.mem_erase, mem_cons]
    tauto

theorem readmitAll_powers (keys : List PubKey) (set : ValidatorSet) :
    (keys.foldl readmitLeader set).powers = set.powers :=
  foldl_keeps powers readmitLeader (fun _ _ => rfl) keys set

theorem readmitAll_leaderExcluded (keys : List PubKey) (set : ValidatorSet) :
    key ∈ (keys.foldl readmitLeader set).leaderExcluded ↔ key ∈ set.leaderExcluded ∧ key ∉ keys := by
  induction keys generalizing set with
  | nil => simp
  | cons first rest ih =>
    rw [foldl_cons, ih]
    simp only [readmitLeader, Finset.mem_erase, mem_cons]
    tauto

theorem excludeLeader_powers (set : ValidatorSet) (key : PubKey) :
    (set.excludeLeader key).powers = set.powers := by
  unfold excludeLeader
  split
  · rfl
  · rfl

theorem excludeAll_powers (keys : List PubKey) (set : ValidatorSet) :
    (keys.foldl excludeLeader set).powers = set.powers :=
  foldl_keeps powers excludeLeader excludeLeader_powers keys set

theorem mem_excludeLeader (set : ValidatorSet) (first : PubKey) :
    key ∈ (set.excludeLeader first).leaderExcluded ↔
      key ∈ set.leaderExcluded ∨ key = first ∧ set.contains first := by
  unfold excludeLeader
  split
  · rename_i here
    simp [here, or_comm]
  · rename_i absent
    simp [absent]

theorem excludeAll_leaderExcluded (keys : List PubKey) (set : ValidatorSet) :
    key ∈ (keys.foldl excludeLeader set).leaderExcluded ↔
      key ∈ set.leaderExcluded ∨ key ∈ keys ∧ set.contains key := by
  induction keys generalizing set with
  | nil => simp
  | cons first rest ih =>
    have same : (set.excludeLeader first).contains key = set.contains key := by
      unfold contains
      rw [excludeLeader_powers]
    rw [foldl_cons, ih, mem_excludeLeader, same, mem_cons]
    constructor
    · rintro ((before | ⟨rfl, here⟩) | ⟨later, here⟩)
      · exact .inl before
      · exact .inr ⟨.inl rfl, here⟩
      · exact .inr ⟨.inr later, here⟩
    · rintro (before | ⟨rfl | later, here⟩)
      · exact .inl (.inl before)
      · exact .inl (.inr ⟨rfl, here⟩)
      · exact .inr ⟨later, here⟩

theorem applyUpdates_lookup (updates : ValidatorSetUpdates) :
    (set.applyUpdates updates).powers.lookup key =
      if key ∈ updates.deletes then none
      else (updates.inserts.lookup key).or (set.powers.lookup key) := by
  unfold applyUpdates
  rw [excludeAll_powers, readmitAll_powers, removeAll_lookup,
    putAll_lookup _ updates.inserts.nodupKeys]
  rfl

theorem mem_applyUpdates (updates : ValidatorSetUpdates) :
    key ∈ (set.applyUpdates updates).leaderExcluded ↔
      (key ∈ set.leaderExcluded ∧ key ∉ updates.deletes ∧ key ∉ updates.leaderReadmits) ∨
        (key ∈ updates.leaderExcludes ∧ (set.applyUpdates updates).contains key) := by
  have same : (set.applyUpdates updates).contains key =
      (updates.leaderReadmits.foldl readmitLeader (updates.deletes.foldl remove
        (updates.inserts.entries.foldl (fun set row => set.put row.1 row.2) set))).contains key := by
    unfold contains applyUpdates
    rw [excludeAll_powers]
  rw [same]
  unfold applyUpdates
  rw [excludeAll_leaderExcluded, readmitAll_leaderExcluded, removeAll_leaderExcluded,
    putAll_leaderExcluded, and_assoc]

end ValidatorSet

section Updates

variable {decodes : PubKey → Bool} {key : PubKey}

def memberInserts (decodes : PubKey → Bool) (members : List PlanMember)
    (updates : ValidatorSetUpdates) : ValidatorSetUpdates :=
  (members.filter fun member => decodes member.pubkey).foldl
    (fun updates member => updates.insert member.pubkey member.power) updates

def keyDeletes (decodes : PubKey → Bool) (keys : List PubKey) (updates : ValidatorSetUpdates) :
    ValidatorSetUpdates :=
  (keys.filter decodes).foldl ValidatorSetUpdates.delete updates

theorem memberUpdates_eq (plan : EpochRotationPlan) : memberUpdates decodes plan =
    keyDeletes decodes plan.deletes (memberInserts decodes plan.members {}) := by
  unfold memberUpdates keyDeletes memberInserts
  simp only [foldl_filter]

theorem memberInserts_absent {members : List PlanMember}
    (absent : key ∉ members.map PlanMember.pubkey) (updates : ValidatorSetUpdates) :
    (memberInserts decodes members updates).inserts.lookup key = updates.inserts.lookup key := by
  induction members generalizing updates with
  | nil => rfl
  | cons member rest ih =>
    rw [map_cons, mem_cons, not_or] at absent
    unfold memberInserts
    rw [filter_cons]
    split
    · refine (ih absent.2 _).trans ?_
      exact AList.lookup_insert_ne absent.1
    · exact ih absent.2 _

theorem memberInserts_present {members : List PlanMember}
    (distinct : (members.map PlanMember.pubkey).Nodup) {member : PlanMember}
    (inside : member ∈ members)
    (valid : decodes member.pubkey) (updates : ValidatorSetUpdates) :
    (memberInserts decodes members updates).inserts.lookup member.pubkey = some member.power := by
  induction members generalizing updates with
  | nil => cases inside
  | cons first rest ih =>
    rw [map_cons, nodup_cons] at distinct
    unfold memberInserts
    rw [filter_cons]
    rcases mem_cons.mp inside with rfl | later
    · rw [if_pos valid]
      refine (memberInserts_absent distinct.1 _).trans ?_
      simp [ValidatorSetUpdates.insert]
    · split
      · exact ih distinct.2 later _
      · exact ih distinct.2 later _

theorem memberInserts_deletes (members : List PlanMember) :
    (memberInserts decodes members {}).deletes = [] := by
  have each : ∀ (chosen : List PlanMember) (updates : ValidatorSetUpdates), updates.deletes = [] →
      (chosen.foldl (fun updates member => updates.insert member.pubkey member.power)
        updates).deletes = [] := by
    intro chosen
    induction chosen with
    | nil => exact fun _ none => none
    | cons member rest ih =>
      intro updates none
      apply ih
      simp [ValidatorSetUpdates.insert, none]
  exact each _ _ rfl

theorem keyDeletes_inserts (keys : List PubKey) (updates : ValidatorSetUpdates) :
    (keyDeletes decodes keys updates).inserts.lookup key =
      if key ∈ keys ∧ decodes key then none else updates.inserts.lookup key := by
  induction keys generalizing updates with
  | nil => simp [keyDeletes]
  | cons first rest ih =>
    unfold keyDeletes at ih ⊢
    by_cases valid : decodes first
    · rw [filter_cons_of_pos valid, foldl_cons, ih]
      by_cases same : key = first
      · subst same
        simp [ValidatorSetUpdates.delete, valid]
      · simp [same, ValidatorSetUpdates.delete, AList.lookup_erase_ne same]
    · rw [filter_cons_of_neg valid, ih]
      by_cases same : key = first
      · simp [same, valid]
      · simp [same]

theorem mem_keyDeletes (keys : List PubKey) (updates : ValidatorSetUpdates) :
    key ∈ (keyDeletes decodes keys updates).deletes ↔
      key ∈ updates.deletes ∨ key ∈ keys ∧ decodes key := by
  induction keys generalizing updates with
  | nil => simp [keyDeletes]
  | cons first rest ih =>
    unfold keyDeletes at ih ⊢
    by_cases valid : decodes first
    · rw [filter_cons_of_pos valid, foldl_cons, ih]
      by_cases same : key = first
      · simp [same, ValidatorSetUpdates.delete, valid]
      · simp [same, ValidatorSetUpdates.delete]
    · rw [filter_cons_of_neg valid, ih]
      by_cases same : key = first
      · simp [same, valid]
      · simp [same]

theorem memberUpdates_leaders (plan : EpochRotationPlan) :
    (memberUpdates decodes plan).leaderExcludes = [] ∧
      (memberUpdates decodes plan).leaderReadmits = [] := by
  rw [memberUpdates_eq]
  constructor
  · have deleted := foldl_keeps ValidatorSetUpdates.leaderExcludes ValidatorSetUpdates.delete
      (fun _ _ => rfl)
    have inserted := foldl_keeps ValidatorSetUpdates.leaderExcludes
      (fun updates (member : PlanMember) => updates.insert member.pubkey member.power)
      (fun _ _ => rfl)
    exact (deleted _ _).trans (inserted _ _)
  · have deleted := foldl_keeps ValidatorSetUpdates.leaderReadmits ValidatorSetUpdates.delete
      (fun _ _ => rfl)
    have inserted := foldl_keeps ValidatorSetUpdates.leaderReadmits
      (fun updates (member : PlanMember) => updates.insert member.pubkey member.power)
      (fun _ _ => rfl)
    exact (deleted _ _).trans (inserted _ _)

theorem mem_memberUpdates_deletes (plan : EpochRotationPlan) :
    key ∈ (memberUpdates decodes plan).deletes ↔ key ∈ plan.deletes ∧ decodes key := by
  rw [memberUpdates_eq, mem_keyDeletes, memberInserts_deletes]
  simp

theorem memberUpdates_lookup (plan : EpochRotationPlan) (before : Option U64) :
    (if key ∈ (memberUpdates decodes plan).deletes then none
      else ((memberUpdates decodes plan).inserts.lookup key).or before) =
    if key ∈ plan.deletes ∧ decodes key then none
    else ((memberInserts decodes plan.members {}).inserts.lookup key).or before := by
  simp only [mem_memberUpdates_deletes]
  split
  · rfl
  · rename_i spared
    rw [memberUpdates_eq, keyDeletes_inserts, if_neg spared]

theorem exclusionUpdates_eq (plan : LeaderExclusionPlan) (updates : ValidatorSetUpdates) :
    exclusionUpdates decodes plan updates = (plan.readmit.filter decodes).foldl
      ValidatorSetUpdates.readmitLeader
        ((plan.exclude.filter decodes).foldl ValidatorSetUpdates.excludeLeader updates) := by
  unfold exclusionUpdates
  simp only [foldl_filter]

theorem exclusionUpdates_members (plan : LeaderExclusionPlan) (updates : ValidatorSetUpdates) :
    (exclusionUpdates decodes plan updates).inserts = updates.inserts ∧
      (exclusionUpdates decodes plan updates).deletes = updates.deletes := by
  rw [exclusionUpdates_eq]
  constructor
  · have readmitted := foldl_keeps ValidatorSetUpdates.inserts ValidatorSetUpdates.readmitLeader
      (fun _ _ => rfl)
    have excluded := foldl_keeps ValidatorSetUpdates.inserts ValidatorSetUpdates.excludeLeader
      (fun _ _ => rfl)
    exact (readmitted _ _).trans (excluded _ _)
  · have readmitted := foldl_keeps ValidatorSetUpdates.deletes ValidatorSetUpdates.readmitLeader
      (fun _ _ => rfl)
    have excluded := foldl_keeps ValidatorSetUpdates.deletes ValidatorSetUpdates.excludeLeader
      (fun _ _ => rfl)
    exact (readmitted _ _).trans (excluded _ _)

theorem mem_excludeAll (keys : List PubKey) (updates : ValidatorSetUpdates) :
    (key ∈ (keys.foldl ValidatorSetUpdates.excludeLeader updates).leaderExcludes ↔
      key ∈ updates.leaderExcludes ∨ key ∈ keys) ∧
    (key ∈ (keys.foldl ValidatorSetUpdates.excludeLeader updates).leaderReadmits ↔
      key ∈ updates.leaderReadmits ∧ key ∉ keys) := by
  induction keys generalizing updates with
  | nil => simp
  | cons first rest ih =>
    rw [foldl_cons, (ih _).1, (ih _).2]
    by_cases same : key = first
    · simp [same, ValidatorSetUpdates.excludeLeader]
    · simp [same, ValidatorSetUpdates.excludeLeader]

theorem mem_readmitAll (keys : List PubKey) (updates : ValidatorSetUpdates) :
    (key ∈ (keys.foldl ValidatorSetUpdates.readmitLeader updates).leaderReadmits ↔
      key ∈ updates.leaderReadmits ∨ key ∈ keys) ∧
    (key ∈ (keys.foldl ValidatorSetUpdates.readmitLeader updates).leaderExcludes ↔
      key ∈ updates.leaderExcludes ∧ key ∉ keys) := by
  induction keys generalizing updates with
  | nil => simp
  | cons first rest ih =>
    rw [foldl_cons, (ih _).1, (ih _).2]
    by_cases same : key = first
    · simp [same, ValidatorSetUpdates.readmitLeader]
    · simp [same, ValidatorSetUpdates.readmitLeader]

theorem mem_exclusionUpdates (plan : LeaderExclusionPlan) {updates : ValidatorSetUpdates}
    (noExcludes : updates.leaderExcludes = []) (noReadmits : updates.leaderReadmits = []) :
    (key ∈ (exclusionUpdates decodes plan updates).leaderExcludes ↔
      (key ∈ plan.exclude ∧ decodes key) ∧ ¬ (key ∈ plan.readmit ∧ decodes key)) ∧
    (key ∈ (exclusionUpdates decodes plan updates).leaderReadmits ↔
      key ∈ plan.readmit ∧ decodes key) := by
  rw [exclusionUpdates_eq, (mem_readmitAll _ _).1, (mem_readmitAll _ _).2, (mem_excludeAll _ _).1,
    (mem_excludeAll _ _).2, noExcludes, noReadmits]
  simp

def memberPart (decodes : PubKey → Bool) (plan : Option EpochRotationPlan) : ValidatorSetUpdates :=
  match plan with
  | some plan => if plan.changed then memberUpdates decodes plan else {}
  | none => {}

theorem memberPart_leaders (plan : Option EpochRotationPlan) :
    (memberPart decodes plan).leaderExcludes = [] ∧ (memberPart decodes plan).leaderReadmits =
    [] := by
  unfold memberPart
  cases plan with
  | none => exact ⟨rfl, rfl⟩
  | some plan =>
    dsimp only
    split
    · exact memberUpdates_leaders plan
    · exact ⟨rfl, rfl⟩

theorem epochValidatorSetUpdates_eq (plan : Option EpochRotationPlan)
    (exclusions : Option LeaderExclusionPlan) :
    (epochValidatorSetUpdates decodes plan exclusions).getD {} =
      match exclusions with
      | some exclusions => exclusionUpdates decodes exclusions (memberPart decodes plan)
      | none => memberPart decodes plan := by
  have members : (match plan with
      | some plan => if plan.changed then some (memberUpdates decodes plan) else none
      | none => none).getD {} = memberPart decodes plan := by
    unfold memberPart
    cases plan with
    | none => rfl
    | some plan =>
      dsimp only
      split
      · rfl
      · rfl
  unfold epochValidatorSetUpdates
  cases exclusions with
  | none => exact members
  | some exclusions =>
    dsimp only
    rw [Option.filter_some]
    split
    · rename_i kept found
      split at found
      · cases found
        rw [Option.getD_some]
        exact congrArg _ members
      · cases found
    · rename_i missed
      split at missed
      · cases missed
      · rename_i empty
        rw [Bool.or_eq_true, not_or] at empty
        simp only [Bool.not_eq_true', Bool.not_eq_false, List.isEmpty_iff] at empty
        refine members.trans ?_
        rw [exclusionUpdates_eq, empty.1, empty.2]
        rfl

end Updates

end TorusHyperBft.Epoch
