import TorusHyperBft.Epoch.Applied
import TorusHyperBft.Epoch.Rotated

namespace TorusHyperBft.Epoch

open List

/-! The set of consensus against the members and the exclusions of the rows, over one boundary. -/

open Staking EpochState

/-- Every excluded leader is a member. -/
def Seated (members : List PlanMember) (excluded : List ExcludedMember) : Prop :=
  ∀ one ∈ excluded, ∃ member ∈ members, member.excluded = one

/-- What an exclusion plan says, made when `installed` was installed. -/
structure ExclusionFits (installed : List ExcludedMember) (members : List PlanMember)
    (plan : LeaderExclusionPlan) : Prop where
  seated : Seated members plan.excluded
  exclude : ∀ key, key ∈ plan.exclude ↔
    key ∈ plan.excluded.map ExcludedMember.pubkey ∧ key ∉ installed.map ExcludedMember.pubkey
  readmit : ∀ key, key ∈ plan.readmit ↔ key ∈ installed.map ExcludedMember.pubkey ∧
    key ∈ members.map PlanMember.pubkey ∧ key ∉ plan.excluded.map ExcludedMember.pubkey

section Choice

variable {members : List PlanMember}

theorem Seated.append {excluded : List ExcludedMember} {member : PlanMember}
    (seated : Seated members excluded) (inside : member ∈ members) :
    Seated members (excluded ++ [member.excluded]) := by
  intro one either
  rcases mem_append.mp either with before | last
  · exact seated one before
  · exact ⟨member, inside, (mem_singleton.mp last).symm⟩

variable {choice : Exclusions}

theorem review_seated {stored : Address → LeaderStats} {windowFloor next : Nat}
    {member : PlanMember} (seated : Seated members choice.desired)
    (inside : member ∈ members) :
    Seated members (choice.review stored windowFloor next member).desired := by
  unfold Exclusions.review
  dsimp only
  split
  · split
    · exact seated
    · exact seated.append inside
  · exact seated

theorem leave_desired {stored : Address → LeaderStats} (choice : Exclusions) (address : Address) :
    (choice.leave stored members address).desired = choice.desired := by
  unfold Exclusions.leave
  split
  · rfl
  · rfl

theorem exclude_seated {params : DeadLeaderParams} {epochLength next total : Nat}
    {candidate : LeaderStats × PlanMember}
    (seated : Seated members choice.desired) (inside : candidate.2 ∈ members) :
    Seated members (choice.exclude params epochLength next total candidate).desired := by
  unfold Exclusions.exclude
  dsimp only
  split
  · exact seated
  · exact seated.append inside

theorem foldl_seated {item : Type} {turn : Exclusions → item → Exclusions} (items : List item)
    (kept : ∀ item ∈ items, ∀ choice : Exclusions, Seated members choice.desired →
      Seated members (turn choice item).desired)
    (seated : Seated members choice.desired) :
    Seated members (items.foldl turn choice).desired := by
  induction items generalizing choice with
  | nil => exact seated
  | cons item rest ih =>
    apply ih
    · exact fun other inside => kept other (mem_cons_of_mem _ inside)
    · exact kept item mem_cons_self choice seated

theorem chooseExclusions_seated (state : EpochState) (params : DeadLeaderParams)
    (members : List PlanMember) (height epochLength : Nat) :
    Seated members (state.chooseExclusions params members height epochLength).desired := by
  unfold chooseExclusions
  apply foldl_seated
  · intro candidate inside choice seated
    rw [mem_insertionSort] at inside
    obtain ⟨member, isMember, rfl⟩ := mem_map.mp (mem_of_mem_filter inside)
    exact exclude_seated seated isMember
  · rw [Program.foldl_keeps Exclusions.desired _ leave_desired]
    apply foldl_seated
    · intro member inside choice seated
      exact review_seated seated inside
    · exact fun _ none => nomatch none

theorem exclusionPlan_fits {installed desired : List ExcludedMember} {boundary : Nat}
    {plan : LeaderExclusionPlan} (seated : Seated members desired)
    (planned : exclusionPlan installed desired members boundary = some plan) :
    ExclusionFits installed members plan := by
  unfold exclusionPlan at planned
  dsimp only at planned
  split at planned
  · cases planned
  · cases planned
    refine ⟨seated, ?_, ?_⟩
    · intro key
      dsimp only
      rw [mem_insertionSort, mem_dedup, mem_filter, decide_eq_true_eq]
    · intro key
      dsimp only
      rw [mem_insertionSort, mem_dedup, mem_filter, decide_eq_true_eq]

end Choice

section Boundary

variable {decodes : PubKey → Bool} {state : EpochState} {current : List PlanMember}
  {set : ValidatorSet} {key : PubKey}

def installs (current : List PlanMember) (plan : Option EpochRotationPlan) : List PlanMember :=
  (plan.map EpochRotationPlan.members).getD current

/-- The consensus set has the members' keys, powers and exclusions. -/
structure Mirrors (set : ValidatorSet) (members : List PlanMember) (installed : List ExcludedMember) :
    Prop where
  powers : ∀ key power, set.powers.lookup key = some power ↔
    ∃ member ∈ members, member.pubkey = key ∧ member.power = power
  excluded : ∀ key, key ∈ set.leaderExcluded ↔ key ∈ installed.map ExcludedMember.pubkey
  seated : Seated members installed

variable {installed : List ExcludedMember}

theorem Mirrors.contains {members : List PlanMember} (mirrors : Mirrors set members installed) :
    (∃ power, set.powers.lookup key = some power) ↔ key ∈ members.map PlanMember.pubkey := by
  constructor
  · rintro ⟨power, found⟩
    obtain ⟨member, inside, rfl, _⟩ := (mirrors.powers key power).mp found
    exact mem_map_of_mem inside
  · intro inside
    obtain ⟨member, isMember, rfl⟩ := mem_map.mp inside
    exact ⟨member.power, (mirrors.powers _ _).mpr ⟨member, isMember, rfl, rfl⟩⟩

theorem EpochState.Carried.valid (carried : Carried state current) (keys : Keys decodes state)
    (inside : key ∈ current.map PlanMember.pubkey) : decodes key := by
  obtain ⟨member, isMember, rfl⟩ := mem_map.mp inside
  exact keys.valid _ _ (carried.rows member isMember)

theorem EpochState.Fits.stays {plan : EpochRotationPlan} (fits : Fits state current plan)
    (keys : Keys decodes state) (carried : Carried state current) {old member : PlanMember}
    (isOld : old ∈ current) (inside : member ∈ plan.members) (same : member.pubkey = old.pubkey) :
    member.address = old.address := by
  have row := carried.rows old isOld
  rcases fits.keys member inside with rotates | ⟨_, kept⟩
  · exact absurd (same ▸ row) (keys.askedFresh _ _ _ (fits.asked _ rotates))
  · exact keys.apart _ _ _ kept (same ▸ row)

variable {plan : Option EpochRotationPlan}

theorem installs_stays (fits : ∀ stored, plan = some stored → Fits state current stored)
    (keys : Keys decodes state) (carried : Carried state current) {old member : PlanMember}
    (isOld : old ∈ current) (inside : member ∈ installs current plan)
    (same : member.pubkey = old.pubkey) : member.address = old.address := by
  cases plan with
  | none => exact keys.apart _ _ _ (carried.rows member inside) (same ▸ carried.rows old isOld)
  | some plan => exact (fits plan rfl).stays keys carried isOld inside same

theorem mem_memberPart_deletes (fits : ∀ stored, plan = some stored → Fits state current stored)
    (keys : Keys decodes state) (carried : Carried state current)
    (old : key ∈ current.map PlanMember.pubkey) :
    key ∈ (memberPart decodes plan).deletes ↔ key ∉ (installs current plan).map PlanMember.pubkey := by
  unfold memberPart
  cases plan with
  | none => simpa [installs] using old
  | some plan =>
    have fitting := fits plan rfl
    dsimp only
    split
    · rename_i changed
      rw [mem_memberUpdates_deletes]
      constructor
      · exact fun deleted => fitting.spared key deleted.1
      · exact fun gone => ⟨fitting.deletes changed key old gone, carried.valid keys old⟩
    · rename_i unchanged
      have same := (fitting.unchanged (Bool.eq_false_iff.mpr unchanged)).1
      simpa [installs, same] using old

theorem memberPart_powers (fits : ∀ stored, plan = some stored → Fits state current stored)
    (keys : Keys decodes state) (carried : Carried state current)
    (mirrors : Mirrors set current installed) (power : U64) :
    (if key ∈ (memberPart decodes plan).deletes then none
      else ((memberPart decodes plan).inserts.lookup key).or (set.powers.lookup key)) = some power ↔
      ∃ member ∈ installs current plan, member.pubkey = key ∧ member.power = power := by
  cases plan with
  | none => simpa [memberPart, installs] using mirrors.powers key power
  | some plan =>
    have fitting := fits plan rfl
    by_cases changed : plan.changed
    · have part : memberPart decodes (some plan) = memberUpdates decodes plan := if_pos changed
      rw [part, memberUpdates_lookup]
      change _ ↔ ∃ member ∈ plan.members, _
      by_cases seat : key ∈ plan.members.map PlanMember.pubkey
      · obtain ⟨member, inside, rfl⟩ := mem_map.mp seat
        have spared : ¬ (member.pubkey ∈ plan.deletes ∧ decodes member.pubkey) :=
          fun deleted => fitting.spared _ deleted.1 (mem_map_of_mem inside)
        rw [if_neg spared, memberInserts_present (fitting.pubkeys_distinct keys)
          inside (fitting.valid keys inside), Option.some_or]
        constructor
        · intro same
          exact ⟨member, inside, rfl, Option.some.inj same⟩
        · rintro ⟨other, otherInside, sameKey, rfl⟩
          have same := eq_of_address fitting.distinct otherInside inside
            (fitting.apart keys otherInside inside sameKey)
          rw [same]
      · have absent := @memberInserts_absent decodes key plan.members seat {}
        have gone : ¬ ∃ member ∈ plan.members, member.pubkey = key ∧ member.power = power := by
          rintro ⟨other, inside, rfl, _⟩
          exact seat (mem_map_of_mem inside)
        rw [iff_false_right gone]
        split
        · exact fun impossible => nomatch impossible
        · rename_i spared
          rw [absent]
          intro found
          have old := mirrors.contains.mp ⟨power, by simpa using found⟩
          exact spared ⟨fitting.deletes changed key old seat, carried.valid keys old⟩
    · have part : memberPart decodes (some plan) = {} := if_neg changed
      have same := (fitting.unchanged (Bool.eq_false_iff.mpr changed)).1
      rw [part]
      simpa [installs, same] using mirrors.powers key power

def installedNext (before : List ExcludedMember) (members : List PlanMember)
    (plan : Option LeaderExclusionPlan) : List ExcludedMember :=
  match plan with
  | some plan => plan.excluded
  | none => before.filter fun excluded => members.any fun member =>
    member.address = excluded.address ∧ member.pubkey = excluded.pubkey

theorem Mirrors.applyUpdates {exclusions : Option LeaderExclusionPlan}
    (mirrors : Mirrors set current installed) (keys : Keys decodes state)
    (carried : Carried state current)
    (fits : ∀ stored, plan = some stored → Fits state current stored)
    (exclusionFits : ∀ stored, exclusions = some stored →
      ExclusionFits installed (installs current plan) stored)
    (valid : ∀ member ∈ installs current plan, decodes member.pubkey) :
    Mirrors (set.applyUpdates ((epochValidatorSetUpdates decodes plan exclusions).getD {}))
      (installs current plan) (installedNext installed (installs current plan) exclusions) := by
  have installedOld : ∀ key, key ∈ installed.map ExcludedMember.pubkey →
      key ∈ current.map PlanMember.pubkey := by
    intro key inside
    obtain ⟨one, isInstalled, rfl⟩ := mem_map.mp inside
    obtain ⟨member, isMember, rfl⟩ := mirrors.seated one isInstalled
    exact mem_map_of_mem isMember
  have deletes : ∀ key, key ∈ current.map PlanMember.pubkey →
      (key ∈ (memberPart decodes plan).deletes ↔
        key ∉ (installs current plan).map PlanMember.pubkey) :=
    fun key old => mem_memberPart_deletes fits keys carried old
  have noLeaders := @memberPart_leaders decodes plan
  rw [epochValidatorSetUpdates_eq]
  cases exclusions with
  | none =>
    have kept : ∀ one, one ∈ installedNext installed (installs current plan) none ↔
        one ∈ installed ∧ ∃ member ∈ installs current plan, member.excluded = one := by
      rintro ⟨address, pubkey⟩
      unfold installedNext
      rw [mem_filter, any_eq_true]
      simp only [decide_eq_true_eq, PlanMember.excluded, ExcludedMember.mk.injEq]
    refine ⟨?_, ?_, fun one inside => ((kept one).mp inside).2⟩
    · intro key power
      rw [ValidatorSet.applyUpdates_lookup]
      exact memberPart_powers fits keys carried mirrors power
    · intro key
      rw [ValidatorSet.mem_applyUpdates, noLeaders.1, noLeaders.2, mirrors.excluded]
      constructor
      · rintro (⟨inside, spared, _⟩ | ⟨none, _⟩)
        · rw [deletes key (installedOld key inside), not_not] at spared
          obtain ⟨one, isInstalled, rfl⟩ := mem_map.mp inside
          obtain ⟨member, isMember, same⟩ := mem_map.mp spared
          obtain ⟨old, isOld, rfl⟩ := mirrors.seated one isInstalled
          have sameAddress := installs_stays fits keys carried isOld isMember same
          refine mem_map_of_mem ((kept _).mpr ⟨isInstalled, member, isMember, ?_⟩)
          unfold PlanMember.excluded
          rw [sameAddress, same]
          rfl
        · cases none
      · intro inside
        obtain ⟨one, isNext, rfl⟩ := mem_map.mp inside
        obtain ⟨isInstalled, member, isMember, rfl⟩ := (kept one).mp isNext
        have before : member.excluded.pubkey ∈ installed.map ExcludedMember.pubkey :=
          mem_map_of_mem isInstalled
        refine .inl ⟨before, ?_, not_mem_nil⟩
        rw [deletes _ (installedOld _ before), not_not]
        exact mem_map_of_mem isMember
  | some exclusions =>
    have fitting := exclusionFits exclusions rfl
    have sameMembers := @exclusionUpdates_members decodes exclusions (memberPart decodes plan)
    have powers : ∀ key power, (set.applyUpdates (exclusionUpdates decodes exclusions
        (memberPart decodes plan))).powers.lookup key = some power ↔
        ∃ member ∈ installs current plan, member.pubkey = key ∧ member.power = power := by
      intro key power
      rw [ValidatorSet.applyUpdates_lookup, sameMembers.1, sameMembers.2]
      exact memberPart_powers fits keys carried mirrors power
    refine ⟨powers, ?_, fitting.seated⟩
    intro key
    have leaders := @mem_exclusionUpdates decodes key exclusions _ noLeaders.1 noLeaders.2
    have excludedSeat : key ∈ exclusions.excluded.map ExcludedMember.pubkey →
        key ∈ (installs current plan).map PlanMember.pubkey := by
      intro inside
      obtain ⟨one, isExcluded, rfl⟩ := mem_map.mp inside
      obtain ⟨member, isMember, rfl⟩ := fitting.seated one isExcluded
      exact mem_map_of_mem isMember
    rw [ValidatorSet.mem_applyUpdates, leaders.1, leaders.2, sameMembers.2, mirrors.excluded]
    change _ ↔ key ∈ exclusions.excluded.map ExcludedMember.pubkey
    constructor
    · rintro (⟨inside, spared, stays⟩ | ⟨⟨⟨excludes, _⟩, _⟩, _⟩)
      · have old := installedOld key inside
        rw [deletes key old, not_not] at spared
        by_contra released
        exact stays ⟨(fitting.readmit key).mpr ⟨inside, spared, released⟩, carried.valid keys old⟩
      · exact ((fitting.exclude key).mp excludes).1
    · intro excluded
      have seat := excludedSeat excluded
      have kept : ¬ (key ∈ exclusions.readmit ∧ decodes key) :=
        fun readmits => ((fitting.readmit key).mp readmits.1).2.2 excluded
      by_cases before : key ∈ installed.map ExcludedMember.pubkey
      · refine .inl ⟨before, ?_, kept⟩
        rw [deletes key (installedOld key before), not_not]
        exact seat
      · obtain ⟨member, isMember, rfl⟩ := mem_map.mp seat
        refine .inr ⟨⟨⟨(fitting.exclude _).mpr ⟨excluded, before⟩, valid member isMember⟩, kept⟩, ?_⟩
        unfold ValidatorSet.contains
        rw [(powers member.pubkey member.power).mpr ⟨member, isMember, rfl, rfl⟩]
        rfl

end Boundary

end TorusHyperBft.Epoch
