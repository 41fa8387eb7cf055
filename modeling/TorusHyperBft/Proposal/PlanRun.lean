import TorusHyperBft.Proposal.Plan

namespace TorusHyperBft.Proposal

open Chain (EpochPlanNotReady PlanEvm)
open Epoch (ValidatorSetUpdates isEpochBoundary)
open Relation (ReflTransGen)

/-! Execution writes, hands over and prunes the plans that consensus reads meanwhile. -/

namespace PlanHandoff

def publishPlan (handoff : PlanHandoff) (executed epochLength boundary : U64)
    (rows : BoundaryRows) : PlanHandoff :=
  { handoff with
    plan := fun other =>
      if other = boundary then some rows
      else if executed.saturatingSub epochLength < other then handoff.plan other
      else none }

def retractPlan (handoff : PlanHandoff) (boundary : U64) : PlanHandoff :=
  { handoff with plan := fun other => if other = boundary then none else handoff.plan other }

def setLogical (handoff : PlanHandoff) (height : U64) : PlanHandoff :=
  { handoff with logical := height }

end PlanHandoff

/-- The rows and the marker on disk, and what a process has of its own. -/
structure PlanNode where
  planRow : U64 → Option (List Byte) := fun _ => none
  lxPlanRow : U64 → Option (List Byte) := fun _ => none
  applied : Option U64 := none
  executed : U64 := 0
  failed : Bool := false
  handoff : Option PlanHandoff

namespace PlanNode

def durable (node : PlanNode) : U64 := node.applied.getD 0

def fresh (enabled : Bool) : Option PlanHandoff :=
  if enabled then some { logical := 0, plan := fun _ => none } else none

def restart (node : PlanNode) (enabled : Bool) : PlanNode :=
  { node with executed := node.durable, failed := false, handoff := fresh enabled }

variable (epochLength : U64) (written : U64 → BoundaryRows)

/-- The next height becomes durable.  A checkpoint makes several durable with no read between. -/
def flush (node : PlanNode) (height : U64) : PlanNode :=
  if isEpochBoundary height.val epochLength.val then
    let previous := height.saturatingSub epochLength
    let next := height.saturatingAdd epochLength
    { node with
      applied := some height
      planRow := Function.update (Function.update node.planRow previous none) next
        (some (written height).plan)
      lxPlanRow := Function.update (Function.update node.lxPlanRow previous none) next
        ((written height).lxPlan <|> node.lxPlanRow next) }
  else { node with applied := some height }

/-- A boundary is executed only while the next one still has a height. -/
inductive Step : PlanNode → PlanNode → Prop where
  | publish {node : PlanNode} (height : U64) (running : node.failed = false)
      (turn : height.val = node.executed.val + 1 ∨ height = node.executed)
      (boundary : isEpochBoundary height.val epochLength.val)
      (room : height.val + epochLength.val < 2 ^ 64) :
      Step node { node with
        handoff := node.handoff.map fun handoff => handoff.publishPlan height epochLength
          (height.saturatingAdd epochLength) (written height) }
  | execute {node : PlanNode} (height : U64) (running : node.failed = false)
      (turn : height.val = node.executed.val + 1) : Step node { node with executed := height }
  | logical {node : PlanNode} :
      Step node { node with handoff := node.handoff.map (·.setLogical node.executed) }
  | retract {node : PlanNode} (height : U64) (turn : height.val = node.executed.val + 1) :
      Step node { node with
        failed := true
        handoff := node.handoff.map (·.retractPlan (height.saturatingAdd epochLength)) }
  | flush {node : PlanNode} (height : U64) (turn : height.val = node.durable.val + 1)
      (executed : height ≤ node.executed)
      (room : isEpochBoundary height.val epochLength.val → height.val + epochLength.val < 2 ^ 64) :
      Step node (node.flush epochLength written height)

abbrev Steps := ReflTransGen (Step epochLength written)

/-- A read meets the marker, the logical height, the map and the two rows one after the other;
reads of the disk may fail. -/
structure Sampled (first last : PlanNode) (height : U64) (reads : PlanReads) : Prop where
  length : reads.epochLength = epochLength
  sampled : ∃ counted mapped planned,
    Steps epochLength written first counted ∧ Steps epochLength written counted mapped ∧
    Steps epochLength written mapped planned ∧ Steps epochLength written planned last ∧
    (∀ applied, reads.appliedHeight = .ok applied → applied = first.applied) ∧
    reads.planHandoff = (mapped.handoff.map fun handoff =>
      { handoff with logical := counted.handoff.elim 0 PlanHandoff.logical }) ∧
    ∀ row, reads.planRow height = .ok row → row = planned.planRow height
  lxPlanRow : ∀ row, reads.lxPlanRow height = .ok row → row = last.lxPlanRow height

/-- The update of a boundary after the first is not read from rows that were pruned meanwhile. -/
def Timely (last : PlanNode) (height : U64) (reads : PlanReads) : Prop :=
  reads.cachedVsUpdates.filter (fun cached => cached.1 = height) = none →
    reads.boundaryPlanSource height = .ok none → 2 * epochLength.val ≤ height.val →
    last.durable.val < height.val + epochLength.val

/-- A node and the update it has cached, after any steps, restarts and timely reads. -/
inductive Reaches (codec : PlanCodec) :
    PlanNode → Option (U64 × Option ValidatorSetUpdates) → Prop where
  | boot (enabled : Bool) : Reaches codec { handoff := fresh enabled } none
  | step {node next : PlanNode} {cache : Option (U64 × Option ValidatorSetUpdates)}
      (reached : Reaches codec node cache) (step : Step epochLength written node next) :
      Reaches codec next cache
  | restart {node : PlanNode} {cache : Option (U64 × Option ValidatorSetUpdates)} (enabled : Bool)
      (reached : Reaches codec node cache) : Reaches codec (node.restart enabled) none
  | read {first last : PlanNode} {height : U64} {reads after : PlanReads}
      {updates : Option ValidatorSetUpdates}
      (reached : Reaches codec first reads.cachedVsUpdates)
      (sampled : Sampled epochLength written first last height reads)
      (timely : Timely epochLength last height reads)
      (answered : reads.epochValidatorSetUpdates codec height = .ok (updates, after)) :
      Reaches codec last after.cachedVsUpdates

/-- The rows for a boundary; the first has none. -/
def rowsFor (height : U64) : Option BoundaryRows :=
  if 2 * epochLength.val ≤ height.val then some (written (height.saturatingSub epochLength))
  else none

/-- A row is on disk from the execution of the boundary before until that of the one after. -/
def onDisk (durable height : U64) : Option BoundaryRows :=
  if height.val ≤ durable.val + epochLength.val ∧ durable.val < height.val + epochLength.val then
    rowsFor epochLength written height
  else none

/-- Disk and memory hold what was written for their heights. -/
structure Exact (node : PlanNode) : Prop where
  disk : ∀ height : U64, isEpochBoundary height.val epochLength.val →
    node.planRow height =
      (onDisk epochLength written node.durable height).map BoundaryRows.plan ∧
    node.lxPlanRow height =
      (onDisk epochLength written node.durable height).bind BoundaryRows.lxPlan
  memory : ∀ handoff ∈ node.handoff, ∀ height rows, handoff.plan height = some rows →
    rowsFor epochLength written height = some rows

variable {epochLength : U64} {written : U64 → BoundaryRows} {node next first last : PlanNode}
  {height : U64}

theorem saturatingSub_val (left right : U64) :
    (left.saturatingSub right).val = left.val - right.val := by
  simp only [U64.saturatingSub, U64.ofNatSaturating_val]
  omega

theorem saturatingAdd_val {left right : U64} (room : left.val + right.val < 2 ^ 64) :
    (left.saturatingAdd right).val = left.val + right.val := by
  simp only [U64.saturatingAdd, U64.ofNatSaturating_val]
  omega

theorem length_le (boundary : isEpochBoundary height.val epochLength.val) :
    0 < epochLength.val ∧ epochLength.val ≤ height.val := by
  simp only [isEpochBoundary, decide_eq_true_eq] at boundary
  exact ⟨by omega, Nat.le_of_dvd (by omega) (Nat.dvd_of_mod_eq_zero boundary.2.2)⟩

theorem rowsFor_next (boundary : isEpochBoundary height.val epochLength.val)
    (room : height.val + epochLength.val < 2 ^ 64) :
    rowsFor epochLength written (height.saturatingAdd epochLength) = some (written height) := by
  have next := saturatingAdd_val room
  have long := length_le boundary
  have back : (height.saturatingAdd epochLength).saturatingSub epochLength = height := by
    rw [Fin.ext_iff, saturatingSub_val, next, Nat.add_sub_cancel]
  rw [rowsFor, if_pos (by omega), back]

theorem onDisk_skip {durable other : U64} (turn : height.val = durable.val + 1)
    (notNext : other.val ≠ height.val + epochLength.val)
    (notPrevious : other.val + epochLength.val ≠ height.val) :
    onDisk epochLength written durable other = onDisk epochLength written height other :=
  if_congr (by omega) rfl rfl

theorem Exact.flush (exact : Exact epochLength written node)
    (turn : height.val = node.durable.val + 1)
    (room : isEpochBoundary height.val epochLength.val → height.val + epochLength.val < 2 ^ 64) :
    Exact epochLength written (node.flush epochLength written height) := by
  unfold PlanNode.flush
  split
  · rename_i boundary
    replace room := room boundary
    refine ⟨fun other isBoundary => ?_, exact.memory⟩
    have long := length_le boundary
    have previousVal := saturatingSub_val height epochLength
    have nextVal := saturatingAdd_val room
    obtain ⟨plan, lxPlan⟩ := exact.disk other isBoundary
    change _ = (onDisk epochLength written height other).map _ ∧
      _ = (onDisk epochLength written height other).bind _
    dsimp only
    rcases Decidable.em (other = height.saturatingAdd epochLength) with rfl | notNext
    · rw [onDisk, if_neg (by omega)] at lxPlan
      rw [Function.update_self, Function.update_self, lxPlan, onDisk, if_pos (by omega),
        rowsFor_next boundary room]
      exact ⟨rfl, by simp⟩
    · rw [Function.update_of_ne notNext, Function.update_of_ne notNext]
      rcases Decidable.em (other = height.saturatingSub epochLength) with rfl | notPrevious
      · rw [Function.update_self, Function.update_self, onDisk, if_neg (by omega)]
        exact ⟨rfl, rfl⟩
      · rw [Function.update_of_ne notPrevious, Function.update_of_ne notPrevious, plan, lxPlan,
          onDisk_skip turn (fun same => notNext (Fin.ext (by omega)))
            (fun same => notPrevious (Fin.ext (by omega)))]
        exact ⟨rfl, rfl⟩
  · rename_i inner
    refine ⟨fun other isBoundary => ?_, exact.memory⟩
    obtain ⟨plan, lxPlan⟩ := exact.disk other isBoundary
    simp only [isEpochBoundary, decide_eq_true_eq] at inner isBoundary
    have notNext : other.val ≠ height.val + epochLength.val := by
      intro same
      rw [same, Nat.add_mod_right] at isBoundary
      omega
    have notPrevious : other.val + epochLength.val ≠ height.val := by
      intro same
      rw [← same, Nat.add_mod_right] at inner
      omega
    rw [onDisk_skip turn notNext notPrevious] at plan lxPlan
    exact ⟨plan, lxPlan⟩

/-- Every step keeps the rows exact and the durable marker from falling. -/
theorem Exact.step (exact : Exact epochLength written node)
    (step : Step epochLength written node next) :
    Exact epochLength written next ∧ node.durable ≤ next.durable := by
  cases step with
  | publish height running turn boundary room =>
    refine ⟨⟨exact.disk, fun handoff member other rows found => ?_⟩, le_refl _⟩
    obtain ⟨before, had, rfl⟩ := Option.map_eq_some_iff.mp member
    simp only [PlanHandoff.publishPlan] at found
    split at found
    · rename_i same
      rw [same, rowsFor_next boundary room, found]
    · split at found
      · exact exact.memory before had other rows found
      · cases found
  | execute height running turn => exact ⟨⟨exact.disk, exact.memory⟩, le_refl _⟩
  | logical =>
    refine ⟨⟨exact.disk, fun handoff member => ?_⟩, le_refl _⟩
    obtain ⟨before, had, rfl⟩ := Option.map_eq_some_iff.mp member
    exact exact.memory before had
  | retract height turn =>
    refine ⟨⟨exact.disk, fun handoff member other rows found => ?_⟩, le_refl _⟩
    obtain ⟨before, had, rfl⟩ := Option.map_eq_some_iff.mp member
    simp only [PlanHandoff.retractPlan] at found
    split at found
    · cases found
    · exact exact.memory before had other rows found
  | flush height turn executed room =>
    refine ⟨exact.flush turn room, Fin.le_def.mpr ?_⟩
    have after : (node.flush epochLength written height).durable = height := by
      unfold PlanNode.flush
      split <;> rfl
    rw [after]
    omega

theorem Exact.steps (exact : Exact epochLength written node)
    (steps : Steps epochLength written node next) :
    Exact epochLength written next ∧ node.durable ≤ next.durable := by
  induction steps with
  | refl => exact ⟨exact, le_refl _⟩
  | tail _ step ih =>
    obtain ⟨kept, later⟩ := ih.1.step step
    exact ⟨kept, ih.2.trans later⟩

variable {codec : PlanCodec} {reads : PlanReads} {rows : BoundaryRows}

theorem source_memory (source : reads.boundaryPlanSource height = .ok (some rows)) :
    ∃ handoff, reads.planHandoff = some handoff ∧ handoff.plan height = some rows := by
  unfold PlanReads.boundaryPlanSource PlanHandoff.source at source
  grind

theorem source_db (source : reads.boundaryPlanSource height = .ok none) :
    ∃ applied, reads.appliedHeight = .ok applied ∧
      height.saturatingSub reads.epochLength ≤ applied.getD 0 := by
  unfold PlanReads.boundaryPlanSource PlanHandoff.source at source
  grind

theorem Sampled.memory (sampled : Sampled epochLength written first last height reads)
    (exact : Exact epochLength written first)
    (source : reads.boundaryPlanSource height = .ok (some rows)) :
    rowsFor epochLength written height = some rows := by
  obtain ⟨counted, mapped, planned, counts, maps, -, -, -, isHandoff, -⟩ := sampled.sampled
  obtain ⟨handoff, held, found⟩ := source_memory source
  rw [isHandoff] at held
  obtain ⟨before, had, rfl⟩ := Option.map_eq_some_iff.mp held
  exact ((exact.steps counts).1.steps maps).1.memory before had height rows found

theorem Sampled.db (sampled : Sampled epochLength written first last height reads)
    (exact : Exact epochLength written first)
    (boundary : isEpochBoundary height.val epochLength.val)
    (source : reads.boundaryPlanSource height = .ok none) :
    ∃ durable : U64, height.val ≤ durable.val + epochLength.val ∧ durable ≤ last.durable ∧
      (∀ row, reads.planRow height = .ok row →
        row = (onDisk epochLength written durable height).map BoundaryRows.plan) ∧
      ∀ row, reads.lxPlanRow height = .ok row →
        row = (onDisk epochLength written last.durable height).bind BoundaryRows.lxPlan := by
  obtain ⟨counted, mapped, planned, counts, maps, plans, ends, isApplied, -, isPlan⟩ :=
    sampled.sampled
  obtain ⟨applied, read, ready⟩ := source_db source
  obtain ⟨keeps, later⟩ := exact.steps (counts.trans (maps.trans plans))
  obtain ⟨stays, latest⟩ := keeps.steps ends
  rw [isApplied applied read, sampled.length, Fin.le_def, saturatingSub_val] at ready
  change _ ≤ first.durable.val at ready
  rw [Fin.le_def] at later
  refine ⟨planned.durable, by omega, latest, fun row found => ?_, fun row found => ?_⟩
  · rw [isPlan row found, (keeps.disk height boundary).1]
  · rw [sampled.lxPlanRow row found, (stays.disk height boundary).2]

theorem onDisk_eq {durable : U64} (ready : height.val ≤ durable.val + epochLength.val)
    (timely : 2 * epochLength.val ≤ height.val → durable.val < height.val + epochLength.val) :
    onDisk epochLength written durable height = rowsFor epochLength written height := by
  unfold onDisk rowsFor
  split
  · rfl
  · rw [if_neg (by omega)]

theorem answered_rows (boundary : reads.isBoundary height)
    (uncached : reads.cachedVsUpdates.filter (fun cached => decide (cached.1 = height)) = none)
    {answer : Option ValidatorSetUpdates × PlanReads}
    (answered : reads.epochValidatorSetUpdates codec height = .ok answer) :
    ∃ rows, reads.boundaryPlanSource height = .ok rows ∧
      (rows = none → ∃ plan lxPlan, reads.planRow height = .ok plan ∧
        reads.lxPlanRow height = .ok lxPlan) := by
  simp only [PlanReads.epochValidatorSetUpdates, boundary, uncached, bind, Except.bind,
    Bool.not_true, Bool.false_eq_true, if_false] at answered
  cases source : reads.boundaryPlanSource height with
  | error reason => simp [source] at answered
  | ok rows =>
    refine ⟨rows, rfl, fun isNone => ?_⟩
    subst isNone
    cases read : reads.planRow height with
    | error reason => simp [source, PlanReads.epochPlanFrom, PlanReads.readRow, read] at answered
    | ok plan =>
      cases readLx : reads.lxPlanRow height with
      | error reason =>
        simp only [source, PlanReads.exclusionPlanFrom, PlanReads.readRow, readLx] at answered
        split at answered <;> cases answered
      | ok lxPlan => exact ⟨plan, lxPlan, rfl, rfl⟩

section Exactly

variable (codec : PlanCodec) (epochLength : U64) (written : U64 → BoundaryRows) (height : U64)

def exactUpdates : Except EpochPlanNotReady (Option ValidatorSetUpdates) :=
  PlanReads.updatesOf codec ((rowsFor epochLength written height).map BoundaryRows.plan)
    ((rowsFor epochLength written height).bind BoundaryRows.lxPlan)

def exactEvm : Except EpochPlanNotReady (Option PlanEvm) :=
  (PlanReads.readRow codec.decodePlan
    (.ok ((rowsFor epochLength written height).map BoundaryRows.plan))).map
      fun plan => plan.map StoredPlan.evm

end Exactly

theorem Sampled.updates (sampled : Sampled epochLength written first last height reads)
    (exact : Exact epochLength written first)
    (boundary : isEpochBoundary height.val epochLength.val)
    (cached : ∀ updates, reads.cachedVsUpdates = some (height, updates) →
      exactUpdates codec epochLength written height = .ok updates)
    (timely : Timely epochLength last height reads)
    {updates : Option ValidatorSetUpdates} {after : PlanReads}
    (answered : reads.epochValidatorSetUpdates codec height = .ok (updates, after)) :
    exactUpdates codec epochLength written height = .ok updates := by
  have isBoundary : reads.isBoundary height := by
    rw [PlanReads.isBoundary, sampled.length]
    exact boundary
  cases uncached : reads.cachedVsUpdates.filter (fun cached => decide (cached.1 = height)) with
  | some hit =>
    obtain ⟨stored, sameHeight⟩ := Option.filter_eq_some_iff.mp uncached
    obtain ⟨heightOf, held⟩ := hit
    rw [decide_eq_true_eq] at sameHeight
    simp only [PlanReads.epochValidatorSetUpdates, isBoundary, uncached] at answered
    cases answered
    exact cached updates (by rw [stored, ← sameHeight])
  | none =>
    obtain ⟨rows, source, read⟩ := answered_rows isBoundary uncached answered
    have finds : PlanReads.Finds reads height
        ((rowsFor epochLength written height).map BoundaryRows.plan)
        ((rowsFor epochLength written height).bind BoundaryRows.lxPlan) := by
      cases rows with
      | some rows =>
        have same := sampled.memory exact source
        exact .memory rows source (by rw [same]; rfl) (by rw [same]; rfl)
      | none =>
        obtain ⟨plan, lxPlan, isPlan, isLxPlan⟩ := read rfl
        obtain ⟨durable, ready, early, planned, excluded⟩ := sampled.db exact boundary source
        have timely := timely uncached source
        rw [Fin.le_def] at early
        refine .db source ?_ ?_
        · rw [isPlan, planned plan isPlan, onDisk_eq ready (by omega)]
        · rw [isLxPlan, excluded lxPlan isLxPlan, onDisk_eq (by omega) timely]
    rw [exactUpdates, ← finds.updates isBoundary uncached, answered]
    rfl

theorem evm_answer {found : Except EpochPlanNotReady (Option StoredPlan)} {late : Prop}
    [Decidable late] {evm : Option PlanEvm}
    (answered : (match found with
      | .error reason => .error reason
      | .ok (some plan) => .ok (some plan.evm)
      | .ok none => if late then .error {} else .ok none) = Except.ok evm) :
    (found.map fun plan => plan.map StoredPlan.evm) = .ok evm := by
  rcases found with reason | (_ | plan)
  · cases answered
  · dsimp only at answered
    split at answered
    · cases answered
    · exact answered
  · exact answered

/-- A pruned plan is refused, so that the EVM values need no timely read. -/
theorem Sampled.evm (sampled : Sampled epochLength written first last height reads)
    (exact : Exact epochLength written first)
    (boundary : isEpochBoundary height.val epochLength.val) {evm : Option PlanEvm}
    (answered : reads.boundaryEvm codec height = .ok evm) :
    exactEvm codec epochLength written height = .ok evm := by
  have isBoundary : reads.isBoundary height := by
    rw [PlanReads.isBoundary, sampled.length]
    exact boundary
  simp only [PlanReads.boundaryEvm, isBoundary, PlanReads.epochPlan, bind, Except.bind,
    Bool.not_true, Bool.false_eq_true, if_false] at answered
  cases source : reads.boundaryPlanSource height with
  | error reason => simp [source] at answered
  | ok rows =>
    simp only [source] at answered
    cases rows with
    | some rows =>
      rw [exactEvm, sampled.memory exact source]
      exact evm_answer answered
    | none =>
      obtain ⟨durable, ready, -, planned, -⟩ := sampled.db exact boundary source
      cases read : reads.planRow height with
      | error reason => simp [PlanReads.epochPlanFrom, PlanReads.readRow, read] at answered
      | ok row =>
        rw [PlanReads.epochPlanFrom, read, planned row read] at answered
        rcases Decidable.em (2 * epochLength.val ≤ height.val →
          durable.val < height.val + epochLength.val) with timely | late
        · rw [onDisk_eq ready timely] at answered
          exact evm_answer answered
        · rw [onDisk, if_neg (by omega), sampled.length] at answered
          have refused : epochLength.saturatingMul 2 ≤ height := by
            simp only [Fin.le_def, U64.saturatingMul, U64.ofNatSaturating_val]
            change min (epochLength.val * 2) _ ≤ _
            omega
          simp [PlanReads.readRow, refused] at answered

theorem fresh_plan {enabled : Bool} {handoff : PlanHandoff}
    (member : handoff ∈ fresh enabled) (height : U64) : handoff.plan height ≠ some rows := by
  cases enabled with
  | false => cases member
  | true =>
    cases member
    simp

theorem Reaches.exact {cache : Option (U64 × Option ValidatorSetUpdates)}
    (reached : Reaches epochLength written codec node cache) :
    Exact epochLength written node ∧ ∀ height updates, cache = some (height, updates) →
      isEpochBoundary height.val epochLength.val →
      exactUpdates codec epochLength written height = .ok updates := by
  induction reached with
  | boot enabled =>
    refine ⟨⟨fun other isBoundary => ?_, fun handoff member other rows found => ?_⟩, by simp⟩
    · have long := length_le isBoundary
      have zero : durable { handoff := fresh enabled } = 0 := rfl
      have first : (0 : U64).val = 0 := rfl
      have absent : onDisk epochLength written 0 other = none := by
        unfold onDisk rowsFor
        grind
      rw [zero, absent]
      exact ⟨rfl, rfl⟩
    · exact absurd found (fresh_plan member other)
  | step _ step ih => exact ⟨(ih.1.step step).1, ih.2⟩
  | restart enabled _ ih =>
    exact ⟨⟨ih.1.disk, fun handoff member other rows found =>
      absurd found (fresh_plan member other)⟩, by simp⟩
  | read _ sampled timely answered ih =>
    obtain ⟨counted, mapped, planned, counts, maps, plans, ends, -⟩ := sampled.sampled
    refine ⟨(ih.1.steps (counts.trans (maps.trans (plans.trans ends)))).1, ?_⟩
    intro height updates isCached boundary
    rcases PlanReads.epochValidatorSetUpdates_after answered with rfl | rfl
    · exact ih.2 height updates isCached boundary
    · cases isCached
      exact sampled.updates ih.1 boundary (fun held stored => ih.2 _ held stored boundary) timely
        answered

/-- Every answer is computed from the rows for the boundary, on any node that executes the same
blocks: the EVM values whenever they are read, the update while its reads are timely. -/
theorem plan_reads_exact (reached : Reaches epochLength written codec first reads.cachedVsUpdates)
    (sampled : Sampled epochLength written first last height reads)
    (boundary : isEpochBoundary height.val epochLength.val) :
    (∀ updates after, Timely epochLength last height reads →
      reads.epochValidatorSetUpdates codec height = .ok (updates, after) →
      exactUpdates codec epochLength written height = .ok updates) ∧
    ∀ evm, reads.boundaryEvm codec height = .ok evm →
      exactEvm codec epochLength written height = .ok evm := by
  obtain ⟨exact, cached⟩ := reached.exact
  refine ⟨fun updates after timely answered => ?_, fun evm answered => ?_⟩
  · exact sampled.updates exact boundary (fun held stored => cached _ held stored boundary) timely
      answered
  · exact sampled.evm exact boundary answered

def newSet : PlanCodec where
  decodePlan _ := some {
    rotation := {
      boundary := 2
      members := (List.range 4).map fun i =>
        { address := Fin.ofNat _ i, pubkey := BitVec.ofNat 256 i, power := 1, commissionBps := 0 }
      changed := true }
    evm := {} }
  decodeExclusions _ := none
  decodesKey _ := true

def someRows (_ : U64) : BoundaryRows := { plan := [], lxPlan := none }

/-- Heights one to three are executed with the hand-off off, and the first of them is durable. -/
def flushedOne : PlanNode :=
  PlanNode.flush 1 someRows { executed := 3, handoff := none } 1

def flushedThree : PlanNode :=
  (flushedOne.flush 1 someRows 2).flush 1 someRows 3

def readsOf (node : PlanNode) : PlanReads where
  epochLength := 1
  appliedHeight := .ok node.applied
  planHandoff := none
  planRow := fun height => .ok (node.planRow height)
  lxPlanRow := fun height => .ok (node.lxPlanRow height)
  cachedVsUpdates := none

theorem reaches_flushedOne : Reaches 1 someRows newSet flushedOne none :=
  .step (.step (.step (.step (.boot false) (.execute 1 rfl rfl)) (.execute 2 rfl rfl))
    (.execute 3 rfl rfl)) (.flush 1 rfl (by decide) (by decide))

theorem sampled_readsOf {node : PlanNode} (off : node.handoff = none) :
    Sampled 1 someRows node node 2 (readsOf node) where
  length := rfl
  sampled := by
    refine ⟨node, node, node, .refl, .refl, .refl, .refl, ?_, ?_, ?_⟩
    · rintro applied ⟨⟩
      rfl
    · rw [off]
      rfl
    · rintro row ⟨⟩
      rfl
  lxPlanRow := by
    rintro row ⟨⟩
    rfl

theorem plan_reads_exact_flushedOne : ∃ updates after,
    (readsOf flushedOne).epochValidatorSetUpdates newSet 2 = .ok (some updates, after) ∧
      exactUpdates newSet 1 someRows 2 = .ok (some updates) :=
  ⟨_, _, rfl, (plan_reads_exact reaches_flushedOne (sampled_readsOf rfl) (by decide)).1 _ _
    (fun _ _ _ => by decide) rfl⟩

theorem plan_reads_pruned : ∃ last,
    Reaches 1 someRows newSet last none ∧ Sampled 1 someRows last last 2 (readsOf last) ∧
    ((readsOf last).epochValidatorSetUpdates newSet 2).map Prod.fst = .ok none ∧
    exactUpdates newSet 1 someRows 2 ≠ .ok none := by
  refine ⟨flushedThree, ?_, sampled_readsOf rfl, rfl, ?_⟩
  · exact .step (.step reaches_flushedOne (.flush 2 rfl (by decide) (by decide)))
      (.flush 3 rfl (by decide) (by decide))
  · intro same
    cases same

/-- Nodes durable up to the same height store the same rows, for boundaries within an epoch. -/
theorem planRows_agree {other : PlanNode} {cache held : Option (U64 × Option ValidatorSetUpdates)}
    (reached : Reaches epochLength written codec node cache)
    (also : Reaches epochLength written codec other held) (same : node.durable = other.durable)
    (boundary : isEpochBoundary height.val epochLength.val) :
    node.planRow height = other.planRow height ∧ node.lxPlanRow height = other.lxPlanRow height ∧
      (node.planRow height ≠ none ∨ node.lxPlanRow height ≠ none →
        height.val ≤ node.durable.val + epochLength.val ∧
          node.durable.val < height.val + epochLength.val) := by
  have rows := reached.exact.1.disk height boundary
  have theirs := also.exact.1.disk height boundary
  rw [← same, ← rows.1, ← rows.2] at theirs
  refine ⟨theirs.1.symm, theirs.2.symm, fun stored => ?_⟩
  by_contra outside
  rw [rows.1, rows.2, onDisk, if_neg outside] at stored
  simp at stored

theorem planRows_agree_restarted : flushedOne.planRow 2 = (flushedOne.restart true).planRow 2 :=
  (planRows_agree reaches_flushedOne (.restart true reaches_flushedOne) rfl (by decide)).1

end PlanNode

end TorusHyperBft.Proposal
