import TorusHyperBft.Chain.Link
import TorusHyperBft.Epoch.Consensus

namespace TorusHyperBft.Proposal

open Chain (EpochPlanNotReady PlanEvm)
open Epoch (EpochRotationPlan LeaderExclusionPlan PubKey ValidatorSetUpdates isEpochBoundary)

/-! What consensus reads of the plan stored for a boundary: the EVM values of its header and the
update of its validator set. -/

/-- The stored plan: the validator set and the EVM values from the boundary on. -/
structure StoredPlan where
  rotation : EpochRotationPlan
  evm : PlanEvm

/-- The decoders of the two rows, and which byte strings are keys. -/
structure PlanCodec where
  decodePlan : List Byte → Option StoredPlan
  decodeExclusions : List Byte → Option LeaderExclusionPlan
  decodesKey : PubKey → Bool

/-- The rows the execution of the previous boundary wrote. -/
structure BoundaryRows where
  plan : List Byte
  lxPlan : Option (List Byte)
deriving DecidableEq

inductive PlanSource where
  | memory (rows : BoundaryRows)
  | db
  | notReady (logical : U64)
deriving DecidableEq

/-- The rows handed over in memory, by boundary, and the height execution has reached. -/
structure PlanHandoff where
  logical : U64
  plan : U64 → Option BoundaryRows

def PlanHandoff.source (handoff : PlanHandoff) (boundary needed durable : U64) : PlanSource :=
  if max durable handoff.logical < needed then .notReady handoff.logical
  else
    match handoff.plan boundary with
    | some rows => .memory rows
    | none => if needed ≤ durable then .db else .notReady handoff.logical

structure ReadError where
deriving DecidableEq

/-- What a node reads plans from, and the updates it last computed. -/
structure PlanReads where
  epochLength : U64
  appliedHeight : Except ReadError (Option U64)
  planHandoff : Option PlanHandoff
  planRow : U64 → Except ReadError (Option (List Byte))
  lxPlanRow : U64 → Except ReadError (Option (List Byte))
  cachedVsUpdates : Option (U64 × Option ValidatorSetUpdates)

namespace PlanReads

def isBoundary (reads : PlanReads) (height : U64) : Bool :=
  isEpochBoundary height.val reads.epochLength.val

def boundaryPlanSource (reads : PlanReads) (height : U64) :
    Except EpochPlanNotReady (Option BoundaryRows) :=
  match reads.appliedHeight with
  | .error _ => .error {}
  | .ok applied =>
    let applied := applied.getD 0
    let needed := height.saturatingSub reads.epochLength
    match reads.planHandoff with
    | none => if applied < needed then .error {} else .ok none
    | some handoff =>
      match handoff.source height needed applied with
      | .memory rows => .ok (some rows)
      | .db => .ok none
      | .notReady _ => .error {}

section Codec

variable (codec : PlanCodec)

def readRow {α : Type} (decode : List Byte → Option α)
    (row : Except ReadError (Option (List Byte))) : Except EpochPlanNotReady (Option α) :=
  match row with
  | .error _ => .error {}
  | .ok none => .ok none
  | .ok (some bytes) =>
    match decode bytes with
    | none => .error {}
    | some value => .ok (some value)

def epochPlanFrom (reads : PlanReads) (height : U64) (rows : Option BoundaryRows) :
    Except EpochPlanNotReady (Option StoredPlan) :=
  match rows with
  | some rows => readRow codec.decodePlan (.ok (some rows.plan))
  | none => readRow codec.decodePlan (reads.planRow height)

def exclusionPlanFrom (reads : PlanReads) (height : U64) (rows : Option BoundaryRows) :
    Except EpochPlanNotReady (Option LeaderExclusionPlan) :=
  match rows with
  | some rows => readRow codec.decodeExclusions (.ok rows.lxPlan)
  | none => readRow codec.decodeExclusions (reads.lxPlanRow height)

def epochPlan (reads : PlanReads) (height : U64) : Except EpochPlanNotReady (Option StoredPlan) := do
  let rows ← reads.boundaryPlanSource height
  reads.epochPlanFrom codec height rows

def boundaryEvm (reads : PlanReads) (height : U64) : Except EpochPlanNotReady (Option PlanEvm) :=
  if !reads.isBoundary height then .ok none
  else
    match reads.epochPlan codec height with
    | .error reason => .error reason
    | .ok (some plan) => .ok (some plan.evm)
    | .ok none => if reads.epochLength.saturatingMul 2 ≤ height then .error {} else .ok none

def epochValidatorSetUpdates (reads : PlanReads) (height : U64) :
    Except EpochPlanNotReady (Option ValidatorSetUpdates × PlanReads) :=
  if !reads.isBoundary height then .ok (none, reads)
  else
    match reads.cachedVsUpdates.filter fun cached => cached.1 = height with
    | some cached => .ok (cached.2, reads)
    | none => do
        let rows ← reads.boundaryPlanSource height
        let plan ← reads.epochPlanFrom codec height rows
        let exclusions ← reads.exclusionPlanFrom codec height rows
        let updates := Epoch.epochValidatorSetUpdates codec.decodesKey
          (plan.map StoredPlan.rotation) exclusions
        return (updates, { reads with cachedVsUpdates := some (height, updates) })

end Codec

/-- What a boundary reads, from memory or else from disk. -/
inductive Finds (reads : PlanReads) (height : U64) (plan lxPlan : Option (List Byte)) : Prop where
  | memory (rows : BoundaryRows) (source : reads.boundaryPlanSource height = .ok (some rows))
      (isPlan : plan = some rows.plan) (isLxPlan : lxPlan = rows.lxPlan)
  | db (source : reads.boundaryPlanSource height = .ok none)
      (isPlan : reads.planRow height = .ok plan) (isLxPlan : reads.lxPlanRow height = .ok lxPlan)

variable {codec : PlanCodec} {reads : PlanReads} {height : U64} {plan lxPlan : Option (List Byte)}

theorem Finds.epochPlan (finds : Finds reads height plan lxPlan) :
    reads.epochPlan codec height = readRow codec.decodePlan (.ok plan) := by
  cases finds with
  | memory rows source isPlan isLxPlan =>
    simp [PlanReads.epochPlan, source, bind, Except.bind, epochPlanFrom, isPlan]
  | db source isPlan isLxPlan =>
    simp [PlanReads.epochPlan, source, bind, Except.bind, epochPlanFrom, isPlan]

def updatesOf (codec : PlanCodec) (plan lxPlan : Option (List Byte)) :
    Except EpochPlanNotReady (Option ValidatorSetUpdates) := do
  let plan ← readRow codec.decodePlan (.ok plan)
  let exclusions ← readRow codec.decodeExclusions (.ok lxPlan)
  return Epoch.epochValidatorSetUpdates codec.decodesKey (plan.map StoredPlan.rotation) exclusions

/-- The rows of a boundary, and a cache that was filled from them if it is for this boundary. -/
structure Holds (codec : PlanCodec) (reads : PlanReads) (height : U64)
    (plan lxPlan : Option (List Byte)) : Prop where
  finds : Finds reads height plan lxPlan
  cached : ∀ updates, reads.cachedVsUpdates = some (height, updates) →
    updatesOf codec plan lxPlan = .ok updates

theorem Finds.updates (finds : Finds reads height plan lxPlan) (boundary : reads.isBoundary height)
    (uncached : reads.cachedVsUpdates.filter (fun cached => decide (cached.1 = height)) = none) :
    (reads.epochValidatorSetUpdates codec height).map Prod.fst = updatesOf codec plan lxPlan := by
  have sources : ∃ rows, reads.boundaryPlanSource height = .ok rows ∧
      reads.epochPlanFrom codec height rows = readRow codec.decodePlan (.ok plan) ∧
      reads.exclusionPlanFrom codec height rows = readRow codec.decodeExclusions (.ok lxPlan) := by
    cases finds with
    | memory rows source isPlan isLxPlan =>
      exact ⟨some rows, source, by simp [epochPlanFrom, isPlan], by simp [exclusionPlanFrom, isLxPlan]⟩
    | db source isPlan isLxPlan =>
      exact ⟨none, source, by simp [epochPlanFrom, isPlan], by simp [exclusionPlanFrom, isLxPlan]⟩
  obtain ⟨rows, source, isPlan, isLxPlan⟩ := sources
  simp only [PlanReads.epochValidatorSetUpdates, boundary, uncached, source, isPlan, isLxPlan, updatesOf,
    bind, Except.bind, Bool.not_true, Bool.false_eq_true, if_false]
  cases readRow codec.decodePlan (.ok plan) with
  | error reason => rfl
  | ok decoded =>
    cases readRow codec.decodeExclusions (.ok lxPlan) with
    | error reason => rfl
    | ok exclusions => rfl

theorem Holds.updates (holds : Holds codec reads height plan lxPlan)
    (boundary : reads.isBoundary height) :
    (reads.epochValidatorSetUpdates codec height).map Prod.fst = updatesOf codec plan lxPlan := by
  cases found : reads.cachedVsUpdates.filter (fun cached => decide (cached.1 = height)) with
  | none => exact holds.finds.updates boundary found
  | some cached =>
    obtain ⟨stored, sameHeight⟩ := Option.filter_eq_some_iff.mp found
    obtain ⟨at_, updates⟩ := cached
    simp only [decide_eq_true_eq] at sameHeight
    subst sameHeight
    rw [holds.cached updates stored]
    simp [PlanReads.epochValidatorSetUpdates, boundary, found, Except.map]

theorem epochValidatorSetUpdates_after {updates : Option ValidatorSetUpdates} {after : PlanReads}
    (read : reads.epochValidatorSetUpdates codec height = .ok (updates, after)) :
    after = reads ∨ after = { reads with cachedVsUpdates := some (height, updates) } := by
  simp only [PlanReads.epochValidatorSetUpdates, bind, Except.bind] at read
  split at read
  · cases read
    exact .inl rfl
  · split at read
    · cases read
      exact .inl rfl
    · split at read
      · cases read
      · split at read
        · cases read
        · split at read
          · cases read
          · cases read
            exact .inr rfl

theorem Finds.cache (finds : Finds reads height plan lxPlan)
    (cached : Option (U64 × Option ValidatorSetUpdates)) :
    Finds { reads with cachedVsUpdates := cached } height plan lxPlan := by
  cases finds with
  | memory rows source isPlan isLxPlan => exact .memory rows source isPlan isLxPlan
  | db source isPlan isLxPlan => exact .db source isPlan isLxPlan

theorem Holds.remembers (holds : Holds codec reads height plan lxPlan)
    {updates : Option ValidatorSetUpdates} {after : PlanReads}
    (read : reads.epochValidatorSetUpdates codec height = .ok (updates, after)) :
    Holds codec after height plan lxPlan := by
  cases boundary : reads.isBoundary height with
  | false =>
    simp only [PlanReads.epochValidatorSetUpdates, boundary] at read
    cases read
    exact holds
  | true =>
    have spelled := holds.updates boundary
    rw [read] at spelled
    have sameUpdates : updatesOf codec plan lxPlan = .ok updates := spelled.symm
    obtain same | same : after = reads ∨
        after = { reads with cachedVsUpdates := some (height, updates) } :=
      epochValidatorSetUpdates_after read
    · rw [same]
      exact holds
    · subst same
      refine ⟨holds.finds.cache _, ?_⟩
      rintro other stored
      cases stored
      exact sameUpdates

end PlanReads

end TorusHyperBft.Proposal
