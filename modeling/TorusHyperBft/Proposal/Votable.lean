import TorusHyperBft.Keccak
import TorusHyperBft.Proposal.Payload

namespace TorusHyperBft.Proposal

open List
open Chain (ActivationSchedule BlockDataCheck EvmHeaderValues ParentHeader PhaseCertificate PlanEvm
  checkParentLinkOrUpgrade featureBit firstUnknownFeatureIn)
open Epoch (ValidatorSetUpdates)
open Mempool (B256 EvmPoolEntry maxEvmBlockTxBytes maxEvmBigBlockTxBytes nativePoolMaxSize totalBytes)
open PlanReads (Holds updatesOf)
open Signing (SignedNativeAction)

/-! Every replica that sees what the leader saw accepts the leader's block. -/

/-- Every scheduled feature is known. -/
def Knows (schedule : ActivationSchedule) (known : BitVec 128) : Prop :=
  ∀ entry ∈ schedule.heights, known.getLsbD entry.1.val = true

theorem foldl_featureBit {known : BitVec 128} {bit : Nat} (entries : List (Fin 128 × U64))
    (start : BitVec 128) (started : start.getLsbD bit = true → known.getLsbD bit = true)
    (knows : ∀ entry ∈ entries, known.getLsbD entry.1.val = true)
    (on : (entries.foldl (fun bits entry => bits ||| featureBit entry.1) start).getLsbD bit = true) :
    known.getLsbD bit = true := by
  induction entries generalizing start with
  | nil => exact started on
  | cons entry entries ih =>
    apply ih (start ||| featureBit entry.1) _
      (fun other member => knows other (mem_cons_of_mem entry member)) on
    intro either
    rw [BitVec.getLsbD_or, Bool.or_eq_true] at either
    rcases either with first | own
    · exact started first
    · have isBit : bit = entry.1.val := by
        simp only [featureBit, BitVec.getLsbD_shiftLeft, BitVec.getLsbD_one, Bool.and_eq_true,
          Bool.not_eq_true', decide_eq_true_eq, decide_eq_false_iff_not] at own
        omega
      rw [isBit]
      exact knows entry mem_cons_self

theorem Knows.activeAt {schedule : ActivationSchedule} {known : BitVec 128}
    (knows : Knows schedule known) (height : U64) :
    firstUnknownFeatureIn (schedule.activeAt height) known = none := by
  simp only [firstUnknownFeatureIn, List.find?_eq_none]
  intro bit inRange unknown
  simp only [BitVec.getLsbD_and, BitVec.getLsbD_not, Bool.and_eq_true, Bool.not_eq_true',
    decide_eq_true_eq] at unknown
  obtain ⟨active, -, notKnown⟩ := unknown
  have isKnown : known.getLsbD bit = true := by
    refine foldl_featureBit _ 0 (by simp) ?_ active
    intro entry member
    exact knows entry (mem_filter.mp member).1
  rw [isKnown] at notKnown
  cases notKnown

section Plans

variable {codec : PlanCodec} {reads other : PlanReads} {height : U64}
  {plan lxPlan : Option (List Byte)}

/-- Two nodes read a boundary alike: it is none, or both have its rows. -/
structure ReadAlike (codec : PlanCodec) (reads other : PlanReads) (height : U64) : Prop where
  epochLength : other.epochLength = reads.epochLength
  rows : reads.isBoundary height = true →
    ∃ plan lxPlan, Holds codec reads height plan lxPlan ∧ Holds codec other height plan lxPlan

variable (alike : ReadAlike codec reads other height)
include alike

theorem ReadAlike.isBoundary : other.isBoundary height = reads.isBoundary height := by
  rw [PlanReads.isBoundary, alike.epochLength, PlanReads.isBoundary]

theorem ReadAlike.boundaryEvm :
    other.boundaryEvm codec height = reads.boundaryEvm codec height := by
  cases boundary : reads.isBoundary height with
  | false => simp [PlanReads.boundaryEvm, alike.isBoundary, boundary]
  | true =>
    obtain ⟨plan, lxPlan, ours, theirs⟩ := alike.rows boundary
    have same : other.epochPlan codec height = reads.epochPlan codec height := by
      rw [theirs.finds.epochPlan, ours.finds.epochPlan]
    simp only [PlanReads.boundaryEvm, alike.isBoundary, same, alike.epochLength]

theorem ReadAlike.updates : (other.epochValidatorSetUpdates codec height).map Prod.fst =
      (reads.epochValidatorSetUpdates codec height).map Prod.fst := by
  cases boundary : reads.isBoundary height with
  | false =>
    simp [PlanReads.epochValidatorSetUpdates, alike.isBoundary, boundary, Except.map]
  | true =>
    obtain ⟨plan, lxPlan, ours, theirs⟩ := alike.rows boundary
    rw [ours.updates boundary, theirs.updates (alike.isBoundary.trans boundary)]

theorem ReadAlike.after {updates : Option ValidatorSetUpdates} {later : PlanReads}
    (read : reads.epochValidatorSetUpdates codec height = .ok (updates, later)) :
    ReadAlike codec later other height := by
  have kept : later.epochLength = reads.epochLength := by
    obtain same | same := PlanReads.epochValidatorSetUpdates_after read
    · rw [same]
    · rw [same]
  refine ⟨alike.epochLength.trans kept.symm, ?_⟩
  intro boundary
  rw [PlanReads.isBoundary, kept] at boundary
  obtain ⟨plan, lxPlan, ours, theirs⟩ := alike.rows boundary
  exact ⟨plan, lxPlan, ours.remembers read, theirs⟩

end Plans

section Datum

variable {κ : Type} {lib : Primitives κ} {bytes : List Byte} {compact : CompactBlock κ}

/-- Bytes that read as a compact block if it names native actions, and as a full block if not. -/
structure Spells (body : BodyCodec κ) (bytes : List Byte) (compact : CompactBlock κ) : Prop where
  header : datumHeader bytes = some compact.header
  full : compact.nativeActionHashes = [] → decodeTorusBlock body bytes =
    some { header := compact.header
           nativeActions := []
           evmTransactions := compact.evmTransactions
           coreWriterActions := compact.coreWriterActions }
  notFull : compact.nativeActionHashes ≠ [] → decodeTorusBlock body bytes = none
  compact : decodeCompactBlock body bytes = some compact

theorem Writable.spells {body : BodyCodec κ} (writable : Writable compact) :
    Spells body (encodeCompactBlock body compact) compact where
  header := datumHeader_encode compact
  full := decodeTorusBlock_encode_empty writable
  notFull := decodeTorusBlock_encode_hashes writable
  compact := decodeCompactBlock_encode writable

/-- A datum whose counts are its header's and whose transactions fit it. -/
structure WellFormed (lib : Primitives κ) (bytes : List Byte) (compact : CompactBlock κ) :
    Prop where
  spells : Spells lib.body bytes compact
  counted : compact.nativeActionHashes.length = compact.header.rest.nativeActionCount.val
  fits : evmBodyFitsHeader lib.evm compact.header compact.evmTransactions = true

theorem WellFormed.decodeForVote (formed : WellFormed lib bytes compact) :
    decodeForVote lib bytes =
      some (compact.header, if compact.nativeActionHashes = [] then none else some compact) := by
  have counted := formed.counted
  rcases Decidable.em (compact.nativeActionHashes = []) with empty | named
  · rw [empty] at counted
    simp [Proposal.decodeForVote, formed.spells.full empty, formed.fits, empty, ← counted]
  · simp [Proposal.decodeForVote, formed.spells.notFull named, formed.spells.compact, formed.fits,
      named, counted]

/-- A replica holds the bodies a datum names, and none of them is being deleted. -/
structure HoldsBodies (lib : Primitives κ) (replica : Node) (height : U64) (hashes : List B256) :
    Prop where
  held : hashes ≠ [] → ∃ pools, replica.mempool = some pools ∧
    pools.da.fence.pin height hashes = [] ∧
    ∀ hash ∈ hashes, ((pools.da.absorbFetched lib.actionHash).get hash).isSome = true

theorem absorbFetched_fence (da : NativeDa) :
    (da.absorbFetched lib.actionHash).fence = da.fence := by
  unfold NativeDa.absorbFetched
  split
  · rfl
  · rfl

variable {hashes : List B256}

theorem NativeDa.missing_nil {da : NativeDa}
    (held : ∀ hash ∈ hashes, (da.get hash).isSome = true) : da.missing hashes = [] := by
  simp only [NativeDa.missing, filter_eq_nil_iff, mem_filter]
  rintro hash ⟨member, notStored⟩ notBuffered
  have found := held hash member
  simp only [Option.isNone_iff_eq_none] at notStored notBuffered
  simp [NativeDa.get, notStored, notBuffered] at found

theorem NativeDa.reconstruct_isSome {da : NativeDa}
    (held : ∀ hash ∈ hashes, (da.get hash).isSome = true) :
    ∃ actions, da.reconstruct hashes = some actions := by
  induction hashes with
  | nil => exact ⟨[], rfl⟩
  | cons hash hashes ih =>
    obtain ⟨action, found⟩ := Option.isSome_iff_exists.mp (held hash mem_cons_self)
    obtain ⟨actions, rest⟩ := ih fun other member => held other (mem_cons_of_mem hash member)
    rw [NativeDa.reconstruct] at rest
    exact ⟨action :: actions, by simp [NativeDa.reconstruct, mapM_cons, found, rest]⟩

theorem HoldsBodies.checkBodies {replica : Node} {height : U64}
    (bodies : HoldsBodies lib replica height hashes) (named : hashes ≠ []) :
    checkBodies lib replica height hashes = .held := by
  obtain ⟨pools, pooled, free, held⟩ := bodies.held named
  simp [Proposal.checkBodies, pooled, absorbFetched_fence, free, NativeDa.missing_nil held]

theorem WellFormed.decodeAndEnsureDurable {replica : Node} (formed : WellFormed lib bytes compact)
    (bodies : HoldsBodies lib replica compact.header.height compact.nativeActionHashes) :
    decodeAndEnsureDurable lib replica bytes = .ok compact.header.height := by
  rcases Decidable.em (compact.nativeActionHashes = []) with empty | named
  · simp only [Proposal.decodeAndEnsureDurable, formed.spells.full empty]
    cases replica.mempool with
    | none => rfl
    | some pools => rfl
  · obtain ⟨pools, pooled, free, held⟩ := bodies.held named
    obtain ⟨actions, rebuilt⟩ := NativeDa.reconstruct_isSome held
    simp [Proposal.decodeAndEnsureDurable, formed.spells.notFull named, formed.spells.compact,
      named, pooled, free, rebuilt]

end Datum

section Proposal

variable {κ : Type} {lib : Primitives κ} {proposer replica : Node} {parent : Header}

/-- What the builder promises of its block. -/
structure Proposed (lib : Primitives κ) (proposer : Node) (parent : Header)
    (compact : CompactBlock κ) : Prop where
  height : compact.header.height = parent.height + 1
  parentHash : compact.header.parentHash = headerHash lib parent
  notOlder : parent.timestamp ≤ compact.header.timestamp
  values : ∃ plan, proposer.plans.boundaryEvm lib.plan (parent.height + 1) = .ok plan ∧
    EvmHeaderValues.of compact.header = (plan.getD {}).resolve parent
  features : compact.header.features = proposer.activations.activeAt (parent.height + 1)
  nativeCount : compact.nativeActionHashes.length = compact.header.rest.nativeActionCount.val
  evmCount : compact.evmTransactions.length = compact.header.rest.evmTxCount.val
  offCadence : Header.carriesEvm compact.header = false → compact.evmTransactions = []
  smallLane : ∃ small big, compact.evmTransactions = small ++ big ∧
    FitsCaps lib.evm compact.header.evmGasLimit maxEvmBlockTxBytes small ∧
    (Header.isBigHeight compact.header = false → big = [])
  bothLanes : FitsCaps lib.evm (Header.evmBlockGasCap compact.header)
    (Header.evmBlockByteCap compact.header) compact.evmTransactions

theorem Proposed.of_same {working : Node} {compact : CompactBlock κ}
    (proposed : Proposed lib working parent compact)
    (samePlan : working.plans.boundaryEvm lib.plan (parent.height + 1) =
      proposer.plans.boundaryEvm lib.plan (parent.height + 1))
    (sameActivations : working.activations = proposer.activations) :
    Proposed lib proposer parent compact :=
  { proposed with
    values := by
      rw [← samePlan]
      exact proposed.values
    features := by
      rw [← sameActivations]
      exact proposed.features }

section Block

variable {plan : Option PlanEvm} {actions : List SignedNativeAction} {payload : Payload}
  {small big : List EvmPoolEntry} {nowSecs : U64}

theorem proposedBlock_proposed
    (read : proposer.plans.boundaryEvm lib.plan (parent.height + 1) = .ok plan)
    (lanes : Lanes lib.evm (laneLimits (parent.height + 1) ((plan.getD {}).resolve parent)) payload
      small big)
    (few : actions.length ≤ nativePoolMaxSize) :
    Proposed lib proposer parent
      (proposedBlock lib (proposedHeader lib proposer parent ((plan.getD {}).resolve parent) nowSecs
        actions (payload.small ++ payload.big)) actions (payload.small ++ payload.big)) := by
  generalize isHeader : proposedHeader lib proposer parent ((plan.getD {}).resolve parent) nowSecs
    actions (payload.small ++ payload.big) = header
  have isHeight : header.height = parent.height + 1 := by rw [← isHeader]; rfl
  have isValues : EvmHeaderValues.of header = (plan.getD {}).resolve parent := by
    rw [← isHeader]
    rfl
  rw [← isHeight, ← isValues] at lanes
  have carries := lanes.carries
  have byteSmall := Header.evmBlockByteCap_le header
  have fits := carries.fits byteSmall
  have below := (carries.count byteSmall).2
  rw [← lanes.txs] at fits
  refine ⟨isHeight, by rw [← isHeader]; rfl, ?_, ⟨plan, read, isValues⟩, by rw [← isHeader]; rfl, ?_,
    ?_, ?_, ⟨payload.small, payload.big, rfl, ?_, ?_⟩, fits⟩
  · rw [← isHeader]
    exact le_max_right nowSecs parent.timestamp
  · have count : header.rest.nativeActionCount.val = actions.length % 2 ^ 32 := by
      rw [← isHeader]
      rfl
    simp only [nativePoolMaxSize] at few
    change (actions.map lib.actionHash).length = header.rest.nativeActionCount.val
    rw [length_map, count]
    omega
  · have count : header.rest.evmTxCount.val = (payload.small ++ payload.big).length % 2 ^ 32 := by
      rw [← isHeader]
      rfl
    change (payload.small ++ payload.big).length = header.rest.evmTxCount.val
    rw [count, lanes.txs, length_map, Nat.mod_eq_of_lt below]
  · intro off
    change payload.small ++ payload.big = []
    rw [lanes.txs, lanes.off off]
    rfl
  · have smallFits := lanes.smallFits
    rw [laneLimits_gasLimit] at smallFits
    change FitsCaps lib.evm header.evmGasLimit maxEvmBlockTxBytes payload.small
    rw [lanes.isSmall]
    cases carriesEvm : Header.carriesEvm header with
    | true =>
      rw [if_pos carriesEvm] at smallFits
      exact smallFits.fits (by decide)
    | false =>
      rw [lanes.smallOff (by simp [laneLimits_gasLimit, carriesEvm])]
      exact Carries.nil.fits (by decide)
  · intro notBig
    change Header.isBigHeight header = false at notBig
    rw [lanes.isBig, lanes.bigOff (by simp [laneLimits_bigGasLimit, notBig])]
    rfl

theorem proposedBlock_writable {header : Header}
    (lanes : Lanes lib.evm (laneLimits header.height (EvmHeaderValues.of header)) payload small big)
    (few : actions.length ≤ nativePoolMaxSize) :
    Writable (proposedBlock lib header actions (payload.small ++ payload.big)) := by
  have bytes := le_trans lanes.carries.bytes (Header.evmBlockByteCap_le header)
  have count := (admitted_counts lanes.carries.admitted).1
  simp only [nativePoolMaxSize] at few
  simp only [maxEvmBigBlockTxBytes] at bytes
  refine ⟨?_, ?_, ?_, rfl⟩
  · change (actions.map lib.actionHash).length < 2 ^ 64
    rw [length_map]
    omega
  · change (payload.small ++ payload.big).length < 2 ^ 64
    rw [lanes.txs, length_map]
    omega
  · intro raw member
    change raw ∈ payload.small ++ payload.big at member
    rw [lanes.txs] at member
    have one : raw.length ≤ totalBytes ((small ++ big).map EvmPoolEntry.rawRlp) :=
      le_sum_of_mem (mem_map_of_mem member)
    omega

end Block

/-- The response of a proposer that returned a datum. -/
structure Responds (lib : Primitives κ) (proposer : Node) (parent : Header)
    (response : ProduceBlockResponse) (bytes : List Byte) (compact : CompactBlock κ) : Prop where
  encodes : bytes = encodeCompactBlock lib.body compact
  dataHash : response.dataHash = lib.sha256 bytes
  writable : Writable compact
  fits : evmBodyFitsHeader lib.evm compact.header compact.evmTransactions = true
  proposed : Proposed lib proposer parent compact
  updates : ∃ first between second,
    proposer.plans.epochValidatorSetUpdates lib.plan (parent.height + 1) = .ok (first, between) ∧
    between.epochValidatorSetUpdates lib.plan (parent.height + 1) =
      .ok (response.validatorSetUpdates, second)

theorem boundaryEvm_after {codec : PlanCodec} {reads later : PlanReads} {height : U64}
    {updates : Option ValidatorSetUpdates}
    (read : reads.epochValidatorSetUpdates codec height = .ok (updates, later)) :
    later.boundaryEvm codec height = reads.boundaryEvm codec height := by
  obtain same | same := PlanReads.epochValidatorSetUpdates_after read
  · rw [same]
  · rw [same]
    rfl

/-- The block a proposer makes of the payload it selects, with its EVM pool refilled. -/
def selectedBlock (lib : Primitives κ) (node : Node) (parent : Header) (values : EvmHeaderValues)
    (around : Surroundings) : CompactBlock κ :=
  let selected := selectBlockPayload lib node parent (laneLimits (parent.height + 1) values) around
  let actions := (mirrorOrDropNative lib selected.2 (parent.height + 1) selected.1.native).1
  let evmTxs := selected.1.small ++ selected.1.big
  proposedBlock lib (proposedHeader lib node parent values around.nowSecs actions evmTxs) actions
    evmTxs

theorem selectedBlock_proposed {plan : Option PlanEvm} {around : Surroundings}
    (admits : ∀ pools, proposer.mempool = some pools → pools.evm.Admits lib.evm)
    (read : proposer.plans.boundaryEvm lib.plan (parent.height + 1) = .ok plan) :
    let block := selectedBlock lib proposer parent ((plan.getD {}).resolve parent) around
    Writable block ∧ evmBodyFitsHeader lib.evm block.header block.evmTransactions = true ∧
      Proposed lib proposer parent block := by
  have native := @selectBlockPayload_native κ lib proposer parent
    (laneLimits (parent.height + 1) ((plan.getD {}).resolve parent)) around
  have few := fun mempool => le_trans
    (@mirrorOrDropNative_length κ lib mempool (parent.height + 1) _) native
  obtain ⟨small, big, lanes⟩ := selectBlockPayload_lanes parent
    (laneLimits (parent.height + 1) ((plan.getD {}).resolve parent)) around admits
  exact ⟨proposedBlock_writable lanes (few _), lanes.fitsHeader rfl,
    proposedBlock_proposed read lanes (few _)⟩

theorem buildProposalOn_data {around : Surroundings} {plan : Option PlanEvm}
    {first updates : Option ValidatorSetUpdates} {between second : PlanReads}
    (known : (firstUnknownFeatureIn parent.features proposer.knownFeatures).isSome = false)
    (read : proposer.plans.epochValidatorSetUpdates lib.plan (parent.height + 1) =
      .ok (first, between))
    (hasPlan : between.boundaryEvm lib.plan (parent.height + 1) = .ok plan)
    (again : between.epochValidatorSetUpdates lib.plan (parent.height + 1) = .ok (updates, second)) :
    (buildProposalOn lib proposer parent around).1.data =
      [encodeCompactBlock lib.body
        (selectedBlock lib
          { proposer with
            plans := between
            mempool := reinsertEarlier lib proposer (parent.height + 1) }
          parent ((plan.getD {}).resolve parent) around)] := by
  simp only [buildProposalOn, known, read, hasPlan, again]
  rfl

theorem buildProposalOn_responds {around : Surroundings} {bytes : List Byte}
    (admits : ∀ pools, proposer.mempool = some pools → pools.evm.Admits lib.evm)
    (datum : (buildProposalOn lib proposer parent around).1.data = [bytes]) :
    ∃ compact, Responds lib proposer parent (buildProposalOn lib proposer parent around).1 bytes
      compact := by
  simp only [buildProposalOn] at datum ⊢
  split at datum
  · cases datum
  rename_i known
  rw [if_neg known]
  cases read : proposer.plans.epochValidatorSetUpdates lib.plan (parent.height + 1) with
  | error reason =>
    rw [read] at datum
    cases datum
  | ok result =>
    obtain ⟨first, plans⟩ := result
    rw [read] at datum
    simp only at datum ⊢
    cases hasPlan : plans.boundaryEvm lib.plan (parent.height + 1) with
    | error reason =>
      rw [hasPlan] at datum
      cases datum
    | ok plan =>
      rw [hasPlan] at datum
      simp only at datum ⊢
      cases again : plans.epochValidatorSetUpdates lib.plan (parent.height + 1) with
      | error reason =>
        rw [again] at datum
        cases datum
      | ok result =>
        obtain ⟨updates, second⟩ := result
        rw [again] at datum
        simp only at datum ⊢
        generalize isWorking : ({ proposer with
          plans := plans
          mempool := reinsertEarlier lib proposer (parent.height + 1) } : Node) = working
          at datum ⊢
        have refilled : ∀ pools, working.mempool = some pools → pools.evm.Admits lib.evm := by
          rw [← isWorking]
          exact reinsertEarlier_admits (parent.height + 1) admits
        have samePlan : working.plans.boundaryEvm lib.plan (parent.height + 1) =
            proposer.plans.boundaryEvm lib.plan (parent.height + 1) := by
          rw [← isWorking]
          exact boundaryEvm_after read
        have workingPlan : working.plans.boundaryEvm lib.plan (parent.height + 1) = .ok plan := by
          rw [← isWorking]
          exact hasPlan
        have sameActivations : working.activations = proposer.activations := by
          rw [← isWorking]
        obtain ⟨writable, fits, proposed⟩ :=
          @selectedBlock_proposed κ lib working parent plan around refilled workingPlan
        refine ⟨selectedBlock lib working parent ((plan.getD {}).resolve parent) around, ?_⟩
        have isBytes : bytes = encodeCompactBlock lib.body
            (selectedBlock lib working parent ((plan.getD {}).resolve parent) around) :=
          (List.cons.inj datum).1.symm
        exact
          { encodes := isBytes
            dataHash := congrArg lib.sha256 isBytes.symm
            writable := writable
            fits := fits
            proposed := proposed.of_same samePlan sameActivations
            updates := ⟨first, plans, second, read, again⟩ }

/-- A replica that sees what the proposer saw: the parent, the schedule, the epoch length and the
plan's rows, with the named bodies at hand and a clock near the header's time. -/
structure SeesAlike (lib : Primitives κ) (proposer replica : Node) (parent : Header)
    (compact : CompactBlock κ) (now : U64) (justify : PhaseCertificate B256)
    (parents : B256 → ParentHeader B256 HeaderRest) : Prop where
  live : replica.execFailed = false
  sameParent : Chain.parentHeader justify replica.genesisHeader parents = .header parent
  sameActivations : replica.activations = proposer.activations
  knows : Knows replica.activations replica.knownFeatures
  plans : ReadAlike lib.plan proposer.plans replica.plans (parent.height + 1)
  bodies : HoldsBodies lib replica compact.header.height compact.nativeActionHashes
  drift : checkTimestampDrift compact.header.timestamp now = true
  lag : checkTimestampLag compact.header.timestamp now = true

section Replica

variable {compact : CompactBlock κ} {now : U64} {justify : PhaseCertificate B256}
  {parents : B256 → ParentHeader B256 HeaderRest} {bytes : List Byte}

variable (sees : SeesAlike lib proposer replica parent compact now justify parents)
include sees

theorem SeesAlike.link (proposed : Proposed lib proposer parent compact) :
    checkParentLinkOrUpgrade (headerHash lib) compact.header justify replica.genesisHeader
      replica.activations replica.knownFeatures parents (replica.plans.boundaryEvm lib.plan) =
      .ok .held := by
  obtain ⟨plan, read, values⟩ := proposed.values
  have sameFeatures : compact.header.features = replica.activations.activeAt compact.header.height := by
    rw [proposed.features, proposed.height, sees.sameActivations]
  have known : firstUnknownFeatureIn compact.header.features replica.knownFeatures = none := by
    rw [sameFeatures]
    exact sees.knows.activeAt _
  have samePlan : replica.plans.boundaryEvm lib.plan compact.header.height = .ok plan := by
    rw [proposed.height, sees.plans.boundaryEvm, read]
  have linked : ¬(compact.header.height ≠ parent.height + 1 ∨
      compact.header.parentHash ≠ headerHash lib parent) :=
    not_or.mpr ⟨not_not.mpr proposed.height, not_not.mpr proposed.parentHash⟩
  simp only [checkParentLinkOrUpgrade, sees.sameParent, known, samePlan]
  rw [if_neg (not_lt.mpr proposed.notOlder), if_neg linked, if_neg (not_not.mpr sameFeatures),
    if_neg (not_not.mpr values)]

theorem SeesAlike.held
    (proposed : Proposed lib proposer parent compact) (formed : WellFormed lib bytes compact) :
    checkProposalData lib replica now
      { justify := justify, dataHash := lib.sha256 bytes, data := [bytes] } parents = .held := by
  have link : checkParentLink lib replica compact.header justify parents = .held := by
    rw [checkParentLink, sees.link proposed]
  simp only [checkProposalData, checkProposalDataWith, sees.live, formed.decodeForVote, link,
    sees.drift, sees.lag, ne_eq, not_true_eq_false, if_false, Bool.false_eq_true, Bool.not_true,
    Bool.and_false, Bool.or_false]
  rcases Decidable.em (compact.nativeActionHashes = []) with empty | named
  · rw [if_pos empty]
    rfl
  · have bodies := sees.bodies.checkBodies named
    simp [named, Option.filter, bodies]

theorem SeesAlike.valid
    (proposed : Proposed lib proposer parent compact) (formed : WellFormed lib bytes compact)
    {first updates : Option ValidatorSetUpdates} {between second : PlanReads}
    (read : proposer.plans.epochValidatorSetUpdates lib.plan (parent.height + 1) =
      .ok (first, between))
    (again : between.epochValidatorSetUpdates lib.plan (parent.height + 1) = .ok (updates, second)) :
    validateBlock lib replica
      { justify := justify, dataHash := lib.sha256 bytes, data := [bytes] } parents =
      .valid updates := by
  have same := (sees.plans.after read).updates
  rw [again] at same
  have finish : finishValidate lib replica compact.header.height = .valid updates := by
    rw [finishValidate, proposed.height]
    cases theirs : replica.plans.epochValidatorSetUpdates lib.plan (parent.height + 1) with
    | error reason =>
      rw [theirs] at same
      cases same
    | ok result =>
      rw [theirs] at same
      cases same
      rfl
  simp [validateBlock, sees.live, formed.spells.header, sees.link proposed, insertionLinkResponse,
    formed.decodeAndEnsureDurable sees.bodies, finish]

end Replica

end Proposal

def transferBytes : List Byte :=
  toBytes 110 0xf86c098504a817c800825208943535353535353535353535353535353535353535880de0b6b3a76400008025a028ef61340bd939bc2195fe537567866003e1a15d3c71ff63e1590620aa636276a067cbe9d8997f761aecb703304b3800ccf555c9f3dc64214b297fb1966a3b6d83

def transferTx : Mempool.TxEnvelope where
  txType := .legacy
  chainId := some 1
  nonce := 9
  gasLimit := 21000
  maxFeePerGas := 20000000000
  maxPriorityFeePerGas := none
  value := 10 ^ 18
  isCreate := false
  input := []
  accessAccounts := 0
  accessKeys := 0
  txHash := 0x33469b22e9f636356c4160a87eb19df52b7412e8eac32a4a55ffe88ea8350788

def transferEntry : EvmPoolEntry where
  hash := transferTx.txHash
  sender := 0x9d8a62f656a8d1615c1294fd71e9cfb3e4855a4f
  nonce := 9
  maxFeePerGas := 20000000000
  maxPriorityFee := 20000000000
  gasLimit := 21000
  rawRlp := transferBytes

def transferLibrary : Mempool.EvmLibrary where
  decode bytes := if bytes = transferBytes then some (transferTx, []) else none
  recoverSigner _ := some transferEntry.sender
  intrinsicGas _ := 21000
  decode_nil := if_neg fun empty => absurd (congrArg List.length empty) (by simp [transferBytes])
  intrinsicGas_min _ := by decide

def transferPrimitives : Primitives Unit where
  sha256 := keccak256
  keccak := keccak256
  actionHash _ := 0
  evm := transferLibrary
  body :=
    { readFields := fun _ _ => none
      encodeCoreWriter := fun _ => []
      readCoreWriter := fun bytes => some ((), bytes) }
  plan :=
    { decodePlan := fun _ => none
      decodeExclusions := fun _ => none
      decodesKey := fun _ => true }

def transferConfig : Mempool.LanesConfig where
  limits := { maxPoolSize := 1024, maxPerSender := 64, replacementBumpPct := 10 }
  chainId := 1
  blockGasLimit := 30000000
  initialBaseFee := 0
  evmBlockGasBudget := 30000000
  evmSenderSharePct := 0
  maxMemoryBytes := 0

def transferLanes : Mempool.EvmLanes :=
  { Mempool.EvmLanes.new transferConfig with
    small := (Mempool.LanePool.new 0).insertAll transferEntry
    memoryUsed := transferBytes.length }

def cancelAction : SignedNativeAction where
  action := .cancelOrder 7
  nonce := 7000
  signature := .session 0 0

def genesisHeader : Header where
  height := 0
  parentHash := 0
  timestamp := 0
  evmGasLimit := 30000000
  evmBlockInterval := 1
  rest :=
    { proposer := 0
      stateRoot := 0
      nativeActionCount := 0
      evmTxCount := 0
      epoch := 0
      validatorSetHash := 0
      sigAttestation := 0 }

def genesisLeader : Node where
  execFailed := false
  genesisHeader := genesisHeader
  lastHeader := genesisHeader
  activations := {}
  knownFeatures := 0
  plans :=
    { epochLength := 100
      appliedHeight := .ok none
      planHandoff := none
      planRow := fun _ => .ok none
      lxPlanRow := fun _ => .ok none
      cachedVsUpdates := none }
  mempool := some
    { evm := transferLanes
      ingress := { account := fun _ => none, usesBigBlocks := fun _ => false }
      native :=
        { entries :=
            [{ sender := 3, action := cancelAction, actionHash := 0, encodedLen := 10, seq := 0 }]
          maxPerBlock := 16
          cancelSharePct := 50
          sorted := List.pairwise_singleton _ _
          bounded := by decide }
      da :=
        { stored := fun _ => some cancelAction
          buffered := fun _ => none
          fetched := []
          fence := { enabled := false, committed := 0, deleting := fun _ => false }
          writeFails := false } }
  ownEvmProposed := []
  proposerAddress := 0
  attest := none

def genesisSurroundings : Surroundings where
  nowSecs := 7
  nowMs := 7000
  tier := 0
  caps := { actionCap := 1024, bytesCap := 1024 * 1024, ordersCap := 1024 }
  inFlightNative _ := false
  inFlightEvm _ := false
  ties _ := 0

theorem transferLanes_admits : transferLanes.Admits transferPrimitives.evm where
  small entry member := by
    rw [mem_singleton.mp (Mempool.LanePool.insertAll_subset member)]
    have decoded : transferLibrary.decode transferBytes = some (transferTx, []) := by
      simp [transferLibrary]
    exact ⟨by simp [Mempool.declaredGasLimit, transferPrimitives, transferEntry, decoded, transferTx],
      by decide⟩
  big entry member := absurd member not_mem_nil

end TorusHyperBft.Proposal
