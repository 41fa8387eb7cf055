import TorusHyperBft.Mempool.Drained
import TorusHyperBft.Proposal.Check

namespace TorusHyperBft.Proposal

open Chain (EvmHeaderValues PlanEvm firstUnknownFeatureIn)
open Epoch (ValidatorSetUpdates)
open Mempool (B256 DrainEntry EvmLanes maxEvmBigBlockTxBytes)
open Signing (Address SignedNativeAction)

/-! How a leader builds its proposal: the header from the parent or the boundary's plan, the
payload from the native pool and the two EVM lanes. -/

structure ProduceBlockResponse where
  dataHash : B256
  data : List (List Byte)
  validatorSetUpdates : Option ValidatorSetUpdates

def catchUpLagThreshold : U64 := 64

def nativeOrdersPerBatchCap : Nat := 1024

structure SelectionCaps where
  actionCap : Nat
  bytesCap : Nat
  ordersCap : Nat

inductive PacedSelectionCaps where
  | select (caps : SelectionCaps)
  | cancelsOnly

/-- Deeper in the backlog the caps are halved, quartered, and then only priority actions go. -/
def pacedSelectionCaps (tier : Nat) (caps : SelectionCaps) : PacedSelectionCaps :=
  match tier with
  | 0 => .select caps
  | 1 | 2 =>
    .select
      { actionCap := max (caps.actionCap / 2 ^ tier) 1
        bytesCap := caps.bytesCap / 2 ^ tier
        ordersCap := max (caps.ordersCap / 2 ^ tier) nativeOrdersPerBatchCap }
  | _ => .cancelsOnly

/-- What else a proposal depends on: the clocks, the backlog, the caps, what is in flight and how
the heap breaks ties. -/
structure Surroundings where
  nowSecs : U64
  nowMs : Nat
  tier : Nat
  caps : SelectionCaps
  inFlightNative : B256 → Bool
  inFlightEvm : B256 → Bool
  ties : List DrainEntry → Nat

section Drains

variable {κ : Type} (lib : Primitives κ) (ties : List DrainEntry → Nat)

def drainSmall (lanes : EvmLanes) (gasLimit baseFee : U64) (parentHash : B256)
    (inFlight : B256 → Bool) : List (List Byte) × EvmLanes :=
  if gasLimit = 0 then ([], lanes)
  else lanes.drainEvm lib.keccak ties gasLimit baseFee parentHash inFlight

def drainBig (lanes : EvmLanes) (gasLimit : U64) (byteBudget : Nat) (baseFee : U64)
    (parentHash : B256) (inFlight : B256 → Bool) : List (List Byte) × EvmLanes :=
  if gasLimit = 0 then ([], lanes)
  else lanes.drainEvmBig lib.keccak ties gasLimit byteBudget baseFee parentHash inFlight

end Drains

structure LaneLimits where
  gasLimit : U64
  bigGasLimit : U64
  baseFee : U64
  bigBaseFee : U64

/-- The small lane on its cadence and at a big height, the big lane at a big height. -/
def laneLimits (height : U64) (values : EvmHeaderValues) : LaneLimits :=
  let big := isBigEvmHeight height values.bigBlockInterval
  { gasLimit :=
      if big || (values.blockInterval ≠ 0 && height.val % values.blockInterval.val = 0) then
        values.gasLimit
      else 0
    bigGasLimit := if big then values.bigGasLimit else 0
    baseFee := values.baseFee
    bigBaseFee := values.bigBaseFee }

structure Payload where
  native : List (Address × SignedNativeAction)
  small : List (List Byte)
  big : List (List Byte)

section Build

variable {κ : Type} (lib : Primitives κ)

def selectNative (mempool : Pools) (around : Surroundings) : List (Address × SignedNativeAction) :=
  let pool := mempool.native.evictExpired around.nowMs
  let entries := match pacedSelectionCaps around.tier around.caps with
    | .select caps =>
      pool.selectEntriesBefore caps.actionCap around.inFlightNative caps.bytesCap caps.ordersCap
        false
    | .cancelsOnly =>
      pool.selectEntriesBefore around.caps.actionCap around.inFlightNative around.caps.bytesCap
        around.caps.ordersCap true
  entries.map fun entry => (entry.sender, entry.action)

def selectBlockPayload (node : Node) (parent : Header) (limits : LaneLimits)
    (around : Surroundings) : Payload × Option Pools :=
  if catchUpLagThreshold < parent.height.saturatingSub node.lastHeader.height then
    ({ native := [], small := [], big := [] }, node.mempool)
  else
    match node.mempool with
    | none => ({ native := [], small := [], big := [] }, none)
    | some mempool =>
      let small := drainSmall lib around.ties mempool.evm limits.gasLimit limits.baseFee
        parent.rest.stateRoot around.inFlightEvm
      let used := (small.1.map List.length).sum
      let big := drainBig lib around.ties small.2 limits.bigGasLimit
        (maxEvmBigBlockTxBytes - used) limits.bigBaseFee parent.rest.stateRoot around.inFlightEvm
      ({ native := selectNative mempool around, small := small.1, big := big.1 },
        some
          { mempool with
            evm := big.2
            native := mempool.native.evictExpired around.nowMs })

def withoutBusy (busy : List B256) (actions : List SignedNativeAction) : List SignedNativeAction :=
  if busy.isEmpty then actions else actions.filter fun action => lib.actionHash action ∉ busy

/-- Every named body is durable here first; otherwise the proposal names none. -/
def mirrorOrDropNative (mempool : Option Pools) (height : U64)
    (native : List (Address × SignedNativeAction)) : List SignedNativeAction × Option Pools :=
  match mempool with
  | none => (native.map Prod.snd, none)
  | some mempool =>
    let actions := native.map Prod.snd
    let busy := mempool.da.fence.pin height (actions.map lib.actionHash)
    let kept := withoutBusy lib busy actions
    let absent := kept.filter fun action => (mempool.da.stored (lib.actionHash action)).isNone
    if absent.isEmpty then (kept, some mempool)
    else if mempool.da.writeFails then ([], some mempool)
    else (kept, some { mempool with da := mempool.da.put lib.actionHash absent })

def refusedProposal : ProduceBlockResponse :=
  { dataHash := lib.sha256 [], data := [], validatorSetUpdates := none }

def reinsertEarlier (node : Node) (height : U64) : Option Pools :=
  node.mempool.map fun mempool =>
    match node.ownEvmProposed.lookup height with
    | none => mempool
    | some earlier => { mempool with evm := mempool.evm.reinsertEvm lib.evm mempool.ingress earlier }

def proposedHeader (node : Node) (parent : Header) (values : EvmHeaderValues) (nowSecs : U64)
    (actions : List SignedNativeAction) (evmTxs : List (List Byte)) : Header where
  height := parent.height + 1
  parentHash := headerHash lib parent
  timestamp := max nowSecs parent.timestamp
  evmGasLimit := values.gasLimit
  evmBlockInterval := values.blockInterval
  evmBigBlockInterval := values.bigBlockInterval
  evmBigGasLimit := values.bigGasLimit
  baseFeePerGas := values.baseFee
  bigBaseFeePerGas := values.bigBaseFee
  features := node.activations.activeAt (parent.height + 1)
  rest :=
    { proposer := node.proposerAddress
      stateRoot := parent.rest.stateRoot
      nativeActionCount := Fin.ofNat (2 ^ 32) actions.length
      evmTxCount := Fin.ofNat (2 ^ 32) evmTxs.length
      epoch := parent.rest.epoch
      validatorSetHash := parent.rest.validatorSetHash
      sigAttestation := match node.attest with
        | some sign => sign actions
        | none => 0 }

def proposedBlock (header : Header) (actions : List SignedNativeAction)
    (evmTxs : List (List Byte)) : CompactBlock κ where
  header := header
  nativeActionHashes := actions.map lib.actionHash
  evmTransactions := evmTxs
  coreWriterActions := []

def recordProposed (records : List (U64 × List (List Byte))) (height : U64)
    (evmTxs : List (List Byte)) : List (U64 × List (List Byte)) :=
  if evmTxs.isEmpty then records
  else
    let earlier := (records.lookup height).getD []
    (height, earlier ++ evmTxs.filter (· ∉ earlier)) :: records.filter (·.1 ≠ height)

/-- A proposal on `parent`, or a response without a datum; and the node after it. -/
def buildProposalOn (node : Node) (parent : Header) (around : Surroundings) :
    ProduceBlockResponse × Node :=
  let height := parent.height + 1
  if (firstUnknownFeatureIn parent.features node.knownFeatures).isSome then
    (refusedProposal lib, node)
  else
    match node.plans.epochValidatorSetUpdates lib.plan height with
    | .error _ => (refusedProposal lib, node)
    | .ok (_, plans) =>
      match plans.boundaryEvm lib.plan height with
      | .error _ => (refusedProposal lib, { node with plans := plans })
      | .ok plan =>
        let values := (plan.getD {}).resolve parent
        let node := { node with plans := plans, mempool := reinsertEarlier lib node height }
        let (payload, mempool) := selectBlockPayload lib node parent (laneLimits height values)
          around
        let evmTxs := payload.small ++ payload.big
        let (actions, mempool) := mirrorOrDropNative lib mempool height payload.native
        let header := proposedHeader lib node parent values around.nowSecs actions evmTxs
        let encoded := encodeCompactBlock lib.body (proposedBlock lib header actions evmTxs)
        let node :=
          { node with
            mempool := mempool
            ownEvmProposed := recordProposed node.ownEvmProposed height evmTxs }
        match node.plans.epochValidatorSetUpdates lib.plan height with
        | .error _ => (refusedProposal lib, node)
        | .ok (updates, plans) =>
          ({ dataHash := lib.sha256 encoded, data := [encoded], validatorSetUpdates := updates },
            { node with plans := plans })

end Build

end TorusHyperBft.Proposal
