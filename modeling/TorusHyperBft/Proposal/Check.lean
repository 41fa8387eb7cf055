import TorusHyperBft.Proposal.Datum
import TorusHyperBft.Proposal.Plan
import TorusHyperBft.Mempool.Admitted
import TorusHyperBft.Mempool.NativePool

namespace TorusHyperBft.Proposal

open Chain (ActivationSchedule BlockDataCheck ParentHeader PhaseCertificate
  checkParentLinkOrUpgrade)
open Epoch (ValidatorSetUpdates)
open Mempool (B256 EvmLanes EvmLibrary Ingress NativePool declaredGasLimit evmMinTxGas maxEvmBlockTxBytes
  maxEvmBigBlockTxBytes)
open Signing (SignedNativeAction)

/-! What a replica checks before it votes for a block and before it inserts it. -/

def isBigEvmHeight (height bigInterval : U64) : Bool :=
  0 < bigInterval && height.val % bigInterval.val = 0

def isEvmHeight (height interval bigInterval : U64) : Bool :=
  (interval ≠ 0 && height.val % interval.val = 0) || isBigEvmHeight height bigInterval

namespace Header

def isBigHeight (header : Header) : Bool := isBigEvmHeight header.height header.evmBigBlockInterval

def carriesEvm (header : Header) : Bool :=
  isEvmHeight header.height header.evmBlockInterval header.evmBigBlockInterval

def evmBlockGasCap (header : Header) : U64 :=
  if Header.isBigHeight header then header.evmGasLimit.saturatingAdd header.evmBigGasLimit
  else header.evmGasLimit

def evmBlockByteCap (header : Header) : Nat :=
  if Header.isBigHeight header then maxEvmBigBlockTxBytes else maxEvmBlockTxBytes

end Header

/-- The saturating sum of the gas the transactions declare; one that does not decode declares
none. -/
def declaredGas (evm : EvmLibrary) (evmTxs : List (List Byte)) : U64 :=
  (evmTxs.filterMap (declaredGasLimit evm)).foldl U64.saturatingAdd 0

def evmBodyFitsHeader (evm : EvmLibrary) (header : Header) (evmTxs : List (List Byte)) : Bool :=
  let gasCap := Header.evmBlockGasCap header
  if evmTxs.length ≠ header.rest.evmTxCount.val then false
  else if evmTxs.isEmpty then true
  else if !Header.carriesEvm header || gasCap.val / evmMinTxGas < evmTxs.length ||
      Header.evmBlockByteCap header < (evmTxs.map List.length).sum then false
  else if gasCap < declaredGas evm evmTxs then false
  else true

def maxBlockTimestampDriftSecs : U64 := 5

def maxBlockTimestampLagSecs : U64 := 30

inductive LagBound where
  | apply
  | exempt
deriving DecidableEq

def checkTimestampDrift (timestamp localNow : U64) : Bool :=
  timestamp ≤ localNow.saturatingAdd maxBlockTimestampDriftSecs

def checkTimestampLag (timestamp localNow : U64) : Bool :=
  localNow ≤ timestamp.saturatingAdd maxBlockTimestampLagSecs

/-- The garbage collector's fence: pins are refused far above the committed height, and what is
being deleted reads as missing. -/
structure DaGcFence where
  enabled : Bool
  committed : U64
  deleting : B256 → Bool

def daGcFenceHeightWindow : U64 := 1024

def DaGcFence.pin (fence : DaGcFence) (height : U64) (hashes : List B256) : List B256 :=
  if hashes.isEmpty || !fence.enabled then []
  else if fence.committed.saturatingAdd daGcFenceHeightWindow < height then hashes
  else hashes.filter fence.deleting

/-- The bodies in the durable store, those buffered for it and those fetched for it. -/
structure NativeDa where
  stored : B256 → Option SignedNativeAction
  buffered : B256 → Option SignedNativeAction
  fetched : List SignedNativeAction
  fence : DaGcFence
  writeFails : Bool

section Da

variable (actionHash : SignedNativeAction → B256)

def NativeDa.put (da : NativeDa) (actions : List SignedNativeAction) : NativeDa :=
  { da with
    stored := actions.foldl
      (fun stored action => Function.update stored (actionHash action) (some action)) da.stored }

def NativeDa.absorbFetched (da : NativeDa) : NativeDa :=
  let emptied := { da with fetched := [] }
  if da.writeFails then emptied else emptied.put actionHash da.fetched

end Da

/-- What is buffered is written before a read that misses it; a write that fails leaves it there. -/
def NativeDa.flushed (da : NativeDa) (hash : B256) : Option SignedNativeAction :=
  if da.writeFails then none else da.buffered hash

def NativeDa.missing (da : NativeDa) (hashes : List B256) : List B256 :=
  let absent := hashes.filter fun hash => (da.stored hash).isNone
  absent.filter fun hash => (da.flushed hash).isNone

def NativeDa.get (da : NativeDa) (hash : B256) : Option SignedNativeAction :=
  (da.stored hash).or (da.flushed hash)

def NativeDa.reconstruct (da : NativeDa) (hashes : List B256) : Option (List SignedNativeAction) :=
  hashes.mapM da.get

structure Pools where
  evm : EvmLanes
  ingress : Ingress
  native : NativePool
  da : NativeDa

/-- What a node decides with: as a proposer and as a voter. -/
structure Node where
  execFailed : Bool
  genesisHeader : Header
  lastHeader : Header
  activations : ActivationSchedule
  knownFeatures : BitVec 128
  plans : PlanReads
  mempool : Option Pools
  ownEvmProposed : List (U64 × List (List Byte))
  proposerAddress : Signing.Address
  attest : Option (List SignedNativeAction → BitVec 512)

/-- What the code takes from elsewhere: the hashes, the EVM libraries and the stored encodings. -/
structure Primitives (κ : Type) where
  sha256 : List Byte → B256
  keccak : List Byte → B256
  actionHash : SignedNativeAction → B256
  evm : EvmLibrary
  body : BodyCodec κ
  plan : PlanCodec

structure Block where
  justify : PhaseCertificate B256
  dataHash : B256
  data : List (List Byte)

section Check

variable {κ : Type} (lib : Primitives κ)

def headerHash (header : Header) : B256 := lib.keccak (canonicalHeaderBytes header)

/-- The header of a datum whose counts fit its body, and the compact block it may be. -/
def decodeForVote (bytes : List Byte) : Option (Header × Option (CompactBlock κ)) :=
  match decodeTorusBlock lib.body bytes with
  | some full =>
    if full.nativeActions.length ≠ full.header.rest.nativeActionCount.val ∨
        !evmBodyFitsHeader lib.evm full.header full.evmTransactions then none
    else some (full.header, none)
  | none =>
    match decodeCompactBlock lib.body bytes with
    | none => none
    | some compact =>
      if compact.nativeActionHashes.length ≠ compact.header.rest.nativeActionCount.val ∨
          !evmBodyFitsHeader lib.evm compact.header compact.evmTransactions then none
      else some (compact.header, some compact)

def checkParentLink (node : Node) (header : Header) (justify : PhaseCertificate B256)
    (parents : B256 → ParentHeader B256 HeaderRest) : BlockDataCheck :=
  match checkParentLinkOrUpgrade (headerHash lib) header justify node.genesisHeader node.activations
      node.knownFeatures parents (node.plans.boundaryEvm lib.plan) with
  | .ok check => check
  | .error _ => .invalid

/-- Whether the bodies a compact block names are held, pinned before they are looked for. -/
def checkBodies (node : Node) (height : U64) (hashes : List B256) : BlockDataCheck :=
  match node.mempool with
  | none => .missing
  | some mempool =>
    let da := mempool.da.absorbFetched lib.actionHash
    if !(da.fence.pin height hashes).isEmpty then .missing
    else if (da.missing hashes).isEmpty then .held
    else .missing

def checkProposalDataWith (node : Node) (now : U64) (block : Block)
    (parents : B256 → ParentHeader B256 HeaderRest) (lag : LagBound) : BlockDataCheck :=
  if node.execFailed then .invalid
  else
    match block.data with
    | [bytes] =>
      if block.dataHash ≠ lib.sha256 bytes then .invalid
      else
        match decodeForVote lib bytes with
        | none => .invalid
        | some (header, compact) =>
          match checkParentLink lib node header block.justify parents with
          | .held =>
            if !checkTimestampDrift header.timestamp now ||
                (lag = .apply && !checkTimestampLag header.timestamp now) then .invalid
            else
              match compact.filter fun compact => !compact.nativeActionHashes.isEmpty with
              | none => .held
              | some compact => checkBodies lib node header.height compact.nativeActionHashes
          | link => link
    | _ => .invalid

def checkProposalData (node : Node) (now : U64) (block : Block)
    (parents : B256 → ParentHeader B256 HeaderRest) : BlockDataCheck :=
  checkProposalDataWith lib node now block parents .apply

inductive ValidateBlockResponse where
  | valid (validatorSetUpdates : Option ValidatorSetUpdates)
  | invalid
  | missingData
  | unsupportedUpgrade

/-- The response to a link that does not hold; a datum with an unknown feature is an upgrade only
when the block commits to it. -/
def insertionLinkResponse (link : Except Chain.UpgradeRequired BlockDataCheck) (bytes : List Byte)
    (dataHash : B256) : Option ValidateBlockResponse :=
  match link with
  | .ok .held => none
  | .ok .missing => some .missingData
  | .ok .invalid => some .invalid
  | .error _ => if lib.sha256 bytes ≠ dataHash then some .invalid else some .unsupportedUpgrade

/-- The height of a block whose bodies this node holds durably, or why it cannot tell. -/
def decodeAndEnsureDurable (node : Node) (bytes : List Byte) : Except ValidateBlockResponse U64 :=
  match decodeTorusBlock lib.body bytes with
  | some full =>
    match node.mempool with
    | none => .ok full.header.height
    | some mempool =>
      if full.nativeActions.isEmpty then .ok full.header.height
      else if !(mempool.da.fence.pin full.header.height
          (full.nativeActions.map lib.actionHash)).isEmpty then .error .missingData
      else if mempool.da.writeFails then .error .missingData
      else .ok full.header.height
  | none =>
    match decodeCompactBlock lib.body bytes with
    | none => .error .invalid
    | some compact =>
      if compact.nativeActionHashes.isEmpty then .ok compact.header.height
      else
        match node.mempool with
        | none => .error .missingData
        | some mempool =>
          if !(mempool.da.fence.pin compact.header.height
              compact.nativeActionHashes).isEmpty then .error .missingData
          else
            match (mempool.da.absorbFetched lib.actionHash).reconstruct
                compact.nativeActionHashes with
            | none => .error .missingData
            | some _ => .ok compact.header.height

def finishValidate (node : Node) (height : U64) : ValidateBlockResponse :=
  match node.plans.epochValidatorSetUpdates lib.plan height with
  | .ok (updates, _) => .valid updates
  | .error _ => .missingData

def validateBlock (node : Node) (block : Block) (parents : B256 → ParentHeader B256 HeaderRest) :
    ValidateBlockResponse :=
  if node.execFailed then .invalid
  else
    match block.data with
    | [bytes] =>
      let link : Except Chain.UpgradeRequired BlockDataCheck :=
        match datumHeader bytes with
        | some header =>
          checkParentLinkOrUpgrade (headerHash lib) header block.justify node.genesisHeader
            node.activations node.knownFeatures parents (node.plans.boundaryEvm lib.plan)
        | none => .ok .invalid
      match insertionLinkResponse lib link bytes block.dataHash with
      | some response => response
      | none =>
        if block.dataHash ≠ lib.sha256 bytes then .invalid
        else
          match decodeAndEnsureDurable lib node bytes with
          | .error response => response
          | .ok height => finishValidate lib node height
    | _ => .invalid

end Check

end TorusHyperBft.Proposal
