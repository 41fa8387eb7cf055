import TorusHyperBft.Bytes
import TorusHyperBft.Hashed
import TorusHyperBft.State.Layers

namespace TorusHyperBft.RunningHash

/-! The running state hash: which rows are consensus state, and how a block's writes to them are
chained. -/

open State

abbrev Key := List Byte

abbrev Value := List Byte

inductive ColumnFamily where
  | accounts
  | storage
  | code
  | blockHeaders
  | blockBodies
  | commitManifest
  | blockHashToNumber
  | receipts
  | logs
  | logsBloom
  | txHashToLocation
  | nativeOrders
  | nativePositions
  | nativeBalances
  | nativeOrderBooks
  | nativeMarkets
  | stakingValidators
  | stakingDelegations
  | stakingPermanent
  | stakingRewards
  | governanceProposals
  | governanceVotes
  | feeConfig
  | treasury
  | devPool
  | nativeOracle
  | nativeTrades
  | nativeUserTrades
  | slashRecords
  | jailVotes
  | nativeNonces
  | nativePending
  | nativeShards
  | sessions
  | coreWriterQueue
  | consensusMeta
  | trieNodes
  | trieAccounts
  | trieStorage
  | hashedAccounts
  | hashedStorage
  | nativeTrie
  | nativeHashed
  | bookOrderRows
  | stateHashVotes
  | blockActionStatus
  | nativeLiquidation
  | coreWriterTx
  | nativeBbo
deriving DecidableEq

abbrev PendingState := ColumnFamily → CfPending Key Value

def hashedCfs : List (Byte × ColumnFamily) :=
  [(1, .nativePositions),
    (2, .nativeBalances),
    (3, .nativeOrderBooks),
    (4, .nativeMarkets),
    (5, .nativeOracle),
    (6, .nativeNonces),
    (7, .nativeOrders),
    (8, .stakingValidators),
    (9, .stakingDelegations),
    (10, .stakingPermanent),
    (11, .stakingRewards),
    (12, .governanceProposals),
    (13, .governanceVotes),
    (14, .feeConfig),
    (15, .treasury),
    (16, .devPool),
    (17, .slashRecords),
    (18, .jailVotes),
    (19, .sessions),
    (20, .coreWriterQueue),
    (21, .consensusMeta),
    (22, .stateHashVotes),
    (23, .nativeLiquidation),
    (0x80, .accounts),
    (0x81, .storage),
    (0x82, .code)]

def evmDomainFirstId : Byte := 0x80

def idNativeMarkets : Byte := 4

def idConsensusMeta : Byte := 21

def idNativeOrderBooks : Byte := 3

def ascii (text : String) : List Byte := text.toList.map fun char => Fin.ofNat 256 char.toNat

def nodeLocalMarketKeys : List Key := [ascii "__book_mode__"]

def metaConsensusPrefixes : List Key :=
  [ascii "pending_rotation:", ascii "validator_whitelist:", ascii "epoch_vset:",
    ascii "evm_epoch_gas", ascii "leader_stats:"]

def keyIsHashed (cfId : Byte) (key : Key) : Bool :=
  if cfId = idNativeMarkets then key ∉ nodeLocalMarketKeys
  else if cfId = idConsensusMeta then metaConsensusPrefixes.any fun start => start.isPrefixOf key
  else true

/-- One consensus write: the id of its column family, its key, and the new value or a deletion. -/
abbrev WriteEntry := Byte × Key × Option Value

def hashedCfOrder : List (Byte × ColumnFamily) :=
  hashedCfs.insertionSort fun left right => left.1 ≤ right.1

def mergedWrites (layers : List PendingState) (cf : ColumnFamily) : List (Key × Option Value) :=
  let streams := ((layers.map fun layer => layer cf).filter fun pending => !pending.isEmpty).map
    CfPending.stream
  mergeStreams (remaining streams) streams

/-- The consensus writes of the layers in canonical order; a later layer counts over an earlier one. -/
def consensusWrites (layers : List PendingState) : List WriteEntry :=
  hashedCfOrder.flatMap fun (cfId, cf) =>
    ((mergedWrites layers cf).filter fun write => keyIsHashed cfId write.1).map fun write =>
      (cfId, write.1, write.2)

def frame (entry : WriteEntry) : List Byte :=
  let (cfId, key, value) := entry
  [cfId] ++ toBytes 4 (key.length % 2 ^ 32) ++ key ++
    match value with
    | none => [0]
    | some value => [1] ++ toBytes 4 (value.length % 2 ^ 32) ++ value

abbrev Digest := BitVec 256

structure BlockDigest where
  native : List Byte := []
  evm : List Byte := []
deriving DecidableEq

def BlockDigest.push (digest : BlockDigest) (entry : WriteEntry) : BlockDigest :=
  if !keyIsHashed entry.1 entry.2.1 then digest
  else if evmDomainFirstId ≤ entry.1 then { digest with evm := digest.evm ++ frame entry }
  else { digest with native := digest.native ++ frame entry }

def digestBytes (digest : Digest) : List Byte := toBytes 32 digest.toNat

def BlockDigest.chain (sha256 : List Byte → Digest) (digest : BlockDigest) (prev : Digest)
    (height : Nat) : Hashed (List Byte) Digest := do
  let native ← Hashed.call sha256 digest.native
  let evm ← Hashed.call sha256 digest.evm
  Hashed.call sha256 (digestBytes prev ++ toBytes 8 height ++ digestBytes native ++ digestBytes evm)

def stateHashCheckpointInterval : Nat := 100

def bookWindowActive (bookWindow : Option Nat) (height : Nat) : Bool :=
  bookWindow.any fun activation => activation ≤ height

def booksHashedAt (bookWindow : Option Nat) (height : Nat) : Bool :=
  !bookWindowActive bookWindow height || height % stateHashCheckpointInterval == 0

def digestedWrites (layers : List PendingState) (books : Bool) : List WriteEntry :=
  (consensusWrites layers).filter fun entry => books || entry.1 ≠ idNativeOrderBooks

def blockDigest (layers : List PendingState) (books : Bool) : BlockDigest :=
  (digestedWrites layers books).foldl BlockDigest.push {}

/-- What the flush of a height does with the running hash. -/
inductive ChainStep where
  | off
  | start
  | next (prev : Digest)
  | unverified (first : Bool)
deriving DecidableEq

/-- The chain state, as it is stored or kept by the flush worker. -/
structure ChainMemo where
  configured : Option Nat := none
  start : Option Nat := none
  unverified : Option Nat := none
  prev : Option (Nat × Digest) := none
  bookWindow : Option Nat := none
deriving DecidableEq

namespace ChainMemo

def step (memo : ChainMemo) (height : Nat) : ChainStep :=
  match memo.configured with
  | none => .off
  | some activation =>
    if height < activation then .off
    else if height = activation then .start
    else if memo.unverified.isSome then .unverified false
    else
      match memo.prev with
      | some (stored, hash) =>
        if memo.start = some activation ∧ stored + 1 = height then .next hash
        else .unverified true
      | none => .unverified true

def advance (memo : ChainMemo) (height : Nat) (step : ChainStep) (hash : Option Digest) :
    ChainMemo :=
  match step, hash with
  | .unverified true, _ => { memo with unverified := some height }
  | .start, some hash =>
    { memo with unverified := none, start := some height, prev := some (height, hash) }
  | .next _, some hash => { memo with prev := some (height, hash) }
  | _, _ => memo

def hashAt (sha256 : List Byte → Digest) (memo : ChainMemo) (height : Nat)
    (layers : List PendingState) : Hashed (List Byte) (Option Digest) :=
  let digest := blockDigest layers (booksHashedAt memo.bookWindow height)
  match memo.step height with
  | .start => do return some (← digest.chain sha256 0 height)
  | .next prev => do return some (← digest.chain sha256 prev height)
  | _ => pure none

def digestBlock (sha256 : List Byte → Digest) (memo : ChainMemo) (height : Nat)
    (layers : List PendingState) : Hashed (List Byte) ChainMemo := do
  let hash ← memo.hashAt sha256 height layers
  return memo.advance height (memo.step height) hash

end ChainMemo

end TorusHyperBft.RunningHash
