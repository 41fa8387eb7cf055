import TorusHyperBft.Wire
import TorusHyperBft.Chain.Link
import TorusHyperBft.Mempool.EvmPool

namespace TorusHyperBft.Proposal

open Wire
open Mempool (B256)
open Signing (Address SignedNativeAction)

/-! The one datum of a proposal: a compact block, whose native actions are named by their hashes.

A reader first takes the bytes for a full block and only then for a compact one. -/

/-- What a header carries beside its link to the parent. -/
structure HeaderRest where
  proposer : Address
  stateRoot : B256
  receiptsRoot : B256 := 0
  logsBloom : BitVec 2048 := 0
  evmGasUsed : U64 := 0
  evmFeeRevenue : BitVec 128 := 0
  nativeActionCount : Fin (2 ^ 32)
  evmTxCount : Fin (2 ^ 32)
  epoch : U64
  validatorSetHash : B256
  sigAttestation : BitVec 512
deriving DecidableEq

abbrev Header := Chain.TorusBlockHeader B256 HeaderRest

def u32Codec : Codec (Fin (2 ^ 32)) where
  encode := (Codec.fin 4).encode
  read := (Codec.fin 4).read
  read_encode := (Codec.fin 4).read_encode

def u128Codec : Codec (BitVec 128) :=
  (Codec.fin 16).map (fun value => BitVec.ofFin value) (fun value => value.toFin) fun _ => rfl

def hashCodec : Codec B256 := Codec.sizedBits 32

def addressCodec : Codec Address := Codec.sizedBits 20

def bloomCodec : Codec (BitVec 2048) := Codec.sizedBits 256

def attestationCodec : Codec (BitVec 512) := Codec.bits 64

def headerCodec : Codec Header :=
  (Codec.u64.prod <| hashCodec.prod <| Codec.u64.prod <| addressCodec.prod <| hashCodec.prod <|
    hashCodec.prod <| bloomCodec.prod <| Codec.u64.prod <| u128Codec.prod <| Codec.u64.prod <|
    Codec.u64.prod <| Codec.u64.prod <| Codec.u64.prod <| u32Codec.prod <| u32Codec.prod <|
    Codec.u64.prod <| Codec.u64.prod <| Codec.u64.prod <| hashCodec.prod <| u128Codec.prod
    attestationCodec).map
  (fun (height, parentHash, timestamp, proposer, stateRoot, receiptsRoot, logsBloom, evmGasUsed,
      evmFeeRevenue, evmGasLimit, evmBlockInterval, evmBigBlockInterval, evmBigGasLimit,
      nativeActionCount, evmTxCount, baseFeePerGas, bigBaseFeePerGas, epoch, validatorSetHash,
      features, sigAttestation) =>
    { height, parentHash, timestamp, evmGasLimit, evmBlockInterval, evmBigBlockInterval,
      evmBigGasLimit, baseFeePerGas, bigBaseFeePerGas, features
      rest :=
        { proposer, stateRoot, receiptsRoot, logsBloom, evmGasUsed, evmFeeRevenue,
          nativeActionCount, evmTxCount, epoch, validatorSetHash, sigAttestation } })
  (fun header =>
    (header.height, header.parentHash, header.timestamp, header.rest.proposer,
      header.rest.stateRoot, header.rest.receiptsRoot, header.rest.logsBloom,
      header.rest.evmGasUsed, header.rest.evmFeeRevenue, header.evmGasLimit,
      header.evmBlockInterval, header.evmBigBlockInterval, header.evmBigGasLimit,
      header.rest.nativeActionCount, header.rest.evmTxCount, header.baseFeePerGas,
      header.bigBaseFeePerGas, header.rest.epoch, header.rest.validatorSetHash, header.features,
      header.rest.sigAttestation))
  fun _ => rfl

/-- The bytes a header is hashed over: not the state root, and the features only when some are
active. -/
def canonicalHeaderBytes (header : Header) : List Byte :=
  toBytes 8 header.height.val ++ toBytes 32 header.parentHash.toNat ++
    toBytes 8 header.timestamp.val ++ toBytes 20 header.rest.proposer.toNat ++
    toBytes 32 header.rest.receiptsRoot.toNat ++ toBytes 256 header.rest.logsBloom.toNat ++
    toBytes 8 header.rest.evmGasUsed.val ++ toBytes 16 header.rest.evmFeeRevenue.toNat ++
    toBytes 8 header.evmGasLimit.val ++ toBytes 8 header.evmBlockInterval.val ++
    toBytes 8 header.evmBigBlockInterval.val ++ toBytes 8 header.evmBigGasLimit.val ++
    toBytes 4 header.rest.nativeActionCount.val ++ toBytes 4 header.rest.evmTxCount.val ++
    toBytes 8 header.baseFeePerGas.val ++ toBytes 8 header.bigBaseFeePerGas.val ++
    toBytes 8 header.rest.epoch.val ++ toBytes 32 header.rest.validatorSetHash.toNat ++
    if header.features = 0 then [] else toBytes 16 header.features.toNat

structure TorusBlock (κ : Type) where
  header : Header
  nativeActions : List SignedNativeAction
  evmTransactions : List (List Byte)
  coreWriterActions : List κ

structure CompactBlock (κ : Type) where
  header : Header
  nativeActionHashes : List B256
  evmTransactions : List (List Byte)
  coreWriterActions : List κ

def nativeActionKinds : Nat := 31

/-- How the parts the proposal never looks into are written: the fields of each kind of native
action with its nonce and signature, and the queued EVM actions. -/
structure BodyCodec (κ : Type) where
  readFields : Fin nativeActionKinds → Wire.Reader SignedNativeAction
  encodeCoreWriter : κ → List Byte
  readCoreWriter : Wire.Reader κ

section Coding

variable {κ : Type} (body : BodyCodec κ)

def readNativeAction : Wire.Reader SignedNativeAction := fun bytes => do
  let (kind, bytes) ← readNat 4 bytes
  if known : kind < nativeActionKinds then body.readFields ⟨kind, known⟩ bytes else none

def decodeTorusBlock (bytes : List Byte) : Option (TorusBlock κ) := do
  let (header, bytes) ← headerCodec.read bytes
  let (nativeActions, bytes) ← readVec (readNativeAction body) bytes
  let (evmTransactions, bytes) ← readVec readBytes bytes
  let (coreWriterActions, _) ← readVec body.readCoreWriter bytes
  return { header, nativeActions, evmTransactions, coreWriterActions }

def decodeCompactBlock (bytes : List Byte) : Option (CompactBlock κ) := do
  let (header, bytes) ← headerCodec.read bytes
  let (nativeActionHashes, bytes) ← readVec hashCodec.read bytes
  let (evmTransactions, bytes) ← readVec readBytes bytes
  let (coreWriterActions, _) ← readVec body.readCoreWriter bytes
  return { header, nativeActionHashes, evmTransactions, coreWriterActions }

def encodeCompactBlock (block : CompactBlock κ) : List Byte :=
  headerCodec.encode block.header ++ encodeVec hashCodec.encode block.nativeActionHashes ++
    encodeVec encodeBytes block.evmTransactions ++
    encodeVec body.encodeCoreWriter block.coreWriterActions

def datumHeader (bytes : List Byte) : Option Header := (headerCodec.read bytes).map Prod.fst

end Coding

section Reading

variable {κ : Type} {body : BodyCodec κ}

theorem readNativeAction_hash (hash : B256) (rest : List Byte) :
    readNativeAction body (hashCodec.encode hash ++ rest) = none := by
  have size : encodeNat 8 (32 % 256 ^ 8) = encodeNat 4 32 ++ [0, 0, 0, 0] := by decide
  have small : 32 < 256 ^ 4 := by decide
  have unknown : ¬ 32 < nativeActionKinds := by decide
  have spelled : hashCodec.encode hash ++ rest =
      encodeNat 4 32 ++ ([0, 0, 0, 0] ++ ((Codec.bits 32).encode hash ++ rest)) := by
    rw [← List.append_assoc, ← size, ← List.append_assoc]
    rfl
  rw [spelled, readNativeAction, readNat_encodeNat small]
  simp only [Option.bind_eq_bind, Option.bind_some, unknown, dite_false]

/-- A proposal fits the lengths it is written with and queues no EVM action. -/
structure Writable (block : CompactBlock κ) : Prop where
  hashes : block.nativeActionHashes.length < 2 ^ 64
  transactions : block.evmTransactions.length < 2 ^ 64
  each : ∀ raw ∈ block.evmTransactions, raw.length < 2 ^ 64
  coreWriter : block.coreWriterActions = []

theorem encodeCompactBlock_eq (block : CompactBlock κ) :
    encodeCompactBlock body block = headerCodec.encode block.header ++
      (encodeVec hashCodec.encode block.nativeActionHashes ++
        (encodeVec encodeBytes block.evmTransactions ++
          encodeVec body.encodeCoreWriter block.coreWriterActions)) := by
  rw [encodeCompactBlock, List.append_assoc, List.append_assoc]

theorem readHeader_encode (block : CompactBlock κ) :
    headerCodec.read (encodeCompactBlock body block) =
      some (block.header, encodeVec hashCodec.encode block.nativeActionHashes ++
        (encodeVec encodeBytes block.evmTransactions ++
          encodeVec body.encodeCoreWriter block.coreWriterActions)) := by
  rw [encodeCompactBlock_eq, headerCodec.read_encode]

theorem datumHeader_encode (block : CompactBlock κ) :
    datumHeader (encodeCompactBlock body block) = some block.header := by
  rw [datumHeader, readHeader_encode]
  rfl

variable {block : CompactBlock κ}

theorem readTransactions_encode (writable : Writable block) (rest : List Byte) :
    readVec readBytes (encodeVec encodeBytes block.evmTransactions ++ rest) =
      some (block.evmTransactions, rest) :=
  readVec_encodeVec writable.transactions
    (fun raw member => readBytes_encodeBytes (writable.each raw member)) rest

theorem readCoreWriter_encode :
    readVec body.readCoreWriter (encodeVec body.encodeCoreWriter []) = some ([], []) := by
  have empty : ([] : List κ).length < 2 ^ 64 := Nat.two_pow_pos 64
  have read := @readVec_encodeVec κ body.encodeCoreWriter body.readCoreWriter [] empty
    (fun _ member => absurd member List.not_mem_nil) []
  rwa [List.append_nil] at read

section Parts

variable {bytes native transactions coreWriter left : List Byte} {header : Header}
  {actions : List SignedNativeAction} {names : List B256} {raws : List (List Byte)} {queued : List κ}

variable (hasHeader : headerCodec.read bytes = some (header, native))
include hasHeader

theorem decodeCompactBlock_parts
    (hasNames : readVec hashCodec.read native = some (names, transactions))
    (hasRaws : readVec readBytes transactions = some (raws, coreWriter))
    (hasQueued : readVec body.readCoreWriter coreWriter = some (queued, left)) :
    decodeCompactBlock body bytes =
      some { header := header
             nativeActionHashes := names
             evmTransactions := raws
             coreWriterActions := queued } := by
  simp [decodeCompactBlock, hasHeader, hasNames, hasRaws, hasQueued]

theorem decodeTorusBlock_parts
    (hasActions : readVec (readNativeAction body) native = some (actions, transactions))
    (hasRaws : readVec readBytes transactions = some (raws, coreWriter))
    (hasQueued : readVec body.readCoreWriter coreWriter = some (queued, left)) :
    decodeTorusBlock body bytes =
      some { header := header
             nativeActions := actions
             evmTransactions := raws
             coreWriterActions := queued } := by
  simp [decodeTorusBlock, hasHeader, hasActions, hasRaws, hasQueued]

theorem decodeTorusBlock_unreadable (unreadable : readVec (readNativeAction body) native = none) :
    decodeTorusBlock body bytes = none := by
  simp [decodeTorusBlock, hasHeader, unreadable]

end Parts

theorem decodeCompactBlock_encode (writable : Writable block) :
    decodeCompactBlock body (encodeCompactBlock body block) = some block := by
  have hashes := @readVec_encodeVec _ hashCodec.encode hashCodec.read _ writable.hashes
    fun hash _ => hashCodec.read_encode hash
  have coreWriter := @readCoreWriter_encode κ body
  rw [← writable.coreWriter] at coreWriter
  exact decodeCompactBlock_parts (readHeader_encode block) (hashes _)
    (readTransactions_encode writable _) coreWriter

theorem decodeTorusBlock_encode_hashes (writable : Writable block)
    (named : block.nativeActionHashes ≠ []) :
    decodeTorusBlock body (encodeCompactBlock body block) = none := by
  have fits := writable.hashes
  have header := @readHeader_encode κ body block
  cases names : block.nativeActionHashes with
  | nil => exact absurd names named
  | cons hash hashes =>
    rw [names] at fits header
    exact decodeTorusBlock_unreadable header
      (readVec_encodeVec_cons fits (readNativeAction_hash hash) _)

theorem decodeTorusBlock_encode_empty (writable : Writable block)
    (empty : block.nativeActionHashes = []) :
    decodeTorusBlock body (encodeCompactBlock body block) =
      some { header := block.header
             nativeActions := []
             evmTransactions := block.evmTransactions
             coreWriterActions := block.coreWriterActions } := by
  have none_ : ∀ rest, readVec (readNativeAction body)
      (encodeVec hashCodec.encode block.nativeActionHashes ++ rest) = some ([], rest) := by
    have zero : (0 : Nat) < 256 ^ 8 := by decide
    intro rest
    simp [empty, readVec, encodeVec, readNat_encodeNat zero, readMany]
  have coreWriter := @readCoreWriter_encode κ body
  rw [← writable.coreWriter] at coreWriter
  exact decodeTorusBlock_parts (readHeader_encode block) (none_ _)
    (readTransactions_encode writable _) coreWriter

end Reading

end TorusHyperBft.Proposal
