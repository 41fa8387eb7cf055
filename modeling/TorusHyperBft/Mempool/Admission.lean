import TorusHyperBft.Mempool.EvmPool

namespace TorusHyperBft.Mempool

open Signing (Address)

/-! What an EVM transaction is checked for before it enters a lane. -/

inductive TxType where
  | legacy
  | eip2930
  | eip1559
  | eip4844
  | eip7702
deriving DecidableEq

structure TxEnvelope where
  txType : TxType
  chainId : Option U64
  nonce : Nat
  gasLimit : U64
  maxFeePerGas : Nat
  maxPriorityFeePerGas : Option Nat
  value : Nat
  isCreate : Bool
  input : List Byte
  accessAccounts : Nat
  accessKeys : Nat
  txHash : B256
deriving DecidableEq

/-- The EVM libraries: the transaction decoder, which leaves the bytes after the transaction,
signature recovery and the gas a transaction costs before it runs, 21,000 at the least. -/
structure EvmLibrary where
  decode : List Byte → Option (TxEnvelope × List Byte)
  recoverSigner : TxEnvelope → Option Address
  intrinsicGas : TxEnvelope → U64
  decode_nil : decode [] = none
  intrinsicGas_min : ∀ tx, 21000 ≤ (intrinsicGas tx).val

inductive MempoolError where
  | decode
  | unsupportedTxType (txType : TxType)
  | invalidChainId (have_ : Option U64) (want : U64)
  | gasLimitExceeded (txGas blockGas : U64)
  | initCodeTooLarge (size max : Nat)
  | intrinsicGasTooLow (need got : U64)
  | feeTooLow (maxFee : Nat) (baseFee : U64)
  | priorityFeeAboveMaxFee (priorityFee maxFee : Nat)
  | signatureRecovery
  | nonceTooLow (sender : Address) (have_ minimum : Nat)
  | nonceTooFar (sender : Address) (have_ max : Nat)
  | insufficientBalance (sender : Address) (have_ need : Nat)
  | txTooLarge (size max : Nat)
  | duplicateTx (hash : B256)
  | replacementUnderpriced (needMaxFee gotMaxFee needPriorityFee gotPriorityFee : Nat)
  | poolFull
deriving DecidableEq

def maxInitcodeSize : Nat := 49152

def maxNonceGap : Nat := 64

def maxEvmBlockTxBytes : Nat := 256 * 1024

def maxEvmBigBlockTxBytes : Nat := 768 * 1024

section Validate

variable (evm : EvmLibrary)

/-- The gas limit a raw transaction declares; a type that does not execute declares none. -/
def declaredGasLimit (raw : List Byte) : Option U64 :=
  match evm.decode raw with
  | none => none
  | some (tx, _) =>
    match tx.txType with
    | .legacy | .eip2930 | .eip1559 => some tx.gasLimit
    | _ => none

def decodeTxExact (raw : List Byte) : Except MempoolError TxEnvelope :=
  match evm.decode raw with
  | some (tx, []) => .ok tx
  | _ => .error .decode

def executes (txType : TxType) : Bool :=
  txType = .legacy || txType = .eip2930 || txType = .eip1559

def chainIdOk (tx : TxEnvelope) (chainId : U64) : Bool :=
  match tx.chainId with
  | some id => id = chainId
  | none => tx.txType = .legacy

def validateEvmTx (account : Address → Option (Nat × Nat)) (raw : List Byte)
    (chainId blockGasLimit baseFee : U64) : Except MempoolError EvmPoolEntry := do
  let tx ← decodeTxExact evm raw
  let priorityFee := tx.maxPriorityFeePerGas.getD tx.maxFeePerGas
  if !executes tx.txType then .error (.unsupportedTxType tx.txType)
  else if !chainIdOk tx chainId then .error (.invalidChainId tx.chainId chainId)
  else if blockGasLimit < tx.gasLimit then .error (.gasLimitExceeded tx.gasLimit blockGasLimit)
  else if tx.isCreate ∧ maxInitcodeSize < tx.input.length then
    .error (.initCodeTooLarge tx.input.length maxInitcodeSize)
  else if tx.gasLimit < evm.intrinsicGas tx then
    .error (.intrinsicGasTooLow (evm.intrinsicGas tx) tx.gasLimit)
  else if tx.maxFeePerGas < baseFee.val then .error (.feeTooLow tx.maxFeePerGas baseFee)
  else if tx.maxFeePerGas < priorityFee then
    .error (.priorityFeeAboveMaxFee priorityFee tx.maxFeePerGas)
  else
    match evm.recoverSigner tx with
    | none => .error .signatureRecovery
    | some sender =>
      let (stateNonce, balance) := (account sender).getD (0, 0)
      let totalCost := (tx.gasLimit.val * tx.maxFeePerGas + tx.value) % 2 ^ 256
      if tx.nonce < stateNonce then .error (.nonceTooLow sender tx.nonce stateNonce)
      else if stateNonce + maxNonceGap < tx.nonce then
        .error (.nonceTooFar sender tx.nonce (stateNonce + maxNonceGap))
      else if balance < totalCost then .error (.insufficientBalance sender balance totalCost)
      else
        .ok
          { hash := tx.txHash
            sender := sender
            nonce := tx.nonce
            maxFeePerGas := tx.maxFeePerGas
            maxPriorityFee := priorityFee
            gasLimit := tx.gasLimit
            rawRlp := raw }

end Validate

def bumped (old bumpPct : Nat) : Nat :=
  max (min (old * (100 + bumpPct)) (2 ^ 128 - 1) / 100) (min (old + 1) (2 ^ 128 - 1))

structure PoolLimits where
  maxPoolSize : Nat
  maxPerSender : Nat
  replacementBumpPct : Nat

inductive EvmLane where
  | small
  | big
deriving DecidableEq

def EvmLane.other : EvmLane → EvmLane
  | .small => .big
  | .big => .small

structure LaneCaps where
  maxGas : U64
  maxBytes : Nat
  feeFloor : U64

def checkLaneCaps (entry : EvmPoolEntry) (caps : LaneCaps) : Except MempoolError Unit :=
  if caps.maxBytes < entry.rawRlp.length then .error (.txTooLarge entry.rawRlp.length caps.maxBytes)
  else if caps.maxGas < entry.gasLimit then .error (.gasLimitExceeded entry.gasLimit caps.maxGas)
  else if entry.maxFeePerGas < caps.feeFloor.val then
    .error (.feeTooLow entry.maxFeePerGas caps.feeFloor)
  else .ok ()

end TorusHyperBft.Mempool
