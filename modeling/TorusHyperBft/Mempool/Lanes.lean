import TorusHyperBft.Mempool.LanePool

namespace TorusHyperBft.Mempool

open Signing (Address)

/-! The two EVM lanes under one lock, with what committed blocks carried and what was drained, and
every call that changes them. -/

structure Ingress where
  account : Address → Option (Nat × Nat)
  usesBigBlocks : Address → Bool

inductive AdmitError where
  | mempool (error : MempoolError)
  | evmLaneSwitchPending (sender : Address)
deriving DecidableEq

structure LanesConfig where
  limits : PoolLimits
  chainId : U64
  blockGasLimit : U64
  initialBaseFee : U64
  evmBlockGasBudget : U64
  evmSenderSharePct : U64
  maxMemoryBytes : Nat

structure EvmLanes where
  config : LanesConfig
  small : LanePool
  big : LanePool
  committed : AList fun _ : B256 => U64 := ∅
  committedNext : AList fun _ : Address => Nat × U64 := ∅
  drained : AList fun _ : B256 => Address × Nat := ∅
  currentBaseFee : U64
  currentEvmGasLimit : U64
  currentBigInterval : U64 := 0
  currentBigGasLimit : U64 := 0
  currentBigBaseFee : U64
  memoryUsed : Nat := 0

namespace EvmLanes

def new (config : LanesConfig) : EvmLanes where
  config := config
  small := .new config.initialBaseFee
  big := .new config.initialBaseFee
  currentBaseFee := config.initialBaseFee
  currentEvmGasLimit := config.blockGasLimit
  currentBigBaseFee := config.initialBaseFee

def pool (lanes : EvmLanes) : EvmLane → LanePool
  | .small => lanes.small
  | .big => lanes.big

def setPools (lanes : EvmLanes) (lane : EvmLane) (pool other : LanePool) : EvmLanes :=
  match lane with
  | .small => { lanes with small := pool, big := other }
  | .big => { lanes with small := other, big := pool }

def bigBlocksOn (lanes : EvmLanes) : Bool := 0 < lanes.currentBigInterval

def evmLane (lanes : EvmLanes) (ingress : Ingress) (sender : Address) : EvmLane :=
  if !lanes.bigBlocksOn then .small
  else if ingress.usesBigBlocks sender then .big
  else .small

def maxEvmTxGas (lanes : EvmLanes) : U64 :=
  min lanes.currentEvmGasLimit lanes.config.evmBlockGasBudget

def laneCaps (lanes : EvmLanes) : EvmLane → LaneCaps
  | .small =>
    { maxGas := lanes.maxEvmTxGas
      maxBytes := maxEvmBlockTxBytes
      feeFloor := lanes.currentBaseFee }
  | .big =>
    { maxGas := lanes.currentBigGasLimit
      maxBytes := maxEvmBigBlockTxBytes
      feeFloor := lanes.currentBigBaseFee }

def loosestCaps (lanes : EvmLanes) : LaneCaps :=
  let small := lanes.laneCaps .small
  let big := lanes.laneCaps .big
  if lanes.bigBlocksOn then
    { maxGas := max small.maxGas big.maxGas
      maxBytes := max small.maxBytes big.maxBytes
      feeFloor := min small.feeFloor big.feeFloor }
  else small

def laneOf (lanes : EvmLanes) (hash : B256) : Option EvmLane :=
  if lanes.small.contains hash then some .small
  else if lanes.big.contains hash then some .big
  else none

def removeByHash (lanes : EvmLanes) (hash : B256) : Option EvmPoolEntry × EvmLanes :=
  match lanes.small.removeByHash hash with
  | (some entry, small) => (some entry, { lanes with small := small })
  | (none, small) =>
    let (entry, big) := lanes.big.removeByHash hash
    (entry, { lanes with small := small, big := big })

def liftError {α : Type} : Except MempoolError α → Except AdmitError α
  | .ok value => .ok value
  | .error error => .error (.mempool error)

/-- A committed block carried the transaction, or one of its sender's at or above its nonce. -/
def checkInFlight (lanes : EvmLanes) (entry : EvmPoolEntry) : Except AdmitError Unit :=
  if (lanes.laneOf entry.hash).isSome ∨ (lanes.committed.lookup entry.hash).isSome then
    .error (.mempool (.duplicateTx entry.hash))
  else
    match lanes.committedNext.lookup entry.sender with
    | some (minimum, _) =>
      if entry.nonce < minimum then
        .error (.mempool (.nonceTooLow entry.sender entry.nonce minimum))
      else .ok ()
    | none => .ok ()

/-- One lane a sender: a new transaction waits for the other lane to empty, a returning one joins
its sender's others. With big blocks off only the small lane is open. -/
def chooseLane (lanes : EvmLanes) (ingress : Ingress) (entry : EvmPoolEntry) (reinsert : Bool) :
    Except AdmitError EvmLane :=
  let lane := lanes.evmLane ingress entry.sender
  let openLane := fun lane : EvmLane => if lane = .big ∧ !lanes.bigBlocksOn then .small else lane
  if (lanes.pool lane.other).hasSender entry.sender then
    if reinsert then .ok (openLane lane.other)
    else .error (.evmLaneSwitchPending entry.sender)
  else .ok (openLane lane)

def validated (evm : EvmLibrary) (lanes : EvmLanes) (ingress : Ingress) (raw : List Byte)
    (reinsert : Bool) : Except AdmitError EvmPoolEntry := do
  let loosest := lanes.loosestCaps
  if loosest.maxBytes < raw.length then
    .error (.mempool (.txTooLarge raw.length loosest.maxBytes))
  else
    let entry ← liftError (validateEvmTx evm ingress.account raw lanes.config.chainId
      loosest.maxGas loosest.feeFloor)
    if !reinsert then
      liftError (checkLaneCaps entry
        (lanes.laneCaps (lanes.evmLane ingress entry.sender)))
    if 0 < lanes.config.maxMemoryBytes ∧ !reinsert ∧
        lanes.config.maxMemoryBytes < lanes.memoryUsed + raw.length then
      .error (.mempool .poolFull)
    else .ok entry

def insert (lanes : EvmLanes) (lane : EvmLane) (entry : EvmPoolEntry) (reinsert : Bool) :
    Except MempoolError LanePool.Inserted :=
  if reinsert then
    LanePool.reinsertSharing lanes.config.limits (lanes.pool lane) (lanes.pool lane.other) entry
  else LanePool.insertSharing lanes.config.limits (lanes.pool lane) (lanes.pool lane.other) entry

def admitEvmTx (evm : EvmLibrary) (lanes : EvmLanes) (ingress : Ingress) (raw : List Byte)
    (reinsert : Bool) : Except AdmitError EvmLanes := do
  let entry ← lanes.validated evm ingress raw reinsert
  lanes.checkInFlight entry
  let lane ← lanes.chooseLane ingress entry reinsert
  liftError (checkLaneCaps entry (lanes.laneCaps lane))
  let inserted ← liftError (lanes.insert lane entry reinsert)
  return { lanes.setPools lane inserted.pool inserted.other with
    memoryUsed := lanes.memoryUsed + raw.length - inserted.freedBytes }

def evmTxHash (evm : EvmLibrary) (raw : List Byte) : Option B256 :=
  (evm.decode raw).map fun decoded => decoded.1.txHash

def reinsertEvm (evm : EvmLibrary) (lanes : EvmLanes) (ingress : Ingress)
    (raws : List (List Byte)) : EvmLanes :=
  let drained := (raws.filterMap (evmTxHash evm)).foldl (fun drained hash => drained.erase hash)
    lanes.drained
  raws.foldl (fun lanes raw =>
    match lanes.admitEvmTx evm ingress raw true with
    | .ok after => after
    | .error _ => lanes) { lanes with drained := drained }

def evmInflightKeepBlocks : Nat := 256

def commitHash (height : U64) (lanes : EvmLanes) (hash : B256) : EvmLanes :=
  let lanes := { lanes with committed := lanes.committed.insert hash height }
  let (removed, lanes) := lanes.removeByHash hash
  let hit := match removed with
    | some entry => some (entry.sender, entry.nonce)
    | none => lanes.drained.lookup hash
  let lanes := { lanes with
    memoryUsed := lanes.memoryUsed - LanePool.lengthOf removed
    drained := if removed.isNone then lanes.drained.erase hash else lanes.drained }
  match hit with
  | none => lanes
  | some (sender, nonce) =>
    let next := ((lanes.committedNext.lookup sender).map Prod.fst).getD 0
    { lanes with
      committedNext := lanes.committedNext.insert sender (max next (nonce + 1), height) }

def retain {α : Type} {β : α → Type} [DecidableEq α] (rows : AList β) (keep : Sigma β → Bool) :
    AList β :=
  ⟨rows.entries.filter keep, rows.nodupKeys.sublist List.filter_sublist⟩

def removeCommittedEvm (evm : EvmLibrary) (lanes : EvmLanes) (height : U64)
    (raws : List (List Byte)) : EvmLanes :=
  let keepFrom := height.val - evmInflightKeepBlocks
  let lanes := { lanes with
    committed := retain lanes.committed fun row => keepFrom ≤ row.2.val
    committedNext := retain lanes.committedNext fun row => keepFrom ≤ row.2.2.val }
  (raws.filterMap (evmTxHash evm)).foldl (commitHash height) lanes

section Drains

variable (keccak : List Byte → B256) (ties : List DrainEntry → Nat)

def senderGasCap (lanes : EvmLanes) (budget : U64) : Option U64 :=
  if lanes.config.evmSenderSharePct = 0 then none
  else some ⟨(budget.saturatingMul lanes.config.evmSenderSharePct).val / 100, by omega⟩

def recordAll (drained : AList fun _ : B256 => Address × Nat) (selected : List EvmPoolEntry) :
    AList fun _ : B256 => Address × Nat :=
  selected.foldl (fun drained entry => drained.insert entry.hash (entry.sender, entry.nonce)) drained

def smallRequest (lanes : EvmLanes) (gasLimit baseFee : U64) (parentHash : B256)
    (inFlight : B256 → Bool) : DrainRequest :=
  let budget := min gasLimit lanes.config.evmBlockGasBudget
  { gasBudget := budget
    byteBudget := maxEvmBlockTxBytes
    senderGasCap := lanes.senderGasCap budget
    parentHash := parentHash
    minBaseFee := baseFee.val
    inFlight := inFlight }

def bigRequest (lanes : EvmLanes) (gasLimit : U64) (byteBudget : Nat) (bigBaseFee : U64)
    (parentHash : B256) (inFlight : B256 → Bool) : DrainRequest :=
  { gasBudget := gasLimit
    byteBudget := byteBudget
    senderGasCap := lanes.senderGasCap gasLimit
    parentHash := parentHash
    minBaseFee := bigBaseFee.val
    inFlight := inFlight }

def drainEvm (lanes : EvmLanes) (gasLimit baseFee : U64) (parentHash : B256)
    (inFlight : B256 → Bool) : List (List Byte) × EvmLanes :=
  let (selected, small) := lanes.small.drain keccak ties
    (lanes.smallRequest gasLimit baseFee parentHash inFlight)
  let raws := selected.map EvmPoolEntry.rawRlp
  (raws, { lanes with
    small := small
    drained := recordAll lanes.drained selected
    memoryUsed := lanes.memoryUsed - (raws.map List.length).sum })

def drainEvmBig (lanes : EvmLanes) (gasLimit : U64) (byteBudget : Nat) (bigBaseFee : U64)
    (parentHash : B256) (inFlight : B256 → Bool) : List (List Byte) × EvmLanes :=
  let (selected, big) := lanes.big.drain keccak ties
    (lanes.bigRequest gasLimit byteBudget bigBaseFee parentHash inFlight)
  let raws := selected.map EvmPoolEntry.rawRlp
  (raws, { lanes with
    big := big
    drained := recordAll lanes.drained selected
    memoryUsed := lanes.memoryUsed - (raws.map List.length).sum })

end Drains

def setBaseFee (lanes : EvmLanes) (baseFee : U64) : EvmLanes :=
  { lanes with currentBaseFee := baseFee, small := lanes.small.setBaseFee baseFee }

def setEvmGasLimit (lanes : EvmLanes) (gasLimit : U64) : EvmLanes :=
  let budget := lanes.config.evmBlockGasBudget
  let after := { lanes with currentEvmGasLimit := gasLimit }
  if min gasLimit budget < min lanes.currentEvmGasLimit budget then
    let (freed, small) := lanes.small.evictGasAbove (min gasLimit budget)
    { after with small := small, memoryUsed := lanes.memoryUsed - freed }
  else after

def setBigLane (evm : EvmLibrary) (lanes : EvmLanes) (ingress : Ingress)
    (interval gasLimit baseFee : U64) : EvmLanes :=
  let before := lanes.currentBigGasLimit
  let lanes := { lanes with
    currentBigInterval := interval
    currentBigGasLimit := gasLimit
    currentBigBaseFee := baseFee
    big := lanes.big.setBaseFee baseFee }
  let lanes :=
    if 0 < interval ∧ gasLimit < before then
      let (freed, big) := lanes.big.evictGasAbove gasLimit
      { lanes with big := big, memoryUsed := lanes.memoryUsed - freed }
    else lanes
  if interval = 0 ∧ 0 < lanes.big.size then
    let (moved, big) := lanes.big.takeAll
    let lanes := { lanes with
      big := big
      memoryUsed := lanes.memoryUsed - (moved.map List.length).sum }
    lanes.reinsertEvm evm ingress moved
  else lanes

def pruneSender (stateNonce : Address → Nat) (lanes : EvmLanes) (sender : Address) : EvmLanes :=
  let (freedSmall, small) := lanes.small.pruneConfirmed sender (stateNonce sender)
  let (freedBig, big) := lanes.big.pruneConfirmed sender (stateNonce sender)
  { lanes with
    small := small
    big := big
    memoryUsed := lanes.memoryUsed - (freedSmall + freedBig) }

def notifyBlockCommitted (lanes : EvmLanes) (stateNonce : Address → Nat)
    (senders : List Address) : EvmLanes :=
  senders.foldl (pruneSender stateNonce) lanes

def pruneCommittedTxs (lanes : EvmLanes) (executedHeight : U64) (stateNonce : Address → Nat) :
    EvmLanes :=
  let senders := (lanes.small.allSenders ++ lanes.big.allSenders ++ lanes.committedNext.keys ++
    lanes.drained.entries.map fun row => row.2.1).dedup
  let lanes := senders.foldl (pruneSender stateNonce) lanes
  { lanes with
    committedNext := retain lanes.committedNext fun row =>
      executedHeight < row.2.2 && stateNonce row.1 < row.2.1
    drained := retain lanes.drained fun row => stateNonce row.2.1 ≤ row.2.2 }

end EvmLanes

inductive LaneCall where
  | addEvmTx (ingress : Ingress) (raw : List Byte)
  | reinsertEvm (ingress : Ingress) (raws : List (List Byte))
  | drainEvm (gasLimit baseFee : U64) (parentHash : B256) (inFlight : B256 → Bool)
  | drainEvmBig (gasLimit : U64) (byteBudget : Nat) (bigBaseFee : U64) (parentHash : B256)
      (inFlight : B256 → Bool)
  | removeCommittedEvm (height : U64) (raws : List (List Byte))
  | notifyBlockCommitted (stateNonce : Address → Nat) (senders : List Address)
  | pruneCommittedTxs (executedHeight : U64) (stateNonce : Address → Nat)
  | setBaseFee (baseFee : U64)
  | setEvmGasLimit (gasLimit : U64)
  | setBigLane (ingress : Ingress) (interval gasLimit baseFee : U64)

def EvmLanes.step (evm : EvmLibrary) (keccak : List Byte → B256) (ties : List DrainEntry → Nat)
    (lanes : EvmLanes) : LaneCall → EvmLanes
  | .addEvmTx ingress raw =>
    match lanes.admitEvmTx evm ingress raw false with
    | .ok after => after
    | .error _ => lanes
  | .reinsertEvm ingress raws => lanes.reinsertEvm evm ingress raws
  | .drainEvm gasLimit baseFee parentHash inFlight =>
    (lanes.drainEvm keccak ties gasLimit baseFee parentHash inFlight).2
  | .drainEvmBig gasLimit byteBudget bigBaseFee parentHash inFlight =>
    (lanes.drainEvmBig keccak ties gasLimit byteBudget bigBaseFee parentHash inFlight).2
  | .removeCommittedEvm height raws => lanes.removeCommittedEvm evm height raws
  | .notifyBlockCommitted stateNonce senders => lanes.notifyBlockCommitted stateNonce senders
  | .pruneCommittedTxs executedHeight stateNonce =>
    lanes.pruneCommittedTxs executedHeight stateNonce
  | .setBaseFee baseFee => lanes.setBaseFee baseFee
  | .setEvmGasLimit gasLimit => lanes.setEvmGasLimit gasLimit
  | .setBigLane ingress interval gasLimit baseFee =>
    lanes.setBigLane evm ingress interval gasLimit baseFee

def EvmLanes.run (evm : EvmLibrary) (keccak : List Byte → B256) (ties : List DrainEntry → Nat)
    (lanes : EvmLanes) (calls : List LaneCall) : EvmLanes :=
  calls.foldl (EvmLanes.step evm keccak ties) lanes

end TorusHyperBft.Mempool
