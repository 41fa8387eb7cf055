import TorusHyperBft.Signing.Action

namespace TorusHyperBft.Mempool

open Signing (Address)

/-! The pooled EVM transactions of one lane, and the drain that fills a proposal from them. -/

abbrev B256 := BitVec 256

/-- Fees are 128-bit numbers; nonces and sizes do not come near their widths. -/
structure EvmPoolEntry where
  hash : B256
  sender : Address
  nonce : Nat
  maxFeePerGas : Nat
  maxPriorityFee : Nat
  gasLimit : U64
  rawRlp : List Byte
deriving DecidableEq

def effectiveTip (maxFee maxPriorityFee baseFee : Nat) : Int :=
  let cap := fun value : Nat => (min value (2 ^ 127 - 1) : Nat)
  min (cap maxPriorityFee : Int) ((cap maxFee : Int) - cap baseFee)

/-- One lane: its transactions, at most one of a sender's for each nonce. -/
structure EvmPool where
  entries : List EvmPoolEntry
  baseFee : Nat
  distinct : (entries.map fun entry => (entry.sender, entry.nonce)).Nodup

namespace EvmPool

def get (pool : EvmPool) (sender : Address) (nonce : Nat) : Option EvmPoolEntry :=
  pool.entries.find? fun entry => entry.sender = sender ∧ entry.nonce = nonce

def senderTxs (pool : EvmPool) (sender : Address) : List EvmPoolEntry :=
  pool.entries.filter fun entry => entry.sender = sender

def keep (pool : EvmPool) (test : EvmPoolEntry → Bool) : EvmPool where
  entries := pool.entries.filter test
  baseFee := pool.baseFee
  distinct := pool.distinct.sublist (List.filter_sublist.map _)

theorem get_mem {pool : EvmPool} {sender : Address} {nonce : Nat} {entry : EvmPoolEntry}
    (found : pool.get sender nonce = some entry) :
    entry ∈ pool.entries ∧ entry.sender = sender ∧ entry.nonce = nonce := by
  have member := List.mem_of_find?_eq_some found
  have is := List.find?_some found
  simp only [decide_eq_true_eq] at is
  exact ⟨member, is⟩

end EvmPool

structure DrainEntry where
  tip : Int
  sender : Address
  nonce : Nat
  gasLimit : U64
  shuffleKey : U64
deriving DecidableEq

def DrainEntry.rank (entry : DrainEntry) : Int ×ₗ U64 := toLex (entry.tip, entry.shuffleKey)

/-- How one drain is asked for: its two budgets, the share of one sender, the floor and what
the blocks the proposal extends already carry. -/
structure DrainRequest where
  gasBudget : U64
  byteBudget : Nat
  senderGasCap : Option U64
  parentHash : B256
  minBaseFee : Nat
  inFlight : B256 → Bool

section Drain

-- `ties` is the order in which the heap yields entries that compare equal.
variable (keccak : List Byte → B256) (ties : List DrainEntry → Nat)

def computeShuffleKey (parentHash : B256) (sender : Address) (nonce : Nat) : U64 :=
  let hash := keccak (toBytes 32 parentHash.toNat ++ toBytes 20 sender.toNat ++ toBytes 8 nonce)
  Fin.ofNat (2 ^ 64) (fromBytes ((toBytes 32 hash.toNat).take 8))

def DrainEntry.new (entry : EvmPoolEntry) (request : DrainRequest) : DrainEntry where
  tip := effectiveTip entry.maxFeePerGas entry.maxPriorityFee request.minBaseFee
  sender := entry.sender
  nonce := entry.nonce
  gasLimit := entry.gasLimit
  shuffleKey := computeShuffleKey keccak request.parentHash entry.sender entry.nonce

/-- The sender's next transaction from `nonce` on that is not in flight. The walk visits each
pooled nonce once at most. -/
def candidateFrom (pool : EvmPool) (request : DrainRequest) (sender : Address) :
    Nat → Nat → Option DrainEntry
  | 0, _ => none
  | fuel + 1, nonce =>
    match pool.get sender nonce with
    | none => none
    | some entry =>
      if request.inFlight entry.hash then candidateFrom pool request sender fuel (nonce + 1)
      else some (DrainEntry.new keccak entry request)

def candidate (pool : EvmPool) (request : DrainRequest) (sender : Address) (nonce : Nat) :
    Option DrainEntry :=
  candidateFrom keccak pool request sender (pool.entries.length + 1) nonce

def initialHeap (pool : EvmPool) (request : DrainRequest) : List DrainEntry :=
  (pool.entries.map EvmPoolEntry.sender).dedup.filterMap fun sender =>
    ((pool.senderTxs sender).argmin EvmPoolEntry.nonce).bind fun entry =>
      candidate keccak pool request sender entry.nonce

def heapPop (heap : List DrainEntry) : Option (DrainEntry × List DrainEntry) :=
  let greatest := heap.filter fun entry => heap.all fun other => other.rank ≤ entry.rank
  greatest[ties greatest % greatest.length]?.map fun top => (top, heap.erase top)

structure DrainState where
  heap : List DrainEntry
  selected : List EvmPoolEntry := []
  gasUsed : U64 := 0
  bytesUsed : Nat := 0
  senderGas : Address → U64 := fun _ => 0

/-- One entry taken off the heap: over a cap it is passed over and its sender's later nonces
stay pooled with it. -/
def visit (pool : EvmPool) (request : DrainRequest) (state : DrainState) (top : DrainEntry) :
    DrainState :=
  let used := state.senderGas top.sender
  if request.senderGasCap.any fun cap => used ≠ 0 && cap < used.saturatingAdd top.gasLimit then state
  else if request.gasBudget < state.gasUsed.saturatingAdd top.gasLimit then state
  else
    match pool.get top.sender top.nonce with
    | none => state
    | some entry =>
      if request.byteBudget < state.bytesUsed + entry.rawRlp.length then state
      else
        { heap := state.heap ++ (candidate keccak pool request top.sender (top.nonce + 1)).toList
          selected := state.selected ++ [entry]
          gasUsed := state.gasUsed + top.gasLimit
          bytesUsed := state.bytesUsed + entry.rawRlp.length
          senderGas := Function.update state.senderGas top.sender (used + top.gasLimit) }

def drainLoop (pool : EvmPool) (request : DrainRequest) : Nat → DrainState → DrainState
  | 0, state => state
  | fuel + 1, state =>
    match heapPop ties state.heap with
    | none => state
    | some (top, heap) =>
      if top.tip < 0 then state
      else drainLoop pool request fuel (visit keccak pool request { state with heap := heap } top)

def selection (pool : EvmPool) (request : DrainRequest) : List EvmPoolEntry :=
  (drainLoop keccak ties pool request pool.entries.length
    { heap := initialHeap keccak pool request }).selected

def drain (pool : EvmPool) (request : DrainRequest) : List (List Byte) × EvmPool :=
  let selected := selection keccak ties pool request
  (selected.map EvmPoolEntry.rawRlp,
    pool.keep fun entry => entry.hash ∉ selected.map EvmPoolEntry.hash)

def recordDrained (drained : B256 → Option (Address × Nat)) (selected : List EvmPoolEntry) :
    B256 → Option (Address × Nat) :=
  selected.foldl (fun drained entry =>
    Function.update drained entry.hash (some (entry.sender, entry.nonce))) drained

def drainRecording (pool : EvmPool) (request : DrainRequest)
    (drained : B256 → Option (Address × Nat)) :
    List (List Byte) × EvmPool × (B256 → Option (Address × Nat)) :=
  let (raws, rest) := drain keccak ties pool request
  (raws, rest, recordDrained drained (selection keccak ties pool request))

end Drain

end TorusHyperBft.Mempool
