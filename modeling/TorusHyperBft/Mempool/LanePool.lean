import TorusHyperBft.Mempool.Admission
import TorusHyperBft.State.Ordered

namespace TorusHyperBft.Mempool

open Signing (Address)

/-! One EVM lane with its indexes: the queues of the senders, and beside them the hashes, the
eviction order at the lane's base fee and the size, each kept up to date by hand. -/

structure TxPriority where
  tip : Int
  maxFeePerGas : Nat
  hash : B256
deriving DecidableEq

namespace TxPriority

def new (entry : EvmPoolEntry) (baseFee : Nat) : TxPriority where
  tip := effectiveTip entry.maxFeePerGas entry.maxPriorityFee baseFee
  maxFeePerGas := entry.maxFeePerGas
  hash := entry.hash

def rank (key : TxPriority) : Int ×ₗ Nat ×ₗ Nat :=
  toLex (key.tip, toLex (key.maxFeePerGas, 2 ^ 256 - 1 - key.hash.toNat))

end TxPriority

abbrev SenderTxs := OrderedMap Nat EvmPoolEntry

structure LanePool where
  bySender : AList fun _ : Address => SenderTxs := ∅
  byHash : AList fun _ : B256 => Address × Nat := ∅
  byPrice : List TxPriority := []
  size : Nat := 0
  baseFee : Nat

namespace LanePool

def new (baseFee : U64) : LanePool := { baseFee := baseFee.val }

def all (pool : LanePool) : List EvmPoolEntry :=
  pool.bySender.entries.flatMap fun row => row.2.entries.map Prod.snd

def setBaseFee (pool : LanePool) (baseFee : U64) : LanePool :=
  if baseFee.val = pool.baseFee then pool
  else
    { pool with
      baseFee := baseFee.val
      byPrice := (pool.all.map fun entry => TxPriority.new entry baseFee.val).dedup }

def contains (pool : LanePool) (hash : B256) : Bool := (pool.byHash.lookup hash).isSome

def allSenders (pool : LanePool) : List Address := pool.bySender.keys

def hasSender (pool : LanePool) (sender : Address) : Bool := (pool.bySender.lookup sender).isSome

def takeAll (pool : LanePool) : List (List Byte) × LanePool :=
  (pool.all.map EvmPoolEntry.rawRlp,
    { pool with bySender := ∅, byHash := ∅, byPrice := [], size := 0 })

def queue (pool : LanePool) (sender : Address) (nonce : Nat) : Option EvmPoolEntry :=
  (pool.bySender.lookup sender).bind fun txs => txs.lookup nonce

/-- The queues without the sender's transaction at a nonce; a queue that runs empty goes. -/
def withoutTx (pool : LanePool) (sender : Address) (txs : SenderTxs) (nonce : Nat) :
    AList fun _ : Address => SenderTxs :=
  if (txs.erase nonce).entries.isEmpty then pool.bySender.erase sender
  else pool.bySender.insert sender (txs.erase nonce)

def removeByHash (pool : LanePool) (hash : B256) : Option EvmPoolEntry × LanePool :=
  match pool.byHash.lookup hash with
  | none => (none, pool)
  | some (sender, nonce) =>
    let pool := { pool with byHash := pool.byHash.erase hash }
    match pool.bySender.lookup sender with
    | none => (none, pool)
    | some txs =>
      match txs.lookup nonce with
      | none => (none, pool)
      | some entry =>
        (some entry,
          { pool with
            bySender := pool.withoutTx sender txs nonce
            byPrice := pool.byPrice.erase (.new entry pool.baseFee)
            size := pool.size - 1 })

/-- Tips compare as the integers they are, also where a finer structure on them is known. -/
local instance tipOrder : Preorder Int := Int.instLinearOrder.toPartialOrder.toPreorder

def lowest (pool : LanePool) : Option TxPriority := pool.byPrice.argmin TxPriority.rank

def insertAll (pool : LanePool) (entry : EvmPoolEntry) : LanePool where
  bySender :=
    pool.bySender.insert entry.sender
      (((pool.bySender.lookup entry.sender).getD {}).insert entry.nonce entry)
  byHash := pool.byHash.insert entry.hash (entry.sender, entry.nonce)
  byPrice := pool.byPrice.insert (.new entry pool.baseFee)
  size := pool.size + 1
  baseFee := pool.baseFee

/-- The transaction that is about to be replaced leaves all indexes but the queue. -/
def unindex (pool : LanePool) (existing : EvmPoolEntry) : LanePool :=
  { pool with
    byPrice := pool.byPrice.erase (.new existing pool.baseFee)
    byHash := pool.byHash.erase existing.hash
    size := pool.size - 1 }

def evictionKey (pool other : LanePool) : Option (TxPriority × Bool) :=
  match pool.lowest, other.lowest with
  | some own, some theirs =>
    if theirs.rank < own.rank then some (theirs, true) else some (own, false)
  | some own, none => some (own, false)
  | none, some theirs => some (theirs, true)
  | none, none => none

def lengthOf (entry : Option EvmPoolEntry) : Nat := entry.elim 0 fun entry => entry.rawRlp.length

structure Inserted where
  pool : LanePool
  other : LanePool
  replaced : Option B256 := none
  freedBytes : Nat := 0

/-- At the shared cap the new transaction must outbid the cheapest of both lanes. -/
def insertSharing (limits : PoolLimits) (pool other : LanePool) (entry : EvmPoolEntry) :
    Except MempoolError Inserted :=
  if pool.contains entry.hash then .error (.duplicateTx entry.hash)
  else
    match pool.queue entry.sender entry.nonce with
    | some existing =>
      let needMaxFee := bumped existing.maxFeePerGas limits.replacementBumpPct
      let needPriorityFee := bumped existing.maxPriorityFee limits.replacementBumpPct
      if entry.maxFeePerGas < needMaxFee ∨ entry.maxPriorityFee < needPriorityFee then
        .error (.replacementUnderpriced needMaxFee entry.maxFeePerGas needPriorityFee
          entry.maxPriorityFee)
      else
        .ok
          { pool := (pool.unindex existing).insertAll entry
            other := other
            replaced := some existing.hash
            freedBytes := existing.rawRlp.length }
    | none =>
      if (pool.bySender.lookup entry.sender).any fun txs =>
          limits.maxPerSender ≤ txs.entries.length then .error .poolFull
      else if pool.size + other.size < limits.maxPoolSize then
        .ok { pool := pool.insertAll entry, other := other }
      else
        match evictionKey pool other with
        | none => .error .poolFull
        | some (lowest, inOther) =>
          if (TxPriority.new entry pool.baseFee).tip ≤ lowest.tip then .error .poolFull
          else if inOther then
            let (evicted, other) := other.removeByHash lowest.hash
            .ok
              { pool := pool.insertAll entry
                other := other
                freedBytes := lengthOf evicted }
          else
            let (evicted, pool) := pool.removeByHash lowest.hash
            .ok
              { pool := pool.insertAll entry
                other := other
                freedBytes := lengthOf evicted }

/-- The sender's highest pooled nonce, when it has to make room for a lower one that returns. -/
def makesRoom (limits : PoolLimits) (pool other : LanePool) (entry : EvmPoolEntry) :
    Option EvmPoolEntry :=
  let duplicate := pool.contains entry.hash
  let poolFull := limits.maxPoolSize ≤ pool.size + other.size
  (pool.bySender.lookup entry.sender).bind fun txs =>
    if !duplicate && (poolFull || limits.maxPerSender ≤ txs.entries.length) &&
        (txs.lookup entry.nonce).isNone then
      (txs.entries.getLast?.filter fun top => entry.nonce < top.1).map Prod.snd
    else none

def reinsertSharing (limits : PoolLimits) (pool other : LanePool) (entry : EvmPoolEntry) :
    Except MempoolError Inserted :=
  match makesRoom limits pool other entry with
  | none => insertSharing limits pool other entry
  | some top =>
    let (evicted, pool) := pool.removeByHash top.hash
    (insertSharing limits pool other entry).map fun inserted =>
      { inserted with freedBytes := lengthOf evicted + inserted.freedBytes }

def removeNext (freed : Nat × LanePool) (hash : B256) : Nat × LanePool :=
  let (removed, pool) := freed.2.removeByHash hash
  (freed.1 + lengthOf removed, pool)

def removeHashes (pool : LanePool) (hashes : List B256) : Nat × LanePool :=
  hashes.foldl removeNext (0, pool)

def evictGasAbove (pool : LanePool) (maxGas : U64) : Nat × LanePool :=
  pool.removeHashes ((pool.all.filter fun entry => maxGas < entry.gasLimit).map EvmPoolEntry.hash)

/-- One transaction below the sender's confirmed nonce; its queue stays, even if it is empty. -/
def pruneTx (pool : LanePool) (sender : Address) (nonce : Nat) : Nat × LanePool :=
  match pool.bySender.lookup sender with
  | none => (0, pool)
  | some txs =>
    match txs.lookup nonce with
    | none => (0, pool)
    | some entry =>
      (entry.rawRlp.length,
        { pool with
          bySender := pool.bySender.insert sender (txs.erase nonce)
          byHash := pool.byHash.erase entry.hash
          byPrice := pool.byPrice.erase (.new entry pool.baseFee)
          size := pool.size - 1 })

def pruneNext (sender : Address) (freed : Nat × LanePool) (nonce : Nat) : Nat × LanePool :=
  let (bytes, pool) := freed.2.pruneTx sender nonce
  (freed.1 + bytes, pool)

def dropEmpty (pool : LanePool) (sender : Address) : LanePool :=
  if (pool.bySender.lookup sender).all fun txs => txs.entries.isEmpty then
    { pool with bySender := pool.bySender.erase sender }
  else pool

def pruneConfirmed (pool : LanePool) (sender : Address) (confirmedNonce : Nat) : Nat × LanePool :=
  match pool.bySender.lookup sender with
  | none => (0, pool)
  | some txs =>
    let stale := (txs.entries.filter fun row => row.1 < confirmedNonce).map Prod.fst
    let (freed, pool) := stale.foldl (pruneNext sender) (0, pool)
    (freed, pool.dropEmpty sender)

/-- The queues as the drain walks them, one transaction for each sender and nonce. -/
def view (pool : LanePool) : EvmPool where
  entries := pool.all.pwFilter fun left right =>
    (left.sender, left.nonce) ≠ (right.sender, right.nonce)
  baseFee := pool.baseFee
  distinct := by
    rw [List.Nodup, List.pairwise_map]
    exact List.pairwise_pwFilter _

def drain (keccak : List Byte → B256) (ties : List DrainEntry → Nat) (pool : LanePool)
    (request : DrainRequest) : List EvmPoolEntry × LanePool :=
  let selected := selection keccak ties pool.view request
  (selected, (pool.removeHashes (selected.map EvmPoolEntry.hash)).2)

end LanePool

end TorusHyperBft.Mempool
