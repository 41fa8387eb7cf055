import TorusHyperBft.State.NonceWindow
import TorusHyperBft.Mempool.EvmPool

namespace TorusHyperBft.Mempool

open List
open Signing (Address NativeAction SignedNativeAction)

/-! The pooled native actions, and the walk that selects a block's actions from them. -/

def nativePoolMaxSize : Nat := 65536

inductive PriorityClass where
  | cancel
  | oracle
  | normal
deriving DecidableEq

def isCancel : NativeAction → Bool
  | .cancelOrder _ | .cancelAllOrders _ | .cancelByCloid _ _ => true
  | _ => false

def isOracleSubmission : NativeAction → Bool
  | .submitOraclePrices _ => true
  | _ => false

def priorityClass (action : NativeAction) : PriorityClass :=
  if isCancel action then .cancel else if isOracleSubmission action then .oracle else .normal

def orderCount : NativeAction → Nat
  | .placeOrderBatch orders => orders.length
  | _ => 1

/-- `seq` counts insertions and `encodedLen` is the size of the action in a block body. -/
structure NativePoolEntry where
  sender : Address
  action : SignedNativeAction
  actionHash : B256
  encodedLen : Nat
  seq : Nat

namespace NativePoolEntry

def priority (entry : NativePoolEntry) : PriorityClass := priorityClass entry.action.action

def nonce (entry : NativePoolEntry) : Nat := entry.action.nonce.toNat

def sortKey (entry : NativePoolEntry) : Nat ×ₗ Nat ×ₗ Nat ×ₗ Nat :=
  toLex (entry.priority.ctorIdx, toLex (entry.sender.toNat, toLex (entry.nonce, entry.seq)))

end NativePoolEntry

/-- The entries in selection order; insertion refuses to grow the pool past its size. -/
structure NativePool where
  entries : List NativePoolEntry
  maxPerBlock : Nat
  cancelSharePct : Nat
  sorted : entries.Pairwise fun first second => first.sortKey < second.sortKey
  bounded : entries.length ≤ nativePoolMaxSize

namespace NativePool

def evictExpired (pool : NativePool) (nowMs : Nat) : NativePool :=
  if nowMs < State.nonceWindowMs.val then pool
  else
    { pool with
      entries := pool.entries.filter fun entry => nowMs - State.nonceWindowMs.val ≤ entry.nonce
      sorted := pool.sorted.filter _
      bounded := le_trans (length_filter_le _ _) pool.bounded }

end NativePool

structure SelectionLimits where
  limit : Nat
  exclude : B256 → Bool
  bytesCap : Nat
  ordersCap : Nat
  maxPerBlock : Nat

structure SelectionWalk where
  selected : List NativePoolEntry := []
  bytesUsed : Nat := 0
  ordersUsed : Nat := 0
  blockCounts : Address → Nat := fun _ => 0

inductive Offer where
  | taken
  | skipped
  | stop
deriving DecidableEq

/-- An action in flight neither charges nor trips a budget; the first one over a budget ends the
selection. -/
def SelectionWalk.offer (walk : SelectionWalk) (limits : SelectionLimits) (entry : NativePoolEntry) :
    Offer × SelectionWalk :=
  if limits.exclude entry.actionHash then (.skipped, walk)
  else if limits.bytesCap < walk.bytesUsed + entry.encodedLen then (.stop, walk)
  else if limits.ordersCap < walk.ordersUsed + orderCount entry.action.action then (.stop, walk)
  else if limits.maxPerBlock ≤ walk.blockCounts entry.sender then (.skipped, walk)
  else
    (.taken,
      { selected := walk.selected ++ [entry]
        bytesUsed := walk.bytesUsed + entry.encodedLen
        ordersUsed := walk.ordersUsed + orderCount entry.action.action
        blockCounts := Function.update walk.blockCounts entry.sender
          (walk.blockCounts entry.sender + 1) })

def SelectionWalk.senderFull (walk : SelectionWalk) (limits : SelectionLimits) (sender : Address) :
    Bool :=
  limits.maxPerBlock ≤ walk.blockCounts sender

def oldestHead (waiting : List NativePoolEntry) : Option NativePoolEntry :=
  (waiting.filter fun entry =>
    ((waiting.find? fun other => other.sender = entry.sender).map NativePoolEntry.seq) =
      some entry.seq).argmin NativePoolEntry.seq

/-- The cancels still waiting after one is offered: the queue of a sender at its cap is dropped. -/
def advance (waiting : List NativePoolEntry) (entry : NativePoolEntry) (senderFull : Bool) :
    List NativePoolEntry :=
  waiting.filter fun other =>
    ¬ (other.sender = entry.sender ∧ (senderFull ∨ other.seq = entry.seq))

/-- What a walk over the cancels leaves: whether it may go on, the walk and the cancels still
waiting. -/
def takeCancels (limits : SelectionLimits) (until_ : Nat) :
    Nat → SelectionWalk → List NativePoolEntry → Bool × SelectionWalk × List NativePoolEntry
  | 0, walk, waiting => (true, walk, waiting)
  | fuel + 1, walk, waiting =>
    if walk.selected.length < until_ then
      match oldestHead waiting with
      | none => (true, walk, waiting)
      | some entry =>
        let offered := walk.offer limits entry
        if offered.1 = .stop then (false, walk, waiting)
        else
          takeCancels limits until_ fuel offered.2
            (advance waiting entry (offered.2.senderFull limits entry.sender))
    else (true, walk, waiting)

def takeOthers (limits : SelectionLimits) :
    SelectionWalk → List NativePoolEntry → Bool × SelectionWalk
  | walk, [] => (true, walk)
  | walk, entry :: rest =>
    if limits.limit ≤ walk.selected.length then (false, walk)
    else
      let offered := walk.offer limits entry
      if offered.1 = .stop then (false, walk) else takeOthers limits offered.2 rest

namespace NativePool

def cancels (pool : NativePool) : List NativePoolEntry :=
  pool.entries.filter fun entry => entry.priority = .cancel

/-- The entries of the second phase; without the normal ones in the deepest pacing tier. -/
def others (pool : NativePool) (priorityOnly : Bool) : List NativePoolEntry :=
  pool.entries.filter fun entry =>
    entry.priority ≠ .cancel ∧ ¬ (priorityOnly ∧ entry.priority = .normal)

end NativePool

/-- A bounded share of cancels first, then the others, then the cancels that are left. -/
def selectPhases (limits : SelectionLimits) (cancelCap : Nat)
    (cancels others : List NativePoolEntry) : List NativePoolEntry :=
  let first := takeCancels limits cancelCap cancels.length {} cancels
  if !first.1 then first.2.1.selected
  else
    let second := takeOthers limits first.2.1 others
    if !second.1 then second.2.selected
    else (takeCancels limits limits.limit first.2.2.length second.2 first.2.2).2.1.selected

def NativePool.selectEntriesBefore (pool : NativePool) (limit : Nat) (exclude : B256 → Bool)
    (bytesCap ordersCap : Nat) (priorityOnly : Bool) : List NativePoolEntry :=
  if pool.maxPerBlock = 0 then []
  else
    selectPhases
      { limit := limit
        exclude := exclude
        bytesCap := bytesCap
        ordersCap := ordersCap
        maxPerBlock := pool.maxPerBlock }
      (min ((limit * pool.cancelSharePct + 99) / 100) limit) pool.cancels (pool.others priorityOnly)

theorem offer_length (walk : SelectionWalk) (limits : SelectionLimits) (entry : NativePoolEntry) :
    (walk.offer limits entry).2.selected.length ≤ walk.selected.length + 1 := by
  simp only [SelectionWalk.offer]
  split
  · exact Nat.le_succ _
  · split
    · exact Nat.le_succ _
    · split
      · exact Nat.le_succ _
      · split
        · exact Nat.le_succ _
        · simp

theorem oldestHead_mem {waiting : List NativePoolEntry} {entry : NativePoolEntry}
    (oldest : oldestHead waiting = some entry) : entry ∈ waiting :=
  (mem_filter.mp (argmin_mem oldest)).1

theorem advance_length {waiting : List NativePoolEntry} {entry : NativePoolEntry}
    (member : entry ∈ waiting) (senderFull : Bool) :
    (advance waiting entry senderFull).length < waiting.length := by
  apply length_filter_lt_length_iff_exists.mpr
  exact ⟨entry, member, by simp⟩

theorem takeCancels_length (limits : SelectionLimits) (until_ : Nat) {fuel : Nat}
    {walk : SelectionWalk} {waiting : List NativePoolEntry} :
    (takeCancels limits until_ fuel walk waiting).2.1.selected.length +
        (takeCancels limits until_ fuel walk waiting).2.2.length ≤
      walk.selected.length + waiting.length := by
  induction fuel generalizing walk waiting with
  | zero => exact le_refl _
  | succ fuel ih =>
    rw [takeCancels]
    split
    · cases oldest : oldestHead waiting with
      | none => exact le_refl _
      | some entry =>
        have member := oldestHead_mem oldest
        have grown := offer_length walk limits entry
        dsimp only
        split
        · exact le_refl _
        · refine le_trans ih ?_
          have fewer := advance_length member
            ((walk.offer limits entry).2.senderFull limits entry.sender)
          omega
    · exact le_refl _

theorem takeOthers_length (limits : SelectionLimits) {walk : SelectionWalk}
    {entries : List NativePoolEntry} :
    (takeOthers limits walk entries).2.selected.length ≤ walk.selected.length + entries.length := by
  induction entries generalizing walk with
  | nil => exact le_refl _
  | cons entry entries ih =>
    have grown := offer_length walk limits entry
    rw [takeOthers, length_cons]
    split
    · exact Nat.le_add_right _ _
    · dsimp only
      split
      · exact Nat.le_add_right _ _
      · have rest := @ih (walk.offer limits entry).2
        omega

theorem selectPhases_length (limits : SelectionLimits) (cancelCap : Nat)
    (cancels others : List NativePoolEntry) :
    (selectPhases limits cancelCap cancels others).length ≤ cancels.length + others.length := by
  have first := @takeCancels_length limits cancelCap cancels.length {} cancels
  simp only [length_nil, Nat.zero_add] at first
  simp only [selectPhases]
  generalize takeCancels limits cancelCap cancels.length {} cancels = taken at first ⊢
  have second := @takeOthers_length limits taken.2.1 others
  split
  · omega
  · split
    · omega
    · have third := @takeCancels_length limits limits.limit taken.2.2.length
        (takeOthers limits taken.2.1 others).2 taken.2.2
      omega

namespace NativePool

theorem cancels_others_length (pool : NativePool) (priorityOnly : Bool) :
    pool.cancels.length + (pool.others priorityOnly).length ≤ pool.entries.length := by
  have split := length_eq_countP_add_countP
    (fun entry : NativePoolEntry => decide (entry.priority = .cancel)) (l := pool.entries)
  have fewer : (pool.others priorityOnly).length ≤
      pool.entries.countP fun entry => ¬ decide (entry.priority = .cancel) = true := by
    rw [others, ← countP_eq_length_filter]
    apply countP_mono_left
    intro entry _ counted
    simp only [ne_eq, decide_eq_true_eq] at counted ⊢
    simp [counted.1]
  rw [cancels, ← countP_eq_length_filter]
  omega

theorem selectEntriesBefore_length (pool : NativePool) (limit : Nat) (exclude : B256 → Bool)
    (bytesCap ordersCap : Nat) (priorityOnly : Bool) :
    (pool.selectEntriesBefore limit exclude bytesCap ordersCap priorityOnly).length ≤
      nativePoolMaxSize := by
  unfold selectEntriesBefore
  split
  · simp
  · exact le_trans (selectPhases_length _ _ _ _)
      (le_trans (pool.cancels_others_length priorityOnly) pool.bounded)

end NativePool

end TorusHyperBft.Mempool
