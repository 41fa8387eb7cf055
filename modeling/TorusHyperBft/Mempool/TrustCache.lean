import TorusHyperBft.Mempool.NativePool
import TorusHyperBft.Mempool.VerifiedCache
import TorusHyperBft.Signing.BatchVerify

namespace TorusHyperBft.Mempool

open Signing List

/-! The native pool of one node as the sender trust cache sees it: which calls fill the cache, with
which senders, and what a block body's batch verification then reads from it. -/

/-- `restashKey` is the cache key of an action whose sender this node has found itself. -/
structure VerifiedEntry extends NativePoolEntry where
  restashKey : Option B256

/-- The entries in the order they came; `seen`, `hash_index` and the counts are what they say. -/
structure NativeMempool where
  entries : List VerifiedEntry := []
  nextSeq : Nat := 0
  verifiedSenders : FifoCache B256 Address

/-- What a node is: its scheme and chain, its limits, and the size of an action in a body. -/
structure NativeNode where
  scheme : BatchScheme
  keccak : List Byte → Word
  process : Process keccak
  chainId : BitVec 64
  maxSize : Nat
  maxPerSender : Nat
  encodedLen : SignedNativeAction → Nat

/-- What the state says of a sender when a call checks it. -/
structure SenderChecks where
  funded : Bool
  oracleReporter : Option (List Address)

inductive NativeMempoolError where
  | nativeValidationFailed
  | unfundedSender
  | duplicateNativeAction
  | nativeSenderQueueFull
  | nativePoolFull
deriving DecidableEq

def oraclePendingPerValidator : Nat := 4

def nativeOrdersPerBatchCap : Nat := 1024

def validateBatchSize : NativeAction → Bool
  | .placeOrderBatch orders => 1 ≤ orders.length ∧ orders.length ≤ nativeOrdersPerBatchCap
  | _ => true

def nonceFresh (signed : SignedNativeAction) (nowMs : U64) : Bool :=
  (State.checkNonceWindow signed.nonce.toFin nowMs).isOk

def lastEntry (entries : List VerifiedEntry) : Option VerifiedEntry :=
  entries.find? fun entry => entries.all fun other => decide (other.sortKey ≤ entry.sortKey)

/-- What a price submission pushes out of a full pool: the last entry if it is a normal one, else
the last cancel. -/
def evictable (entries : List VerifiedEntry) : Option VerifiedEntry :=
  ((lastEntry entries).filter fun entry => entry.priority = .normal).or
    (lastEntry (entries.filter fun entry => entry.priority = .cancel))

namespace NativeMempool

def contains (keccak : List Byte → Word) (pool : NativeMempool) (sender : Address)
    (signed : SignedNativeAction) : Bool :=
  pool.entries.any fun entry =>
    entry.sender = sender ∧ entry.actionHash = computeActionHash keccak signed

def removeSeq (pool : NativeMempool) (seq : Nat) : NativeMempool :=
  { pool with entries := pool.entries.filter fun entry => entry.seq ≠ seq }

def oraclesOf (pool : NativeMempool) (accounts : List Address) : List VerifiedEntry :=
  accounts.flatMap fun account => pool.entries.filter fun entry =>
    entry.priority = .oracle ∧ entry.sender = account

def evictOldestOracleOlderThan (pool : NativeMempool) (accounts : List Address) (nonce : Nat) :
    Option NativeMempool :=
  let pending := pool.oraclesOf accounts
  let oldest := pending.find? fun entry => pending.all fun other =>
    entry.nonce < other.nonce ∨ entry.nonce = other.nonce ∧ entry.seq ≤ other.seq
  match oldest with
  | some entry => if entry.nonce < nonce then some (pool.removeSeq entry.seq) else none
  | none => none

def cacheVerifiedSender (pool : NativeMempool) (key : B256) (sender : Address) : NativeMempool :=
  match pool.verifiedSenders.insert key sender with
  | some (cache, _) => { pool with verifiedSenders := cache }
  | none => pool

def verifiedRestashKeys (pool : NativeMempool) (hashes : List B256) : List (B256 × Address) :=
  hashes.filterMap fun hash =>
    (pool.entries.find? fun entry => entry.actionHash = hash).bind fun entry =>
      entry.restashKey.map fun key => (key, entry.sender)

/-- A commit refreshes the senders it is about to drop, then drops every entry with a committed
hash, whoever its sender is said to be. -/
def removeCommittedNative (pool : NativeMempool) (hashes : List B256) : NativeMempool :=
  let stashed := (pool.verifiedRestashKeys hashes).foldl
    (fun pool entry => pool.cacheVerifiedSender entry.1 entry.2) pool
  { stashed with entries := stashed.entries.filter fun entry => entry.actionHash ∉ hashes }

def evictExpired (pool : NativeMempool) (nowMs : Nat) : NativeMempool :=
  if nowMs < State.nonceWindowMs.val then pool
  else
    { pool with entries := pool.entries.filter fun entry =>
        nowMs - State.nonceWindowMs.val ≤ entry.nonce }

variable (node : NativeNode)

def insertWithRestashKey (pool : NativeMempool) (sender : Address) (signed : SignedNativeAction)
    (restashKey : Option B256) : Except NativeMempoolError NativeMempool :=
  let entry : VerifiedEntry :=
    { sender, action := signed, actionHash := computeActionHash node.keccak signed
      encodedLen := node.encodedLen signed, seq := pool.nextSeq, restashKey }
  let admitted := fun pool : NativeMempool =>
    { pool with entries := pool.entries ++ [entry], nextSeq := pool.nextSeq + 1 }
  if pool.contains node.keccak sender signed then .error .duplicateNativeAction
  else if node.maxPerSender ≤ pool.entries.countP fun entry => entry.sender = sender then
    .error .nativeSenderQueueFull
  else if pool.entries.length < node.maxSize then .ok (admitted pool)
  else if priorityClass signed.action ≠ .oracle then .error .nativePoolFull
  else
    match evictable pool.entries with
    | some victim => .ok (admitted (pool.removeSeq victim.seq))
    | none => .error .nativePoolFull

/-- The cache is filled only after the entry is in; an eviction stands even if the insert fails. -/
def submitNativeActionInner (pool : NativeMempool) (checks : SenderChecks) (sender : Address)
    (signed : SignedNativeAction)
    (cacheKey : Option B256) : Except NativeMempoolError Unit × NativeMempool :=
  let submit := fun pool : NativeMempool =>
    match pool.insertWithRestashKey node sender signed cacheKey with
    | .error reason => (.error reason, pool)
    | .ok pool => (.ok (), cacheKey.elim pool (pool.cacheVerifiedSender · sender))
  if checks.funded = false then (.error .unfundedSender, pool)
  else if isOracleSubmission signed.action = false then submit pool
  else
    match checks.oracleReporter with
    | none => (.error .nativeValidationFailed, pool)
    | some accounts =>
      if oraclePendingPerValidator ≤ (pool.oraclesOf accounts).length ∧
          pool.contains node.keccak sender signed = false then
        match pool.evictOldestOracleOlderThan accounts signed.nonce.toNat with
        | none => (.error .nativeValidationFailed, pool)
        | some pool => submit pool
      else submit pool

def admitGossip (pool : NativeMempool) (nowMs : U64) (checks : SenderChecks) (sender : Address)
    (signed : SignedNativeAction)
    (cacheKey : Option B256) : Except NativeMempoolError Unit × NativeMempool :=
  if validateBatchSize signed.action = false ∨ nonceFresh signed nowMs = false then
    (.error .nativeValidationFailed, pool)
  else pool.submitNativeActionInner node checks sender signed cacheKey

def gossipSender (pool : NativeMempool) (nowMs : U64) (sessions : Word → Option SessionData)
    (signed : SignedNativeAction) : Except Eip712Error Address :=
  match signed.signature with
  | .eip712 _ =>
    match (signed.verifiedCacheKey node.keccak).bind pool.verifiedSenders.get with
    | some sender => .ok sender
    | none => signed.recoverSender node.scheme node.process
  | .session _ _ => signed.resolveSender node.scheme node.process (BitVec.ofFin nowMs) sessions

end NativeMempool

/-- The calls of a mempool's life. What a drain takes is left open. -/
inductive NativeCall where
  | addNativeAction (nowMs : U64) (checks : SenderChecks) (signed : SignedNativeAction)
  | addNativeActionPresigned (nowMs : U64) (checks : SenderChecks) (sender : Address)
      (signed : SignedNativeAction)
  | submitNativeAction (checks : SenderChecks) (sender : Address) (signed : SignedNativeAction)
  | addNativeActionFromGossip (nowMs : U64) (sessions : Word → Option SessionData)
      (checks : SenderChecks) (claimedSender : Address) (signed : SignedNativeAction)
  | addNativeActionFromGossipTrusted (nowMs : U64) (checks : SenderChecks) (sender : Address)
      (signed : SignedNativeAction)
  | evictExpired (nowMs : U64)
  | removeCommittedNative (hashes : List B256)
  | drainNative (nowMs : U64) (taken : VerifiedEntry → Bool)
  | reinsertNative (actions : List SignedNativeAction)

def NativeMempool.step (node : NativeNode) (pool : NativeMempool) : NativeCall → NativeMempool
  | .addNativeAction nowMs checks signed =>
    if node.chainId ≠ node.process.chainId ∨ nonceFresh signed nowMs = false then pool
    else
      match signed.recoverSender node.scheme node.process with
      | .error _ => pool
      | .ok sender =>
        (pool.submitNativeActionInner node checks sender signed (signed.verifiedCacheKey node.keccak)).2
  | .addNativeActionPresigned nowMs checks sender signed =>
    if nonceFresh signed nowMs = false then pool
    else (pool.submitNativeActionInner node checks sender signed (signed.verifiedCacheKey node.keccak)).2
  | .submitNativeAction checks sender signed =>
    (pool.submitNativeActionInner node checks sender signed (signed.verifiedCacheKey node.keccak)).2
  | .addNativeActionFromGossip nowMs sessions checks claimedSender signed =>
    match pool.gossipSender node nowMs sessions signed with
    | .error _ => pool
    | .ok sender =>
      if sender ≠ claimedSender then pool
      else (pool.admitGossip node nowMs checks claimedSender signed (signed.verifiedCacheKey node.keccak)).2
  | .addNativeActionFromGossipTrusted nowMs checks sender signed =>
    (pool.admitGossip node nowMs checks sender signed none).2
  | .evictExpired nowMs => pool.evictExpired nowMs.val
  | .removeCommittedNative hashes => pool.removeCommittedNative hashes
  | .drainNative nowMs taken =>
    let pool := pool.evictExpired nowMs.val
    { pool with entries := pool.entries.filter fun entry => !taken entry }
  | .reinsertNative actions =>
    actions.foldl (fun pool signed =>
      match signed.recoverSender node.scheme node.process with
      | .error _ => pool
      | .ok sender =>
        match pool.insertWithRestashKey node sender signed none with
        | .error _ => pool
        | .ok pool => pool) pool

def NativeCall.actions : NativeCall → List SignedNativeAction
  | .addNativeAction _ _ signed | .addNativeActionPresigned _ _ _ signed
  | .submitNativeAction _ _ signed | .addNativeActionFromGossip _ _ _ _ signed => [signed]
  | _ => []

/-- A sender handed in by the caller was verified before. -/
def NativeCall.Honest (node : NativeNode) : NativeCall → Prop
  | .addNativeActionPresigned _ _ sender signed | .submitNativeAction _ sender signed =>
    ∃ time sessions, signed.resolveSender node.scheme node.process time sessions = .ok sender
  | _ => True

/-- One of the actions has this key and recovers to this sender. -/
def Vouched (node : NativeNode) (actions : List SignedNativeAction) (key : B256)
    (sender : Address) : Prop :=
  ∃ signed ∈ actions, signed.verifiedCacheKey node.keccak = some key ∧
    signed.recoverSender node.scheme node.process = .ok sender

/-- Every sender the pool remembers under a key is vouched for. -/
structure Trusted (vouched : B256 → Address → Prop) (pool : NativeMempool) : Prop where
  restash : ∀ entry ∈ pool.entries, ∀ key, entry.restashKey = some key → vouched key entry.sender
  cached : ∀ key sender, pool.verifiedSenders.get key = some sender → vouched key sender

namespace Trusted

variable {node : NativeNode} {vouched : B256 → Address → Prop} {pool : NativeMempool}
  {sender : Address} {signed : SignedNativeAction} {cacheKey : Option B256}

variable (trusted : Trusted vouched pool)
include trusted

theorem filter (keep : VerifiedEntry → Bool) :
    Trusted vouched { pool with entries := pool.entries.filter keep } :=
  ⟨fun entry member => trusted.restash entry (mem_of_mem_filter member), trusted.cached⟩

theorem cacheVerifiedSender {key : B256}
    (known : vouched key sender) : Trusted vouched (pool.cacheVerifiedSender key sender) := by
  unfold NativeMempool.cacheVerifiedSender
  cases inserted : pool.verifiedSenders.insert key sender with
  | none => exact trusted
  | some outcome =>
    refine ⟨trusted.restash, fun other found live => ?_⟩
    rcases FifoCache.get_insert inserted live with ⟨rfl, rfl⟩ | earlier
    · exact known
    · exact trusted.cached other found earlier

theorem evictExpired (nowMs : Nat) : Trusted vouched (pool.evictExpired nowMs) := by
  unfold NativeMempool.evictExpired
  split
  · exact trusted
  · exact trusted.filter _

theorem insertWithRestashKey
    (known : ∀ key, cacheKey = some key → vouched key sender) {after : NativeMempool}
    (inserted : pool.insertWithRestashKey node sender signed cacheKey = .ok after) :
    Trusted vouched after := by
  have admitted : ∀ {entries : List VerifiedEntry} (entry : VerifiedEntry) (nextSeq : Nat),
      entry.restashKey = cacheKey → entry.sender = sender →
      Trusted vouched { pool with entries } →
      Trusted vouched { pool with entries := entries ++ [entry], nextSeq } := by
    intro entries entry nextSeq keyed named trusted
    refine ⟨fun other member key has => ?_, trusted.cached⟩
    rcases mem_append.mp member with earlier | last
    · exact trusted.restash other earlier key has
    · rw [mem_singleton.mp last] at has ⊢
      rw [named]
      exact known key (keyed.symm.trans has)
  unfold NativeMempool.insertWithRestashKey at inserted
  dsimp only at inserted
  repeat' split at inserted
  all_goals cases inserted
  · exact admitted _ _ rfl rfl trusted
  · exact admitted _ _ rfl rfl (trusted.filter _)

theorem submitNativeActionInner (checks : SenderChecks)
    (known : ∀ key, cacheKey = some key → vouched key sender) :
    Trusted vouched (pool.submitNativeActionInner node checks sender signed cacheKey).2 := by
  have submit : ∀ pool : NativeMempool, Trusted vouched pool → Trusted vouched
      (match pool.insertWithRestashKey node sender signed cacheKey with
        | .error reason => ((.error reason, pool) : Except NativeMempoolError Unit × NativeMempool)
        | .ok pool => (.ok (), cacheKey.elim pool (pool.cacheVerifiedSender · sender))).2 := by
    intro pool trusted
    cases inserted : pool.insertWithRestashKey node sender signed cacheKey with
    | error reason => exact trusted
    | ok after =>
      have entered := trusted.insertWithRestashKey known inserted
      cases cacheKey with
      | none => exact entered
      | some key => exact entered.cacheVerifiedSender (known key rfl)
  unfold NativeMempool.submitNativeActionInner
  dsimp only
  split
  · exact trusted
  split
  · exact submit pool trusted
  split
  · exact trusted
  split
  · cases evicted : pool.evictOldestOracleOlderThan _ signed.nonce.toNat with
    | none => exact trusted
    | some after =>
      apply submit after
      unfold NativeMempool.evictOldestOracleOlderThan at evicted
      dsimp only at evicted
      repeat' split at evicted
      all_goals cases evicted
      exact trusted.filter _
  · exact submit pool trusted

theorem admitGossip (nowMs : U64) (checks : SenderChecks)
    (known : ∀ key, cacheKey = some key → vouched key sender) :
    Trusted vouched (pool.admitGossip node nowMs checks sender signed cacheKey).2 := by
  unfold NativeMempool.admitGossip
  split
  · exact trusted
  · exact trusted.submitNativeActionInner checks known

theorem removeCommittedNative (hashes : List B256) :
    Trusted vouched (pool.removeCommittedNative hashes) := by
  have known : ∀ entry ∈ pool.verifiedRestashKeys hashes, vouched entry.1 entry.2 := by
    intro stashed member
    obtain ⟨hash, _, found⟩ := mem_filterMap.mp member
    obtain ⟨entry, first, found⟩ := Option.bind_eq_some_iff.mp found
    obtain ⟨key, keyed, rfl⟩ := Option.map_eq_some_iff.mp found
    exact trusted.restash entry (mem_of_find?_eq_some first) key keyed
  apply filter
  generalize pool.verifiedRestashKeys hashes = stashed at known
  induction stashed generalizing pool with
  | nil => exact trusted
  | cons entry stashed ih =>
    exact ih (trusted.cacheVerifiedSender (known entry mem_cons_self))
      fun other member => known other (mem_cons_of_mem _ member)

omit trusted

/-- A gossiped sender that passes is vouched for: the cache says so already, or the signature
gives it now. -/
theorem gossipSender {actions : List SignedNativeAction}
    (trusted : Trusted (Vouched node actions) pool)
    {nowMs : U64} {sessions : Word → Option SessionData} (member : signed ∈ actions)
    (found : pool.gossipSender node nowMs sessions signed = .ok sender) :
    ∀ key, signed.verifiedCacheKey node.keccak = some key → Vouched node actions key sender := by
  intro key keyed
  unfold NativeMempool.gossipSender at found
  cases kind : signed.signature with
  | session sessionPubkey sig => simp [SignedNativeAction.verifiedCacheKey, kind] at keyed
  | eip712 signature =>
    simp only [kind, keyed, Option.bind_some] at found
    cases hit : pool.verifiedSenders.get key with
    | some cached =>
      simp only [hit, Except.ok.injEq] at found
      exact found ▸ trusted.cached key cached hit
    | none =>
      simp only [hit] at found
      exact ⟨signed, member, keyed, found⟩

theorem step {actions : List SignedNativeAction} (trusted : Trusted (Vouched node actions) pool)
    {call : NativeCall} (honest : call.Honest node) (listed : ∀ signed ∈ call.actions, signed ∈ actions) :
    Trusted (Vouched node actions) (pool.step node call) := by
  have resolved : ∀ {signed : SignedNativeAction} {sender : Address}, signed ∈ actions →
      (∃ time sessions, signed.resolveSender node.scheme node.process time sessions = .ok sender) →
      ∀ key, signed.verifiedCacheKey node.keccak = some key → Vouched node actions key sender := by
    rintro signed sender member ⟨time, sessions, resolved⟩ key keyed
    cases kind : signed.signature with
    | session sessionPubkey sig => simp [SignedNativeAction.verifiedCacheKey, kind] at keyed
    | eip712 signature => exact ⟨signed, member, keyed, (resolveSender_eip712 kind).symm.trans resolved⟩
  cases call with
  | addNativeAction nowMs checks signed =>
    rw [NativeMempool.step]
    split
    · exact trusted
    cases recovered : signed.recoverSender node.scheme node.process with
    | error reason => exact trusted
    | ok sender => exact trusted.submitNativeActionInner checks fun key keyed =>
      ⟨signed, listed signed (mem_singleton_self _), keyed, recovered⟩
  | addNativeActionPresigned nowMs checks sender signed =>
    rw [NativeMempool.step]
    split
    · exact trusted
    · exact trusted.submitNativeActionInner checks
        (resolved (listed signed (mem_singleton_self _)) honest)
  | submitNativeAction checks sender signed =>
    exact trusted.submitNativeActionInner checks
      (resolved (listed signed (mem_singleton_self _)) honest)
  | addNativeActionFromGossip nowMs sessions checks claimedSender signed =>
    rw [NativeMempool.step]
    cases found : pool.gossipSender node nowMs sessions signed with
    | error reason => exact trusted
    | ok sender =>
      dsimp only
      split
      · exact trusted
      next same =>
          have same : sender = claimedSender := by simpa using same
          exact trusted.admitGossip nowMs checks
            (same ▸ trusted.gossipSender (listed signed (mem_singleton_self _)) found)
  | addNativeActionFromGossipTrusted nowMs checks sender signed =>
    exact trusted.admitGossip nowMs checks fun _ none => by cases none
  | evictExpired nowMs => exact trusted.evictExpired nowMs.val
  | removeCommittedNative hashes => exact trusted.removeCommittedNative hashes
  | drainNative nowMs taken => exact (trusted.evictExpired nowMs.val).filter _
  | reinsertNative again =>
    rw [NativeMempool.step]
    clear honest listed
    induction again generalizing pool with
    | nil => exact trusted
    | cons signed again ih =>
      apply ih
      dsimp only
      cases signed.recoverSender node.scheme node.process with
      | error reason => exact trusted
      | ok sender =>
        dsimp only
        cases inserted : pool.insertWithRestashKey node sender signed none with
        | error reason => exact trusted
        | ok after => exact trusted.insertWithRestashKey (fun _ none => by cases none) inserted

theorem run {actions : List SignedNativeAction} {calls : List NativeCall}
    (trusted : Trusted (Vouched node actions) pool) (honest : ∀ call ∈ calls, call.Honest node)
    (listed : ∀ signed ∈ calls.flatMap NativeCall.actions, signed ∈ actions) :
    Trusted (Vouched node actions) (calls.foldl (NativeMempool.step node) pool) := by
  induction calls generalizing pool with
  | nil => exact trusted
  | cons call calls ih =>
    rw [flatMap_cons] at listed
    exact ih (trusted.step (honest call mem_cons_self) fun signed member =>
        listed signed (mem_append_left _ member))
      (fun other member => honest other (mem_cons_of_mem _ member))
      fun signed member => listed signed (mem_append_right _ member)

end Trusted

def cachePreimages (actions : List SignedNativeAction) : Set (List Byte) :=
  {bytes | ∃ signed ∈ actions, ∃ signature, signed.signature = .eip712 signature ∧
    bytes = signed.cachePreimage signature}

/-- However the cache was filled, a body's senders are those its actions resolve to alone, and no
session action is looked up. -/
theorem batchVerify_eq_resolveSender (node : NativeNode) (verifiedCap : Nat)
    (calls : List NativeCall)
    (body : List SignedNativeAction) (timestamp : BitVec 64)
    (sessionLookup : Word → Option SessionData) (choice : VerifyChoice)
    (honest : ∀ call ∈ calls, call.Honest node)
    (short : ∀ signed ∈ calls.flatMap NativeCall.actions ++ body, signed.action.Short)
    (free : Set.InjOn node.keccak (cachePreimages (calls.flatMap NativeCall.actions ++ body))) :
    let pool := calls.foldl (NativeMempool.step node) { verifiedSenders := .new verifiedCap }
    (batchVerifyImplKeyed node.scheme node.process timestamp sessionLookup pool.verifiedSenders.get
        choice body).1 =
      (body.map fun signed =>
        (signed.resolveSender node.scheme node.process timestamp sessionLookup).toOption) ∧
      ∀ signed ∈ body, ∀ key sig, signed.signature = .session key sig →
        signed.verifiedCacheKey node.keccak = none := by
  have start : Trusted (Vouched node (calls.flatMap NativeCall.actions))
      { verifiedSenders := .new verifiedCap } := by
    refine ⟨fun _ member => absurd member not_mem_nil, fun key sender live => ?_⟩
    simp [FifoCache.get, FifoCache.new] at live
  have trusted := start.run honest fun _ member => member
  constructor
  · apply batchVerifyImplKeyed_senders
    intro signed member sender hit
    obtain ⟨key, keyed, live⟩ := Option.bind_eq_some_iff.mp hit
    obtain ⟨other, earlier, otherKeyed, recovered⟩ := trusted.cached key sender live
    have inBody := mem_append_right (calls.flatMap NativeCall.actions) member
    have inCalls := mem_append_left body earlier
    have same : signed = other := SignedNativeAction.eq_of_verifiedCacheKey (short signed inBody)
      (short other inCalls) (fun signature otherSignature kind otherKind =>
        free ⟨signed, inBody, signature, kind, rfl⟩ ⟨other, inCalls, otherSignature, otherKind, rfl⟩)
      keyed otherKeyed
    exact same ▸ recovered
  · intro signed _ key sig kind
    rw [SignedNativeAction.verifiedCacheKey, kind]

def oneSigner : BatchScheme where
  wellFormed r s := r ≠ 0 ∧ s ≠ 0
  recoverFromPrehash _ _ _ _ := some (replicate 64 1)
  validKey key := key ≠ 0
  verify _ _ _ := false
  verifyBatch batch := batch.isEmpty
  verifyBatch_sound batch empty check member := by
    rw [List.isEmpty_iff.mp empty] at member
    cases member

def oneNode : NativeNode := ⟨oneSigner, keccak256, ⟨none, none, nofun⟩, torusChainId, 8, 2, fun _ => 1⟩

def claimSigned (r : Word) : SignedNativeAction := ⟨.claimRewards, 1, .eip712 ⟨27, r, 1⟩⟩

/-- One action is verified, one gossiped under a false sender, and the first is committed. -/
def claimCalls : List NativeCall :=
  [.addNativeAction 1 ⟨true, none⟩ (claimSigned 1),
    .addNativeActionFromGossipTrusted 1 ⟨true, none⟩ 5 (claimSigned 0),
    .removeCommittedNative [computeActionHash keccak256 (claimSigned 1)]]

/-- The verified action is still in the cache after its commit, and the forged one has no sender. -/
theorem batchVerify_eq_resolveSender_forged :
    let cached := (claimCalls.foldl (NativeMempool.step oneNode)
      { verifiedSenders := .new 4 }).verifiedSenders.get
    let signer := pubkeyToAddress keccak256 (replicate 64 1)
    ((claimSigned 1).verifiedCacheKey keccak256).bind cached = some signer ∧
      (batchVerifyImplKeyed oneNode.scheme oneNode.process 1 (fun _ => none) cached
        ⟨.serial, false, false, [], []⟩ [claimSigned 1, claimSigned 0]).1 = [some signer, none] := by
  refine ⟨by decide +kernel, (batchVerify_eq_resolveSender oneNode 4 claimCalls _ 1 (fun _ => none)
    ⟨.serial, false, false, [], []⟩ (by simp [claimCalls, NativeCall.Honest])
    (by simp [claimCalls, NativeCall.actions, claimSigned, NativeAction.Short]) ?_).1⟩
  rintro _ ⟨first, isFirst, _, kind, rfl⟩ _ ⟨second, isSecond, _, otherKind, rfl⟩ same
  simp only [claimCalls, NativeCall.actions, flatMap_cons, flatMap_nil, append_nil, mem_append,
    mem_cons, not_mem_nil, or_false] at isFirst isSecond
  have one : first = claimSigned 1 ∨ first = claimSigned 0 := by tauto
  have two : second = claimSigned 1 ∨ second = claimSigned 0 := by tauto
  rcases one with rfl | rfl <;> rcases two with rfl | rfl <;> cases kind <;> cases otherKind
  · rfl
  · exact absurd same (by decide +kernel)
  · exact absurd same (by decide +kernel)
  · rfl

end TorusHyperBft.Mempool
