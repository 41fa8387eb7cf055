import TorusHyperBft.Keccak
import TorusHyperBft.Signing.Injective

namespace TorusHyperBft.Signing

open Hashed

/-! What a signature binds: the whole action, its nonce and its chain, unless the action has
a stop order. -/

inductive Eip712Error where
  | invalidSignature
  | recoveryFailed
  | sessionSignatureInvalid
  | sessionNotFound
  | sessionExpired
  | sessionScopeViolation
  | requiresEip712
deriving DecidableEq

/-- The signature schemes: secp256k1 with public-key recovery, and ed25519. Recovery gives
the coordinates of the public key. -/
structure Scheme where
  wellFormed : Word → Word → Bool
  recoverFromPrehash : Word → Word → Word → BitVec 8 → Option (List Byte)
  validKey : Word → Bool
  verify : Word → Word → BitVec 512 → Bool

section

variable (keccak : List Byte → Word) (scheme : Scheme)

def pubkeyToAddress (coordinates : List Byte) : Address := (keccak coordinates).setWidth 160

/-- The recovery id is the byte `v` less 27, wrapping, and there are four of them. -/
def ecrecover (hash : Word) (signature : Signature) : Except Eip712Error Address :=
  let recoveryId := signature.v - 27
  if scheme.wellFormed signature.r signature.s = false then .error .invalidSignature
  else if 3 < recoveryId.toNat then .error .invalidSignature
  else
    match scheme.recoverFromPrehash hash signature.r signature.s recoveryId with
    | none => .error .recoveryFailed
    | some coordinates => .ok (pubkeyToAddress keccak coordinates)

def torusChainId : BitVec 64 := 7778

/-- What a process sets once: the chain of its network, and the first domain separator that
it computed. -/
structure Process where
  networkChainId : Option (BitVec 64)
  separator : Option (BitVec 64 × Word)
  computed : ∀ entry, separator = some entry →
    entry.2 = (eip712DomainSeparatorForChain keccak entry.1).value

def domainSeparatorCached (cache : Option (BitVec 64 × Word)) (chainId : BitVec 64) : Word :=
  match cache with
  | some (cachedChain, separator) =>
    if cachedChain = chainId then separator
    else (eip712DomainSeparatorForChain keccak chainId).value
  | none => (eip712DomainSeparatorForChain keccak chainId).value

variable {keccak} in
def Process.eip712DomainSeparator (process : Process keccak) : Word :=
  domainSeparatorCached keccak process.separator (process.networkChainId.getD torusChainId)

variable {keccak} in
def Process.domainFor (process : Process keccak) (chainId : BitVec 64) : Word :=
  if process.networkChainId = some chainId then process.eip712DomainSeparator
  else (eip712DomainSeparatorForChain keccak chainId).value

def requiresEip712 (action : NativeAction) : Bool := !action.isTrading

variable {keccak} in
def SignedNativeAction.resolveSenderForChain (signed : SignedNativeAction)
    (process : Process keccak) (chainId currentTimeMs : BitVec 64)
    (sessionLookup : Word → Option SessionData) : Except Eip712Error Address :=
  let domain := process.domainFor chainId
  let structHash := (eip712StructHash keccak signed.action signed.nonce).value
  let signingHash := (eip712SigningHash keccak domain structHash).value
  match signed.signature with
  | .eip712 signature => ecrecover keccak scheme signingHash signature
  | .session sessionPubkey sig =>
    if requiresEip712 signed.action then .error .requiresEip712
    else if scheme.validKey sessionPubkey = false then .error .sessionSignatureInvalid
    else if scheme.verify sessionPubkey signingHash sig = false then
      .error .sessionSignatureInvalid
    else
      match sessionLookup sessionPubkey with
      | none => .error .sessionNotFound
      | some session =>
        if session.expiry < currentTimeMs then .error .sessionExpired
        else if session.scope.allows signed.action = false then .error .sessionScopeViolation
        else .ok session.owner

/-- The signature does not stand under two hashes. -/
def SignsOne (signature : ActionSignature) (hash other : Word) : Prop :=
  match signature with
  | .eip712 signature => ∀ address, ecrecover keccak scheme hash signature = .ok address →
      ecrecover keccak scheme other signature = .ok address → hash = other
  | .session sessionPubkey sig => scheme.verify sessionPubkey hash sig = true →
      scheme.verify sessionPubkey other sig = true → hash = other

/-- An action is bound to its signature: what is signed for it on a chain is signed for nothing
else, and its signature resolves to the same sender with no other action, nonce or chain. -/
structure Bound (action : NativeAction) (nonce chainId : BitVec 64) : Prop where
  hash : ∀ (other : NativeAction) (otherNonce otherChain : BitVec 64),
    CollisionFree keccak 0 ((signingHash keccak chainId action nonce).inputs ++
      (signingHash keccak otherChain other otherNonce).inputs) →
    (signingHash keccak chainId action nonce).value =
      (signingHash keccak otherChain other otherNonce).value →
    action = other ∧ nonce = otherNonce ∧ chainId = otherChain
  sender : ∀ (other : NativeAction) (otherNonce otherChain : BitVec 64) (scheme : Scheme)
      (signature : ActionSignature) (process otherProcess : Process keccak)
      (time otherTime : BitVec 64) (sessions otherSessions : Word → Option SessionData)
      (signer : Address),
    CollisionFree keccak 0 ((signingHash keccak chainId action nonce).inputs ++
      (signingHash keccak otherChain other otherNonce).inputs) →
    SignsOne keccak scheme signature (signingHash keccak chainId action nonce).value
      (signingHash keccak otherChain other otherNonce).value →
    SignedNativeAction.resolveSenderForChain scheme ⟨action, nonce, signature⟩ process chainId
      time sessions = .ok signer →
    SignedNativeAction.resolveSenderForChain scheme ⟨other, otherNonce, signature⟩ otherProcess
      otherChain otherTime otherSessions = .ok signer →
    action = other ∧ nonce = otherNonce ∧ chainId = otherChain

end

section

variable {keccak : List Byte → Word}

theorem eip712DomainSeparator_injective {chainId other : BitVec 64}
    (apart : Apart keccak 0 (eip712DomainSeparatorForChain keccak chainId).inputs
      (eip712DomainSeparatorForChain keccak other).inputs)
    (same : (eip712DomainSeparatorForChain keccak chainId).value =
      (eip712DomainSeparatorForChain keccak other).value) : chainId = other := by
  obtain ⟨_, apart⟩ := apart.bind
  obtain ⟨_, apart⟩ := apart.bind
  obtain ⟨_, fields⟩ := structHash_injective apart same
  simp only [List.cons.injEq, encodeU256, chainId_inj] at fields
  exact fields.2.2.1

variable {action other : NativeAction} {nonce otherNonce chainId otherChain : BitVec 64}

theorem signingHash_injective
    (apart : Apart keccak 0 (signingHash keccak chainId action nonce).inputs
      (signingHash keccak otherChain other otherNonce).inputs)
    (same : (signingHash keccak chainId action nonce).value =
      (signingHash keccak otherChain other otherNonce).value) :
    action.erase = other.erase ∧ nonce = otherNonce ∧ chainId = otherChain := by
  obtain ⟨domainApart, apart⟩ := apart.bind
  obtain ⟨structApart, apart⟩ := apart.bind
  have bytes := apart.call same
  simp only [List.cons.injEq, true_and] at bytes
  have words := wordsBytes_injective bytes
  simp only [List.cons.injEq, and_true] at words
  obtain ⟨actions, nonces⟩ := eip712StructHash_injective structApart words.2
  exact ⟨actions, nonces, eip712DomainSeparator_injective domainApart words.1⟩

theorem signingHash_erase (chainId : BitVec 64) (action : NativeAction) (nonce : BitVec 64) :
    signingHash keccak chainId action.erase nonce = signingHash keccak chainId action nonce := by
  simp only [signingHash, eip712StructHash_erase]

theorem signingHash_retrigger (chainId : BitVec 64) (action : NativeAction) (nonce : BitVec 64) :
    signingHash keccak chainId action.retrigger nonce =
      signingHash keccak chainId action nonce := by
  rw [← signingHash_erase, NativeAction.retrigger_erase, signingHash_erase]

theorem domainSeparatorCached_eq (process : Process keccak) (chainId : BitVec 64) :
    domainSeparatorCached keccak process.separator chainId =
      (eip712DomainSeparatorForChain keccak chainId).value := by
  cases cached : process.separator with
  | none => rfl
  | some entry =>
    have computed := process.computed entry cached
    simp only [domainSeparatorCached]
    split
    next same => rw [computed, same]
    next => rfl

theorem domainFor_eq (process : Process keccak) (chainId : BitVec 64) :
    process.domainFor chainId = (eip712DomainSeparatorForChain keccak chainId).value := by
  rw [Process.domainFor]
  split
  next network =>
      rw [Process.eip712DomainSeparator, network, domainSeparatorCached_eq, Option.getD_some]
  next => rfl

theorem resolveSender_signed {scheme : Scheme} {signed : SignedNativeAction}
    {process : Process keccak} {chainId time : BitVec 64} {sessions : Word → Option SessionData}
    {signer : Address}
    (resolved : signed.resolveSenderForChain scheme process chainId time sessions = .ok signer) :
    match signed.signature with
    | .eip712 signature => ecrecover keccak scheme
        (signingHash keccak chainId signed.action signed.nonce).value signature = .ok signer
    | .session sessionPubkey sig => scheme.verify sessionPubkey
        (signingHash keccak chainId signed.action signed.nonce).value sig = true := by
  obtain ⟨action, nonce, signature⟩ := signed
  simp only [SignedNativeAction.resolveSenderForChain, domainFor_eq] at resolved
  cases signature with
  | eip712 signature => exact resolved
  | session sessionPubkey sig =>
    dsimp only at resolved ⊢
    by_contra refused
    have refused : scheme.verify sessionPubkey (eip712SigningHash keccak
        (eip712DomainSeparatorForChain keccak chainId).value
        (eip712StructHash keccak action nonce).value).value sig = false := by
      simpa [signingHash] using refused
    rw [if_pos refused] at resolved
    split at resolved <;> try split at resolved
    all_goals cases resolved

theorem signingHash_eq_of_resolved {scheme : Scheme} {signature : ActionSignature}
    {nonce otherNonce chainId otherChain time otherTime : BitVec 64}
    {process otherProcess : Process keccak} {sessions otherSessions : Word → Option SessionData}
    {signer : Address}
    (once : SignsOne keccak scheme signature (signingHash keccak chainId action nonce).value
      (signingHash keccak otherChain other otherNonce).value)
    (resolved : SignedNativeAction.resolveSenderForChain scheme ⟨action, nonce, signature⟩
      process chainId time sessions = .ok signer)
    (otherResolved : SignedNativeAction.resolveSenderForChain scheme
      ⟨other, otherNonce, signature⟩ otherProcess otherChain otherTime otherSessions =
        .ok signer) :
    (signingHash keccak chainId action nonce).value =
      (signingHash keccak otherChain other otherNonce).value := by
  have signed := resolveSender_signed resolved
  have otherSigned := resolveSender_signed otherResolved
  cases signature with
  | eip712 signature => exact once signer signed otherSigned
  | session sessionPubkey sig => exact once signed otherSigned

theorem action_eq_of_hash_eq (plain : action.hasStop = false)
    (free : CollisionFree keccak 0 ((signingHash keccak chainId action nonce).inputs ++
      (signingHash keccak otherChain other otherNonce).inputs))
    (same : (signingHash keccak chainId action nonce).value =
      (signingHash keccak otherChain other otherNonce).value) :
    action = other ∧ nonce = otherNonce ∧ chainId = otherChain := by
  obtain ⟨actions, rest⟩ := signingHash_injective free.apart same
  exact ⟨NativeAction.eq_of_erase_eq plain actions, rest⟩

/-- An action is bound to its signature exactly if it has no stop order. -/
theorem bound_iff_no_stop (action : NativeAction) (nonce chainId : BitVec 64)
    (free : CollisionFree keccak 0 (signingHash keccak chainId action nonce).inputs) :
    Bound keccak action nonce chainId ↔ action.hasStop = false := by
  constructor
  · intro bound
    by_contra stops
    have stop : action.hasStop = true := by simpa using stops
    have same := @signingHash_retrigger keccak chainId action nonce
    obtain ⟨equal, _⟩ := bound.hash action.retrigger nonce chainId
      (by rw [same]; exact free.twice) (by rw [same])
    exact NativeAction.retrigger_ne stop equal.symm
  · intro plain
    constructor
    · intro other otherNonce otherChain free same
      exact action_eq_of_hash_eq plain free same
    · intro other otherNonce otherChain scheme signature process otherProcess time otherTime
        sessions otherSessions signer free once resolved otherResolved
      exact action_eq_of_hash_eq plain free
        (signingHash_eq_of_resolved once resolved otherResolved)

def restingOrder (orderType : OrderType) : NativeAction :=
  .placeOrder
    { marketId := 1
      isBuy := false
      price := 6500000000000
      quantity := 10000000
      orderType := orderType
      timeInForce := .gtc
      reduceOnly := true
      clientOrderId := none }

theorem bound_iff_no_stop_limitOrder :
    (Bound keccak256 (restingOrder .limit) 1700000000000 torusChainId ↔
      (restingOrder .limit).hasStop = false) ∧ (restingOrder .limit).hasStop = false :=
  ⟨bound_iff_no_stop (restingOrder .limit) 1700000000000 torusChainId
    (CollisionFree.of_nodup (by decide +kernel)), rfl⟩

/-- A sell stop at 64000 is signed like one at 64000.00000001. -/
theorem not_bound_stopMarket :
    ¬ Bound keccak256 (restingOrder (.stopMarket 6400000000000)) 1700000000000 torusChainId := by
  intro bound
  have free : CollisionFree keccak256 0 (signingHash keccak256 torusChainId
      (restingOrder (.stopMarket 6400000000000)) 1700000000000).inputs :=
    CollisionFree.of_nodup (by decide +kernel)
  obtain ⟨equal, _⟩ := bound.hash (restingOrder (.stopMarket 6400000000001)) 1700000000000
    torusChainId free.twice rfl
  exact absurd equal (by decide)

end

end TorusHyperBft.Signing
