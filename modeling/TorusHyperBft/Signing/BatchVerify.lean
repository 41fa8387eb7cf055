import TorusHyperBft.Signing.Binding
import TorusHyperBft.Signing.Canonical

namespace TorusHyperBft.Signing

open List

/-! Batch verification of a block body: the keys of the trust cache, the recovery pass over the
actions that miss it, and the session pass with its one batched check. -/

section Keys

variable (keccak : List Byte → Word)

namespace SignedNativeAction

/-- The bytes that a cache key hashes: they differ from those of the content address. -/
def cachePreimage (signed : SignedNativeAction) (signature : Signature) : List Byte :=
  signed.action.appendCanonicalBytes [] ++ (beBytes signed.nonce ++ signature.canonicalBytes)

def verifiedCacheKey (signed : SignedNativeAction) : Option Word :=
  match signed.signature with
  | .eip712 signature => some (keccak (signed.cachePreimage signature))
  | .session _ _ => none

end SignedNativeAction

structure Keccak256 where
  absorbed : List Byte := []

def Keccak256.update (hasher : Keccak256) (data : List Byte) : Keccak256 := ⟨hasher.absorbed ++ data⟩

def Keccak256.finalize (hasher : Keccak256) : Word := keccak hasher.absorbed

def sharedAbsorbMinBytes : Nat := 136

/-- The sort hash and the cache key; a long action is absorbed once for both. -/
def sortHashAndVerifiedCacheKey (signed : SignedNativeAction) : Word × Option Word :=
  let data := signed.action.appendCanonicalBytes []
  match signed.signature with
  | .session _ _ => (keccak data, none)
  | .eip712 signature =>
    let tail := beBytes signed.nonce ++ signature.canonicalBytes
    if data.length < sharedAbsorbMinBytes then (keccak data, some (keccak (data ++ tail)))
    else
      let hasher := Keccak256.update {} data
      (hasher.finalize keccak, some ((hasher.update tail).finalize keccak))

def actionKeys (wantSortHash : Bool) (signed : SignedNativeAction) : Option Word × Option Word :=
  if wantSortHash then
    (some (sortHashAndVerifiedCacheKey keccak signed).1,
      (sortHashAndVerifiedCacheKey keccak signed).2)
  else (none, signed.verifiedCacheKey keccak)

end Keys

inductive VerifyMode where
  | default
  | serial
  | pool (threads : Nat)
deriving DecidableEq

/-- A parallel map that collects in order: the workers take pieces of any sizes. -/
def parMap {α β : Type} (f : α → β) : List Nat → List α → List β
  | [], items => items.map f
  | size :: sizes, items => (items.take size).map f ++ parMap f sizes (items.drop size)

structure SessionCheck where
  key : Word
  message : Word
  signature : BitVec 512

/-- ed25519 also checks many signatures at once, and accepts only what it accepts one by one. -/
structure BatchScheme extends Scheme where
  verifyBatch : List SessionCheck → Bool
  verifyBatch_sound : ∀ batch, verifyBatch batch = true → ∀ check ∈ batch,
    verify check.key check.message check.signature = true

/-- What is the node's own choice in a batch: threads and splits among it. -/
structure VerifyChoice where
  mode : VerifyMode
  parallelKeys : Bool
  wantSortHashes : Bool
  keySplits : List Nat
  recoverSplits : List Nat

def parallelKeysMinActions : Nat := 16

def useParallelKeys (choice : VerifyChoice) (count : Nat) : Bool :=
  choice.parallelKeys && choice.mode ≠ .serial && parallelKeysMinActions ≤ count

variable {keccak : List Byte → Word}

def Process.chainId (process : Process keccak) : BitVec 64 :=
  process.networkChainId.getD torusChainId

section

variable (scheme : BatchScheme) (process : Process keccak)

def SignedNativeAction.recoverSender (signed : SignedNativeAction) : Except Eip712Error Address :=
  match signed.signature with
  | .eip712 signature =>
    let domain := (eip712DomainSeparatorForChain keccak process.chainId).value
    let structHash := (eip712StructHash keccak signed.action signed.nonce).value
    ecrecover keccak scheme.toScheme (eip712SigningHash keccak domain structHash).value
      signature
  | .session _ _ => .error .requiresEip712

def SignedNativeAction.resolveSender (signed : SignedNativeAction) (currentTimeMs : BitVec 64)
    (sessionLookup : Word → Option SessionData) : Except Eip712Error Address :=
  signed.resolveSenderForChain scheme.toScheme process process.chainId currentTimeMs sessionLookup

def recoverOne (entry : SignedNativeAction × Option Address) : Option Address :=
  match entry.2 with
  | some hit => some hit
  | none =>
    match entry.1.signature with
    | .eip712 _ => (entry.1.recoverSender scheme process).toOption
    | .session _ _ => none

def phase1HasMiss (entries : List (SignedNativeAction × Option Address)) : Bool :=
  entries.any fun entry => entry.2.isNone && entry.1.signature matches .eip712 _

def recoverSendersPhase1 (choice : VerifyChoice) (actions : List SignedNativeAction)
    (cacheHits : List (Option Address)) : List (Option Address) :=
  if phase1HasMiss (actions.zip cacheHits) = false then cacheHits
  else
    match choice.mode with
    | .serial => (actions.zip cacheHits).map (recoverOne scheme process)
    | .default | .pool _ =>
      parMap (recoverOne scheme process) choice.recoverSplits (actions.zip cacheHits)

variable (timestamp : BitVec 64) (sessionLookup : Word → Option SessionData)

/-- A session's owner, and the signature that is still to be checked for it. -/
def SignedNativeAction.sessionCheck (signed : SignedNativeAction) : Option (Address × SessionCheck) :=
  match signed.signature with
  | .eip712 _ => none
  | .session sessionPubkey sig =>
    if requiresEip712 signed.action then none
    else
      match sessionLookup sessionPubkey with
      | none => none
      | some session =>
        if timestamp ≤ session.expiry ∧ session.scope.allows signed.action = true then
          if scheme.validKey sessionPubkey = false then none
          else
            let structHash := (eip712StructHash keccak signed.action signed.nonce).value
            let signingHash :=
              (eip712SigningHash keccak process.eip712DomainSeparator structHash).value
            some (session.owner, ⟨sessionPubkey, signingHash, sig⟩)
        else none

/-- The batch stands or falls as one; only when it falls is each signature checked alone. -/
def verifyPhases (choice : VerifyChoice) (actions : List SignedNativeAction)
    (cacheHits : List (Option Address)) : List (Option Address) :=
  let senders := recoverSendersPhase1 scheme process choice actions cacheHits
  let pending := actions.map (·.sessionCheck scheme process timestamp sessionLookup)
  let batch := pending.filterMap (·.map Prod.snd)
  let failed := batch ≠ [] ∧ scheme.verifyBatch batch = false
  List.zipWith (fun sender check =>
    match check with
    | none => sender
    | some (owner, check) =>
      if failed ∧ scheme.verify check.key check.message check.signature = false then none
      else some owner) senders pending

def batchVerifyImplKeyed (verifiedLookup : Word → Option Address) (choice : VerifyChoice)
    (actions : List SignedNativeAction) : List (Option Address) × List Word :=
  let keys :=
    if useParallelKeys choice actions.length then
      parMap (actionKeys keccak choice.wantSortHashes) choice.keySplits actions
    else actions.map (actionKeys keccak choice.wantSortHashes)
  let cacheHits := keys.map fun key => key.2.bind verifiedLookup
  (verifyPhases scheme process timestamp sessionLookup choice actions cacheHits,
    keys.filterMap Prod.fst)

end

theorem parMap_eq {α β : Type} (f : α → β) (sizes : List Nat) (items : List α) :
    parMap f sizes items = items.map f := by
  induction sizes generalizing items with
  | nil => rfl
  | cons size sizes ih => rw [parMap, ih, ← map_append, take_append_drop]

theorem actionKeys_key (wantSortHash : Bool) (signed : SignedNativeAction) :
    (actionKeys keccak wantSortHash signed).2 = signed.verifiedCacheKey keccak := by
  obtain ⟨action, nonce, signature⟩ := signed
  cases wantSortHash with
  | false => rfl
  | true =>
    cases signature with
    | session sessionPubkey sig => rfl
    | eip712 signature =>
      simp only [actionKeys, if_true, sortHashAndVerifiedCacheKey,
        SignedNativeAction.verifiedCacheKey]
      split <;> rfl

theorem SignedNativeAction.eq_of_verifiedCacheKey {signed other : SignedNativeAction} {key : Word}
    (short : signed.action.Short) (otherShort : other.action.Short)
    (free : ∀ signature otherSignature, signed.signature = .eip712 signature →
      other.signature = .eip712 otherSignature →
      keccak (signed.cachePreimage signature) = keccak (other.cachePreimage otherSignature) →
      signed.cachePreimage signature = other.cachePreimage otherSignature)
    (keyed : signed.verifiedCacheKey keccak = some key)
    (otherKeyed : other.verifiedCacheKey keccak = some key) :
    signed = other := by
  obtain ⟨action, nonce, signature⟩ := signed
  obtain ⟨otherAction, otherNonce, otherSignature⟩ := other
  cases signature with
  | session sessionPubkey sig => cases keyed
  | eip712 signature =>
    cases otherSignature with
    | session sessionPubkey sig => cases otherKeyed
    | eip712 otherSignature =>
      have same := free signature otherSignature rfl rfl
        (Option.some.inj (keyed.trans otherKeyed.symm))
      obtain ⟨actions, tails⟩ := NativeAction.canonicalBytes_delimited action otherAction short
        otherShort _ _ same
      obtain ⟨nonces, signatures⟩ := (beBytes_append (by decide)).mp tails
      have signatures : signature.canonicalBytes ++ [] = otherSignature.canonicalBytes ++ [] := by
        simpa using signatures
      change nonce = otherNonce at nonces
      rw [actions, nonces, (signature_append.mp signatures).1]

section

variable {scheme : BatchScheme} {process : Process keccak} {timestamp : BitVec 64}
  {sessionLookup : Word → Option SessionData}

theorem resolveSender_eip712 {signed : SignedNativeAction} {signature : Signature}
    (kind : signed.signature = .eip712 signature) :
    signed.resolveSender scheme process timestamp sessionLookup =
      signed.recoverSender scheme process := by
  simp only [SignedNativeAction.resolveSender, SignedNativeAction.resolveSenderForChain,
    SignedNativeAction.recoverSender, domainFor_eq, kind]

/-- A cache hit is the sender that recovery gives. -/
def HitSound (scheme : BatchScheme) (process : Process keccak) (signed : SignedNativeAction)
    (hit : Option Address) : Prop :=
  ∀ sender, hit = some sender → signed.recoverSender scheme process = .ok sender

theorem recoverSendersPhase1_eq (choice : VerifyChoice) (actions : List SignedNativeAction)
    (hit : SignedNativeAction → Option Address) :
    recoverSendersPhase1 scheme process choice actions (actions.map hit) =
      actions.map fun signed => recoverOne scheme process (signed, hit signed) := by
  have zipped : actions.zip (actions.map hit) = actions.map fun signed => (signed, hit signed) := by
    have zipped := @List.zip_map' _ _ _ id hit actions
    rwa [List.map_id] at zipped
  unfold recoverSendersPhase1
  rw [zipped]
  split
  next hits =>
      apply map_congr_left
      intro signed member
      have kept := any_eq_false.mp hits _ (mem_map_of_mem member)
      cases found : hit signed with
      | some sender => simp [recoverOne]
      | none =>
        cases kind : signed.signature with
        | session sessionPubkey sig => simp [recoverOne, kind]
        | eip712 signature => simp [found, kind] at kept
  next => cases choice.mode <;> simp only [parMap_eq, map_map, Function.comp_def]

theorem settled_eq_resolveSender {signed : SignedNativeAction} {hit : Option Address}
    {failed : Prop}
    [Decidable failed] (sound : HitSound scheme process signed hit)
    (passed : ∀ owner check, signed.sessionCheck scheme process timestamp sessionLookup =
      some (owner, check) → ¬ failed →
        scheme.verify check.key check.message check.signature = true) :
    (match signed.sessionCheck scheme process timestamp sessionLookup with
      | none => recoverOne scheme process (signed, hit)
      | some (owner, check) =>
        if failed ∧ scheme.verify check.key check.message check.signature = false then none
        else some owner) =
      (signed.resolveSender scheme process timestamp sessionLookup).toOption := by
  cases kind : signed.signature with
  | eip712 signature =>
    rw [resolveSender_eip712 kind]
    simp only [SignedNativeAction.sessionCheck, kind, recoverOne]
    cases hit with
    | none => rfl
    | some sender => simp [sound sender rfl, Except.toOption]
  | session sessionPubkey sig =>
    have missed : hit = none := by
      cases hit with
      | none => rfl
      | some sender =>
        have recovered := sound sender rfl
        simp [SignedNativeAction.recoverSender, kind] at recovered
    have domain : process.eip712DomainSeparator = process.domainFor process.chainId := by
      rw [domainFor_eq]
      exact domainSeparatorCached_eq process _
    simp only [SignedNativeAction.sessionCheck, kind, missed, domain] at passed ⊢
    simp only [SignedNativeAction.resolveSender, SignedNativeAction.resolveSenderForChain, kind,
      recoverOne]
    by_cases eip712 : requiresEip712 signed.action = true
    · simp [eip712, Except.toOption]
    · simp only [eip712] at passed ⊢
      cases found : sessionLookup sessionPubkey with
      | none =>
        simp only [found, if_false, Bool.false_eq_true] at passed ⊢
        split_ifs <;> rfl
      | some session =>
        simp only [found, if_false, Bool.false_eq_true] at passed ⊢
        by_cases live : timestamp ≤ session.expiry ∧ session.scope.allows signed.action = true
        · have current : ¬ session.expiry < timestamp := BitVec.not_lt.mpr live.1
          simp only [live, and_self, if_true, current, if_false, Bool.true_eq_false] at passed ⊢
          by_cases invalid : scheme.validKey sessionPubkey = false
          · simp [invalid, Except.toOption]
          · simp only [invalid] at passed ⊢
            have verified := passed session.owner _ rfl
            dsimp only at verified ⊢
            by_cases refused : scheme.verify sessionPubkey (eip712SigningHash keccak
                (process.domainFor process.chainId)
                (eip712StructHash keccak signed.action signed.nonce).value).value sig = false
            · have fell : failed := by
                by_contra stands
                simp [verified stands] at refused
              simp [refused, fell, Except.toOption]
            · simp [refused, Except.toOption]
        · simp only [live, if_false]
          by_cases late : session.expiry < timestamp
          · simp only [late, if_true]
            split_ifs <;> rfl
          · have outside : session.scope.allows signed.action = false := by
              simpa [BitVec.not_lt.mp late] using live
            simp only [late, outside, if_true, if_false]
            split_ifs <;> rfl

theorem batchVerifyImplKeyed_senders {lookup : Word → Option Address} (choice : VerifyChoice)
    {actions : List SignedNativeAction}
    (sound : ∀ signed ∈ actions,
      HitSound scheme process signed ((signed.verifiedCacheKey keccak).bind lookup)) :
    (batchVerifyImplKeyed scheme process timestamp sessionLookup lookup choice actions).1 =
      actions.map fun signed =>
        (signed.resolveSender scheme process timestamp sessionLookup).toOption := by
  have keys : (if useParallelKeys choice actions.length then
      parMap (actionKeys keccak choice.wantSortHashes) choice.keySplits actions
      else actions.map (actionKeys keccak choice.wantSortHashes)) =
      actions.map (actionKeys keccak choice.wantSortHashes) := by
    rw [parMap_eq, ite_self]
  simp only [batchVerifyImplKeyed, verifyPhases, keys, map_map, Function.comp_def,
    actionKeys_key, recoverSendersPhase1_eq, zipWith_map, zipWith_self]
  apply map_congr_left
  intro signed member
  apply settled_eq_resolveSender (sound signed member)
  intro owner check pending stands
  have inside : check ∈ (actions.map (·.sessionCheck scheme process timestamp sessionLookup)).filterMap
      (·.map Prod.snd) :=
    mem_filterMap.mpr ⟨_, mem_map_of_mem member, by rw [pending]; rfl⟩
  have accepted : scheme.verifyBatch ((actions.map
      (·.sessionCheck scheme process timestamp sessionLookup)).filterMap (·.map Prod.snd)) = true := by
    by_contra refused
    exact stands ⟨ne_nil_of_mem inside, by simpa using refused⟩
  exact scheme.verifyBatch_sound _ accepted check inside

end

end TorusHyperBft.Signing
