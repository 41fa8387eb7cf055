import TorusHyperBft.Signing.Hash

namespace TorusHyperBft.HotStuff

open List
open Signing (stringBytes)

/-! The bytes every consensus signature is made over.

Each kind of message has a domain tag before the borsh encoding of the signed fields. -/

abbrev ChainId := U64

abbrev ViewNumber := U64

abbrev BlockHeight := U64

abbrev CryptoHash := BitVec 256

abbrev SignatureBytes := BitVec 512

inductive Phase where
  | generic
  | prepare
  | precommit
  | commit
  | decide
deriving DecidableEq

abbrev TipSummary := CryptoHash × ViewNumber

abbrev QcSummary := ViewNumber × CryptoHash

def u64Bytes (value : U64) : List Byte := (toBytes 8 value.val).reverse

def hashBytes (hash : CryptoHash) : List Byte := toBytes 32 hash.toNat

def phaseBytes (phase : Phase) : List Byte := toBytes 1 phase.ctorIdx

def optionBytes {α : Type} (encode : α → List Byte) : Option α → List Byte
  | none => [0]
  | some value => 1 :: encode value

def domainPhaseVote : List Byte := stringBytes "torus-hotstuff/v1/phase-vote"

def domainTimeoutVote : List Byte := stringBytes "torus-hotstuff/v1/timeout-vote"

def domainNoEndorsement : List Byte := stringBytes "torus-hotstuff/v1/no-endorsement"

def phaseVoteBytes (chainId : ChainId) (view : ViewNumber) (block : CryptoHash) (phase : Phase) :
    List Byte :=
  domainPhaseVote ++ (u64Bytes chainId ++ (u64Bytes view ++ (hashBytes block ++ phaseBytes phase)))

def timeoutVoteBytes (chainId : ChainId) (view : ViewNumber) (tip : Option TipSummary)
    (highestQc : Option QcSummary) : List Byte :=
  domainTimeoutVote ++ (u64Bytes chainId ++ (u64Bytes view ++
    (optionBytes (fun summary => hashBytes summary.1 ++ u64Bytes summary.2) tip ++
      optionBytes (fun summary => u64Bytes summary.1 ++ hashBytes summary.2) highestQc)))

def noEndorsementBytes (chainId : ChainId) (view highTipQcView : ViewNumber) : List Byte :=
  domainNoEndorsement ++ (u64Bytes chainId ++ (u64Bytes view ++ u64Bytes highTipQcView))

section Injective

variable {chainId otherChain : ChainId} {view otherView : ViewNumber} {tail rest : List Byte}

theorem u64Bytes_append_inj {value other : U64}
    (same : u64Bytes value ++ tail = u64Bytes other ++ rest) : value = other ∧ tail = rest := by
  obtain ⟨bytes, tails⟩ := append_inj same (by simp [u64Bytes])
  have forward : toBytes 8 value.val ++ [] = toBytes 8 other.val ++ [] := by
    rw [append_nil, append_nil]
    exact reverse_injective bytes
  have fits : ∀ value : U64, value.val < 256 ^ 8 := fun value => value.isLt
  exact ⟨Fin.ext (toBytes_append_inj (fits value) (fits other) forward).1, tails⟩

theorem hashBytes_append_inj {hash other : CryptoHash}
    (same : hashBytes hash ++ tail = hashBytes other ++ rest) : hash = other ∧ tail = rest := by
  have fits : ∀ hash : CryptoHash, hash.toNat < 256 ^ 32 := fun hash => hash.isLt
  obtain ⟨value, tails⟩ := toBytes_append_inj (fits hash) (fits other) same
  exact ⟨BitVec.eq_of_toNat_eq value, tails⟩

theorem optionBytes_append_inj {α : Type} {encode : α → List Byte}
    (injective : ∀ {value other : α} {tail rest : List Byte},
      encode value ++ tail = encode other ++ rest → value = other ∧ tail = rest)
    {value other : Option α}
    (same : optionBytes encode value ++ tail = optionBytes encode other ++ rest) :
    value = other ∧ tail = rest := by
  cases value with
  | none =>
    cases other with
    | none => simpa [optionBytes] using same
    | some other => simp [optionBytes] at same
  | some value =>
    cases other with
    | none => simp [optionBytes] at same
    | some other =>
      simp only [optionBytes, cons_append, List.cons.injEq, true_and] at same
      obtain ⟨values, tails⟩ := injective same
      exact ⟨congrArg some values, tails⟩

theorem timeoutVoteBytes_inj {tip otherTip : Option TipSummary} {qc otherQc : Option QcSummary}
    (same : timeoutVoteBytes chainId view tip qc =
      timeoutVoteBytes otherChain otherView otherTip otherQc) :
    chainId = otherChain ∧ view = otherView ∧ tip = otherTip ∧ qc = otherQc := by
  obtain ⟨chains, same⟩ := u64Bytes_append_inj (append_cancel_left same)
  obtain ⟨views, same⟩ := u64Bytes_append_inj same
  obtain ⟨tips, same⟩ := optionBytes_append_inj (fun same => by
    rw [append_assoc, append_assoc] at same
    obtain ⟨hashes, same⟩ := hashBytes_append_inj same
    obtain ⟨views, tails⟩ := u64Bytes_append_inj same
    exact ⟨Prod.ext hashes views, tails⟩) same
  have qcs := @optionBytes_append_inj [] [] _ (fun summary : QcSummary =>
    u64Bytes summary.1 ++ hashBytes summary.2) (fun same => by
      rw [append_assoc, append_assoc] at same
      obtain ⟨views, same⟩ := u64Bytes_append_inj same
      obtain ⟨hashes, tails⟩ := hashBytes_append_inj same
      exact ⟨Prod.ext views hashes, tails⟩) qc otherQc
      (by rw [append_nil, append_nil]; exact same)
  exact ⟨chains, views, tips, qcs.1⟩

end Injective

end TorusHyperBft.HotStuff
