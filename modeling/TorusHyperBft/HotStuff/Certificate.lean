import TorusHyperBft.HotStuff.Signing
import TorusHyperBft.HotStuff.ValidatorSet
import TorusHyperBft.Tally

namespace TorusHyperBft.HotStuff

open List
open Epoch (PubKey ValidatorSet)

/-! Certificates, and the check that a validator set has signed one. -/

abbrev SignatureSet := List (Option SignatureBytes)

def SignatureSet.new (length : Nat) : SignatureSet := List.replicate length none

structure PhaseCertificate where
  chainId : ChainId
  view : ViewNumber
  block : CryptoHash
  phase : Phase
  signatures : SignatureSet
deriving DecidableEq

namespace PhaseCertificate

def genesisPc : PhaseCertificate :=
  { chainId := 0, view := 0, block := 0, phase := .generic, signatures := [] }

def isGenesisPc (pc : PhaseCertificate) : Bool := pc = genesisPc

def summary (pc : PhaseCertificate) : QcSummary := (pc.view, pc.block)

end PhaseCertificate

/-- A replica's tip: the signed header of the latest fresh proposal it voted for. -/
structure TipInfo where
  blockHash : CryptoHash
  blockHeight : BlockHeight
  blockJustify : PhaseCertificate
  blockDataHash : CryptoHash
  view : ViewNumber
  leaderSignature : SignatureBytes
deriving DecidableEq

def TipInfo.summary (tip : TipInfo) : TipSummary := (tip.blockHash, tip.view)

/-- What one signer of a timeout certificate signed besides its chain and view. -/
abbrev VoterMetadata := Option TipSummary × Option QcSummary

structure TimeoutCertificate where
  chainId : ChainId
  view : ViewNumber
  signatures : SignatureSet
  highTip : Option TipInfo
  highQc : Option PhaseCertificate
  highTipIsWinner : Bool
  voterMetadata : List VoterMetadata
deriving DecidableEq

structure NoEndorsementCertificate where
  view : ViewNumber
  highTipQcView : ViewNumber
  signatures : SignatureSet
deriving DecidableEq

/-- The tip wins if it is newer than the high QC and its block is justified at least as high. -/
def highTipWins : Option TipInfo → Option PhaseCertificate → Bool
  | some tip, some qc => qc.view < tip.view && qc.view ≤ tip.blockJustify.view
  | some _, none => true
  | none, _ => false

def signedMetadata (signatures : SignatureSet) (metadata : List VoterMetadata) :
    List VoterMetadata :=
  (signatures.zipIdx.filter fun slot => slot.1.isSome).filterMap fun slot => metadata[slot.2]?

/-- Whether a summary is one that a signer signed, at the highest view any signer signed, and
is there if any signer signed one. -/
def summaryIsSigned {α : Type} [DecidableEq α] (pick : VoterMetadata → Option α)
    (viewOf : α → ViewNumber) (signed : List VoterMetadata) : Option α → Bool
  | some high => ((signed.filterMap pick).map viewOf).max? = some (viewOf high) &&
      signed.any fun voter => pick voter = some high
  | none => ((signed.filterMap pick).map viewOf).max?.isNone

/-- Whether the summaries of a certificate agree with what its signers signed. -/
def TimeoutCertificate.summariesAreSigned (tc : TimeoutCertificate) : Bool :=
  let signed := signedMetadata tc.signatures tc.voterMetadata
  let maxTip := ((signed.filterMap Prod.fst).map Prod.snd).max?
  let tipOk := maxTip.all (· ≤ tc.view) &&
    summaryIsSigned Prod.fst Prod.snd signed (tc.highTip.map TipInfo.summary)
  let qcOk := summaryIsSigned Prod.snd Prod.fst signed (tc.highQc.map PhaseCertificate.summary)
  tipOk && qcOk && highTipWins tc.highTip tc.highQc == tc.highTipIsWinner

section Signed

-- Whether bytes are a signature of a key over a message.
variable (verify : PubKey → List Byte → SignatureBytes → Bool)

/-- Whether every signature is right for its place and the signers are a quorum. -/
def signedByQuorum (message : Nat → List Byte) (signatures : SignatureSet) (set : ValidatorSet) :
    Bool :=
  (Tally.count (fun place key signature => verify key (message place) signature) 0 0 signatures
    set.validatorsAndPowers).any (set.quorum ≤ ·)

def PhaseCertificate.isCorrectlySigned (pc : PhaseCertificate) (set : ValidatorSet) : Bool :=
  pc.signatures.length == set.validators.length &&
    signedByQuorum verify (fun _ => phaseVoteBytes pc.chainId pc.view pc.block pc.phase)
      pc.signatures set

def NoEndorsementCertificate.isCorrectlySigned (nec : NoEndorsementCertificate) (chainId : ChainId)
    (set : ValidatorSet) : Bool :=
  nec.signatures.length == set.validators.length &&
    signedByQuorum verify (fun _ => noEndorsementBytes chainId nec.view nec.highTipQcView)
      nec.signatures set

namespace TimeoutCertificate

def metadataAt (tc : TimeoutCertificate) (place : Nat) : VoterMetadata :=
  (tc.voterMetadata[place]?).getD (none, none)

def signedBytes (tc : TimeoutCertificate) (place : Nat) : List Byte :=
  timeoutVoteBytes tc.chainId tc.view (tc.metadataAt place).1 (tc.metadataAt place).2

def isCorrectlySigned (tc : TimeoutCertificate) (set : ValidatorSet) : Bool :=
  tc.signatures.length == set.validators.length &&
    tc.voterMetadata.length == set.validators.length &&
    tc.summariesAreSigned &&
    signedByQuorum verify tc.signedBytes tc.signatures set

end TimeoutCertificate

end Signed

section Quorum

variable {verify : PubKey → List Byte → SignatureBytes → Bool} {message : Nat → List Byte}
  {signatures : SignatureSet} {set : ValidatorSet}

def signers (signatures : SignatureSet) (set : ValidatorSet) : Nat :=
  Tally.signedPower signatures set.validatorsAndPowers

/-- Every signature is its member's, over its message. -/
def Authentic (verify : PubKey → List Byte → SignatureBytes → Bool) (message : Nat → List Byte)
    (signatures : SignatureSet) (set : ValidatorSet) : Prop :=
  Tally.Checked (fun place key signature => verify key (message place) signature) 0 signatures
    set.validatorsAndPowers

theorem signedByQuorum_iff : signedByQuorum verify message signatures set = true ↔
    Authentic verify message signatures set ∧ set.quorum ≤ signers signatures set := by
  rw [signedByQuorum, Option.any_eq_true]
  constructor
  · rintro ⟨total, counted, reached⟩
    obtain ⟨checked, rfl⟩ := Tally.count_eq_some.mp counted
    rw [Nat.zero_add, decide_eq_true_eq] at reached
    exact ⟨checked, reached⟩
  · rintro ⟨checked, reached⟩
    refine ⟨signers signatures set, Tally.count_eq_some.mpr ⟨checked, ?_⟩, ?_⟩
    · rw [Nat.zero_add, signers]
    · rw [decide_eq_true_eq]
      exact reached

end Quorum

section Summaries

variable {signatures : SignatureSet} {metadata : List VoterMetadata} {voter : VoterMetadata}

/-- A signer of the certificate sent this. -/
def Reported (signatures : SignatureSet) (metadata : List VoterMetadata) (voter : VoterMetadata) :
    Prop :=
  ∃ (place : Nat) (signature : SignatureBytes), signatures[place]? = some (some signature) ∧
    metadata[place]? = some voter

theorem mem_signedMetadata :
    voter ∈ signedMetadata signatures metadata ↔ Reported signatures metadata voter := by
  simp only [signedMetadata, mem_filterMap, mem_filter, mem_zipIdx_iff_getElem?,
    Option.isSome_iff_exists, Reported]
  constructor
  · rintro ⟨⟨slot, place⟩, ⟨found, signature, rfl⟩, reported⟩
    exact ⟨place, signature, found, reported⟩
  · rintro ⟨place, signature, found, reported⟩
    exact ⟨(some signature, place), ⟨found, signature, rfl⟩, reported⟩

/-- A signer of the certificate reported this value. -/
def ReportedAs {α : Type} (pick : VoterMetadata → Option α) (signatures : SignatureSet)
    (metadata : List VoterMetadata) (value : α) : Prop :=
  ∃ voter, Reported signatures metadata voter ∧ pick voter = some value

/-- The highest of what was seen, if anything was. -/
def Highest {α : Type} (rank : α → U64) (Seen : α → Prop) : Option α → Prop
  | some best => Seen best ∧ ∀ other, Seen other → rank other ≤ rank best
  | none => ∀ other, ¬ Seen other

theorem mem_picked {α : Type} {pick : VoterMetadata → Option α} {value : α} :
    value ∈ (signedMetadata signatures metadata).filterMap pick ↔
      ReportedAs pick signatures metadata value := by
  simp only [mem_filterMap, mem_signedMetadata, ReportedAs]

theorem max_rank_iff {α : Type} {rank : α → U64} {seen : List α} {best : α} (inside : best ∈ seen) :
    (seen.map rank).max? = some (rank best) ↔ ∀ other ∈ seen, rank other ≤ rank best := by
  rw [List.max?_eq_some_iff]
  constructor
  · rintro ⟨_, above⟩ other seen
    exact above _ (mem_map_of_mem seen)
  · intro above
    refine ⟨mem_map_of_mem inside, fun value listed => ?_⟩
    obtain ⟨other, seen, rfl⟩ := mem_map.mp listed
    exact above other seen

theorem max_rank_le_iff {α : Type} {rank : α → U64} {seen : List α} {bound : U64} :
    (seen.map rank).max?.all (· ≤ bound) = true ↔ ∀ other ∈ seen, rank other ≤ bound := by
  rw [Option.all_eq_true]
  simp only [decide_eq_true_eq]
  constructor
  · intro bounded other inside
    cases found : (seen.map rank).max? with
    | none =>
      rw [List.max?_eq_none_iff, map_eq_nil_iff] at found
      simp [found] at inside
    | some value =>
      have below := (List.max?_eq_some_iff.mp found).2 _ (mem_map_of_mem inside)
      exact le_trans below (bounded value found)
  · intro bounded value found
    obtain ⟨other, inside, rfl⟩ := mem_map.mp (List.max?_eq_some_iff.mp found).1
    exact bounded other inside

theorem summaryIsSigned_iff {α : Type} [DecidableEq α] {pick : VoterMetadata → Option α}
    {viewOf : α → ViewNumber} {high : Option α} :
    summaryIsSigned pick viewOf (signedMetadata signatures metadata) high = true ↔
      Highest viewOf (ReportedAs pick signatures metadata) high := by
  cases high with
  | none =>
    rw [summaryIsSigned, Option.isNone_iff_eq_none, List.max?_eq_none_iff, map_eq_nil_iff,
      eq_nil_iff_forall_not_mem]
    simp only [mem_picked, Highest]
  | some high =>
    have listed : ((signedMetadata signatures metadata).any fun voter => pick voter = some high) =
        true ↔ high ∈ (signedMetadata signatures metadata).filterMap pick := by
      simp only [any_eq_true, decide_eq_true_eq, mem_filterMap]
    rw [summaryIsSigned, Bool.and_eq_true, decide_eq_true_eq, listed, Highest, ← mem_picked]
    constructor
    · rintro ⟨highest, inside⟩
      refine ⟨inside, fun other reported => ?_⟩
      exact (max_rank_iff inside).mp highest other (mem_picked.mpr reported)
    · rintro ⟨inside, above⟩
      refine ⟨(max_rank_iff inside).mpr fun other listed => ?_, inside⟩
      exact above other (mem_picked.mp listed)

/-- What the summaries of an accepted certificate say about its signers. -/
structure Faithful (tc : TimeoutCertificate) : Prop where
  tip : Highest Prod.snd (ReportedAs Prod.fst tc.signatures tc.voterMetadata)
    (tc.highTip.map TipInfo.summary)
  timely : ∀ tip, ReportedAs Prod.fst tc.signatures tc.voterMetadata tip → tip.2 ≤ tc.view
  qc : Highest Prod.fst (ReportedAs Prod.snd tc.signatures tc.voterMetadata)
    (tc.highQc.map PhaseCertificate.summary)
  winner : tc.highTipIsWinner = highTipWins tc.highTip tc.highQc

theorem summariesAreSigned_iff {tc : TimeoutCertificate} :
    tc.summariesAreSigned = true ↔ Faithful tc := by
  simp only [TimeoutCertificate.summariesAreSigned, Bool.and_eq_true, summaryIsSigned_iff,
    max_rank_le_iff, mem_picked, beq_iff_eq]
  constructor
  · rintro ⟨⟨⟨timely, tip⟩, qc⟩, winner⟩
    exact ⟨tip, timely, qc, winner.symm⟩
  · rintro ⟨tip, timely, qc, winner⟩
    exact ⟨⟨⟨timely, tip⟩, qc⟩, winner.symm⟩

end Summaries

end TorusHyperBft.HotStuff
