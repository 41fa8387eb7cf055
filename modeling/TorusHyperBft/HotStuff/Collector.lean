import TorusHyperBft.HotStuff.Certificate

namespace TorusHyperBft.HotStuff

open Epoch (PubKey ValidatorSet)

/-! The collectors that make certificates of votes. -/

structure PhaseVote where
  chainId : ChainId
  view : ViewNumber
  block : CryptoHash
  phase : Phase
  signature : SignatureBytes
deriving DecidableEq

def PhaseVote.messageBytes (vote : PhaseVote) : List Byte :=
  phaseVoteBytes vote.chainId vote.view vote.block vote.phase

structure TimeoutVote where
  chainId : ChainId
  view : ViewNumber
  signature : SignatureBytes
  highestTc : Option TimeoutCertificate
  localTip : Option TipInfo
  highestQc : Option PhaseCertificate
deriving DecidableEq

namespace TimeoutVote

def signedSummaries (vote : TimeoutVote) : VoterMetadata :=
  (vote.localTip.map TipInfo.summary, vote.highestQc.map PhaseCertificate.summary)

def messageBytes (vote : TimeoutVote) : List Byte :=
  timeoutVoteBytes vote.chainId vote.view vote.signedSummaries.1 vote.signedSummaries.2

end TimeoutVote

section Correct

variable (verify : PubKey → List Byte → SignatureBytes → Bool)

def PhaseVote.isCorrect (vote : PhaseVote) (signer : PubKey) : Bool :=
  verify signer vote.messageBytes vote.signature

def TimeoutVote.isCorrect (vote : TimeoutVote) (signer : PubKey) : Bool :=
  verify signer vote.messageBytes vote.signature

/-- What a replica checks of a timeout vote before it collects it. How it judges the QC and the
header of the tip depends on its block tree. -/
def TimeoutVote.voteOk (qcOk : PhaseCertificate → Bool) (tipOk : TipInfo → Bool)
    (vote : TimeoutVote) (origin : PubKey) : Bool :=
  vote.isCorrect verify origin && vote.highestQc.all qcOk &&
    vote.localTip.all fun tip => tip.view ≤ vote.view && tipOk tip

end Correct

def SignatureSet.vacant (signatures : SignatureSet) (place : Nat) : Bool :=
  (signatures[place]?).join.isNone

structure PhaseVoteCollector where
  chainId : ChainId
  view : ViewNumber
  validatorSet : ValidatorSet
  signatureSets : AList fun _ : CryptoHash × Phase => SignatureSet × Nat := ∅

namespace PhaseVoteCollector

def new (chainId : ChainId) (view : ViewNumber) (set : ValidatorSet) : PhaseVoteCollector :=
  { chainId := chainId, view := view, validatorSet := set }

def signatureSet (collector : PhaseVoteCollector) (key : CryptoHash × Phase) : SignatureSet × Nat :=
  (collector.signatureSets.lookup key).getD
    (SignatureSet.new collector.validatorSet.validators.length, 0)

def collect (collector : PhaseVoteCollector) (input : PubKey × PhaseVote) :
    PhaseVoteCollector × Option PhaseCertificate :=
  let (signer, vote) := input
  if collector.chainId ≠ vote.chainId ∨ collector.view ≠ vote.view then (collector, none)
  else
    match collector.validatorSet.position signer with
    | none => (collector, none)
    | some place =>
      let key := (vote.block, vote.phase)
      let (signatures, power) := collector.signatureSet key
      if signatures.vacant place then
        let signatures := signatures.set place (some vote.signature)
        let power := power + (collector.validatorSet.power signer).getD 0
        if collector.validatorSet.quorum ≤ power then
          ({ collector with signatureSets := collector.signatureSets.erase key },
            some
              { chainId := collector.chainId
                view := collector.view
                block := vote.block
                phase := vote.phase
                signatures := signatures })
        else
          ({ collector with
              signatureSets := collector.signatureSets.insert key (signatures, power) }, none)
      else (collector, none)

end PhaseVoteCollector

structure TimeoutVoteCollector where
  chainId : ChainId
  view : ViewNumber
  validatorSet : ValidatorSet
  signatureSetPower : Nat
  signatureSet : SignatureSet
  highTip : Option TipInfo
  highQc : Option PhaseCertificate
  voterMetadata : List VoterMetadata

namespace TimeoutVoteCollector

def new (chainId : ChainId) (view : ViewNumber) (set : ValidatorSet) : TimeoutVoteCollector :=
  { chainId := chainId
    view := view
    validatorSet := set
    signatureSetPower := 0
    signatureSet := SignatureSet.new set.validators.length
    highTip := none
    highQc := none
    voterMetadata := List.replicate set.validators.length (none, none) }

def higher {α : Type} (viewOf : α → ViewNumber) : Option α → Option α → Option α
  | high, none => high
  | none, some value => some value
  | some high, some value => if viewOf high < viewOf value then some value else some high

def take (collector : TimeoutVoteCollector) (place : Nat) (signer : PubKey) (vote : TimeoutVote) :
    TimeoutVoteCollector :=
  { collector with
    signatureSet := collector.signatureSet.set place (some vote.signature)
    signatureSetPower :=
      collector.signatureSetPower + (collector.validatorSet.power signer).getD 0
    voterMetadata := collector.voterMetadata.set place vote.signedSummaries
    highTip := higher TipInfo.view collector.highTip vote.localTip
    highQc := higher PhaseCertificate.view collector.highQc vote.highestQc }

def certificate (collector : TimeoutVoteCollector) : TimeoutCertificate :=
  { chainId := collector.chainId
    view := collector.view
    signatures := collector.signatureSet
    highTip := collector.highTip
    highQc := collector.highQc
    highTipIsWinner := highTipWins collector.highTip collector.highQc
    voterMetadata := collector.voterMetadata }

def collect (collector : TimeoutVoteCollector) (input : PubKey × TimeoutVote) :
    TimeoutVoteCollector × Option TimeoutCertificate :=
  let (signer, vote) := input
  if collector.chainId ≠ vote.chainId ∨ collector.view ≠ vote.view then (collector, none)
  else
    match collector.validatorSet.position signer with
    | none => (collector, none)
    | some place =>
      if collector.signatureSet.vacant place then
        let collector := collector.take place signer vote
        if collector.validatorSet.quorum ≤ collector.signatureSetPower then
          (collector, some collector.certificate)
        else (collector, none)
      else (collector, none)

end TimeoutVoteCollector

structure NeCollector where
  chainId : ChainId
  view : ViewNumber
  highTipQcView : ViewNumber
  validatorSet : ValidatorSet
  signatureSet : SignatureSet
  signatureSetPower : Nat
  voters : Finset PubKey := ∅

inductive NeInput where
  | registerVoter (voter : PubKey)
  | collect (signer : PubKey) (view highTipQcView : ViewNumber) (signature : SignatureBytes)
deriving DecidableEq

namespace NeCollector

def new (chainId : ChainId) (view highTipQcView : ViewNumber) (set : ValidatorSet) : NeCollector :=
  { chainId := chainId
    view := view
    highTipQcView := highTipQcView
    validatorSet := set
    signatureSet := SignatureSet.new set.validators.length
    signatureSetPower := 0 }

def registerVoter (collector : NeCollector) (voter : PubKey) : NeCollector :=
  { collector with voters := insert voter collector.voters }

section

variable (verify : PubKey → List Byte → SignatureBytes → Bool)

def collect (collector : NeCollector) (signer : PubKey) (view highTipQcView : ViewNumber)
    (signature : SignatureBytes) : NeCollector × Option NoEndorsementCertificate :=
  if view ≠ collector.view ∨ highTipQcView ≠ collector.highTipQcView then (collector, none)
  else if signer ∈ collector.voters then (collector, none)
  else
    match collector.validatorSet.position signer with
    | none => (collector, none)
    | some place =>
      if !collector.signatureSet.vacant place then (collector, none)
      else if !verify signer (noEndorsementBytes collector.chainId view highTipQcView) signature then
        (collector, none)
      else
        let collector := { collector with
          signatureSet := collector.signatureSet.set place (some signature)
          signatureSetPower :=
            collector.signatureSetPower + (collector.validatorSet.power signer).getD 0 }
        if collector.validatorSet.quorum ≤ collector.signatureSetPower then
          (collector, some
            { view := collector.view
              highTipQcView := collector.highTipQcView
              signatures := collector.signatureSet })
        else (collector, none)

def step (collector : NeCollector) : NeInput → NeCollector × Option NoEndorsementCertificate
  | .registerVoter voter => (collector.registerVoter voter, none)
  | .collect signer view highTipQcView signature =>
    collector.collect verify signer view highTipQcView signature

end

end NeCollector

end TorusHyperBft.HotStuff
