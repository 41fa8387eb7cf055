import TorusHyperBft.HotStuff.Certificate

namespace TorusHyperBft.HotStuff

open Epoch (PubKey ValidatorSet ValidatorSetUpdates)

/-! The block tree of a replica, and the check of a phase certificate against it. -/

structure Block where
  height : BlockHeight
  hash : CryptoHash
  justify : PhaseCertificate
  dataHash : CryptoHash
deriving DecidableEq

/-- Whether the updates of a block have been applied to the committed validator set. -/
inductive ValidatorSetUpdatesStatus where
  | none
  | pending (updates : ValidatorSetUpdates)
  | committed

def ValidatorSetUpdatesStatus.containsUpdates : ValidatorSetUpdatesStatus → Bool
  | .none => false
  | .pending _ => true
  | .committed => true

structure ValidatorSetState where
  committedValidatorSet : ValidatorSet
  previousValidatorSet : ValidatorSet
  updateHeight : Option BlockHeight
  updateDecided : Bool
  updateView : Option ViewNumber

inductive BlockTreeError where
  | blockExpectedButNotFound (block : CryptoHash)
  | blockJustifyExpectedButNotFound (block : CryptoHash)
  | childrenExpectedButNotFound (block : CryptoHash)
  -- The walk comes back to a block it has been at, so the source never returns.
  | endless
deriving DecidableEq

structure BlockTree where
  blocks : AList fun _ : CryptoHash => Block := ∅
  updatesStatus : AList fun _ : CryptoHash => ValidatorSetUpdatesStatus := ∅
  childrenLists : AList fun _ : CryptoHash => List CryptoHash := ∅
  blockAtHeight : AList fun _ : BlockHeight => CryptoHash := ∅
  lockedPc : PhaseCertificate := .genesisPc
  highestPc : PhaseCertificate := .genesisPc
  highestCommittedBlock : Option CryptoHash := none
  validatorSetState : ValidatorSetState

namespace BlockTree

def blockHeight (tree : BlockTree) (block : CryptoHash) : Option BlockHeight :=
  (tree.blocks.lookup block).map Block.height

def blockJustify (tree : BlockTree) (block : CryptoHash) : Except BlockTreeError PhaseCertificate :=
  match tree.blocks.lookup block with
  | some found => .ok found.justify
  | none => .error (.blockJustifyExpectedButNotFound block)

def validatorSetUpdatesStatus (tree : BlockTree) (block : CryptoHash) : ValidatorSetUpdatesStatus :=
  (tree.updatesStatus.lookup block).getD .none

def highestCommittedBlockHeight (tree : BlockTree) : Option BlockHeight :=
  tree.highestCommittedBlock.bind tree.blockHeight

def committedValidatorSet (tree : BlockTree) : ValidatorSet :=
  tree.validatorSetState.committedValidatorSet

/-- Whether the ancestors that a justify leads to are in the tree, above the committed height and
without updates, back to the highest committed block. -/
def extendsWithoutUpdates (tree : BlockTree) : Nat → PhaseCertificate → Except BlockTreeError Bool
  | 0, _ => .error .endless
  | steps + 1, justify =>
    if justify.isGenesisPc then .ok tree.highestCommittedBlock.isNone
    else if some justify.block = tree.highestCommittedBlock then .ok true
    else
      match tree.blockHeight justify.block with
      | none => .ok false
      | some height =>
        if tree.highestCommittedBlockHeight.any (height ≤ ·) ||
            (tree.validatorSetUpdatesStatus justify.block).containsUpdates then .ok false
        else do
          let justify ← tree.blockJustify justify.block
          tree.extendsWithoutUpdates steps justify

def extendsCommittedBlockWithoutUpdates (tree : BlockTree) (block : CryptoHash) :
    Except BlockTreeError Bool := do
  let justify ← tree.blockJustify block
  tree.extendsWithoutUpdates (tree.blocks.entries.length + 1) justify

end BlockTree

inductive PendingUpdateDecide where
  | correct
  | noOldSetEvidence
  | incorrect
deriving DecidableEq

namespace PhaseCertificate

variable (verify : PubKey → List Byte → SignatureBytes → Bool)

def oldPower (pc : PhaseCertificate) (signedBy committed : ValidatorSet) : Nat :=
  ((Tally.signedKeys pc.signatures signedBy.validators).map fun signer =>
    (committed.power signer).getD 0).sum

def faultBound (set : ValidatorSet) : Nat := set.totalPower - set.quorum

def checkDecideOnPendingUpdate (pc : PhaseCertificate) (tree : BlockTree)
    (committed : ValidatorSet) (updates : ValidatorSetUpdates) :
    Except BlockTreeError PendingUpdateDecide := do
  if !(← tree.extendsCommittedBlockWithoutUpdates pc.block) then return .incorrect
  let postUpdate := committed.applyUpdates updates
  if !pc.isCorrectlySigned verify postUpdate then return .incorrect
  return if faultBound committed < pc.oldPower postUpdate committed then .correct
    else .noOldSetEvidence

def isCorrectDecideOnPendingUpdate (pc : PhaseCertificate) (tree : BlockTree)
    (committed : ValidatorSet) (updates : ValidatorSetUpdates) : Except BlockTreeError Bool := do
  let outcome ← pc.checkDecideOnPendingUpdate verify tree committed updates
  return outcome = .correct

/-- The check of a certificate on a block above the latest committed update. -/
def isCorrectAboveLatestUpdate (pc : PhaseCertificate) (tree : BlockTree) :
    Except BlockTreeError Bool :=
  if pc.phase = .decide then
    match tree.validatorSetUpdatesStatus pc.block with
    | .pending updates =>
      pc.isCorrectDecideOnPendingUpdate verify tree tree.committedValidatorSet updates
    | _ => .ok (pc.isCorrectlySigned verify tree.committedValidatorSet)
  else .ok (pc.isCorrectlySigned verify tree.committedValidatorSet)

def isCorrect (pc : PhaseCertificate) (chainId : ChainId) (tree : BlockTree) :
    Except BlockTreeError Bool :=
  let state := tree.validatorSetState
  if pc.isGenesisPc then .ok true
  else if pc.chainId ≠ chainId then .ok false
  else
    match tree.blockHeight pc.block, state.updateHeight with
    | none, _ => .ok (pc.isCorrectlySigned verify state.committedValidatorSet)
    | some _, none => pc.isCorrectAboveLatestUpdate verify tree
    | some height, some updateHeight =>
      if height < updateHeight then .ok (pc.isCorrectlySigned verify state.previousValidatorSet)
      else if updateHeight < height then pc.isCorrectAboveLatestUpdate verify tree
      else
        match pc.phase, tree.validatorSetUpdatesStatus pc.block with
        | .decide, .committed => .ok (pc.isCorrectlySigned verify state.committedValidatorSet)
        | .decide, .pending updates =>
          pc.isCorrectDecideOnPendingUpdate verify tree state.committedValidatorSet updates
        | .decide, .none => .ok false
        | .generic, _ => .ok false
        | _, .committed => .ok (pc.isCorrectlySigned verify state.previousValidatorSet)
        | _, .pending _ => .ok (pc.isCorrectlySigned verify state.committedValidatorSet)
        | _, .none => .ok false

end PhaseCertificate

end TorusHyperBft.HotStuff
