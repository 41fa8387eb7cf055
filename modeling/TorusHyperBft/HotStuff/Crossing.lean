import TorusHyperBft.HotStuff.BlockTree
import TorusHyperBft.HotStuff.Collected

namespace TorusHyperBft.HotStuff

open List PhaseCertificate
open Epoch (PubKey ValidatorSet ValidatorSetUpdates)

/-! Crossing an update of the validator set: what an accepted Decide certificate on a block whose
updates are still pending shows. -/

/-- A justify leads back to the highest committed block, or to genesis if nothing is committed,
only through blocks of the tree that update nothing. -/
inductive BlockTree.Descends (tree : BlockTree) : PhaseCertificate → Prop
  | genesis (nothing : tree.highestCommittedBlock = none) : tree.Descends .genesisPc
  | committed {justify : PhaseCertificate}
      (found : tree.highestCommittedBlock = some justify.block) : tree.Descends justify
  | through {justify : PhaseCertificate} {block : Block}
      (found : tree.blocks.lookup justify.block = some block)
      (plain : (tree.validatorSetUpdatesStatus justify.block).containsUpdates = false)
      (rest : tree.Descends block.justify) : tree.Descends justify

theorem BlockTree.extendsWithoutUpdates_descends {tree : BlockTree} {steps : Nat}
    {justify : PhaseCertificate} (walked : tree.extendsWithoutUpdates steps justify = .ok true) :
    tree.Descends justify := by
  induction steps generalizing justify with
  | zero => cases walked
  | succ steps ih =>
    rw [extendsWithoutUpdates] at walked
    split at walked
    · rename_i genesis
      have same : justify = .genesisPc := by simpa [PhaseCertificate.isGenesisPc] using genesis
      rw [same]
      exact .genesis (by simpa using walked)
    · split at walked
      · rename_i committed
        exact .committed committed.symm
      · split at walked
        · cases walked
        · split at walked
          · cases walked
          · rename_i plain
            cases found : tree.blocks.lookup justify.block with
            | none =>
              rw [blockJustify, found] at walked
              cases walked
            | some block =>
              rw [blockJustify, found] at walked
              rw [Bool.not_eq_true, Bool.or_eq_false_iff] at plain
              exact .through found plain.2 (ih walked)

section Faulty

variable {verify : PubKey → List Byte → SignatureBytes → Bool} {set : ValidatorSet}

def faultyPower (set : ValidatorSet) (faulty : PubKey → Bool) : Nat :=
  ((set.validatorsAndPowers.filter fun member => faulty member.1).map Prod.snd).sum

theorem faultyPower_eq (faulty : PubKey → Bool) : faultyPower set faulty =
    ∑ key ∈ (set.validators.filter faulty).toFinset, (set.power key).getD 0 := by
  rw [sum_toFinset _ (set.validators_nodup.filter _), faultyPower, ValidatorSet.validators,
    filter_map, map_map]
  apply congrArg
  apply map_congr_left
  intro member inside
  have known := ValidatorSet.mem_validatorsAndPowers.mp (mem_of_mem_filter inside)
  rw [Function.comp_apply, known, Option.getD_some]

theorem PhaseCertificate.honest_signer {pc : PhaseCertificate} {signedBy : ValidatorSet}
    {faulty : PubKey → Bool} (signed : pc.isCorrectlySigned verify signedBy = true)
    (more : faultyPower set faulty < pc.oldPower signedBy set) :
    ∃ (key : PubKey) (signature : SignatureBytes), set.contains key = true ∧ faulty key = false ∧
      verify key (phaseVoteBytes pc.chainId pc.view pc.block pc.phase) signature = true := by
  have distinct : (Tally.signedKeys pc.signatures signedBy.validators).Nodup :=
    Tally.signedKeys_sublist.nodup signedBy.validators_nodup
  rw [faultyPower_eq] at more
  obtain ⟨key, listed, heavy, outside⟩ := Tally.exists_outside distinct more
  obtain ⟨place, signature, filled, named⟩ := Tally.mem_signedKeys listed
  have member : ∃ power, set.power key = some power := by
    cases found : set.power key with
    | none => simp [found] at heavy
    | some power => exact ⟨power, rfl⟩
  obtain ⟨power, known⟩ := member
  have inside : key ∈ set.validators :=
    mem_map_of_mem (ValidatorSet.mem_validatorsAndPowers.mpr known)
  have honest : faulty key = false := by
    by_contra faulted
    rw [Bool.not_eq_false] at faulted
    exact outside (mem_toFinset.mpr (mem_filter.mpr ⟨inside, faulted⟩))
  refine ⟨key, signature, ?_, honest, ?_⟩
  · obtain ⟨value, found, _⟩ := Option.map_eq_some_iff.mp known
    rw [ValidatorSet.contains, found, Option.isSome_some]
  · simp only [isCorrectlySigned, Bool.and_eq_true, signedByQuorum_iff] at signed
    rw [ValidatorSet.validators, List.getElem?_map, Option.map_eq_some_iff] at named
    obtain ⟨member, found, rfl⟩ := named
    exact signed.2.1 place signature member filled found

end Faulty

section Pending

variable {verify : PubKey → List Byte → SignatureBytes → Bool} {chainId : ChainId}
  {tree : BlockTree} {pc : PhaseCertificate} {updates : ValidatorSetUpdates} {height : BlockHeight}

theorem PhaseCertificate.checkDecideOnPendingUpdate_iff {committed : ValidatorSet} :
    pc.checkDecideOnPendingUpdate verify tree committed updates = .ok .correct ↔
      tree.extendsCommittedBlockWithoutUpdates pc.block = .ok true ∧
      pc.isCorrectlySigned verify (committed.applyUpdates updates) = true ∧
      faultBound committed < pc.oldPower (committed.applyUpdates updates) committed := by
  rw [checkDecideOnPendingUpdate]
  cases tree.extendsCommittedBlockWithoutUpdates pc.block with
  | error error => simp [bind, Except.bind]
  | ok walked =>
    cases walked with
    | false => simp [bind, Except.bind, pure, Except.pure]
    | true =>
      cases signed : pc.isCorrectlySigned verify (committed.applyUpdates updates) with
      | false => simp [bind, Except.bind, pure, Except.pure, signed]
      | true => simp [bind, Except.bind, pure, Except.pure, signed]

theorem PhaseCertificate.isCorrectDecideOnPendingUpdate_iff {committed : ValidatorSet} :
    pc.isCorrectDecideOnPendingUpdate verify tree committed updates = .ok true ↔
      pc.checkDecideOnPendingUpdate verify tree committed updates = .ok .correct := by
  rw [isCorrectDecideOnPendingUpdate]
  cases pc.checkDecideOnPendingUpdate verify tree committed updates with
  | error error => simp [bind, Except.bind]
  | ok outcome => simp [bind, Except.bind, pure, Except.pure]

theorem PhaseCertificate.isCorrect_pending (accepted : pc.isCorrect verify chainId tree = .ok true)
    (decided : pc.phase = .decide) (found : tree.blockHeight pc.block = some height)
    (pending : tree.validatorSetUpdatesStatus pc.block = .pending updates)
    (above : ∀ updateHeight, tree.validatorSetState.updateHeight = some updateHeight →
      updateHeight ≤ height) :
    pc.checkDecideOnPendingUpdate verify tree tree.committedValidatorSet updates = .ok .correct ∧
      pc.chainId = chainId := by
  have special : pc.isGenesisPc = false := by
    rw [isGenesisPc, decide_eq_false_iff_not]
    rintro rfl
    cases decided
  have reaches : pc.isCorrectAboveLatestUpdate verify tree =
      pc.isCorrectDecideOnPendingUpdate verify tree tree.committedValidatorSet updates := by
    simp only [isCorrectAboveLatestUpdate, decided, pending, if_true]
  simp only [isCorrect, special, found, decided, pending, reaches, Bool.false_eq_true,
    if_false] at accepted
  split at accepted
  · cases accepted
  · rename_i chains
    refine ⟨?_, not_ne_iff.mp chains⟩
    apply isCorrectDecideOnPendingUpdate_iff.mp
    cases latest : tree.validatorSetState.updateHeight with
    | none =>
      simp only [latest] at accepted
      exact accepted
    | some updateHeight =>
      simp only [latest, not_lt_of_ge (above updateHeight latest), if_false] at accepted
      split at accepted
      · exact accepted
      · exact accepted

end Pending

/-- A replica whose committed set is `set` accepts a Decide certificate on a block of its tree
whose updates are pending, no lower than the latest committed update. -/
structure AcceptsPending (verify : PubKey → List Byte → SignatureBytes → Bool) (chainId : ChainId)
    (set : ValidatorSet) (tree : BlockTree) (pc : PhaseCertificate)
    (updates : ValidatorSetUpdates) : Prop where
  members : tree.committedValidatorSet = set
  accepted : pc.isCorrect verify chainId tree = .ok true
  decided : pc.phase = .decide
  pending : tree.validatorSetUpdatesStatus pc.block = .pending updates
  above : ∃ height, tree.blockHeight pc.block = some height ∧
    ∀ updateHeight, tree.validatorSetState.updateHeight = some updateHeight → updateHeight ≤ height

/-- The walk, the quorum of the updated set, and the honest old member. -/
structure Crossed (verify : PubKey → List Byte → SignatureBytes → Bool)
    (Signed : PubKey → List Byte → Prop) (faulty : PubKey → Bool) (chainId : ChainId)
    (set : ValidatorSet) (tree : BlockTree) (pc : PhaseCertificate)
    (updates : ValidatorSetUpdates) : Prop where
  descends : ∃ block, tree.blocks.lookup pc.block = some block ∧ tree.Descends block.justify
  authentic : Authentic verify (fun _ => phaseVoteBytes pc.chainId pc.view pc.block pc.phase)
    pc.signatures (set.applyUpdates updates)
  quorum : (set.applyUpdates updates).quorum ≤ signers pc.signatures (set.applyUpdates updates)
  honest : ∃ key, set.contains key = true ∧ faulty key = false ∧
    Signed key (phaseVoteBytes chainId pc.view pc.block .decide)

theorem AcceptsPending.crossed {verify : PubKey → List Byte → SignatureBytes → Bool}
    {Signed : PubKey → List Byte → Prop} {faulty : PubKey → Bool} {chainId : ChainId}
    {set : ValidatorSet} {tree : BlockTree} {pc : PhaseCertificate} {updates : ValidatorSetUpdates}
    (unforgeable : ∀ key message signature, faulty key = false →
      verify key message signature = true → Signed key message)
    (bounded : faultyPower set faulty ≤ set.totalPower - set.quorum)
    (accepts : AcceptsPending verify chainId set tree pc updates) :
    Crossed verify Signed faulty chainId set tree pc updates := by
  obtain ⟨height, found, above⟩ := accepts.above
  obtain ⟨correct, chains⟩ := isCorrect_pending accepts.accepted accepts.decided
    found accepts.pending above
  obtain ⟨walked, signed, evidence⟩ := checkDecideOnPendingUpdate_iff.mp correct
  rw [accepts.members] at signed evidence
  have quorum := signed
  simp only [PhaseCertificate.isCorrectlySigned, Bool.and_eq_true, signedByQuorum_iff] at quorum
  refine ⟨?_, quorum.2.1, quorum.2.2, ?_⟩
  · rw [BlockTree.extendsCommittedBlockWithoutUpdates] at walked
    cases listed : tree.blocks.lookup pc.block with
    | none =>
      rw [BlockTree.blockJustify, listed] at walked
      cases walked
    | some block =>
      rw [BlockTree.blockJustify, listed] at walked
      exact ⟨block, rfl, BlockTree.extendsWithoutUpdates_descends walked⟩
  · have more : faultyPower set faulty < pc.oldPower (set.applyUpdates updates) set := by
      simp only [PhaseCertificate.faultBound] at evidence
      omega
    obtain ⟨key, signature, inside, honest, verified⟩ :=
      honest_signer signed more
    rw [chains, accepts.decided] at verified
    exact ⟨key, inside, honest, unforgeable key _ signature honest verified⟩

/-- Crossing an update needs an honest member of the old set, so if honest replicas sign Decide
only for blocks they have committed and never commit conflicting blocks, conflicting updates are
not both crossed. -/
theorem decide_on_pending_update (verify : PubKey → List Byte → SignatureBytes → Bool)
    (Signed : PubKey → List Byte → Prop) (faulty : PubKey → Bool) (chainId : ChainId)
    (set : ValidatorSet)
    (unforgeable : ∀ key message signature, faulty key = false →
      verify key message signature = true → Signed key message)
    (bounded : faultyPower set faulty ≤ set.totalPower - set.quorum) :
    (∀ tree pc updates, AcceptsPending verify chainId set tree pc updates →
      Crossed verify Signed faulty chainId set tree pc updates) ∧
    ∀ (Commits : PubKey → CryptoHash → Prop) (Conflict : CryptoHash → CryptoHash → Prop),
      (∀ key view block, faulty key = false →
        Signed key (phaseVoteBytes chainId view block .decide) → Commits key block) →
      (∀ key other block another, faulty key = false → faulty other = false →
        Commits key block → Commits other another → ¬ Conflict block another) →
      ∀ tree pc updates otherTree otherPc otherUpdates,
        AcceptsPending verify chainId set tree pc updates →
        AcceptsPending verify chainId set otherTree otherPc otherUpdates →
          ¬ Conflict pc.block otherPc.block := by
  refine ⟨fun tree pc updates accepts => accepts.crossed unforgeable bounded, ?_⟩
  intro Commits Conflict votes agree tree pc updates otherTree otherPc otherUpdates one other
  have crossed : Crossed verify Signed faulty chainId set tree pc updates :=
    one.crossed unforgeable bounded
  have otherCrossed : Crossed verify Signed faulty chainId set otherTree otherPc otherUpdates :=
    other.crossed unforgeable bounded
  obtain ⟨key, _, honest, signed⟩ := crossed.honest
  obtain ⟨otherKey, _, otherHonest, otherSigned⟩ := otherCrossed.honest
  exact agree key otherKey pc.block otherPc.block honest otherHonest (votes key _ _ honest signed)
    (votes otherKey _ _ otherHonest otherSigned)

section Joining

/-! One validator, and an update that lets another one join. -/

def oneMember : ValidatorSet := { powers := AList.singleton 5 1 }

def joining : ValidatorSetUpdates := { inserts := AList.singleton 2 1 }

def joiningBlock (height : BlockHeight) (justify : PhaseCertificate) : Block :=
  { height := height
    hash := 20
    justify := justify
    dataHash := 0 }

def joiningDecide (keys : List PubKey) : PhaseCertificate :=
  { chainId := 1
    view := 6
    block := 20
    phase := .decide
    signatures := keys.map fun key => some (markOf key (phaseVoteBytes 1 6 20 .decide)) }

def joiningTree : BlockTree :=
  { blocks := AList.singleton 20 (joiningBlock 0 .genesisPc)
    updatesStatus := AList.singleton 20 (.pending joining)
    childrenLists := AList.singleton 0 [20]
    validatorSetState :=
      { committedValidatorSet := oneMember
        previousValidatorSet := {}
        updateHeight := none
        updateDecided := true
        updateView := none } }

theorem oneMember_powers : oneMember.validatorsAndPowers = [(5, 1)] := by
  simp [ValidatorSet.validatorsAndPowers, oneMember, AList.singleton]

theorem joined_powers : (oneMember.applyUpdates joining).validatorsAndPowers =
    [(2, 1), (5, 1)] := by
  have rows : (oneMember.applyUpdates joining).powers.entries.map
      (fun row => (row.1, row.2.val)) = [((2 : PubKey), 1), (5, 1)] := by decide
  rw [ValidatorSet.validatorsAndPowers, rows]
  apply mergeSort_of_pairwise
  decide

theorem joiningDecide_accepted :
    (joiningDecide [2, 5]).isCorrect marked 1 joiningTree = .ok true := by
  have signed : (joiningDecide [2, 5]).isCorrectlySigned marked
      (oneMember.applyUpdates joining) = true := by
    simp only [PhaseCertificate.isCorrectlySigned, signedByQuorum, ValidatorSet.validators,
      joined_powers]
    decide +kernel
  have evidence : PhaseCertificate.faultBound oneMember <
      (joiningDecide [2, 5]).oldPower (oneMember.applyUpdates joining) oneMember := by
    simp only [PhaseCertificate.oldPower, ValidatorSet.validators, joined_powers]
    decide +kernel
  have walked : joiningTree.extendsCommittedBlockWithoutUpdates 20 = .ok true := by decide +kernel
  have correct : (joiningDecide [2, 5]).isCorrectDecideOnPendingUpdate marked joiningTree oneMember
      joining = .ok true :=
    isCorrectDecideOnPendingUpdate_iff.mpr
      (checkDecideOnPendingUpdate_iff.mpr ⟨walked, signed, evidence⟩)
  exact correct

/-- The joining validator is faulty, but the old member is not. -/
theorem decide_on_pending_update_joining :
    AcceptsPending marked 1 oneMember joiningTree (joiningDecide [2, 5]) joining ∧
    Crossed marked (fun key message => ∃ signature, marked key message signature = true) (· = 2) 1
      oneMember joiningTree (joiningDecide [2, 5]) joining := by
  have accepts : AcceptsPending marked 1 oneMember joiningTree (joiningDecide [2, 5]) joining :=
    { members := rfl
      accepted := joiningDecide_accepted
      decided := rfl
      pending := rfl
      above := ⟨0, rfl, fun _ latest => by cases latest⟩ }
  have bounded : faultyPower oneMember (· = 2) ≤ oneMember.totalPower - oneMember.quorum := by
    rw [faultyPower, oneMember_powers]
    decide
  obtain ⟨crossed, _⟩ := decide_on_pending_update marked
    (fun key message => ∃ signature, marked key message signature = true) (· = 2) 1 oneMember
    (fun _ _ signature _ verified => ⟨signature, verified⟩) bounded
  exact ⟨accepts, crossed _ _ _ accepts⟩

/-! Below the latest committed update a certificate is checked against the previous set alone. -/

def leftMember : ValidatorSet := { powers := AList.singleton 7 1 }

/-- The updating block at height 5 is committed; its child says it has height 3. -/
def loweredTree : BlockTree :=
  let committed : Block :=
    { height := 5
      hash := 10
      justify := .genesisPc
      dataHash := 0 }
  let justify : PhaseCertificate :=
    { chainId := 1
      view := 4
      block := 10
      phase := .decide
      signatures := [some (markOf 5 (phaseVoteBytes 1 4 10 .decide))] }
  { blocks := (AList.singleton 10 committed).insert 20 (joiningBlock 3 justify)
    updatesStatus := (AList.singleton 10 .committed).insert 20 (.pending joining)
    highestCommittedBlock := some 10
    validatorSetState :=
      { committedValidatorSet := oneMember
        previousValidatorSet := leftMember
        updateHeight := some 5
        updateDecided := true
        updateView := some 3 } }

/-- The previous member alone decides the update of a block below the committed height. -/
theorem decide_below_committed_update :
    (joiningDecide [7]).isCorrect marked 1 loweredTree = .ok true ∧
    loweredTree.committedValidatorSet = oneMember ∧ (joiningDecide [7]).phase = .decide ∧
    loweredTree.blockHeight 20 = some 3 ∧
    loweredTree.validatorSetUpdatesStatus 20 = .pending joining ∧
    (joiningDecide [7]).isCorrectlySigned marked (oneMember.applyUpdates joining) = false ∧
    oneMember.contains 7 = false := by
  have powers : leftMember.validatorsAndPowers = [(7, 1)] := by
    simp [ValidatorSet.validatorsAndPowers, leftMember, AList.singleton]
  have signed : (joiningDecide [7]).isCorrectlySigned marked leftMember = true := by
    simp only [PhaseCertificate.isCorrectlySigned, signedByQuorum, ValidatorSet.validators, powers]
    decide +kernel
  have accepted : (joiningDecide [7]).isCorrect marked 1 loweredTree =
      .ok ((joiningDecide [7]).isCorrectlySigned marked leftMember) := rfl
  refine ⟨by rw [accepted, signed], rfl, rfl, rfl, rfl, ?_, rfl⟩
  simp only [PhaseCertificate.isCorrectlySigned, ValidatorSet.validators, joined_powers]
  rfl

end Joining

end TorusHyperBft.HotStuff
