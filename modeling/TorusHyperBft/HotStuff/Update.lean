import TorusHyperBft.HotStuff.BlockTree

namespace TorusHyperBft.HotStuff

open Epoch (PubKey ValidatorSet ValidatorSetUpdates)

/-! How a block tree changes when a block is inserted or a certificate is seen.

An update reads the tree as it was and collects its writes in a batch, which is modelled by the tree
that the batch leads to. -/

/-- The blocks of a commit, from the lowest to the highest, with the updates of each. -/
abbrev CommittedBlocks := List (CryptoHash × Option ValidatorSetUpdates)

namespace BlockTree

def insert (tree : BlockTree) (block : Block) (updates : Option ValidatorSetUpdates) : BlockTree :=
  let siblings := (tree.childrenLists.lookup block.justify.block).getD []
  { tree with
    blocks := tree.blocks.insert block.hash block
    updatesStatus := match updates with
      | some updates => tree.updatesStatus.insert block.hash (.pending updates)
      | none => tree.updatesStatus
    childrenLists := tree.childrenLists.insert block.justify.block (siblings ++ [block.hash]) }

def pcToLock (tree : BlockTree) (justify : PhaseCertificate) : Option PhaseCertificate :=
  if justify.isGenesisPc then none
  else
    let candidate := match justify.phase with
      | .generic => some justify
      | .prepare => none
      | .precommit => some justify
      | .commit | .decide => if tree.lockedPc.block ≠ justify.block then some justify else none
    candidate.filter fun pc => pc ≠ tree.lockedPc && tree.lockedPc.view < pc.view

def notCommittedYet (tree : BlockTree) (height : BlockHeight) : Bool :=
  tree.highestCommittedBlockHeight.all (· < height)

def blockToCommit (tree : BlockTree) (justify : PhaseCertificate) :
    Except BlockTreeError (Option CryptoHash) :=
  if justify.isGenesisPc then .ok none
  else
    match justify.phase with
    | .generic =>
      match tree.blocks.lookup justify.block with
      | none => .ok none
      | some parent =>
        if parent.justify.isGenesisPc then .ok none
        else
          match tree.blockHeight parent.justify.block with
          | none => .ok none
          | some height =>
            if justify.view = U64.saturatingAdd parent.justify.view 1 &&
                tree.notCommittedYet height then .ok (some parent.justify.block)
            else .ok none
    | .prepare | .precommit => .ok none
    | .commit | .decide =>
      match tree.blockHeight justify.block with
      | none => .error (.blockExpectedButNotFound justify.block)
      | some height =>
        if tree.notCommittedYet height then .ok (some justify.block) else .ok none

def parentOf (tree : BlockTree) (block : CryptoHash) : Option CryptoHash :=
  match tree.blocks.lookup block with
  | some found => if found.justify.isGenesisPc then none else some found.justify.block
  | none => none

def uncommittedFrom (tree : BlockTree) : Nat → CryptoHash → Except BlockTreeError (List CryptoHash)
  | 0, _ => .error .endless
  | steps + 1, block =>
    if tree.highestCommittedBlockHeight.all fun committed =>
        (tree.blockHeight block).any (committed < ·) then
      match tree.parentOf block with
      | none => .ok [block]
      | some parent => do return block :: (← tree.uncommittedFrom steps parent)
    else .ok []

def blocksInBranch (tree : BlockTree) : Nat → List CryptoHash → Except BlockTreeError (List CryptoHash)
  | _, [] => .ok []
  | 0, _ :: _ => .error .endless
  | steps + 1, block :: stack => do
      let children := (tree.childrenLists.lookup block).getD []
      return block :: (← tree.blocksInBranch steps (children.reverse ++ stack))

/-- More blocks than there are entries in the lists of children make a branch endless. -/
def branchSteps (tree : BlockTree) : Nat :=
  (tree.childrenLists.entries.map fun row => row.2.length).sum + 1

def eraseBlock (batch : BlockTree) (block : CryptoHash) : BlockTree :=
  { batch with
    blocks := batch.blocks.erase block
    updatesStatus := batch.updatesStatus.erase block
    childrenLists := batch.childrenLists.erase block }

def deleteBranch (tree batch : BlockTree) (root : CryptoHash) : Except BlockTreeError BlockTree := do
  let branch ← tree.blocksInBranch tree.branchSteps [root]
  return branch.foldl eraseBlock batch

/-- Delete the other children of the parent of a block, with all that extends them. -/
def deleteSiblings (tree batch : BlockTree) (block : CryptoHash) :
    Except BlockTreeError BlockTree := do
  let parent := (← tree.blockJustify block).block
  match tree.childrenLists.lookup parent with
  | none => .error (.childrenExpectedButNotFound parent)
  | some children =>
    let batch ← (children.filter (· ≠ block)).foldlM tree.deleteBranch batch
    return { batch with childrenLists := batch.childrenLists.insert parent [block] }

/-- The updates of a block are applied to the set that was committed before the batch. -/
def commitBlock (tree : BlockTree) (done : BlockTree × CommittedBlocks) (block : CryptoHash) :
    Except BlockTreeError (BlockTree × CommittedBlocks) := do
  let (batch, committed) := done
  match tree.blockHeight block with
  | none => .error (.blockExpectedButNotFound block)
  | some height =>
    let batch := { batch with blockAtHeight := batch.blockAtHeight.insert height block }
    let batch ← tree.deleteSiblings batch block
    match tree.validatorSetUpdatesStatus block with
    | .pending updates =>
      let previous := tree.committedValidatorSet
      return ({ batch with
        updatesStatus := batch.updatesStatus.insert block .committed
        validatorSetState :=
          { batch.validatorSetState with
            committedValidatorSet := previous.applyUpdates updates
            previousValidatorSet := previous
            updateHeight := some height
            updateDecided := false }
        highestCommittedBlock := some block }, committed ++ [(block, some updates)])
    | _ => return ({ batch with highestCommittedBlock := some block }, committed ++ [(block, none)])

/-- Commit a block and its uncommitted ancestors, or nothing if an ancestor is missing. -/
def commit (tree batch : BlockTree) (block : CryptoHash) :
    Except BlockTreeError (BlockTree × CommittedBlocks) := do
  let uncommitted ← tree.uncommittedFrom (tree.blocks.entries.length + 2) block
  match uncommitted.getLast? with
  | none => return (batch, [])
  | some lowest =>
    let justify ← tree.blockJustify lowest
    if justify.isGenesisPc || some justify.block = tree.highestCommittedBlock then
      uncommitted.reverse.foldlM tree.commitBlock (batch, [])
    else return (batch, [])

/-- Split the committed blocks at the latest one that updates the validator set: the block, its
updates, and the blocks above it. -/
def latestUpdate : CommittedBlocks →
    Option (CryptoHash × ValidatorSetUpdates × CommittedBlocks)
  | [] => none
  | (block, updates) :: rest =>
    match latestUpdate rest with
    | some found => some found
    | none => updates.map fun updates => (block, updates, rest)

/-- The view of the certificate on the latest updating block that the commit rests on. -/
def updateViewOf (tree : BlockTree) (committed : CommittedBlocks) (justify : PhaseCertificate) :
    Except BlockTreeError (Option ViewNumber) :=
  match latestUpdate committed with
  | none => .ok none
  | some (_, _, (child, _) :: _) => do return some (← tree.blockJustify child).view
  | some (block, _, []) =>
    if justify.block = block then .ok (some justify.view)
    else do return some (← tree.blockJustify justify.block).view

def setHighestPc (tree batch : BlockTree) (pc : PhaseCertificate) : BlockTree :=
  if tree.highestPc.view < pc.view then { batch with highestPc := pc } else batch

def setLockedPc (tree batch : BlockTree) (justify : PhaseCertificate) : BlockTree :=
  match tree.pcToLock justify with
  | some pc => { batch with lockedPc := pc }
  | none => batch

def setDecided (batch : BlockTree) (pc : PhaseCertificate) : BlockTree :=
  if pc.phase = .decide then
    { batch with validatorSetState := { batch.validatorSetState with updateDecided := true } }
  else batch

/-- Commit what a certificate lets commit, and keep the view of the latest update. -/
def commitUpon (tree batch : BlockTree) (justify : PhaseCertificate) :
    Except BlockTreeError (BlockTree × CommittedBlocks) := do
  match ← tree.blockToCommit justify with
  | none => return (batch, [])
  | some block =>
    let (batch, committed) ← tree.commit batch block
    match ← tree.updateViewOf committed justify with
    | none => return (batch, committed)
    | some view =>
      return ({ batch with
        validatorSetState := { batch.validatorSetState with updateView := some view } },
        committed)

def update (tree : BlockTree) (justify : PhaseCertificate) :
    Except BlockTreeError (BlockTree × CommittedBlocks) := do
  let batch := tree.setLockedPc (tree.setHighestPc tree justify) justify
  let (batch, committed) ← tree.commitUpon batch justify
  return (batch.setDecided justify, committed)

/-- The same without a commit, for a header whose body may still be missing. -/
def updateLocksOnly (tree : BlockTree) (justify : PhaseCertificate) : BlockTree :=
  (tree.setLockedPc (tree.setHighestPc tree justify) justify).setDecided justify

def advanceHighestPcFromRemote (tree : BlockTree) (pc : PhaseCertificate) : BlockTree :=
  (tree.setHighestPc tree pc).setDecided pc

section Commit

variable {tree batch after : BlockTree} {block : CryptoHash} {committed : CommittedBlocks}
  {justify : PhaseCertificate}

def unswept (tree : BlockTree) : ValidatorSetState × PhaseCertificate × PhaseCertificate :=
  (tree.validatorSetState, tree.lockedPc, tree.highestPc)

theorem foldl_eraseBlock_unswept (branch : List CryptoHash) (batch : BlockTree) :
    (branch.foldl eraseBlock batch).unswept = batch.unswept := by
  induction branch generalizing batch with
  | nil => rfl
  | cons block branch ih => rw [List.foldl_cons, ih]; rfl

theorem deleteBranch_unswept (deleted : tree.deleteBranch batch block = .ok after) :
    after.unswept = batch.unswept := by
  rw [deleteBranch] at deleted
  cases found : tree.blocksInBranch tree.branchSteps [block] with
  | error error => rw [found] at deleted; cases deleted
  | ok branch =>
    rw [found] at deleted
    cases deleted
    exact foldl_eraseBlock_unswept branch batch

theorem deleteBranches_unswept {siblings : List CryptoHash}
    (deleted : siblings.foldlM tree.deleteBranch batch = .ok after) :
    after.unswept = batch.unswept := by
  induction siblings generalizing batch with
  | nil => cases deleted; rfl
  | cons sibling siblings ih =>
    rw [List.foldlM_cons] at deleted
    cases first : tree.deleteBranch batch sibling with
    | error error => rw [first] at deleted; cases deleted
    | ok next =>
      rw [first] at deleted
      rw [ih deleted, deleteBranch_unswept first]

theorem deleteSiblings_unswept (deleted : tree.deleteSiblings batch block = .ok after) :
    after.unswept = batch.unswept := by
  rw [deleteSiblings] at deleted
  cases found : tree.blockJustify block with
  | error error => rw [found] at deleted; cases deleted
  | ok justify =>
    rw [found] at deleted
    simp only [bind, Except.bind] at deleted
    split at deleted
    · cases deleted
    · rename_i children _
      cases removed : (children.filter (· ≠ block)).foldlM tree.deleteBranch batch with
      | error error => rw [removed] at deleted; cases deleted
      | ok next =>
        rw [removed] at deleted
        cases deleted
        have kept := deleteBranches_unswept removed
        exact kept

variable {done : CommittedBlocks}

theorem commitBlock_unswept (ran : tree.commitBlock (batch, done) block = .ok (after, committed)) :
    after.lockedPc = batch.lockedPc ∧ after.highestPc = batch.highestPc ∧
    ((∃ updates, committed = done ++ [(block, some updates)] ∧
      after.validatorSetState.committedValidatorSet =
        tree.committedValidatorSet.applyUpdates updates ∧
      after.validatorSetState.previousValidatorSet = tree.committedValidatorSet ∧
      after.validatorSetState.updateView = batch.validatorSetState.updateView) ∨
    (committed = done ++ [(block, none)] ∧
      after.validatorSetState = batch.validatorSetState)) := by
  rw [commitBlock] at ran
  simp only at ran
  split at ran
  · cases ran
  · rename_i height _
    cases deleted : tree.deleteSiblings
        { batch with blockAtHeight := batch.blockAtHeight.insert height block } block with
    | error error => rw [deleted] at ran; cases ran
    | ok next =>
      rw [deleted] at ran
      simp only [bind, Except.bind] at ran
      have kept := deleteSiblings_unswept deleted
      simp only [unswept, Prod.mk.injEq] at kept
      split at ran
      · rename_i updates pending
        cases ran
        exact ⟨kept.2.1, kept.2.2, .inl ⟨updates, rfl, rfl, rfl, by rw [← kept.1]⟩⟩
      · cases ran
        exact ⟨kept.2.1, kept.2.2, .inr ⟨rfl, kept.1⟩⟩

theorem latestUpdate_append (committed : CommittedBlocks) (entry : CryptoHash × _) :
    latestUpdate (committed ++ [entry]) = match entry.2 with
      | some updates => some (entry.1, updates, [])
      | none => (latestUpdate committed).map fun found => (found.1, found.2.1, found.2.2 ++ [entry]) := by
  induction committed with
  | nil => cases updates : entry.2 <;> simp [latestUpdate, updates]
  | cons first committed ih =>
    rw [List.cons_append, latestUpdate, ih]
    cases updates : entry.2 with
    | some updates => rfl
    | none =>
      cases found : latestUpdate committed with
      | some found => simp [latestUpdate, found]
      | none => cases second : first.2 <;> simp [latestUpdate, found, second]

/-- What a commit does to them: the latest update is applied to the set before the commit. -/
structure CommitEffect (tree batch after : BlockTree) (committed : CommittedBlocks) : Prop where
  locked : after.lockedPc = batch.lockedPc
  highest : after.highestPc = batch.highestPc
  view : after.validatorSetState.updateView = batch.validatorSetState.updateView
  plain : latestUpdate committed = none → after.validatorSetState = batch.validatorSetState
  updated : ∀ block updates above, latestUpdate committed = some (block, updates, above) →
    after.validatorSetState.committedValidatorSet =
      tree.committedValidatorSet.applyUpdates updates ∧
    after.validatorSetState.previousValidatorSet = tree.committedValidatorSet

theorem commitBlock_effect {start : BlockTree} (before : CommitEffect tree start batch done)
    (ran : tree.commitBlock (batch, done) block = .ok (after, committed)) :
    CommitEffect tree start after committed := by
  obtain ⟨locked, highest, ⟨updates, rfl, set, previous, view⟩ | ⟨rfl, state⟩⟩ :=
    commitBlock_unswept ran
  · refine ⟨locked.trans before.locked, highest.trans before.highest, view.trans before.view, ?_, ?_⟩
    · intro none
      simp [latestUpdate_append] at none
    · intro other found above latest
      rw [latestUpdate_append] at latest
      cases latest
      exact ⟨set, previous⟩
  · refine ⟨locked.trans before.locked, highest.trans before.highest, ?_, ?_, ?_⟩
    · rw [state]
      exact before.view
    · intro none
      rw [latestUpdate_append, Option.map_eq_none_iff] at none
      rw [state]
      exact before.plain none
    · intro other found above latest
      rw [latestUpdate_append, Option.map_eq_some_iff] at latest
      obtain ⟨⟨last, updates, rest⟩, latest, same⟩ := latest
      cases same
      rw [state]
      exact before.updated _ _ _ latest

theorem commitBlocks_effect {start : BlockTree} {blocks : List CryptoHash}
    (before : CommitEffect tree start batch done)
    (ran : blocks.foldlM tree.commitBlock (batch, done) = .ok (after, committed)) :
    CommitEffect tree start after committed := by
  induction blocks generalizing batch done with
  | nil => cases ran; exact before
  | cons block blocks ih =>
    rw [List.foldlM_cons] at ran
    cases first : tree.commitBlock (batch, done) block with
    | error error => rw [first] at ran; cases ran
    | ok next =>
      rw [first] at ran
      exact ih (commitBlock_effect before first) ran

theorem commitEffect_refl (tree batch : BlockTree) : CommitEffect tree batch batch [] :=
  ⟨rfl, rfl, rfl, fun _ => rfl, fun _ _ _ latest => by cases latest⟩

theorem commit_effect (ran : tree.commit batch block = .ok (after, committed)) :
    CommitEffect tree batch after committed := by
  rw [commit] at ran
  cases walk : tree.uncommittedFrom (tree.blocks.entries.length + 2) block with
  | error error => rw [walk] at ran; cases ran
  | ok uncommitted =>
    rw [walk] at ran
    simp only [bind, Except.bind] at ran
    split at ran
    · cases ran
      exact commitEffect_refl tree batch
    · rename_i lowest _
      cases found : tree.blockJustify lowest with
      | error error => rw [found] at ran; cases ran
      | ok justify =>
        rw [found] at ran
        simp only at ran
        split at ran
        · exact commitBlocks_effect (commitEffect_refl tree batch) ran
        · cases ran
          exact commitEffect_refl tree batch

theorem setLockedPc_state : (tree.setLockedPc batch justify).validatorSetState =
    batch.validatorSetState := by
  rw [setLockedPc]
  split <;> rfl

theorem setHighestPc_state : (tree.setHighestPc batch justify).validatorSetState =
    batch.validatorSetState := by
  rw [setHighestPc]
  split <;> rfl

/-- A commit upon a certificate leaves the certificates alone; if it has an update, the update
view is recorded with the new sets. -/
theorem commitUpon_effect (ran : tree.commitUpon batch justify = .ok (after, committed)) :
    after.lockedPc = batch.lockedPc ∧ after.highestPc = batch.highestPc ∧
    ((latestUpdate committed = none ∧ after.validatorSetState = batch.validatorSetState) ∨
      ∃ target final block updates above view, tree.blockToCommit justify = .ok (some target) ∧
        tree.commit batch target = .ok (final, committed) ∧
        latestUpdate committed = some (block, updates, above) ∧
        tree.updateViewOf committed justify = .ok (some view) ∧
        after.validatorSetState.committedValidatorSet =
          tree.committedValidatorSet.applyUpdates updates ∧
        after.validatorSetState.previousValidatorSet = tree.committedValidatorSet ∧
        after.validatorSetState.updateView = some view) := by
  rw [commitUpon] at ran
  cases chosen : tree.blockToCommit justify with
  | error error => rw [chosen] at ran; cases ran
  | ok chosen' =>
    rw [chosen] at ran
    simp only [bind, Except.bind] at ran
    cases chosen' with
    | none => cases ran; exact ⟨rfl, rfl, .inl ⟨rfl, rfl⟩⟩
    | some target =>
      simp only at ran
      cases result : tree.commit batch target with
      | error error => rw [result] at ran; cases ran
      | ok final =>
        obtain ⟨final, done⟩ := final
        rw [result] at ran
        have effect := commit_effect result
        simp only at ran
        cases recorded : tree.updateViewOf done justify with
        | error error => rw [recorded] at ran; cases ran
        | ok recorded' =>
          rw [recorded] at ran
          cases latest : latestUpdate done with
          | none =>
            rw [updateViewOf, latest] at recorded
            cases recorded
            cases ran
            exact ⟨effect.locked, effect.highest, .inl ⟨latest, effect.plain latest⟩⟩
          | some found =>
            obtain ⟨block, updates, above⟩ := found
            obtain ⟨set, previous⟩ := effect.updated block updates above latest
            cases recorded' with
            | none =>
              rw [updateViewOf, latest] at recorded
              cases above with
              | cons child above =>
                simp only [blockJustify] at recorded
                split at recorded <;> cases recorded
              | nil =>
                simp only [blockJustify] at recorded
                split at recorded
                · cases recorded
                · split at recorded <;> cases recorded
            | some view =>
              cases ran
              exact ⟨effect.locked, effect.highest, .inr ⟨target, final, block, updates,
                above, view, rfl, result, latest, recorded, set, previous, rfl⟩⟩

end Commit

end BlockTree

end TorusHyperBft.HotStuff
