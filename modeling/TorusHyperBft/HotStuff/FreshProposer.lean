import TorusHyperBft.HotStuff.Crossing
import TorusHyperBft.HotStuff.Leader
import TorusHyperBft.HotStuff.Update

namespace TorusHyperBft.HotStuff

open List BlockTree
open Epoch (PubKey ValidatorSet ValidatorSetUpdates)

/-! The one validator that may make a fresh proposal in a view, across an update of the set. -/

/-- The set whose leader may make a fresh proposal: the previous one up to the update view. -/
def ValidatorSetState.freshProposerSet (state : ValidatorSetState) (view : ViewNumber) :
    ValidatorSet :=
  if state.updateView.any (view ≤ ·) then state.previousValidatorSet
  else state.committedValidatorSet

def freshProposer (view : ViewNumber) (state : ValidatorSetState) : Option PubKey :=
  selectLeader view.val (state.freshProposerSet view)

/-- Whether a validator is the fresh proposer of a view for a block with this justify. A Decide
certificate on pending updates brings in the updated set. -/
def BlockTree.isFreshProposer (tree : BlockTree) (proposer : PubKey) (view : ViewNumber)
    (justify : PhaseCertificate) : Bool :=
  let state :=
    if justify.phase = .decide then
      match tree.validatorSetUpdatesStatus justify.block with
      | .pending updates =>
        { committedValidatorSet := tree.committedValidatorSet.applyUpdates updates
          previousValidatorSet := tree.committedValidatorSet
          updateHeight := none
          updateDecided := true
          updateView := none }
      | _ => tree.validatorSetState
    else tree.validatorSetState
  freshProposer view state = some proposer

variable {updates : ValidatorSetUpdates}

namespace BlockTree

/-- The certificate on an updating block that its commit rests on: the justify of the next block
of the commit, or the one the commit is made upon, or that of its block. -/
def certificateOn (tree : BlockTree) (justify : PhaseCertificate) (block : CryptoHash) :
    CommittedBlocks → Option PhaseCertificate
  | (child, _) :: _ => (tree.blocks.lookup child).map Block.justify
  | [] => if justify.block = block then some justify
      else (tree.blocks.lookup justify.block).map Block.justify

section Certificate

variable {tree batch after : BlockTree} {block target : CryptoHash} {committed : CommittedBlocks}
  {justify : PhaseCertificate}

theorem uncommittedFrom_chain {steps : Nat} {uncommitted : List CryptoHash}
    (walked : tree.uncommittedFrom steps block = .ok uncommitted) :
    (uncommitted = [] ∨ uncommitted.head? = some block) ∧
      uncommitted.IsChain fun newer older => tree.parentOf newer = some older := by
  induction steps generalizing block uncommitted with
  | zero => cases walked
  | succ steps ih =>
    rw [uncommittedFrom] at walked
    split at walked
    · split at walked
      · cases walked
        exact ⟨.inr rfl, isChain_singleton _⟩
      · rename_i parent found
        cases rest : tree.uncommittedFrom steps parent with
        | error error => rw [rest] at walked; cases walked
        | ok ancestors =>
          rw [rest] at walked
          cases walked
          obtain ⟨top, chain⟩ := ih rest
          refine ⟨.inr rfl, ?_⟩
          cases ancestors with
          | nil => exact isChain_singleton _
          | cons first ancestors =>
            rcases top with nothing | top
            · cases nothing
            · rw [List.head?_cons, Option.some.injEq] at top
              exact isChain_cons_cons.mpr ⟨top ▸ found, chain⟩
    · cases walked
      exact ⟨.inl rfl, isChain_nil⟩

theorem commitBlocks_hashes {blocks : List CryptoHash} {done : CommittedBlocks}
    (ran : blocks.foldlM tree.commitBlock (batch, done) = .ok (after, committed)) :
    committed.map Prod.fst = done.map Prod.fst ++ blocks := by
  induction blocks generalizing batch done with
  | nil => cases ran; simp
  | cons block blocks ih =>
    rw [foldlM_cons] at ran
    cases first : tree.commitBlock (batch, done) block with
    | error error => rw [first] at ran; cases ran
    | ok next =>
      rw [first] at ran
      have one : next.2.map Prod.fst = done.map Prod.fst ++ [block] := by
        obtain ⟨-, -, ⟨updates, same, -⟩ | ⟨same, -⟩⟩ := commitBlock_unswept first
        · rw [same, map_append]; rfl
        · rw [same, map_append]; rfl
      rw [ih ran, one, append_assoc, singleton_append]

theorem commit_chain (ran : tree.commit batch target = .ok (after, committed)) :
    (committed = [] ∨ (committed.map Prod.fst).getLast? = some target) ∧
      (committed.map Prod.fst).IsChain fun older newer => tree.parentOf newer = some older := by
  rw [commit] at ran
  cases walk : tree.uncommittedFrom (tree.blocks.entries.length + 2) target with
  | error error => rw [walk] at ran; cases ran
  | ok uncommitted =>
    rw [walk] at ran
    obtain ⟨top, chain⟩ := uncommittedFrom_chain walk
    simp only [bind, Except.bind] at ran
    split at ran
    · cases ran
      exact ⟨.inl rfl, isChain_nil⟩
    · rename_i lowest last
      cases found : tree.blockJustify lowest with
      | error error => rw [found] at ran; cases ran
      | ok justify =>
        rw [found] at ran
        simp only at ran
        split at ran
        · have hashes := commitBlocks_hashes ran
          rw [map_nil, nil_append] at hashes
          rw [hashes, List.getLast?_reverse, isChain_reverse]
          refine ⟨.inr ?_, chain⟩
          rcases top with nothing | top
          · rw [nothing] at last
            cases last
          · exact top
        · cases ran
          exact ⟨.inl rfl, isChain_nil⟩

variable {above : CommittedBlocks}

theorem latestUpdate_split (latest : latestUpdate committed = some (block, updates, above)) :
    ∃ below, committed = below ++ (block, some updates) :: above := by
  induction committed with
  | nil => cases latest
  | cons first committed ih =>
    obtain ⟨hash, own⟩ := first
    rw [latestUpdate] at latest
    cases found : latestUpdate committed with
    | some later =>
      rw [found] at latest
      cases latest
      obtain ⟨below, split⟩ := ih found
      exact ⟨(hash, own) :: below, by rw [split, cons_append]⟩
    | none =>
      rw [found, Option.map_eq_some_iff] at latest
      obtain ⟨updates, rfl, same⟩ := latest
      cases same
      exact ⟨[], rfl⟩

theorem parentOf_justify {child : CryptoHash} (found : tree.parentOf child = some block) :
    ∃ child', tree.blocks.lookup child = some child' ∧ child'.justify.block = block := by
  rw [parentOf] at found
  split at found
  · rename_i child' listed
    split at found
    · cases found
    · exact ⟨child', listed, Option.some.inj found⟩
  · cases found

theorem blockToCommit_target (found : tree.blockToCommit justify = .ok (some target)) :
    justify.block = target ∨
      ∃ parent, tree.blocks.lookup justify.block = some parent ∧ parent.justify.block = target := by
  rw [blockToCommit] at found
  split at found
  · cases found
  · split at found
    · split at found
      · cases found
      · rename_i parent listed
        split at found
        · cases found
        · split at found
          · cases found
          · split at found
            · cases found
              exact .inr ⟨parent, listed, rfl⟩
            · cases found
    · cases found
    · cases found
    · split at found
      · cases found
      · split at found
        · cases found
          exact .inl rfl
        · cases found
    · split at found
      · cases found
      · split at found
        · cases found
          exact .inl rfl
        · cases found

theorem certificateOn_block
    {pc : PhaseCertificate} (chosen : tree.blockToCommit justify = .ok (some target))
    (ran : tree.commit batch target = .ok (after, committed))
    (latest : latestUpdate committed = some (block, updates, above))
    (rests : tree.certificateOn justify block above = some pc) : pc.block = block := by
  obtain ⟨top, chain⟩ := commit_chain ran
  obtain ⟨below, split⟩ := latestUpdate_split latest
  rw [split, map_append, map_cons] at chain
  cases above with
  | cons child above =>
    rw [map_cons] at chain
    have adjacent := (isChain_append.mp chain).2.1
    obtain ⟨found, listed, certified⟩ := parentOf_justify (isChain_cons_cons.mp adjacent).1
    rw [certificateOn, listed, Option.map_some, Option.some.injEq] at rests
    rw [← rests, certified]
  | nil =>
    have last : target = block := by
      rcases top with nothing | top
      · rw [split] at nothing
        simp at nothing
      · rw [split, map_append, map_cons, map_nil, List.getLast?_concat,
          Option.some.injEq] at top
        exact top.symm
    rw [certificateOn] at rests
    split at rests
    · rename_i own
      cases rests
      exact own
    · rename_i other
      rcases blockToCommit_target chosen with same | ⟨parent, listed, certified⟩
      · exact absurd (same.trans last) other
      · rw [listed, Option.map_some, Option.some.injEq] at rests
        rw [← rests, certified, last]

theorem updateViewOf_eq
    {view : Option ViewNumber} (latest : latestUpdate committed = some (block, updates, above))
    (recorded : tree.updateViewOf committed justify = .ok view) :
    ∃ pc, tree.certificateOn justify block above = some pc ∧ view = some pc.view := by
  rw [updateViewOf, latest] at recorded
  cases above with
  | cons child above =>
    simp only [blockJustify] at recorded
    cases listed : tree.blocks.lookup child.1 with
    | none => rw [listed] at recorded; cases recorded
    | some found =>
      rw [listed] at recorded
      cases recorded
      exact ⟨found.justify, by rw [certificateOn, listed, Option.map_some], rfl⟩
  | nil =>
    simp only at recorded
    rw [certificateOn]
    split at recorded
    · cases recorded
      rename_i own
      exact ⟨justify, by rw [if_pos own], rfl⟩
    · rename_i other
      rw [if_neg other]
      simp only [blockJustify] at recorded
      cases listed : tree.blocks.lookup justify.block with
      | none => rw [listed] at recorded; cases recorded
      | some found =>
        rw [listed] at recorded
        cases recorded
        exact ⟨found.justify, by rw [Option.map_some], rfl⟩

end Certificate

theorem setDecided_sets (batch : BlockTree) (pc : PhaseCertificate) :
    (batch.setDecided pc).committedValidatorSet = batch.committedValidatorSet ∧
    (batch.setDecided pc).validatorSetState.previousValidatorSet =
      batch.validatorSetState.previousValidatorSet ∧
    (batch.setDecided pc).validatorSetState.updateView = batch.validatorSetState.updateView := by
  rw [setDecided]
  split <;> exact ⟨rfl, rfl, rfl⟩

theorem update_sets {tree after : BlockTree} {justify : PhaseCertificate}
    {committed : CommittedBlocks} (ran : tree.update justify = .ok (after, committed)) :
    (latestUpdate committed = none ∧
      after.committedValidatorSet = tree.committedValidatorSet ∧
      after.validatorSetState.previousValidatorSet = tree.validatorSetState.previousValidatorSet ∧
      after.validatorSetState.updateView = tree.validatorSetState.updateView) ∨
    ∃ block updates above pc, latestUpdate committed = some (block, updates, above) ∧
      tree.certificateOn justify block above = some pc ∧ pc.block = block ∧
      after.committedValidatorSet = tree.committedValidatorSet.applyUpdates updates ∧
      after.validatorSetState.previousValidatorSet = tree.committedValidatorSet ∧
      after.validatorSetState.updateView = some pc.view := by
  rw [update] at ran
  cases result : tree.commitUpon (tree.setLockedPc (tree.setHighestPc tree justify) justify)
      justify with
  | error error => rw [result] at ran; cases ran
  | ok final =>
    obtain ⟨final, done⟩ := final
    rw [result] at ran
    cases ran
    obtain ⟨set, previous, view⟩ := setDecided_sets final justify
    rw [set, previous, view]
    obtain ⟨-, -, ⟨plain, state⟩ | ⟨target, batch, block, updates, above, recorded, chosen, ran,
      latest, viewOf, members, before, boundary⟩⟩ := commitUpon_effect result
    · rw [setLockedPc_state, setHighestPc_state] at state
      refine .inl ⟨plain, ?_, by rw [state], by rw [state]⟩
      rw [committedValidatorSet, state, committedValidatorSet]
    · obtain ⟨pc, rests, same⟩ := updateViewOf_eq latest viewOf
      rw [Option.some.injEq] at same
      exact .inr ⟨block, updates, above, pc, latest, rests,
        certificateOn_block chosen ran latest rests, members, before, by rw [boundary, same]⟩

end BlockTree

/-- An update of the validator set that a replica has committed, with the certificate on its
block that the commit rests on. -/
structure CommittedUpdate where
  block : CryptoHash
  updates : ValidatorSetUpdates
  certificate : PhaseCertificate

def CommittedUpdate.onChain (entry : CommittedUpdate) : CryptoHash × ValidatorSetUpdates :=
  (entry.block, entry.updates)

def setAfter (start : ValidatorSet) (history : List CommittedUpdate) : ValidatorSet :=
  history.foldr (fun entry set => set.applyUpdates entry.updates) start

/-- The runs of a replica that begin with a set, with the updates they commit. No commit has two
updating blocks. -/
inductive Replica (start : ValidatorSet) : BlockTree → List CommittedUpdate → Prop
  | boot {tree : BlockTree} (members : tree.committedValidatorSet = start)
      (fresh : tree.validatorSetState.updateView = none) : Replica start tree []
  | cross {tree after : BlockTree} {history : List CommittedUpdate} {justify : PhaseCertificate}
      {committed above : CommittedBlocks} {entry : CommittedUpdate}
      (run : Replica start tree history) (updated : tree.update justify = .ok (after, committed))
      (latest : BlockTree.latestUpdate committed = some (entry.block, entry.updates, above))
      (single : (committed.filter fun block => block.2.isSome).length = 1)
      (rests : tree.certificateOn justify entry.block above = some entry.certificate) :
      Replica start after (entry :: history)
  | update {tree after : BlockTree} {history : List CommittedUpdate} {justify : PhaseCertificate}
      {committed : CommittedBlocks} (run : Replica start tree history)
      (updated : tree.update justify = .ok (after, committed))
      (plain : BlockTree.latestUpdate committed = none) : Replica start after history
  | insert {tree : BlockTree} {history : List CommittedUpdate} (run : Replica start tree history)
      (block : Block) (updates : Option ValidatorSetUpdates) :
      Replica start (tree.insert block updates) history
  | lock {tree : BlockTree} {history : List CommittedUpdate} (run : Replica start tree history)
      (justify : PhaseCertificate) : Replica start (tree.updateLocksOnly justify) history
  | advance {tree : BlockTree} {history : List CommittedUpdate} (run : Replica start tree history)
      (pc : PhaseCertificate) : Replica start (tree.advanceHighestPcFromRemote pc) history

namespace Replica

variable {start : ValidatorSet} {tree other : BlockTree} {history : List CommittedUpdate}

/-- The sets of a replica are those of its history, and its update view is that of the
certificate on the latest updating block. -/
structure Tracks (start : ValidatorSet) (tree : BlockTree) (history : List CommittedUpdate) :
    Prop where
  members : tree.committedValidatorSet = setAfter start history
  previous : ∀ entry earlier, history = entry :: earlier →
    tree.validatorSetState.previousValidatorSet = setAfter start earlier
  view : tree.validatorSetState.updateView = history.head?.map fun entry => entry.certificate.view
  certified : ∀ entry ∈ history, entry.certificate.block = entry.block

theorem Tracks.keep (tracks : Tracks start tree history)
    (members : other.committedValidatorSet = tree.committedValidatorSet)
    (previous : other.validatorSetState.previousValidatorSet =
      tree.validatorSetState.previousValidatorSet)
    (view : other.validatorSetState.updateView = tree.validatorSetState.updateView) :
    Tracks start other history where
  members := members.trans tracks.members
  previous entry earlier same := previous.trans (tracks.previous entry earlier same)
  view := view.trans tracks.view
  certified := tracks.certified

theorem Tracks.keepState (tracks : Tracks start tree history)
    (state : other.validatorSetState = tree.validatorSetState) : Tracks start other history := by
  apply tracks.keep
  · rw [BlockTree.committedValidatorSet, state, BlockTree.committedValidatorSet]
  · rw [state]
  · rw [state]

theorem Tracks.decided (tracks : Tracks start tree history) (pc : PhaseCertificate) :
    Tracks start (tree.setDecided pc) history := by
  obtain ⟨members, previous, view⟩ := setDecided_sets tree pc
  exact tracks.keep members previous view

theorem tracks (run : Replica start tree history) : Tracks start tree history := by
  induction run with
  | boot members fresh =>
    refine ⟨members, ?_, fresh, by simp⟩
    rintro entry earlier ⟨⟩
  | @cross tree after history justify committed above entry run updated latest single rests ih =>
    obtain ⟨plain, -⟩ | ⟨block, updates, others, pc, latest', rests', certified, members, before,
      view⟩ := update_sets updated
    · rw [latest] at plain
      cases plain
    · rw [latest, Option.some.injEq, Prod.mk.injEq, Prod.mk.injEq] at latest'
      obtain ⟨rfl, rfl, rfl⟩ := latest'
      rw [rests, Option.some.injEq] at rests'
      subst rests'
      refine ⟨?_, ?_, view, ?_⟩
      · rw [members, ih.members]
        rfl
      · rintro first earlier ⟨⟩
        rw [before, ih.members]
      · intro first inside
        rcases mem_cons.mp inside with rfl | inside
        · exact certified
        · exact ih.certified first inside
  | update run updated plain ih =>
    obtain ⟨-, members, previous, view⟩ | ⟨block, updates, above, pc, latest, -⟩ :=
      update_sets updated
    · exact ih.keep members previous view
    · rw [plain] at latest
      cases latest
  | insert run block updates ih => exact ih.keep rfl rfl rfl
  | @lock tree history run justify ih =>
    have kept : Tracks start (tree.setLockedPc (tree.setHighestPc tree justify) justify) history :=
      ih.keepState (by rw [setLockedPc_state, setHighestPc_state])
    exact kept.decided justify
  | advance run pc ih => exact (ih.keepState setHighestPc_state).decided pc

theorem setAfter_onChain {others : List CommittedUpdate}
    (same : history.map CommittedUpdate.onChain = others.map CommittedUpdate.onChain) :
    setAfter start history = setAfter start others := by
  have folded : ∀ history : List CommittedUpdate, setAfter start history =
      (history.map CommittedUpdate.onChain).foldr (fun entry set => set.applyUpdates entry.2)
        start := by
    intro history
    rw [foldr_map]
    rfl
  rw [folded, folded, same]

/-- Up to the view of its certificate on the latest updating block a replica names the leader of
the set before it, and later that of the set after it. -/
theorem Tracks.freshProposer_eq {entry : CommittedUpdate}
    (tracks : Tracks start tree (entry :: history)) (view : ViewNumber) :
    freshProposer view tree.validatorSetState =
      if view ≤ entry.certificate.view then selectLeader view.val (setAfter start history)
      else selectLeader view.val (setAfter start (entry :: history)) := by
  have members : tree.validatorSetState.committedValidatorSet =
      setAfter start (entry :: history) := tracks.members
  rw [freshProposer, ValidatorSetState.freshProposerSet, tracks.view, List.head?_cons,
    Option.map_some, Option.any_some, members, tracks.previous entry history rfl]
  by_cases early : view ≤ entry.certificate.view
  · simp [early]
  · simp [early]

theorem Tracks.isFreshProposer_eq (tracks : Tracks start tree history) {proposer : PubKey}
    {view : ViewNumber} {justify : PhaseCertificate}
    (decided : justify.phase = .decide)
    (pending : tree.validatorSetUpdatesStatus justify.block = .pending updates) :
    tree.isFreshProposer proposer view justify = true ↔
      selectLeader view.val ((setAfter start history).applyUpdates updates) = some proposer := by
  simp only [BlockTree.isFreshProposer, decided, pending, if_true, freshProposer,
    ValidatorSetState.freshProposerSet, tracks.members, decide_eq_true_eq, Option.any_none,
    Bool.false_eq_true, if_false]

end Replica

section Agree

variable {start : ValidatorSet} {tree other : BlockTree} {entry otherEntry : CommittedUpdate}
  {history otherHistory : List CommittedUpdate}

theorem boundary_agree_iff {α : Type} {old new : ViewNumber → α} {left right : ViewNumber} :
    (∀ view, (if view ≤ left then old view else new view) =
      if view ≤ right then old view else new view) ↔
    ∀ view, min left right < view → view ≤ max left right → old view = new view := by
  constructor
  · intro same view above below
    have here := same view
    rcases le_total left right with ordered | ordered
    · rw [min_eq_left ordered] at above
      rw [max_eq_right ordered] at below
      rw [if_neg (not_le_of_gt above), if_pos below] at here
      exact here.symm
    · rw [min_eq_right ordered] at above
      rw [max_eq_left ordered] at below
      rw [if_pos below, if_neg (not_le_of_gt above)] at here
      exact here
  · intro between view
    by_cases early : view ≤ left
    · by_cases soon : view ≤ right
      · rw [if_pos early, if_pos soon]
      · rw [if_pos early, if_neg soon]
        apply between view
        · exact lt_of_le_of_lt (min_le_right _ _) (lt_of_not_ge soon)
        · exact early.trans (le_max_left _ _)
    · by_cases soon : view ≤ right
      · rw [if_neg early, if_pos soon]
        refine (between view ?_ ?_).symm
        · exact lt_of_le_of_lt (min_le_left _ _) (lt_of_not_ge early)
        · exact soon.trans (le_max_right _ _)
      · rw [if_neg early, if_neg soon]

/-- Two replicas with the same committed updates name the same fresh proposers exactly if the old
and the new set have the same leaders in all views between their certificates on the latest
updating block. A replica that has the block pending agrees on a proposal with one that has
committed it exactly if the view is later than that certificate or the leaders are the same. -/
theorem freshProposer_agrees_iff (run : Replica start tree (entry :: history))
    (otherRun : Replica start other (otherEntry :: otherHistory))
    (sameChain : (entry :: history).map CommittedUpdate.onChain =
      (otherEntry :: otherHistory).map CommittedUpdate.onChain) :
    entry.certificate.block = entry.block ∧ otherEntry.certificate.block = entry.block ∧
    ((∀ view, freshProposer view tree.validatorSetState =
        freshProposer view other.validatorSetState) ↔
      ∀ view, min entry.certificate.view otherEntry.certificate.view < view →
        view ≤ max entry.certificate.view otherEntry.certificate.view →
          selectLeader view.val (setAfter start history) =
            selectLeader view.val (setAfter start (entry :: history))) ∧
    ∀ pendingTree pendingHistory justify view, Replica start pendingTree pendingHistory →
      pendingHistory.map CommittedUpdate.onChain = history.map CommittedUpdate.onChain →
      justify.phase = .decide → justify.block = entry.block →
      pendingTree.validatorSetUpdatesStatus justify.block = .pending entry.updates →
      ((∀ proposer, pendingTree.isFreshProposer proposer view justify = true ↔
          freshProposer view tree.validatorSetState = some proposer) ↔
        (view ≤ entry.certificate.view → selectLeader view.val (setAfter start history) =
          selectLeader view.val (setAfter start (entry :: history)))) := by
  have tracks := run.tracks
  have otherTracks := otherRun.tracks
  have tails := sameChain
  rw [map_cons, map_cons, List.cons.injEq] at tails
  have blocks : entry.block = otherEntry.block := congrArg Prod.fst tails.1
  refine ⟨tracks.certified entry mem_cons_self, ?_, ?_, ?_⟩
  · rw [blocks]
    exact otherTracks.certified otherEntry mem_cons_self
  · simp only [tracks.freshProposer_eq, otherTracks.freshProposer_eq,
      ← Replica.setAfter_onChain sameChain, ← Replica.setAfter_onChain tails.2]
    exact boundary_agree_iff
  · intro pendingTree pendingHistory justify view pendingRun samePast decided _ pending
    simp only [pendingRun.tracks.isFreshProposer_eq decided pending,
      Replica.setAfter_onChain samePast, tracks.freshProposer_eq]
    have next : (setAfter start history).applyUpdates entry.updates =
        setAfter start (entry :: history) := rfl
    rw [next]
    constructor
    · intro same early
      rw [if_pos early] at same
      exact (Option.ext fun proposer => same proposer).symm
    · intro same proposer
      split
      · rename_i early
        rw [same early]
      · exact Iff.rfl

end Agree

section Joined

def joiningCommit : PhaseCertificate :=
  { chainId := 1
    view := 5
    block := 20
    phase := .commit
    signatures := [some (markOf 5 (phaseVoteBytes 1 5 20 .commit))] }

def joinedUpon (pc : PhaseCertificate) : BlockTree :=
  match joiningTree.update pc with
  | .ok (after, _) => after
  | .error _ => joiningTree

def joinedEntry (pc : PhaseCertificate) : CommittedUpdate :=
  { block := 20
    updates := joining
    certificate := pc }

theorem joined_replica {pc : PhaseCertificate} (block : pc.block = 20)
    (updated : joiningTree.update pc = .ok (joinedUpon pc, [(20, some joining)])) :
    Replica oneMember (joinedUpon pc) [joinedEntry pc] := by
  have boot : Replica oneMember joiningTree [] := .boot rfl rfl
  have rests : joiningTree.certificateOn pc 20 [] = some pc := by
    rw [BlockTree.certificateOn, if_pos block]
  exact .cross boot updated rfl rfl rests

theorem joiningCommit_replica : Replica oneMember (joinedUpon joiningCommit)
    [joinedEntry joiningCommit] := joined_replica rfl rfl

theorem joiningDecide_replica : Replica oneMember (joinedUpon (joiningDecide [2, 5]))
    [joinedEntry (joiningDecide [2, 5])] := joined_replica rfl rfl

theorem oneMember_leader : selectLeader 6 oneMember = some 5 := by
  rw [selectLeader_eq (by decide)]
  simp only [eligiblePower, eligible, oneMember_powers]
  decide

theorem joined_leader : selectLeader 6 (oneMember.applyUpdates joining) = some 2 := by
  rw [selectLeader_eq (by decide)]
  simp only [eligiblePower, eligible, joined_powers]
  decide

theorem freshProposer_agrees_iff_joined :
    ¬ ∀ view, freshProposer view (joinedUpon joiningCommit).validatorSetState =
      freshProposer view (joinedUpon (joiningDecide [2, 5])).validatorSetState := by
  obtain ⟨-, -, agrees, -⟩ :=
    freshProposer_agrees_iff joiningCommit_replica joiningDecide_replica rfl
  rw [agrees]
  intro same
  have leaders := same 6 (by decide) (by decide)
  have one : selectLeader 6 oneMember = selectLeader 6 (oneMember.applyUpdates joining) := leaders
  rw [oneMember_leader, joined_leader] at one
  cases one

theorem joiningCommit_accepted : joiningCommit.isCorrect marked 1 joiningTree = .ok true := by
  have signed : joiningCommit.isCorrectlySigned marked oneMember = true := by
    simp only [PhaseCertificate.isCorrectlySigned, signedByQuorum, ValidatorSet.validators,
      oneMember_powers]
    decide +kernel
  have checked : joiningCommit.isCorrect marked 1 joiningTree =
      .ok (joiningCommit.isCorrectlySigned marked oneMember) := rfl
  rw [checked, signed]

/-- Both certificates are correct and both replicas have committed the same chain, but in view 6
the one that committed upon the Commit certificate of view 5 names the new validator, and the
other, with the Decide certificate of view 6, the old one. -/
theorem freshProposer_disagrees :
    joiningCommit.isCorrect marked 1 joiningTree = .ok true ∧
    (joiningDecide [2, 5]).isCorrect marked 1 joiningTree = .ok true ∧
    Replica oneMember (joinedUpon joiningCommit) [joinedEntry joiningCommit] ∧
    Replica oneMember (joinedUpon (joiningDecide [2, 5])) [joinedEntry (joiningDecide [2, 5])] ∧
    freshProposer 6 (joinedUpon joiningCommit).validatorSetState = some 2 ∧
    freshProposer 6 (joinedUpon (joiningDecide [2, 5])).validatorSetState = some 5 := by
  refine ⟨joiningCommit_accepted, joiningDecide_accepted, joiningCommit_replica,
    joiningDecide_replica, ?_, ?_⟩
  · rw [joiningCommit_replica.tracks.freshProposer_eq, if_neg (by decide)]
    exact joined_leader
  · rw [joiningDecide_replica.tracks.freshProposer_eq, if_pos (by decide)]
    exact oneMember_leader

end Joined

end TorusHyperBft.HotStuff
