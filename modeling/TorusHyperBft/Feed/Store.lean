import Mathlib

namespace TorusHyperBft.Feed

/-! The part of the block tree the committed-block feed reads and writes.

Commits extend `BLOCK_AT_HEIGHT` upwards from the highest committed height; the
pruner deletes the oldest heights and remembers how far it got.  The fed frontier
is written by the feed alone.
-/

structure Store (Hash Block : Type) where
  highestCommittedBlockHeight : Option Nat
  blockAtHeight : Nat → Option Hash
  block : Hash → Option Block
  appFedBlockHeight : Option Nat
  blockTreePrunedHeight : Option Nat

namespace Store

variable {Hash Block : Type}

def empty : Store Hash Block where
  highestCommittedBlockHeight := none
  blockAtHeight := fun _ => none
  block := fun _ => none
  appFedBlockHeight := none
  blockTreePrunedHeight := none

/-- The block the feed would deliver for a height: both the index entry and the
block record have to be there. -/
def readBlock (store : Store Hash Block) (height : Nat) : Option (Hash × Block) :=
  match store.blockAtHeight height with
  | none => none
  | some hash => (store.block hash).map fun block => (hash, block)

/-- The block at the height can be read. -/
def Readable (store : Store Hash Block) (height : Nat) : Prop :=
  (store.readBlock height).isSome

instance (store : Store Hash Block) (height : Nat) : Decidable (store.Readable height) :=
  inferInstanceAs (Decidable (_ = true))

def advanceAppFedBlockHeight (store : Store Hash Block) (height : Nat) : Store Hash Block :=
  { store with appFedBlockHeight := some height }

def resetAppFedBlockHeight (store : Store Hash Block) : Store Hash Block :=
  { store with appFedBlockHeight := none }

/-- Every indexed height has a block record of its own. -/
structure Indexed (store : Store Hash Block) : Prop where
  recorded : ∀ {height : Nat}, (store.blockAtHeight height).isSome → store.Readable height
  distinct : ∀ {first second : Nat} {hash : Hash}, store.blockAtHeight first = some hash →
    store.blockAtHeight second = some hash → first = second

/-- What commits and pruning keep true of the index: a window of consecutive
heights that ends at the highest committed one. -/
structure Tidy (store : Store Hash Block) : Prop extends store.Indexed where
  uncommitted : store.highestCommittedBlockHeight = none →
    (∀ height, store.blockAtHeight height = none) ∧ store.blockTreePrunedHeight = none
  window : ∀ {highest : Nat}, store.highestCommittedBlockHeight = some highest →
    ∃ low, low ≤ highest ∧ store.blockTreePrunedHeight.getD 0 ≤ low ∧
      ∀ height, store.Readable height ↔ low ≤ height ∧ height ≤ highest

theorem readable_iff {store : Store Hash Block} {height : Nat} :
    store.Readable height ↔
      ∃ hash block, store.blockAtHeight height = some hash ∧ store.block hash = some block := by
  unfold Readable readBlock
  cases indexed : store.blockAtHeight height with
  | none => simp
  | some hash =>
    cases recorded : store.block hash with
    | none => simp [recorded]
    | some block => simp [recorded]

theorem empty_tidy : (empty : Store Hash Block).Tidy where
  recorded := by simp [empty]
  distinct := by simp [empty]
  uncommitted := by simp [empty]
  window := by simp [empty]

theorem Indexed.readable_iff_isSome {store : Store Hash Block} {height : Nat}
    (indexed : store.Indexed) :
    store.Readable height ↔ (store.blockAtHeight height).isSome := by
  refine ⟨fun readable => ?_, indexed.recorded⟩
  obtain ⟨hash, _, found, _⟩ := readable_iff.mp readable
  simp [found]

def pruneBatchMax : Nat := 64

def pruneEnd (store : Store Hash Block) (retention : Nat) : Option Nat :=
  match store.highestCommittedBlockHeight with
  | none => none
  | some highest =>
    if highest ≤ retention then none
    else
      let horizon := highest - retention
      let start := store.blockTreePrunedHeight.getD 0
      if horizon ≤ start then none else some (min horizon (start + pruneBatchMax))

theorem pruneEnd_bounds {store : Store Hash Block} {retention stop : Nat}
    (prunes : store.pruneEnd retention = some stop) :
    ∃ highest, store.highestCommittedBlockHeight = some highest ∧ stop ≤ highest ∧
      store.blockTreePrunedHeight.getD 0 < stop := by
  unfold pruneEnd at prunes
  cases committed : store.highestCommittedBlockHeight with
  | none => simp [committed] at prunes
  | some highest =>
    simp only [committed] at prunes
    split at prunes
    · contradiction
    · split at prunes
      · contradiction
      · simp only [Option.some.injEq, pruneBatchMax] at prunes
        exact ⟨highest, rfl, by omega, by omega⟩

variable [DecidableEq Hash]

/-- Record one committed block: the block record is in the tree by the time the
commit walk writes its height. -/
def commitBlock (store : Store Hash Block) (height : Nat) (hash : Hash) (block : Block) :
    Store Hash Block :=
  { store with
    highestCommittedBlockHeight := some height
    blockAtHeight := fun h => if h = height then some hash else store.blockAtHeight h
    block := fun x => if x = hash then some block else store.block x }

def commitBlocks (store : Store Hash Block) (height : Nat) :
    List (Hash × Block) → Store Hash Block
  | [] => store
  | (hash, block) :: rest => (store.commitBlock height hash block).commitBlocks (height + 1) rest

def minBlockTreeRetention : Nat := 8

def blockTreeRetention : Option Nat → Option Nat
  | none => none
  | some 0 => none
  | some retention => some (max retention minBlockTreeRetention)

def pruneHeight (store : Store Hash Block) (height : Nat) : Store Hash Block :=
  match store.blockAtHeight height with
  | none => store
  | some hash =>
    { store with
      blockAtHeight := fun h => if h = height then none else store.blockAtHeight h
      block := fun x => if x = hash then none else store.block x }

def pruneOldCommittedBlocksWith (store : Store Hash Block) (retention : Nat) : Store Hash Block :=
  match store.pruneEnd retention with
  | none => store
  | some stop =>
    let start := store.blockTreePrunedHeight.getD 0
    let pruned := (List.range' start (stop - start)).foldl pruneHeight store
    { pruned with blockTreePrunedHeight := some stop }

def pruneOldCommittedBlocks (store : Store Hash Block) (configured : Option Nat) :
    Store Hash Block :=
  match blockTreeRetention configured with
  | none => store
  | some retention => store.pruneOldCommittedBlocksWith retention

/-- The first height a run of the pruner leaves alone (`0` when it has nothing to do). -/
def pruneStop (store : Store Hash Block) (configured : Option Nat) : Nat :=
  ((blockTreeRetention configured).bind store.pruneEnd).getD 0

/-- Height of the first block of the next commit.  `first` is the height the chain
starts at, which matters for the very first commit only. -/
def nextHeight (store : Store Hash Block) (first : Nat) : Nat :=
  match store.highestCommittedBlockHeight with
  | none => first
  | some highest => highest + 1

/-- `update` as far as the feed can see it: the commit batch, then the pruner in a
batch of its own. -/
def commit (store : Store Hash Block) (first : Nat) (blocks : List (Hash × Block))
    (configured : Option Nat) : Store Hash Block :=
  if blocks.isEmpty then store
  else (store.commitBlocks (store.nextHeight first) blocks).pruneOldCommittedBlocks configured

/-- The hashes of a commit batch are new to the index: block hashes do not collide. -/
def Fresh (store : Store Hash Block) (blocks : List (Hash × Block)) : Prop :=
  (blocks.map Prod.fst).Nodup ∧
    ∀ entry ∈ blocks, ∀ height, store.blockAtHeight height ≠ some entry.1

section Commit

variable {store : Store Hash Block} {hash : Hash} {block : Block} {blocks : List (Hash × Block)}
  {start height : Nat}

theorem commitBlock_readable (fresh : ∀ h, store.blockAtHeight h ≠ some hash) :
    (store.commitBlock start hash block).Readable height ↔
      height = start ∨ store.Readable height := by
  simp only [readable_iff, commitBlock]
  by_cases same : height = start
  · simp [same]
  · simp only [same, if_false, false_or]
    constructor
    · rintro ⟨found, record, indexed, recorded⟩
      have other : found ≠ hash := fun equal => fresh height (equal ▸ indexed)
      exact ⟨found, record, indexed, by simpa [other] using recorded⟩
    · rintro ⟨found, record, indexed, recorded⟩
      have other : found ≠ hash := fun equal => fresh height (equal ▸ indexed)
      exact ⟨found, record, indexed, by simpa [other] using recorded⟩

theorem commitBlock_fresh {entry : Hash × Block} (fresh : store.Fresh (entry :: blocks)) :
    (store.commitBlock start entry.1 entry.2).Fresh blocks := by
  obtain ⟨nodup, unseen⟩ := fresh
  simp only [List.map_cons, List.nodup_cons] at nodup
  refine ⟨nodup.2, fun other member h indexed => ?_⟩
  simp only [commitBlock] at indexed
  split at indexed
  · have equal : entry.1 = other.1 := Option.some.inj indexed
    exact nodup.1 (equal ▸ List.mem_map_of_mem member)
  · exact unseen other (List.mem_cons_of_mem _ member) h indexed

theorem commitBlocks_readable (fresh : store.Fresh blocks) :
    (store.commitBlocks start blocks).Readable height ↔
      (start ≤ height ∧ height < start + blocks.length) ∨ store.Readable height := by
  induction blocks generalizing store start with
  | nil =>
    have impossible : ¬ (start ≤ height ∧ height < start) := by omega
    simp [commitBlocks, impossible]
  | cons entry rest ih =>
    have unseen := fresh.2 entry (by simp)
    rw [commitBlocks, ih (commitBlock_fresh fresh), commitBlock_readable unseen,
      List.length_cons]
    constructor
    · rintro (inside | first | before)
      · exact Or.inl (by omega)
      · exact Or.inl (by omega)
      · exact Or.inr before
    · rintro (inside | before)
      · by_cases first : height = start
        · exact Or.inr (Or.inl first)
        · exact Or.inl (by omega)
      · exact Or.inr (Or.inr before)

theorem commitBlock_tidy (tidy : store.Tidy) (fresh : ∀ h, store.blockAtHeight h ≠ some hash)
    (next : ∀ highest, store.highestCommittedBlockHeight = some highest → start = highest + 1) :
    (store.commitBlock start hash block).Tidy where
  recorded := by
    intro height indexed
    rw [commitBlock_readable fresh]
    by_cases same : height = start
    · exact Or.inl same
    · exact Or.inr (tidy.recorded (by simpa [commitBlock, same] using indexed))
  distinct := by
    intro first second found firstIndexed secondIndexed
    simp only [commitBlock] at firstIndexed secondIndexed
    split at firstIndexed <;> split at secondIndexed
    · omega
    · exact absurd (Option.some.inj firstIndexed ▸ secondIndexed) (fresh second)
    · exact absurd (Option.some.inj secondIndexed ▸ firstIndexed) (fresh first)
    · exact tidy.distinct firstIndexed secondIndexed
  uncommitted := by simp [commitBlock]
  window := by
    intro highest committed
    simp only [commitBlock, Option.some.injEq] at committed
    subst highest
    cases before : store.highestCommittedBlockHeight with
    | none =>
      obtain ⟨unindexed, unpruned⟩ := tidy.uncommitted before
      have unreadable : ∀ h, ¬ store.Readable h := fun h readable => by
        obtain ⟨_, _, indexed, _⟩ := readable_iff.mp readable
        simp [unindexed h] at indexed
      refine ⟨start, Nat.le_refl _, by simp [commitBlock, unpruned], fun h => ?_⟩
      rw [commitBlock_readable fresh, or_iff_left (unreadable h)]
      omega
    | some highest =>
      obtain ⟨low, bounded, pruned, inside⟩ := tidy.window before
      have start_eq := next highest before
      refine ⟨low, by omega, pruned, fun h => ?_⟩
      rw [commitBlock_readable fresh, inside]
      omega

theorem commitBlocks_tidy (tidy : store.Tidy) (fresh : store.Fresh blocks)
    (next : ∀ highest, store.highestCommittedBlockHeight = some highest → start = highest + 1) :
    (store.commitBlocks start blocks).Tidy := by
  induction blocks generalizing store start with
  | nil => exact tidy
  | cons entry rest ih =>
    have unseen := fresh.2 entry (by simp)
    refine ih (commitBlock_tidy tidy unseen next) (commitBlock_fresh fresh) ?_
    intro highest committed
    simp only [commitBlock, Option.some.injEq] at committed
    omega

theorem commitBlocks_highest (nonempty : blocks ≠ []) :
    (store.commitBlocks start blocks).highestCommittedBlockHeight =
      some (start + blocks.length - 1) := by
  induction blocks generalizing store start with
  | nil => contradiction
  | cons entry rest ih =>
    cases rest with
    | nil => simp [commitBlocks, commitBlock]
    | cons second rest =>
      rw [commitBlocks, ih (by simp)]
      simp only [List.length_cons]
      congr 1
      omega

theorem commitBlocks_appFed :
    (store.commitBlocks start blocks).appFedBlockHeight = store.appFedBlockHeight := by
  induction blocks generalizing store start with
  | nil => rfl
  | cons entry rest ih => rw [commitBlocks, ih]; rfl

end Commit

section Prune

variable {store : Store Hash Block} {height target retention stop : Nat}

theorem pruneHeight_blockAtHeight :
    (store.pruneHeight target).blockAtHeight height =
      if height = target then none else store.blockAtHeight height := by
  unfold pruneHeight
  cases indexed : store.blockAtHeight target with
  | none =>
    by_cases same : height = target
    · simp [same, indexed]
    · simp [same]
  | some hash => rfl

theorem pruneHeight_indexed (indexed : store.Indexed) : (store.pruneHeight target).Indexed where
  recorded := by
    intro height present
    rw [pruneHeight_blockAtHeight] at present
    split at present
    · simp at present
    · rename_i other
      obtain ⟨hash, block, found, record⟩ := readable_iff.mp (indexed.recorded present)
      rw [readable_iff]
      refine ⟨hash, block, by rw [pruneHeight_blockAtHeight, if_neg other, found], ?_⟩
      unfold pruneHeight
      cases pruned : store.blockAtHeight target with
      | none => exact record
      | some gone =>
        have kept : hash ≠ gone := fun equal => other (indexed.distinct found (equal ▸ pruned))
        simp [kept, record]
  distinct := by
    intro first second hash firstFound secondFound
    rw [pruneHeight_blockAtHeight] at firstFound secondFound
    split at firstFound
    · contradiction
    · split at secondFound
      · contradiction
      · exact indexed.distinct firstFound secondFound

theorem pruneHeights_indexed (heights : List Nat) (indexed : store.Indexed) :
    (heights.foldl pruneHeight store).Indexed := by
  induction heights generalizing store with
  | nil => exact indexed
  | cons target rest ih => exact ih (pruneHeight_indexed indexed)

theorem pruneHeights_blockAtHeight {heights : List Nat} :
    (heights.foldl pruneHeight store).blockAtHeight height =
      if height ∈ heights then none else store.blockAtHeight height := by
  induction heights generalizing store with
  | nil => simp
  | cons target rest ih =>
    rw [List.foldl_cons, ih, pruneHeight_blockAtHeight]
    by_cases first : height = target
    · simp [first]
    · simp [first]

theorem pruneHeight_frame :
    (store.pruneHeight target).highestCommittedBlockHeight = store.highestCommittedBlockHeight ∧
      (store.pruneHeight target).appFedBlockHeight = store.appFedBlockHeight := by
  unfold pruneHeight
  cases store.blockAtHeight target <;> simp

theorem pruneHeights_frame {heights : List Nat} :
    (heights.foldl pruneHeight store).highestCommittedBlockHeight =
        store.highestCommittedBlockHeight ∧
      (heights.foldl pruneHeight store).appFedBlockHeight = store.appFedBlockHeight := by
  induction heights generalizing store with
  | nil => simp
  | cons target rest ih =>
    rw [List.foldl_cons, ih.1, ih.2]
    exact pruneHeight_frame

theorem pruneOldCommittedBlocksWith_readable (tidy : store.Tidy)
    (prunes : store.pruneEnd retention = some stop) :
    (store.pruneOldCommittedBlocksWith retention).Readable height ↔
      store.Readable height ∧ stop ≤ height := by
  obtain ⟨highest, committed, below, advanced⟩ := pruneEnd_bounds prunes
  obtain ⟨low, bounded, pruned, inside⟩ := tidy.window committed
  have indexed := pruneHeights_indexed (List.range' (store.blockTreePrunedHeight.getD 0)
    (stop - store.blockTreePrunedHeight.getD 0)) tidy.toIndexed
  have same : (store.pruneOldCommittedBlocksWith retention).Readable height ↔
      ((List.range' (store.blockTreePrunedHeight.getD 0)
        (stop - store.blockTreePrunedHeight.getD 0)).foldl pruneHeight store).Readable height := by
    simp only [pruneOldCommittedBlocksWith, prunes, readable_iff]
  rw [same, indexed.readable_iff_isSome, pruneHeights_blockAtHeight]
  by_cases removed : height ∈ List.range' (store.blockTreePrunedHeight.getD 0)
      (stop - store.blockTreePrunedHeight.getD 0)
  · simp only [removed, if_true, Option.isSome_none, Bool.false_eq_true, false_iff, not_and]
    simp only [List.mem_range'_1] at removed
    omega
  · simp only [removed, if_false, ← tidy.toIndexed.readable_iff_isSome]
    simp only [List.mem_range'_1] at removed
    refine ⟨fun readable => ⟨readable, ?_⟩, fun kept => kept.1⟩
    have := (inside height).mp readable
    omega

theorem pruneOldCommittedBlocksWith_frame (store : Store Hash Block) (retention : Nat) :
    (store.pruneOldCommittedBlocksWith retention).highestCommittedBlockHeight =
        store.highestCommittedBlockHeight ∧
      (store.pruneOldCommittedBlocksWith retention).appFedBlockHeight =
        store.appFedBlockHeight := by
  unfold pruneOldCommittedBlocksWith
  cases store.pruneEnd retention with
  | none => simp
  | some stop => exact pruneHeights_frame

theorem pruneOldCommittedBlocksWith_tidy (tidy : store.Tidy) :
    (store.pruneOldCommittedBlocksWith retention).Tidy := by
  cases prunes : store.pruneEnd retention with
  | none => simpa [pruneOldCommittedBlocksWith, prunes] using tidy
  | some stop =>
    obtain ⟨highest, committed, below, advanced⟩ := pruneEnd_bounds prunes
    have indexed := pruneHeights_indexed (List.range'
      (store.blockTreePrunedHeight.getD 0)
      (stop - store.blockTreePrunedHeight.getD 0)) tidy.toIndexed
    have highestKept := (pruneOldCommittedBlocksWith_frame store retention).1
    refine ⟨⟨?_, ?_⟩, ?_, ?_⟩
    · intro height present
      simp only [pruneOldCommittedBlocksWith, prunes] at present ⊢
      exact readable_iff.mpr (readable_iff.mp (indexed.recorded present))
    · intro first second hash firstFound secondFound
      simp only [pruneOldCommittedBlocksWith, prunes] at firstFound secondFound
      exact indexed.distinct firstFound secondFound
    · intro none
      rw [highestKept, committed] at none
      contradiction
    · intro top topCommitted
      rw [highestKept, committed, Option.some.injEq] at topCommitted
      subst top
      obtain ⟨low, bounded, pruned, inside⟩ := tidy.window committed
      refine ⟨max low stop, by omega, ?_, fun height => ?_⟩
      · simp [pruneOldCommittedBlocksWith, prunes]
      · rw [pruneOldCommittedBlocksWith_readable tidy prunes, inside]
        omega

theorem pruneOldCommittedBlocks_tidy {configured : Option Nat} (tidy : store.Tidy) :
    (store.pruneOldCommittedBlocks configured).Tidy := by
  unfold pruneOldCommittedBlocks
  cases blockTreeRetention configured with
  | none => exact tidy
  | some retention => exact pruneOldCommittedBlocksWith_tidy tidy

theorem pruneOldCommittedBlocks_readable {configured : Option Nat} (tidy : store.Tidy) :
    (store.pruneOldCommittedBlocks configured).Readable height ↔
      store.Readable height ∧ store.pruneStop configured ≤ height := by
  unfold pruneOldCommittedBlocks pruneStop
  cases blockTreeRetention configured with
  | none => simp
  | some retention =>
    cases prunes : store.pruneEnd retention with
    | none => simp [pruneOldCommittedBlocksWith, prunes]
    | some stop => simpa [prunes] using pruneOldCommittedBlocksWith_readable tidy prunes

theorem pruneOldCommittedBlocks_frame (store : Store Hash Block) (configured : Option Nat) :
    (store.pruneOldCommittedBlocks configured).highestCommittedBlockHeight =
        store.highestCommittedBlockHeight ∧
      (store.pruneOldCommittedBlocks configured).appFedBlockHeight = store.appFedBlockHeight := by
  unfold pruneOldCommittedBlocks
  cases blockTreeRetention configured with
  | none => simp
  | some retention => exact pruneOldCommittedBlocksWith_frame store retention

end Prune

section Commit

variable {store : Store Hash Block} {blocks : List (Hash × Block)} {first height : Nat}
  {configured : Option Nat}

omit [DecidableEq Hash] in
theorem nextHeight_next (store : Store Hash Block) (first : Nat) :
    ∀ highest, store.highestCommittedBlockHeight = some highest →
      store.nextHeight first = highest + 1 := by
  intro highest committed
  simp [nextHeight, committed]

theorem commit_tidy (tidy : store.Tidy) (fresh : store.Fresh blocks) :
    (store.commit first blocks configured).Tidy := by
  unfold commit
  split
  · exact tidy
  · exact pruneOldCommittedBlocks_tidy (commitBlocks_tidy tidy fresh (nextHeight_next store first))

theorem commit_appFed :
    (store.commit first blocks configured).appFedBlockHeight = store.appFedBlockHeight := by
  unfold commit
  split
  · rfl
  · rw [(pruneOldCommittedBlocks_frame _ _).2, commitBlocks_appFed]

theorem commit_highest (nonempty : blocks ≠ []) :
    (store.commit first blocks configured).highestCommittedBlockHeight =
      some (store.nextHeight first + blocks.length - 1) := by
  have inhabited : blocks.isEmpty = false := by cases blocks <;> simp_all
  rw [commit, if_neg (by simp [inhabited]), (pruneOldCommittedBlocks_frame _ _).1,
    commitBlocks_highest nonempty]

theorem commit_readable (tidy : store.Tidy) (fresh : store.Fresh blocks) (nonempty : blocks ≠ []) :
    (store.commit first blocks configured).Readable height ↔
      ((store.nextHeight first ≤ height ∧ height < store.nextHeight first + blocks.length) ∨
        store.Readable height) ∧
      (store.commitBlocks (store.nextHeight first) blocks).pruneStop configured ≤ height := by
  have inhabited : blocks.isEmpty = false := by cases blocks <;> simp_all
  rw [commit, if_neg (by simp [inhabited]), pruneOldCommittedBlocks_readable
    (commitBlocks_tidy tidy fresh (nextHeight_next store first)), commitBlocks_readable fresh]

end Commit

end Store

end TorusHyperBft.Feed
