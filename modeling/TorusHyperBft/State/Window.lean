import TorusHyperBft.NativeTrie.Run
import TorusHyperBft.RunningHash.ChainRows
import TorusHyperBft.State.Checkpoint

namespace TorusHyperBft.State

/-! The flush of a block, and the flush of a window of blocks as one checkpoint. -/

open RunningHash (Key Value ColumnFamily Digest ascii ChainMemo ChainRows ChainStep chainStep
  chainRows checkpointHeights putRow PendingState)
open NativeTrie (NativeKey StoredKey NativeSystem nativeRootCfs cfTag)

def metaNativeAppliedHeight : Key := ascii "native_applied_height"

def metaNativeTrieStale : Key := ascii "native_trie_stale"

/-- The database: the rows by column family, those of the native root with their mirror and trie
apart. -/
structure Store where
  rows : ColumnFamily → OrderedMap Key Value := fun _ => .empty
  native : NativeSystem := {}

/-- Whether the trie is kept up, and what its application runs with. -/
structure TrieOptions where
  maintain : Bool := false
  useTrieCache : Bool := false
  useMemberCache : Bool := false
  parallel : Nat := 1
  minBuckets : Nat := 1

structure Block extends FrozenPending where
  side : Option PendingState := none

def editDirty (tag : Fin 7) (dirty : OrderedMap NativeKey (Option Value)) (key : Key)
    (value : Option Value) : OrderedMap NativeKey (Option Value) :=
  if short : key.length < 2 ^ 32 then dirty.insert (toLex (tag, ⟨key, short⟩)) value else dirty

def nativeDirty (state : PendingState) (dirty : OrderedMap NativeKey (Option Value)) :
    OrderedMap NativeKey (Option Value) :=
  nativeRootCfs.foldl (fun dirty rooted =>
    (state rooted.1).deletes.entries.foldl
    (fun dirty delete => editDirty rooted.2 dirty delete.1 none)
      ((state rooted.1).writes.entries.foldl (fun dirty write =>
        editDirty rooted.2 dirty write.1 (some write.2)) dirty)) dirty

def flushDirty (state : PendingState) (side : Option PendingState) :
    OrderedMap NativeKey (Option Value) :=
  match side with
  | some side => nativeDirty side (nativeDirty state {})
  | none => nativeDirty state {}

def appendedRows (state : PendingState) (side : Option PendingState)
    (cf : ColumnFamily) (rows : OrderedMap Key Value) : OrderedMap Key Value :=
  match side with
  | some side => (side cf).appendTo ((state cf).appendTo rows)
  | none => (state cf).appendTo rows

def hasNativeWrites (state : PendingState) (side : Option PendingState) :
    Bool :=
  nativeRootCfs.any fun rooted =>
    !(state rooted.1).isEmpty || side.any fun side => !(side rooted.1).isEmpty

section Flush

variable (sha256 keccak256 : List Byte → Digest) (options : TrieOptions)

/-- The batch of a flush: the rows of the set and of the side set, the trie or its stale mark, the
applied height, and the rows of the running hash. -/
def flushPendingAfterBatch (store : Store) (state : PendingState)
    (side : Option PendingState) (height : Nat) (chain : List (Key × Option Value)) :
    Store :=
  let dirty := flushDirty state side
  let stale : List (Key × Option Value) :=
    if !options.maintain && hasNativeWrites state side then [(metaNativeTrieStale, some [1])] else []
  let applied : List (Key × Option Value) := [(metaNativeAppliedHeight, some (toBytes 8 height))]
  { rows := fun cf =>
      if (cfTag cf).isSome then store.rows cf
      else if cf = .consensusMeta then
        (stale ++ applied ++ chain).foldl putRow (appendedRows state side cf (store.rows cf))
      else appendedRows state side cf (store.rows cf)
    native :=
      if options.maintain then
        (NativeTrie.flushPendingAfterBatch keccak256 store.native
          { dirty
            useTrieCache := options.useTrieCache
            useMemberCache := options.useMemberCache
            parallel := options.parallel
            minBuckets := options.minBuckets }).1
      else { store.native with db := store.native.db.writeNative dirty } }

def Block.layers (block : Block) : List PendingState :=
  block.hashExtras.toList ++ [block.state] ++ block.side.toList

def flushBlock (store : Store) (block : Block) : Store :=
  let db := store.rows .consensusMeta
  let step := chainStep db.lookup block.height
  let hash := (ChainMemo.load db.lookup).hashAt sha256 block.height block.layers
  flushPendingAfterBatch keccak256 options store block.state block.side block.height
    (chainRows (checkpointHeights db) block.height step hash.value)

def flushBlocks (store : Store) (blocks : List Block) : Store :=
  blocks.foldl (flushBlock sha256 keccak256 options) store

structure Window where
  memo : ChainMemo
  rows : ChainRows := {}
  side : CheckpointLayer := {}

def Window.load (store : Store) : Window where
  memo := ChainMemo.load (store.rows .consensusMeta).lookup

def Window.digest (deferBooks : Bool) (db : OrderedMap Key Value) (window : Window) (block : Block) :
    Window :=
  let step := window.memo.step block.height
  let hash := (window.memo.hashAt sha256 block.height block.layers).value
  { memo := window.memo.advance block.height step hash
    rows := window.rows.record db block.height step hash
    side := match block.side with
      | some side => window.side.merge deferBooks { state := side, height := block.height }
      | none => window.side }

def Window.digests (deferBooks : Bool) (store : Store) (blocks : List Block) : Window :=
  blocks.foldl (Window.digest sha256 deferBooks (store.rows .consensusMeta)) (Window.load store)

def flushCheckpoint (store : Store) (layer : CheckpointLayer) (window : Window) (height : Nat) :
    Store :=
  flushPendingAfterBatch keccak256 options store layer.state (some window.side.state) height
    window.rows.entries

end Flush

def touch (state : PendingState) (side : Option PendingState)
    (cf : ColumnFamily) (key : Key) : Option (Option Value) :=
  (side.bind fun side => (side cf).entry key).or ((state cf).entry key)

def taggedCf : Fin 7 → ColumnFamily
  | 0 => .nativeBalances
  | 1 => .nativeOrderBooks
  | 2 => .nativePositions
  | 3 => .nativeOracle
  | 4 => .stakingDelegations
  | 5 => .stakingValidators
  | 6 => .nativeLiquidation

section Dirty

variable {dirty : OrderedMap NativeKey (Option Value)} {tag other : Fin 7}

theorem lookup_editDirty (key : Key) (value : Option Value) (at_ : StoredKey) :
    (editDirty tag dirty key value).lookup (toLex (other, at_)) =
      if tag = other ∧ key = at_.val then some value else dirty.lookup (toLex (other, at_)) := by
  unfold editDirty
  split
  · rename_i short
    rw [OrderedMap.lookup_insert]
    by_cases here : tag = other ∧ key = at_.val
    · obtain ⟨rfl, rfl⟩ := here
      simp
    · have elsewhere : ¬ toLex (other, at_) = toLex (tag, ⟨key, short⟩) := by
        intro same
        have pair := toLex.injective same
        simp only [Prod.mk.injEq] at pair
        exact here ⟨pair.1.symm, by rw [pair.2]⟩
      rw [if_neg here, if_neg elsewhere]
  · rename_i long
    have elsewhere : ¬ (tag = other ∧ key = at_.val) := by
      rintro ⟨-, rfl⟩
      exact long at_.property
    rw [if_neg elsewhere]

theorem lookup_dirty_writes (writes : List (Key × Value)) (ascends : Ascends writes)
    (dirty : OrderedMap NativeKey (Option Value)) (at_ : StoredKey) :
    (writes.foldl (fun dirty write => editDirty tag dirty write.1 (some write.2)) dirty).lookup
        (toLex (other, at_)) =
      if tag = other then
        (((⟨writes, ascends⟩ : OrderedMap Key Value).lookup at_.val).map some).or
          (dirty.lookup (toLex (other, at_)))
      else dirty.lookup (toLex (other, at_)) := by
  induction writes generalizing dirty with
  | nil => simp [OrderedMap.lookup]
  | cons write writes ih =>
    have later := List.pairwise_cons.mp ascends
    rw [List.foldl_cons, ih later.2, lookup_editDirty, OrderedMap.lookup_cons]
    by_cases same : tag = other
    · by_cases here : write.1 = at_.val
      · rw [← here, OrderedMap.lookup_above ascends]
        simp [same]
      · simp [same, here]
    · simp [same]

theorem lookup_dirty_deletes (deletes : List (Key × Unit)) (ascends : Ascends deletes)
    (dirty : OrderedMap NativeKey (Option Value)) (at_ : StoredKey) :
    (deletes.foldl (fun dirty delete => editDirty tag dirty delete.1 none) dirty).lookup
        (toLex (other, at_)) =
      if tag = other ∧ ((⟨deletes, ascends⟩ : OrderedMap Key Unit).lookup at_.val).isSome then some none
      else dirty.lookup (toLex (other, at_)) := by
  induction deletes generalizing dirty with
  | nil => simp [OrderedMap.lookup]
  | cons delete deletes ih =>
    have later := List.pairwise_cons.mp ascends
    rw [List.foldl_cons, ih later.2, lookup_editDirty, OrderedMap.lookup_cons]
    by_cases same : tag = other
    · by_cases here : delete.1 = at_.val
      · simp [same, here]
      · simp [same, here]
    · simp [same]

theorem lookup_dirty_cf (cf : CfPending Key Value) (dirty : OrderedMap NativeKey (Option Value))
    (at_ : StoredKey) :
    (cf.deletes.entries.foldl (fun dirty delete => editDirty tag dirty delete.1 none)
        (cf.writes.entries.foldl (fun dirty write =>
          editDirty tag dirty write.1 (some write.2)) dirty)).lookup (toLex (other, at_)) =
      if tag = other then (cf.entry at_.val).or (dirty.lookup (toLex (other, at_)))
      else dirty.lookup (toLex (other, at_)) := by
  rw [lookup_dirty_deletes _ cf.deletes.ascends, lookup_dirty_writes _ cf.writes.ascends,
    CfPending.entry]
  by_cases same : tag = other
  · by_cases deleted : (cf.deletes.lookup at_.val).isSome
    · simp [same, deleted]
    · simp [same, deleted]
  · simp [same]

theorem lookup_nativeDirty (state : PendingState) (tag : Fin 7) (at_ : StoredKey) :
    (nativeDirty state dirty).lookup (toLex (tag, at_)) =
      ((state (taggedCf tag)).entry at_.val).or (dirty.lookup (toLex (tag, at_))) := by
  simp only [nativeDirty, nativeRootCfs, List.foldl_cons, List.foldl_nil, lookup_dirty_cf]
  fin_cases tag
  all_goals simp [taggedCf]

end Dirty

end TorusHyperBft.State
