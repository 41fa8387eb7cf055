import TorusHyperBft.WriteBehind
import TorusHyperBft.OrderBook.Journaled
import TorusHyperBft.OrderBook.LevelHash

namespace TorusHyperBft.OrderBook

/-! Saving a book: what its journals are drained into. -/

/-- Bids before asks, then by price. -/
instance : LinearOrder LevelKey :=
  LinearOrder.lift' (fun key : LevelKey => toLex (sideTag key.side, key.price)) fun left right same => by
    obtain ⟨sides, prices⟩ := Prod.mk.inj (toLex.injective same)
    obtain ⟨leftSide, leftPrice⟩ := left
    obtain ⟨rightSide, rightPrice⟩ := right
    dsimp only at prices
    subst prices
    cases leftSide <;> cases rightSide <;> simp_all [sideTag]

def levelCacheEntryCost : Nat := 512

/-- What a book keeps for its saves.  A level's epoch outlives the level. -/
structure Journals (hash : StreamingHash) where
  rowJournal : Finset Nat := ∅
  rowExists : Finset Nat := ∅
  levelJournal : Finset LevelKey := ∅
  levelExists : Finset LevelKey := ∅
  levelEpoch : LevelKey → Nat := fun _ => 0
  levelHashCache : Option (LevelHashCache hash) := none
  levelHashChunked : Bool := false
  levelChunks : LevelKey → Option (OrderedMap Nat ChunkAgg) := fun _ => none
  dirtyChunks : Finset (LevelKey × Nat) := ∅

namespace Journals

variable {hash : StreamingHash}

/-- Epochs are counted only for a cache, and chunks are marked only in chunked mode. -/
def record (journals : Journals hash) : Mark → Journals hash
  | .row id => { journals with rowJournal := insert id journals.rowJournal }
  | .level key => { journals with levelJournal := insert key journals.levelJournal }
  | .epoch key =>
    if journals.levelHashCache.isSome then
      { journals with
        levelEpoch := Function.update journals.levelEpoch key (journals.levelEpoch key + 1) }
    else journals
  | .chunk key seq =>
    match seq, journals.levelHashChunked with
    | some seq, true =>
      { journals with dirtyChunks := insert (key, seq / levelChunkSeqs) journals.dirtyChunks }
    | _, _ => journals

def recordAll (journals : Journals hash) (marks : List Mark) : Journals hash :=
  marks.foldl record journals

def ensureLevelHashCache (journals : Journals hash) (budgetBytes : Nat) : Journals hash :=
  if budgetBytes = 0 then { journals with levelHashCache := none }
  else
    let maxEntries := max (budgetBytes / levelCacheEntryCost) 1
    { journals with
      levelHashCache := some (match journals.levelHashCache with
        | some cache => { cache with maxEntries }
        | none => { maxEntries }) }

def disableLevelHashCache (journals : Journals hash) : Journals hash :=
  { journals with levelHashCache := none }

def setLevelHashChunked (journals : Journals hash) (on : Bool) : Journals hash :=
  if on then { journals with levelHashChunked := true }
  else { journals with
    levelHashChunked := false, levelChunks := fun _ => none, dirtyChunks := ∅ }

def discardLevelOps (journals : Journals hash) : Journals hash :=
  { journals with levelJournal := ∅, dirtyChunks := ∅, levelChunks := fun _ => none }

end Journals

namespace Book

def rowOf (book : Book) (id : Nat) : Option OrderRow := do
  let seq ← book.indexes.orderSeq id
  let order ← book.getOrder id
  some (seq, order)

/-- What a drain writes for an order.  An indexed order that has no row is a panic of the
source; `Valid.liveRow` rules it out. -/
def liveRow (book : Book) (id : Nat) : Option (List Byte) :=
  if (book.indexes.orderIndex id).isSome then some (((book.rowOf id).map encodeOrderRow).getD [])
  else none

variable {hash : StreamingHash}

def takeRowOps (book : Book) (journals : Journals hash) :
    Journals hash × WriteBehind.Ops Nat (List Byte) :=
  let drain : WriteBehind.Drain Nat (List Byte) Unit :=
    { state := (), present := journals.rowExists }
  let drained := journals.rowJournal.sort.foldl
    (WriteBehind.Drain.visit fun _ id => (book.liveRow id, ())) drain
  ({ journals with rowJournal := ∅, rowExists := drained.present }, drained.ops)

def flatRow (book : Book) (levelEpoch : LevelKey → Nat) (cache : Option (LevelHashCache hash))
    (key : LevelKey) : Option LevelRowData × Option (LevelHashCache hash) :=
  match cache with
  | none => (levelRowData hash (book.rowsAt key), none)
  | some cache =>
    match levelRowDataCached key (levelEpoch key) (book.rowsAt key) cache with
    | (some data, cache) => (some data, some cache)
    | (none, cache) => (none, some { cache with entries := cache.entries.erase key })

structure ChunkState where
  levelChunks : LevelKey → Option (OrderedMap Nat ChunkAgg)
  dirtyChunks : Finset (LevelKey × Nat)

/-- The chunks of a level: the dirty ones again, or all of them when there are none yet. -/
def refreshChunks (hash : StreamingHash) (rows : List OrderRow) (dirty : List Nat) :
    Option (OrderedMap Nat ChunkAgg) → OrderedMap Nat ChunkAgg
  | none => rebuildAllChunks hash rows
  | some chunks => dirty.foldl (rebuildOneChunk hash rows) chunks

def chunkedRow (hash : StreamingHash) (book : Book) (state : ChunkState) (key : LevelKey) :
    Option LevelRowData × ChunkState :=
  let dirty := ((state.dirtyChunks.filter fun mark => mark.1 = key).image Prod.snd).sort
  let dirtyChunks := state.dirtyChunks.filter fun mark => mark.1 ≠ key
  let rows := book.rowsAt key
  if rows.isEmpty then
    (none, { levelChunks := Function.update state.levelChunks key none, dirtyChunks })
  else
    let chunks := refreshChunks hash rows dirty (state.levelChunks key)
    (some (chunkedTop hash chunks),
      { levelChunks := Function.update state.levelChunks key (some chunks), dirtyChunks })

def takeLevelOps (book : Book) (journals : Journals hash) :
    Journals hash × WriteBehind.Ops LevelKey LevelRowData :=
  let keys := journals.levelJournal.sort
  let present := journals.levelExists
  if journals.levelHashChunked then
    let state : ChunkState :=
      { levelChunks := journals.levelChunks, dirtyChunks := journals.dirtyChunks }
    let drained := keys.foldl (WriteBehind.Drain.visit (chunkedRow hash book)) { state, present }
    ({ journals with
        levelJournal := ∅
        levelExists := drained.present
        levelChunks := drained.state.levelChunks
        dirtyChunks := drained.state.dirtyChunks }, drained.ops)
  else
    let drained := keys.foldl (WriteBehind.Drain.visit (book.flatRow journals.levelEpoch))
      { state := journals.levelHashCache, present }
    ({ journals with
        levelJournal := ∅
        levelExists := drained.present
        levelHashCache := drained.state }, drained.ops)

def freshLevelRow (book : Book) (hash : StreamingHash) (chunked : Bool) (key : LevelKey) :
    Option LevelRowData :=
  if chunked then levelRowDataChunked hash (book.rowsAt key)
  else levelRowData hash (book.rowsAt key)

end Book

end TorusHyperBft.OrderBook
