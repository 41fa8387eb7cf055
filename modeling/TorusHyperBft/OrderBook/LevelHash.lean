import TorusHyperBft.State.Ordered
import TorusHyperBft.OrderBook.Tracked

namespace TorusHyperBft.OrderBook

open List

/-! The row of a price level and the ways of computing its hash.

A level is given by its order rows, front first.  Counts and sequence numbers are not
bounded here; they are cut to their width where they are written. -/

structure StreamingHash where
  State : Type
  new : State
  update : State → List Byte → State
  finalize : State → List Byte
  update_update : ∀ state first second,
    update (update state first) second = update state (first ++ second)

def StreamingHash.digest (hash : StreamingHash) (bytes : List Byte) : List Byte :=
  hash.finalize (hash.update hash.new bytes)

structure LevelRowData where
  totalQtyRaw : Int
  orderCount : Nat
  levelHash : List Byte
deriving DecidableEq

def rowLength (row : OrderRow) : List Byte := (toBytes 4 (encodeOrderRow row).length).reverse

def frame (row : OrderRow) : List Byte := rowLength row ++ encodeOrderRow row

def totalQty (rows : List OrderRow) : Int := (rows.map fun row => row.2.remainingQty).sum

section Flat

variable (hash : StreamingHash)

def levelRowData (rows : List OrderRow) : Option LevelRowData :=
  if rows.isEmpty then none
  else some
    { totalQtyRaw := totalQty rows
      orderCount := rows.length
      levelHash := hash.digest (rows.flatMap frame) }

def absorbRows (state : hash.State) (rows : List OrderRow) : hash.State :=
  rows.foldl (fun state row => hash.update (hash.update state (rowLength row)) (encodeOrderRow row))
    state

/-- What is remembered of a level between two saves.  A probe says when the level was seen;
a seeded entry holds the hash of the rows it had. -/
inductive CacheEntry where
  | probe (epoch frameCount lastUsed : Nat)
  | seeded (epoch frameCount : Nat) (prefixQty : Int) (hasher : hash.State) (lastUsed : Nat)

variable {hash} in
def CacheEntry.lastUsed : CacheEntry hash → Nat
  | .probe _ _ lastUsed => lastUsed
  | .seeded _ _ _ _ lastUsed => lastUsed

structure LevelHashCache where
  entries : AList fun _ : LevelKey => CacheEntry hash := ∅
  maxEntries : Nat
  tick : Nat := 0

variable {hash}

def LevelHashCache.insertBounded (cache : LevelHashCache hash) (key : LevelKey)
    (entry : CacheEntry hash) : LevelHashCache hash :=
  let kept :=
    if cache.maxEntries ≤ cache.entries.entries.length ∧ key ∉ cache.entries then
      let byAge := (cache.entries.entries.map fun entry => (entry.1, entry.2.lastUsed)).mergeSort
        fun left right => decide (left.2 ≤ right.2)
      (byAge.take (max (cache.maxEntries / 4) 1)).foldl
        (fun entries oldest => entries.erase oldest.1) cache.entries
    else cache.entries
  { cache with entries := kept.insert key entry }

def LevelHashCache.miss (cache : LevelHashCache hash) (key : LevelKey) (epoch : Nat)
    (rows : List OrderRow) : Option LevelRowData × LevelHashCache hash :=
  (levelRowData hash rows, cache.insertBounded key (.probe epoch rows.length cache.tick))

/-- A level's row with the help of the cache.  An unchanged epoch says that the level was
only appended to since its entry was made. -/
def levelRowDataCached (key : LevelKey) (epoch : Nat) (rows : List OrderRow)
    (cache : LevelHashCache hash) : Option LevelRowData × LevelHashCache hash :=
  if rows.isEmpty then (none, cache)
  else
    let cache := { cache with tick := cache.tick + 1 }
    match cache.entries.lookup key with
    | some (.seeded seen frameCount prefixQty hasher _) =>
      if seen = epoch ∧ frameCount ≤ rows.length then
        let tail := rows.drop frameCount
        let prefixQty := prefixQty + totalQty tail
        let hasher := absorbRows hash hasher tail
        (some
          { totalQtyRaw := prefixQty
            orderCount := rows.length
            levelHash := hash.finalize hasher },
          { cache with
            entries := cache.entries.insert key
              (.seeded seen rows.length prefixQty hasher cache.tick) })
      else cache.miss key epoch rows
    | some (.probe seen _ _) =>
      if seen = epoch then
        let hasher := absorbRows hash hash.new rows
        (some
          { totalQtyRaw := totalQty rows
            orderCount := rows.length
            levelHash := hash.finalize hasher },
          { cache with
            entries := cache.entries.insert key
              (.seeded epoch rows.length (totalQty rows) hasher cache.tick) })
      else cache.miss key epoch rows
    | none => cache.miss key epoch rows

end Flat

structure ChunkAgg where
  digest : List Byte
  qty : Int
  count : Nat
deriving DecidableEq

section Chunked

variable (hash : StreamingHash)

/-- The walk that builds all chunks: the open chunk, and the finished ones. -/
structure ChunkWalk where
  current : Option Nat := none
  preimage : List Byte := []
  qty : Int := 0
  count : Nat := 0
  chunks : OrderedMap Nat ChunkAgg := {}

def ChunkWalk.close (walk : ChunkWalk) : OrderedMap Nat ChunkAgg :=
  match walk.current with
  | none => walk.chunks
  | some chunk =>
    walk.chunks.insert chunk
      { digest := hash.digest walk.preimage, qty := walk.qty, count := walk.count }

def ChunkWalk.add (walk : ChunkWalk) (row : OrderRow) : ChunkWalk :=
  let walk :=
    if walk.current = some row.chunk then walk
    else { current := some row.chunk, chunks := walk.close hash }
  { walk with
    preimage := walk.preimage ++ frame row
    qty := walk.qty + row.2.remainingQty
    count := walk.count + 1 }

def rebuildAllChunks (rows : List OrderRow) : OrderedMap Nat ChunkAgg :=
  (rows.foldl (ChunkWalk.add hash) {}).close hash

def rebuildOneChunk (rows : List OrderRow) (chunks : OrderedMap Nat ChunkAgg) (chunk : Nat) :
    OrderedMap Nat ChunkAgg :=
  let low := chunk * levelChunkSeqs
  let high := low + levelChunkSeqs
  let start := (rows.takeWhile fun row => decide (row.1 < low)).length
  let stop := (rows.takeWhile fun row => decide (row.1 < high)).length
  if start = stop then chunks.erase chunk
  else
    let members := (rows.take stop).drop start
    chunks.insert chunk
      { digest := hash.digest (members.flatMap frame)
        qty := totalQty members
        count := stop - start }

def levelHashChunkedDomain : List Byte := [84, 79, 82, 85, 83, 76, 86, 50]

def chunkedTop (chunks : OrderedMap Nat ChunkAgg) : LevelRowData :=
  let total := (chunks.entries.map fun entry => entry.2.qty).sum
  let count := (chunks.entries.map fun entry => entry.2.count).sum
  { totalQtyRaw := total
    orderCount := count
    levelHash := hash.digest (levelHashChunkedDomain ++ (toBytes 4 count ++ (fpBytes total ++
      chunks.entries.flatMap fun entry => toBytes 8 entry.1 ++ entry.2.digest))) }

def levelRowDataChunked (rows : List OrderRow) : Option LevelRowData :=
  if rows.isEmpty then none else some (chunkedTop hash (rebuildAllChunks hash rows))

end Chunked

section Cached

variable {hash : StreamingHash} {key other : LevelKey} {epoch : Nat} {rows : List OrderRow}
  {cache : LevelHashCache hash} {entry : CacheEntry hash}

theorem absorbRows_eq (state : hash.State) (some : rows ≠ []) :
    absorbRows hash state rows = hash.update state (rows.flatMap frame) := by
  induction rows generalizing state with
  | nil => contradiction
  | cons row rows ih =>
    rw [absorbRows, foldl_cons, hash.update_update, flatMap_cons]
    change absorbRows hash (hash.update state (frame row)) rows = _
    by_cases last : rows = []
    · rw [last, flatMap_nil, append_nil]
      rfl
    · rw [ih _ last, hash.update_update]

/-- A seeded entry of the present epoch holds a prefix of the level; one of an older epoch
may hold anything. -/
def CacheEntry.Sound (epoch : Nat) (rows : List OrderRow) : CacheEntry hash → Prop
  | .probe _ _ _ => True
  | .seeded seen frameCount prefixQty hasher _ => seen ≤ epoch ∧ (seen = epoch →
      frameCount ≤ rows.length ∧ prefixQty = totalQty (rows.take frameCount) ∧
        hasher = hash.update hash.new ((rows.take frameCount).flatMap frame))

theorem CacheEntry.Sound.append {after : List OrderRow} (sound : entry.Sound epoch rows)
    (appended : rows <+: after) : entry.Sound epoch after := by
  cases entry with
  | probe => trivial
  | seeded seen frameCount prefixQty hasher lastUsed =>
    obtain ⟨old, holds⟩ := sound
    refine ⟨old, fun current => ?_⟩
    obtain ⟨within, qty, state⟩ := holds current
    obtain ⟨tail, rfl⟩ := appended
    rw [take_append_of_le_length within]
    refine ⟨?_, qty, state⟩
    rw [length_append]
    omega

theorem CacheEntry.Sound.stale {later : Nat} {after : List OrderRow}
    (sound : entry.Sound epoch rows) (bumped : epoch < later) : entry.Sound later after := by
  cases entry with
  | probe => trivial
  | seeded seen frameCount prefixQty hasher lastUsed =>
    have old : seen ≤ epoch := sound.1
    exact ⟨by omega, fun current => absurd current (by omega)⟩

theorem lookup_foldl_erase {entries : AList fun _ : LevelKey => CacheEntry hash}
    {gone : List (LevelKey × Nat)}
    (found : (gone.foldl (fun entries oldest => entries.erase oldest.1) entries).lookup other =
      some entry) : entries.lookup other = some entry := by
  induction gone generalizing entries with
  | nil => exact found
  | cons oldest gone ih =>
    have kept := ih found
    by_cases same : other = oldest.1
    · rw [same, AList.lookup_erase] at kept
      contradiction
    · rwa [AList.lookup_erase_ne same] at kept

theorem LevelHashCache.lookup_insertBounded {inserted : CacheEntry hash}
    (found : (cache.insertBounded key inserted).entries.lookup other = some entry) :
    (other = key ∧ entry = inserted) ∨ (other ≠ key ∧ cache.entries.lookup other = some entry) := by
  unfold insertBounded at found
  dsimp only at found
  by_cases same : other = key
  · rw [same, AList.lookup_insert] at found
    exact Or.inl ⟨same, (Option.some.inj found).symm⟩
  · rw [AList.lookup_insert_ne same] at found
    refine Or.inr ⟨same, ?_⟩
    split at found
    · exact lookup_foldl_erase found
    · exact found

/-- A sound entry gives the row that hashing would, and no other entry changes. -/
theorem levelRowDataCached_spec
    (sound : ∀ entry, cache.entries.lookup key = some entry → entry.Sound epoch rows) :
    (levelRowDataCached key epoch rows cache).1 = levelRowData hash rows ∧
      ∀ other entry, (levelRowDataCached key epoch rows cache).2.entries.lookup other = some entry →
        (other = key ∧ entry.Sound epoch rows) ∨
          (other ≠ key ∧ cache.entries.lookup other = some entry) := by
  unfold levelRowDataCached
  by_cases empty : rows.isEmpty = true
  · rw [if_pos empty, levelRowData, if_pos empty]
    refine ⟨rfl, fun other entry found => ?_⟩
    by_cases same : other = key
    · subst same
      exact Or.inl ⟨rfl, sound entry found⟩
    · exact Or.inr ⟨same, found⟩
  · have missed : ∀ cache : LevelHashCache hash, (cache.miss key epoch rows).1 =
          levelRowData hash rows ∧
        ∀ other entry, (cache.miss key epoch rows).2.entries.lookup other = some entry →
          (other = key ∧ entry.Sound epoch rows) ∨
            (other ≠ key ∧ cache.entries.lookup other = some entry) := by
      intro cache
      refine ⟨rfl, fun other entry found => ?_⟩
      rcases LevelHashCache.lookup_insertBounded found with ⟨same, rfl⟩ | old
      · exact Or.inl ⟨same, trivial⟩
      · exact Or.inr old
    have seeded : ∀ (hasher : hash.State) (lastUsed : Nat) (other : LevelKey)
        (entry : CacheEntry hash), hasher = hash.update hash.new (rows.flatMap frame) →
        (cache.entries.insert key
          (.seeded epoch rows.length (totalQty rows) hasher lastUsed)).lookup other = some entry →
        (other = key ∧ entry.Sound epoch rows) ∨
          (other ≠ key ∧ cache.entries.lookup other = some entry) := by
      intro hasher lastUsed other entry state found
      by_cases same : other = key
      · rw [same, AList.lookup_insert] at found
        obtain rfl := Option.some.inj found
        exact Or.inl ⟨same, Nat.le_refl _, fun _ => by simp [state]⟩
      · rw [AList.lookup_insert_ne same] at found
        exact Or.inr ⟨same, found⟩
    have nonempty : rows ≠ [] := fun nil => empty (by rw [nil]; rfl)
    have plain : levelRowData hash rows =
        some { totalQtyRaw := totalQty rows, orderCount := rows.length
               levelHash := hash.finalize (hash.update hash.new (rows.flatMap frame)) } := by
      rw [levelRowData, if_neg empty]
      rfl
    rw [if_neg empty]
    dsimp only
    cases slot : cache.entries.lookup key with
    | none => exact missed _
    | some entry =>
      cases entry with
      | probe seen frameCount lastUsed =>
        dsimp only
        by_cases current : seen = epoch
        · rw [if_pos current, absorbRows_eq _ nonempty, plain]
          exact ⟨rfl, fun other entry found => seeded _ _ other entry rfl found⟩
        · rw [if_neg current]
          exact missed _
      | seeded seen frameCount prefixQty hasher lastUsed =>
        dsimp only
        by_cases current : seen = epoch ∧ frameCount ≤ rows.length
        · obtain ⟨same, within⟩ := current
          obtain ⟨_, qty, state⟩ := (sound _ slot).2 same
          have absorbed : absorbRows hash hasher (rows.drop frameCount) =
              hash.update hash.new (rows.flatMap frame) := by
            by_cases tail : rows.drop frameCount = []
            · rw [tail, state, take_of_length_le (drop_eq_nil_iff.mp tail)]
              rfl
            · rw [absorbRows_eq _ tail, state, hash.update_update, ← flatMap_append,
                take_append_drop]
          have summed : prefixQty + totalQty (rows.drop frameCount) = totalQty rows := by
            rw [qty, totalQty, totalQty, ← sum_append, ← map_append,
              take_append_drop]
            rfl
          rw [if_pos ⟨same, within⟩, absorbed, summed, plain]
          subst same
          exact ⟨rfl, fun other entry found => seeded _ _ other entry rfl found⟩
        · rw [if_neg current]
          exact missed _

end Cached

/-! Rebuilding the changed chunks gives the chunks of the whole level. -/

section Chunks

variable {hash : StreamingHash} {rows done : List OrderRow} {chunk other : Nat}
  {chunks : OrderedMap Nat ChunkAgg}

/-- Rows by arrival. -/
def SeqAscends (rows : List OrderRow) : Prop :=
  rows.Pairwise fun first second => first.1 < second.1

def chunkOf (hash : StreamingHash) (rows : List OrderRow) (chunk : Nat) : Option ChunkAgg :=
  let members := rows.filter fun row => decide (row.chunk = chunk)
  if members.isEmpty then none
  else some
    { digest := hash.digest (members.flatMap frame)
      qty := totalQty members
      count := members.length }

theorem SeqAscends.takeWhile_eq_filter (ascends : SeqAscends rows) (bound : Nat) :
    rows.takeWhile (fun row => decide (row.1 < bound)) =
      rows.filter fun row => decide (row.1 < bound) := by
  induction rows with
  | nil => rfl
  | cons row rows ih =>
    obtain ⟨above, rest⟩ := pairwise_cons.mp ascends
    by_cases below : row.1 < bound
    · rw [takeWhile_cons_of_pos (by simpa using below),
        filter_cons_of_pos (by simpa using below), ih rest]
    · rw [takeWhile_cons_of_neg (by simpa using below),
        filter_cons_of_neg (by simpa using below)]
      symm
      rw [filter_eq_nil_iff]
      intro later member
      have := above later member
      simp
      omega

theorem SeqAscends.split (ascends : SeqAscends rows) (bound : Nat) :
    rows.filter (fun row => decide (row.1 < bound)) ++
      rows.filter (fun row => decide (¬ row.1 < bound)) = rows := by
  induction rows with
  | nil => rfl
  | cons row rows ih =>
    obtain ⟨above, rest⟩ := pairwise_cons.mp ascends
    by_cases below : row.1 < bound
    · simpa [below] using ih rest
    · have none : rows.filter (fun row => decide (row.1 < bound)) = [] := by
        rw [filter_eq_nil_iff]
        intro later member
        have := above later member
        simp
        omega
      have all := ih rest
      rw [none, nil_append] at all
      rw [filter_cons_of_neg (by simpa using below),
        filter_cons_of_pos (by simpa using below), none, all]
      rfl

theorem OrderRow.chunk_eq_iff (row : OrderRow) (chunk : Nat) : row.chunk = chunk ↔
    row.1 < chunk * levelChunkSeqs + levelChunkSeqs ∧ ¬ row.1 < chunk * levelChunkSeqs := by
  unfold OrderRow.chunk levelChunkSeqs
  omega

theorem SeqAscends.members (ascends : SeqAscends rows) (chunk : Nat) :
    (rows.take (rows.takeWhile fun row =>
        decide (row.1 < chunk * levelChunkSeqs + levelChunkSeqs)).length).drop
      (rows.takeWhile fun row => decide (row.1 < chunk * levelChunkSeqs)).length =
    rows.filter fun row => decide (row.chunk = chunk) := by
  have upTo := prefix_iff_eq_take.mp (List.takeWhile_prefix (l := rows)
    fun row => decide (row.1 < chunk * levelChunkSeqs + levelChunkSeqs))
  have below : SeqAscends (rows.filter fun row =>
      decide (row.1 < chunk * levelChunkSeqs + levelChunkSeqs)) := List.Pairwise.filter _ ascends
  have front : (rows.filter fun row =>
        decide (row.1 < chunk * levelChunkSeqs + levelChunkSeqs)).filter
          (fun row => decide (row.1 < chunk * levelChunkSeqs)) =
      rows.filter fun row => decide (row.1 < chunk * levelChunkSeqs) := by
    rw [filter_filter]
    apply filter_congr
    intro row _
    rw [Bool.eq_iff_iff]
    simp
    omega
  have own : (rows.filter fun row =>
        decide (row.1 < chunk * levelChunkSeqs + levelChunkSeqs)).filter
          (fun row => decide (¬ row.1 < chunk * levelChunkSeqs)) =
      rows.filter fun row => decide (row.chunk = chunk) := by
    rw [filter_filter]
    apply filter_congr
    intro row _
    rw [Bool.eq_iff_iff]
    simp only [Bool.and_eq_true, decide_eq_true_eq, OrderRow.chunk_eq_iff, and_comm]
  have parts := below.split (chunk * levelChunkSeqs)
  rw [front, own] at parts
  rw [← upTo, ascends.takeWhile_eq_filter, ascends.takeWhile_eq_filter, ← parts, drop_left]

theorem rebuildOneChunk_lookup (ascends : SeqAscends rows) :
    (rebuildOneChunk hash rows chunks chunk).lookup other =
      if other = chunk then chunkOf hash rows chunk else chunks.lookup other := by
  have members := ascends.members chunk
  have length := congrArg List.length members
  have order : (rows.takeWhile fun row => decide (row.1 < chunk * levelChunkSeqs)).length ≤
      (rows.takeWhile fun row =>
        decide (row.1 < chunk * levelChunkSeqs + levelChunkSeqs)).length := by
    rw [ascends.takeWhile_eq_filter, ascends.takeWhile_eq_filter]
    apply List.Sublist.length_le
    apply monotone_filter_right
    intro row below
    simp at below ⊢
    omega
  have within : (rows.takeWhile fun row =>
      decide (row.1 < chunk * levelChunkSeqs + levelChunkSeqs)).length ≤ rows.length :=
    (List.takeWhile_prefix _).length_le
  rw [length_drop, length_take, Nat.min_eq_left within] at length
  unfold rebuildOneChunk chunkOf
  dsimp only
  rw [members]
  by_cases none : (rows.takeWhile fun row => decide (row.1 < chunk * levelChunkSeqs)).length =
      (rows.takeWhile fun row => decide (row.1 < chunk * levelChunkSeqs + levelChunkSeqs)).length
  · have empty : rows.filter (fun row => decide (row.chunk = chunk)) = [] := by
      apply eq_nil_of_length_eq_zero
      omega
    rw [if_pos none, empty, OrderedMap.lookup_erase]
    rfl
  · have nonempty : ¬ (rows.filter fun row => decide (row.chunk = chunk)).isEmpty = true := by
      rw [List.isEmpty_iff]
      intro nil
      rw [nil, length_nil] at length
      omega
    rw [if_neg none, if_neg nonempty, OrderedMap.lookup_insert, length]

theorem rebuildChunks_lookup (ascends : SeqAscends rows) (dirty : List Nat) :
    (dirty.foldl (rebuildOneChunk hash rows) chunks).lookup other =
      if other ∈ dirty then chunkOf hash rows other else chunks.lookup other := by
  induction dirty generalizing chunks with
  | nil => rfl
  | cons chunk dirty ih =>
    rw [foldl_cons, ih, rebuildOneChunk_lookup ascends]
    by_cases later : other ∈ dirty
    · simp [later]
    · by_cases same : other = chunk
      · simp [same]
      · simp [later, same]

/-- The walk after the rows `done`: the finished chunks, and the open one so far. -/
structure WalkOf (hash : StreamingHash) (done : List OrderRow) (walk : ChunkWalk) : Prop where
  current : walk.current = done.getLast?.map OrderRow.chunk
  opened : ∀ chunk, walk.current = some chunk →
    let members := done.filter fun row => decide (row.chunk = chunk)
    walk.preimage = members.flatMap frame ∧ walk.qty = totalQty members ∧
      walk.count = members.length
  closed : ∀ chunk, walk.current ≠ some chunk →
    walk.chunks.lookup chunk = chunkOf hash done chunk

theorem WalkOf.close {walk : ChunkWalk} (state : WalkOf hash done walk) (chunk : Nat) :
    (walk.close hash).lookup chunk = chunkOf hash done chunk := by
  unfold ChunkWalk.close
  cases current : walk.current with
  | none => exact state.closed chunk (by simp [current])
  | some own =>
    dsimp only
    rw [OrderedMap.lookup_insert]
    by_cases same : chunk = own
    · subst same
      obtain ⟨preimage, qty, count⟩ := state.opened chunk current
      have nonempty : ¬ (done.filter fun row => decide (row.chunk = chunk)).isEmpty = true := by
        rw [state.current, Option.map_eq_some_iff] at current
        obtain ⟨row, last, rfl⟩ := current
        have member := mem_of_getLast? last
        rw [List.isEmpty_iff, filter_eq_nil_iff]
        intro none
        exact none row member (by simp)
      rw [if_pos rfl, chunkOf, if_neg nonempty, preimage, qty, count]
    · rw [if_neg same]
      exact state.closed chunk (by rw [current]; exact fun equal => same (Option.some.inj equal).symm)

theorem chunkOf_append_other {row : OrderRow} (different : row.chunk ≠ chunk) :
    chunkOf hash (done ++ [row]) chunk = chunkOf hash done chunk := by
  have same : (done ++ [row]).filter (fun row => decide (row.chunk = chunk)) =
      done.filter fun row => decide (row.chunk = chunk) := by
    simp [filter_append, different]
  rw [chunkOf, chunkOf, same]

theorem WalkOf.add {walk : ChunkWalk} (state : WalkOf hash done walk) {row : OrderRow}
    (ascends : SeqAscends (done ++ [row])) : WalkOf hash (done ++ [row]) (walk.add hash row) := by
  unfold ChunkWalk.add
  by_cases same : walk.current = some row.chunk
  · rw [if_pos same]
    obtain ⟨preimage, qty, count⟩ := state.opened row.chunk same
    constructor
    · rw [List.getLast?_concat]
      exact same
    · intro chunk open'
      dsimp only at open' ⊢
      rw [same] at open'
      obtain rfl := Option.some.inj open'
      rw [preimage, qty, count]
      simp [filter_append, totalQty]
    · intro chunk different
      have other : row.chunk ≠ chunk := fun equal => different (by rw [← equal]; exact same)
      rw [chunkOf_append_other other]
      exact state.closed chunk different
  · rw [if_neg same]
    -- The open chunk lies below that of the row, so nothing of the row's chunk was met yet.
    have fresh : done.filter (fun earlier => decide (earlier.chunk = row.chunk)) = [] := by
      rw [filter_eq_nil_iff]
      intro earlier member equal
      rw [decide_eq_true_eq] at equal
      apply same
      rw [state.current]
      have nonempty : done ≠ [] := ne_nil_of_mem member
      rw [List.getLast?_eq_getLast_of_ne_nil nonempty, Option.map_some]
      have below : ∀ first ∈ done, first.1 < row.1 := fun first inDone =>
        (pairwise_append.mp ascends).2.2 first inDone row (by simp)
      have last := below _ (getLast_mem nonempty)
      have upTo : earlier.1 ≤ (done.getLast nonempty).1 := by
        have ascendsDone := (pairwise_append.mp ascends).1
        have split := dropLast_append_getLast nonempty
        rw [← split] at ascendsDone
        rw [← split, mem_append, mem_singleton] at member
        rcases member with inFront | isLast
        · have less := (pairwise_append.mp ascendsDone).2.2 earlier inFront _
            mem_cons_self
          exact Nat.le_of_lt less
        · rw [← isLast]
      congr 1
      unfold OrderRow.chunk levelChunkSeqs at equal ⊢
      omega
    constructor
    · rw [List.getLast?_concat]
      rfl
    · intro chunk open'
      dsimp only at open' ⊢
      obtain rfl := Option.some.inj open'
      rw [filter_append, fresh]
      simp [totalQty]
    · intro chunk different
      have other : row.chunk ≠ chunk := fun equal => different (by rw [← equal])
      rw [chunkOf_append_other other]
      exact state.close chunk

theorem rebuildAllChunks_lookup (ascends : SeqAscends rows) (chunk : Nat) :
    (rebuildAllChunks hash rows).lookup chunk = chunkOf hash rows chunk := by
  have walked : ∀ done rest walk, WalkOf hash done walk → SeqAscends (done ++ rest) →
      WalkOf hash (done ++ rest) (rest.foldl (ChunkWalk.add hash) walk) := by
    intro done rest
    induction rest generalizing done with
    | nil =>
      intro walk state _
      rwa [append_nil]
    | cons row rest ih =>
      intro walk state ascends
      rw [append_cons] at ascends ⊢
      exact ih _ _ (state.add (pairwise_append.mp ascends).1) ascends
  have start : WalkOf hash [] {} := ⟨rfl, fun chunk current => by contradiction, fun chunk _ => rfl⟩
  exact (walked [] rows {} start ascends).close chunk

theorem chunkedTop_congr {others : OrderedMap Nat ChunkAgg}
    (same : ∀ chunk, chunks.lookup chunk = others.lookup chunk) :
    chunkedTop hash chunks = chunkedTop hash others := by
  have entries : chunks.entries = others.entries := by
    apply chunks.ascends.ext others.ascends
    rintro ⟨chunk, agg⟩
    rw [← OrderedMap.lookup_eq_some, ← OrderedMap.lookup_eq_some, same]
  unfold chunkedTop
  rw [entries]

theorem levelRowDataChunked_of_dirty (ascends : SeqAscends rows) (nonempty : rows ≠ [])
    {dirty : List Nat}
    (clean : ∀ chunk, chunk ∉ dirty → chunks.lookup chunk = chunkOf hash rows chunk) :
    levelRowDataChunked hash rows =
      some (chunkedTop hash (dirty.foldl (rebuildOneChunk hash rows) chunks)) := by
  have some : ¬ rows.isEmpty = true := fun empty => nonempty (List.isEmpty_iff.mp empty)
  rw [levelRowDataChunked, if_neg some]
  congr 1
  apply chunkedTop_congr
  intro chunk
  rw [rebuildAllChunks_lookup ascends, rebuildChunks_lookup ascends]
  by_cases marked : chunk ∈ dirty
  · rw [if_pos marked]
  · rw [if_neg marked, clean chunk marked]

end Chunks

end TorusHyperBft.OrderBook
