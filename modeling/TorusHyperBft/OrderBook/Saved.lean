import TorusHyperBft.OrderBook.Save

namespace TorusHyperBft.OrderBook

open List WriteBehind

/-! What the journals and the caches say is true of the book, whatever is done to it. -/

variable {hash : StreamingHash}

namespace Journals

section Record

variable {journals : Journals hash} {marks : List Mark}

/-- Only the dirty marks differ. -/
structure SameCaches (before after : Journals hash) : Prop where
  rowExists : after.rowExists = before.rowExists
  levelExists : after.levelExists = before.levelExists
  levelHashCache : after.levelHashCache = before.levelHashCache
  levelHashChunked : after.levelHashChunked = before.levelHashChunked
  levelChunks : after.levelChunks = before.levelChunks

theorem record_frame (journals : Journals hash) (mark : Mark) :
    SameCaches journals (journals.record mark) := by
  unfold record
  split
  · exact ⟨rfl, rfl, rfl, rfl, rfl⟩
  · exact ⟨rfl, rfl, rfl, rfl, rfl⟩
  · split <;> exact ⟨rfl, rfl, rfl, rfl, rfl⟩
  · split <;> exact ⟨rfl, rfl, rfl, rfl, rfl⟩

theorem recordAll_frame (journals : Journals hash) (marks : List Mark) :
    SameCaches journals (journals.recordAll marks) := by
  induction marks generalizing journals with
  | nil => exact ⟨rfl, rfl, rfl, rfl, rfl⟩
  | cons mark marks ih =>
    have first := journals.record_frame mark
    have rest := ih (journals.record mark)
    exact ⟨rest.rowExists.trans first.rowExists, rest.levelExists.trans first.levelExists,
      rest.levelHashCache.trans first.levelHashCache,
      rest.levelHashChunked.trans first.levelHashChunked,
      rest.levelChunks.trans first.levelChunks⟩

theorem mem_recordAll_rowJournal {id : Nat} : id ∈ (journals.recordAll marks).rowJournal ↔
    id ∈ journals.rowJournal ∨ Mark.row id ∈ marks := by
  induction marks generalizing journals with
  | nil => simp [recordAll]
  | cons mark marks ih =>
    have step : id ∈ (journals.record mark).rowJournal ↔
        id ∈ journals.rowJournal ∨ Mark.row id = mark := by
      unfold record
      split
      · simp [or_comm]
      · simp
      · split <;> simp
      · split <;> simp
    rw [recordAll, foldl_cons, mem_cons, ← or_assoc, ← step]
    exact ih

theorem mem_recordAll_levelJournal {key : LevelKey} :
    key ∈ (journals.recordAll marks).levelJournal ↔
      key ∈ journals.levelJournal ∨ Mark.level key ∈ marks := by
  induction marks generalizing journals with
  | nil => simp [recordAll]
  | cons mark marks ih =>
    have step : key ∈ (journals.record mark).levelJournal ↔
        key ∈ journals.levelJournal ∨ Mark.level key = mark := by
      unfold record
      split
      · simp
      · simp [or_comm]
      · split <;> simp
      · split <;> simp
    rw [recordAll, foldl_cons, mem_cons, ← or_assoc, ← step]
    exact ih

theorem recordAll_levelEpoch (cached : journals.levelHashCache.isSome) (key : LevelKey) :
    journals.levelEpoch key ≤ (journals.recordAll marks).levelEpoch key ∧
      (Mark.epoch key ∉ marks →
        (journals.recordAll marks).levelEpoch key = journals.levelEpoch key) ∧
      (Mark.epoch key ∈ marks →
        journals.levelEpoch key < (journals.recordAll marks).levelEpoch key) := by
  induction marks generalizing journals with
  | nil => exact ⟨Nat.le_refl _, fun _ => rfl, fun member => by simp at member⟩
  | cons mark marks ih =>
    have stillCached : (journals.record mark).levelHashCache.isSome := by
      rw [(journals.record_frame mark).levelHashCache]
      exact cached
    obtain ⟨grows, kept, bumped⟩ := ih stillCached
    have step : (mark ≠ Mark.epoch key →
          (journals.record mark).levelEpoch key = journals.levelEpoch key) ∧
        (mark = Mark.epoch key →
          (journals.record mark).levelEpoch key = journals.levelEpoch key + 1) := by
      unfold record
      split
      · simp
      · simp
      · rename_i other
        rw [if_pos cached]
        by_cases same : other = key
        · simp [same]
        · simp [same, Function.update_of_ne (Ne.symm same)]
      · split <;> simp
    rw [recordAll, foldl_cons]
    change journals.levelEpoch key ≤ ((journals.record mark).recordAll marks).levelEpoch key ∧
      _ ∧ _
    by_cases own : mark = Mark.epoch key
    · have stepped := step.2 own
      refine ⟨by omega, fun absent => absurd (by rw [own]; exact mem_cons_self) absent,
        fun _ => ?_⟩
      exact Nat.lt_of_lt_of_le (by omega) grows
    · have stepped := step.1 own
      refine ⟨by omega, fun absent => ?_, fun member => ?_⟩
      · exact (kept fun later => absent (mem_cons_of_mem _ later)).trans stepped
      · have later := (mem_cons.mp member).resolve_left (Ne.symm own)
        exact Nat.lt_of_le_of_lt (Nat.le_of_eq stepped.symm) (bumped later)

theorem mem_recordAll_dirtyChunks (chunked : journals.levelHashChunked = true) {key : LevelKey}
    {chunk : Nat} : (key, chunk) ∈ (journals.recordAll marks).dirtyChunks ↔
      (key, chunk) ∈ journals.dirtyChunks ∨
        ∃ seq, Mark.chunk key (some seq) ∈ marks ∧ seq / levelChunkSeqs = chunk := by
  induction marks generalizing journals with
  | nil => simp [recordAll]
  | cons mark marks ih =>
    have stillChunked : (journals.record mark).levelHashChunked = true := by
      rw [(journals.record_frame mark).levelHashChunked]
      exact chunked
    have step : (key, chunk) ∈ (journals.record mark).dirtyChunks ↔
        (key, chunk) ∈ journals.dirtyChunks ∨
          ∃ seq, Mark.chunk key (some seq) = mark ∧ seq / levelChunkSeqs = chunk := by
      cases mark with
      | row id => simp [record]
      | level key => simp [record]
      | epoch key =>
        simp only [record]
        split <;> simp
      | chunk other seq =>
        cases seq with
        | none => simp [record]
        | some seq =>
          simp only [record, chunked, Finset.mem_insert, Prod.mk.injEq, Mark.chunk.injEq,
            Option.some.injEq]
          constructor
          · rintro (⟨rfl, rfl⟩ | old)
            · exact Or.inr ⟨seq, ⟨rfl, rfl⟩, rfl⟩
            · exact Or.inl old
          · rintro (old | ⟨_, ⟨rfl, rfl⟩, rfl⟩)
            · exact Or.inr old
            · exact Or.inl ⟨rfl, rfl⟩
    rw [recordAll, foldl_cons]
    change (key, chunk) ∈ ((journals.record mark).recordAll marks).dirtyChunks ↔ _
    rw [ih stillChunked, step, or_assoc]
    constructor
    · rintro (old | ⟨seq, own, same⟩ | ⟨seq, later, same⟩)
      · exact Or.inl old
      · exact Or.inr ⟨seq, by rw [own]; exact mem_cons_self, same⟩
      · exact Or.inr ⟨seq, mem_cons_of_mem _ later, same⟩
    · rintro (old | ⟨seq, member, same⟩)
      · exact Or.inl old
      · rcases mem_cons.mp member with own | later
        · exact Or.inr (Or.inl ⟨seq, own, same⟩)
        · exact Or.inr (Or.inr ⟨seq, later, same⟩)

end Record

/-- Every cached hash and every chunk that is not marked dirty is that of the book. -/
structure Sound (journals : Journals hash) (book : Book) : Prop where
  cached : ∀ cache, journals.levelHashCache = some cache → ∀ key entry,
    cache.entries.lookup key = some entry →
      entry.Sound (journals.levelEpoch key) (book.rowsAt key)
  chunked : ∀ key chunks, journals.levelChunks key = some chunks →
    journals.levelHashChunked = true ∧ ∀ chunk, (key, chunk) ∉ journals.dirtyChunks →
      chunks.lookup chunk = chunkOf hash (book.rowsAt key) chunk

theorem Sound.recordAll {journals : Journals hash} {before after : Book} {marks : List Mark}
    (sound : journals.Sound before) (tracked : Tracked before marks after) :
    (journals.recordAll marks).Sound after := by
  have frame := recordAll_frame journals marks
  constructor
  · intro cache present key entry found
    rw [frame.levelHashCache] at present
    have old := sound.cached cache present key entry found
    obtain ⟨_, kept, bumped⟩ := @recordAll_levelEpoch hash journals marks
      (by rw [present]; rfl) key
    by_cases moved : Mark.epoch key ∈ marks
    · exact old.stale (bumped moved)
    · rw [kept moved]
      exact old.append ((tracked key).appends moved)
  · intro key chunks present
    rw [frame.levelChunks] at present
    obtain ⟨mode, right⟩ := sound.chunked key chunks present
    refine ⟨frame.levelHashChunked.trans mode, fun chunk clean => ?_⟩
    rw [mem_recordAll_dirtyChunks mode, not_or] at clean
    have same := (tracked key).rewrites.chunks chunk fun seq marked equal =>
      clean.2 ⟨seq, marked, equal⟩
    rw [right chunk clean.1, chunkOf, chunkOf, same]

end Journals

namespace Book

section Drains

variable {book : Book} {journals : Journals hash}

theorem Valid.seqAscends (valid : book.Valid) (key : LevelKey) : SeqAscends (book.rowsAt key) := by
  rw [rowsAt_eq, SeqAscends, Queue.rows, pairwise_map]
  have sequenced : ∀ order ∈ book.queueAt key, ∃ seq, book.indexes.orderSeq order.id = some seq :=
    fun order member => valid.seq_of_resting (valid.mem_queueAt member).1
  unfold queueAt at sequenced ⊢
  cases found : (book.ladder key.side).get key.price with
  | none => exact List.Pairwise.nil
  | some queue =>
    rw [found] at sequenced
    have ordered := ((valid.ladders key.side).get_level found).ordered
    apply ordered.imp_of_mem
    intro first second inFirst inSecond before
    obtain ⟨earlier, foundFirst⟩ := sequenced first inFirst
    obtain ⟨later, foundSecond⟩ := sequenced second inSecond
    rw [Order.row, Order.row, foundFirst, foundSecond]
    exact before earlier later foundFirst foundSecond

/-- Every cached level hash is that of its rows. -/
def CacheSound (book : Book) (levelEpoch : LevelKey → Nat) (cache : Option (LevelHashCache hash)) :
    Prop :=
  ∀ held, cache = some held → ∀ key entry, held.entries.lookup key = some entry →
    entry.Sound (levelEpoch key) (book.rowsAt key)

theorem flatRow_spec (levelEpoch : LevelKey → Nat) (cache : Option (LevelHashCache hash))
    (key : LevelKey) (sound : book.CacheSound levelEpoch cache) :
    (book.flatRow levelEpoch cache key).1 = levelRowData hash (book.rowsAt key) ∧
      book.CacheSound levelEpoch (book.flatRow levelEpoch cache key).2 := by
  cases cache with
  | none => exact ⟨rfl, fun held absurd => by contradiction⟩
  | some cache =>
    obtain ⟨same, entries⟩ := levelRowDataCached_spec fun entry found =>
      sound cache rfl key entry found
    unfold flatRow
    dsimp only
    generalize levelRowDataCached key (levelEpoch key) (book.rowsAt key) cache = outcome
      at same entries ⊢
    obtain ⟨data, after⟩ := outcome
    dsimp only at same entries
    have kept : book.CacheSound levelEpoch (some after) := by
      intro held present other entry found
      obtain rfl := Option.some.inj present
      rcases entries other entry found with ⟨rfl, right⟩ | ⟨_, old⟩
      · exact right
      · exact sound cache rfl other entry old
    cases data with
    | some data => exact ⟨same, kept⟩
    | none =>
      refine ⟨same, ?_⟩
      intro held present other entry found
      obtain rfl := Option.some.inj present
      by_cases own : other = key
      · rw [own] at found
        dsimp only at found
        rw [AList.lookup_erase] at found
        contradiction
      · dsimp only at found
        rw [AList.lookup_erase_ne own] at found
        exact kept after rfl other entry found

/-- Every clean chunk hash is that of its rows. -/
def ChunkSound (hash : StreamingHash) (book : Book) (state : ChunkState) : Prop :=
  ∀ key chunks, state.levelChunks key = some chunks → ∀ chunk, (key, chunk) ∉ state.dirtyChunks →
    chunks.lookup chunk = chunkOf hash (book.rowsAt key) chunk

/-- Rehashing the dirty chunks brings every chunk up to date. -/
theorem refreshChunks_spec {rows : List OrderRow} {dirty : List Nat}
    {held : Option (OrderedMap Nat ChunkAgg)} (ascends : SeqAscends rows) (nonempty : rows ≠ [])
    (clean : ∀ chunks, held = some chunks → ∀ chunk, chunk ∉ dirty →
      chunks.lookup chunk = chunkOf hash rows chunk) :
    (∀ chunk, (refreshChunks hash rows dirty held).lookup chunk = chunkOf hash rows chunk) ∧
      levelRowDataChunked hash rows = some (chunkedTop hash (refreshChunks hash rows dirty held)) := by
  cases held with
  | none =>
    have some : ¬ rows.isEmpty = true := fun empty => nonempty (List.isEmpty_iff.mp empty)
    exact ⟨rebuildAllChunks_lookup ascends, by rw [levelRowDataChunked, if_neg some]; rfl⟩
  | some chunks =>
    refine ⟨fun chunk => ?_, levelRowDataChunked_of_dirty ascends nonempty (clean chunks rfl)⟩
    rw [refreshChunks, rebuildChunks_lookup ascends]
    by_cases marked : chunk ∈ dirty
    · rw [if_pos marked]
    · rw [if_neg marked, clean chunks rfl chunk marked]

/-- The cached chunks give the row that hashing all rows would. -/
theorem Valid.chunkedRow_spec (valid : book.Valid) (state : ChunkState) (key : LevelKey)
    (sound : ChunkSound hash book state) :
    (chunkedRow hash book state key).1 = levelRowDataChunked hash (book.rowsAt key) ∧
      ChunkSound hash book (chunkedRow hash book state key).2 := by
  have ascends := valid.seqAscends key
  have others : ∀ other chunk, other ≠ key →
      (other, chunk) ∉ state.dirtyChunks.filter (fun mark => mark.1 ≠ key) →
      (other, chunk) ∉ state.dirtyChunks := by
    intro other chunk different clean marked
    exact clean (Finset.mem_filter.mpr ⟨marked, different⟩)
  unfold chunkedRow
  dsimp only
  by_cases empty : (book.rowsAt key).isEmpty = true
  · rw [if_pos empty]
    refine ⟨by rw [levelRowDataChunked, if_pos empty], fun other chunks present chunk clean => ?_⟩
    dsimp only at present clean
    by_cases same : other = key
    · rw [same, Function.update_self] at present
      contradiction
    · rw [Function.update_of_ne same] at present
      exact sound other chunks present chunk (others other chunk same clean)
  · have nonempty : book.rowsAt key ≠ [] := fun nil => empty (by rw [nil]; rfl)
    rw [if_neg empty]
    generalize dirtyEq : ((state.dirtyChunks.filter fun mark => mark.1 = key).image
      Prod.snd).sort = dirty
    have mem_dirty : ∀ chunk, chunk ∈ dirty ↔ (key, chunk) ∈ state.dirtyChunks := by
      intro chunk
      rw [← dirtyEq, Finset.mem_sort, Finset.mem_image]
      constructor
      · rintro ⟨⟨other, own⟩, member, rfl⟩
        obtain ⟨marked, same⟩ := Finset.mem_filter.mp member
        rw [← same]
        exact marked
      · intro marked
        exact ⟨(key, chunk), Finset.mem_filter.mpr ⟨marked, rfl⟩, rfl⟩
    have clean : ∀ chunks, state.levelChunks key = some chunks → ∀ chunk, chunk ∉ dirty →
        chunks.lookup chunk = chunkOf hash (book.rowsAt key) chunk :=
      fun chunks present chunk absent => sound key chunks present chunk fun marked =>
        absent ((mem_dirty chunk).mpr marked)
    obtain ⟨rebuilt, row⟩ := refreshChunks_spec ascends nonempty clean
    refine ⟨row.symm, fun other held present chunk clean => ?_⟩
    dsimp only at present clean
    by_cases same : other = key
    · rw [same, Function.update_self] at present
      obtain rfl := Option.some.inj present
      rw [same]
      exact rebuilt chunk
    · rw [Function.update_of_ne same] at present
      exact sound other held present chunk (others other chunk same clean)

/-- Taking the level rows leaves the store with the rows of the book. -/
theorem Valid.takeLevelOps_spec (valid : book.Valid) (sound : journals.Sound book) :
    (book.takeLevelOps journals).1.Sound book ∧
      (∀ op ∈ (book.takeLevelOps journals).2,
        op.2 = book.freshLevelRow hash journals.levelHashChunked op.1) ∧
      ∀ stored, WriteBehind.Mirrors journals.levelExists stored →
        (∀ key, key ∉ journals.levelJournal →
          stored key = book.freshLevelRow hash journals.levelHashChunked key) →
        WriteBehind.applyOps stored (book.takeLevelOps journals).2 =
            book.freshLevelRow hash journals.levelHashChunked ∧
          WriteBehind.Mirrors (book.takeLevelOps journals).1.levelExists
            (book.freshLevelRow hash journals.levelHashChunked) := by
  unfold takeLevelOps
  dsimp only
  cases mode : journals.levelHashChunked with
  | true =>
    have start : ChunkSound hash book
        { levelChunks := journals.levelChunks, dirtyChunks := journals.dirtyChunks } :=
      fun key chunks present => (sound.chunked key chunks present).2
    have computes : ∀ state key, ChunkSound hash book state →
        (chunkedRow hash book state key).1 = book.freshLevelRow hash true key ∧
          ChunkSound hash book (chunkedRow hash book state key).2 :=
      fun state key right => valid.chunkedRow_spec state key right
    rw [if_pos rfl]
    refine ⟨⟨sound.cached, fun key chunks present => ⟨rfl, ?_⟩⟩, ?_, ?_⟩
    · exact drain_inv computes start _ key chunks present
    · exact drain_ops computes start (by simp) _
    · intro stored mirrors behind
      exact drain_exact computes start mirrors fun key absent =>
        behind key fun member => absent ((Finset.mem_sort _).mpr member)
  | false =>
    have start : book.CacheSound journals.levelEpoch journals.levelHashCache := sound.cached
    have computes : ∀ cache key, book.CacheSound journals.levelEpoch cache →
        (book.flatRow journals.levelEpoch cache key).1 = book.freshLevelRow hash false key ∧
          book.CacheSound journals.levelEpoch (book.flatRow journals.levelEpoch cache key).2 :=
      fun cache key right => flatRow_spec journals.levelEpoch cache key right
    rw [if_neg (by simp)]
    refine ⟨⟨?_, fun key chunks present => ?_⟩, ?_, ?_⟩
    · exact drain_inv computes start _
    · have on := (sound.chunked key chunks present).1
      rw [mode] at on
      contradiction
    · exact drain_ops computes start (by simp) _
    · intro stored mirrors behind
      exact drain_exact computes start mirrors fun key absent =>
        behind key fun member => absent ((Finset.mem_sort _).mpr member)

end Drains

end Book

end TorusHyperBft.OrderBook
