import TorusHyperBft.State.Window

namespace TorusHyperBft.State

open List RunningHash

/-! A window of blocks written as one checkpoint leaves what its blocks leave one by one. -/

open NativeTrie (NativeKey StoredKey cfTag)

section Flush

variable {sha256 keccak256 : List Byte → Digest} {options : TrieOptions} {store : Store}
  {state : PendingState} {side : Option PendingState} {height : Nat}
  {chain : List (Key × Option Value)} {cf : ColumnFamily} {key : Key}

def staleRows (options : TrieOptions) (state : PendingState)
    (side : Option PendingState) : List (Key × Option Value) :=
  if !options.maintain && hasNativeWrites state side then [(metaNativeTrieStale, some [1])] else []

def appliedRow (height : Nat) : Key × Option Value :=
  (metaNativeAppliedHeight, some (toBytes 8 height))

theorem lookup_appendedRows (rows : OrderedMap Key Value) :
    (appendedRows state side cf rows).lookup key = (touch state side cf key).getD
    (rows.lookup key) := by
  cases side with
  | none => exact CfPending.lookup_appendTo _ _ _
  | some side =>
    simp only [appendedRows, touch, Option.bind_some]
    rw [CfPending.lookup_appendTo, CfPending.lookup_appendTo]
    cases (side cf).entry key with
    | some edit => rfl
    | none => rfl

theorem flush_rooted (rooted : (cfTag cf).isSome) :
    (flushPendingAfterBatch keccak256 options store state side height chain).rows cf =
      store.rows cf := by
  simp only [flushPendingAfterBatch, rooted, if_true]

theorem flush_lookup (plain : cfTag cf = none) (other : cf ≠ .consensusMeta) :
    ((flushPendingAfterBatch keccak256 options store state side height chain).rows cf).lookup key =
      (touch state side cf key).getD ((store.rows cf).lookup key) := by
  simp only [flushPendingAfterBatch, plain, Option.isSome_none, Bool.false_eq_true, if_false, other]
  exact lookup_appendedRows _

theorem flush_meta :
    ((flushPendingAfterBatch keccak256 options store state side height chain).rows
        .consensusMeta).lookup =
      (staleRows options state side ++ [appliedRow height] ++ chain).foldl setRow
        (fun key => (touch state side .consensusMeta key).getD
          ((store.rows .consensusMeta).lookup key)) := by
  have plain : cfTag .consensusMeta = none := by decide
  simp only [flushPendingAfterBatch, plain, Option.isSome_none, Bool.false_eq_true, if_false, if_true]
  rw [lookup_foldl_putRow]
  congr 1
  funext key
  exact lookup_appendedRows _

theorem lookup_flushDirty (tag : Fin 7) (at_ : StoredKey) :
    (flushDirty state side).lookup (toLex (tag, at_)) = touch state side
    (taggedCf tag) at_.val := by
  have empty : ({} : OrderedMap NativeKey (Option Value)).lookup (toLex (tag, at_)) = none := rfl
  cases side with
  | none =>
    rw [flushDirty, lookup_nativeDirty, empty, Option.or_none]
    rfl
  | some side =>
    rw [flushDirty, lookup_nativeDirty, lookup_nativeDirty, empty, Option.or_none]
    rfl

theorem flush_native (tag : Fin 7) (at_ : StoredKey) :
    (flushPendingAfterBatch keccak256 options store state side height chain).native.db.native.lookup
        (toLex (tag, at_)) =
      (touch state side (taggedCf tag) at_.val).getD
        (store.native.db.native.lookup (toLex (tag, at_))) := by
  simp only [flushPendingAfterBatch]
  split
  · rw [NativeTrie.flush_lands _ rfl rfl, NativeTrie.lookup_writeNative, lookup_flushDirty]
  · rw [NativeTrie.lookup_writeNative, lookup_flushDirty]

end Flush

variable {height : Nat}

section Blocks

variable {blocks : List Block} {block : Block} {cf : ColumnFamily} {key : Key}

def touched (blocks : List Block) (cf : ColumnFamily) (key : Key) : Option (Option Value) :=
  blocks.foldl (fun older block => (touch block.state block.side cf key).or older) none

def sideOf (blocks : List Block) (cf : ColumnFamily) (key : Key) : Option (Option Value) :=
  blocks.foldl (fun older block => (block.side.bind fun side => (side cf).entry key).or older) none

theorem touched_append : touched (blocks ++ [block]) cf key =
    (touch block.state block.side cf key).or (touched blocks cf key) := by
  rw [touched, foldl_append]
  rfl

theorem sideOf_append : sideOf (blocks ++ [block]) cf key =
    (block.side.bind fun side => (side cf).entry key).or (sideOf blocks cf key) := by
  rw [sideOf, foldl_append]
  rfl

/-- No block writes a row that an earlier side batch wrote. -/
def SideApart (blocks : List Block) : Prop :=
  blocks.Pairwise fun earlier later => ∀ cf key,
    (earlier.side.bind fun side => (side cf).entry key) ≠ none → (later.state cf).entry key = none

theorem SideApart.init (apart : SideApart (blocks ++ [block])) : SideApart blocks :=
  (pairwise_append.mp apart).1

theorem sideOf_ne_none (held : sideOf blocks cf key ≠ none) : ∃ block ∈ blocks,
    (block.side.bind fun side => (side cf).entry key) ≠ none := by
  induction blocks using List.reverseRecOn with
  | nil => exact absurd rfl held
  | append_singleton blocks last ih =>
    rw [sideOf_append] at held
    cases own : last.side.bind fun side => (side cf).entry key with
    | some edit => exact ⟨last, by simp, by simp [own]⟩
    | none =>
      rw [own, Option.none_or] at held
      obtain ⟨block, member, given⟩ := ih held
      exact ⟨block, by simp [member], given⟩

theorem touched_eq (apart : SideApart blocks) : touched blocks cf key =
    (sideOf blocks cf key).or (entryOf (blocks.map Block.toFrozenPending) cf key) := by
  induction blocks using List.reverseRecOn with
  | nil => rfl
  | append_singleton blocks last ih =>
    rw [touched_append, sideOf_append, map_append, map_cons, map_nil, entryOf_append,
      ih apart.init, touch]
    cases own : last.side.bind fun side => (side cf).entry key with
    | some edit => simp
    | none =>
      cases set : (last.state cf).entry key with
      | none => simp
      | some edit =>
        have free : sideOf blocks cf key = none := by
          by_contra held
          obtain ⟨block, member, given⟩ := sideOf_ne_none held
          have later := (pairwise_append.mp apart).2.2 block member last
            (mem_singleton.mpr rfl) cf key given
          rw [later] at set
          cases set
        simp [free]

/-- The rows of the store that a flush keeps up itself: those of the running hash and its settings,
and the mark of a trie that is left behind. -/
def Bookkeeping (key : Key) : Prop :=
  key ∈ [metaRunningStateHash, metaRunningStateHashActivation, metaStateHashConfiguredActivation,
      metaStateHashBookWindow, metaRunningStateHashUnverified, metaNativeTrieStale] ∨
    (checkpointHeight key).isSome

/-- A block's sets leave the bookkeeping rows alone, and its height is a 64-bit number. -/
structure Block.Plain (block : Block) : Prop where
  set : ∀ key, Bookkeeping key → (block.state .consensusMeta).entry key = none
  side : ∀ key, Bookkeeping key →
    (block.side.bind fun side => (side .consensusMeta).entry key) = none
  fits : block.height < 2 ^ 64

theorem Block.Plain.touch (plain : block.Plain) (kept : Bookkeeping key) :
    touch block.state block.side .consensusMeta key = none := by
  rw [State.touch, plain.side key kept, plain.set key kept]
  rfl

/-- A row of the running hash. -/
def ChainKey (key : Key) : Prop :=
  key ∈ [metaRunningStateHash, metaRunningStateHashActivation, metaRunningStateHashUnverified] ∨
    (checkpointHeight key).isSome

theorem checkpointKey_isSome (height : Nat) :
    (checkpointHeight (RunningHash.checkpointKey height)).isSome := by
  by_contra other
  exact checkpointKey_ne (Option.not_isSome_iff_eq_none.mp other) height rfl

theorem chainRows_chainKey {stored : List Nat} {step : ChainStep}
    {hash : Option Digest} {row : Key × Option Value}
    (member : row ∈ chainRows stored height step hash) : ChainKey row.1 := by
  have extend : ∀ hash, row ∈ RunningHash.extendRows height hash → ChainKey row.1 := by
    intro hash inside
    rcases extendRows_keys inside with same | ⟨height, same⟩
    · exact .inl (by simp [same])
    · rw [same]
      exact .inr (checkpointKey_isSome height)
  cases step with
  | off => cases member
  | unverified first =>
    cases first with
    | false => cases member
    | true =>
      rw [mem_singleton.mp member]
      exact .inl (by simp)
  | next prev =>
    cases hash with
    | none => cases member
    | some hash => exact extend hash member
  | start =>
    cases hash with
    | none => cases member
    | some hash =>
      rcases mem_append.mp member with member | member
      · rcases mem_append.mp member with member | member
        · obtain ⟨height, -, rfl⟩ := mem_map.mp member
          exact .inr (checkpointKey_isSome height)
        · rcases mem_cons.mp member with rfl | member
          · exact .inl (by simp)
          · rw [mem_singleton.mp member]
            exact .inl (by simp)
      · exact extend hash member

end Blocks

/-! The blocks flushed in turn, and the window that keeps them. -/

variable {key : Key}

section Track

variable {sha256 keccak256 : List Byte → Digest} {options : TrieOptions} {deferBooks : Bool}
  {store sequential : Store} {window : Window} {blocks : List Block} {block : Block}

/-- The store after some blocks, told by the store before them and what the window keeps. -/
structure Tracks (options : TrieOptions) (store : Store) (blocks : List Block) (sequential : Store)
    (window : Window) : Prop where
  memo : window.memo = ChainMemo.load (sequential.rows .consensusMeta).lookup
  chain : ∀ key, Bookkeeping key → key ≠ metaNativeTrieStale →
    (sequential.rows .consensusMeta).lookup key =
      window.rows.over (store.rows .consensusMeta).lookup key
  keys : ∀ key value, window.rows.lookup key = some value → ChainKey key
  counted : window.side.Counted
  side : ∀ cf key, window.side.entry cf key = sideOf blocks cf key
  stale : (sequential.rows .consensusMeta).lookup metaNativeTrieStale =
    if !options.maintain && (blocks.any fun block => hasNativeWrites block.state block.side) then
      some [1] else (store.rows .consensusMeta).lookup metaNativeTrieStale
  others : ∀ key, ¬ Bookkeeping key → key ≠ metaNativeAppliedHeight →
    (sequential.rows .consensusMeta).lookup key =
      (touched blocks .consensusMeta key).getD ((store.rows .consensusMeta).lookup key)
  plain : ∀ cf key, cfTag cf = none → cf ≠ .consensusMeta → (sequential.rows cf).lookup key =
    (touched blocks cf key).getD ((store.rows cf).lookup key)
  rooted : ∀ cf, (cfTag cf).isSome → sequential.rows cf = store.rows cf
  native : ∀ tag at_, sequential.native.db.native.lookup (toLex (tag, at_)) =
    (touched blocks (taggedCf tag) at_.val).getD
      (store.native.db.native.lookup (toLex (tag, at_)))

theorem Tracks.start : Tracks options store [] store (Window.load store) where
  memo := rfl
  chain := fun _ _ _ => rfl
  keys := fun _ _ contrary => by cases contrary
  counted := fun _ => rfl
  side := fun _ _ => rfl
  stale := by simp
  others := fun _ _ _ => rfl
  plain := fun _ _ _ _ => rfl
  rooted := fun _ _ => rfl
  native := fun _ _ => rfl

theorem bookkeeping_ne_applied (kept : Bookkeeping key) : key ≠ metaNativeAppliedHeight := by
  rintro rfl
  revert kept
  unfold Bookkeeping
  decide +kernel

theorem stale_not_chainKey : ¬ ChainKey metaNativeTrieStale := by
  unfold ChainKey
  decide +kernel

theorem ChainKey.bookkeeping (chain : ChainKey key) : Bookkeeping key := by
  rcases chain with listed | checkpoint
  · left
    simp only [mem_cons, not_mem_nil, or_false] at listed ⊢
    rcases listed with running | activation | unverified
    · exact .inl running
    · exact .inr (.inl activation)
    · exact .inr (.inr (.inr (.inr (.inl unverified))))
  · exact .inr checkpoint

variable {side : Option PendingState} {state : PendingState}

theorem marks_other {reads : RunningHash.Reads} (notStale : key ≠ metaNativeTrieStale)
    (notApplied : key ≠ metaNativeAppliedHeight) :
    (staleRows options state side ++ [appliedRow height]).foldl setRow reads key = reads key := by
  apply foldl_setRow_other
  intro row member
  rcases mem_append.mp member with member | member
  · unfold staleRows at member
    split at member
    · rw [mem_singleton.mp member]
      exact notStale
    · cases member
  · rw [mem_singleton.mp member]
    exact notApplied

theorem flush_meta_other {chain : List (Key × Option Value)} (notStale : key ≠ metaNativeTrieStale)
    (notApplied : key ≠ metaNativeAppliedHeight) :
    ((flushPendingAfterBatch keccak256 options store state side height chain).rows
        .consensusMeta).lookup key =
      chain.foldl setRow (fun key => (touch state side .consensusMeta key).getD
        ((store.rows .consensusMeta).lookup key)) key := by
  rw [flush_meta, foldl_append]
  exact foldl_setRow_congr _ (marks_other notStale notApplied)

theorem flush_meta_unchained {chain : List (Key × Option Value)}
    (keys : ∀ row ∈ chain, ChainKey row.1) (unchained : ¬ ChainKey key) :
    ((flushPendingAfterBatch keccak256 options store state side height chain).rows
        .consensusMeta).lookup key =
      (staleRows options state side ++ [appliedRow height]).foldl setRow
        (fun key => (touch state side .consensusMeta key).getD
          ((store.rows .consensusMeta).lookup key)) key := by
  rw [flush_meta, foldl_append]
  apply foldl_setRow_other
  rintro row member rfl
  exact unchained (keys row member)

theorem staleRows_lookup {reads : RunningHash.Reads} :
    (staleRows options state side ++ [appliedRow height]).foldl setRow reads metaNativeTrieStale =
      if !options.maintain && hasNativeWrites state side then some [1]
      else reads metaNativeTrieStale := by
  have different : metaNativeTrieStale ≠ metaNativeAppliedHeight := by decide
  rw [foldl_append, foldl_cons, foldl_nil, setRow, appliedRow, if_neg different, staleRows]
  split
  · rw [foldl_cons, foldl_nil, setRow, if_pos rfl]
  · rfl

theorem getD_or {α : Type} (first second : Option α) (default : α) :
    (first.or second).getD default = first.getD (second.getD default) := by
  cases first with
  | some value => rfl
  | none => rfl

theorem lookup_foldl_record {batch : List (Key × Option Value)} {rows : ChainRows}
    {value : Option Value}
    (held : (batch.foldl (fun rows row => rows.insert row.1 row.2) rows).lookup key = some value) :
    (∃ row ∈ batch, row.1 = key) ∨ rows.lookup key = some value := by
  induction batch generalizing rows with
  | nil => exact .inr held
  | cons row batch ih =>
    rcases ih held with ⟨other, member, same⟩ | before
    · exact .inl ⟨other, mem_cons_of_mem _ member, same⟩
    · rw [OrderedMap.lookup_insert] at before
      by_cases here : key = row.1
      · exact .inl ⟨row, mem_cons_self, here.symm⟩
      · rw [if_neg here] at before
        exact .inr before

theorem Tracks.flushed (tracks : Tracks options store blocks sequential window)
    (plain : block.Plain) :
    Tracks options store (blocks ++ [block]) (flushBlock sha256 keccak256 options sequential block)
      (window.digest sha256 deferBooks (store.rows .consensusMeta) block) := by
  have steps : chainStep (sequential.rows .consensusMeta).lookup block.height =
      window.memo.step block.height := by
    rw [chainStep_eq, ← tracks.memo]
  have hashes : (ChainMemo.load (sequential.rows .consensusMeta).lookup).hashAt sha256 block.height
      block.layers = window.memo.hashAt sha256 block.height block.layers := by
    rw [← tracks.memo]
  have untouched : ∀ key, Bookkeeping key → (touch block.state block.side .consensusMeta key).getD
      ((sequential.rows .consensusMeta).lookup key) = (sequential.rows .consensusMeta).lookup key := by
    intro key kept
    rw [plain.touch kept]
    rfl
  constructor
  · simp only [flushBlock, Window.digest]
    rw [flush_meta, foldl_append, load_chainRows plain.fits, steps, hashes, tracks.memo]
    congr 1
    apply load_congr
    intro key member
    have kept : Bookkeeping key := by
      left
      simp only [mem_cons, not_mem_nil, or_false] at member ⊢
      rcases member with same | same | same | same | same
      · exact .inl same
      · exact .inr (.inl same)
      · exact .inr (.inr (.inl same))
      · exact .inr (.inr (.inr (.inl same)))
      · exact .inr (.inr (.inr (.inr (.inl same))))
    have notStale : key ≠ metaNativeTrieStale := by
      rintro rfl
      revert member
      decide
    rw [marks_other notStale (bookkeeping_ne_applied kept), untouched key kept]
  · intro key kept notStale
    -- both lists name every checkpoint row that the kept rows leave over the stored ones
    have covers : RunningHash.CoversCheckpoints
        (checkpointHeights (sequential.rows .consensusMeta))
        (window.rows.over (store.rows .consensusMeta).lookup) := by
      intro other height is present
      have checkpoint : Bookkeeping other := .inr (Option.isSome_iff_exists.mpr ⟨height, is⟩)
      have notMark : other ≠ metaNativeTrieStale := by
        rintro rfl
        exact stale_not_chainKey (.inr (Option.isSome_iff_exists.mpr ⟨height, is⟩))
      rw [← tracks.chain other checkpoint notMark] at present
      exact checkpointHeights_covers _ other height is present
    simp only [flushBlock, Window.digest, ChainRows.record]
    rw [flush_meta_other notStale (bookkeeping_ne_applied kept), over_foldl_insert,
      steps, hashes, foldl_chainRows (record_covers _ _) covers
        (fun _ => record_lt) (fun _ => checkpointHeights_lt)]
    apply foldl_setRow_congr
    rw [untouched key kept]
    exact tracks.chain key kept notStale
  · intro key value held
    rcases lookup_foldl_record held with ⟨row, member, same⟩ | before
    · rw [← same]
      exact chainRows_chainKey member
    · exact tracks.keys key value before
  · simp only [Window.digest]
    cases block.side with
    | none => exact tracks.counted
    | some side => exact tracks.counted.mergePart
  · intro cf key
    rw [sideOf_append, ← tracks.side]
    simp only [Window.digest]
    cases block.side with
    | none => rfl
    | some side =>
      simp only [CheckpointLayer.merge]
      rw [CheckpointLayer.entry_mergePart tracks.counted]
      rfl
  · simp only [flushBlock]
    rw [flush_meta_unchained (fun _ => chainRows_chainKey) stale_not_chainKey, staleRows_lookup,
      any_append]
    have kept : Bookkeeping metaNativeTrieStale := .inl (by simp)
    rw [untouched _ kept, tracks.stale]
    cases options.maintain with
    | true => rfl
    | false =>
      cases native : hasNativeWrites block.state block.side with
      | true => simp [native]
      | false => simp [native]
  · intro key other notApplied
    have notStale : key ≠ metaNativeTrieStale := by
      rintro rfl
      exact other (.inl (by simp))
    simp only [flushBlock]
    rw [flush_meta_unchained (fun _ => chainRows_chainKey) (fun chained => other chained.bookkeeping),
      marks_other notStale notApplied, touched_append, getD_or, tracks.others key other notApplied]
  · intro cf key unrooted other
    simp only [flushBlock]
    rw [flush_lookup unrooted other, tracks.plain cf key unrooted other, touched_append, getD_or]
  · intro cf rooted
    simp only [flushBlock]
    rw [flush_rooted rooted, tracks.rooted cf rooted]
  · intro tag at_
    simp only [flushBlock]
    rw [flush_native, tracks.native, touched_append, getD_or]

theorem tracks_blocks (store : Store) (blocks : List Block)
    (plain : ∀ block ∈ blocks, block.Plain) :
    Tracks options store blocks (flushBlocks sha256 keccak256 options store blocks)
      (Window.digests sha256 deferBooks store blocks) := by
  induction blocks using List.reverseRecOn with
  | nil => exact Tracks.start
  | append_singleton blocks last ih =>
    have before := ih fun block member => plain block (mem_append_left _ member)
    rw [flushBlocks, Window.digests, foldl_append, foldl_append]
    exact before.flushed (plain last (mem_append_right _ (mem_singleton.mpr rfl)))

theorem foldl_setRow_entries (rows : ChainRows) (reads : RunningHash.Reads) :
    rows.entries.foldl setRow reads = rows.over reads := by
  have inserted := over_foldl_insert rows.entries {} reads
  have same : rows.entries.foldl (fun kept row => kept.insert row.1 row.2) ({} : ChainRows) = rows :=
    OrderedMap.eq_of_entries (OrderedMap.foldl_insert_entries rows)
  rw [same] at inserted
  exact inserted.symm

end Track

section Native

variable {blocks : List Block} {cf : ColumnFamily}

theorem isEmpty_iff
    (cf : CfPending Key Value) : cf.isEmpty = true ↔ ∀ key, cf.entry key = none := by
  constructor
  · exact fun empty key => CheckpointLayer.entry_of_isEmpty empty key
  · intro absent
    have noWrites : cf.writes.entries = [] := by
      by_contra some
      obtain ⟨⟨key, value⟩, member⟩ := exists_mem_of_ne_nil _ some
      have held := absent key
      rw [CfPending.entry, OrderedMap.lookup_eq_some.mpr member] at held
      split at held
      · cases held
      · cases held
    have noDeletes : cf.deletes.entries = [] := by
      by_contra some
      obtain ⟨⟨key, mark⟩, member⟩ := exists_mem_of_ne_nil _ some
      have held := absent key
      rw [CfPending.entry, OrderedMap.lookup_eq_some.mpr member] at held
      cases held
    simp [CfPending.isEmpty, noWrites, noDeletes]

theorem hasNativeWrites_iff (state : PendingState)
    (side : Option PendingState) : hasNativeWrites state side = true ↔
      ∃ rooted ∈ NativeTrie.nativeRootCfs, ∃ key, touch state side rooted.1 key ≠ none := by
  have occupied : ∀ cf : CfPending Key Value, (!cf.isEmpty) = true ↔ ∃ key, cf.entry key ≠ none := by
    intro cf
    rw [Bool.not_eq_true', Bool.eq_false_iff, Ne, isEmpty_iff]
    exact not_forall
  rw [hasNativeWrites, any_eq_true]
  apply exists_congr
  intro rooted
  apply and_congr_right
  intro _
  rw [Bool.or_eq_true, occupied]
  cases side with
  | none => simp [touch]
  | some side =>
    simp only [Option.any_some, occupied, touch, Option.bind_some]
    constructor
    · rintro (⟨key, held⟩ | ⟨key, held⟩)
      · refine ⟨key, ?_⟩
        cases (side rooted.1).entry key with
        | none => exact held
        | some edit => simp
      · refine ⟨key, ?_⟩
        cases own : (side rooted.1).entry key with
        | none => exact absurd own held
        | some edit => simp
    · rintro ⟨key, held⟩
      cases own : (side rooted.1).entry key with
      | none =>
        rw [own, Option.none_or] at held
        exact .inl ⟨key, held⟩
      | some edit => exact .inr ⟨key, by simp [own]⟩

theorem touched_ne_none : touched blocks cf key ≠ none ↔
    ∃ block ∈ blocks, touch block.state block.side cf key ≠ none := by
  induction blocks using List.reverseRecOn with
  | nil => simp [touched]
  | append_singleton blocks last ih =>
    rw [touched_append]
    cases own : touch last.state last.side cf key with
    | some edit =>
      constructor
      · exact fun _ => ⟨last, by simp, by simp [own]⟩
      · simp
    | none =>
      rw [Option.none_or, ih]
      constructor
      · rintro ⟨block, member, held⟩
        exact ⟨block, mem_append_left _ member, held⟩
      · rintro ⟨block, member, held⟩
        rcases mem_append.mp member with member | member
        · exact ⟨block, member, held⟩
        · rw [mem_singleton.mp member] at held
          exact absurd own held

end Native

end TorusHyperBft.State
