import TorusHyperBft.State.Windowed

namespace TorusHyperBft.State

open List NativeTrie

/-! The checkpoint of a window against the flushes of its blocks. -/

open RunningHash (Key Value ColumnFamily Digest ChainMemo chainStep setRow PendingState)

variable {sha256 keccak256 : List Byte → Digest} {options : TrieOptions} {deferBooks : Bool}
  {store sequential : Store} {window : Window} {blocks : List Block} {block last : Block}
  {layering : Layering} {cf : ColumnFamily} {key : Key}

variable {height : Nat}

section Checkpoint

variable (tracks : Tracks options store blocks sequential window) (apart : SideApart blocks)
  (schedule : Layering.Schedule deferBooks (blocks.map Block.toFrozenPending) layering)
  (whole : layering.part = none)

include tracks apart schedule whole

theorem touch_window :
    touch layering.layer.state (some window.side.state) cf key = touched blocks cf key := by
  have known : layering.layer.entry cf key =
      entryOf (blocks.map Block.toFrozenPending) cf key := by
    cases late : isDeferredSlot deferBooks cf with
    | true => exact (schedule.holds.whole whole).2 cf key late
    | false => exact (schedule.holds.main cf key late).1
  rw [touched_eq apart, ← tracks.side, ← known]
  rfl

theorem hasNativeWrites_window :
    hasNativeWrites layering.layer.state (some window.side.state) =
      blocks.any fun block => hasNativeWrites block.state block.side := by
  rw [Bool.eq_iff_iff, hasNativeWrites_iff, any_eq_true]
  simp only [touch_window tracks apart schedule whole, touched_ne_none, hasNativeWrites_iff]
  constructor
  · rintro ⟨rooted, member, key, block, inside, held⟩
    exact ⟨block, inside, rooted, member, key, held⟩
  · rintro ⟨block, inside, rooted, member, key, held⟩
    exact ⟨rooted, member, key, block, inside, held⟩

theorem checkpoint_meta (plain : ∀ block ∈ blocks, block.Plain)
    (notApplied : key ≠ metaNativeAppliedHeight) :
    ((flushCheckpoint keccak256 options store layering.layer window height).rows
        .consensusMeta).lookup key = (sequential.rows .consensusMeta).lookup key := by
  have untouched : ∀ key, Bookkeeping key → touched blocks .consensusMeta key = none := by
    intro key kept
    by_contra held
    obtain ⟨block, member, given⟩ := touched_ne_none.mp held
    exact given ((plain block member).touch kept)
  have chained : ∀ row ∈ window.rows.entries, ChainKey row.1 := by
    intro row member
    exact tracks.keys row.1 row.2 (OrderedMap.lookup_eq_some.mpr member)
  unfold flushCheckpoint
  by_cases stale : key = metaNativeTrieStale
  · have kept : Bookkeeping metaNativeTrieStale := .inl (by simp)
    rw [stale, flush_meta_unchained chained stale_not_chainKey, staleRows_lookup, tracks.stale,
      hasNativeWrites_window tracks apart schedule whole, touch_window tracks apart schedule whole,
      untouched _ kept, Option.getD_none]
  · by_cases kept : Bookkeeping key
    · rw [flush_meta_other stale notApplied, tracks.chain key kept stale, ← foldl_setRow_entries]
      apply RunningHash.foldl_setRow_congr
      rw [touch_window tracks apart schedule whole, untouched key kept, Option.getD_none]
    · rw [flush_meta_unchained chained (fun chain => kept chain.bookkeeping),
        marks_other stale notApplied, touch_window tracks apart schedule whole,
        tracks.others key kept notApplied]

theorem checkpoint_native :
    (flushCheckpoint keccak256 options store layering.layer window height).native.db.native =
      sequential.native.db.native := by
  apply OrderedMap.ext_lookup
  intro key
  obtain ⟨tag, at_⟩ : NativeKey := key
  have checkpoint := @flush_native keccak256 options store layering.layer.state
    (some window.side.state) height window.rows.entries tag at_
  rw [touch_window tracks apart schedule whole, ← tracks.native] at checkpoint
  exact checkpoint

end Checkpoint

variable {side : Option PendingState}

theorem flush_applied {state : PendingState} {chain : List (Key × Option Value)}
    (keys : ∀ row ∈ chain, ChainKey row.1) :
    ((flushPendingAfterBatch keccak256 options store state side height chain).rows
        .consensusMeta).lookup metaNativeAppliedHeight = some (toBytes 8 height) := by
  have unchained : ¬ ChainKey metaNativeAppliedHeight := fun chain =>
    bookkeeping_ne_applied chain.bookkeeping rfl
  rw [flush_meta_unchained keys unchained, foldl_append, foldl_cons, foldl_nil,
    setRow, appliedRow, if_pos rfl]

theorem flushBlocks_unmaintained (off : options.maintain = false) (store : Store)
    (blocks : List Block) :
    (flushBlocks sha256 keccak256 options store blocks).native.db.mirror =
        store.native.db.mirror ∧
      (flushBlocks sha256 keccak256 options store blocks).native.db.trie = store.native.db.trie := by
  induction blocks using List.reverseRecOn with
  | nil => exact ⟨rfl, rfl⟩
  | append_singleton blocks last ih =>
    rw [flushBlocks, foldl_append, foldl_cons, foldl_nil]
    simp only [flushBlock, flushPendingAfterBatch, off, Bool.false_eq_true, if_false]
    exact ih

/-- With maintenance on: the trie and its caches are in step with the native rows, and keccak has no
collision among the inputs of the trees of the states that are passed. -/
structure Kept (sha256 keccak256 : List Byte → Digest) (options : TrieOptions) (store : Store)
    (blocks : List Block) (visited : Set (OrderedMap NativeKey Value)) : Prop where
  injective : Set.InjOn keccak256 (visitedInputs keccak256 visited)
  coherent : Coherent keccak256 visited store.native
  visits : ∀ done, done <+: blocks →
    (flushBlocks sha256 keccak256 options store done).native.db.native ∈ visited

variable {visited : Set (OrderedMap NativeKey Value)}

theorem flush_coherent (on : options.maintain = true) (apart : RootsApart keccak256 visited)
    (coherent : Coherent keccak256 visited store.native)
    (member : store.native.db.native ∈ visited) {state : PendingState}
    {chain : List (Key × Option Value)}
    (after : (flushPendingAfterBatch keccak256 options store state side height
      chain).native.db.native ∈ visited) :
    Coherent keccak256 visited
      (flushPendingAfterBatch keccak256 options store state side height chain).native := by
  simp only [flushPendingAfterBatch, on, if_true] at after ⊢
  apply (coherent.flush apart member after _).1
  intro fails
  cases fails

theorem flushBlocks_coherent (on : options.maintain = true)
    (kept : Kept sha256 keccak256 options store blocks visited) :
    Coherent keccak256 visited (flushBlocks sha256 keccak256 options store blocks).native := by
  induction blocks using List.reverseRecOn with
  | nil => exact kept.coherent
  | append_singleton blocks last ih =>
    have before : Kept sha256 keccak256 options store blocks visited :=
      ⟨kept.injective, kept.coherent, fun done inside =>
        kept.visits done (inside.trans (prefix_append blocks [last]))⟩
    have after := kept.visits (blocks ++ [last]) (prefix_refl _)
    rw [flushBlocks, foldl_append, foldl_cons, foldl_nil] at after ⊢
    exact flush_coherent on (NativeTrie.rootsApart kept.injective) (ih before)
      (before.visits blocks (prefix_refl _)) after

theorem eq_of_rows {left right : NativeDb} (native : left.native = right.native)
    (mirror : left.mirror = right.mirror) (trie : left.trie = right.trie) : left = right := by
  obtain ⟨_, _, _⟩ := left
  obtain ⟨_, _, _⟩ := right
  cases native
  cases mirror
  cases trie
  rfl

/-- A window flushed as one checkpoint leaves the store that its blocks leave one by one; the memo
takes the step the stored rows would take at each block, and every layer is counted to the byte. -/
theorem flushCheckpoint_eq (store : Store) (blocks : List Block) (last : Block)
    (layering : Layering) (visited : Set (OrderedMap NativeKey Value))
    (plain : ∀ block ∈ blocks ++ [last], block.Plain) (apart : SideApart (blocks ++ [last]))
    (schedule : Layering.Schedule deferBooks ((blocks ++ [last]).map Block.toFrozenPending) layering)
    (whole : layering.part = none)
    (kept : options.maintain = true →
      Kept sha256 keccak256 options store (blocks ++ [last]) visited) :
    let window := Window.digests sha256 deferBooks store (blocks ++ [last])
    let checkpoint := flushCheckpoint keccak256 options store layering.layer window last.height
    let sequential := flushBlocks sha256 keccak256 options store (blocks ++ [last])
    (∀ cf, checkpoint.rows cf = sequential.rows cf) ∧
      checkpoint.native.db = sequential.native.db ∧
      (∀ done block rest, blocks ++ [last] = done ++ block :: rest →
        (Window.digests sha256 deferBooks store done).memo.step block.height =
          chainStep ((flushBlocks sha256 keccak256 options store done).rows
            .consensusMeta).lookup block.height) ∧
      window.side.Counted ∧
      ∀ merged run, Layering.Schedule deferBooks merged run →
        run.layer.Counted ∧ ∀ part, run.part = some part → part.Counted := by
  intro window checkpoint sequential
  have tracks : Tracks options store (blocks ++ [last]) sequential window :=
    tracks_blocks store (blocks ++ [last]) plain
  have natives : checkpoint.native.db.native = sequential.native.db.native :=
    checkpoint_native tracks apart schedule whole
  refine ⟨?_, ?_, ?_, tracks.counted, ?_⟩
  · intro cf
    by_cases rooted : (cfTag cf).isSome
    · rw [tracks.rooted cf rooted]
      exact flush_rooted rooted
    · have unrooted : cfTag cf = none := Option.not_isSome_iff_eq_none.mp rooted
      apply OrderedMap.ext_lookup
      intro key
      by_cases metaRow : cf = .consensusMeta
      · rw [metaRow]
        by_cases applied : key = metaNativeAppliedHeight
        · have stored : (sequential.rows .consensusMeta).lookup metaNativeAppliedHeight =
              some (toBytes 8 last.height) := by
            simp only [sequential, flushBlocks, foldl_append, foldl_cons, foldl_nil]
            exact flush_applied fun _ => chainRows_chainKey
          rw [applied, stored]
          apply flush_applied
          intro row member
          exact tracks.keys row.1 row.2 (OrderedMap.lookup_eq_some.mpr member)
        · exact checkpoint_meta tracks apart schedule whole plain applied
      · rw [tracks.plain cf key unrooted metaRow, ← touch_window tracks apart schedule whole]
        exact flush_lookup unrooted metaRow
  · cases maintain : options.maintain with
    | false =>
      have left := @flushBlocks_unmaintained sha256 keccak256 options maintain store
        (blocks ++ [last])
      have unmaintained : checkpoint.native.db.mirror = store.native.db.mirror ∧
          checkpoint.native.db.trie = store.native.db.trie := by
        simp only [checkpoint, flushCheckpoint, flushPendingAfterBatch, maintain,
          Bool.false_eq_true, if_false]
        exact ⟨rfl, rfl⟩
      exact eq_of_rows natives (unmaintained.1.trans left.1.symm)
        (unmaintained.2.trans left.2.symm)
    | true =>
      have kept := kept maintain
      have roots := NativeTrie.rootsApart kept.injective
      have after : checkpoint.native.db.native ∈ visited := by
        rw [natives]
        exact kept.visits _ (prefix_refl _)
      have start : store.native.db.native ∈ visited := kept.visits [] nil_prefix
      have window := flush_coherent maintain roots kept.coherent start after
      have blocks := flushBlocks_coherent maintain kept
      calc checkpoint.native.db
        _ = stepOf keccak256 checkpoint.native.db.native := window.inStep
        _ = stepOf keccak256 sequential.native.db.native := by rw [natives]
        _ = sequential.native.db := blocks.inStep.symm
  · intro done block rest order
    have before : Tracks options store done (flushBlocks sha256 keccak256 options store done)
        (Window.digests sha256 deferBooks store done) := by
      apply tracks_blocks store done
      intro block member
      apply plain block
      rw [order]
      exact mem_append_left _ member
    rw [before.memo, RunningHash.chainStep_eq]
  · intro merged run scheduled
    exact ⟨scheduled.holds.counted, scheduled.holds.partCounted⟩

def writing (cf : ColumnFamily) (key : Key) (value : Value) : PendingState :=
  fun other => if other = cf then CfPending.put {} key value else {}

def deleting (cf : ColumnFamily) (key : Key) : PendingState :=
  fun other => if other = cf then CfPending.delete {} key else {}

def balanceBlock : Block where
  state := writing .nativeBalances [1] [7]
  side := some (writing .blockHeaders [1] [3])
  height := 1

def codeBlock : Block where
  state := writing .code [2] [5]
  hashExtras := some (writing .accounts [4] [6])
  height := 2

def clearBlock : Block where
  state := deleting .nativeBalances [1]
  height := 3

def splitLayering : Layering :=
  let blocks := [balanceBlock, codeBlock, clearBlock].map Block.toFrozenPending
  let merged (layer : CheckpointLayer) (part : LayerPart) : CheckpointLayer :=
    blocks.foldl (fun layer block => layer.mergePart false block part) layer
  let start := CheckpointLayer.splitDeferred false {}
  { layer := ((merged start.1 .main).absorb (merged start.2 .deferred)).duplicate }

theorem splitLayering_schedule : Layering.Schedule false
    ([balanceBlock, codeBlock, clearBlock].map Block.toFrozenPending) splitLayering := by
  have none : Layering.Schedule false [] {} := .start
  have split := none.step .splitDeferred rfl
  have first := split.step (.mergeMain balanceBlock.toFrozenPending) rfl
  have second := first.step (.mergeMain codeBlock.toFrozenPending) rfl
  have third := second.step (.mergeMain clearBlock.toFrozenPending) rfl
  have late := ((third.step .mergeDeferred rfl).step .mergeDeferred rfl).step .mergeDeferred rfl
  exact (late.step .absorb rfl).step .duplicate rfl

theorem entry_writing {cf other : ColumnFamily} (apart : other ≠ cf) (key at_ : Key)
    (value : Value) :
    ((writing cf key value) other).entry at_ = none := by
  rw [writing, if_neg apart]
  rfl

theorem balanceBlock_plain : balanceBlock.Plain where
  set := fun _ _ => entry_writing (by decide) _ _ _
  side := fun _ _ => entry_writing (by decide) _ _ _
  fits := by decide

theorem codeBlock_plain : codeBlock.Plain where
  set := fun _ _ => entry_writing (by decide) _ _ _
  side := fun _ _ => rfl
  fits := by decide

theorem clearBlock_plain : clearBlock.Plain where
  set := fun _ _ => rfl
  side := fun _ _ => rfl
  fits := by decide

theorem blocks_sideApart : SideApart ([balanceBlock, codeBlock] ++ [clearBlock]) := by
  refine pairwise_cons.mpr ⟨?_, pairwise_pair.mpr fun _ _ held => absurd rfl held⟩
  intro later member cf key held
  by_cases headers : cf = .blockHeaders
  · rw [headers]
    rcases mem_pair.mp member with rfl | rfl
    · exact entry_writing (by decide) _ _ _
    · rfl
  · exact absurd (entry_writing headers _ _ _) held

def keptOptions : TrieOptions where
  maintain := true
  useTrieCache := true
  useMemberCache := true
  parallel := 4

/-- A store with a trie, and with the chain on from the first height. -/
def builtStore : Store where
  rows := fun cf => if cf = .consensusMeta then
    .insert .empty RunningHash.metaStateHashConfiguredActivation (toBytes 8 1) else .empty
  native := { db := NativeTrie.buildNativeTrieToCf TorusHyperBft.keccak256 {} }

theorem flushBlock_balance {sha256 : List Byte → Digest} {store : Store}
    (none : store.native.db.native = {}) :
    (flushBlock sha256 TorusHyperBft.keccak256 keptOptions store balanceBlock).native.db.native =
      NativeTrie.balances := by
  simp only [flushBlock, flushPendingAfterBatch, keptOptions, if_true]
  rw [flush_lands _ rfl rfl, writeNative_native, none]
  rfl

theorem flushBlock_code {sha256 : List Byte → Digest} {store : Store} :
    (flushBlock sha256 TorusHyperBft.keccak256 keptOptions store codeBlock).native.db.native =
      store.native.db.native := by
  simp only [flushBlock, flushPendingAfterBatch, keptOptions, if_true]
  rw [flush_lands _ rfl rfl, writeNative_native]
  rfl

theorem flushBlock_clear {sha256 : List Byte → Digest} {store : Store}
    (held : store.native.db.native = NativeTrie.balances) :
    (flushBlock sha256 TorusHyperBft.keccak256 keptOptions store clearBlock).native.db.native =
      {} := by
  simp only [flushBlock, flushPendingAfterBatch, keptOptions, if_true]
  rw [flush_lands _ rfl rfl, writeNative_native, held]
  rfl

theorem builtStore_kept (sha256 : List Byte → Digest) :
    Kept sha256 TorusHyperBft.keccak256 keptOptions builtStore
      ([balanceBlock, codeBlock] ++ [clearBlock])
      { native | native = {} ∨ native = NativeTrie.balances } := by
  have start : builtStore.native.db.native = {} := build_native
  have first := @flushBlock_balance sha256 builtStore start
  have injective : Set.InjOn TorusHyperBft.keccak256 (visitedInputs TorusHyperBft.keccak256
      { native | native = {} ∨ native = NativeTrie.balances }) :=
    visitedInputs_balances fun _ member => member
  refine ⟨injective, ⟨?_, ?_, ?_⟩, ?_⟩
  · rw [start]
    exact stepOf_eq_build injective (.inl rfl)
  · intro inner held
    cases held
  · intro inner held
    cases held
  · intro done inside
    rcases prefix_cons_iff.mp inside with rfl | ⟨rest, rfl, later⟩
    · exact .inl start
    rcases prefix_cons_iff.mp later with rfl | ⟨rest, rfl, last⟩
    · exact .inr first
    have second := (@flushBlock_code sha256 _).trans first
    rcases prefix_cons_iff.mp last with rfl | ⟨none, rfl, end_⟩
    · exact .inr second
    · rw [prefix_nil.mp end_]
      exact .inl (flushBlock_clear second)

theorem flushCheckpoint_eq_balance :
    let sha256 (bytes : List Byte) : Digest := bytes.length
    let blocks := [balanceBlock, codeBlock] ++ [clearBlock]
    let checkpoint := flushCheckpoint TorusHyperBft.keccak256 keptOptions builtStore
      splitLayering.layer (Window.digests sha256 false builtStore blocks) clearBlock.height
    let sequential := flushBlocks sha256 TorusHyperBft.keccak256 keptOptions builtStore blocks
    (∀ cf, checkpoint.rows cf = sequential.rows cf) ∧
      checkpoint.native.db = sequential.native.db := by
  intro sha256
  have plain : ∀ block ∈ [balanceBlock, codeBlock] ++ [clearBlock], block.Plain := by
    simp [balanceBlock_plain, codeBlock_plain, clearBlock_plain]
  have same := flushCheckpoint_eq builtStore [balanceBlock, codeBlock] clearBlock splitLayering
    { native | native = {} ∨ native = NativeTrie.balances } plain blocks_sideApart
    splitLayering_schedule rfl fun _ => builtStore_kept sha256
  exact ⟨same.1, same.2.1⟩

def unmarkingBlock : Block where
  state := deleting .consensusMeta metaNativeTrieStale
  height := 2

def overwritingBlock : Block where
  state := writing .blockHeaders [1] [9]
  height := 2

def pairLayer (later : Block) : CheckpointLayer :=
  (CheckpointLayer.merge false {} balanceBlock.toFrozenPending).merge false later.toFrozenPending

theorem pairLayer_schedule (later : Block) : Layering.Schedule false
    ([balanceBlock, later].map Block.toFrozenPending) { layer := pairLayer later } := by
  have none : Layering.Schedule false [] {} := .start
  exact (none.step (.merge balanceBlock.toFrozenPending) rfl).step (.merge later.toFrozenPending) rfl

/-- A later tombstone clears the mark of a trie left behind in the sequence of flushes, not in the
checkpoint; a later set overwrites a side row in the sequence, not in the checkpoint. -/
theorem flushCheckpoint_ne :
    (Layering.Schedule false ([balanceBlock, unmarkingBlock].map Block.toFrozenPending)
        { layer := pairLayer unmarkingBlock } ∧
      (flushCheckpoint TorusHyperBft.keccak256 {} {} (pairLayer unmarkingBlock)
        (Window.digests (fun _ => 0) false {} [balanceBlock, unmarkingBlock]) 2).rows .consensusMeta ≠
      (flushBlocks (fun _ => 0) TorusHyperBft.keccak256 {} {} [balanceBlock, unmarkingBlock]).rows
        .consensusMeta) ∧
    Layering.Schedule false ([balanceBlock, overwritingBlock].map Block.toFrozenPending)
        { layer := pairLayer overwritingBlock } ∧
      (flushCheckpoint TorusHyperBft.keccak256 {} {} (pairLayer overwritingBlock)
        (Window.digests (fun _ => 0) false {} [balanceBlock, overwritingBlock]) 2).rows .blockHeaders ≠
      (flushBlocks (fun _ => 0) TorusHyperBft.keccak256 {} {} [balanceBlock, overwritingBlock]).rows
        .blockHeaders := by
  refine ⟨⟨pairLayer_schedule _, ?_⟩, pairLayer_schedule _, ?_⟩
  · intro same
    have marks := congrArg (fun rows => rows.lookup metaNativeTrieStale) same
    revert marks
    decide +kernel
  · intro same
    have headers := congrArg (fun rows => rows.lookup [1]) same
    revert headers
    decide +kernel

end TorusHyperBft.State
