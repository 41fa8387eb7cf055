import TorusHyperBft.Keccak
import TorusHyperBft.NativeTrie.Applied

namespace TorusHyperBft.NativeTrie

open List OrderedMap

/-! Runs of flushes over the native state, its trie and the two caches. -/

open RunningHash (Value Digest digestBytes)

/-- The database with the caches that outlive a flush. -/
structure NativeSystem where
  db : NativeDb := {}
  trieCache : NativeTrieCache := {}
  memberCache : NativeMemberCache := {}

/-- A flush: its dirty rows, what it runs with, and what fails in it. -/
structure Flush where
  dirty : OrderedMap NativeKey (Option Value) := {}
  useTrieCache : Bool := false
  useMemberCache : Bool := false
  /-- The member cache is set up anew under a budget. -/
  budgetBytes : Option Nat := none
  parallel : Nat := 1
  minBuckets : Nat := 1
  applyFails : Bool := false
  writeFails : Bool := false

variable {visited : Set (OrderedMap NativeKey Value)}

section Keccak

variable (keccak256 : List Byte → Digest)

def Flush.memberCacheOf (flush : Flush) (system : NativeSystem) : NativeMemberCache :=
  match flush.budgetBytes with
  | some budgetBytes => NativeMemberCache.withBudget keccak256 budgetBytes
  | none => system.memberCache

omit keccak256 in
def Flush.invalidate (flush : Flush) (system : NativeSystem) (memberCache : NativeMemberCache)
    (db : NativeDb) : NativeSystem where
  db := db
  trieCache := if flush.useTrieCache then {} else system.trieCache
  memberCache := if flush.useMemberCache then memberCache.invalidate else memberCache

/-- A flush with the trie kept up: the state after it, and the root of a successful application.
A failed application leaves the native rows in the batch. -/
def flushPendingAfterBatch (system : NativeSystem) (flush : Flush) :
    NativeSystem × Option Digest :=
  let memberCache := flush.memberCacheOf keccak256 system
  let written := system.db.writeNative flush.dirty
  if flush.dirty.entries.isEmpty then
    if flush.writeFails then (flush.invalidate system memberCache system.db, none)
    else ({ system with memberCache }, none)
  else if flush.applyFails then
    (flush.invalidate system memberCache (if flush.writeFails then system.db else written), none)
  else
    let applied := applyNativeDirty keccak256 system.db flush.dirty
      (if flush.useTrieCache then some system.trieCache else none)
      (if flush.useMemberCache then some memberCache else none) flush.parallel flush.minBuckets
    if flush.writeFails then
      (flush.invalidate system (applied.2.2.getD memberCache) system.db, none)
    else
      ({ db := applied.1.ops.foldl NativeDb.writeOp written
         trieCache := match applied.2.1, applied.1.trieChanged with
          | some cache, some changed => cache.commitChanged keccak256 changed applied.1.root
          | some cache, none => cache
          | none, _ => system.trieCache
         memberCache := match applied.2.2 with
          | some cache => cache.commitFinals applied.1.memberFinals applied.1.root
          | none => memberCache }, some applied.1.root)

def flushes (system : NativeSystem) : List Flush → List (NativeSystem × Option Digest)
  | [] => []
  | flush :: rest =>
    let next := flushPendingAfterBatch keccak256 system flush
    next :: flushes next.1 rest

/-- The rows the database holds are those a build from its native rows would write. -/
def InStep (db : NativeDb) : Prop :=
  db = buildNativeTrieToCf keccak256 db ∧
    persistedNativeRoot keccak256 db = nativeRootFull keccak256 db.native

/-- A flush whose application fails changes no native row, or its write fails too. -/
def Flush.KeepsUp (system : NativeSystem) (flush : Flush) : Prop :=
  flush.applyFails = true → flush.writeFails = false →
    (system.db.writeNative flush.dirty).native = system.db.native

/-- No flush of the run fails to keep up. -/
def KeepUp (system : NativeSystem) : List Flush → Prop
  | [] => True
  | flush :: rest =>
    flush.KeepsUp system ∧ KeepUp (flushPendingAfterBatch keccak256 system flush).1 rest

def visitedInputs (visited : Set (OrderedMap NativeKey Value)) : Set (List Byte) :=
  hashInputs keccak256 noMembers ∪
    { input | ∃ native ∈ visited, input ∈ hashInputs keccak256 (mirrorOf keccak256 native) }

def visitedNatives (system : NativeSystem) (run : List Flush) : Set (OrderedMap NativeKey Value) :=
  { native | native = system.db.native ∨
      ∃ step ∈ flushes keccak256 system run, native = step.1.db.native }

section Step

variable {keccak256} {visited : Set (OrderedMap NativeKey Value)} {system : NativeSystem}

/-- Visited states with one root have the same members. -/
def RootsApart (keccak256 : List Byte → Digest) (visited : Set (OrderedMap NativeKey Value)) : Prop :=
  ∀ left ∈ visited, ∀ right ∈ visited,
    rootOf keccak256 (mirrorOf keccak256 left) = rootOf keccak256 (mirrorOf keccak256 right) →
      mirrorOf keccak256 left = mirrorOf keccak256 right

theorem rootsApart (injective : Set.InjOn keccak256 (visitedInputs keccak256 visited)) :
    RootsApart keccak256 visited := by
  intro left inLeft right inRight same
  have inputs : ∀ native ∈ visited,
      hashInputs keccak256 (mirrorOf keccak256 native) ⊆ visitedInputs keccak256 visited :=
    fun native member input inside => .inr ⟨native, member, inside⟩
  exact rootOf_inj injective (inputs left inLeft) (inputs right inRight)
    (fun bucket => mirrorOf_beyond) (fun bucket => mirrorOf_beyond) same

theorem stepOf_eq_build (injective : Set.InjOn keccak256 (visitedInputs keccak256 visited))
    {db : NativeDb} (member : db.native ∈ visited) :
    buildNativeTrieToCf keccak256 db = stepOf keccak256 db.native := by
  have rows : ∀ built : NativeDb, built.native = db.native →
      built.mirror = mirrorOf keccak256 db.native →
      built.trie = trieRows keccak256 (mirrorOf keccak256 db.native) →
      built = stepOf keccak256 db.native := by
    rintro ⟨native, mirror, trie⟩ rfl rfl rfl
    rfl
  apply rows _ build_native build_mirror
  exact build_trie injective (fun input inside => .inr ⟨db.native, member, inside⟩)
    fun input inside => .inl inside

/-- The database is in step, and what the caches hold is some visited state's, under its root. -/
structure Coherent (keccak256 : List Byte → Digest) (visited : Set (OrderedMap NativeKey Value))
    (system : NativeSystem) : Prop where
  inStep : system.db = stepOf keccak256 system.db.native
  image : ∀ inner, system.trieCache.inner = some inner →
    ∃ native ∈ visited, ImageOf keccak256 (mirrorOf keccak256 native) inner
  resident : ∀ inner, system.memberCache.inner = some inner → inner.map.entries = [] ∨
    ∃ native ∈ visited, Resident (mirrorOf keccak256 native) inner ∧
      inner.root = rootOf keccak256 (mirrorOf keccak256 native)

theorem Coherent.memberCacheOf (coherent : Coherent keccak256 visited system) (flush : Flush)
    {inner : MemberCacheInner} (held : (flush.memberCacheOf keccak256 system).inner = some inner) :
    inner.map.entries = [] ∨ ∃ native ∈ visited, Resident (mirrorOf keccak256 native) inner ∧
      inner.root = rootOf keccak256 (mirrorOf keccak256 native) := by
  unfold Flush.memberCacheOf at held
  cases anew : flush.budgetBytes with
  | none =>
    rw [anew] at held
    exact coherent.resident inner held
  | some budgetBytes =>
    simp only [anew, NativeMemberCache.withBudget] at held
    split at held
    · cases held
    · cases held
      exact .inl rfl

section Usable

variable {db : NativeDb} (apart : RootsApart keccak256 visited) (member : db.native ∈ visited)
  (inStep : db = stepOf keccak256 db.native)

include inStep

theorem persistedNativeRoot_stepOf :
    persistedNativeRoot keccak256 db = rootOf keccak256 (mirrorOf keccak256 db.native) := by
  have stored : db.trie = trieRows keccak256 (mirrorOf keccak256 db.native) :=
    congrArg NativeDb.trie inStep
  rw [persistedNativeRoot, stored]
  rfl

include apart member

theorem ensureCacheUsable_image {cache : NativeTrieCache}
    (image : ∀ inner, cache.inner = some inner →
      ∃ native ∈ visited, ImageOf keccak256 (mirrorOf keccak256 native) inner) :
    ImageOf keccak256 (mirrorOf keccak256 db.native) (ensureCacheUsable keccak256 db cache) := by
  have root := persistedNativeRoot_stepOf inStep
  have loaded : ImageOf keccak256 (mirrorOf keccak256 db.native) (loadTrieCache keccak256 db) := by
    have stored : db.trie = trieRows keccak256 (mirrorOf keccak256 db.native) :=
      congrArg NativeDb.trie inStep
    refine ⟨?_, root⟩
    simp only [Pictures, loadTrieCache, stored, implies_true, and_self]
  cases held : cache.inner with
  | none =>
    simp only [ensureCacheUsable, held]
    exact loaded
  | some inner =>
    simp only [ensureCacheUsable, held]
    split
    · rename_i same
      obtain ⟨native, visits, pictures⟩ := image inner held
      have mirrors : mirrorOf keccak256 native = mirrorOf keccak256 db.native := by
        apply apart native visits db.native member
        rw [← pictures.2, same, root]
      rw [← mirrors]
      exact pictures
    · exact loaded

theorem ensureUsable_resident {inner : MemberCacheInner}
    (resident : inner.map.entries = [] ∨ ∃ native ∈ visited,
      Resident (mirrorOf keccak256 native) inner ∧
        inner.root = rootOf keccak256 (mirrorOf keccak256 native)) :
    Resident (mirrorOf keccak256 db.native) (inner.ensureUsable keccak256 db) := by
  have vacant : ∀ inner : MemberCacheInner, inner.map.entries = [] →
      Resident (mirrorOf keccak256 db.native) inner := by
    intro inner none bucket slot found
    rw [lookup_eq_some, none] at found
    cases found
  simp only [MemberCacheInner.ensureUsable]
  split
  · rename_i same
    rcases resident with none | ⟨native, visits, resident, root⟩
    · exact vacant inner none
    · have mirrors : mirrorOf keccak256 native = mirrorOf keccak256 db.native := by
        apply apart native visits db.native member
        rw [← root, same, persistedNativeRoot_stepOf inStep]
      rw [← mirrors]
      exact resident
  · exact vacant _ rfl

end Usable

theorem Coherent.invalidate (coherent : Coherent keccak256 visited system) (flush : Flush)
    {memberCache : NativeMemberCache} {db : NativeDb} (inStep : db = stepOf keccak256 db.native)
    (resident : flush.useMemberCache = false → ∀ inner, memberCache.inner = some inner →
      inner.map.entries = [] ∨ ∃ native ∈ visited, Resident (mirrorOf keccak256 native) inner ∧
        inner.root = rootOf keccak256 (mirrorOf keccak256 native)) :
    Coherent keccak256 visited (flush.invalidate system memberCache db) where
  inStep := inStep
  image := by
    intro inner held
    simp only [Flush.invalidate] at held
    split at held
    · cases held
    · exact coherent.image inner held
  resident := by
    intro inner held
    simp only [Flush.invalidate] at held
    split at held
    · obtain ⟨before, -, rfl⟩ := Option.map_eq_some_iff.mp held
      exact .inl rfl
    · rename_i off
      exact resident (Bool.eq_false_iff.mpr off) inner held

theorem applyNativeDirty_off (db : NativeDb) (dirty : OrderedMap NativeKey (Option Value))
    (trieCache : Option NativeTrieCache) (parallel minBuckets : Nat) :
    (applyNativeDirty keccak256 db dirty trieCache none parallel minBuckets).2.2 = none := by
  simp only [applyNativeDirty]
  split
  · rfl
  · rfl

theorem Coherent.applied (coherent : Coherent keccak256 visited system)
    (apart : RootsApart keccak256 visited) (member : system.db.native ∈ visited) (flush : Flush) :
    AppliedTo keccak256 system.db flush.dirty
      (applyNativeDirty keccak256 system.db flush.dirty
        (if flush.useTrieCache then some system.trieCache else none)
        (if flush.useMemberCache then some (flush.memberCacheOf keccak256 system) else none)
        flush.parallel flush.minBuckets) := by
  apply applyNativeDirty_spec coherent.inStep
  · intro cache given
    split at given
    · cases given
      exact ensureCacheUsable_image apart member coherent.inStep coherent.image
    · cases given
  · intro cache inner given held
    split at given
    · cases given
      exact ensureUsable_resident apart member coherent.inStep (coherent.memberCacheOf flush held)
    · cases given

theorem Coherent.flush (coherent : Coherent keccak256 visited system)
    (apart : RootsApart keccak256 visited) (member : system.db.native ∈ visited) {flush : Flush}
    (after : (flushPendingAfterBatch keccak256 system flush).1.db.native ∈ visited)
    (keepsUp : flush.KeepsUp system) :
    Coherent keccak256 visited (flushPendingAfterBatch keccak256 system flush).1 ∧
      ∀ root, (flushPendingAfterBatch keccak256 system flush).2 = some root →
        root = rootOf keccak256
          (mirrorOf keccak256 (flushPendingAfterBatch keccak256 system flush).1.db.native) := by
  have kept : flush.useMemberCache = false → ∀ inner,
      (flush.memberCacheOf keccak256 system).inner = some inner →
      inner.map.entries = [] ∨ ∃ native ∈ visited, Resident (mirrorOf keccak256 native) inner ∧
        inner.root = rootOf keccak256 (mirrorOf keccak256 native) :=
    fun _ inner held => coherent.memberCacheOf flush held
  have applied := coherent.applied apart member flush
  have memberOff : flush.useMemberCache = false →
      (applyNativeDirty keccak256 system.db flush.dirty
        (if flush.useTrieCache then some system.trieCache else none)
        (if flush.useMemberCache then some (flush.memberCacheOf keccak256 system) else none)
        flush.parallel flush.minBuckets).2.2 = none := by
    intro off
    rw [off]
    exact applyNativeDirty_off _ _ _ _ _
  simp only [flushPendingAfterBatch] at after ⊢
  generalize applyNativeDirty keccak256 system.db flush.dirty
    (if flush.useTrieCache then some system.trieCache else none)
    (if flush.useMemberCache then some (flush.memberCacheOf keccak256 system) else none)
    flush.parallel flush.minBuckets = result at applied memberOff after ⊢
  by_cases clean : flush.dirty.entries.isEmpty
  · simp only [clean, if_true] at after ⊢
    cases fails : flush.writeFails with
    | true => exact ⟨coherent.invalidate flush coherent.inStep kept, by simp⟩
    | false => exact ⟨⟨coherent.inStep, coherent.image, fun inner held =>
      coherent.memberCacheOf flush held⟩, by simp⟩
  · simp only [if_neg clean] at after ⊢
    cases applyFails : flush.applyFails with
    | true =>
      simp only [if_true]
      refine ⟨coherent.invalidate flush ?_ kept, by simp⟩
      cases writeFails : flush.writeFails with
      | true => exact coherent.inStep
      | false =>
        -- the rows land without the trie: they are the ones that were there
        have landed : system.db.writeNative flush.dirty =
            { system.db with native := (system.db.writeNative flush.dirty).native } := rfl
        have same : system.db.writeNative flush.dirty = system.db := by
          rw [landed, keepsUp applyFails writeFails]
        rw [if_neg Bool.false_ne_true, same]
        exact coherent.inStep
    | false =>
      rw [applyFails] at after
      simp only [Bool.false_eq_true, if_false] at after ⊢
      cases writeFails : flush.writeFails with
      | true =>
        simp only [if_true]
        refine ⟨coherent.invalidate flush coherent.inStep ?_, by simp⟩
        intro off
        rw [memberOff off]
        exact kept off
      | false =>
        rw [writeFails] at after
        simp only [Bool.false_eq_true, if_false] at after ⊢
        rw [applied.written] at after ⊢
        refine ⟨⟨rfl, ?_, ?_⟩, ?_⟩
        · intro inner held
          cases used : result.2.1 with
          | none =>
            simp only [used] at held
            exact coherent.image inner held
          | some cache =>
            obtain ⟨before, changed, loaded, nodes, image⟩ := applied.image cache used
            simp only [used, nodes, NativeTrieCache.commitChanged, loaded, Option.map_some,
              Option.some.injEq] at held
            rw [← held]
            exact ⟨_, after, image⟩
        · intro inner held
          cases used : result.2.2 with
          | none =>
            simp only [used] at held
            exact coherent.memberCacheOf flush held
          | some cache =>
            simp only [used, NativeMemberCache.commitFinals] at held
            obtain ⟨before, found, rfl⟩ := Option.map_eq_some_iff.mp held
            refine .inr ⟨_, after, applied.resident cache before used found, ?_⟩
            rw [commitFinals_root]
            exact applied.root
        · intro root given
          cases given
          exact applied.root

end Step

variable {keccak256}

theorem foldl_writeOp_native (ops : List NodeOp) (db : NativeDb)
    (native : OrderedMap NativeKey Value) :
    ops.foldl NativeDb.writeOp { db with native } =
      { ops.foldl NativeDb.writeOp db with native } := by
  induction ops generalizing db with
  | nil => rfl
  | cons op ops ih =>
    have first : NativeDb.writeOp { db with native } op = { db.writeOp op with native } := by
      cases op with
      | mirror bucket key value => rfl
      | node level index value => rfl
      | root value => rfl
    rw [foldl_cons, first, ih, foldl_cons]

theorem foldl_writeOp_kept (ops : List NodeOp) (db : NativeDb) :
    (ops.foldl NativeDb.writeOp db).native = db.native := by
  have rows := congrArg NativeDb.native (foldl_writeOp_native ops db db.native)
  exact rows

theorem flush_native (system : NativeSystem) (flush : Flush) :
    (flushPendingAfterBatch keccak256 system flush).1.db.native = system.db.native ∨
      (flushPendingAfterBatch keccak256 system flush).1.db.native =
        (system.db.writeNative flush.dirty).native := by
  simp only [flushPendingAfterBatch]
  split
  · split
    · exact .inl rfl
    · exact .inl rfl
  · split
    · simp only [Flush.invalidate]
      split
      · exact .inl rfl
      · exact .inr rfl
    · split
      · exact .inl rfl
      · exact .inr (foldl_writeOp_kept _ _)

theorem lookup_writeNative (db : NativeDb) (dirty : OrderedMap NativeKey (Option Value))
    (key : NativeKey) : (db.writeNative dirty).native.lookup key =
      (dirty.lookup key).getD (db.native.lookup key) := by
  have edits : editNative = OrderedMap.edit := by
    funext native row
    obtain ⟨key, value⟩ := row
    cases value with
    | some value => rfl
    | none => rfl
  rw [writeNative_native, edits, lookup_foldl_edit dirty.ascends]
  rfl

theorem flush_lands (system : NativeSystem) {flush : Flush} (applies : flush.applyFails = false)
    (writes : flush.writeFails = false) :
    (flushPendingAfterBatch keccak256 system flush).1.db.native =
      (system.db.writeNative flush.dirty).native := by
  by_cases clean : flush.dirty.entries.isEmpty
  · simp only [flushPendingAfterBatch, clean, if_true, writes, Bool.false_eq_true, if_false]
    rw [writeNative_native, List.isEmpty_iff.mp clean]
    rfl
  · simp only [flushPendingAfterBatch, if_neg clean, applies, writes, Bool.false_eq_true, if_false]
    exact foldl_writeOp_kept _ _

theorem flushes_coherent
    (apart : RootsApart keccak256 visited) {system : NativeSystem} (run : List Flush)
    (coherent : Coherent keccak256 visited system)
    (visits : visitedNatives keccak256 system run ⊆ visited)
    (keepUp : KeepUp keccak256 system run) :
    ∀ step ∈ flushes keccak256 system run, Coherent keccak256 visited step.1 ∧
      ∀ root, step.2 = some root →
        root = rootOf keccak256 (mirrorOf keccak256 step.1.db.native) := by
  induction run generalizing system with
  | nil =>
    intro step member
    cases member
  | cons flush run ih =>
    have first := coherent.flush apart (visits (.inl rfl))
      (visits (.inr ⟨_, mem_cons_self, rfl⟩)) keepUp.1
    have later : visitedNatives keccak256 (flushPendingAfterBatch keccak256 system flush).1 run ⊆
        visited := by
      rintro native (rfl | ⟨step, member, rfl⟩)
      · exact visits (.inr ⟨_, mem_cons_self, rfl⟩)
      · exact visits (.inr ⟨step, mem_cons_of_mem _ member, rfl⟩)
    intro step member
    rcases mem_cons.mp member with rfl | member
    · exact first
    · exact ih first.1 later keepUp.2 step member

/-- Along a run of flushes from a built trie, the trie stays the one a build would write and every
root is that of the full scan, when no failed application lands a change. -/
theorem flushes_inStep (start : NativeDb) (run : List Flush)
    (injective : Set.InjOn keccak256 (visitedInputs keccak256
      (visitedNatives keccak256 { db := buildNativeTrieToCf keccak256 start } run)))
    (keepUp : KeepUp keccak256 { db := buildNativeTrieToCf keccak256 start } run) :
    ∀ step ∈ flushes keccak256 { db := buildNativeTrieToCf keccak256 start } run,
      InStep keccak256 step.1.db ∧
        ∀ root, step.2 = some root → root = nativeRootFull keccak256 step.1.db.native := by
  generalize visits : visitedNatives keccak256 { db := buildNativeTrieToCf keccak256 start } run =
    visited at injective
  have started : (buildNativeTrieToCf keccak256 start).native ∈ visited := by
    rw [← visits]
    exact .inl rfl
  have coherent : Coherent keccak256 visited { db := buildNativeTrieToCf keccak256 start } := by
    constructor
    · have native : start.native ∈ visited := by
        rw [build_native] at started
        exact started
      have built := stepOf_eq_build injective native
      rw [build_native]
      exact built
    · intro inner held
      cases held
    · intro inner held
      cases held
  intro step member
  obtain ⟨kept, roots⟩ := flushes_coherent (rootsApart injective) run coherent
    (le_of_eq visits) keepUp step member
  have inside : step.1.db.native ∈ visited := by
    rw [← visits]
    exact .inr ⟨step, member, rfl⟩
  refine ⟨⟨?_, ?_⟩, ?_⟩
  · rw [stepOf_eq_build injective inside]
    exact kept.inStep
  · rw [persistedNativeRoot_stepOf kept.inStep, nativeRootFull_eq]
  · intro root given
    rw [roots root given, nativeRootFull_eq]

end Keccak

/-! A run over a single row, with the digests it really has. -/

def balanceKey : NativeKey := toLex (0, ⟨[1], by decide⟩)

def balances : OrderedMap NativeKey Value := ({} : OrderedMap NativeKey Value).insert balanceKey [7]

def emptyDigests : List Digest :=
  [0xc734a043d7de1f8dbdb1c885ceef907b44c6ebc0adb73f18b13baec367fc103#256,
    0xc470ea2f5b75918115c488952ef876f93da9255b8130514a488675ee6a18b6b4#256,
    0xca792afc9ee78a62b4c8a65692657a8090ca7895c38615ba329abf2ca7637d85#256,
    0xb6a2b8674096c2bf019fec1ea40e2e3304ca905e4684b23857e53ec799bc9cb2#256,
    0x71c0b59ed2a004027910ee7b3a4e4e1bd787b278859dda6fbb6feb2726905729#256,
    0x32433efbd7af7dc7ffc455e1ecdd32c26ea6911a6434a85dd289871fc089f212#256,
    0x13f316c97fdf4beeb660cdc364b17b766cd20924548e393977fdb834edca3e82#256,
    0x348d35c0c85251ea336ed2864c82755c51aa0fd791b0deb7052920b058bc84e#256,
    0x940512834afc79681a4d6ea5a7e570c9f81354d256efac204206f17fc9babf88#256,
    0x140ebcb9cb2deeb1816b39b8f9b8ae3e192059eb8c030897fc2ad5e9a9145cd7#256,
    0x85c29b70fc76b60e9a22d5d8e96e618525ccc835b4a5cbc2545fabe89077640e#256,
    0x74acd36e46d0a2d149ff1ffce867244a511850d9280a3ae20ce4fdd58b5f1033#256,
    0xa5ca09f6ac8c98fdec23ebc8a146936d6c6f5985e6e99f802784f6bd53549c9c#256,
    0xe33831ac4fd154050b1443b7b6eb2e054eefb13702fb4fdba2156c8cffb4f9e#256,
    0xa5a8040535d54a419624f556173e0f11d4409efa0837ec2722efd277e60c492b#256,
    0xfd34fec5defd0df04706559e6abe999c6aab8e2b10dff7fbb27526dc718975e#256,
    0xcb2abf1ec92bf2d373e8e86e9ef839fa057472ac13b2c70d3cdb25cc8d2fe5fb#256]

def balanceDigests : List Digest :=
  [0xd74b2965acddf7d65a624575628b712e6959e89b156ac95f7270b613f3a4fb58#256,
    0x143111acc5fb3cf1e10050b038970f42cd2f236b8692edb29824d203a46d1730#256,
    0xd7d996f3177c62ea4c57dfba8ea756ed3c650435bfc9482dc8ef4b14c477ce55#256,
    0xd388d347d171240be152da7bbada576b53b47bca9ef2be8ebcbc0eb34b1b58b4#256,
    0x76a89d244c0e7ce0526bde11ea4b336cae51f252edc91f81d177b288fad611df#256,
    0x2cc3beea6c596615c8a86766be236e5c82b88d2d7a3cddeda9e531d10764076a#256,
    0x79cddf7bd75e6b5b3973ecb38065ff6a22a40819264c60dd64f3aff4030c0321#256,
    0xd1a92ced49808045428ad3c60b12748c91bf5170453673c8988f406ddbe8301#256,
    0x57a2320618ccb9e9179294f882ffda04b8873946e15a117fcdac9c5863a14756#256,
    0x15753181553a6058b28073d0cb02430b4d74b7fa9414b3533bff2c98963f6839#256,
    0x24017195192a1ce029dc55f445a91b4a4515fc04c6c80ba832f7edf1b31730fb#256,
    0xbc9017c0b65c312701ba0c8a25e4de9cd182f1d2ee0047c1fe681faa0d5fc74#256,
    0x3324ab4f2a8da77c3b7fd844b70eaa5697d8a324d5c8f27c0d06c0fd6890f105#256,
    0x8d75b64f4540a1716b499b7c5cceff5288ddee2c8e9be778948aa138150a33ec#256,
    0xc6041dee54cd266cb9593fc12c9c055201cf2b40bf7f3039cb6ed59cd92b2342#256,
    0x16e95d8772351dd1469c1e5a3843ea6e15259685fe97aa7acdb13c7abcfde4e6#256,
    0x52c01d9bc2764566ea683bd5086c9282e6e5c305ec174538d862e66f8311ffa9#256]

def emptyDigest (height : Nat) : Digest := emptyDigests.getD height 0

def balanceDigest (height : Nat) : Digest := balanceDigests.getD height 0

def balanceBucket : Nat := 18896

theorem bucketId_balanceKey : bucketId keccak256 balanceKey = balanceBucket := by
  decide +kernel

def emptyInput (height : Nat) : List Byte :=
  digestBytes (emptyDigest height) ++ digestBytes (emptyDigest height)

def balanceInput (height : Nat) : List Byte :=
  if balanceBucket / 2 ^ height % 2 = 0 then
    digestBytes (balanceDigest height) ++ digestBytes (emptyDigest height)
  else digestBytes (emptyDigest height) ++ digestBytes (balanceDigest height)

def balanceFrame : List Byte := frameEntry balanceKey (digestBytes (keccak256 [7]))

theorem keccak256_emptyInput : ∀ height < treeDepth,
    keccak256 (emptyInput height) = emptyDigest (height + 1) := by
  decide +kernel

theorem keccak256_balanceInput : ∀ height < treeDepth,
    keccak256 (balanceInput height) = balanceDigest (height + 1) := by
  decide +kernel

theorem keccak256_leaves : emptyLeaf keccak256 = emptyDigest 0 ∧
    keccak256 balanceFrame = balanceDigest 0 := by
  decide +kernel

def balanceInputs : List (List Byte) :=
  [emptyLeafText, [0x80], balanceFrame] ++ (List.range treeDepth).map emptyInput ++
    (List.range treeDepth).map balanceInput

theorem balanceInputs_digests : balanceInputs.map keccak256 =
    [emptyDigest 0, emptyRootHash keccak256, balanceDigest 0] ++
      (List.range treeDepth).map (fun height => emptyDigest (height + 1)) ++
      (List.range treeDepth).map fun height => balanceDigest (height + 1) := by
  have empties : ((List.range treeDepth).map emptyInput).map keccak256 =
      (List.range treeDepth).map fun height => emptyDigest (height + 1) := by
    rw [map_map]
    apply map_congr_left
    intro height member
    exact keccak256_emptyInput height (List.mem_range.mp member)
  have occupied : ((List.range treeDepth).map balanceInput).map keccak256 =
      (List.range treeDepth).map fun height => balanceDigest (height + 1) := by
    rw [map_map]
    apply map_congr_left
    intro height member
    exact keccak256_balanceInput height (List.mem_range.mp member)
  rw [balanceInputs, map_append, map_append, empties, occupied, map_cons,
    map_cons, map_cons, map_nil, keccak256_leaves.2, ← keccak256_leaves.1,
    emptyLeaf, emptyRootHash]

theorem balanceInputs_injOn : Set.InjOn keccak256 { input | input ∈ balanceInputs } := by
  have apart : (balanceInputs.map keccak256).Nodup := by
    rw [balanceInputs_digests]
    decide +kernel
  intro left inLeft right inRight same
  exact inj_on_of_nodup_map apart inLeft inRight same

variable {height : Nat}

theorem defaultNode_emptyDigest (bound : height ≤ treeDepth) :
    MerkleTree.defaultNode (hashPair keccak256) (emptyLeaf keccak256) height =
      emptyDigest height := by
  induction height with
  | zero => exact keccak256_leaves.1
  | succ height ih =>
    rw [MerkleTree.defaultNode, ih (Nat.le_of_succ_le bound)]
    exact keccak256_emptyInput height bound

theorem path_balanceDigest (bound : height ≤ treeDepth) :
    MerkleTree.path (hashPair keccak256) (emptyLeaf keccak256) (keccak256 balanceFrame)
      balanceBucket height = balanceDigest height := by
  induction height with
  | zero => exact keccak256_leaves.2
  | succ height ih =>
    have hashed := keccak256_balanceInput height bound
    rw [MerkleTree.path, ih (Nat.le_of_succ_le bound),
      defaultNode_emptyDigest (Nat.le_of_succ_le bound), ← hashed, balanceInput]
    split
    · rfl
    · rfl

theorem lookup_mirrorOf_balances (bucket : Nat) : mirrorOf keccak256 balances bucket =
    if bucket = balanceBucket then ({} : Members).insert balanceKey (keccak256 [7]) else {} := by
  apply ext_lookup
  intro key
  rw [lookup_mirrorOf, balances, lookup_insert]
  by_cases here : key = balanceKey
  · rw [here, bucketId_balanceKey]
    by_cases inside : bucket = balanceBucket
    · rw [if_pos inside.symm, if_pos inside, lookup_insert]
      simp
    · rw [if_neg (Ne.symm inside), if_neg inside]
      rfl
  · have absent : ({} : OrderedMap NativeKey Value).lookup key = none := rfl
    by_cases inside : bucket = balanceBucket
    · rw [if_pos inside, lookup_insert, if_neg here, if_neg here, absent]
      simp
      rfl
    · rw [if_neg inside, if_neg here, absent]
      simp
      rfl

theorem frames_single (key : NativeKey) (value : Digest) :
    frames (({} : Members).insert key value) = frameEntry key (digestBytes value) := by
  simp [frames, OrderedMap.insert, OrderedMap.insertEntry]

theorem leafOf_single (hash : List Byte → Digest) (key : NativeKey) (value : Digest) :
    leafOf hash (({} : Members).insert key value) = hash (frameEntry key (digestBytes value)) := by
  rw [leafOf, frames_single]
  simp [OrderedMap.insert, OrderedMap.insertEntry]

theorem leafAt_balances : leafAt keccak256 (mirrorOf keccak256 balances) = fun bucket =>
    if bucket = balanceBucket then keccak256 balanceFrame else emptyLeaf keccak256 := by
  funext bucket
  rw [leafAt, lookup_mirrorOf_balances]
  by_cases inside : bucket = balanceBucket
  · rw [if_pos inside, if_pos inside, leafOf_single, balanceFrame]
  · rw [if_neg inside, if_neg inside]
    rfl

theorem emptyInput_mem (below : height < treeDepth) : emptyInput height ∈ balanceInputs :=
  mem_append_left _ (mem_append_right _
    (mem_map_of_mem (List.mem_range.mpr below)))

theorem balanceInput_mem (below : height < treeDepth) : balanceInput height ∈ balanceInputs :=
  mem_append_right _ (mem_map_of_mem (List.mem_range.mpr below))

theorem hashInputs_none : hashInputs keccak256 noMembers ⊆ { input | input ∈ balanceInputs } := by
  rintro input (rfl | rfl | ⟨bucket, occupied, -⟩ | ⟨height, below, index, rfl⟩)
  · exact mem_cons_self
  · exact mem_cons_of_mem _ mem_cons_self
  · exact absurd rfl occupied
  · have default : ∀ place, MerkleTree.node (hashPair keccak256) (leafAt keccak256 noMembers) height
        place = emptyDigest height := by
      intro place
      rw [← defaultNode_emptyDigest (le_of_lt below)]
      exact MerkleTree.node_empty fun _ _ => rfl
    rw [default, default]
    exact emptyInput_mem below

theorem hashInputs_balances :
    hashInputs keccak256 (mirrorOf keccak256 balances) ⊆ { input | input ∈ balanceInputs } := by
  rintro input (rfl | rfl | ⟨bucket, occupied, is⟩ | ⟨height, below, index, is⟩)
  · exact mem_cons_self
  · exact mem_cons_of_mem _ mem_cons_self
  · rw [is]
    rw [lookup_mirrorOf_balances] at occupied ⊢
    by_cases inside : bucket = balanceBucket
    · rw [if_pos inside]
      rw [frames_single, ← balanceFrame]
      exact mem_append_left _ (mem_append_left _
        (mem_cons_of_mem _ (mem_cons_of_mem _ (mem_singleton.mpr rfl))))
    · rw [if_neg inside] at occupied
      exact absurd rfl occupied
  · -- the pair lies on the path of the row or apart from it
    have parent : balanceBucket / 2 ^ (height + 1) = balanceBucket / 2 ^ height / 2 := by
      rw [Nat.pow_succ, Nat.div_div_eq_div_mul]
    rw [is, leafAt_balances, MerkleTree.node_single, MerkleTree.node_single,
      path_balanceDigest (le_of_lt below), defaultNode_emptyDigest (le_of_lt below)]
    have onPath := balanceInput_mem below
    rw [balanceInput] at onPath
    generalize balanceBucket / 2 ^ height = place at onPath
    by_cases left : 2 * index = place
    · have right : ¬ 2 * index + 1 = place := by omega
      have even : place % 2 = 0 := by omega
      rw [if_pos even] at onPath
      rw [if_pos left, if_neg right]
      exact onPath
    · by_cases right : 2 * index + 1 = place
      · have odd : ¬ place % 2 = 0 := by omega
        rw [if_neg odd] at onPath
        rw [if_neg left, if_pos right]
        exact onPath
      · rw [if_neg left, if_neg right]
        exact emptyInput_mem below

theorem visitedInputs_balances (few : ∀ native ∈ visited, native = {} ∨ native = balances) :
    Set.InjOn keccak256 (visitedInputs keccak256 visited) := by
  apply balanceInputs_injOn.mono
  rintro input (inside | ⟨native, member, inside⟩)
  · exact hashInputs_none inside
  · rcases few native member with rfl | rfl
    · have none : mirrorOf keccak256 {} = noMembers := by
        funext bucket
        apply ext_lookup
        intro key
        rw [lookup_mirrorOf]
        simp [noMembers, OrderedMap.lookup]
      rw [none] at inside
      exact hashInputs_none inside
    · exact hashInputs_balances inside

def balanceFlush : Flush where
  dirty := OrderedMap.empty.insert balanceKey (some [7])
  useTrieCache := true
  useMemberCache := true
  budgetBytes := some 1024
  parallel := 4

theorem balanceFlush_native {system : NativeSystem} (none : system.db.native = {}) :
    (system.db.writeNative balanceFlush.dirty).native = balances := by
  rw [writeNative_native, none]
  rfl

def otherKey : NativeKey := toLex (0, ⟨[2], by decide⟩)

def otherFlush : Flush where
  dirty := OrderedMap.empty.insert otherKey none

def clearFlush : Flush where
  dirty := OrderedMap.empty.insert balanceKey none

/-- A flush that writes nothing but the balance, or no row. -/
def Flush.IsSmall (flush : Flush) : Prop :=
  flush.dirty = balanceFlush.dirty ∨ flush.dirty = otherFlush.dirty ∨ flush.dirty = clearFlush.dirty

theorem visitedNatives_small {system : NativeSystem} {run : List Flush}
    (start : system.db.native = {} ∨ system.db.native = balances)
    (small : ∀ flush ∈ run, flush.IsSmall) :
    ∀ native ∈ visitedNatives keccak256 system run, native = {} ∨ native = balances := by
  induction run generalizing system with
  | nil =>
    rintro native (rfl | ⟨step, member, -⟩)
    · exact start
    · cases member
  | cons flush run ih =>
    have next : (flushPendingAfterBatch keccak256 system flush).1.db.native = {} ∨
        (flushPendingAfterBatch keccak256 system flush).1.db.native = balances := by
      rcases @flush_native keccak256 system flush with same | same
      · rw [same]
        exact start
      · rw [same, writeNative_native]
        rcases small flush mem_cons_self with dirty | dirty | dirty <;>
          rcases start with before | before <;> rw [dirty, before] <;>
          first | exact .inl rfl | exact .inr rfl
    rintro native (rfl | ⟨step, member, rfl⟩)
    · exact start
    · rcases mem_cons.mp member with rfl | later
      · exact next
      · exact ih next (fun flush inside => small flush (mem_cons_of_mem _ inside)) _
          (.inr ⟨step, later, rfl⟩)

/-- The balance is written, its second write is not applied, a first deletion is not written. -/
def keptRun : List Flush :=
  [balanceFlush, otherFlush, { balanceFlush with applyFails := true },
    { clearFlush with applyFails := true, writeFails := true }, clearFlush]

theorem keptRun_keepUp {system : NativeSystem} (start : system.db.native = {}) :
    KeepUp keccak256 system keptRun := by
  have first := (@flush_lands keccak256 system balanceFlush rfl rfl).trans
    (balanceFlush_native start)
  have second : (flushPendingAfterBatch keccak256 (flushPendingAfterBatch keccak256 system
      balanceFlush).1 otherFlush).1.db.native = balances := by
    rw [flush_lands _ rfl rfl, writeNative_native, first]
    rfl
  refine ⟨nofun, nofun, fun _ _ => ?_, fun _ => nofun, nofun, trivial⟩
  rw [writeNative_native, second]
  rfl

theorem flushes_inStep_balance :
    (flushes keccak256 { db := buildNativeTrieToCf keccak256 {} } keptRun).length = 5 ∧
      ∀ step ∈ flushes keccak256 { db := buildNativeTrieToCf keccak256 {} } keptRun,
        InStep keccak256 step.1.db ∧
          ∀ root, step.2 = some root → root = nativeRootFull keccak256 step.1.db.native := by
  have start : (buildNativeTrieToCf keccak256 {}).native = {} := build_native
  refine ⟨by simp only [keptRun, flushes, length_cons, length_nil], ?_⟩
  apply flushes_inStep
  · apply visitedInputs_balances
    apply visitedNatives_small (.inl start)
    simp [keptRun, Flush.IsSmall]
  · exact keptRun_keepUp start

theorem applyNativeDirty_native (hash : List Byte → Digest) (db : NativeDb)
    (native : OrderedMap NativeKey Value) (dirty : OrderedMap NativeKey (Option Value))
    (trieCache : Option NativeTrieCache) (memberCache : Option NativeMemberCache)
    (parallel minBuckets : Nat) :
    applyNativeDirty hash { db with native } dirty trieCache memberCache parallel minBuckets =
      applyNativeDirty hash db dirty trieCache memberCache parallel minBuckets := rfl

def failedRun : List Flush := [{ balanceFlush with applyFails := true }, otherFlush]

theorem flush_applyFails {system : NativeSystem} {flush : Flush}
    (dirty : flush.dirty.entries.isEmpty = false) (fails : flush.applyFails = true)
    (lands : flush.writeFails = false) :
    (flushPendingAfterBatch keccak256 system flush).1.db = system.db.writeNative flush.dirty := by
  simp [flushPendingAfterBatch, dirty, fails, lands, Flush.invalidate]

theorem flush_applies {system : NativeSystem} {flush : Flush}
    (dirty : flush.dirty.entries.isEmpty = false) (applies : flush.applyFails = false)
    (lands : flush.writeFails = false) (uncached : flush.useTrieCache = false)
    (unheld : flush.useMemberCache = false) :
    (flushPendingAfterBatch keccak256 system flush).2.isSome ∧
      (flushPendingAfterBatch keccak256 system flush).1.db =
        (applyNativeDirty keccak256 system.db flush.dirty none none flush.parallel
          flush.minBuckets).1.ops.foldl NativeDb.writeOp (system.db.writeNative flush.dirty) := by
  simp [flushPendingAfterBatch, dirty, applies, lands, uncached, unheld]

/-- A failed application lands its row; the next flush succeeds on a trie without it. -/
theorem flushes_outOfStep :
    Set.InjOn keccak256 (visitedInputs keccak256
      (visitedNatives keccak256 { db := buildNativeTrieToCf keccak256 {} } failedRun)) ∧
    ∃ step ∈ flushes keccak256 { db := buildNativeTrieToCf keccak256 {} } failedRun,
      step.2.isSome ∧ ¬ InStep keccak256 step.1.db := by
  have start : (buildNativeTrieToCf keccak256 {}).native = {} := build_native
  have small : ∀ flush ∈ failedRun, flush.IsSmall := by simp [failedRun, Flush.IsSmall]
  have injective := visitedInputs_balances (@visitedNatives_small
    { db := buildNativeTrieToCf keccak256 {} } failedRun (.inl start) small)
  have inStep : buildNativeTrieToCf keccak256 {} =
      stepOf keccak256 (buildNativeTrieToCf keccak256 {}).native := by
    rw [start]
    exact stepOf_eq_build injective (.inl start.symm)
  generalize buildNativeTrieToCf keccak256 {} = built at *
  refine ⟨injective, _, mem_cons_of_mem _ mem_cons_self, ?_⟩
  have failed := @flush_applyFails { db := built } { balanceFlush with applyFails := true } rfl rfl rfl
  generalize (flushPendingAfterBatch keccak256 { db := built }
    { balanceFlush with applyFails := true }).1 = system at failed ⊢
  obtain ⟨succeeds, after⟩ := @flush_applies system otherFlush rfl rfl rfl rfl rfl
  refine ⟨succeeds, ?_⟩
  rintro ⟨rebuilt, -⟩
  have landed : system.db = { built with native := balances } := by
    rw [failed, ← @balanceFlush_native { db := built } start]
    rfl
  have applied : AppliedTo keccak256 built otherFlush.dirty
      (applyNativeDirty keccak256 built otherFlush.dirty none none 1 1) :=
    applyNativeDirty_spec inStep (by simp) (by simp)
  have rows : (flushPendingAfterBatch keccak256 system otherFlush).1.db =
      { stepOf keccak256 (built.writeNative otherFlush.dirty).native with native := balances } := by
    rw [after, landed, applyNativeDirty_native, ← applied.written]
    exact foldl_writeOp_native _ (built.writeNative otherFlush.dirty) balances
  -- the mirror is that of the empty state, the native rows hold the balance
  have none : (built.writeNative otherFlush.dirty).native = {} := by
    rw [writeNative_native, start]
    rfl
  have mirrors : mirrorOf keccak256 {} = mirrorOf keccak256 balances := by
    have same := congrArg NativeDb.mirror rebuilt
    rw [build_mirror, rows, none] at same
    exact same
  have lookups := congrArg (fun mirror => (mirror balanceBucket).lookup balanceKey) mirrors
  simp only [lookup_mirrorOf, bucketId_balanceKey, if_true, balances, lookup_insert] at lookups
  cases lookups

end TorusHyperBft.NativeTrie
