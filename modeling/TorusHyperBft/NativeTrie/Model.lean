import TorusHyperBft.MerkleTree
import TorusHyperBft.RunningHash.Digest

namespace TorusHyperBft.NativeTrie

/-! The native state root: the rows of seven column families in buckets by the hash of their key,
a mirror of their value hashes, and a hash tree over the buckets that is kept up row by row. -/

open RunningHash (Value ColumnFamily Digest digestBytes ascii)

abbrev StoredKey := { key : List Byte // key.length < 2 ^ 32 }

/-- A row of the native state: the frozen tag of its column family, and its key. -/
abbrev NativeKey := Fin 7 ×ₗ StoredKey

instance neZero_tags : NeZero 7 := inferInstance

def nativeRootCfs : List (ColumnFamily × Fin 7) :=
  [(.nativeBalances, 0), (.nativeOrderBooks, 1), (.nativePositions, 2), (.nativeOracle, 3),
    (.stakingDelegations, 4), (.stakingValidators, 5), (.nativeLiquidation, 6)]

def cfTag (cf : ColumnFamily) : Option (Fin 7) :=
  (nativeRootCfs.find? fun rooted => rooted.1 = cf).map Prod.snd

def treeDepth : Nat := 16

abbrev Members := OrderedMap NativeKey Digest

def tagByte (key : NativeKey) : Byte := ⟨(ofLex key).1.val, by omega⟩

def keyBytes (key : NativeKey) : List Byte := (ofLex key).2.val

def u32Bytes (length : Nat) : List Byte := (toBytes 4 (length % 2 ^ 32)).reverse

def frameEntry (key : NativeKey) (value : List Byte) : List Byte :=
  [tagByte key] ++ u32Bytes (keyBytes key).length ++ keyBytes key ++ u32Bytes value.length ++ value

def frames (members : Members) : List Byte :=
  members.entries.flatMap fun member => frameEntry member.1 (digestBytes member.2)

/-- The rows of the trie's column family: the nodes by level and index (the leaves on the lowest
level), and the root marker. -/
structure TrieRows where
  node : Nat → Nat → Option Digest := fun _ _ => none
  root : Option Digest := none

def TrieRows.putNode (rows : TrieRows) (level index : Nat) (value : Option Digest) : TrieRows :=
  { rows with node := fun atLevel atIndex =>
      if atLevel = level ∧ atIndex = index then value else rows.node atLevel atIndex }

/-- The native rows, the mirror by bucket, and the trie. -/
structure NativeDb where
  native : OrderedMap NativeKey Value := .empty
  mirror : Nat → Members := fun _ => .empty
  trie : TrieRows := {}

/-- A pending write or delete of the mirror or the trie. -/
inductive NodeOp where
  | mirror (bucket : Nat) (key : NativeKey) (value : Option Digest)
  | node (level index : Nat) (value : Option Digest)
  | root (value : Digest)

namespace NativeDb

def putMirror (db : NativeDb) (bucket : Nat) (key : NativeKey) (value : Option Digest) : NativeDb :=
  { db with mirror := fun other =>
      if other = bucket then
        match value with
        | some value => (db.mirror bucket).insert key value
        | none => (db.mirror bucket).erase key
      else db.mirror other }

def writeOp (db : NativeDb) : NodeOp → NativeDb
  | .mirror bucket key value => db.putMirror bucket key value
  | .node level index value => { db with trie := db.trie.putNode level index value }
  | .root value => { db with trie := { db.trie with root := some value } }

def writeNative (db : NativeDb) (dirty : OrderedMap NativeKey (Option Value)) : NativeDb :=
  { db with native := dirty.entries.foldl (fun native row =>
      match row.2 with
      | some value => native.insert row.1 value
      | none => native.erase row.1) db.native }

end NativeDb

section Keccak

variable (keccak256 : List Byte → Digest)

def emptyLeafText : List Byte := ascii "torus.native.bucket.empty"

def emptyLeaf : Digest := keccak256 emptyLeafText

def hashPair (left right : Digest) : Digest := keccak256 (digestBytes left ++ digestBytes right)

def defaultNodes (level : Nat) : Digest :=
  MerkleTree.defaultNode (hashPair keccak256) (emptyLeaf keccak256) (treeDepth - level)

def bucketId (key : NativeKey) : Nat := (keccak256 (tagByte key :: keyBytes key)).toNat / 2 ^ 240

def emptyRootHash : Digest := keccak256 [0x80]

def finalizeRoot (node00 : Digest) : Digest :=
  if node00 = defaultNodes keccak256 0 then emptyRootHash keccak256 else node00

/-- The given nodes of a level and their ancestors, level 0 first; a child that is not given is
read. -/
def propagateChangedNodes (read : Nat → Nat → Digest) : Nat → OrderedMap Nat Digest →
    List ((Nat × Nat) × Digest)
  | 0, nodes => nodes.entries.map fun node => ((0, node.1), node.2)
  | level + 1, nodes =>
    propagateChangedNodes read level
        (MerkleTree.parentLevel (hashPair keccak256) (read (level + 1)) nodes) ++
      nodes.entries.map fun node => ((level + 1, node.1), node.2)

def node00 (nodes : List ((Nat × Nat) × Digest)) : Digest :=
  ((nodes.find? fun node => node.1 = (0, 0)).map Prod.snd).getD (defaultNodes keccak256 0)

/-- The tree over the leaves of the buckets that are not empty: the top node, and all nodes. -/
def buildTree (leaves : OrderedMap Nat Digest) : Digest × List ((Nat × Nat) × Digest) :=
  let nodes := propagateChangedNodes keccak256 (fun level _ => defaultNodes keccak256 level)
    treeDepth leaves
  (node00 keccak256 nodes, nodes)

/-- The hashed bytes of each bucket that is not empty, in the order of the rows. -/
def bucketBytes (native : OrderedMap NativeKey Value) : OrderedMap Nat (List Byte) :=
  OrderedMap.gather (fun row => bucketId keccak256 row.1)
    (fun row => frameEntry row.1 (digestBytes (keccak256 row.2))) native.entries

def leavesFromDb (native : OrderedMap NativeKey Value) : OrderedMap Nat Digest :=
  (bucketBytes keccak256 native).mapValues keccak256

def nativeRootFull (native : OrderedMap NativeKey Value) : Digest :=
  finalizeRoot keccak256 (buildTree keccak256 (leavesFromDb keccak256 native)).1

def buildNativeTrieToCf (db : NativeDb) : NativeDb :=
  let mirrored := db.native.entries.foldl (fun built row =>
    built.putMirror (bucketId keccak256 row.1) row.1 (some (keccak256 row.2)))
    { db with mirror := fun _ => {}, trie := {} }
  let tree := buildTree keccak256 (leavesFromDb keccak256 db.native)
  let rows : TrieRows :=
    tree.2.foldl (fun rows node => rows.putNode node.1.1 node.1.2 (some node.2)) {}
  { mirrored with trie := { rows with root := some (finalizeRoot keccak256 tree.1) } }

def persistedNativeRoot (db : NativeDb) : Digest := db.trie.root.getD (emptyRootHash keccak256)

/-- An image of the stored trie, and the root it stands for. -/
structure TrieCacheInner where
  leaves : Nat → Option Digest
  nodes : Nat → Nat → Option Digest
  root : Digest

structure NativeTrieCache where
  inner : Option TrieCacheInner := none

def loadTrieCache (db : NativeDb) : TrieCacheInner where
  leaves := db.trie.node treeDepth
  nodes := db.trie.node
  root := persistedNativeRoot keccak256 db

def ensureCacheUsable (db : NativeDb) (cache : NativeTrieCache) : TrieCacheInner :=
  match cache.inner with
  | some inner =>
    if inner.root = persistedNativeRoot keccak256 db then inner else loadTrieCache keccak256 db
  | none => loadTrieCache keccak256 db

def memberEntryOverhead : Nat := 48

def membersBytes (members : Members) : Nat :=
  (members.entries.map fun member => (keyBytes member.1).length + 32 + memberEntryOverhead).sum

structure MemberSlot where
  members : Members
  bytes : Nat
  seq : Nat

structure MemberCacheInner where
  budgetBytes : Nat
  totalBytes : Nat
  clock : Nat
  map : OrderedMap Nat MemberSlot
  recency : OrderedMap Nat Nat
  root : Digest

structure NativeMemberCache where
  inner : Option MemberCacheInner := none

namespace NativeMemberCache

def withBudget (budgetBytes : Nat) : NativeMemberCache where
  inner := if budgetBytes = 0 then none else some
    { budgetBytes, totalBytes := 0, clock := 0, map := {}, recency := {},
      root := emptyRootHash keccak256 }

end NativeMemberCache

def MemberCacheInner.clear (inner : MemberCacheInner) : MemberCacheInner :=
  { inner with map := {}, recency := {}, totalBytes := 0, clock := 0 }

def MemberCacheInner.ensureUsable (db : NativeDb) (inner : MemberCacheInner) : MemberCacheInner :=
  let persisted := persistedNativeRoot keccak256 db
  if inner.root = persisted then inner else { inner.clear with root := persisted }

end Keccak

namespace MemberCacheInner

def take (inner : MemberCacheInner) (bucket : Nat) : Option (Members × Nat) × MemberCacheInner :=
  match inner.map.lookup bucket with
  | none => (none, inner)
  | some slot =>
    (some (slot.members, slot.bytes),
      { inner with
        map := inner.map.erase bucket
        recency := inner.recency.erase slot.seq
        totalBytes := inner.totalBytes - slot.bytes })

def store (inner : MemberCacheInner) (final : Nat × Members × Nat) : MemberCacheInner :=
  let (bucket, members, bytes) := final
  let cleared := match inner.map.lookup bucket with
    | none => inner
    | some old =>
      { inner with
        map := inner.map.erase bucket
        recency := inner.recency.erase old.seq
        totalBytes := inner.totalBytes - old.bytes }
  let seq := cleared.clock + 1
  { cleared with
    clock := seq
    totalBytes := cleared.totalBytes + bytes
    recency := cleared.recency.insert seq bucket
    map := cleared.map.insert bucket { members, bytes, seq } }

/-- The least recently used buckets are dropped while the budget is exceeded. -/
def evict : List (Nat × Nat) → MemberCacheInner → MemberCacheInner
  | [], inner => inner
  | (seq, bucket) :: rest, inner =>
    if inner.totalBytes ≤ inner.budgetBytes then inner
    else
      let dropped := { inner with recency := inner.recency.erase seq }
      evict rest (match dropped.map.lookup bucket with
        | none => dropped
        | some slot =>
          { dropped with
            map := dropped.map.erase bucket
            totalBytes := dropped.totalBytes - slot.bytes })

def commitFinals (inner : MemberCacheInner) (finals : List (Nat × Members × Nat)) (root : Digest) :
    MemberCacheInner :=
  let stored := { finals.foldl store inner with root }
  evict stored.recency.entries stored

end MemberCacheInner

namespace NativeMemberCache

def invalidate (cache : NativeMemberCache) : NativeMemberCache :=
  { inner := cache.inner.map MemberCacheInner.clear }

def commitFinals (cache : NativeMemberCache) (finals : List (Nat × Members × Nat)) (root : Digest) :
    NativeMemberCache :=
  { inner := cache.inner.map fun inner => inner.commitFinals finals root }

end NativeMemberCache

end TorusHyperBft.NativeTrie
