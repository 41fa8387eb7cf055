import TorusHyperBft.NativeTrie.Model

namespace TorusHyperBft.NativeTrie

/-! The incremental update of the mirror and the trie, and the flushes that write it. -/

open RunningHash (Value Digest)

/-- What the edits of a block have made of the members of a bucket. -/
structure BucketMerge where
  members : Members
  mirrorOps : List NodeOp := []
  changed : Bool := false

structure BucketOutcome where
  changed : Bool
  leaf : Digest
  mirrorOps : List NodeOp
  scanned : Bool
  memberFinal : Option (Members × Nat)

/-- The edits of one bucket, and its members when the cache hands them over. -/
abbrev BucketWork := Nat × List (NativeKey × Option Value) × Option (Members × Nat)

def chunks {α : Type} (size : Nat) : Nat → List α → List (List α)
  | 0, _ => []
  | _ + 1, [] => []
  | fuel + 1, item :: items =>
    (item :: items).take size :: chunks size fuel ((item :: items).drop size)

structure NativeTrieApply where
  ops : List NodeOp
  root : Digest
  rehashedBuckets : Nat
  bucketScans : Nat
  memberHits : Nat
  memberMisses : Nat
  trieChanged : Option (List ((Nat × Nat) × Digest))
  memberFinals : List (Nat × Members × Nat)

section Keccak

variable (keccak256 : List Byte → Digest)

/-- One edit of a bucket; with `elide` an edit that changes nothing leaves no trace. -/
def mergeEntry (bucket : Nat) (elide : Bool) (merge : BucketMerge)
    (entry : NativeKey × Option Value) : BucketMerge :=
  match entry.2 with
  | some value =>
    let valueHash := keccak256 value
    if elide && merge.members.lookup entry.1 = some valueHash then merge
    else
      { members := merge.members.insert entry.1 valueHash
        mirrorOps := merge.mirrorOps ++ [.mirror bucket entry.1 (some valueHash)]
        changed := true }
  | none =>
    let wasPresent := (merge.members.lookup entry.1).isSome
    let removed := { merge with members := merge.members.erase entry.1 }
    if elide && !wasPresent then removed
    else
      { removed with
        mirrorOps := merge.mirrorOps ++ [.mirror bucket entry.1 none]
        changed := true }

def leafOf (members : Members) : Digest :=
  if members.entries.isEmpty then emptyLeaf keccak256 else keccak256 (frames members)

def processBucket (db : NativeDb) (memberEnabled elide : Bool) (work : BucketWork) :
    BucketOutcome :=
  let (bucket, entries, base) := work
  let members := match base with
    | some (members, _) => members
    | none => db.mirror bucket
  let merge := entries.foldl (mergeEntry keccak256 bucket elide) { members }
  { changed := merge.changed
    leaf := if merge.changed then leafOf keccak256 merge.members else emptyLeaf keccak256
    mirrorOps := merge.mirrorOps
    scanned := base.isNone
    memberFinal :=
      if memberEnabled then
        some (merge.members,
          if merge.changed then membersBytes merge.members
          else (base.map Prod.snd).getD (membersBytes merge.members))
      else none }

def runBuckets (db : NativeDb) (work : List BucketWork) (memberEnabled elide : Bool)
    (parallel minBuckets : Nat) : OrderedMap Nat BucketOutcome :=
  let run (work : List BucketWork) : List (Nat × BucketOutcome) :=
    work.map fun bucket => (bucket.1, processBucket keccak256 db memberEnabled elide bucket)
  let outcomes :=
    if parallel ≤ 1 ∨ work.length ≤ max minBuckets 1 then run work
    else
      let threads := min parallel work.length
      let chunkSize := (work.length + threads - 1) / threads
      (chunks chunkSize work.length work).flatMap run
  outcomes.foldl (fun out outcome => out.insert outcome.1 outcome.2) {}

def siblingNode (db : NativeDb) (trieInner : Option TrieCacheInner) (level index : Nat) : Digest :=
  match trieInner with
  | some inner =>
    if level = treeDepth then (inner.leaves index).getD (defaultNodes keccak256 treeDepth)
    else (inner.nodes level index).getD (defaultNodes keccak256 level)
  | none => (db.trie.node level index).getD (defaultNodes keccak256 level)

/-- The resident member sets of the dirty buckets are taken out of the cache. -/
def takeMembers (groups : List (Nat × List (NativeKey × Option Value))) :
    Option MemberCacheInner → List BucketWork × Option MemberCacheInner :=
  fun cache => groups.foldl (fun (taken : List BucketWork × Option MemberCacheInner) group =>
    match taken.2 with
    | none => (taken.1 ++ [(group.1, group.2, none)], none)
    | some inner =>
      let hit := inner.take group.1
      (taken.1 ++ [(group.1, group.2, hit.1)], some hit.2)) ([], cache)

/-- The mirror and trie operations of a dirty map, with the caches that are in use. -/
def applyNativeDirty (db : NativeDb) (dirty : OrderedMap NativeKey (Option Value))
    (trieCache : Option NativeTrieCache) (memberCache : Option NativeMemberCache)
    (parallel minBuckets : Nat) :
    NativeTrieApply × Option NativeTrieCache × Option NativeMemberCache :=
  let byBucket := OrderedMap.gather (fun row => bucketId keccak256 row.1) (fun row => [row])
    dirty.entries
  let elide := trieCache.isSome
  let trieInner := trieCache.map (ensureCacheUsable keccak256 db)
  let memberInner := (memberCache.bind NativeMemberCache.inner).map
    (MemberCacheInner.ensureUsable keccak256 db)
  let taken := takeMembers byBucket.entries memberInner
  let outcomes := (runBuckets keccak256 db taken.1 memberInner.isSome elide parallel
    minBuckets).entries
  let mirrorOps := outcomes.flatMap fun outcome => outcome.2.mirrorOps
  let leaves := (outcomes.filter fun outcome => outcome.2.changed).foldl
    (fun leaves outcome => leaves.insert outcome.1 outcome.2.leaf) ({} : OrderedMap Nat Digest)
  let memberFinals := outcomes.filterMap fun outcome =>
    outcome.2.memberFinal.map fun final => (outcome.1, final)
  let caches := (trieInner.map fun inner => { inner := some inner },
    memberCache.map fun cache => { inner := if cache.inner.isSome then taken.2 else none })
  let scans := (outcomes.filter fun outcome => outcome.2.scanned).length
  let hits := (taken.1.filter fun work => work.2.2.isSome).length
  let misses := if memberInner.isSome then taken.1.length - hits else 0
  if leaves.entries.isEmpty then
    -- nothing has changed: the root stays
    ({ ops := mirrorOps
       root := match trieInner with
        | some inner => inner.root
        | none => persistedNativeRoot keccak256 db
       rehashedBuckets := 0
       bucketScans := scans
       memberHits := hits
       memberMisses := misses
       trieChanged := if elide then some [] else none
       memberFinals }, caches)
  else
    let changed := propagateChangedNodes keccak256 (siblingNode keccak256 db trieInner) treeDepth
      leaves
    let root := finalizeRoot keccak256 (node00 keccak256 changed)
    ({ ops := mirrorOps ++ changed.map (fun node => .node node.1.1 node.1.2
          (if node.2 = defaultNodes keccak256 node.1.1 then none else some node.2)) ++ [.root root]
       root
       rehashedBuckets := leaves.entries.length
       bucketScans := scans
       memberHits := hits
       memberMisses := misses
       trieChanged := if elide then some changed else none
       memberFinals }, caches)

def applyChangedToCache (inner : TrieCacheInner) (changed : List ((Nat × Nat) × Digest))
    (root : Digest) : TrieCacheInner :=
  { changed.foldl (fun inner node =>
      let value := if node.2 = defaultNodes keccak256 node.1.1 then none else some node.2
      if node.1.1 = treeDepth then
        { inner with leaves := fun index => if index = node.1.2 then value else inner.leaves index }
      else
        { inner with nodes := fun level index =>
            if level = node.1.1 ∧ index = node.1.2 then value else inner.nodes level index })
      inner with root }

def NativeTrieCache.commitChanged (cache : NativeTrieCache)
    (changed : List ((Nat × Nat) × Digest)) (root : Digest) : NativeTrieCache :=
  { inner := cache.inner.map fun inner => applyChangedToCache keccak256 inner changed root }

end Keccak

end TorusHyperBft.NativeTrie
