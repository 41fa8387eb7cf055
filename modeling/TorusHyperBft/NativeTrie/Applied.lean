import TorusHyperBft.NativeTrie.Worked

namespace TorusHyperBft.NativeTrie

open List OrderedMap

/-! The application of a dirty map to a trie that is in step: what it writes is the trie over the
edited rows, and the caches that are written through stand for it. -/

open RunningHash (Value Digest)

section Keccak

variable {keccak256 : List Byte → Digest}

theorem writeNative_native (db : NativeDb) (dirty : OrderedMap NativeKey (Option Value)) :
    (db.writeNative dirty).native = dirty.entries.foldl editNative db.native := rfl

/-- The work covers the edits, each bucket once and from the members it has. -/
structure Covered (keccak256 : List Byte → Digest) (db : NativeDb) (mirror : Nat → Members)
    (edits : List (NativeKey × Option Value)) (works : List BucketWork) : Prop where
  scans : db.mirror = mirror
  ascends : works.Pairwise fun left right => left.1 < right.1
  fromMembers : ∀ work ∈ works, FromMembers mirror work
  grouped : ∀ work ∈ works, work.2.1 = edits.filter fun row => bucketId keccak256 row.1 = work.1
  rest : ∀ bucket, bucket ∉ works.map Prod.fst →
    (edits.filter fun row => bucketId keccak256 row.1 = bucket) = []
  bounded : ∀ work ∈ works, work.1 < 2 ^ treeDepth

namespace Covered

def edited (keccak256 : List Byte → Digest) (mirror : Nat → Members)
    (edits : List (NativeKey × Option Value)) (bucket : Nat) : Members :=
  (edits.filter fun row => bucketId keccak256 row.1 = bucket).foldl (editMembers keccak256)
    (mirror bucket)

variable {db : NativeDb} {mirror : Nat → Members} {edits : List (NativeKey × Option Value)}
  {works : List BucketWork} {memberEnabled elide : Bool}

theorem mirrorOps_works (edit : Nat → Members)
    (ascends : works.Pairwise fun left right => left.1 < right.1)
    (writes : ∀ work ∈ works, ∀ target : NativeDb, target.mirror work.1 = mirror work.1 →
      (processBucket keccak256 db memberEnabled elide work).mirrorOps.foldl NativeDb.writeOp target =
        target.setBucket work.1 (edit work.1))
    (target : NativeDb) (starts : ∀ work ∈ works, target.mirror work.1 = mirror work.1) :
    ((works.map fun work => (work.1, processBucket keccak256 db memberEnabled elide work)).flatMap
        fun outcome => outcome.2.mirrorOps).foldl NativeDb.writeOp target =
      { target with mirror := fun bucket =>
          if bucket ∈ works.map Prod.fst then edit bucket else target.mirror bucket } := by
  induction works generalizing target with
  | nil => simp
  | cons work works ih =>
    have later := pairwise_cons.mp ascends
    have apart : ∀ other ∈ works, other.1 ≠ work.1 := fun other member =>
      ne_of_gt (later.1 other member)
    have starts' : ∀ other ∈ works,
        (target.setBucket work.1 (edit work.1)).mirror other.1 = mirror other.1 := by
      intro other member
      have kept : (target.setBucket work.1 (edit work.1)).mirror other.1 = target.mirror other.1 := by
        simp [NativeDb.setBucket, apart other member]
      rw [kept, starts other (mem_cons_of_mem _ member)]
    have rest := ih later.2 (fun other member => writes other (mem_cons_of_mem _ member))
      _ starts'
    rw [map_cons, flatMap_cons, foldl_append,
      writes work mem_cons_self target (starts work mem_cons_self), rest]
    simp only [NativeDb.setBucket, NativeDb.mk.injEq, true_and, and_true]
    funext bucket
    by_cases here : bucket = work.1
    · simp [here]
    · have listed : bucket ∈ (work :: works).map Prod.fst ↔ bucket ∈ works.map Prod.fst := by
        rw [map_cons, mem_cons, or_iff_right here]
      simp only [listed, here, if_false]

variable (covered : Covered keccak256 db mirror edits works)

include covered

theorem spec {work : BucketWork} (member : work ∈ works) :
    let outcome := processBucket keccak256 db memberEnabled elide work
    (∀ target : NativeDb, target.mirror work.1 = mirror work.1 →
        outcome.mirrorOps.foldl NativeDb.writeOp target =
          target.setBucket work.1 (edited keccak256 mirror edits work.1)) ∧
      (outcome.changed = false → edited keccak256 mirror edits work.1 = mirror work.1) ∧
      (outcome.changed = true →
        outcome.leaf = leafAt keccak256 (edited keccak256 mirror edits) work.1) ∧
      ∀ final, outcome.memberFinal = some final →
        final.1 = edited keccak256 mirror edits work.1 := by
  have result := @processBucket_spec keccak256 db memberEnabled elide mirror work
    (covered.fromMembers work member) (congrFun covered.scans work.1)
  rw [covered.grouped work member] at result
  exact result

theorem edited_rest {bucket : Nat} (outside : bucket ∉ works.map Prod.fst) :
    edited keccak256 mirror edits bucket = mirror bucket := by
  rw [edited, covered.rest bucket outside]
  rfl

theorem mirrorOps (target : NativeDb) (starts : target.mirror = mirror) :
    ((works.map fun work => (work.1, processBucket keccak256 db memberEnabled elide work)).flatMap
        fun outcome => outcome.2.mirrorOps).foldl NativeDb.writeOp target =
      { target with mirror := edited keccak256 mirror edits } := by
  rw [mirrorOps_works (edited keccak256 mirror edits) covered.ascends
    (fun work member => (covered.spec member).1) target (fun work _ => congrFun starts work.1)]
  simp only [NativeDb.mk.injEq, true_and, and_true]
  funext bucket
  by_cases inside : bucket ∈ works.map Prod.fst
  · rw [if_pos inside]
  · rw [if_neg inside, starts, covered.edited_rest inside]

omit covered in
/-- One of the works changes the bucket. -/
def Touched (keccak256 : List Byte → Digest) (db : NativeDb) (memberEnabled elide : Bool)
    (works : List BucketWork) (bucket : Nat) : Prop :=
  ∃ work ∈ works, work.1 = bucket ∧
    (processBucket keccak256 db memberEnabled elide work).changed = true

theorem edited_untouched {bucket : Nat}
    (untouched : ¬ Touched keccak256 db memberEnabled elide works bucket) :
    edited keccak256 mirror edits bucket = mirror bucket := by
  by_cases inside : bucket ∈ works.map Prod.fst
  · obtain ⟨work, member, rfl⟩ := mem_map.mp inside
    apply (@spec _ _ _ _ _ memberEnabled elide covered work member).2.1
    rw [Bool.eq_false_iff]
    exact fun changed => untouched ⟨work, member, rfl, changed⟩
  · exact covered.edited_rest inside

open Classical in
theorem lookup_leaves (index : Nat) :
    (((works.map fun work => (work.1, processBucket keccak256 db memberEnabled elide work)).filter
        fun outcome => outcome.2.changed).foldl
        (fun leaves outcome => leaves.insert outcome.1 outcome.2.leaf)
        ({} : OrderedMap Nat Digest)).lookup index =
      if Touched keccak256 db memberEnabled elide works index then
        some (leafAt keccak256 (edited keccak256 mirror edits) index) else none := by
  let leaves : List (Nat × Digest) := ((works.map fun work =>
    (work.1, processBucket keccak256 db memberEnabled elide work)).filter fun outcome =>
      outcome.2.changed).map fun outcome => (outcome.1, outcome.2.leaf)
  have sorted : Ascends leaves := by
    apply pairwise_map.mpr
    apply List.Pairwise.filter
    exact pairwise_map.mpr covered.ascends
  have inserted := foldl_insert_entries ⟨leaves, sorted⟩
  rw [foldl_map] at inserted
  have listed : ∀ value, (index, value) ∈ leaves ↔
      Touched keccak256 db memberEnabled elide works index ∧
        value = leafAt keccak256 (edited keccak256 mirror edits) index := by
    intro value
    constructor
    · intro found
      obtain ⟨outcome, kept, same⟩ := mem_map.mp found
      obtain ⟨inside, changed⟩ := mem_filter.mp kept
      obtain ⟨work, member, rfl⟩ := mem_map.mp inside
      cases same
      exact ⟨⟨work, member, rfl, changed⟩, (covered.spec member).2.2.1 changed⟩
    · rintro ⟨⟨work, member, rfl, changed⟩, rfl⟩
      rw [← (covered.spec member).2.2.1 changed]
      have inside : (work.1, processBucket keccak256 db memberEnabled elide work) ∈ works.map
          fun work => (work.1, processBucket keccak256 db memberEnabled elide work) :=
        mem_map.mpr ⟨work, member, rfl⟩
      exact mem_map.mpr ⟨_, mem_filter.mpr ⟨inside, changed⟩, rfl⟩
  by_cases touched : Touched keccak256 db memberEnabled elide works index
  · rw [if_pos touched, lookup_eq_some, inserted, listed]
    exact ⟨touched, rfl⟩
  · rw [if_neg touched, Option.eq_none_iff_forall_ne_some]
    intro value found
    rw [lookup_eq_some, inserted, listed] at found
    exact touched found.1

end Covered

/-- The cache holds every stored node. -/
def Pictures (rows : TrieRows) (inner : TrieCacheInner) : Prop :=
  (∀ index, inner.leaves index = rows.node treeDepth index) ∧
    ∀ level < treeDepth, ∀ index, inner.nodes level index = rows.node level index

/-- The cache holds the nodes and the root of these members. -/
def ImageOf (keccak256 : List Byte → Digest) (mirror : Nat → Members) (inner : TrieCacheInner) :
    Prop :=
  Pictures (trieRows keccak256 mirror) inner ∧ inner.root = rootOf keccak256 mirror

section Nodes

variable {mirror other : Nat → Members} {db : NativeDb} {trieInner : Option TrieCacheInner}

theorem trieRows_getD {level index : Nat} (bound : level ≤ treeDepth) :
    ((trieRows keccak256 mirror).node level index).getD (defaultNodes keccak256 level) =
      nodeAt keccak256 (leafAt keccak256 mirror) level index := by
  simp only [trieRows]
  by_cases default : nodeAt keccak256 (leafAt keccak256 mirror) level index =
      defaultNodes keccak256 level
  · simp [default]
  · simp [default, bound]

theorem siblingNode_eq (stored : db.trie = trieRows keccak256 mirror)
    (image : ∀ inner, trieInner = some inner → ImageOf keccak256 mirror inner) {level index : Nat}
    (bound : level ≤ treeDepth) : siblingNode keccak256 db trieInner level index =
      nodeAt keccak256 (leafAt keccak256 mirror) level index := by
  cases trieInner with
  | none =>
    rw [siblingNode, stored]
    exact trieRows_getD bound
  | some inner =>
    obtain ⟨⟨leaves, nodes⟩, _⟩ := image inner rfl
    rw [← trieRows_getD bound]
    simp only [siblingNode]
    by_cases leaf : level = treeDepth
    · rw [if_pos leaf, leaves, leaf]
    · rw [if_neg leaf, nodes level (lt_of_le_of_ne bound leaf)]

def storedNode (keccak256 : List Byte → Digest) (place : Nat × Nat) (value : Digest) :
    Option Digest :=
  if value = defaultNodes keccak256 place.1 then none else some value

theorem foldl_nodeOps (nodes : List ((Nat × Nat) × Digest)) (target : NativeDb) :
    (nodes.map fun node => NodeOp.node node.1.1 node.1.2 (storedNode keccak256 node.1 node.2)).foldl
        NativeDb.writeOp target =
      { target with trie := nodes.foldl (fun rows node =>
          rows.putNode node.1.1 node.1.2 (storedNode keccak256 node.1 node.2)) target.trie } := by
  induction nodes generalizing target with
  | nil => rfl
  | cons node nodes ih =>
    rw [map_cons, foldl_cons, ih, foldl_cons]
    rfl

theorem trieRows_nodes {changed : Nat → Prop} {nodes : List ((Nat × Nat) × Digest)}
    (kept : ∀ bucket, ¬ changed bucket →
      leafAt keccak256 mirror bucket = leafAt keccak256 other bucket)
    (listed : ∀ place value, (place, value) ∈ nodes ↔ place.1 ≤ treeDepth ∧
      Above changed place.1 place.2 ∧
        value = nodeAt keccak256 (leafAt keccak256 other) place.1 place.2) :
    (nodes.foldl (fun rows node =>
        rows.putNode node.1.1 node.1.2 (storedNode keccak256 node.1 node.2))
        (trieRows keccak256 mirror)).node = (trieRows keccak256 other).node := by
  funext level index
  have written := @foldl_putNode nodes (storedNode keccak256)
    (fun place => storedNode keccak256 place
      (nodeAt keccak256 (leafAt keccak256 other) place.1 place.2))
    (fun node member => congrArg (storedNode keccak256 node.1)
      ((listed node.1 node.2).mp member).2.2)
    (trieRows keccak256 mirror) level index
  rw [written]
  by_cases stored : level ≤ treeDepth ∧ Above changed level index
  · have member := (listed (level, index) _).mpr ⟨stored.1, stored.2, rfl⟩
    have present : nodes.any fun node => node.1 = (level, index) :=
      any_eq_true.mpr ⟨_, member, decide_eq_true rfl⟩
    rw [if_pos present]
    simp only [storedNode, trieRows]
    by_cases default : nodeAt keccak256 (leafAt keccak256 other) level index =
        defaultNodes keccak256 level
    · simp [default]
    · simp [default, stored.1]
  · have absent : ¬ nodes.any fun node => node.1 = (level, index) := by
      intro present
      obtain ⟨⟨place, value⟩, member, same⟩ := any_eq_true.mp present
      have is : place = (level, index) := of_decide_eq_true same
      rw [is] at member
      have known := (listed (level, index) value).mp member
      exact stored ⟨known.1, known.2.1⟩
    rw [if_neg absent]
    simp only [trieRows]
    by_cases bound : level ≤ treeDepth
    · rw [nodeAt_unchanged kept fun above => stored ⟨bound, above⟩]
    · simp [bound]

theorem Pictures.applyChanged {rows : TrieRows} {inner : TrieCacheInner}
    (pictures : Pictures rows inner) (nodes : List ((Nat × Nat) × Digest)) (root : Digest) :
    Pictures (nodes.foldl (fun rows node =>
        rows.putNode node.1.1 node.1.2 (storedNode keccak256 node.1 node.2)) rows)
      (applyChangedToCache keccak256 inner nodes root) := by
  have follows : ∀ inner, Pictures rows inner →
      Pictures (nodes.foldl (fun rows node =>
        rows.putNode node.1.1 node.1.2 (storedNode keccak256 node.1 node.2)) rows)
      (nodes.foldl (fun inner node =>
        let value := if node.2 = defaultNodes keccak256 node.1.1 then none else some node.2
        if node.1.1 = treeDepth then
          { inner with leaves := fun index => if index = node.1.2 then value else inner.leaves index }
        else
          { inner with nodes := fun level index =>
              if level = node.1.1 ∧ index = node.1.2 then value else inner.nodes level index })
        inner) := by
    clear pictures
    induction nodes generalizing rows with
    | nil => exact fun inner pictures => pictures
    | cons node nodes ih =>
      intro inner pictures
      rw [foldl_cons, foldl_cons]
      apply ih
      obtain ⟨leaves, inside⟩ := pictures
      by_cases leaf : node.1.1 = treeDepth
      · rw [if_pos leaf]
        constructor
        · intro index
          by_cases here : index = node.1.2
          · simp [TrieRows.putNode, storedNode, here, leaf]
          · simp [TrieRows.putNode, here, leaves]
        · intro level below index
          have lower : ¬ level = node.1.1 := by omega
          simp [TrieRows.putNode, lower, inside level below]
      · rw [if_neg leaf]
        constructor
        · intro index
          have deeper : ¬ treeDepth = node.1.1 := fun same => leaf same.symm
          simp [TrieRows.putNode, deeper, leaves]
        · intro level below index
          by_cases here : level = node.1.1 ∧ index = node.1.2
          · simp [TrieRows.putNode, storedNode, here]
          · simp [TrieRows.putNode, here, inside level below]
  exact follows inner pictures

end Nodes

section Apply

variable {db : NativeDb} {dirty : OrderedMap NativeKey (Option Value)}
  {trieCache : Option NativeTrieCache} {memberCache : Option NativeMemberCache}
  {parallel minBuckets : Nat}

def stepOf (keccak256 : List Byte → Digest) (native : OrderedMap NativeKey Value) : NativeDb where
  native := native
  mirror := mirrorOf keccak256 native
  trie := trieRows keccak256 (mirrorOf keccak256 native)

def byBucket (keccak256 : List Byte → Digest) (dirty : OrderedMap NativeKey (Option Value)) :
    OrderedMap Nat (List (NativeKey × Option Value)) :=
  OrderedMap.gather (fun row => bucketId keccak256 row.1) (fun row => [row]) dirty.entries

theorem lookup_byBucket (bucket : Nat) : (byBucket keccak256 dirty).lookup bucket =
    if dirty.entries.any fun row => bucketId keccak256 row.1 = bucket then
      some (dirty.entries.filter fun row => bucketId keccak256 row.1 = bucket) else none := by
  rw [byBucket, lookup_gather, List.flatMap_singleton']

theorem takeMembers_covered {memberInner : Option MemberCacheInner}
    (scans : db.mirror = mirrorOf keccak256 db.native)
    (resident : ∀ inner, memberInner = some inner →
      Resident (mirrorOf keccak256 db.native) inner) :
    Covered keccak256 db (mirrorOf keccak256 db.native) dirty.entries
      (takeMembers (byBucket keccak256 dirty).entries memberInner).1 := by
  obtain ⟨listed, fromMembers, -, -⟩ :=
    @takeMembers_spec _ (byBucket keccak256 dirty).entries memberInner resident
  generalize (takeMembers (byBucket keccak256 dirty).entries memberInner).1 = works
    at listed fromMembers ⊢
  have entry : ∀ work ∈ works, (byBucket keccak256 dirty).lookup work.1 = some work.2.1 := by
    intro work member
    rw [lookup_eq_some, ← listed]
    exact mem_map.mpr ⟨work, member, rfl⟩
  constructor
  · exact scans
  · have ascends := (byBucket keccak256 dirty).ascends
    rw [← listed] at ascends
    have sorted : (works.map fun work => (work.1, work.2.1)).Pairwise
        fun left right => left.1 < right.1 := ascends
    rw [pairwise_map] at sorted
    exact sorted
  · exact fromMembers
  · intro work member
    have found := entry work member
    rw [lookup_byBucket] at found
    split at found
    · exact (Option.some.inj found).symm
    · cases found
  · intro bucket outside
    by_contra occupied
    have edited : dirty.entries.any fun row => bucketId keccak256 row.1 = bucket := by
      obtain ⟨row, member⟩ := exists_mem_of_ne_nil _ occupied
      obtain ⟨inside, same⟩ := mem_filter.mp member
      exact any_eq_true.mpr ⟨row, inside, same⟩
    have found := @lookup_byBucket keccak256 dirty bucket
    rw [if_pos edited, lookup_eq_some, ← listed] at found
    obtain ⟨work, member, same⟩ := mem_map.mp found
    exact outside (mem_map.mpr ⟨work, member, congrArg Prod.fst same⟩)
  · intro work member
    have found := entry work member
    rw [lookup_byBucket] at found
    split at found
    · rename_i occupied
      obtain ⟨row, -, same⟩ := any_eq_true.mp occupied
      rw [← of_decide_eq_true same]
      exact bucketId_lt row.1
    · cases found

/-- What an application yields: the rows of the edited state, its root, and caches that stand for
it once they are written through. -/
structure AppliedTo (keccak256 : List Byte → Digest) (db : NativeDb)
    (dirty : OrderedMap NativeKey (Option Value))
    (applied : NativeTrieApply × Option NativeTrieCache × Option NativeMemberCache) : Prop where
  written : applied.1.ops.foldl NativeDb.writeOp (db.writeNative dirty) =
    stepOf keccak256 (db.writeNative dirty).native
  root : applied.1.root = rootOf keccak256 (mirrorOf keccak256 (db.writeNative dirty).native)
  image : ∀ cache, applied.2.1 = some cache → ∃ inner changed, cache.inner = some inner ∧
    applied.1.trieChanged = some changed ∧
      ImageOf keccak256 (mirrorOf keccak256 (db.writeNative dirty).native)
        (applyChangedToCache keccak256 inner changed applied.1.root)
  resident : ∀ cache inner, applied.2.2 = some cache → cache.inner = some inner →
    Resident (mirrorOf keccak256 (db.writeNative dirty).native)
      (inner.commitFinals applied.1.memberFinals applied.1.root)

/-- Propagating the changed leaves gives the nodes and the root of the new members. -/
theorem propagate_step {leaves : OrderedMap Nat Digest} {changed : Nat → Prop}
    {mirror other : Nat → Members} {trieInner : Option TrieCacheInner}
    (stored : db.trie = trieRows keccak256 mirror)
    (image : ∀ inner, trieInner = some inner → ImageOf keccak256 mirror inner)
    (kept : ∀ bucket, ¬ changed bucket → other bucket = mirror bucket)
    (bounded : ∀ bucket, changed bucket → bucket < 2 ^ treeDepth)
    [DecidablePred changed]
    (given : ∀ index, leaves.lookup index =
      if changed index then some (leafAt keccak256 other index) else none)
    (occupied : leaves.entries ≠ []) :
    let nodes := propagateChangedNodes keccak256 (siblingNode keccak256 db trieInner) treeDepth
      leaves
    (nodes.foldl (fun rows node =>
        rows.putNode node.1.1 node.1.2 (storedNode keccak256 node.1 node.2))
        (trieRows keccak256 mirror)).node = (trieRows keccak256 other).node ∧
      finalizeRoot keccak256 (node00 keccak256 nodes) = rootOf keccak256 other := by
  have keptLeaves : ∀ bucket, ¬ changed bucket →
      leafAt keccak256 mirror bucket = leafAt keccak256 other bucket := by
    intro bucket untouched
    rw [leafAt, leafAt, kept bucket untouched]
  have listed : ∀ place value,
      (place, value) ∈ propagateChangedNodes keccak256 (siblingNode keccak256 db trieInner)
        treeDepth leaves ↔ place.1 ≤ treeDepth ∧ Above changed place.1 place.2 ∧
          value = nodeAt keccak256 (leafAt keccak256 other) place.1 place.2 := by
    intro place value
    apply mem_propagate keptLeaves (fun level index bound => siblingNode_eq stored image bound)
      (le_refl _)
    intro index
    rw [given, nodeAt_leaf]
    simp only [above_leaf]
  have top : Above changed 0 0 := by
    obtain ⟨⟨index, leaf⟩, member⟩ := exists_mem_of_ne_nil _ occupied
    have found := lookup_eq_some.mpr member
    rw [given] at found
    split at found
    · rename_i touched
      exact ⟨index, touched, Nat.div_eq_of_lt (bounded index touched)⟩
    · cases found
  generalize propagateChangedNodes keccak256 (siblingNode keccak256 db trieInner) treeDepth
    leaves = nodes at listed ⊢
  refine ⟨trieRows_nodes keptLeaves listed, ?_⟩
  rw [node00_eq listed top, rootOf]

variable {edits : List (NativeKey × Option Value)}

theorem Covered.finals {mirror : Nat → Members}
    {works : List BucketWork} {memberEnabled elide : Bool}
    (covered : Covered keccak256 db mirror edits works) {final : Nat × Members × Nat}
    (member : final ∈ (works.map fun work =>
      (work.1, processBucket keccak256 db memberEnabled elide work)).filterMap fun outcome =>
        outcome.2.memberFinal.map fun final => (outcome.1, final)) :
    final.2.1 = Covered.edited keccak256 mirror edits final.1 := by
  obtain ⟨outcome, inside, given⟩ := mem_filterMap.mp member
  obtain ⟨work, listed, rfl⟩ := mem_map.mp inside
  obtain ⟨kept, found, rfl⟩ := Option.map_eq_some_iff.mp given
  exact (covered.spec listed).2.2.2 kept found

theorem Covered.spared {mirror : Nat → Members}
    {works : List BucketWork} (covered : Covered keccak256 db mirror edits works)
    {inner : MemberCacheInner}
    (spared : Spared mirror (fun bucket => bucket ∈ works.map Prod.fst) inner) :
    Resident (Covered.edited keccak256 mirror edits) inner := by
  intro bucket slot found
  by_cases inside : bucket ∈ works.map Prod.fst
  · rw [spared.2 bucket inside] at found
    cases found
  · rw [covered.edited_rest inside]
    exact spared.1 bucket slot found

theorem takeMembers_spared {mirror : Nat → Members} {memberInner : Option MemberCacheInner}
    (resident : ∀ inner, memberInner = some inner → Resident mirror inner)
    {groups : List (Nat × List (NativeKey × Option Value))} {inner : MemberCacheInner}
    (left : (takeMembers groups memberInner).2 = some inner) :
    Spared mirror (fun bucket => bucket ∈ (takeMembers groups memberInner).1.map Prod.fst) inner := by
  obtain ⟨listed, -, -, spared⟩ := @takeMembers_spec _ groups memberInner resident
  have buckets : (takeMembers groups memberInner).1.map Prod.fst = groups.map Prod.fst := by
    have firsts := congrArg (List.map Prod.fst) listed
    rw [map_map] at firsts
    exact firsts
  rw [buckets]
  exact spared inner left

open Classical in
/-- An incremental update writes the trie of the rows, cached or not. -/
theorem applyNativeDirty_spec (inStep : db = stepOf keccak256 db.native)
    (image : ∀ cache, trieCache = some cache →
      ImageOf keccak256 (mirrorOf keccak256 db.native) (ensureCacheUsable keccak256 db cache))
    (resident : ∀ cache inner, memberCache = some cache → cache.inner = some inner →
      Resident (mirrorOf keccak256 db.native) (inner.ensureUsable keccak256 db)) :
    AppliedTo keccak256 db dirty
      (applyNativeDirty keccak256 db dirty trieCache memberCache parallel minBuckets) := by
  have scans : db.mirror = mirrorOf keccak256 db.native := congrArg NativeDb.mirror inStep
  have stored : db.trie = trieRows keccak256 (mirrorOf keccak256 db.native) :=
    congrArg NativeDb.trie inStep
  have edits : mirrorOf keccak256 (db.writeNative dirty).native =
      Covered.edited keccak256 (mirrorOf keccak256 db.native) dirty.entries := by
    funext bucket
    exact mirrorOf_foldl_editNative _ _ _
  have imageInner : ∀ inner, trieCache.map (ensureCacheUsable keccak256 db) = some inner →
      ImageOf keccak256 (mirrorOf keccak256 db.native) inner := by
    intro inner same
    obtain ⟨cache, given, rfl⟩ := Option.map_eq_some_iff.mp same
    exact image cache given
  have residentInner : ∀ inner, (memberCache.bind NativeMemberCache.inner).map
      (MemberCacheInner.ensureUsable keccak256 db) = some inner →
      Resident (mirrorOf keccak256 db.native) inner := by
    intro inner same
    obtain ⟨held, found, rfl⟩ := Option.map_eq_some_iff.mp same
    obtain ⟨cache, given, inside⟩ := Option.bind_eq_some_iff.mp found
    exact resident cache held given inside
  have root : persistedNativeRoot keccak256 db = rootOf keccak256 (mirrorOf keccak256 db.native) := by
    rw [persistedNativeRoot, stored]
    rfl
  have covered := @takeMembers_covered keccak256 db dirty _ scans residentInner
  have spared := @takeMembers_spared (mirrorOf keccak256 db.native) _ residentInner
    (byBucket keccak256 dirty).entries
  simp only [applyNativeDirty]
  rw [show OrderedMap.gather (fun row => bucketId keccak256 row.1) (fun row => [row]) dirty.entries =
    byBucket keccak256 dirty from rfl]
  rw [runBuckets_entries covered.ascends]
  have enabled : (trieCache.map (ensureCacheUsable keccak256 db)).isSome = trieCache.isSome :=
    Option.isSome_map
  generalize trieCache.map (ensureCacheUsable keccak256 db) = trieInner at imageInner enabled ⊢
  generalize (memberCache.bind NativeMemberCache.inner).map
    (MemberCacheInner.ensureUsable keccak256 db) = memberInner at residentInner covered spared ⊢
  generalize takeMembers (byBucket keccak256 dirty).entries memberInner = taken at covered spared ⊢
  have leaves := @Covered.lookup_leaves keccak256 db _ _ _ memberInner.isSome trieCache.isSome covered
  have untouched := @Covered.edited_untouched keccak256 db _ _ _ memberInner.isSome trieCache.isSome
    covered
  have mirrored := @Covered.mirrorOps keccak256 db _ _ _ memberInner.isSome trieCache.isSome covered
    (db.writeNative dirty) scans
  generalize (List.foldl (fun (leaves : OrderedMap Nat Digest) (outcome : Nat × BucketOutcome) =>
    leaves.insert outcome.1 outcome.2.leaf) {} (List.filter _ _)) = changedLeaves at leaves ⊢
  have member : ∀ root : Digest, ∀ cache inner, memberCache.map (fun cache =>
      ({ inner := if cache.inner.isSome then taken.2 else none } : NativeMemberCache)) = some cache →
      cache.inner = some inner →
      Resident (mirrorOf keccak256 (db.writeNative dirty).native)
        (inner.commitFinals ((taken.1.map fun work =>
          (work.1, processBucket keccak256 db memberInner.isSome trieCache.isSome work)).filterMap
            fun outcome => outcome.2.memberFinal.map fun final => (outcome.1, final)) root) := by
    intro root cache inner given held
    obtain ⟨before, -, rfl⟩ := Option.map_eq_some_iff.mp given
    simp only at held
    split at held
    · rw [edits]
      exact (covered.spared (spared held)).commitFinals (fun final inside => covered.finals inside) root
    · cases held
  split
  · rename_i none
    have same : mirrorOf keccak256 (db.writeNative dirty).native =
        mirrorOf keccak256 db.native := by
      funext bucket
      rw [edits]
      apply untouched
      intro touched
      have found := leaves bucket
      rw [if_pos touched, lookup_eq_some, List.isEmpty_iff.mp none] at found
      cases found
    constructor
    · rw [mirrored, ← edits, stepOf, same, ← stored]
      rfl
    · rw [same]
      cases trieInner with
      | none => exact root
      | some inner => exact (imageInner inner rfl).2
    · intro cache given
      obtain ⟨inner, held, rfl⟩ := Option.map_eq_some_iff.mp given
      have on : trieCache.isSome = true := by
        rw [← enabled, held]
        rfl
      refine ⟨inner, [], rfl, by rw [if_pos on], ?_⟩
      rw [same, held]
      exact imageInner inner held
    · exact member _
  · rename_i some
    have step := propagate_step stored imageInner (fun bucket => @untouched bucket)
      (fun bucket touched => by
        obtain ⟨work, inside, rfl, -⟩ := touched
        exact covered.bounded work inside)
      leaves (fun none => some (List.isEmpty_iff.mpr none))
    rw [← edits] at step
    generalize propagateChangedNodes keccak256 (siblingNode keccak256 db trieInner) treeDepth
      changedLeaves = nodes at step ⊢
    simp only at step
    constructor
    · have nodeOps := @foldl_nodeOps keccak256 nodes
        { db.writeNative dirty with mirror := mirrorOf keccak256 (db.writeNative dirty).native }
      rw [foldl_append, foldl_append, mirrored, ← edits]
      simp only [storedNode] at nodeOps
      rw [nodeOps, foldl_cons, foldl_nil, NativeDb.writeOp, stepOf]
      simp only [NativeDb.mk.injEq, true_and]
      have rows : (db.writeNative dirty).trie = trieRows keccak256 (mirrorOf keccak256 db.native) :=
        stored
      apply TrieRows.eq_of_rows
      · rw [rows]
        exact step.1
      · exact congrArg Option.some step.2
    · exact step.2
    · intro cache given
      obtain ⟨inner, held, rfl⟩ := Option.map_eq_some_iff.mp given
      have on : trieCache.isSome = true := by
        rw [← enabled, held]
        rfl
      refine ⟨inner, nodes, rfl, by rw [if_pos on], ?_⟩
      have follows := @Pictures.applyChanged keccak256 _ _ (imageInner inner held).1 nodes
        (finalizeRoot keccak256 (node00 keccak256 nodes))
      rw [Pictures, step.1] at follows
      exact ⟨follows, step.2⟩
    · exact member _

end Apply

end Keccak

end TorusHyperBft.NativeTrie
