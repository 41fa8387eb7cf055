import TorusHyperBft.NativeTrie.Tree

namespace TorusHyperBft.NativeTrie

open OrderedMap

/-! What the build from the native rows writes. -/

open RunningHash (Value Digest digestBytes)

section Keccak

variable (keccak256 : List Byte → Digest)

def mirrorOf (native : OrderedMap NativeKey Value) (bucket : Nat) : Members :=
  (native.select fun key => bucketId keccak256 key = bucket).mapValues keccak256

variable {keccak256} {native : OrderedMap NativeKey Value} {bucket : Nat}

theorem lookup_mirrorOf (key : NativeKey) : (mirrorOf keccak256 native bucket).lookup key =
    if bucketId keccak256 key = bucket then (native.lookup key).map keccak256 else none := by
  rw [mirrorOf, lookup_mapValues, lookup_select]
  by_cases inside : bucketId keccak256 key = bucket
  · simp [inside]
  · simp [inside]

theorem bucketId_lt (key : NativeKey) : bucketId keccak256 key < 2 ^ treeDepth := by
  have bound := (keccak256 (tagByte key :: keyBytes key)).isLt
  rw [bucketId, Nat.div_lt_iff_lt_mul (by decide), treeDepth, ← Nat.pow_add]
  exact bound

theorem mirrorOf_beyond (beyond : 2 ^ treeDepth ≤ bucket) : mirrorOf keccak256 native bucket =
    {} := by
  apply ext_lookup
  intro key
  have elsewhere : bucketId keccak256 key ≠ bucket :=
    ne_of_lt (lt_of_lt_of_le (bucketId_lt key) beyond)
  rw [lookup_mirrorOf, if_neg elsewhere]
  rfl

theorem frames_mirrorOf : frames (mirrorOf keccak256 native bucket) =
    (native.entries.filter fun row => bucketId keccak256 row.1 = bucket).flatMap fun row =>
      frameEntry row.1 (digestBytes (keccak256 row.2)) := by
  simp only [frames, mirrorOf, OrderedMap.mapValues, OrderedMap.select, List.flatMap_map]

theorem mirrorOf_entries_eq_nil : (mirrorOf keccak256 native bucket).entries = [] ↔
    (native.entries.any fun row => bucketId keccak256 row.1 = bucket) = false := by
  simp [mirrorOf, OrderedMap.mapValues, OrderedMap.select]

theorem lookup_leavesFromDb : (leavesFromDb keccak256 native).lookup bucket =
    if (mirrorOf keccak256 native bucket).entries ≠ [] then
      some (leafAt keccak256 (mirrorOf keccak256 native) bucket) else none := by
  rw [leavesFromDb, lookup_mapValues, bucketBytes, lookup_gather]
  by_cases occupied : native.entries.any fun row => bucketId keccak256 row.1 = bucket
  · have filled : (mirrorOf keccak256 native bucket).entries ≠ [] := by
      rw [Ne, mirrorOf_entries_eq_nil, occupied]
      decide
    rw [if_pos occupied, if_pos filled, leafAt, leafOf, if_neg (by simpa using filled),
      frames_mirrorOf]
    rfl
  · have vacant : (mirrorOf keccak256 native bucket).entries = [] := by
      rw [mirrorOf_entries_eq_nil]
      exact Bool.eq_false_iff.mpr occupied
    rw [if_neg occupied, if_neg (not_not.mpr vacant)]
    rfl

theorem foldl_putMirror (rows : List (NativeKey × Value)) (db : NativeDb) (bucket : Nat) :
    (rows.foldl (fun built row => built.putMirror (bucketId keccak256 row.1) row.1
        (some (keccak256 row.2))) db).mirror bucket =
      ((rows.filter fun row => bucketId keccak256 row.1 = bucket).map fun row =>
        (row.1, keccak256 row.2)).foldl (fun members row => members.insert row.1 row.2)
        (db.mirror bucket) := by
  induction rows generalizing db with
  | nil => rfl
  | cons row rows ih =>
    rw [List.foldl_cons, ih]
    by_cases inside : bucketId keccak256 row.1 = bucket
    · simp [inside, NativeDb.putMirror]
    · have elsewhere : ¬ bucket = bucketId keccak256 row.1 := fun same => inside same.symm
      simp [inside, NativeDb.putMirror, elsewhere]

theorem foldl_putMirror_rest (rows : List (NativeKey × Value)) (db : NativeDb) :
    let built := rows.foldl (fun built row => built.putMirror (bucketId keccak256 row.1) row.1
        (some (keccak256 row.2))) db
    built.native = db.native ∧ built.trie = db.trie := by
  induction rows generalizing db with
  | nil => exact ⟨rfl, rfl⟩
  | cons row rows ih => exact ih _

theorem TrieRows.eq_of_rows {left right : TrieRows} (nodes : left.node = right.node)
    (root : left.root = right.root) : left = right := by
  cases left
  cases right
  subst nodes root
  rfl

section Build

variable {db : NativeDb} {inputs : Set (List Byte)}

theorem build_native : (buildNativeTrieToCf keccak256 db).native = db.native := by
  simp only [buildNativeTrieToCf]
  exact (foldl_putMirror_rest _ _).1

theorem build_mirror :
    (buildNativeTrieToCf keccak256 db).mirror = mirrorOf keccak256 db.native := by
  funext bucket
  simp only [buildNativeTrieToCf]
  rw [foldl_putMirror]
  exact eq_of_entries
    (foldl_insert_entries (mirrorOf keccak256 db.native bucket))

theorem mem_buildTree (place : Nat × Nat) (value : Digest) :
    (place, value) ∈ (buildTree keccak256 (leavesFromDb keccak256 native)).2 ↔
      place.1 ≤ treeDepth ∧
        Above (fun bucket => (mirrorOf keccak256 native bucket).entries ≠ []) place.1 place.2 ∧
        value = nodeAt keccak256 (leafAt keccak256 (mirrorOf keccak256 native)) place.1 place.2 := by
  have kept : ∀ bucket, ¬ (mirrorOf keccak256 native bucket).entries ≠ [] →
      emptyLeaf keccak256 = leafAt keccak256 (mirrorOf keccak256 native) bucket := by
    intro bucket vacant
    rw [leafAt, leafOf, if_pos (by simpa using vacant)]
  refine mem_propagate kept (fun _ _ _ => nodeAt_default.symm) (le_refl _) ?_
  intro index
  rw [lookup_leavesFromDb, nodeAt_leaf]
  simp only [above_leaf]

theorem buildTree_fst : (buildTree keccak256 (leavesFromDb keccak256 native)).1 =
    nodeAt keccak256 (leafAt keccak256 (mirrorOf keccak256 native)) 0 0 := by
  have top : (buildTree keccak256 (leavesFromDb keccak256 native)).1 =
      node00 keccak256 (buildTree keccak256 (leavesFromDb keccak256 native)).2 := by
    simp only [buildTree]
  rw [top]
  have listed := @mem_buildTree keccak256 native
  generalize (buildTree keccak256 (leavesFromDb keccak256 native)).2 = nodes at listed
  by_cases some : Above (fun bucket => (mirrorOf keccak256 native bucket).entries ≠ []) 0 0
  · exact node00_eq listed some
  · have absent : nodes.find? (fun node => node.1 = (0, 0)) = none := by
      rw [List.find?_eq_none]
      rintro ⟨place, value⟩ member isTop
      have top : place = (0, 0) := of_decide_eq_true isTop
      rw [top] at member
      exact some ((listed (0, 0) value).mp member).2.1
    rw [node00, absent]
    symm
    apply MerkleTree.node_empty
    intro bucket under
    have vacant : (mirrorOf keccak256 native bucket).entries = [] := by
      by_contra occupied
      exact some ⟨bucket, occupied, under⟩
    simp [leafAt, leafOf, vacant]

theorem nativeRootFull_eq :
    nativeRootFull keccak256 native = rootOf keccak256 (mirrorOf keccak256 native) := by
  rw [nativeRootFull, buildTree_fst, rootOf]

theorem build_trie (injective : Set.InjOn keccak256 inputs)
    (mine : hashInputs keccak256 (mirrorOf keccak256 db.native) ⊆ inputs)
    (none : hashInputs keccak256 noMembers ⊆ inputs) :
    (buildNativeTrieToCf keccak256 db).trie = trieRows keccak256
    (mirrorOf keccak256 db.native) := by
  have rows : ∀ level index, ((buildTree keccak256 (leavesFromDb keccak256 db.native)).2.foldl
      (fun rows node => rows.putNode node.1.1 node.1.2 (some node.2)) ({} : TrieRows)).node level
        index = (trieRows keccak256 (mirrorOf keccak256 db.native)).node level index := by
    intro level index
    have listed := @mem_buildTree keccak256 db.native
    generalize (buildTree keccak256 (leavesFromDb keccak256 db.native)).2 = nodes at listed
    have written := @foldl_putNode nodes (fun _ value => some value)
      (fun place => some (nodeAt keccak256 (leafAt keccak256 (mirrorOf keccak256 db.native))
        place.1 place.2))
      (fun node member => congrArg some ((listed node.1 node.2).mp member).2.2) {} level index
    simp only [written, trieRows]
    by_cases stored : level ≤ treeDepth ∧
        Above (fun bucket => (mirrorOf keccak256 db.native bucket).entries ≠ []) level index
    · have member := (listed (level, index) _).mpr ⟨stored.1, stored.2, rfl⟩
      have present : nodes.any fun node => node.1 = (level, index) :=
        List.any_eq_true.mpr ⟨_, member, decide_eq_true rfl⟩
      rw [if_pos present, if_pos ⟨stored.1, (nodeAt_ne_default injective mine none).mpr stored.2⟩]
    · have absent : ¬ nodes.any fun node => node.1 = (level, index) := by
        intro present
        obtain ⟨⟨place, value⟩, member, same⟩ := List.any_eq_true.mp present
        have is : place = (level, index) := of_decide_eq_true same
        rw [is] at member
        have known := (listed (level, index) value).mp member
        exact stored ⟨known.1, known.2.1⟩
      have default : ¬ (level ≤ treeDepth ∧
          nodeAt keccak256 (leafAt keccak256 (mirrorOf keccak256 db.native)) level index ≠
            defaultNodes keccak256 level) := fun kept =>
        stored ⟨kept.1, (nodeAt_ne_default injective mine none).mp kept.2⟩
      rw [if_neg absent, if_neg default]
  have nodes : (buildNativeTrieToCf keccak256 db).trie.node =
      (trieRows keccak256 (mirrorOf keccak256 db.native)).node := by
    funext level index
    simp only [buildNativeTrieToCf]
    exact rows level index
  have root : (buildNativeTrieToCf keccak256 db).trie.root =
      (trieRows keccak256 (mirrorOf keccak256 db.native)).root := by
    simp only [buildNativeTrieToCf, buildTree_fst]
    rfl
  exact TrieRows.eq_of_rows nodes root

end Build

end Keccak

end TorusHyperBft.NativeTrie
