import TorusHyperBft.NativeTrie.Apply

namespace TorusHyperBft.NativeTrie

open List MerkleTree

/-! The tree a mirror stands for, and the nodes the level-by-level passes compute of it. -/

open RunningHash (Value Digest digestBytes)

section Keccak

variable (keccak256 : List Byte → Digest)

def nodeAt (leaf : Nat → Digest) (level index : Nat) : Digest :=
  MerkleTree.node (hashPair keccak256) leaf (treeDepth - level) index

def leafAt (mirror : Nat → Members) (bucket : Nat) : Digest := leafOf keccak256 (mirror bucket)

def rootOf (mirror : Nat → Members) : Digest :=
  finalizeRoot keccak256 (nodeAt keccak256 (leafAt keccak256 mirror) 0 0)

/-- The rows of the trie over a mirror: every node that is not a default node, and the root. -/
def trieRows (mirror : Nat → Members) : TrieRows where
  node := fun level index =>
    let value := nodeAt keccak256 (leafAt keccak256 mirror) level index
    if level ≤ treeDepth ∧ value ≠ defaultNodes keccak256 level then some value else none
  root := some (rootOf keccak256 mirror)

/-- The node is on the path of one of the buckets. -/
def Above (buckets : Nat → Prop) (level index : Nat) : Prop :=
  ∃ bucket, buckets bucket ∧ MerkleTree.Under (treeDepth - level) index bucket

section Nodes

variable {keccak256} {leaf other : Nat → Digest} {level index : Nat}

theorem nodeAt_succ (below : level < treeDepth) :
    nodeAt keccak256 leaf level index = hashPair keccak256
      (nodeAt keccak256 leaf (level + 1) (2 * index))
      (nodeAt keccak256 leaf (level + 1) (2 * index + 1)) := by
  have height : treeDepth - level = (treeDepth - (level + 1)) + 1 := by omega
  rw [nodeAt, height, MerkleTree.node]
  rfl

theorem nodeAt_leaf : nodeAt keccak256 leaf treeDepth index = leaf index := by
  simp [nodeAt, MerkleTree.node]

theorem nodeAt_default :
    nodeAt keccak256 (fun _ => emptyLeaf keccak256) level index = defaultNodes keccak256 level :=
  node_empty fun _ _ => rfl

theorem above_leaf {buckets : Nat → Prop} : Above buckets treeDepth index ↔ buckets index := by
  simp [Above, under_zero]

theorem above_succ {buckets : Nat → Prop} (below : level < treeDepth) :
    Above buckets level index ↔
      Above buckets (level + 1) (2 * index) ∨ Above buckets (level + 1) (2 * index + 1) := by
  have height : treeDepth - level = (treeDepth - (level + 1)) + 1 := by omega
  simp only [Above, height, under_succ]
  constructor
  · rintro ⟨bucket, inside, left | right⟩
    · exact .inl ⟨bucket, inside, left⟩
    · exact .inr ⟨bucket, inside, right⟩
  · rintro (⟨bucket, inside, left⟩ | ⟨bucket, inside, right⟩)
    · exact ⟨bucket, inside, .inl left⟩
    · exact ⟨bucket, inside, .inr right⟩

theorem nodeAt_unchanged {changed : Nat → Prop}
    (kept : ∀ bucket, ¬ changed bucket → leaf bucket = other bucket)
    (outside : ¬ Above changed level index) :
    nodeAt keccak256 leaf level index = nodeAt keccak256 other level index := by
  apply node_congr
  intro bucket under
  apply kept
  exact fun inside => outside ⟨bucket, inside, under⟩

end Nodes

section Propagate

variable {keccak256} {leaf other : Nat → Digest} {changed : Nat → Prop}
  {read : Nat → Nat → Digest}

variable {nodes : OrderedMap Nat Digest} {place : Nat × Nat}

omit keccak256 in
theorem mem_level {level : Nat}
    {value : Digest} : (place, value) ∈ nodes.entries.map (fun node => ((level, node.1), node.2)) ↔
      place.1 = level ∧ nodes.lookup place.2 = some value := by
  rw [mem_map, OrderedMap.lookup_eq_some]
  constructor
  · rintro ⟨⟨index, hash⟩, member, same⟩
    cases same
    exact ⟨rfl, member⟩
  · rintro ⟨rfl, member⟩
    exact ⟨_, member, rfl⟩

open Classical in
theorem mem_level_above {level : Nat} (given : ∀ index, nodes.lookup index =
      if Above changed level index then some (nodeAt keccak256 other level index) else none)
    {value : Digest} :
    (place, value) ∈ nodes.entries.map (fun node => ((level, node.1), node.2)) ↔
      place.1 = level ∧ Above changed place.1 place.2 ∧
        value = nodeAt keccak256 other place.1 place.2 := by
  rw [mem_level, given]
  apply and_congr_right
  rintro rfl
  by_cases inside : Above changed place.1 place.2
  · simp [inside, eq_comm]
  · simp [inside]

open Classical in
theorem mem_propagate (kept : ∀ bucket, ¬ changed bucket → leaf bucket = other bucket)
    (reads : ∀ level index, level ≤ treeDepth →
      read level index = nodeAt keccak256 leaf level index)
    {level : Nat} (bound : level ≤ treeDepth)
    (given : ∀ index, nodes.lookup index =
      if Above changed level index then some (nodeAt keccak256 other level index) else none)
    {value : Digest} :
    (place, value) ∈ propagateChangedNodes keccak256 read level nodes ↔
      place.1 ≤ level ∧ Above changed place.1 place.2 ∧
        value = nodeAt keccak256 other place.1 place.2 := by
  induction level generalizing nodes with
  | zero => rw [propagateChangedNodes, mem_level_above given, Nat.le_zero]
  | succ level ih =>
    have less : level < treeDepth := bound
    have parents : ∀ index, (MerkleTree.parentLevel (hashPair keccak256) (read (level + 1))
        nodes).lookup index =
        if Above changed level index then some (nodeAt keccak256 other level index) else none := by
      intro index
      rw [lookup_parentLevel given]
      · simp only [above_succ less, nodeAt_succ less]
      · intro sibling outside
        rw [reads _ _ bound, nodeAt_unchanged kept outside]
    rw [propagateChangedNodes, mem_append, ih (le_of_lt less) parents,
      mem_level_above given, Nat.le_succ_iff, or_and_right]

theorem node00_eq {nodes : List ((Nat × Nat) × Digest)}
    (listed : ∀ place value, (place, value) ∈ nodes ↔ place.1 ≤ treeDepth ∧
      Above changed place.1 place.2 ∧ value = nodeAt keccak256 other place.1 place.2)
    (some : Above changed 0 0) : node00 keccak256 nodes = nodeAt keccak256 other 0 0 := by
  have member := (listed (0, 0) _).mpr ⟨Nat.zero_le _, some, rfl⟩
  obtain ⟨⟨place, value⟩, found⟩ := Option.isSome_iff_exists.mp
    (List.find?_isSome.mpr ⟨_, member, decide_eq_true rfl⟩ :
      (nodes.find? fun node => node.1 = (0, 0)).isSome)
  have passes := List.find?_some found
  have isTop : place = (0, 0) := of_decide_eq_true passes
  have is := (listed _ _).mp (mem_of_find?_eq_some found)
  rw [node00, found, Option.map_some, Option.getD_some, is.2.2, isTop]

end Propagate

theorem foldl_putNode {nodes : List ((Nat × Nat) × Digest)}
    {write : Nat × Nat → Digest → Option Digest}
    {decided : Nat × Nat → Option Digest}
    (decides : ∀ node ∈ nodes, write node.1 node.2 = decided node.1) (rows : TrieRows)
    (level index : Nat) :
    (nodes.foldl (fun rows node => rows.putNode node.1.1 node.1.2 (write node.1 node.2)) rows).node
        level index =
      if nodes.any fun node => node.1 = (level, index) then decided (level, index)
      else rows.node level index := by
  induction nodes generalizing rows with
  | nil => rfl
  | cons node nodes ih =>
    have later := ih (fun other member => decides other (mem_cons_of_mem _ member))
    rw [foldl_cons, later, any_cons]
    by_cases after : nodes.any fun node => node.1 = (level, index)
    · simp [after]
    · obtain ⟨⟨atLevel, atIndex⟩, value⟩ := node
      by_cases here : level = atLevel ∧ index = atIndex
      · obtain ⟨rfl, rfl⟩ := here
        simp [after, TrieRows.putNode, decides _ mem_cons_self]
      · have elsewhere : ¬ (atLevel = level ∧ atIndex = index) :=
          fun same => here ⟨same.1.symm, same.2.symm⟩
        simp [after, TrieRows.putNode, here, elsewhere]

def hashInputs (mirror : Nat → Members) : Set (List Byte) :=
  { input | input = emptyLeafText ∨ input = [0x80] ∨
      (∃ bucket, (mirror bucket).entries ≠ [] ∧ input = frames (mirror bucket)) ∨
      ∃ height < treeDepth, ∃ index,
        input = digestBytes (MerkleTree.node (hashPair keccak256) (leafAt keccak256 mirror) height
            (2 * index)) ++
          digestBytes (MerkleTree.node (hashPair keccak256) (leafAt keccak256 mirror) height
            (2 * index + 1)) }

section Apart

variable {keccak256} {mirror other : Nat → Members} {inputs : Set (List Byte)}

variable {leftTail rightTail : List Byte}

theorem digestBytes_append_inj {left right : Digest}
    (same : digestBytes left ++ leftTail = digestBytes right ++ rightTail) :
    left = right ∧ leftTail = rightTail := by
  have width : ∀ digest : Digest, digest.toNat < 256 ^ 32 := fun digest => digest.isLt
  obtain ⟨values, tails⟩ := toBytes_append_inj (width left) (width right) same
  exact ⟨BitVec.eq_of_toNat_eq values, tails⟩

theorem pairsApart (injective : Set.InjOn keccak256 inputs)
    (mine : hashInputs keccak256 mirror ⊆ inputs) (others : hashInputs keccak256 other ⊆ inputs) :
    MerkleTree.PairsApart (hashPair keccak256) (leafAt keccak256 mirror)
      (leafAt keccak256 other) treeDepth := by
  intro height below index place same
  have bytes := injective (mine (.inr (.inr (.inr ⟨height, below, index, rfl⟩))))
    (others (.inr (.inr (.inr ⟨height, below, place, rfl⟩)))) same
  obtain ⟨left, right⟩ := digestBytes_append_inj bytes
  have padded := congrArg (· ++ ([] : List Byte)) right
  exact ⟨left, (digestBytes_append_inj padded).1⟩

omit keccak256 in
theorem u32Bytes_append_inj {left right : Nat} (leftFits : left < 2 ^ 32)
    (rightFits : right < 2 ^ 32) (same : u32Bytes left ++ leftTail = u32Bytes right ++ rightTail) :
    left = right ∧ leftTail = rightTail := by
  obtain ⟨numerals, tails⟩ := append_inj same (by simp [u32Bytes])
  rw [u32Bytes, u32Bytes, Nat.mod_eq_of_lt leftFits, Nat.mod_eq_of_lt rightFits,
    reverse_inj] at numerals
  have padded := congrArg (· ++ ([] : List Byte)) numerals
  exact ⟨(toBytes_append_inj (by omega) (by omega) padded).1, tails⟩

omit keccak256 in
theorem digestBytes_length (digest : Digest) : (digestBytes digest).length = 32 :=
  toBytes_length 32 digest.toNat

omit keccak256 in
theorem frameEntry_append_inj {left right : NativeKey} {leftHash rightHash : Digest}
    (same : frameEntry left (digestBytes leftHash) ++ leftTail =
      frameEntry right (digestBytes rightHash) ++ rightTail) :
    (left, leftHash) = (right, rightHash) ∧ leftTail = rightTail := by
  simp only [frameEntry, append_assoc, cons_append, nil_append, List.cons.injEq] at same
  obtain ⟨tags, rest⟩ := same
  obtain ⟨lengths, rest⟩ := u32Bytes_append_inj (ofLex left).2.property (ofLex right).2.property rest
  obtain ⟨keys, rest⟩ := append_inj rest lengths
  obtain ⟨_, rest⟩ := u32Bytes_append_inj (by simp [digestBytes_length])
    (by simp [digestBytes_length]) rest
  obtain ⟨hashes, tails⟩ := digestBytes_append_inj rest
  have sameTag : (ofLex left).1 = (ofLex right).1 := Fin.ext (Fin.mk.inj tags)
  have sameKey : left = right := by
    apply ofLex.injective
    exact Prod.ext sameTag (Subtype.ext keys)
  exact ⟨Prod.ext sameKey hashes, tails⟩

omit keccak256 in
theorem frameEntry_ne_nil (key : NativeKey) (value : List Byte) : frameEntry key value ≠ [] := by
  simp [frameEntry]

omit keccak256 in
theorem frames_inj {left right : Members} (same : frames left = frames right) :
    left.entries = right.entries := by
  unfold frames at same
  generalize left.entries = lefts at same
  generalize right.entries = rights at same
  induction lefts generalizing rights with
  | nil =>
    cases rights with
    | nil => rfl
    | cons head rights =>
      rw [flatMap_nil, flatMap_cons, eq_comm, append_eq_nil_iff] at same
      exact absurd same.1 (frameEntry_ne_nil _ _)
  | cons head lefts ih =>
    cases rights with
    | nil =>
      rw [flatMap_nil, flatMap_cons, append_eq_nil_iff] at same
      exact absurd same.1 (frameEntry_ne_nil _ _)
    | cons first rights =>
      rw [flatMap_cons, flatMap_cons] at same
      obtain ⟨heads, tails⟩ := frameEntry_append_inj same
      rw [show head = first from heads, ih rights tails]

omit keccak256 in
theorem frames_ne_emptyLeafText {members : Members} (occupied : members.entries ≠ []) :
    frames members ≠ emptyLeafText := by
  obtain ⟨⟨key, hash⟩, rest, entries⟩ := exists_cons_of_ne_nil occupied
  intro same
  have text : emptyLeafText = 116 :: emptyLeafText.tail := by decide +kernel
  rw [frames, entries, flatMap_cons, text] at same
  simp only [frameEntry, append_assoc, cons_append, nil_append, List.cons.injEq] at same
  have tag := congrArg Fin.val same.1
  have bound := (ofLex key).1.isLt
  have number : (tagByte key).val = (ofLex key).1.val := rfl
  rw [number] at tag
  have text : (116 : Byte).val = 116 := rfl
  omega

theorem leafAt_inj (injective : Set.InjOn keccak256 inputs)
    (mine : hashInputs keccak256 mirror ⊆ inputs) (others : hashInputs keccak256 other ⊆ inputs)
    {bucket : Nat} (same : leafAt keccak256 mirror bucket = leafAt keccak256 other bucket) :
    mirror bucket = other bucket := by
  have leafInput : ∀ mirror : Nat → Members, hashInputs keccak256 mirror ⊆ inputs →
      (mirror bucket).entries ≠ [] → frames (mirror bucket) ∈ inputs :=
    fun mirror inside occupied => inside (.inr (.inr (.inl ⟨bucket, occupied, rfl⟩)))
  have text : emptyLeafText ∈ inputs := mine (.inl rfl)
  apply OrderedMap.eq_of_entries
  unfold leafAt leafOf at same
  by_cases left : (mirror bucket).entries = []
  · by_cases right : (other bucket).entries = []
    · rw [left, right]
    · simp only [left, right, isEmpty_nil, List.isEmpty_iff, if_true, if_false] at same
      exact absurd (injective text (leafInput other others right) same).symm
        (frames_ne_emptyLeafText right)
  · by_cases right : (other bucket).entries = []
    · simp only [left, right, isEmpty_nil, List.isEmpty_iff, if_true, if_false] at same
      exact absurd (injective (leafInput mirror mine left) text same)
        (frames_ne_emptyLeafText left)
    · simp only [left, right, List.isEmpty_iff, if_false] at same
      exact frames_inj (injective (leafInput mirror mine left) (leafInput other others right) same)

def noMembers : Nat → Members := fun _ => .empty

theorem nodeAt_ne_default (injective : Set.InjOn keccak256 inputs)
    (mine : hashInputs keccak256 mirror ⊆ inputs)
    (none : hashInputs keccak256 noMembers ⊆ inputs) {level index : Nat} :
    nodeAt keccak256 (leafAt keccak256 mirror) level index ≠ defaultNodes keccak256 level ↔
      Above (fun bucket => (mirror bucket).entries ≠ []) level index := by
  have empty : nodeAt keccak256 (leafAt keccak256 noMembers) level index =
      defaultNodes keccak256 level := nodeAt_default
  constructor
  · intro different
    by_contra outside
    apply different
    apply node_empty
    intro bucket under
    have vacant : (mirror bucket).entries = [] := by
      by_contra occupied
      exact outside ⟨bucket, occupied, under⟩
    simp [leafAt, leafOf, vacant]
  · rintro ⟨bucket, occupied, under⟩ same
    have apart : MerkleTree.PairsApart (hashPair keccak256) (leafAt keccak256 mirror)
        (leafAt keccak256 noMembers) (treeDepth - level) := fun height below =>
      pairsApart injective mine none height (lt_of_lt_of_le below (Nat.sub_le _ _))
    have leaves := node_inj apart (same.trans empty.symm) bucket under
    exact occupied (congrArg OrderedMap.entries (leafAt_inj injective mine none leaves))

theorem nodeAt_zero_ne_emptyRoot (injective : Set.InjOn keccak256 inputs)
    (mine : hashInputs keccak256 mirror ⊆ inputs) :
    nodeAt keccak256 (leafAt keccak256 mirror) 0 0 ≠ emptyRootHash keccak256 := by
  intro same
  have bytes := injective (mine (.inr (.inr (.inr ⟨treeDepth - 1, by decide, 0, rfl⟩))))
    (mine (.inr (.inl rfl))) same
  have lengths := congrArg List.length bytes
  simp [digestBytes_length] at lengths

theorem rootOf_inj (injective : Set.InjOn keccak256 inputs)
    (mine : hashInputs keccak256 mirror ⊆ inputs) (others : hashInputs keccak256 other ⊆ inputs)
    (mineBound : ∀ bucket, 2 ^ treeDepth ≤ bucket → mirror bucket = {})
    (otherBound : ∀ bucket, 2 ^ treeDepth ≤ bucket → other bucket = {})
    (same : rootOf keccak256 mirror = rootOf keccak256 other) : mirror = other := by
  have nodes : nodeAt keccak256 (leafAt keccak256 mirror) 0 0 =
      nodeAt keccak256 (leafAt keccak256 other) 0 0 := by
    unfold rootOf finalizeRoot at same
    by_cases left : nodeAt keccak256 (leafAt keccak256 mirror) 0 0 = defaultNodes keccak256 0
    · by_cases right : nodeAt keccak256 (leafAt keccak256 other) 0 0 = defaultNodes keccak256 0
      · exact left.trans right.symm
      · rw [if_pos left, if_neg right] at same
        exact absurd same.symm (nodeAt_zero_ne_emptyRoot injective others)
    · by_cases right : nodeAt keccak256 (leafAt keccak256 other) 0 0 = defaultNodes keccak256 0
      · rw [if_neg left, if_pos right] at same
        exact absurd same (nodeAt_zero_ne_emptyRoot injective mine)
      · rwa [if_neg left, if_neg right] at same
  funext bucket
  by_cases bound : 2 ^ treeDepth ≤ bucket
  · rw [mineBound bucket bound, otherBound bucket bound]
  · apply leafAt_inj injective mine others
    apply node_inj (pairsApart injective mine others) nodes
    exact Nat.div_eq_of_lt (not_le.mp bound)

end Apart

end Keccak

end TorusHyperBft.NativeTrie
