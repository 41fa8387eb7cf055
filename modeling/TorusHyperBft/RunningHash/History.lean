import TorusHyperBft.RunningHash.Writes

namespace TorusHyperBft.RunningHash

open List

/-! Equal running hashes mean equal consensus histories. -/

open State

/-- A node that hashes its blocks from the activation height on. A closed block is given as its
layers, those of lower priority first. -/
structure HashNode where
  activation : Nat
  bookWindow : Option Nat := none
  blocks : Nat → List PendingState

variable {count : Nat}

namespace HashNode

variable (sha256 : List Byte → Digest) (node : HashNode)

/-- The chain of a node after the activation height and `count` more blocks. -/
def chainTo : Nat → Hashed (List Byte) ChainMemo
  | 0 => ChainMemo.digestBlock sha256
      { configured := some node.activation, bookWindow := node.bookWindow } node.activation
      (node.blocks node.activation)
  | count + 1 => do
      let memo ← chainTo count
      memo.digestBlock sha256 (node.activation + (count + 1)) (node.blocks (node.activation + (count + 1)))

def chainAt (height : Nat) : Hashed (List Byte) ChainMemo :=
  node.chainTo sha256 (height - node.activation)

def runningHash (height : Nat) : Option Digest :=
  (node.chainAt sha256 height).value.prev.map Prod.snd

/-- The block at this height hashes the write. -/
def Hashes (height : Nat) (entry : WriteEntry) : Prop :=
  HashedEntry (node.blocks height) (booksHashedAt node.bookWindow height) entry

def rowsAfter (start : ColumnFamily → Key → Option Value) : Nat → ColumnFamily → Key → Option Value
  | 0 => start
  | count + 1 => fun cf key =>
    (layerEntry (node.blocks (node.activation + count)) cf key).getD (rowsAfter start count cf key)

def digestAt (height : Nat) : BlockDigest :=
  blockDigest (node.blocks height) (booksHashedAt node.bookWindow height)

def hashTo : Nat → Hashed (List Byte) Digest
  | 0 => (node.digestAt node.activation).chain sha256 0 node.activation
  | count + 1 => do
      let prev ← hashTo count
      (node.digestAt (node.activation + (count + 1))).chain sha256 prev
        (node.activation + (count + 1))

def memoWith (count : Nat) (hash : Digest) : ChainMemo where
  configured := some node.activation
  start := some node.activation
  prev := some (node.activation + count, hash)
  bookWindow := node.bookWindow

variable {sha256 node}

theorem digestBlock_start :
    ChainMemo.digestBlock sha256 { configured := some node.activation, bookWindow := node.bookWindow }
      node.activation (node.blocks node.activation) =
      (do return node.memoWith 0 (← (node.digestAt node.activation).chain sha256 0 node.activation)) := by
  unfold ChainMemo.digestBlock ChainMemo.hashAt ChainMemo.step
  simp [memoWith, digestAt, ChainMemo.advance]

theorem digestBlock_next {prev : Digest} :
    ChainMemo.digestBlock sha256 (node.memoWith count prev) (node.activation + (count + 1))
      (node.blocks (node.activation + (count + 1))) =
      (do return node.memoWith (count + 1) (← (node.digestAt (node.activation + (count + 1))).chain
        sha256 prev (node.activation + (count + 1)))) := by
  unfold ChainMemo.digestBlock ChainMemo.hashAt ChainMemo.step
  simp [memoWith, digestAt, ChainMemo.advance, Nat.add_assoc]

theorem chainTo_eq (count : Nat) :
    node.chainTo sha256 count = (do return node.memoWith count (← node.hashTo sha256 count)) := by
  induction count with
  | zero => exact digestBlock_start
  | succ count ih =>
    unfold chainTo hashTo
    rw [ih]
    simp only [bind_assoc, pure_bind]
    simp only [digestBlock_next]

theorem chainTo_value (count : Nat) :
    (node.chainTo sha256 count).value = node.memoWith count (node.hashTo sha256 count).value ∧
      (node.chainTo sha256 count).inputs = (node.hashTo sha256 count).inputs := by
  rw [chainTo_eq]
  exact ⟨rfl, append_nil _⟩

end HashNode

section Chain

variable {sha256 : List Byte → Digest}

theorem digestBytes_append_inj {left right : Digest} {leftTail rightTail : List Byte}
    (same : digestBytes left ++ leftTail = digestBytes right ++ rightTail) :
    left = right ∧ leftTail = rightTail := by
  have bound : ∀ digest : Digest, digest.toNat < 256 ^ 32 := fun digest => digest.isLt
  obtain ⟨values, tails⟩ := toBytes_append_inj (bound left) (bound right) same
  exact ⟨BitVec.eq_of_toNat_eq values, tails⟩

theorem chain_inputs (digest : BlockDigest) (prev : Digest) (height : Nat) :
    (digest.chain sha256 prev height).inputs = [digest.native, digest.evm,
      digestBytes prev ++ toBytes 8 height ++ digestBytes (sha256 digest.native) ++
        digestBytes (sha256 digest.evm)] := rfl

theorem chain_value (digest : BlockDigest) (prev : Digest) (height : Nat) :
    (digest.chain sha256 prev height).value = sha256 (digestBytes prev ++ toBytes 8 height ++
      digestBytes (sha256 digest.native) ++ digestBytes (sha256 digest.evm)) := rfl

theorem chain_inj {left right : BlockDigest} {leftPrev rightPrev : Digest} {height : Nat}
    (apart : Hashed.Apart sha256 0 (left.chain sha256 leftPrev height).inputs
      (right.chain sha256 rightPrev height).inputs)
    (same : (left.chain sha256 leftPrev height).value = (right.chain sha256 rightPrev height).value) :
    leftPrev = rightPrev ∧ left = right := by
  rw [chain_inputs, chain_inputs] at apart
  rw [chain_value, chain_value] at same
  have preimages := apart.injective _ (by simp) _ (by simp) same
  simp only [append_assoc] at preimages
  obtain ⟨prevs, rest⟩ := digestBytes_append_inj preimages
  obtain ⟨natives, evms⟩ := digestBytes_append_inj (append_cancel_left rest)
  have evmDigests : sha256 left.evm = sha256 right.evm := by
    have ends : digestBytes (sha256 left.evm) ++ [] = digestBytes (sha256 right.evm) ++ [] := by
      rw [evms]
    exact (digestBytes_append_inj ends).1
  have native := apart.injective left.native (by simp) right.native (by simp) natives
  have evm := apart.injective left.evm (by simp) right.evm (by simp) evmDigests
  refine ⟨prevs, ?_⟩
  cases left
  cases right
  simp_all

namespace HashNode

variable {left right : HashNode} {leftCount rightCount : Nat}

theorem hashTo_zero (node : HashNode) :
    (node.hashTo sha256 0).value =
      ((node.digestAt node.activation).chain sha256 0 node.activation).value ∧
    (node.hashTo sha256 0).inputs =
      ((node.digestAt node.activation).chain sha256 0 node.activation).inputs := ⟨rfl, rfl⟩

theorem hashTo_succ (node : HashNode) (count : Nat) :
    (node.hashTo sha256 (count + 1)).value =
      ((node.digestAt (node.activation + (count + 1))).chain sha256 (node.hashTo sha256 count).value
        (node.activation + (count + 1))).value ∧
    (node.hashTo sha256 (count + 1)).inputs = (node.hashTo sha256 count).inputs ++
      ((node.digestAt (node.activation + (count + 1))).chain sha256 (node.hashTo sha256 count).value
        (node.activation + (count + 1))).inputs := ⟨rfl, rfl⟩

theorem hashTo_ne_zero {node : HashNode}
    (present : ∀ input ∈ (node.hashTo sha256 count).inputs, sha256 input ≠ 0) :
    (node.hashTo sha256 count).value ≠ 0 := by
  have last : ∀ (digest : BlockDigest) (prev : Digest) (height : Nat),
      ∃ input ∈ (digest.chain sha256 prev height).inputs,
        (digest.chain sha256 prev height).value = sha256 input := by
    intro digest prev height
    exact ⟨_, by simp [chain_inputs], rfl⟩
  cases count with
  | zero =>
    obtain ⟨input, inside, value⟩ := last (node.digestAt node.activation) 0 node.activation
    exact fun zero => present input inside (value.symm.trans zero)
  | succ count =>
    obtain ⟨input, inside, value⟩ := last (node.digestAt (node.activation + (count + 1)))
      (node.hashTo sha256 count).value (node.activation + (count + 1))
    exact fun zero => present input (mem_append_right _ inside) (value.symm.trans zero)

theorem hashTo_inj (sameHeight : left.activation + leftCount = right.activation + rightCount)
    (apart : Hashed.Apart sha256 0 (left.hashTo sha256 leftCount).inputs
      (right.hashTo sha256 rightCount).inputs)
    (same : (left.hashTo sha256 leftCount).value = (right.hashTo sha256 rightCount).value) :
    left.activation = right.activation ∧ ∀ count ≤ leftCount,
      left.digestAt (left.activation + count) = right.digestAt (left.activation + count) := by
  induction leftCount generalizing rightCount with
  | zero =>
    cases rightCount with
    | zero =>
      have sameStart : left.activation = right.activation := sameHeight
      unfold hashTo at apart same
      rw [sameStart] at apart same
      have digests := (chain_inj apart same).2
      refine ⟨sameStart, fun count most => ?_⟩
      rw [Nat.le_zero.mp most, sameStart]
      exact digests
    | succ rightCount =>
      -- The chain that starts here follows zero, and the other one a hash.
      rw [(right.hashTo_succ rightCount).1] at same
      rw [(right.hashTo_succ rightCount).2] at apart
      have start : left.activation = right.activation + (rightCount + 1) := sameHeight
      have zero : (right.hashTo sha256 rightCount).value ≠ 0 := hashTo_ne_zero fun input inside =>
        apart.presentRight input (mem_append_left _ inside)
      have lastApart := apart.mono (fun _ inside => inside) (subset_append_right _ _)
      rw [left.hashTo_zero.1] at same
      rw [left.hashTo_zero.2] at lastApart
      rw [start] at lastApart same
      exact absurd (chain_inj lastApart same).1.symm zero
  | succ leftCount ih =>
    rw [(left.hashTo_succ leftCount).1] at same
    rw [(left.hashTo_succ leftCount).2] at apart
    cases rightCount with
    | zero =>
      have start : left.activation + (leftCount + 1) = right.activation := sameHeight
      have zero : (left.hashTo sha256 leftCount).value ≠ 0 := hashTo_ne_zero fun input inside =>
        apart.presentLeft input (mem_append_left _ inside)
      have lastApart := apart.mono (subset_append_right _ _) (fun _ inside => inside)
      rw [right.hashTo_zero.1] at same
      rw [right.hashTo_zero.2] at lastApart
      rw [start] at lastApart same
      exact absurd (chain_inj lastApart same).1 zero
    | succ rightCount =>
      rw [(right.hashTo_succ rightCount).1] at same
      rw [(right.hashTo_succ rightCount).2] at apart
      obtain ⟨before, last⟩ := apart.append
      rw [sameHeight] at last same
      obtain ⟨prevs, digests⟩ := chain_inj last same
      obtain ⟨sameStart, earlier⟩ := ih (by omega) before prevs
      refine ⟨sameStart, fun count most => ?_⟩
      rcases Nat.lt_or_ge count (leftCount + 1) with less | atLeast
      · exact earlier count (Nat.le_of_lt_succ less)
      · rw [Nat.le_antisymm most atLeast, sameHeight]
        exact digests

theorem hashTo_congr (sameStart : left.activation = right.activation) (digests : ∀ step ≤ count,
      left.digestAt (left.activation + step) = right.digestAt (left.activation + step)) :
    (left.hashTo sha256 count).value = (right.hashTo sha256 count).value := by
  induction count with
  | zero =>
    have digest : left.digestAt left.activation = right.digestAt left.activation :=
      digests 0 (Nat.le_refl 0)
    unfold hashTo
    rw [digest, sameStart]
  | succ count ih =>
    rw [(left.hashTo_succ count).1, (right.hashTo_succ count).1, digests (count + 1) (Nat.le_refl _),
      ih fun step most => digests step (Nat.le_succ_of_le most), sameStart]

end HashNode

end Chain

/-- The row is one that the hash covers. -/
def HashedRow (cf : ColumnFamily) (key : Key) : Prop :=
  ∃ cfId, (cfId, cf) ∈ hashedCfs ∧ keyIsHashed cfId key

/-- Two nodes that hashed the same history up to a height. -/
structure SameHistory (left right : HashNode) (height : Nat) : Prop where
  activation : left.activation = right.activation
  entries : ∀ block, left.activation ≤ block → block ≤ height → ∀ entry,
    left.Hashes block entry ↔ right.Hashes block entry
  rows : ∀ leftStart rightStart : ColumnFamily → Key → Option Value,
    (∀ cf key, HashedRow cf key → leftStart cf key = rightStart cf key) →
    ∀ cf key, HashedRow cf key → cf ≠ .nativeOrderBooks →
      left.rowsAfter leftStart (height + 1 - left.activation) cf key =
        right.rowsAfter rightStart (height + 1 - left.activation) cf key

namespace HashNode

variable {left right : HashNode} {height : Nat}

/-- Keys and values hashed so far are shorter than 4 GiB. -/
def FramedTo (node : HashNode) (height : Nat) : Prop :=
  ∀ block, node.activation ≤ block → block ≤ height → ∀ entry, node.Hashes block entry → Framed entry

theorem layerEntry_of_hashes {block : Nat}
    (entries : ∀ entry, left.Hashes block entry ↔ right.Hashes block entry) {cf : ColumnFamily}
    {key : Key}
    (hashed : HashedRow cf key) (notBooks : cf ≠ .nativeOrderBooks) :
    layerEntry (left.blocks block) cf key = layerEntry (right.blocks block) cf key := by
  obtain ⟨cfId, inTable, isHashed⟩ := hashed
  have otherId : cfId ≠ idNativeOrderBooks := by
    intro same
    have books : (idNativeOrderBooks, ColumnFamily.nativeOrderBooks) ∈ hashedCfs := by decide +kernel
    exact notBooks (congrArg Prod.snd (hashedCfs_functional _ inTable _ books same))
  have tells : ∀ (node : HashNode) (value : Option Value),
      layerEntry (node.blocks block) cf key = some value ↔ node.Hashes block (cfId, key, value) := by
    intro node value
    constructor
    · exact fun found => ⟨⟨cf, inTable, found⟩, isHashed, .inr otherId⟩
    · rintro ⟨⟨other, inTableToo, found⟩, _, _⟩
      have same : other = cf := congrArg Prod.snd
        (hashedCfs_functional (cfId, other) inTableToo (cfId, cf) inTable rfl)
      rw [← same]
      exact found
  apply Option.ext
  intro value
  rw [tells left, tells right]
  exact entries _

theorem rowsAfter_same (sameStart : left.activation = right.activation)
    {leftStart rightStart : ColumnFamily → Key → Option Value} {cf : ColumnFamily} {key : Key}
    (hashed : HashedRow cf key) (notBooks : cf ≠ .nativeOrderBooks)
    (start : leftStart cf key = rightStart cf key)
    (entries : ∀ step < count, ∀ entry, left.Hashes (left.activation + step) entry ↔
      right.Hashes (left.activation + step) entry) :
    left.rowsAfter leftStart count cf key = right.rowsAfter rightStart count cf key := by
  induction count with
  | zero => exact start
  | succ count ih =>
    unfold rowsAfter
    rw [ih fun step less => entries step (Nat.lt_succ_of_lt less),
      layerEntry_of_hashes (entries count (Nat.lt_succ_self count)) hashed notBooks, sameStart]

theorem runningHash_eq (sha256 : List Byte → Digest) (node : HashNode) (height : Nat) :
    node.runningHash sha256 height =
      some (node.hashTo sha256 (height - node.activation)).value := by
  unfold runningHash chainAt
  rw [(chainTo_value _).1]
  rfl

/-- Nodes with equal running hashes have the same history, and nodes with the same hashed entries
have equal running hashes, however their writes are split into layers. -/
theorem runningHash_history (sha256 : List Byte → Digest) (left right : HashNode) (height : Nat)
    (leftFrom : left.activation ≤ height) (rightFrom : right.activation ≤ height) :
    (left.FramedTo height → right.FramedTo height →
      Hashed.Apart sha256 0 (left.chainAt sha256 height).inputs (right.chainAt sha256 height).inputs →
      left.runningHash sha256 height = right.runningHash sha256 height →
      SameHistory left right height) ∧
    (left.activation = right.activation →
      (∀ block, left.activation ≤ block → block ≤ height → ∀ entry,
        left.Hashes block entry ↔ right.Hashes block entry) →
      left.runningHash sha256 height = right.runningHash sha256 height) := by
  constructor
  · intro leftFramed rightFramed apart same
    rw [runningHash_eq, runningHash_eq] at same
    unfold chainAt at apart
    rw [(chainTo_value _).2, (chainTo_value _).2] at apart
    obtain ⟨sameStart, digests⟩ := hashTo_inj (by omega) apart (Option.some.inj same)
    have entries : ∀ block, left.activation ≤ block → block ≤ height → ∀ entry,
        left.Hashes block entry ↔ right.Hashes block entry := by
      intro block since upTo entry
      have digest := digests (block - left.activation) (by omega)
      rw [Nat.add_sub_cancel' since] at digest
      exact blockDigest_inj (leftFramed block since upTo) (rightFramed block (sameStart ▸ since) upTo)
        digest entry
    refine ⟨sameStart, entries, ?_⟩
    intro leftStart rightStart start cf key hashed notBooks
    refine rowsAfter_same sameStart hashed notBooks (start cf key hashed) ?_
    intro step less
    exact entries _ (Nat.le_add_right _ _) (by omega)
  · intro sameStart entries
    rw [runningHash_eq, runningHash_eq, ← sameStart]
    congr 1
    apply hashTo_congr sameStart
    intro step most
    have canonical := digestedWrites_canonical
      (entries (left.activation + step) (Nat.le_add_right _ _) (by omega))
    unfold digestAt blockDigest
    rw [canonical]

end HashNode

section Samples

/-- One layer with a balance row written, and another with that row rewritten and one deleted. -/
def lowerLayer : PendingState := fun cf =>
  if cf = .nativeBalances then ({} : CfPending Key Value).put [1, 2] [5] else {}

def upperLayer : PendingState := fun cf =>
  if cf = .nativeBalances then (({} : CfPending Key Value).put [1, 2] [6]).delete [9] else {}

def sampleSha256 (input : List Byte) : Digest :=
  if input = [] then 0xe3b0c44298fc1c149afbf4c8996fb92427ae41e4649b934ca495991b7852b855
  else if input.length = 20 then
    0x3ec9923c5795bb6ad128631a021e48941359a3f137dc26b04c8dad2bd97716cd
  else if input.take 32 = List.replicate 32 0 then
    0x6126d79cfd45f1ff618b387e0c75fcc741adc16e433e983055ede7a11a8ae464
  else 0x139e3cec74e0dc7812b17bcb44c0d5cab5a8cab3b5a9b7683c6d9d6081570e92

/-- A node that holds its writes in two layers, and one that holds them in one. -/
def layeredNode : HashNode where
  activation := 1
  blocks := fun _ => [lowerLayer, upperLayer]

def flatNode : HashNode where
  activation := 1
  blocks := fun _ => [upperLayer]

theorem runningHash_history_layers :
    layeredNode.runningHash sampleSha256 2 = flatNode.runningHash sampleSha256 2 ∧
      SameHistory layeredNode flatNode 2 := by
  have writes : ∀ books, digestedWrites [lowerLayer, upperLayer] books =
      digestedWrites [upperLayer] books := by
    decide +kernel
  have entries : ∀ block entry, layeredNode.Hashes block entry ↔ flatNode.Hashes block entry := by
    intro block entry
    unfold HashNode.Hashes
    rw [← mem_digestedWrites, ← mem_digestedWrites]
    exact iff_of_eq (congrArg (entry ∈ ·) (writes _))
  have short : ∀ books, ∀ entry ∈ digestedWrites [lowerLayer, upperLayer] books,
      entry.2.1.length < 2 ^ 32 ∧ (entry.2.2.getD []).length < 2 ^ 32 := by
    decide +kernel
  have framed : layeredNode.FramedTo 2 := by
    intro block _ _ entry hashes
    have bounds := short _ entry (mem_digestedWrites.mpr hashes)
    refine ⟨bounds.1, ?_⟩
    intro value is
    rw [is] at bounds
    exact bounds.2
  have otherFramed : flatNode.FramedTo 2 := fun block since upTo entry hashes =>
    framed block since upTo entry ((entries block entry).mpr hashes)
  have theorems := HashNode.runningHash_history sampleSha256 layeredNode flatNode 2 (by decide)
    (by decide)
  have same := theorems.2 rfl fun block _ _ => entries block
  refine ⟨same, theorems.1 framed otherFramed ?_ same⟩
  constructor <;> decide +kernel

end Samples

end TorusHyperBft.RunningHash
