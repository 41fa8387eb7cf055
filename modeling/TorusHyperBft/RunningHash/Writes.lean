import TorusHyperBft.RunningHash.Digest

namespace TorusHyperBft.RunningHash

open List

/-! The writes a digest takes in: their set, their canonical order, and their bytes. -/

open State

def layerEntry (layers : List PendingState) (cf : ColumnFamily) (key : Key) :
    Option (Option Value) :=
  layers.foldl (fun found layer => ((layer cf).entry key).or found) none

/-- A write of the block that the hash covers. -/
structure HashedEntry (layers : List PendingState) (books : Bool) (entry : WriteEntry) : Prop where
  written : ∃ cf, (entry.1, cf) ∈ hashedCfs ∧ layerEntry layers cf entry.2.1 = some entry.2.2
  consensusKey : keyIsHashed entry.1 entry.2.1
  bookRule : books ∨ entry.1 ≠ idNativeOrderBooks

section Merged

variable {layers : List PendingState} {cf : ColumnFamily} {key : Key} {value : Option Value}

theorem lastEntry_streams (layers : List PendingState) (cf : ColumnFamily) (key : Key) :
    lastEntry (((layers.map fun layer => layer cf).filter fun pending => !pending.isEmpty).map
      CfPending.stream) key = layerEntry layers cf key := by
  induction layers using List.reverseRecOn with
  | nil => rfl
  | append_singleton layers last ih =>
    have step : layerEntry (layers ++ [last]) cf key =
        ((last cf).entry key).or (layerEntry layers cf key) := by
      unfold layerEntry
      rw [foldl_append]
      rfl
    rw [step, map_append, filter_append, map_append]
    by_cases empty : (last cf).isEmpty
    · rw [CfPending.entry_of_isEmpty empty key, Option.none_or]
      simpa [empty] using ih
    · simp only [map_cons, map_nil, filter_cons, empty, Bool.not_false, if_true,
        filter_nil]
      rw [lastEntry_append, CfPending.find_stream, ih]

theorem streams_ascend (layers : List PendingState) (cf : ColumnFamily) :
    ∀ stream ∈ ((layers.map fun layer => layer cf).filter fun pending => !pending.isEmpty).map
      CfPending.stream, Ascends stream := by
  intro stream member
  obtain ⟨pending, _, rfl⟩ := mem_map.mp member
  exact pending.stream_ascends

theorem mem_mergedWrites :
    (key, value) ∈ mergedWrites layers cf ↔ layerEntry layers cf key = some value := by
  rw [← lastEntry_streams]
  exact mem_mergeStreams (streams_ascend layers cf) le_rfl

theorem mergedWrites_ascends (layers : List PendingState) (cf : ColumnFamily) :
    Ascends (mergedWrites layers cf) :=
  mergeStreams_ascends (streams_ascend layers cf) le_rfl

theorem mem_hashedCfOrder {hashed : Byte × ColumnFamily} :
    hashed ∈ hashedCfOrder ↔ hashed ∈ hashedCfs := mem_insertionSort _

theorem hashedCfs_functional : ∀ left ∈ hashedCfs, ∀ right ∈ hashedCfs,
    left.1 = right.1 → left = right := by
  decide +kernel

theorem mem_digestedWrites {books : Bool} {entry : WriteEntry} :
    entry ∈ digestedWrites layers books ↔ HashedEntry layers books entry := by
  obtain ⟨cfId, key, value⟩ := entry
  unfold digestedWrites consensusWrites
  simp only [mem_filter, mem_flatMap, mem_map, Prod.mk.injEq, Bool.or_eq_true,
    decide_eq_true_eq]
  constructor
  · rintro ⟨⟨⟨id, cf⟩, hashed, ⟨otherKey, otherValue⟩, ⟨inside, isHashed⟩, rfl, rfl, rfl⟩, rule⟩
    exact ⟨⟨cf, mem_hashedCfOrder.mp hashed, mem_mergedWrites.mp inside⟩, isHashed, rule⟩
  · rintro ⟨⟨cf, hashed, found⟩, isHashed, rule⟩
    exact ⟨⟨(cfId, cf), mem_hashedCfOrder.mpr hashed, (key, value),
      ⟨mem_mergedWrites.mpr found, isHashed⟩, rfl, rfl, rfl⟩, rule⟩

/-- By column family, then by key. -/
def Precedes (left right : WriteEntry) : Prop :=
  left.1 < right.1 ∨ left.1 = right.1 ∧ left.2.1 < right.2.1

theorem hashedCfOrder_sorted : hashedCfOrder.Pairwise fun left right => left.1 < right.1 := by
  decide +kernel

theorem digestedWrites_sorted (layers : List PendingState) (books : Bool) :
    (digestedWrites layers books).Pairwise Precedes := by
  refine List.Pairwise.filter _ ?_
  unfold consensusWrites
  rw [pairwise_flatMap]
  constructor
  · rintro ⟨cfId, cf⟩ _
    rw [pairwise_map]
    refine List.Pairwise.imp ?_ ((mergedWrites_ascends layers cf).filter _)
    intro left right below
    exact .inr ⟨rfl, below⟩
  · refine List.Pairwise.imp ?_ hashedCfOrder_sorted
    rintro ⟨leftId, leftCf⟩ ⟨rightId, rightCf⟩ below left inLeft right inRight
    obtain ⟨_, _, rfl⟩ := mem_map.mp inLeft
    obtain ⟨_, _, rfl⟩ := mem_map.mp inRight
    exact .inl below

theorem digestedWrites_eq {books : Bool} {entries : List WriteEntry}
    (sorted : entries.Pairwise Precedes)
    (same : ∀ entry, HashedEntry layers books entry ↔ entry ∈ entries) :
    digestedWrites layers books = entries := by
  have irrefl : Std.Irrefl Precedes := by
    refine ⟨fun entry => ?_⟩
    rintro (below | ⟨_, below⟩)
    · exact lt_irrefl _ below
    · exact lt_irrefl _ below
  have antisymm : Std.Antisymm Precedes := by
    refine ⟨fun left right => ?_⟩
    rintro (below | ⟨sameId, below⟩) (above | ⟨otherId, above⟩)
    · exact absurd below (lt_asymm above)
    · exact absurd below (otherId ▸ lt_irrefl _)
    · exact absurd above (sameId ▸ lt_irrefl _)
    · exact absurd below (lt_asymm above)
  refine List.Pairwise.eq_of_mem_iff (digestedWrites_sorted layers books) sorted ?_
  intro entry
  rw [mem_digestedWrites]
  exact same entry

/-- Blocks with the same hashed entries are digested from the same list, however their writes are
split into layers. -/
theorem digestedWrites_canonical {others : List PendingState} {books otherBooks : Bool}
    (same : ∀ entry, HashedEntry layers books entry ↔ HashedEntry others otherBooks entry) :
    digestedWrites layers books = digestedWrites others otherBooks :=
  digestedWrites_eq (digestedWrites_sorted others otherBooks) fun entry =>
    (same entry).trans mem_digestedWrites.symm

end Merged

section Frames

/-- The key and the value of an entry are no longer than the `u32` of their frame can say. -/
structure Framed (entry : WriteEntry) : Prop where
  key : entry.2.1.length < 2 ^ 32
  value : ∀ value, entry.2.2 = some value → value.length < 2 ^ 32

variable {left right : WriteEntry} {leftTail rightTail : List Byte}

theorem framed_append_inj {left right leftTail rightTail : List Byte}
    (leftShort : left.length < 2 ^ 32)
    (rightShort : right.length < 2 ^ 32)
    (same : toBytes 4 (left.length % 2 ^ 32) ++ (left ++ leftTail) =
      toBytes 4 (right.length % 2 ^ 32) ++ (right ++ rightTail)) :
    left = right ∧ leftTail = rightTail := by
  rw [Nat.mod_eq_of_lt leftShort, Nat.mod_eq_of_lt rightShort] at same
  obtain ⟨lengths, rest⟩ := toBytes_append_inj (by omega) (by omega) same
  exact append_inj rest lengths

theorem frame_append_inj (leftFramed : Framed left) (rightFramed : Framed right)
    (same : frame left ++ leftTail = frame right ++ rightTail) :
    left = right ∧ leftTail = rightTail := by
  obtain ⟨leftId, leftKey, leftValue⟩ := left
  obtain ⟨rightId, rightKey, rightValue⟩ := right
  simp only [frame, append_assoc, cons_append, nil_append, List.cons.injEq] at same
  obtain ⟨rfl, rest⟩ := same
  obtain ⟨rfl, values⟩ := framed_append_inj leftFramed.key rightFramed.key rest
  cases leftValue with
  | none =>
    cases rightValue with
    | none =>
      simp only [cons_append, nil_append, List.cons.injEq, true_and] at values
      exact ⟨rfl, values⟩
    | some value =>
      simp only [cons_append, nil_append, List.cons.injEq] at values
      exact absurd values.1 (by decide)
  | some value =>
    cases rightValue with
    | none =>
      simp only [cons_append, nil_append, List.cons.injEq] at values
      exact absurd values.1 (by decide)
    | some other =>
      simp only [cons_append, append_assoc, List.cons.injEq, true_and] at values
      obtain ⟨rfl, tails⟩ := framed_append_inj (leftFramed.value value rfl)
        (rightFramed.value other rfl) values
      exact ⟨rfl, tails⟩

theorem frame_ne_nil (entry : WriteEntry) : frame entry ≠ [] := by
  simp [frame]

theorem frames_inj {lefts rights : List WriteEntry} (leftFramed : ∀ entry ∈ lefts, Framed entry)
    (rightFramed : ∀ entry ∈ rights, Framed entry)
    (same : lefts.flatMap frame = rights.flatMap frame) : lefts = rights := by
  induction lefts generalizing rights with
  | nil =>
    cases rights with
    | nil => rfl
    | cons right rights =>
      rw [flatMap_nil, flatMap_cons, eq_comm, append_eq_nil_iff] at same
      exact absurd same.1 (frame_ne_nil right)
  | cons left lefts ih =>
    cases rights with
    | nil =>
      rw [flatMap_nil, flatMap_cons, append_eq_nil_iff] at same
      exact absurd same.1 (frame_ne_nil left)
    | cons right rights =>
      rw [flatMap_cons, flatMap_cons] at same
      obtain ⟨rfl, tails⟩ := frame_append_inj (leftFramed left mem_cons_self)
        (rightFramed right mem_cons_self) same
      rw [ih (fun entry inside => leftFramed entry (mem_cons_of_mem _ inside))
        (fun entry inside => rightFramed entry (mem_cons_of_mem _ inside)) tails]

end Frames

section Domains

variable {layers others : List PendingState} {books otherBooks : Bool}

theorem pushAll_eq (entries : List WriteEntry)
    (hashed : ∀ entry ∈ entries, keyIsHashed entry.1 entry.2.1)
    (digest : BlockDigest) : entries.foldl BlockDigest.push digest =
      { native := digest.native ++
          (entries.filter fun entry => entry.1 < evmDomainFirstId).flatMap frame
        evm := digest.evm ++
          (entries.filter fun entry => evmDomainFirstId ≤ entry.1).flatMap frame } := by
  induction entries generalizing digest with
  | nil => simp
  | cons entry rest ih =>
    rw [foldl_cons, ih fun other inside => hashed other (mem_cons_of_mem _ inside)]
    have isHashed := hashed entry mem_cons_self
    by_cases evm : evmDomainFirstId ≤ entry.1
    · simp [BlockDigest.push, isHashed, evm, not_lt.mpr evm]
    · simp [BlockDigest.push, isHashed, evm, not_le.mp evm]

theorem blockDigest_eq (layers : List PendingState) (books : Bool) : blockDigest layers books =
    { native := ((digestedWrites layers books).filter fun entry =>
        entry.1 < evmDomainFirstId).flatMap frame
      evm := ((digestedWrites layers books).filter fun entry =>
        evmDomainFirstId ≤ entry.1).flatMap frame } := by
  unfold blockDigest
  rw [pushAll_eq _ fun entry inside => (mem_digestedWrites.mp inside).consensusKey]
  rfl

theorem blockDigest_inj (framed : ∀ entry, HashedEntry layers books entry → Framed entry)
    (otherFramed : ∀ entry, HashedEntry others otherBooks entry → Framed entry)
    (same : blockDigest layers books = blockDigest others otherBooks) (entry : WriteEntry) :
    HashedEntry layers books entry ↔ HashedEntry others otherBooks entry := by
  rw [blockDigest_eq, blockDigest_eq, BlockDigest.mk.injEq] at same
  have framedOf : ∀ (chosen : WriteEntry → Bool), ∀ entry ∈ (digestedWrites layers books).filter chosen,
      Framed entry :=
    fun _ entry inside => framed entry (mem_digestedWrites.mp (mem_of_mem_filter inside))
  have otherFramedOf : ∀ (chosen : WriteEntry → Bool),
      ∀ entry ∈ (digestedWrites others otherBooks).filter chosen, Framed entry :=
    fun _ entry inside => otherFramed entry (mem_digestedWrites.mp (mem_of_mem_filter inside))
  have native := frames_inj (framedOf _) (otherFramedOf _) same.1
  have evm := frames_inj (framedOf _) (otherFramedOf _) same.2
  rw [← mem_digestedWrites, ← mem_digestedWrites]
  by_cases isEvm : evmDomainFirstId ≤ entry.1
  · have inEvm : ∀ entries : List WriteEntry, entry ∈ entries ↔
        entry ∈ entries.filter fun entry => evmDomainFirstId ≤ entry.1 := by
      intro entries
      simp [isEvm]
    rw [inEvm, evm, ← inEvm]
  · have inNative : ∀ entries : List WriteEntry, entry ∈ entries ↔
        entry ∈ entries.filter fun entry => entry.1 < evmDomainFirstId := by
      intro entries
      simp [not_le.mp isEvm]
    rw [inNative, native, ← inNative]

end Domains

end TorusHyperBft.RunningHash
