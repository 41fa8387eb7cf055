import TorusHyperBft.NativeTrie.Built

namespace TorusHyperBft.NativeTrie

open OrderedMap

/-! What the edits of a block make of the buckets they touch. -/

open RunningHash (Value Digest)

namespace NativeDb

def setBucket (db : NativeDb) (bucket : Nat) (members : Members) : NativeDb :=
  { db with mirror := fun other => if other = bucket then members else db.mirror other }

variable {db : NativeDb} {bucket : Nat} {members : Members}

theorem setBucket_setBucket (again : Members) :
    (db.setBucket bucket members).setBucket bucket again = db.setBucket bucket again := by
  simp only [setBucket, mk.injEq, true_and, and_true]
  funext other
  by_cases here : other = bucket
  · simp [here]
  · simp [here]

theorem setBucket_self : db.setBucket bucket (db.mirror bucket) = db := by
  have same : (fun other => if other = bucket then db.mirror bucket else db.mirror other) =
      db.mirror := by
    funext other
    by_cases here : other = bucket
    · simp [here]
    · simp [here]
  rw [setBucket, same]

theorem setBucket_mirror : (db.setBucket bucket members).mirror bucket = members := by
  simp [setBucket]

theorem putMirror_eq (key : NativeKey) (value : Option Digest) :
    db.putMirror bucket key value = db.setBucket bucket (match value with
      | some value => (db.mirror bucket).insert key value
      | none => (db.mirror bucket).erase key) := rfl

end NativeDb

section Keccak

variable (keccak256 : List Byte → Digest)

def editMembers (members : Members) (entry : NativeKey × Option Value) : Members :=
  match entry.2 with
  | some value => members.insert entry.1 (keccak256 value)
  | none => members.erase entry.1

def editNative (native : OrderedMap NativeKey Value) (row : NativeKey × Option Value) :
    OrderedMap NativeKey Value :=
  match row.2 with
  | some value => native.insert row.1 value
  | none => native.erase row.1

variable {keccak256} {bucket : Nat} {elide : Bool}

section Edit

variable {members : Members} {key : NativeKey}

theorem insert_same {hash : Digest} (held : members.lookup key = some hash) :
    members.insert key hash = members := by
  apply ext_lookup
  intro other
  rw [lookup_insert]
  by_cases here : other = key
  · rw [if_pos here, here, held]
  · rw [if_neg here]

theorem erase_absent (absent : members.lookup key = none) : members.erase key = members := by
  apply ext_lookup
  intro other
  rw [lookup_erase]
  by_cases here : other = key
  · rw [if_pos here, here, absent]
  · rw [if_neg here]

end Edit

/-- What a merge has done since it had some members: they are edited, the mirror rows say so, and
when nothing is marked as changed they are as they were. -/
structure Merges (bucket : Nat) (start : Members) (merge : BucketMerge) : Prop where
  mirrored : ∀ db : NativeDb, db.mirror bucket = start →
    merge.mirrorOps.foldl NativeDb.writeOp db = db.setBucket bucket merge.members
  unchanged : merge.changed = false → merge.members = start

theorem Merges.start (members : Members) : Merges bucket members { members } where
  mirrored := by
    rintro db rfl
    exact NativeDb.setBucket_self.symm
  unchanged := fun _ => rfl

theorem mergeEntry_members (merge : BucketMerge) (entry : NativeKey × Option Value) :
    (mergeEntry keccak256 bucket elide merge entry).members =
      editMembers keccak256 merge.members entry := by
  obtain ⟨key, value⟩ := entry
  cases value with
  | some value =>
    simp only [mergeEntry, editMembers]
    split
    · rename_i clean
      rw [Bool.and_eq_true, decide_eq_true_eq] at clean
      exact (insert_same clean.2).symm
    · rfl
  | none =>
    simp only [mergeEntry, editMembers]
    split
    · rfl
    · rfl

variable {merge : BucketMerge}

theorem Merges.write {start : Members} (merges : Merges bucket start merge)
    (key : NativeKey) (value : Option Digest) :
    Merges bucket start
      { members := match value with
          | some value => merge.members.insert key value
          | none => merge.members.erase key
        mirrorOps := merge.mirrorOps ++ [.mirror bucket key value]
        changed := true } where
  mirrored := by
    intro db held
    rw [List.foldl_append, merges.mirrored db held, List.foldl_cons, List.foldl_nil,
      NativeDb.writeOp, NativeDb.putMirror_eq, NativeDb.setBucket_mirror,
      NativeDb.setBucket_setBucket]
  unchanged := by
    intro contrary
    cases contrary

theorem Merges.mergeEntry {start : Members}
    (merges : Merges bucket start merge) (entry : NativeKey × Option Value) :
    Merges bucket start (mergeEntry keccak256 bucket elide merge entry) := by
  obtain ⟨key, value⟩ := entry
  cases value with
  | some value =>
    simp only [NativeTrie.mergeEntry]
    split
    · exact merges
    · exact merges.write key (some (keccak256 value))
  | none =>
    simp only [NativeTrie.mergeEntry]
    split
    · -- an absent key is dropped: the members stay
      rename_i clean
      have absent : merge.members.lookup key = none := by
        rw [Bool.and_eq_true] at clean
        simpa using clean.2
      rw [erase_absent absent]
      exact merges
    · exact merges.write key none

/-- Merging a bucket's entries one by one is one merge. -/
theorem Merges.foldl {start : Members} (merges : Merges bucket start merge)
    (entries : List (NativeKey × Option Value)) :
    Merges bucket start (entries.foldl (NativeTrie.mergeEntry keccak256 bucket elide) merge) := by
  induction entries generalizing merge with
  | nil => exact merges
  | cons entry entries ih => exact ih (merges.mergeEntry entry)

theorem foldl_mergeEntry_members (entries : List (NativeKey × Option Value)) (merge : BucketMerge) :
    (entries.foldl (mergeEntry keccak256 bucket elide) merge).members =
      entries.foldl (editMembers keccak256) merge.members := by
  induction entries generalizing merge with
  | nil => rfl
  | cons entry entries ih => rw [List.foldl_cons, ih, mergeEntry_members, List.foldl_cons]

/-! The members after the edits are those of the edited native rows. -/

theorem mirrorOf_editNative (native : OrderedMap NativeKey Value)
    (row : NativeKey × Option Value) (bucket : Nat) :
    mirrorOf keccak256 (editNative native row) bucket =
      if bucketId keccak256 row.1 = bucket then
        editMembers keccak256 (mirrorOf keccak256 native bucket) row
      else mirrorOf keccak256 native bucket := by
  obtain ⟨key, value⟩ := row
  apply ext_lookup
  intro other
  by_cases here : bucketId keccak256 key = bucket
  · rw [if_pos here]
    cases value with
    | some value =>
      simp only [editNative, editMembers, lookup_insert, lookup_mirrorOf]
      by_cases same : other = key
      · simp [same, here]
      · simp [same]
    | none =>
      simp only [editNative, editMembers, lookup_erase, lookup_mirrorOf]
      by_cases same : other = key
      · simp [same]
      · simp [same]
  · rw [if_neg here]
    have elsewhere : bucketId keccak256 other = bucket → other ≠ key := by
      rintro inside rfl
      exact here inside
    cases value with
    | some value =>
      simp only [editNative, lookup_insert, lookup_mirrorOf]
      by_cases inside : bucketId keccak256 other = bucket
      · simp [inside, elsewhere inside]
      · simp [inside]
    | none =>
      simp only [editNative, lookup_erase, lookup_mirrorOf]
      by_cases inside : bucketId keccak256 other = bucket
      · simp [inside, elsewhere inside]
      · simp [inside]

theorem mirrorOf_foldl_editNative (rows : List (NativeKey × Option Value))
    (native : OrderedMap NativeKey Value) (bucket : Nat) :
    mirrorOf keccak256 (rows.foldl editNative native) bucket =
      (rows.filter fun row => bucketId keccak256 row.1 = bucket).foldl (editMembers keccak256)
        (mirrorOf keccak256 native bucket) := by
  induction rows generalizing native with
  | nil => rfl
  | cons row rows ih =>
    rw [List.foldl_cons, ih, mirrorOf_editNative]
    by_cases here : bucketId keccak256 row.1 = bucket
    · simp [here]
    · simp [here]

end Keccak

end TorusHyperBft.NativeTrie
