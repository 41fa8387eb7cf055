import TorusHyperBft.NativeTrie.Merged

namespace TorusHyperBft.NativeTrie

open List

/-! The work on the dirty buckets: what the member cache hands over, and what comes of each bucket
whatever the number of workers. -/

open RunningHash (Value Digest)

theorem chunks_flatten {α : Type} {size : Nat} (positive : 0 < size) (fuel : Nat) (items : List α)
    (enough : items.length ≤ fuel) : (chunks size fuel items).flatten = items := by
  induction fuel generalizing items with
  | zero =>
    have none : items = [] := length_eq_zero_iff.mp (Nat.le_zero.mp enough)
    rw [none]
    rfl
  | succ fuel ih =>
    cases items with
    | nil => rfl
    | cons item items =>
      have shorter : ((item :: items).drop size).length ≤ fuel := by
        rw [length_drop]
        rw [length_cons] at enough ⊢
        omega
      rw [chunks, flatten_cons, ih _ shorter, take_append_drop]

section Cache

/-- Cached buckets hold the members of the mirror. -/
def Resident (mirror : Nat → Members) (inner : MemberCacheInner) : Prop :=
  ∀ bucket slot, inner.map.lookup bucket = some slot → slot.members = mirror bucket

variable {mirror : Nat → Members} {inner : MemberCacheInner}

variable (resident : Resident mirror inner)
include resident

theorem Resident.erase {bucket : Nat} {after : MemberCacheInner}
    (erased : after.map = inner.map.erase bucket) : Resident mirror after := by
  intro other slot found
  rw [erased, OrderedMap.lookup_erase] at found
  by_cases here : other = bucket
  · simp [here] at found
  · rw [if_neg here] at found
    exact resident other slot found

theorem take_spec (bucket : Nat) :
    (∀ base, (inner.take bucket).1 = some base → base.1 = mirror bucket) ∧
      (∀ other, (inner.take bucket).2.map.lookup other =
        if other = bucket then none else inner.map.lookup other) ∧
      (inner.take bucket).2.root = inner.root := by
  cases found : inner.map.lookup bucket with
  | none =>
    simp only [MemberCacheInner.take, found]
    refine ⟨by simp, ?_, trivial⟩
    intro other
    by_cases here : other = bucket
    · rw [if_pos here, here, found]
    · rw [if_neg here]
  | some slot =>
    simp only [MemberCacheInner.take, found]
    refine ⟨?_, fun other => OrderedMap.lookup_erase, trivial⟩
    intro base handed
    cases handed
    exact resident bucket slot found

theorem Resident.store {final : Nat × Members × Nat}
    (right : final.2.1 = mirror final.1) : Resident mirror (inner.store final) := by
  obtain ⟨bucket, members, bytes⟩ := final
  have put : ∀ cleared : MemberCacheInner, Resident mirror cleared → ∀ slot : MemberSlot,
      slot.members = members → ∀ after : MemberCacheInner,
      after.map = cleared.map.insert bucket slot → Resident mirror after := by
    intro cleared held slot holds after inserted other found at_
    rw [inserted, OrderedMap.lookup_insert] at at_
    by_cases here : other = bucket
    · rw [if_pos here] at at_
      cases at_
      rw [holds, here]
      exact right
    · rw [if_neg here] at at_
      exact held other found at_
  cases old : inner.map.lookup bucket with
  | none =>
    simp only [MemberCacheInner.store, old]
    exact put inner resident _ rfl _ rfl
  | some slot =>
    simp only [MemberCacheInner.store, old]
    have cleared : Resident mirror
        { inner with
          map := inner.map.erase bucket
          recency := inner.recency.erase slot.seq
          totalBytes := inner.totalBytes - slot.bytes } := resident.erase rfl
    exact put _ cleared _ rfl _ rfl

theorem Resident.evict (recency : List (Nat × Nat)) :
    Resident mirror (MemberCacheInner.evict recency inner) := by
  induction recency generalizing inner with
  | nil => exact resident
  | cons oldest recency ih =>
    obtain ⟨seq, bucket⟩ := oldest
    rw [MemberCacheInner.evict]
    split
    · exact resident
    · apply ih
      split
      · exact resident
      · exact resident.erase rfl

omit resident

theorem evict_root (recency : List (Nat × Nat)) (inner : MemberCacheInner) :
    (MemberCacheInner.evict recency inner).root = inner.root := by
  induction recency generalizing inner with
  | nil => rfl
  | cons oldest recency ih =>
    obtain ⟨seq, bucket⟩ := oldest
    rw [MemberCacheInner.evict]
    split
    · rfl
    · rw [ih]
      split
      · rfl
      · rfl

theorem Resident.foldl_store (resident : Resident mirror inner)
    (finals : List (Nat × Members × Nat)) (right : ∀ final ∈ finals, final.2.1 = mirror final.1) :
    Resident mirror (finals.foldl MemberCacheInner.store inner) := by
  induction finals generalizing inner with
  | nil => exact resident
  | cons final finals ih =>
    have stored := resident.store (right final mem_cons_self)
    exact ih stored fun other member => right other (mem_cons_of_mem _ member)

theorem Resident.commitFinals (resident : Resident mirror inner)
    {finals : List (Nat × Members × Nat)} (right : ∀ final ∈ finals, final.2.1 = mirror final.1)
    (root : Digest) : Resident mirror (inner.commitFinals finals root) := by
  have stored : Resident mirror { finals.foldl MemberCacheInner.store inner with root } :=
    resident.foldl_store finals right
  exact stored.evict _

theorem commitFinals_root (finals : List (Nat × Members × Nat)) (root : Digest) :
    (inner.commitFinals finals root).root = root := evict_root _ _

end Cache

section Work

variable {mirror : Nat → Members} {groups : List (Nat × List (NativeKey × Option Value))}

/-- The work starts from the members it claims to. -/
def FromMembers (mirror : Nat → Members) (work : BucketWork) : Prop :=
  ∀ base, work.2.2 = some base → base.1 = mirror work.1

/-- Resident, and the taken buckets are out of the cache. -/
def Spared (mirror : Nat → Members) (taken : Nat → Prop) (inner : MemberCacheInner) : Prop :=
  Resident mirror inner ∧ ∀ bucket, taken bucket → inner.map.lookup bucket = none

/-- Every bucket's work starts from its mirrored members, cached or not. -/
theorem takeMembers_spec (cache : Option MemberCacheInner)
    (resident : ∀ inner, cache = some inner → Resident mirror inner) :
    (takeMembers groups cache).1.map (fun work => (work.1, work.2.1)) = groups ∧
      (∀ work ∈ (takeMembers groups cache).1, FromMembers mirror work) ∧
      (takeMembers groups cache).2.map MemberCacheInner.root = cache.map MemberCacheInner.root ∧
      ∀ inner, (takeMembers groups cache).2 = some inner →
        Spared mirror (fun bucket => bucket ∈ groups.map Prod.fst) inner := by
  unfold takeMembers
  induction groups using List.reverseRecOn with
  | nil =>
    refine ⟨rfl, ?_, rfl, ?_⟩
    · intro work member
      cases member
    · intro inner same
      refine ⟨resident inner same, ?_⟩
      intro bucket member
      cases member
  | append_singleton groups group ih =>
    rw [foldl_append, foldl_cons, foldl_nil]
    generalize groups.foldl _ ([], cache) = taken at ih ⊢
    obtain ⟨listed, fromMembers, root, spared⟩ := ih
    obtain ⟨works, left⟩ := taken
    cases left with
    | none =>
      refine ⟨?_, ?_, root, ?_⟩
      · simp only [map_append, map_cons, map_nil, listed]
      · intro work member
        rcases mem_append.mp member with member | member
        · exact fromMembers work member
        · rw [mem_singleton.mp member]
          intro base contrary
          cases contrary
      · intro inner contrary
        cases contrary
    | some inner =>
      obtain ⟨held, gone⟩ := spared inner rfl
      obtain ⟨handed, rest, sameRoot⟩ := take_spec held group.1
      refine ⟨?_, ?_, ?_, ?_⟩
      · simp only [map_append, map_cons, map_nil, listed]
      · intro work member
        rcases mem_append.mp member with member | member
        · exact fromMembers work member
        · rw [mem_singleton.mp member]
          exact handed
      · rw [← root]
        simp only [Option.map_some, sameRoot]
      · rintro after same
        cases same
        constructor
        · intro bucket slot found
          rw [rest] at found
          by_cases here : bucket = group.1
          · simp [here] at found
          · rw [if_neg here] at found
            exact held bucket slot found
        · intro bucket member
          rw [rest]
          by_cases here : bucket = group.1
          · rw [if_pos here]
          · rw [if_neg here]
            rw [map_append, mem_append] at member
            rcases member with member | member
            · exact gone bucket member
            · exact absurd (mem_singleton.mp member) here

end Work

section Keccak

variable {keccak256 : List Byte → Digest} {db : NativeDb} {memberEnabled elide : Bool}
  {parallel minBuckets : Nat}

/-- The buckets' results come in order, in parallel or not. -/
theorem runBuckets_entries {works : List BucketWork}
    (ascends : works.Pairwise fun left right => left.1 < right.1) :
    (runBuckets keccak256 db works memberEnabled elide parallel minBuckets).entries =
      works.map fun work => (work.1, processBucket keccak256 db memberEnabled elide work) := by
  let run (works : List BucketWork) : List (Nat × BucketOutcome) :=
    works.map fun work => (work.1, processBucket keccak256 db memberEnabled elide work)
  have spread : (if parallel ≤ 1 ∨ works.length ≤ max minBuckets 1 then run works
      else (chunks ((works.length + min parallel works.length - 1) / min parallel works.length)
        works.length works).flatMap run) = run works := by
    split
    · rfl
    · rename_i many
      have threads : 0 < min parallel works.length := by omega
      have positive : 0 < (works.length + min parallel works.length - 1) /
          min parallel works.length := by
        apply Nat.div_pos
        · omega
        · exact threads
      rw [flatMap_def, ← map_flatten, chunks_flatten positive _ _ (le_refl _)]
  have sorted : Ascends (run works) := pairwise_map.mpr ascends
  simp only [runBuckets]
  rw [spread]
  exact OrderedMap.foldl_insert_entries ⟨run works, sorted⟩

section Bucket

variable {mirror : Nat → Members} {work : BucketWork}

/-- What comes of a bucket: its edited members are written to the mirror, they are what the cache
gets, and they give the leaf unless nothing has changed. -/
theorem processBucket_spec (fromMembers : FromMembers mirror work)
    (scans : db.mirror work.1 = mirror work.1) :
    let outcome := processBucket keccak256 db memberEnabled elide work
    let edited := work.2.1.foldl (editMembers keccak256) (mirror work.1)
    (∀ target : NativeDb, target.mirror work.1 = mirror work.1 →
        outcome.mirrorOps.foldl NativeDb.writeOp target = target.setBucket work.1 edited) ∧
      (outcome.changed = false → edited = mirror work.1) ∧
      (outcome.changed = true → outcome.leaf = leafOf keccak256 edited) ∧
      ∀ final, outcome.memberFinal = some final → final.1 = edited := by
  obtain ⟨bucket, entries, base⟩ := work
  have merged : ∀ (start : Members) (bytes : BucketMerge → Nat), start = mirror bucket →
      let merge := entries.foldl (mergeEntry keccak256 bucket elide) { members := start }
      let edited := entries.foldl (editMembers keccak256) (mirror bucket)
      (∀ target : NativeDb, target.mirror bucket = mirror bucket →
          merge.mirrorOps.foldl NativeDb.writeOp target = target.setBucket bucket edited) ∧
        (merge.changed = false → edited = mirror bucket) ∧
        (merge.changed = true → (if merge.changed then leafOf keccak256 merge.members
          else emptyLeaf keccak256) = leafOf keccak256 edited) ∧
        ∀ final, (if memberEnabled then some (merge.members, bytes merge) else none) = some final →
          final.1 = edited := by
    intro start bytes same
    have merges : Merges bucket (mirror bucket)
        (entries.foldl (mergeEntry keccak256 bucket elide) { members := mirror bucket }) :=
      (Merges.start (mirror bucket)).foldl entries
    have members : (entries.foldl (mergeEntry keccak256 bucket elide)
        { members := mirror bucket }).members =
        entries.foldl (editMembers keccak256) (mirror bucket) := foldl_mergeEntry_members entries _
    rw [same, ← members]
    refine ⟨merges.mirrored, merges.unchanged, fun changed => if_pos changed, ?_⟩
    intro final handed
    split at handed
    · cases handed
      rfl
    · cases handed
  cases base with
  | none => exact merged _ (fun merge => if merge.changed then membersBytes merge.members
      else membersBytes merge.members) scans
  | some base => exact merged _ (fun merge => if merge.changed then membersBytes merge.members
      else base.2) (fromMembers base rfl)

end Bucket

end Keccak

end TorusHyperBft.NativeTrie
