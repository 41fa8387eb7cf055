import TorusHyperBft.Mempool.LanePool

namespace TorusHyperBft.Mempool

open List OrderedMap
open Signing (Address)

/-! The indexes of a lane say what its queues say, through every operation on it. -/

namespace LanePool

/-- The transactions stand where they belong, and no queue is empty. -/
structure Keyed (pool : LanePool) : Prop where
  placed : ∀ sender nonce entry, pool.queue sender nonce = some entry →
    entry.sender = sender ∧ entry.nonce = nonce
  inhabited : ∀ sender txs, pool.bySender.lookup sender = some txs → txs.entries ≠ []

/-- The indexes of the lane say what its queues hold. -/
structure Sound (pool : LanePool) : Prop extends Keyed pool where
  hashes : ∀ hash place, pool.byHash.lookup hash = some place ↔
    ∃ entry, pool.queue place.1 place.2 = some entry ∧ entry.hash = hash
  prices : ∀ key, key ∈ pool.byPrice ↔
    ∃ sender nonce entry, pool.queue sender nonce = some entry ∧ key = .new entry pool.baseFee
  once : pool.byPrice.Nodup
  counted : pool.size = pool.all.length

variable {txs : SenderTxs}

section All

variable {pool : LanePool} {entry : EvmPoolEntry}

theorem mem_all : entry ∈ pool.all ↔ ∃ sender nonce, pool.queue sender nonce = some entry := by
  simp only [all, mem_flatMap, mem_map]
  constructor
  · rintro ⟨⟨sender, txs⟩, row, ⟨nonce, value⟩, inside, rfl⟩
    refine ⟨sender, nonce, ?_⟩
    rw [queue, Option.mem_def.mp (AList.mem_lookup_iff.mpr row)]
    exact lookup_eq_some.mpr inside
  · rintro ⟨sender, nonce, found⟩
    obtain ⟨txs, isTxs, isEntry⟩ := Option.bind_eq_some_iff.mp found
    exact ⟨⟨sender, txs⟩, AList.mem_lookup_iff.mp isTxs, (nonce, entry),
      lookup_eq_some.mp isEntry, rfl⟩

theorem Keyed.mem_all (keyed : Keyed pool) :
    entry ∈ pool.all ↔ pool.queue entry.sender entry.nonce = some entry := by
  rw [LanePool.mem_all]
  constructor
  · rintro ⟨sender, nonce, found⟩
    obtain ⟨rfl, rfl⟩ := keyed.placed sender nonce entry found
    exact found
  · exact fun found => ⟨_, _, found⟩

variable {sender : Address}

theorem Keyed.row (keyed : Keyed pool)
    (found : pool.bySender.lookup sender = some txs) {row : Nat × EvmPoolEntry}
    (member : row ∈ txs.entries) : row.2.sender = sender ∧ row.2.nonce = row.1 := by
  apply keyed.placed
  rw [queue, found]
  exact lookup_eq_some.mpr member

theorem Keyed.nodup_row (keyed : Keyed pool)
    (found : pool.bySender.lookup sender = some txs) : (txs.entries.map Prod.snd).Nodup := by
  rw [List.Nodup, pairwise_map]
  apply txs.ascends.imp_of_mem
  intro left right inLeft inRight below same
  have leftNonce := (keyed.row found inLeft).2
  have rightNonce := (keyed.row found inRight).2
  rw [same] at leftNonce
  exact absurd below (by rw [← leftNonce, ← rightNonce]; exact lt_irrefl _)

theorem Keyed.nodup_all (keyed : Keyed pool) : pool.all.Nodup := by
  rw [all, nodup_flatMap]
  constructor
  · rintro ⟨sender, txs⟩ row
    exact keyed.nodup_row (AList.mem_lookup_iff.mpr row)
  · apply pool.bySender.nodupKeys.pairwise_ne.imp_of_mem
    rintro ⟨sender, txs⟩ ⟨other, otherTxs⟩ row otherRow different
    intro entry inside outside
    obtain ⟨place, inTxs, rfl⟩ := mem_map.mp inside
    obtain ⟨otherPlace, inOther, same⟩ := mem_map.mp outside
    have isSender := (keyed.row (AList.mem_lookup_iff.mpr row) inTxs).1
    have isOther := (keyed.row (AList.mem_lookup_iff.mpr otherRow) inOther).1
    rw [same] at isOther
    exact different (isSender.symm.trans isOther)

def ownCount (pool : LanePool) (sender : Address) : Nat :=
  pool.all.countP fun entry => entry.sender = sender

theorem Keyed.ownCount_eq (keyed : Keyed pool) (found : pool.bySender.lookup sender = some txs) :
    pool.ownCount sender = txs.entries.length := by
  have same : (pool.all.filter fun entry => entry.sender = sender).Perm
      (txs.entries.map Prod.snd) := by
    rw [perm_ext_iff_of_nodup (keyed.nodup_all.filter _) (keyed.nodup_row found)]
    intro entry
    rw [mem_filter, keyed.mem_all, decide_eq_true_eq, mem_map]
    constructor
    · rintro ⟨pooled, rfl⟩
      rw [queue, found] at pooled
      exact ⟨(entry.nonce, entry), lookup_eq_some.mp pooled, rfl⟩
    · rintro ⟨row, member, rfl⟩
      obtain ⟨isSender, isNonce⟩ := keyed.row found member
      refine ⟨?_, isSender⟩
      rw [isSender, isNonce, queue, found]
      exact lookup_eq_some.mpr member
  rw [ownCount, countP_eq_length_filter, same.length_eq, length_map]

theorem Keyed.hasSender_iff (keyed : Keyed pool) :
    pool.hasSender sender = true ↔ ∃ entry ∈ pool.all, entry.sender = sender := by
  rw [hasSender, Option.isSome_iff_exists]
  constructor
  · rintro ⟨txs, found⟩
    obtain ⟨first, rest, shape⟩ := exists_cons_of_ne_nil (keyed.inhabited sender txs found)
    have member : first ∈ txs.entries := by simp [shape]
    obtain ⟨isSender, isNonce⟩ := keyed.row found member
    refine ⟨first.2, ?_, isSender⟩
    rw [keyed.mem_all, isSender, isNonce, queue, found]
    exact lookup_eq_some.mpr member
  · rintro ⟨entry, member, rfl⟩
    rw [keyed.mem_all] at member
    obtain ⟨txs, found, -⟩ := Option.bind_eq_some_iff.mp member
    exact ⟨txs, found⟩

end All

theorem Sound.place_of_hash {pool : LanePool} (sound : Sound pool) {sender other : Address}
    {nonce place : Nat} {entry kept : EvmPoolEntry} (found : pool.queue sender nonce = some entry)
    (isKept : pool.queue other place = some kept) (same : kept.hash = entry.hash) :
    other = sender ∧ place = nonce := by
  have here := (sound.hashes entry.hash (sender, nonce)).mpr ⟨entry, found, rfl⟩
  have there := (sound.hashes entry.hash (other, place)).mpr ⟨kept, isKept, same⟩
  rw [here] at there
  obtain ⟨rfl, rfl⟩ := Prod.mk.inj (Option.some.inj there)
  exact ⟨rfl, rfl⟩

theorem Sound.eq_of_hash {pool : LanePool} (sound : Sound pool) {entry kept : EvmPoolEntry}
    (found : entry ∈ pool.all) (isKept : kept ∈ pool.all) (same : kept.hash = entry.hash) :
    kept = entry := by
  rw [sound.mem_all] at found isKept
  obtain ⟨isSender, isNonce⟩ := sound.place_of_hash found isKept same
  rw [isSender, isNonce, found] at isKept
  exact (Option.some.inj isKept).symm

/-- Exactly this entry left. -/
structure Removed (pool after : LanePool) (entry : EvmPoolEntry) : Prop where
  found : pool.queue entry.sender entry.nonce = some entry
  cleared : ∀ sender nonce, after.queue sender nonce =
    if sender = entry.sender ∧ nonce = entry.nonce then none else pool.queue sender nonce
  fee : after.baseFee = pool.baseFee

theorem Removed.perm {pool after : LanePool} {entry : EvmPoolEntry}
    (removed : Removed pool after entry) (keyed : Keyed pool) (keyedAfter : Keyed after) :
    pool.all.Perm (entry :: after.all) := by
  have gone : entry ∉ after.all := by
    rw [keyedAfter.mem_all, removed.cleared]
    simp
  rw [perm_ext_iff_of_nodup keyed.nodup_all (nodup_cons.mpr ⟨gone, keyedAfter.nodup_all⟩)]
  intro other
  rw [mem_cons, keyed.mem_all, keyedAfter.mem_all, removed.cleared]
  constructor
  · intro found
    by_cases same : other.sender = entry.sender ∧ other.nonce = entry.nonce
    · rw [same.1, same.2, removed.found] at found
      exact .inl (Option.some.inj found).symm
    · rw [if_neg same]
      exact .inr found
  · rintro (rfl | found)
    · exact removed.found
    · split at found
      · cases found
      · exact found

section Remove

variable {pool : LanePool} {entry : EvmPoolEntry}

theorem lookup_withoutTx {sender other : Address} {nonce : Nat} :
    (pool.withoutTx sender txs nonce).lookup other =
      if other = sender then
        if (txs.erase nonce).entries.isEmpty then none else some (txs.erase nonce)
      else pool.bySender.lookup other := by
  rw [withoutTx]
  by_cases same : other = sender
  · subst same
    split <;> simp [*]
  · split <;> simp [same, AList.lookup_erase_ne, AList.lookup_insert_ne]

theorem lookup_of_isEmpty (empty : txs.entries.isEmpty = true) (nonce : Nat) :
    txs.lookup nonce = none := by
  cases found : txs.lookup nonce with
  | none => rfl
  | some entry =>
    have member := lookup_eq_some.mp found
    rw [List.isEmpty_iff.mp empty] at member
    cases member

theorem Sound.remove (sound : Sound pool) {sender : Address} {nonce : Nat} {txs : SenderTxs}
    (isTxs : pool.bySender.lookup sender = some txs) (isEntry : txs.lookup nonce = some entry)
    {after : LanePool} (cleared : ∀ other place, after.queue other place =
      if other = sender ∧ place = nonce then none else pool.queue other place)
    (inhabited : ∀ other left, after.bySender.lookup other = some left → left.entries ≠ [])
    (byHash : after.byHash = pool.byHash.erase entry.hash)
    (byPrice : after.byPrice = pool.byPrice.erase (.new entry pool.baseFee))
    (size : after.size = pool.size - 1) (fee : after.baseFee = pool.baseFee) :
    Sound after ∧ Removed pool after entry := by
  have found : pool.queue sender nonce = some entry := by rw [queue, isTxs]; exact isEntry
  obtain ⟨rfl, rfl⟩ := sound.placed sender nonce entry found
  have removed : Removed pool after entry := ⟨found, cleared, fee⟩
  have keyed : Keyed after := by
    refine ⟨?_, inhabited⟩
    intro other place kept isKept
    rw [cleared] at isKept
    split at isKept
    · cases isKept
    · exact sound.placed other place kept isKept
  refine ⟨⟨keyed, ?_, ?_, ?_, ?_⟩, removed⟩
  · intro hash place
    rw [byHash]
    by_cases same : hash = entry.hash
    · subst same
      rw [AList.lookup_erase]
      simp only [reduceCtorEq, false_iff]
      rintro ⟨kept, isKept, isHash⟩
      rw [cleared] at isKept
      split at isKept
      · cases isKept
      · rename_i different
        exact different (sound.place_of_hash found isKept isHash)
    · rw [AList.lookup_erase_ne same, sound.hashes]
      constructor
      · rintro ⟨kept, isKept, rfl⟩
        refine ⟨kept, ?_, rfl⟩
        rw [cleared, if_neg, isKept]
        rintro ⟨isSender, isNonce⟩
        rw [isSender, isNonce, found] at isKept
        exact same (congrArg EvmPoolEntry.hash (Option.some.inj isKept)).symm
      · rintro ⟨kept, isKept, rfl⟩
        rw [cleared] at isKept
        split at isKept
        · cases isKept
        · exact ⟨kept, isKept, rfl⟩
  · intro key
    rw [byPrice, sound.once.mem_erase_iff, sound.prices, fee]
    constructor
    · rintro ⟨different, other, place, kept, isKept, rfl⟩
      refine ⟨other, place, kept, ?_, rfl⟩
      rw [cleared, if_neg, isKept]
      rintro ⟨isSender, isNonce⟩
      rw [isSender, isNonce, found] at isKept
      exact different (by rw [Option.some.inj isKept])
    · rintro ⟨other, place, kept, isKept, rfl⟩
      rw [cleared] at isKept
      split at isKept
      · cases isKept
      · rename_i different
        refine ⟨?_, other, place, kept, isKept, rfl⟩
        intro same
        exact different (sound.place_of_hash found isKept (congrArg TxPriority.hash same))
  · rw [byPrice]
    exact sound.once.erase _
  · have length := (removed.perm sound.toKeyed keyed).length_eq
    rw [length_cons] at length
    rw [size, sound.counted]
    omega

theorem Sound.removeByHash (sound : Sound pool) (hash : B256) :
    (pool.removeByHash hash = (none, pool) ∧ ∀ entry ∈ pool.all, entry.hash ≠ hash) ∨
      ∃ entry after, pool.removeByHash hash = (some entry, after) ∧ entry.hash = hash ∧
        Sound after ∧ Removed pool after entry := by
  rw [LanePool.removeByHash]
  cases isPlace : pool.byHash.lookup hash with
  | none =>
    refine .inl ⟨rfl, ?_⟩
    intro entry member same
    have found := (sound.hashes hash (entry.sender, entry.nonce)).mpr
      ⟨entry, sound.mem_all.mp member, same⟩
    rw [isPlace] at found
    cases found
  | some place =>
    obtain ⟨entry, found, isHash⟩ := (sound.hashes hash place).mp isPlace
    obtain ⟨txs, isTxs, isEntry⟩ := Option.bind_eq_some_iff.mp found
    right
    simp only [isTxs, isEntry]
    refine ⟨entry, _, rfl, isHash, ?_⟩
    apply sound.remove isTxs isEntry
    · intro other nonce
      simp only [queue]
      rw [lookup_withoutTx]
      by_cases same : other = place.1
      · rw [same, if_pos rfl, isTxs]
        by_cases empty : (txs.erase place.2).entries.isEmpty
        · have none' := lookup_of_isEmpty empty nonce
          rw [lookup_erase] at none'
          rw [if_pos empty]
          by_cases here : nonce = place.2
          · simp [here]
          · rw [if_neg here] at none'
            simp [here, none']
        · rw [if_neg empty, Option.bind_some, lookup_erase]
          by_cases here : nonce = place.2 <;> simp [here]
      · simp [same]
    · intro other left isLeft
      rw [lookup_withoutTx] at isLeft
      split at isLeft
      · split at isLeft
        · cases isLeft
        · rename_i some'
          cases isLeft
          simpa using some'
      · exact sound.inhabited other left isLeft
    · rw [isHash]
    · rfl
    · rfl
    · rfl

end Remove

section Insert

variable {pool : LanePool} {entry : EvmPoolEntry}

theorem Sound.contains_iff (sound : Sound pool) {hash : B256} :
    pool.contains hash = true ↔ ∃ entry ∈ pool.all, entry.hash = hash := by
  rw [contains, Option.isSome_iff_exists]
  constructor
  · rintro ⟨place, found⟩
    obtain ⟨entry, isEntry, isHash⟩ := (sound.hashes hash place).mp found
    exact ⟨entry, mem_all.mpr ⟨_, _, isEntry⟩, isHash⟩
  · rintro ⟨entry, member, isHash⟩
    exact ⟨_, (sound.hashes hash (entry.sender, entry.nonce)).mpr
      ⟨entry, sound.mem_all.mp member, isHash⟩⟩

theorem Sound.add (sound : Sound pool) (free : pool.queue entry.sender entry.nonce = none)
    (fresh : pool.contains entry.hash = false) {after : LanePool}
    (placed : ∀ other place, after.queue other place =
      if other = entry.sender ∧ place = entry.nonce then some entry else pool.queue other place)
    (inhabited : ∀ other left, after.bySender.lookup other = some left → left.entries ≠ [])
    (byHash : after.byHash = pool.byHash.insert entry.hash (entry.sender, entry.nonce))
    (byPrice : after.byPrice = pool.byPrice.insert (.new entry pool.baseFee))
    (size : after.size = pool.size + 1) (fee : after.baseFee = pool.baseFee) :
    Sound after ∧ Removed after pool entry := by
  have unknown : ∀ other place kept, pool.queue other place = some kept →
      kept.hash ≠ entry.hash := by
    intro other place kept isKept same
    have known := sound.contains_iff.mpr ⟨kept, mem_all.mpr ⟨other, place, isKept⟩, same⟩
    rw [fresh] at known
    cases known
  have removed : Removed after pool entry := by
    refine ⟨by rw [placed, if_pos ⟨rfl, rfl⟩], ?_, fee.symm⟩
    intro other place
    rw [placed]
    split
    · rename_i same
      rw [same.1, same.2, free]
    · rfl
  have keyed : Keyed after := by
    refine ⟨?_, inhabited⟩
    intro other place kept isKept
    rw [placed] at isKept
    split at isKept
    · rename_i same
      cases isKept
      exact ⟨same.1.symm, same.2.symm⟩
    · exact sound.placed other place kept isKept
  refine ⟨⟨keyed, ?_, ?_, ?_, ?_⟩, removed⟩
  · intro hash place
    rw [byHash]
    by_cases same : hash = entry.hash
    · subst same
      rw [AList.lookup_insert]
      constructor
      · rintro ⟨⟩
        exact ⟨entry, by rw [placed, if_pos ⟨rfl, rfl⟩], rfl⟩
      · rintro ⟨kept, isKept, isHash⟩
        rw [placed] at isKept
        split at isKept
        · rename_i here
          rw [← here.1, ← here.2]
        · exact absurd isHash (unknown _ _ kept isKept)
    · rw [AList.lookup_insert_ne same, sound.hashes]
      constructor
      · rintro ⟨kept, isKept, rfl⟩
        refine ⟨kept, ?_, rfl⟩
        rw [placed, if_neg, isKept]
        rintro ⟨isSender, isNonce⟩
        rw [isSender, isNonce, free] at isKept
        cases isKept
      · rintro ⟨kept, isKept, rfl⟩
        rw [placed] at isKept
        split at isKept
        · cases isKept
          exact absurd rfl same
        · exact ⟨kept, isKept, rfl⟩
  · intro key
    rw [byPrice, mem_insert_iff, sound.prices, fee]
    constructor
    · rintro (rfl | ⟨other, place, kept, isKept, rfl⟩)
      · exact ⟨_, _, entry, removed.found, rfl⟩
      · refine ⟨other, place, kept, ?_, rfl⟩
        rw [placed, if_neg, isKept]
        rintro ⟨isSender, isNonce⟩
        rw [isSender, isNonce, free] at isKept
        cases isKept
    · rintro ⟨other, place, kept, isKept, rfl⟩
      rw [placed] at isKept
      split at isKept
      · cases isKept
        exact .inl rfl
      · exact .inr ⟨other, place, kept, isKept, rfl⟩
  · rw [byPrice]
    exact sound.once.insert
  · have length := (removed.perm keyed sound.toKeyed).length_eq
    rw [length_cons] at length
    rw [size, sound.counted]
    omega

theorem insertEntry_ne_nil {nonce : Nat} : (txs.insert nonce entry).entries ≠ [] := by
  have found : (txs.insert nonce entry).lookup nonce = some entry := by
    rw [lookup_insert, if_pos rfl]
  exact ne_nil_of_mem (lookup_eq_some.mp found)

theorem queue_insertAll {other : Address} {place : Nat} : (pool.insertAll entry).queue other place =
    if other = entry.sender ∧ place = entry.nonce then some entry else pool.queue other place := by
  simp only [queue, insertAll]
  by_cases same : other = entry.sender
  · subst same
    rw [AList.lookup_insert, Option.bind_some, lookup_insert]
    cases pool.bySender.lookup entry.sender with
    | none =>
      have nothing : ({} : SenderTxs).lookup place = none := rfl
      by_cases here : place = entry.nonce <;> simp [here, nothing]
    | some txs => by_cases here : place = entry.nonce <;> simp [here]
  · rw [AList.lookup_insert_ne same]
    simp [same]

theorem inhabited_insertAll (inhabited : ∀ other left,
      pool.bySender.lookup other = some left → left.entries ≠ []) :
    ∀ other left, (pool.insertAll entry).bySender.lookup other = some left → left.entries ≠ [] := by
  intro other left found
  simp only [insertAll] at found
  by_cases same : other = entry.sender
  · subst same
    rw [AList.lookup_insert] at found
    cases found
    exact insertEntry_ne_nil
  · rw [AList.lookup_insert_ne same] at found
    exact inhabited other left found

theorem Sound.insertAll (sound : Sound pool) (free : pool.queue entry.sender entry.nonce = none)
    (fresh : pool.contains entry.hash = false) :
    Sound (pool.insertAll entry) ∧ Removed (pool.insertAll entry) pool entry :=
  sound.add free fresh (fun _ _ => queue_insertAll) (inhabited_insertAll sound.inhabited) rfl rfl
    rfl rfl

theorem Sound.replace (sound : Sound pool) {existing : EvmPoolEntry}
    (taken : pool.queue entry.sender entry.nonce = some existing)
    (fresh : pool.contains entry.hash = false) :
    ∃ middle, Sound middle ∧ Removed pool middle existing ∧
      Sound ((pool.unindex existing).insertAll entry) ∧
      Removed ((pool.unindex existing).insertAll entry) middle entry := by
  obtain ⟨isSender, isNonce⟩ := sound.placed _ _ existing taken
  have pooled : existing ∈ pool.all := mem_all.mpr ⟨_, _, taken⟩
  rcases sound.removeByHash existing.hash with ⟨-, absent⟩ |
    ⟨removed, middle, ran, isHash, middleSound, without⟩
  · exact absurd rfl (absent existing pooled)
  obtain rfl : removed = existing :=
    sound.eq_of_hash pooled (sound.mem_all.mpr without.found) isHash
  -- The removal leaves the indexes as `unindex` does; the queue it clears is filled again.
  obtain ⟨txs, isTxs, isEntry⟩ := Option.bind_eq_some_iff.mp taken
  have shape : middle.byHash = pool.byHash.erase removed.hash ∧
      middle.byPrice = pool.byPrice.erase (.new removed pool.baseFee) ∧
      middle.size = pool.size - 1 ∧ middle.baseFee = pool.baseFee := by
    have place : pool.byHash.lookup removed.hash = some (entry.sender, entry.nonce) :=
      (sound.hashes _ (entry.sender, entry.nonce)).mpr ⟨removed, taken, rfl⟩
    simp only [LanePool.removeByHash, place, isTxs, isEntry, Prod.mk.injEq] at ran
    obtain ⟨-, rfl⟩ := ran
    exact ⟨rfl, rfl, rfl, rfl⟩
  obtain ⟨byHash, byPrice, size, fee⟩ := shape
  have freshMiddle : middle.contains entry.hash = false := by
    rw [Bool.eq_false_iff]
    intro known
    obtain ⟨kept, member, isKept⟩ := middleSound.contains_iff.mp known
    have inPool : kept ∈ pool.all := by
      rw [(without.perm sound.toKeyed middleSound.toKeyed).mem_iff]
      exact mem_cons_of_mem _ member
    have again := sound.contains_iff.mpr ⟨kept, inPool, isKept⟩
    rw [fresh] at again
    cases again
  refine ⟨middle, middleSound, without, ?_⟩
  apply middleSound.add
  · rw [without.cleared, if_pos ⟨isSender.symm, isNonce.symm⟩]
  · exact freshMiddle
  · intro other place
    rw [queue_insertAll, without.cleared, isSender, isNonce]
    split
    · rfl
    · rfl
  · exact inhabited_insertAll sound.inhabited
  · rw [byHash]
    rfl
  · rw [byPrice, fee]
    rfl
  · rw [size]
    rfl
  · rw [fee]
    rfl

end Insert

def rawBytes (entries : List EvmPoolEntry) : Nat := (entries.map fun entry => entry.rawRlp.length).sum

@[simp] theorem rawBytes_nil : rawBytes [] = 0 := rfl

@[simp] theorem rawBytes_cons (entry : EvmPoolEntry) (entries : List EvmPoolEntry) :
    rawBytes (entry :: entries) = entry.rawRlp.length + rawBytes entries := by
  simp [rawBytes]

@[simp] theorem rawBytes_append (first second : List EvmPoolEntry) :
    rawBytes (first ++ second) = rawBytes first + rawBytes second := by
  simp [rawBytes]

theorem rawBytes_perm {first second : List EvmPoolEntry} (same : first.Perm second) :
    rawBytes first = rawBytes second :=
  (same.map _).sum_eq

/-- Exactly these entries left. -/
structure Shrunk (pool after : LanePool) (gone : List EvmPoolEntry) : Prop where
  sound : Sound after
  perm : pool.all.Perm (gone ++ after.all)
  fee : after.baseFee = pool.baseFee

namespace Shrunk

variable {pool middle after : LanePool} {gone more : List EvmPoolEntry} {entry : EvmPoolEntry}

theorem refl (sound : Sound pool) : Shrunk pool pool [] where
  sound := sound
  perm := List.Perm.refl _
  fee := rfl

theorem of_removed (sound : Sound pool) (soundAfter : Sound after)
    (removed : Removed pool after entry) : Shrunk pool after [entry] where
  sound := soundAfter
  perm := removed.perm sound.toKeyed soundAfter.toKeyed
  fee := removed.fee

theorem trans (first : Shrunk pool middle gone) (second : Shrunk middle after more) :
    Shrunk pool after (gone ++ more) where
  sound := second.sound
  perm := by
    rw [append_assoc]
    exact first.perm.trans (second.perm.append_left gone)
  fee := second.fee.trans first.fee

theorem mem (shrunk : Shrunk pool after gone) (member : entry ∈ after.all) : entry ∈ pool.all :=
  shrunk.perm.mem_iff.mpr (mem_append_right _ member)

end Shrunk

section Hashes

variable {pool : LanePool}

theorem removeHashes_loop (hashes : List B256) (freed : Nat) (sound : Sound pool) :
    ∃ gone after, hashes.foldl removeNext (freed, pool) = (freed + rawBytes gone, after) ∧
      Shrunk pool after gone := by
  induction hashes generalizing freed pool with
  | nil => exact ⟨[], pool, rfl, .refl sound⟩
  | cons hash hashes ih =>
    rw [foldl_cons]
    rcases sound.removeByHash hash with ⟨ran, -⟩ | ⟨entry, middle, ran, -, soundMiddle, removed⟩
    · have step : removeNext (freed, pool) hash = (freed, pool) := by
        rw [removeNext, ran]
        rfl
      rw [step]
      exact ih freed sound
    · have step : removeNext (freed, pool) hash = (freed + entry.rawRlp.length, middle) := by
        rw [removeNext, ran]
        rfl
      rw [step]
      obtain ⟨gone, after, rest, shrunk⟩ := ih (freed + entry.rawRlp.length) soundMiddle
      refine ⟨entry :: gone, after, ?_, (Shrunk.of_removed sound soundMiddle removed).trans shrunk⟩
      rw [rest, rawBytes_cons, Nat.add_assoc]

theorem Sound.removeHashes (sound : Sound pool) (hashes : List B256) :
    ∃ gone after, pool.removeHashes hashes = (rawBytes gone, after) ∧ Shrunk pool after gone := by
  obtain ⟨gone, after, ran, shrunk⟩ := removeHashes_loop hashes 0 sound
  refine ⟨gone, after, ?_, shrunk⟩
  rw [Nat.zero_add] at ran
  exact ran

theorem removeHashes_selected {selected : List EvmPoolEntry} (freed : Nat) (sound : Sound pool)
    (pooled : ∀ entry ∈ selected, entry ∈ pool.all) (distinct : selected.Nodup) :
    ∃ after, (selected.map EvmPoolEntry.hash).foldl removeNext (freed, pool) =
        (freed + rawBytes selected, after) ∧ Shrunk pool after selected := by
  induction selected generalizing freed pool with
  | nil => exact ⟨pool, rfl, .refl sound⟩
  | cons first selected ih =>
    rw [map_cons, foldl_cons]
    have inPool := pooled first mem_cons_self
    rcases sound.removeByHash first.hash with ⟨-, absent⟩ |
      ⟨entry, middle, ran, isHash, soundMiddle, removed⟩
    · exact absurd rfl (absent first inPool)
    · obtain rfl : entry = first :=
        sound.eq_of_hash inPool (sound.mem_all.mpr removed.found) isHash
      have shrunk := Shrunk.of_removed sound soundMiddle removed
      have left : ∀ other ∈ selected, other ∈ middle.all := by
        intro other member
        have inAll := pooled other (mem_cons_of_mem _ member)
        rw [shrunk.perm.mem_iff] at inAll
        rcases mem_cons.mp inAll with same | inMiddle
        · exact absurd (same ▸ member) (nodup_cons.mp distinct).1
        · exact inMiddle
      have step : removeNext (freed, pool) entry.hash = (freed + entry.rawRlp.length, middle) := by
        rw [removeNext, ran]
        rfl
      rw [step]
      obtain ⟨after, rest, shrunkRest⟩ :=
        ih (freed + entry.rawRlp.length) soundMiddle left (nodup_cons.mp distinct).2
      refine ⟨after, ?_, shrunk.trans shrunkRest⟩
      rw [rest, rawBytes_cons, Nat.add_assoc]

theorem Sound.evictGasAbove (sound : Sound pool) (maxGas : U64) :
    ∃ gone after, pool.evictGasAbove maxGas = (rawBytes gone, after) ∧ Shrunk pool after gone :=
  sound.removeHashes _

end Hashes

section Fee

variable {pool : LanePool}

theorem all_setBaseFee (baseFee : U64) : (pool.setBaseFee baseFee).all = pool.all := by
  rw [setBaseFee]
  split <;> rfl

theorem Sound.setBaseFee (sound : Sound pool) (baseFee : U64) : Sound
    (pool.setBaseFee baseFee) := by
  rw [LanePool.setBaseFee]
  split
  · exact sound
  · refine ⟨⟨sound.placed, sound.inhabited⟩, sound.hashes, ?_, nodup_dedup _, sound.counted⟩
    intro key
    rw [mem_dedup, mem_map]
    constructor
    · rintro ⟨entry, member, rfl⟩
      obtain ⟨sender, nonce, found⟩ := mem_all.mp member
      exact ⟨sender, nonce, entry, found, rfl⟩
    · rintro ⟨sender, nonce, entry, found, rfl⟩
      exact ⟨entry, mem_all.mpr ⟨sender, nonce, found⟩, rfl⟩

theorem sound_empty (baseFee : Nat) : Sound { baseFee := baseFee } where
  placed _ _ _ found := by cases found
  inhabited _ _ found := by cases found
  hashes hash place := by
    constructor
    · intro found
      cases found
    · rintro ⟨entry, found, -⟩
      cases found
  prices key := by
    constructor
    · intro member
      cases member
    · rintro ⟨sender, nonce, entry, found, -⟩
      cases found
  once := nodup_nil
  counted := rfl

theorem takeAll_shrunk (pool : LanePool) :
    pool.takeAll.1 = pool.all.map EvmPoolEntry.rawRlp ∧ Shrunk pool pool.takeAll.2 pool.all := by
  refine ⟨rfl, ⟨sound_empty pool.baseFee, ?_, rfl⟩⟩
  have nothing : pool.takeAll.2.all = [] := rfl
  rw [nothing, append_nil]

end Fee

section Prune

variable {pool : LanePool} {sender : Address}

theorem dropEmpty_of_some (found : pool.bySender.lookup sender = some txs)
    (some' : txs.entries ≠ []) : pool.dropEmpty sender = pool := by
  simp [dropEmpty, found, some']

theorem lookup_dropEmpty {other : Address} : (pool.dropEmpty sender).bySender.lookup other =
    (pool.bySender.lookup other).filter fun txs => other ≠ sender || !txs.entries.isEmpty := by
  rw [dropEmpty]
  by_cases same : other = sender
  · subst same
    cases found : pool.bySender.lookup other with
    | none => simp
    | some txs => by_cases empty : txs.entries.isEmpty <;> simp [Option.filter, empty, found]
  · have kept : (pool.bySender.lookup other).filter
        (fun txs => other ≠ sender || !txs.entries.isEmpty) = pool.bySender.lookup other := by
      cases pool.bySender.lookup other <;> simp [Option.filter, same]
    rw [kept]
    split
    · exact AList.lookup_erase_ne same
    · rfl

theorem queue_dropEmpty {other : Address} {nonce : Nat} :
    (pool.dropEmpty sender).queue other nonce = pool.queue other nonce := by
  rw [queue, queue, lookup_dropEmpty]
  cases pool.bySender.lookup other with
  | none => rfl
  | some txs =>
    by_cases empty : txs.entries.isEmpty
    · have nothing := lookup_of_isEmpty empty nonce
      by_cases same : other = sender <;> simp [Option.filter, same, empty, nothing]
    · simp [Option.filter, empty]

theorem dropEmpty_fields : (pool.dropEmpty sender).byHash = pool.byHash ∧
    (pool.dropEmpty sender).byPrice = pool.byPrice ∧ (pool.dropEmpty sender).size = pool.size ∧
    (pool.dropEmpty sender).baseFee = pool.baseFee := by
  rw [dropEmpty]
  split <;> exact ⟨rfl, rfl, rfl, rfl⟩

theorem pruneTx_shrunk (sound : Sound (pool.dropEmpty sender)) (nonce : Nat) :
    ∃ gone after, pool.pruneTx sender nonce = (rawBytes gone, after) ∧
      Shrunk (pool.dropEmpty sender) (after.dropEmpty sender) gone := by
  rw [pruneTx]
  cases isTxs : pool.bySender.lookup sender with
  | none => exact ⟨[], pool, rfl, .refl sound⟩
  | some txs =>
    cases isEntry : txs.lookup nonce with
    | none => exact ⟨[], pool, by simp [isEntry], .refl sound⟩
    | some entry =>
      have some' : txs.entries ≠ [] :=
        ne_nil_of_mem (lookup_eq_some.mp isEntry)
      rw [dropEmpty_of_some isTxs some'] at sound ⊢
      simp only [isEntry]
      refine ⟨[entry], _, rfl, ?_⟩
      generalize isPruned : ({ pool with
        bySender := pool.bySender.insert sender (txs.erase nonce)
        byHash := pool.byHash.erase entry.hash
        byPrice := pool.byPrice.erase (.new entry pool.baseFee)
        size := pool.size - 1 } : LanePool) = pruned
      obtain ⟨byHash, byPrice, size, fee⟩ := @dropEmpty_fields pruned sender
      rw [← isPruned] at byHash byPrice size fee
      have both : Sound (pruned.dropEmpty sender) ∧
          Removed pool (pruned.dropEmpty sender) entry := by
        rw [← isPruned]
        apply sound.remove isTxs isEntry _ _ byHash byPrice size fee
        · intro other place
          rw [queue_dropEmpty]
          simp only [queue]
          by_cases same : other = sender
          · subst same
            rw [AList.lookup_insert, Option.bind_some, lookup_erase, isTxs]
            by_cases here : place = nonce <;> simp [here]
          · rw [AList.lookup_insert_ne same]
            simp [same]
        · intro other left found
          rw [lookup_dropEmpty, Option.filter_eq_some_iff] at found
          obtain ⟨isLeft, nonempty⟩ := found
          by_cases same : other = sender
          · simpa [same] using nonempty
          · rw [AList.lookup_insert_ne same] at isLeft
            exact sound.inhabited other left isLeft
      exact .of_removed sound both.1 both.2

theorem pruneNext_shrunk (nonces : List Nat) (freed : Nat) (sound : Sound (pool.dropEmpty sender)) :
    ∃ gone after, nonces.foldl (pruneNext sender) (freed, pool) = (freed + rawBytes gone, after) ∧
      Shrunk (pool.dropEmpty sender) (after.dropEmpty sender) gone := by
  induction nonces generalizing freed pool with
  | nil => exact ⟨[], pool, rfl, .refl sound⟩
  | cons nonce nonces ih =>
    obtain ⟨first, middle, ran, shrunk⟩ := pruneTx_shrunk sound nonce
    obtain ⟨gone, after, rest, shrunkRest⟩ := ih (freed + rawBytes first) shrunk.sound
    refine ⟨first ++ gone, after, ?_, shrunk.trans shrunkRest⟩
    rw [foldl_cons, pruneNext, ran, rawBytes_append, ← Nat.add_assoc]
    exact rest

theorem Sound.pruneConfirmed (sound : Sound pool) (sender : Address) (confirmedNonce : Nat) :
    ∃ gone after, pool.pruneConfirmed sender confirmedNonce = (rawBytes gone, after) ∧
      Shrunk pool after gone := by
  rw [LanePool.pruneConfirmed]
  cases isTxs : pool.bySender.lookup sender with
  | none => exact ⟨[], pool, rfl, .refl sound⟩
  | some txs =>
    have tidy := dropEmpty_of_some isTxs (sound.inhabited sender txs isTxs)
    have start : Sound (pool.dropEmpty sender) := by rwa [tidy]
    obtain ⟨gone, after, ran, shrunk⟩ := pruneNext_shrunk
      ((txs.entries.filter fun row => row.1 < confirmedNonce).map Prod.fst) 0 start
    rw [tidy] at shrunk
    rw [Nat.zero_add] at ran
    refine ⟨gone, after.dropEmpty sender, ?_, shrunk⟩
    simp only [ran]

end Prune

end LanePool

end TorusHyperBft.Mempool
