import TorusHyperBft.Mempool.PoolSound

namespace TorusHyperBft.Mempool

open List
open Signing (Address)

/-! What an insertion into a lane may push out, and that a returning transaction finds room. -/

namespace LanePool

section Sharing

variable {limits : PoolLimits} {pool other : LanePool} {entry : EvmPoolEntry} {inserted : Inserted}

def tipIn (pool : LanePool) (entry : EvmPoolEntry) : Int :=
  effectiveTip entry.maxFeePerGas entry.maxPriorityFee pool.baseFee

theorem Sound.lowest (sound : Sound pool) {key : TxPriority} (isLowest : pool.lowest = some key) :
    ∃ entry after, pool.removeByHash key.hash = (some entry, after) ∧ key.tip = pool.tipIn entry ∧
      Sound after ∧ Removed pool after entry := by
  obtain ⟨sender, nonce, entry, found, rfl⟩ := (sound.prices key).mp (argmin_mem isLowest)
  have pooled : entry ∈ pool.all := mem_all.mpr ⟨sender, nonce, found⟩
  rcases sound.removeByHash entry.hash with ⟨-, absent⟩ |
    ⟨removed, after, ran, isHash, soundAfter, without⟩
  · exact absurd rfl (absent entry pooled)
  · obtain rfl := sound.eq_of_hash pooled (sound.mem_all.mpr without.found) isHash
    exact ⟨removed, after, ran, rfl, soundAfter, without⟩

/-- The sender may have one more. -/
def Room (limits : PoolLimits) (pool : LanePool) (sender : Address) : Prop :=
  pool.ownCount sender = 0 ∨ pool.ownCount sender < limits.maxPerSender

theorem Keyed.room (keyed : Keyed pool) {sender : Address}
    (allowed : ¬ ((pool.bySender.lookup sender).any fun txs =>
      limits.maxPerSender ≤ txs.entries.length) = true) : Room limits pool sender := by
  cases found : pool.bySender.lookup sender with
  | none =>
    left
    rw [ownCount, countP_eq_zero]
    intro entry member
    have absent : pool.hasSender sender = false := by rw [hasSender, found]; rfl
    intro same
    have present := keyed.hasSender_iff.mpr ⟨entry, member, of_decide_eq_true same⟩
    rw [absent] at present
    cases present
  | some txs =>
    right
    rw [keyed.ownCount_eq found]
    simpa [found] using allowed

/-- Why an insertion was allowed, and what left a pool for it. -/
inductive Allowed (limits : PoolLimits) (pool other : LanePool) (entry : EvmPoolEntry) :
    List EvmPoolEntry → List EvmPoolEntry → Prop where
  | replaces {existing : EvmPoolEntry} :
      pool.queue entry.sender entry.nonce = some existing →
      Allowed limits pool other entry [existing] []
  | fits : pool.queue entry.sender entry.nonce = none → Room limits pool entry.sender →
      pool.size + other.size < limits.maxPoolSize → Allowed limits pool other entry [] []
  | outbids {lowest : EvmPoolEntry} :
      pool.queue entry.sender entry.nonce = none → Room limits pool entry.sender →
      limits.maxPoolSize ≤ pool.size + other.size →
      pool.tipIn lowest < pool.tipIn entry → Allowed limits pool other entry [lowest] []
  | outbidsOther {lowest : EvmPoolEntry} :
      pool.queue entry.sender entry.nonce = none → Room limits pool entry.sender →
      limits.maxPoolSize ≤ pool.size + other.size →
      other.tipIn lowest < pool.tipIn entry → Allowed limits pool other entry [] [lowest]

/-- An insertion: some transactions leave, then the new one is added. -/
structure Grown (pool other : LanePool) (entry : EvmPoolEntry) (inserted : Inserted)
    (gone goneOther : List EvmPoolEntry) : Prop where
  sound : Sound inserted.pool
  added : ∃ middle, Shrunk pool middle gone ∧ Removed inserted.pool middle entry
  other : Shrunk other inserted.other goneOther
  fresh : pool.contains entry.hash = false

theorem contains_shrunk {after : LanePool} {gone : List EvmPoolEntry} (sound : Sound pool)
    (shrunk : Shrunk pool after gone) {hash : B256} (fresh : pool.contains hash = false) :
    after.contains hash = false := by
  rw [Bool.eq_false_iff]
  intro known
  obtain ⟨kept, member, isKept⟩ := shrunk.sound.contains_iff.mp known
  have again := sound.contains_iff.mpr ⟨kept, shrunk.mem member, isKept⟩
  rw [fresh] at again
  cases again

theorem evictionKey_cases {key : TxPriority} {inOther : Bool}
    (found : evictionKey pool other = some (key, inOther)) :
    (inOther = true ∧ other.lowest = some key) ∨ (inOther = false ∧ pool.lowest = some key) := by
  rw [evictionKey] at found
  split at found
  · rename_i own theirs isOwn isTheirs
    split at found
    · cases found
      exact .inl ⟨rfl, isTheirs⟩
    · cases found
      exact .inr ⟨rfl, isOwn⟩
  · rename_i own isOwn isTheirs
    cases found
    exact .inr ⟨rfl, isOwn⟩
  · rename_i theirs isOwn isTheirs
    cases found
    exact .inl ⟨rfl, isTheirs⟩
  · cases found

theorem insertSharing_grown (sound : Sound pool) (soundOther : Sound other)
    (ran : insertSharing limits pool other entry = .ok inserted) :
    ∃ gone goneOther, Allowed limits pool other entry gone goneOther ∧
      Grown pool other entry inserted gone goneOther ∧
      inserted.freedBytes = rawBytes gone + rawBytes goneOther := by
  rw [insertSharing] at ran
  split at ran
  · cases ran
  rename_i known
  have fresh : pool.contains entry.hash = false := by simpa using known
  cases taken : pool.queue entry.sender entry.nonce with
  | some existing =>
    simp only [taken] at ran
    split at ran
    · cases ran
    cases ran
    obtain ⟨middle, soundMiddle, without, soundAfter, added⟩ := sound.replace taken fresh
    refine ⟨[existing], [], .replaces taken, ⟨soundAfter, ?_, .refl soundOther, fresh⟩, by simp⟩
    exact ⟨middle, .of_removed sound soundMiddle without, added⟩
  | none =>
    simp only [taken] at ran
    split at ran
    · cases ran
    rename_i allowed
    have room := @Keyed.room limits pool sound.toKeyed entry.sender allowed
    split at ran
    case isTrue small =>
      cases ran
      obtain ⟨soundAfter, added⟩ := sound.insertAll taken fresh
      exact ⟨[], [], .fits taken room small, ⟨soundAfter, ⟨pool, .refl sound, added⟩,
        .refl soundOther, fresh⟩, rfl⟩
    case isFalse full =>
      split at ran
      case h_1 => cases ran
      case h_2 key inOther isKey =>
        split at ran
        · cases ran
        rename_i outbid
        rcases evictionKey_cases isKey with ⟨rfl, isLowest⟩ | ⟨rfl, isLowest⟩
        · obtain ⟨lowest, after, removed, tip, soundAfter, without⟩ := soundOther.lowest isLowest
          simp only [removed, if_true] at ran
          cases ran
          obtain ⟨soundPool, added⟩ := sound.insertAll taken fresh
          refine ⟨[], [lowest], .outbidsOther taken room (by omega) ?_, ⟨soundPool,
            ⟨pool, .refl sound, added⟩, .of_removed soundOther soundAfter without, fresh⟩, ?_⟩
          · rw [← tip]
            exact Int.not_le.mp outbid
          · simp [lengthOf]
        · obtain ⟨lowest, after, removed, tip, soundAfter, without⟩ := sound.lowest isLowest
          simp only [removed, Bool.false_eq_true, if_false] at ran
          cases ran
          have shrunk := Shrunk.of_removed sound soundAfter without
          have free : after.queue entry.sender entry.nonce = none := by
            rw [without.cleared, taken]
            exact ite_self _
          obtain ⟨soundPool, added⟩ := soundAfter.insertAll free (contains_shrunk sound shrunk fresh)
          refine ⟨[lowest], [], .outbids taken room (by omega) ?_, ⟨soundPool,
            ⟨after, shrunk, added⟩, .refl soundOther, fresh⟩, ?_⟩
          · rw [← tip]
            exact Int.not_le.mp outbid
          · simp [lengthOf]

/-- Room is made by the sender's own last transaction, for an earlier nonce. -/
theorem makesRoom_spec (sound : Sound pool) {top : EvmPoolEntry}
    (makes : makesRoom limits pool other entry = some top) :
    top ∈ pool.all ∧ top.sender = entry.sender ∧ entry.nonce < top.nonce ∧
      (∀ kept ∈ pool.all, kept.sender = entry.sender → kept.nonce ≤ top.nonce) ∧
      pool.queue entry.sender entry.nonce = none ∧ pool.contains entry.hash = false := by
  rw [makesRoom] at makes
  obtain ⟨txs, isTxs, makes⟩ := Option.bind_eq_some_iff.mp makes
  split at makes
  case isFalse => cases makes
  case isTrue conditions =>
    simp only [Bool.and_eq_true, Bool.not_eq_true', Option.isNone_iff_eq_none] at conditions
    obtain ⟨row, isRow, rfl⟩ := Option.map_eq_some_iff.mp makes
    obtain ⟨isLast, above⟩ := Option.filter_eq_some_iff.mp isRow
    have member : row ∈ txs.entries := mem_of_getLast? isLast
    obtain ⟨isSender, isNonce⟩ := sound.row isTxs member
    refine ⟨?_, isSender, ?_, ?_, ?_, conditions.1.1⟩
    · rw [sound.mem_all, isSender, isNonce, queue, isTxs]
      exact OrderedMap.lookup_eq_some.mpr member
    · rw [isNonce]
      exact of_decide_eq_true above
    · intro kept inAll same
      rw [sound.mem_all, same, queue, isTxs] at inAll
      have inTxs := OrderedMap.lookup_eq_some.mp inAll
      obtain ⟨front, shape⟩ := List.getLast?_eq_some_iff.mp isLast
      have ascends := txs.ascends
      rw [shape] at inTxs
      rw [Ascends, shape] at ascends
      rw [isNonce]
      rcases mem_append.mp inTxs with earlier | here
      · exact Nat.le_of_lt ((pairwise_append.mp ascends).2.2 _ earlier row (by simp))
      · exact Nat.le_of_eq (congrArg Prod.fst (mem_singleton.mp here))
    · rw [queue, isTxs]
      exact conditions.2

theorem reinsertSharing_grown (sound : Sound pool) (soundOther : Sound other)
    (ran : reinsertSharing limits pool other entry = .ok inserted) :
    ∃ start first gone goneOther, Shrunk pool start first ∧
      first = (makesRoom limits pool other entry).toList ∧
      Allowed limits start other entry gone goneOther ∧
      Grown start other entry inserted gone goneOther ∧
      inserted.freedBytes = rawBytes first + (rawBytes gone + rawBytes goneOther) := by
  rw [reinsertSharing] at ran
  cases makes : makesRoom limits pool other entry with
  | none =>
    simp only [makes] at ran
    obtain ⟨gone, goneOther, allowed, grown, freed⟩ := insertSharing_grown sound soundOther ran
    exact ⟨pool, [], gone, goneOther, .refl sound, rfl, allowed, grown, by simp [freed]⟩
  | some top =>
    simp only [makes] at ran
    have pooled := (makesRoom_spec sound makes).1
    rcases sound.removeByHash top.hash with ⟨-, absent⟩ |
      ⟨removed, start, isRemoved, isHash, soundStart, without⟩
    · exact absurd rfl (absent top pooled)
    obtain rfl := sound.eq_of_hash pooled (sound.mem_all.mpr without.found) isHash
    simp only [isRemoved] at ran
    cases inner : insertSharing limits start other entry with
    | error reason => rw [inner] at ran; cases ran
    | ok result =>
      rw [inner] at ran
      cases ran
      obtain ⟨gone, goneOther, allowed, grown, freed⟩ :=
        insertSharing_grown soundStart soundOther inner
      exact ⟨start, [removed], gone, goneOther, .of_removed sound soundStart without, rfl,
        allowed, ⟨grown.sound, grown.added, grown.other, grown.fresh⟩, by simp [freed, lengthOf]⟩

theorem reinsertSharing_ok (sound : Sound pool)
    (total : pool.size + other.size ≤ limits.maxPoolSize)
    (few : pool.ownCount entry.sender ≤ max limits.maxPerSender 1)
    (free : pool.queue entry.sender entry.nonce = none) (fresh : pool.contains entry.hash = false)
    {above : EvmPoolEntry} (pooled : above ∈ pool.all) (own : above.sender = entry.sender)
    (higher : entry.nonce < above.nonce) :
    ∃ inserted start, reinsertSharing limits pool other entry = .ok inserted ∧
      Shrunk pool start (makesRoom limits pool other entry).toList ∧ inserted.other = other ∧
      Removed inserted.pool start entry := by
  have place := sound.mem_all.mp pooled
  rw [own] at place
  obtain ⟨txs, isTxs, isAbove⟩ := Option.bind_eq_some_iff.mp place
  have count := sound.ownCount_eq isTxs
  have inTxs := OrderedMap.lookup_eq_some.mp isAbove
  -- The highest nonce of the sender is above this one too.
  obtain ⟨row, isLast⟩ : ∃ row, txs.entries.getLast? = some row :=
    ⟨_, List.getLast?_eq_some_getLast (ne_nil_of_mem inTxs)⟩
  have topAbove : entry.nonce < row.1 := by
    obtain ⟨front, shape⟩ := List.getLast?_eq_some_iff.mp isLast
    have ascends := txs.ascends
    rw [shape] at inTxs
    rw [Ascends, shape] at ascends
    rcases mem_append.mp inTxs with earlier | here
    · exact higher.trans ((pairwise_append.mp ascends).2.2 _ earlier row (by simp))
    · rw [← mem_singleton.mp here]
      exact higher
  have freeTxs : txs.lookup entry.nonce = none := by
    rw [queue, isTxs] at free
    exact free
  rw [reinsertSharing]
  by_cases full : limits.maxPoolSize ≤ pool.size + other.size ∨
      limits.maxPerSender ≤ txs.entries.length
  · have makes : makesRoom limits pool other entry = some row.2 := by
      simp [makesRoom, isTxs, fresh, freeTxs, isLast, Option.filter, topAbove, full]
    have topIn := (makesRoom_spec sound makes).1
    have isOwn := (makesRoom_spec sound makes).2.1
    rcases sound.removeByHash row.2.hash with ⟨-, absent⟩ |
      ⟨removed, start, isRemoved, isHash, soundStart, without⟩
    · exact absurd rfl (absent row.2 topIn)
    obtain rfl := sound.eq_of_hash topIn (sound.mem_all.mpr without.found) isHash
    have shrunk := Shrunk.of_removed sound soundStart without
    have startFree : start.queue entry.sender entry.nonce = none := by
      rw [without.cleared, free]
      exact ite_self _
    have startSize : start.size + 1 = pool.size := by
      rw [sound.counted, soundStart.counted, shrunk.perm.length_eq]
      simp
    have startCount : start.ownCount entry.sender + 1 = pool.ownCount entry.sender := by
      rw [ownCount, ownCount, shrunk.perm.countP_eq]
      simp [isOwn, Nat.add_comm]
    have allowed : ¬ ((start.bySender.lookup entry.sender).any fun txs =>
        limits.maxPerSender ≤ txs.entries.length) = true := by
      cases found : start.bySender.lookup entry.sender with
      | none => simp
      | some left =>
        have leftCount := soundStart.ownCount_eq found
        have some' := length_pos_of_ne_nil (soundStart.inhabited _ _ found)
        simp only [Option.any_some, decide_eq_true_eq]
        omega
    obtain ⟨-, added⟩ := soundStart.insertAll startFree (contains_shrunk sound shrunk fresh)
    have inner : insertSharing limits start other entry =
        .ok { pool := start.insertAll entry, other := other } := by
      rw [insertSharing, contains_shrunk sound shrunk fresh, startFree]
      simp only [Bool.false_eq_true, if_false]
      rw [if_neg allowed, if_pos (by omega)]
    simp only [makes, isRemoved, inner]
    exact ⟨_, start, rfl, shrunk, rfl, added⟩
  · rw [not_or, Nat.not_le, Nat.not_le] at full
    have makes : makesRoom limits pool other entry = none := by
      simp [makesRoom, isTxs, fresh, freeTxs, Nat.not_le.mpr full.1, Nat.not_le.mpr full.2]
    obtain ⟨-, added⟩ := sound.insertAll free fresh
    have inner : insertSharing limits pool other entry =
        .ok { pool := pool.insertAll entry, other := other } := by
      rw [insertSharing, fresh, free]
      simp only [Bool.false_eq_true, if_false]
      rw [if_neg (by simp [isTxs, full.2]), if_pos full.1]
    simp only [makes, inner]
    exact ⟨_, pool, rfl, .refl sound, rfl, added⟩

end Sharing

end LanePool

end TorusHyperBft.Mempool
