import TorusHyperBft.Mempool.Lanes
import TorusHyperBft.Mempool.PoolSound
import TorusHyperBft.Program

namespace TorusHyperBft.Mempool

open Program

/-! Every pooled transaction declares the gas it is pooled with, and at least 21,000. -/

def evmMinTxGas : Nat := 21000

/-- The entry declares its gas, and at least the minimum. -/
structure Admitted (evm : EvmLibrary) (entry : EvmPoolEntry) : Prop where
  declared : declaredGasLimit evm entry.rawRlp = some entry.gasLimit
  gas : evmMinTxGas ≤ entry.gasLimit.val

variable {evm : EvmLibrary}

theorem Admitted.raw_pos {entry : EvmPoolEntry} (admitted : Admitted evm entry) :
    0 < entry.rawRlp.length := by
  apply List.length_pos_iff.mpr
  intro empty
  have declared := admitted.declared
  simp [declaredGasLimit, empty, evm.decode_nil] at declared

section Validate

variable {account : Signing.Address → Option (Nat × Nat)} {raw : List Byte}
  {chainId blockGasLimit baseFee : U64} {entry : EvmPoolEntry}

theorem validateEvmTx_inv
    (valid : validateEvmTx evm account raw chainId blockGasLimit baseFee = .ok entry) :
    ∃ tx, evm.decode raw = some (tx, []) ∧ executes tx.txType = true ∧
      evm.intrinsicGas tx ≤ tx.gasLimit ∧ entry.gasLimit = tx.gasLimit ∧ entry.rawRlp = raw := by
  simp only [validateEvmTx, bind_eq_ok, guard_eq_ok, decodeTxExact] at valid
  obtain ⟨tx, decoded, supported, -, -, -, covers, -, -, valid⟩ := valid
  split at decoded
  case h_2 => cases decoded
  case h_1 found isFound =>
    cases decoded
    refine ⟨tx, isFound, by simpa using supported, not_lt.mp covers, ?_⟩
    split at valid
    · cases valid
    · rw [guard_eq_ok, guard_eq_ok, guard_eq_ok] at valid
      obtain ⟨-, -, -, ⟨⟩⟩ := valid
      exact ⟨rfl, rfl⟩

theorem validateEvmTx_admitted
    (valid : validateEvmTx evm account raw chainId blockGasLimit baseFee = .ok entry) :
    Admitted evm entry := by
  obtain ⟨tx, decoded, supported, covers, isGas, isRaw⟩ := validateEvmTx_inv valid
  refine ⟨?_, isGas ▸ le_trans (evm.intrinsicGas_min tx) covers⟩
  simp only [declaredGasLimit, isRaw, decoded, isGas]
  cases kind : tx.txType <;> simp_all [executes]

end Validate

/-- Every transaction of a list could be admitted. -/
def AllAdmitted (evm : EvmLibrary) (entries : List EvmPoolEntry) : Prop :=
  ∀ entry ∈ entries, Admitted evm entry

namespace LanePool

open List

variable {pool other : LanePool} {entry kept : EvmPoolEntry} {limits : PoolLimits} {inserted : Inserted}

theorem removeByHash_subset (hash : B256) : (pool.removeByHash hash).2.all ⊆ pool.all := by
  intro kept member
  rw [mem_all] at member ⊢
  obtain ⟨sender, nonce, found⟩ := member
  refine ⟨sender, nonce, ?_⟩
  unfold removeByHash at found
  split at found
  · exact found
  · rename_i owner place isPlace
    dsimp only at found
    split at found
    · exact found
    · rename_i txs isTxs
      split at found
      · exact found
      · -- The queue of the removed transaction's sender shrinks, the others stay.
        simp only [queue, lookup_withoutTx] at found ⊢
        by_cases same : sender = owner
        · subst same
          rw [if_pos rfl] at found
          rw [isTxs]
          split at found
          · cases found
          · simp only [Option.bind_some, OrderedMap.lookup_erase] at found ⊢
            split at found
            · cases found
            · exact found
        · rwa [if_neg same] at found

theorem removeHashes_subset (hashes : List B256) : (pool.removeHashes hashes).2.all ⊆ pool.all := by
  have loop : ∀ freed, ((hashes.foldl removeNext (freed, pool)).2.all) ⊆ pool.all := by
    induction hashes generalizing pool with
    | nil => exact fun _ => Subset.refl _
    | cons hash hashes ih =>
      intro freed
      exact Subset.trans (ih _) (removeByHash_subset hash)
  exact loop 0

theorem insertAll_subset : (pool.insertAll entry).all ⊆ entry :: pool.all := by
  intro kept member
  rw [mem_all] at member
  obtain ⟨sender, nonce, found⟩ := member
  rw [queue_insertAll] at found
  split at found
  · exact mem_cons.mpr (.inl (Option.some.inj found).symm)
  · exact mem_cons_of_mem _ (mem_all.mpr ⟨sender, nonce, found⟩)

theorem insertSharing_subset (ran : insertSharing limits pool other entry = .ok inserted) :
    inserted.pool.all ⊆ entry :: pool.all ∧ inserted.other.all ⊆ other.all := by
  unfold insertSharing at ran
  split at ran
  · cases ran
  · split at ran
    · dsimp only at ran
      split at ran
      · cases ran
      · cases ran
        exact ⟨insertAll_subset, Subset.refl _⟩
    · split at ran
      · cases ran
      · split at ran
        · cases ran
          exact ⟨insertAll_subset, Subset.refl _⟩
        · split at ran
          · cases ran
          · split at ran
            · cases ran
            · split at ran
              · cases ran
                exact ⟨insertAll_subset, removeByHash_subset _⟩
              · cases ran
                exact ⟨Subset.trans insertAll_subset (cons_subset_cons _ (removeByHash_subset _)),
                  Subset.refl _⟩

theorem reinsertSharing_subset (ran : reinsertSharing limits pool other entry = .ok inserted) :
    inserted.pool.all ⊆ entry :: pool.all ∧ inserted.other.all ⊆ other.all := by
  unfold reinsertSharing at ran
  split at ran
  · exact insertSharing_subset ran
  · rename_i top makes
    dsimp only at ran
    cases inner : insertSharing limits (pool.removeByHash top.hash).2 other entry with
    | error reason => rw [inner] at ran; cases ran
    | ok result =>
      rw [inner] at ran
      cases ran
      obtain ⟨own, others⟩ := insertSharing_subset inner
      exact ⟨Subset.trans own (cons_subset_cons _ (removeByHash_subset _)), others⟩

end LanePool

namespace EvmLanes

/-- Every pooled transaction passed its admission. -/
structure Admits (evm : EvmLibrary) (lanes : EvmLanes) : Prop where
  small : AllAdmitted evm lanes.small.all
  big : AllAdmitted evm lanes.big.all

variable {lanes after : EvmLanes} {ingress : Ingress} {raw : List Byte} {reinsert : Bool}
  {entry : EvmPoolEntry}

theorem liftError_eq_ok {α : Type} {result : Except MempoolError α} {value : α} :
    liftError result = .ok value ↔ result = .ok value := by
  cases result with
  | ok found => simp [liftError]
  | error reason => simp [liftError]

theorem admitEvmTx_eq_ok : lanes.admitEvmTx evm ingress raw reinsert = .ok after ↔
    ∃ entry lane inserted, lanes.validated evm ingress raw reinsert = .ok entry ∧
      lanes.checkInFlight entry = .ok () ∧ lanes.chooseLane ingress entry reinsert = .ok lane ∧
      checkLaneCaps entry (lanes.laneCaps lane) = .ok () ∧
      lanes.insert lane entry reinsert = .ok inserted ∧
      after = { lanes.setPools lane inserted.pool inserted.other with
        memoryUsed := lanes.memoryUsed + raw.length - inserted.freedBytes } := by
  simp only [admitEvmTx, bind_eq_ok, liftError_eq_ok, pure, Except.pure, Except.ok.injEq]
  constructor
  · rintro ⟨entry, isEntry, _, flight, lane, isLane, _, caps, inserted, ran, rfl⟩
    exact ⟨entry, lane, inserted, isEntry, flight, isLane, caps, ran, rfl⟩
  · rintro ⟨entry, lane, inserted, isEntry, flight, isLane, caps, ran, rfl⟩
    exact ⟨entry, isEntry, (), flight, lane, isLane, (), caps, inserted, ran, rfl⟩

theorem validated_valid (valid : lanes.validated evm ingress raw reinsert = .ok entry) :
    validateEvmTx evm ingress.account raw lanes.config.chainId lanes.loosestCaps.maxGas
      lanes.loosestCaps.feeFloor = .ok entry := by
  rw [validated] at valid
  dsimp only at valid
  split at valid
  · cases valid
  obtain ⟨found, isFound, valid⟩ := bind_eq_ok.mp valid
  have passed : (if 0 < lanes.config.maxMemoryBytes ∧ (!reinsert) = true ∧
      lanes.config.maxMemoryBytes < lanes.memoryUsed + raw.length then
        .error (.mempool .poolFull) else .ok found) = (Except.ok entry : Except AdmitError _) := by
    split at valid
    · obtain ⟨_, -, valid⟩ := bind_eq_ok.mp valid
      exact valid
    · exact valid
  split at passed
  · cases passed
  · cases passed
    exact liftError_eq_ok.mp isFound

theorem setPools_pool (lanes : EvmLanes) (lane : EvmLane) (pool other : LanePool) :
    (lanes.setPools lane pool other).pool lane = pool ∧
      (lanes.setPools lane pool other).pool lane.other = other := by
  cases lane <;> exact ⟨rfl, rfl⟩

theorem insert_subset {lane : EvmLane} {inserted : LanePool.Inserted}
    (placed : lanes.insert lane entry reinsert = .ok inserted) :
    inserted.pool.all ⊆ entry :: (lanes.pool lane).all ∧
      inserted.other.all ⊆ (lanes.pool lane.other).all := by
  unfold insert at placed
  split at placed
  · exact LanePool.reinsertSharing_subset placed
  · exact LanePool.insertSharing_subset placed

theorem Admits.pool (admits : Admits evm lanes) (lane : EvmLane) :
    AllAdmitted evm (lanes.pool lane).all := by
  cases lane with
  | small => exact admits.small
  | big => exact admits.big

theorem Admits.admitEvmTx (admits : Admits evm lanes)
    (ran : lanes.admitEvmTx evm ingress raw reinsert = .ok after) : Admits evm after := by
  obtain ⟨entry, lane, inserted, valid, -, -, -, placed, rfl⟩ := admitEvmTx_eq_ok.mp ran
  obtain ⟨own, others⟩ := insert_subset placed
  have pooled : AllAdmitted evm inserted.pool.all := by
    intro kept member
    rcases List.mem_cons.mp (own member) with rfl | before
    · exact validateEvmTx_admitted (validated_valid valid)
    · exact admits.pool lane kept before
  have rest : AllAdmitted evm inserted.other.all := fun kept member =>
    admits.pool lane.other kept (others member)
  cases lane with
  | small => exact ⟨pooled, rest⟩
  | big => exact ⟨rest, pooled⟩

theorem Admits.reinsertEvm (admits : Admits evm lanes) (ingress : Ingress)
    (raws : List (List Byte)) : Admits evm (lanes.reinsertEvm evm ingress raws) := by
  rw [EvmLanes.reinsertEvm]
  refine List.foldlRecOn raws _ ⟨admits.small, admits.big⟩ fun lanes admits raw _ => ?_
  cases result : lanes.admitEvmTx evm ingress raw true with
  | ok after => exact admits.admitEvmTx result
  | error reason => exact admits

end EvmLanes

end TorusHyperBft.Mempool
