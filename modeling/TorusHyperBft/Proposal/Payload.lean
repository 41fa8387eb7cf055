import TorusHyperBft.Proposal.Build

namespace TorusHyperBft.Proposal

open List
open Chain (EvmHeaderValues)
open Mempool (AllAdmitted Admitted B256 DrainEntry EvmLanes EvmLibrary EvmPool EvmPoolEntry LanePool Within
  declaredGasLimit evmMinTxGas maxEvmBlockTxBytes maxEvmBigBlockTxBytes nativePoolMaxSize NativePool
  selection_within totalBytes totalGas)
open Signing (SignedNativeAction)

/-! The payload a leader selects fits the header it proposes. -/

/-- Transactions of admitted pool entries within a gas limit and a byte cap. -/
structure Carries (evm : EvmLibrary) (gasLimit : U64) (byteCap : Nat) (entries : List EvmPoolEntry) :
    Prop where
  admitted : ∀ entry ∈ entries, Admitted evm entry
  bytes : totalBytes (entries.map EvmPoolEntry.rawRlp) ≤ byteCap
  gas : gasLimit.val < 2 ^ 64 - 1 → totalGas entries ≤ gasLimit.val

variable {evm : EvmLibrary} {entries : List EvmPoolEntry} {gasLimit : U64} {byteCap : Nat}

theorem Carries.nil : Carries evm gasLimit byteCap [] where
  admitted _ member := absurd member not_mem_nil
  bytes := Nat.zero_le _
  gas _ := Nat.zero_le _

theorem Within.carries {pool : EvmPool} {budget : U64} (within : Within pool budget byteCap entries)
    (all : AllAdmitted evm pool.entries) (narrower : budget ≤ gasLimit) :
    Carries evm gasLimit byteCap entries where
  admitted entry member := all entry (within.pooled entry member)
  bytes := within.bytes
  gas small := le_trans (within.gas (lt_of_le_of_lt narrower small)) narrower

theorem foldl_saturatingAdd (values : List U64) (start : U64) :
    (values.foldl U64.saturatingAdd start).val =
      min (start.val + (values.map Fin.val).sum) (2 ^ 64 - 1) := by
  induction values generalizing start with
  | nil =>
    have below := start.isLt
    simp only [foldl_nil, map_nil, sum_nil]
    omega
  | cons value values ih =>
    rw [foldl_cons, ih, map_cons, sum_cons, U64.saturatingAdd,
      U64.ofNatSaturating_val]
    omega

variable (admitted : ∀ entry ∈ entries, Admitted evm entry)
include admitted

theorem declared_of_admitted : (entries.map EvmPoolEntry.rawRlp).filterMap (declaredGasLimit evm) =
      entries.map EvmPoolEntry.gasLimit := by
  induction entries with
  | nil => rfl
  | cons entry entries ih =>
    have first := (admitted entry mem_cons_self).declared
    have rest := ih fun other member => admitted other (mem_cons_of_mem entry member)
    simp [first, rest]

theorem declaredGas_val : (declaredGas evm (entries.map EvmPoolEntry.rawRlp)).val =
      min (totalGas entries) (2 ^ 64 - 1) := by
  rw [declaredGas, declared_of_admitted admitted, foldl_saturatingAdd]
  simp [totalGas, Function.comp_def]

theorem admitted_counts : entries.length ≤ totalBytes (entries.map EvmPoolEntry.rawRlp) ∧
      entries.length * evmMinTxGas ≤ totalGas entries := by
  induction entries with
  | nil => simp [totalBytes, totalGas]
  | cons entry entries ih =>
    have first := admitted entry mem_cons_self
    obtain ⟨bytes, gas⟩ := ih fun other member => admitted other (mem_cons_of_mem entry member)
    have nonempty := first.raw_pos
    have least := first.gas
    simp only [totalBytes, totalGas, map_cons, sum_cons, length_cons, Nat.succ_mul]
      at bytes gas ⊢
    omega

omit admitted

theorem Carries.count (carries : Carries evm gasLimit byteCap entries)
    (byteSmall : byteCap ≤ maxEvmBigBlockTxBytes) :
    entries.length ≤ gasLimit.val / evmMinTxGas ∧ entries.length < 2 ^ 32 := by
  obtain ⟨bytes, gas⟩ := admitted_counts carries.admitted
  have fits := carries.bytes
  have below := gasLimit.isLt
  simp only [maxEvmBigBlockTxBytes] at byteSmall
  refine ⟨?_, by omega⟩
  rw [Nat.le_div_iff_mul_le (by decide)]
  rcases Nat.lt_or_ge gasLimit.val (2 ^ 64 - 1) with small | full
  · exact le_trans gas (carries.gas small)
  · simp only [evmMinTxGas]
    omega

theorem Carries.declared (carries : Carries evm gasLimit byteCap entries) :
    declaredGas evm (entries.map EvmPoolEntry.rawRlp) ≤ gasLimit := by
  rw [Fin.le_def, declaredGas_val carries.admitted]
  rcases Nat.lt_or_ge gasLimit.val (2 ^ 64 - 1) with small | full
  · exact le_trans (Nat.min_le_left _ _) (carries.gas small)
  · exact le_trans (Nat.min_le_right _ _) full

theorem Carries.append {big : List EvmPoolEntry} {bigLimit : U64} {total : Nat}
    (small : Carries evm gasLimit byteCap entries)
    (rest : Carries evm bigLimit (total - totalBytes (entries.map EvmPoolEntry.rawRlp)) big)
    (room : byteCap ≤ total) :
    Carries evm (gasLimit.saturatingAdd bigLimit) total (entries ++ big) where
  admitted entry member := by
    rcases mem_append.mp member with first | second
    · exact small.admitted entry first
    · exact rest.admitted entry second
  bytes := by
    have first := small.bytes
    have second := rest.bytes
    rw [map_append, Mempool.totalBytes_append]
    omega
  gas unsaturated := by
    have sum : (gasLimit.saturatingAdd bigLimit).val = min (gasLimit.val + bigLimit.val) (2 ^ 64 - 1) :=
      rfl
    rw [sum] at unsaturated ⊢
    have first := small.gas (by omega)
    have second := rest.gas (by omega)
    rw [Mempool.totalGas_append]
    omega

section Payload

variable {κ : Type} {lib : Primitives κ} {ties : List DrainEntry → Nat} {lanes : EvmLanes}

theorem view_admitted {pool : LanePool} (all : AllAdmitted lib.evm pool.all) :
    AllAdmitted lib.evm pool.view.entries :=
  fun entry member => all entry (pwFilter_subset _ member)

theorem drainSmall_carries (admits : lanes.Admits lib.evm) (gasLimit baseFee : U64)
    (parentHash : B256) (inFlight : B256 → Bool) :
    ∃ entries, (drainSmall lib ties lanes gasLimit baseFee parentHash inFlight).1 =
        entries.map EvmPoolEntry.rawRlp ∧
      Carries lib.evm gasLimit maxEvmBlockTxBytes entries ∧ (gasLimit = 0 → entries = []) := by
  unfold drainSmall
  split
  · exact ⟨[], rfl, Carries.nil, fun _ => rfl⟩
  · rename_i positive
    refine ⟨_, rfl, ?_, fun zero => absurd zero positive⟩
    have within := @selection_within lib.keccak ties lanes.small.view
      (lanes.smallRequest gasLimit baseFee parentHash inFlight)
    exact Within.carries within (view_admitted admits.small) (min_le_left _ _)

theorem drainSmall_admits (admits : lanes.Admits lib.evm) (gasLimit baseFee : U64)
    (parentHash : B256) (inFlight : B256 → Bool) :
    (drainSmall lib ties lanes gasLimit baseFee parentHash inFlight).2.Admits lib.evm := by
  unfold drainSmall
  split
  · exact admits
  · exact ⟨fun entry member => admits.small entry (LanePool.removeHashes_subset _ member),
      admits.big⟩

theorem drainBig_carries (admits : lanes.Admits lib.evm) (gasLimit : U64) (byteBudget : Nat)
    (baseFee : U64) (parentHash : B256) (inFlight : B256 → Bool) :
    ∃ entries, (drainBig lib ties lanes gasLimit byteBudget baseFee parentHash inFlight).1 =
        entries.map EvmPoolEntry.rawRlp ∧
      Carries lib.evm gasLimit byteBudget entries ∧ (gasLimit = 0 → entries = []) := by
  unfold drainBig
  split
  · exact ⟨[], rfl, Carries.nil, fun _ => rfl⟩
  · rename_i positive
    refine ⟨_, rfl, ?_, fun zero => absurd zero positive⟩
    have within := @selection_within lib.keccak ties lanes.big.view
      (lanes.bigRequest gasLimit byteBudget baseFee parentHash inFlight)
    exact Within.carries within (view_admitted admits.big) (le_refl _)

/-- The EVM part of a payload: the small lane within its own caps, the big lane in what is left. -/
structure Lanes (evm : EvmLibrary) (limits : LaneLimits) (payload : Payload)
    (small big : List EvmPoolEntry) : Prop where
  isSmall : payload.small = small.map EvmPoolEntry.rawRlp
  isBig : payload.big = big.map EvmPoolEntry.rawRlp
  smallFits : Carries evm limits.gasLimit maxEvmBlockTxBytes small
  bigFits : Carries evm limits.bigGasLimit
    (maxEvmBigBlockTxBytes - totalBytes (small.map EvmPoolEntry.rawRlp)) big
  smallOff : limits.gasLimit = 0 → small = []
  bigOff : limits.bigGasLimit = 0 → big = []

theorem Lanes.empty {limits : LaneLimits} :
    Lanes evm limits { native := [], small := [], big := [] } [] [] where
  isSmall := rfl
  isBig := rfl
  smallFits := Carries.nil
  bigFits := Carries.nil
  smallOff _ := rfl
  bigOff _ := rfl

theorem selectBlockPayload_lanes {node : Node} (parent : Header) (limits : LaneLimits)
    (around : Surroundings)
    (admits : ∀ pools, node.mempool = some pools → pools.evm.Admits lib.evm) :
    ∃ small big,
      Lanes lib.evm limits (selectBlockPayload lib node parent limits around).1 small big := by
  unfold selectBlockPayload
  split
  · exact ⟨[], [], Lanes.empty⟩
  · cases pooled : node.mempool with
    | none => exact ⟨[], [], Lanes.empty⟩
    | some pools =>
      have pure_ := admits pools pooled
      obtain ⟨small, isSmall, smallFits, smallOff⟩ := @drainSmall_carries κ lib around.ties pools.evm
        pure_ limits.gasLimit limits.baseFee parent.rest.stateRoot around.inFlightEvm
      have left := @drainSmall_admits κ lib around.ties pools.evm pure_ limits.gasLimit
        limits.baseFee parent.rest.stateRoot around.inFlightEvm
      obtain ⟨big, isBig, bigFits, bigOff⟩ := @drainBig_carries κ lib around.ties _ left
        limits.bigGasLimit (maxEvmBigBlockTxBytes - totalBytes (small.map EvmPoolEntry.rawRlp))
        limits.bigBaseFee parent.rest.stateRoot around.inFlightEvm
      refine ⟨small, big, isSmall, ?_, smallFits, bigFits, smallOff, bigOff⟩
      dsimp only
      rw [isSmall]
      exact isBig

theorem selectBlockPayload_native {node : Node} (parent : Header) (limits : LaneLimits)
    (around : Surroundings) :
    (selectBlockPayload lib node parent limits around).1.native.length ≤ nativePoolMaxSize := by
  unfold selectBlockPayload
  split
  · exact Nat.zero_le _
  · cases node.mempool with
    | none => exact Nat.zero_le _
    | some pools =>
      simp only [selectNative]
      split
      · rw [length_map]
        exact NativePool.selectEntriesBefore_length _ _ _ _ _ _
      · rw [length_map]
        exact NativePool.selectEntriesBefore_length _ _ _ _ _ _

theorem mirrorOrDropNative_length (mempool : Option Pools) (height : U64)
    (native : List (Signing.Address × SignedNativeAction)) :
    (mirrorOrDropNative lib mempool height native).1.length ≤ native.length := by
  have kept : ∀ busy, (withoutBusy lib busy (native.map Prod.snd)).length ≤ native.length := by
    intro busy
    unfold withoutBusy
    split
    · simp
    · exact le_trans (length_filter_le _ _) (by simp)
  unfold mirrorOrDropNative
  cases mempool with
  | none => simp
  | some pools =>
    dsimp only
    split
    · exact kept _
    · split
      · exact Nat.zero_le _
      · exact kept _

theorem reinsertEarlier_admits {node : Node} (height : U64)
    (admits : ∀ pools, node.mempool = some pools → pools.evm.Admits lib.evm) :
    ∀ pools, reinsertEarlier lib node height = some pools → pools.evm.Admits lib.evm := by
  intro pools found
  obtain ⟨before, pooled, rfl⟩ := Option.map_eq_some_iff.mp found
  have kept := admits before pooled
  cases node.ownEvmProposed.lookup height with
  | none => exact kept
  | some earlier => exact kept.reinsertEvm before.ingress earlier

end Payload

/-- Within the gas, byte and count caps. -/
structure FitsCaps (evm : EvmLibrary) (gasCap : U64) (byteCap : Nat) (evmTxs : List (List Byte)) :
    Prop where
  gas : declaredGas evm evmTxs ≤ gasCap
  bytes : (evmTxs.map List.length).sum ≤ byteCap
  count : evmTxs.length ≤ gasCap.val / evmMinTxGas

theorem Carries.fits (carries : Carries evm gasLimit byteCap entries)
    (byteSmall : byteCap ≤ maxEvmBigBlockTxBytes) :
    FitsCaps evm gasLimit byteCap (entries.map EvmPoolEntry.rawRlp) where
  gas := carries.declared
  bytes := carries.bytes
  count := by
    rw [length_map]
    exact (carries.count byteSmall).1

theorem Header.evmBlockByteCap_le (header : Header) :
    Header.evmBlockByteCap header ≤ maxEvmBigBlockTxBytes := by
  unfold Header.evmBlockByteCap
  split
  · exact le_refl _
  · decide

theorem laneLimits_gasLimit (header : Header) :
    (laneLimits header.height (EvmHeaderValues.of header)).gasLimit =
      if Header.carriesEvm header then header.evmGasLimit else 0 := by
  have cadence : Header.carriesEvm header =
      (isBigEvmHeight header.height header.evmBigBlockInterval ||
        (header.evmBlockInterval ≠ 0 && header.height.val % header.evmBlockInterval.val = 0)) :=
    Bool.or_comm _ _
  rw [cadence]
  rfl

theorem laneLimits_bigGasLimit (header : Header) :
    (laneLimits header.height (EvmHeaderValues.of header)).bigGasLimit =
      if Header.isBigHeight header then header.evmBigGasLimit else 0 := rfl

theorem Header.carriesEvm_of_big {header : Header} (big : Header.isBigHeight header = true) :
    Header.carriesEvm header = true := by
  rw [Header.isBigHeight] at big
  rw [Header.carriesEvm, isEvmHeight, big, Bool.or_true]

section Lanes

variable {header : Header} {payload : Payload} {small big : List EvmPoolEntry}

theorem Lanes.txs {limits : LaneLimits} (lanes : Lanes evm limits payload small big) :
    payload.small ++ payload.big = (small ++ big).map EvmPoolEntry.rawRlp := by
  rw [lanes.isSmall, lanes.isBig, map_append]

variable (lanes : Lanes evm (laneLimits header.height (EvmHeaderValues.of header)) payload small big)
include lanes

theorem Lanes.carries :
    Carries evm (Header.evmBlockGasCap header) (Header.evmBlockByteCap header) (small ++ big) := by
  have smallFits := lanes.smallFits
  have bigFits := lanes.bigFits
  rw [laneLimits_gasLimit] at smallFits
  rw [laneLimits_bigGasLimit] at bigFits
  cases bigHeight : Header.isBigHeight header with
  | true =>
    rw [if_pos (Header.carriesEvm_of_big bigHeight)] at smallFits
    rw [if_pos bigHeight] at bigFits
    have both := smallFits.append bigFits (by decide)
    simpa [Header.evmBlockGasCap, Header.evmBlockByteCap, bigHeight] using both
  | false =>
    have noBig : big = [] := lanes.bigOff (by simp [laneLimits_bigGasLimit, bigHeight])
    cases carriesEvm : Header.carriesEvm header with
    | false =>
      rw [noBig, lanes.smallOff (by simp [laneLimits_gasLimit, carriesEvm])]
      exact Carries.nil
    | true =>
      rw [if_pos carriesEvm] at smallFits
      simpa [Header.evmBlockGasCap, Header.evmBlockByteCap, bigHeight, noBig] using smallFits

theorem Lanes.off (off : Header.carriesEvm header = false) : small ++ big = [] := by
  have notBig : Header.isBigHeight header = false := by
    cases bigHeight : Header.isBigHeight header with
    | false => rfl
    | true => exact absurd (Header.carriesEvm_of_big bigHeight) (by simp [off])
  rw [lanes.smallOff (by simp [laneLimits_gasLimit, off]),
    lanes.bigOff (by simp [laneLimits_bigGasLimit, notBig]), append_nil]

theorem Lanes.fitsHeader (counted : header.rest.evmTxCount =
      Fin.ofNat (2 ^ 32) (payload.small ++ payload.big).length) :
    evmBodyFitsHeader evm header (payload.small ++ payload.big) = true := by
  have carries := lanes.carries
  have byteSmall := Header.evmBlockByteCap_le header
  have fits := carries.fits byteSmall
  have below := (carries.count byteSmall).2
  rw [lanes.txs] at counted ⊢
  have sameCount : ((small ++ big).map EvmPoolEntry.rawRlp).length = header.rest.evmTxCount.val := by
    rw [counted, Fin.val_ofNat, length_map, Nat.mod_eq_of_lt below]
  unfold evmBodyFitsHeader
  rw [if_neg (not_not.mpr sameCount)]
  cases carriesEvm : Header.carriesEvm header with
  | false => simp [lanes.off carriesEvm]
  | true =>
    have gas := not_lt.mpr fits.gas
    have bytes := not_lt.mpr fits.bytes
    have count := not_lt.mpr fits.count
    simp only [Bool.not_true, Bool.false_or]
    split
    · rfl
    · have within : ¬(decide (header.evmBlockGasCap.val / evmMinTxGas <
          ((small ++ big).map EvmPoolEntry.rawRlp).length) ||
          decide (header.evmBlockByteCap <
            (((small ++ big).map EvmPoolEntry.rawRlp).map List.length).sum)) = true := by
        simp only [Bool.or_eq_true, decide_eq_true_eq]
        exact not_or.mpr ⟨count, bytes⟩
      rw [if_neg within]

end Lanes

end TorusHyperBft.Proposal
