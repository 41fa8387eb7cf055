import TorusHyperBft.State.Overlay

namespace TorusHyperBft.State

open List Overlay

/-! The consumed nonces: their keys, their window, and the rows a block's cutoff passes. -/

abbrev Address := Fin (2 ^ 160)

abbrev NonceRows := Overlay

def nonceWindowMs : U64 := 60000

def blockTimestampMs (headerTimestampSecs : U64) : U64 :=
  U64.saturatingMul headerTimestampSecs 1000

inductive NonceError where
  | nonceTooOld
  | nonceTooFuture
  deriving DecidableEq

def checkNonceWindow (nonce nowMs : U64) : Except NonceError Unit :=
  if U64.saturatingAdd nonce nonceWindowMs < nowMs then .error .nonceTooOld
  else if nonce > U64.saturatingAdd nowMs nonceWindowMs then .error .nonceTooFuture
  else .ok ()

def nativeNonceKey (sender : Address) (nonce : U64) : List Byte :=
  toBytes 8 nonce.val ++ toBytes 20 sender.val

def noncePruneChunk : Nat := 64

def nonceCutoffMs (blockMs : U64) : U64 := U64.saturatingSub blockMs nonceWindowMs

structure ExpiredNonces where
  keys : List (List Byte) := []
  scanned : Nat := 0
  deriving DecidableEq

def scanExpired (state : NonceRows) (stop : List Byte) :
    Nat → List Byte → ExpiredNonces → ExpiredNonces
  | 0, _, out => out
  | fuel + 1, start, out =>
    let rows := state.iterateFrom start noncePruneChunk
    let below := rows.takeWhile fun row => row.1 < stop
    let out : ExpiredNonces :=
      { keys := out.keys ++ below.map Prod.fst, scanned := out.scanned + rows.length }
    -- A key at or above the end returns; so does a chunk that is not full.
    if below.length < rows.length then out
    else if rows.length ≠ noncePruneChunk then out
    else
      match out.keys.getLast? with
      | none => out
      | some last => scanExpired state stop fuel (last ++ [0]) out

def expiredNonceKeys (state : NonceRows) (parentBlockMs blockMs : U64) : ExpiredNonces :=
  let first := nonceCutoffMs parentBlockMs
  let stop := nonceCutoffMs blockMs
  if first ≥ stop then {}
  else scanExpired state (toBytes 8 stop.val) (state.rows.entries.length + 1) (toBytes 8 first.val) {}

section Window

variable {nonce other blockMs nowMs : U64} {sender : Address}

@[simp] theorem nonceCutoffMs_val : (nonceCutoffMs blockMs).val = blockMs.val - 60000 := by
  have bound := blockMs.isLt
  have window : nonceWindowMs.val = 60000 := rfl
  simp only [nonceCutoffMs, U64.saturatingSub, U64.ofNatSaturating_val, window]
  omega

theorem nonceCutoffMs_mono {left right : U64} (ordered : left ≤ right) :
    nonceCutoffMs left ≤ nonceCutoffMs right := by
  have values : left.val ≤ right.val := ordered
  change (nonceCutoffMs left).val ≤ (nonceCutoffMs right).val
  rw [nonceCutoffMs_val, nonceCutoffMs_val]
  omega

theorem blockTimestampMs_mono {left right : U64} (ordered : left ≤ right) :
    blockTimestampMs left ≤ blockTimestampMs right := by
  have values : left.val ≤ right.val := ordered
  have thousand : (1000 : U64).val = 1000 := rfl
  change (blockTimestampMs left).val ≤ (blockTimestampMs right).val
  simp only [blockTimestampMs, U64.saturatingMul, U64.ofNatSaturating_val, thousand]
  omega

theorem cutoff_le_of_checked (checked : checkNonceWindow nonce nowMs = .ok ()) :
    nonceCutoffMs nowMs ≤ nonce := by
  have nonceBound := nonce.isLt
  have nowBound := nowMs.isLt
  have window : nonceWindowMs.val = 60000 := rfl
  unfold checkNonceWindow at checked
  split at checked
  · cases checked
  · rename_i recent
    have fresh : ¬ (U64.saturatingAdd nonce nonceWindowMs).val < nowMs.val := recent
    simp only [U64.saturatingAdd, U64.ofNatSaturating_val, window] at fresh
    change (nonceCutoffMs nowMs).val ≤ nonce.val
    rw [nonceCutoffMs_val]
    omega

theorem u64_fits (value : U64) : value.val < 256 ^ 8 := value.isLt

theorem nativeNonceKey_lt : nativeNonceKey sender nonce < toBytes 8 other.val ↔ nonce < other := by
  have compare := @toBytes_append_lt 8 nonce.val other.val (u64_fits nonce) (u64_fits other)
    (toBytes 20 sender.val) []
  rw [append_nil] at compare
  rw [nativeNonceKey, compare]
  simp

theorem le_nativeNonceKey : toBytes 8 other.val ≤ nativeNonceKey sender nonce ↔ other ≤ nonce := by
  rw [← not_lt, nativeNonceKey_lt, not_lt]

end Window

section Scan

variable {state : NonceRows} {start stop : List Byte}

theorem rowsFrom_successor {count : Nat} {last : List Byte × List Byte}
    (ends : ((state.rows.range start).take count).getLast? = some last) :
    state.rows.range (last.1 ++ [0]) = (state.rows.range start).drop count := by
  have ascends := @OrderedMap.range_ascends _ _ _ state.rows start
  have split := take_append_drop count (state.rows.range start)
  have ordered := pairwise_append.mp (split.symm ▸ ascends)
  obtain ⟨front, frontEq⟩ := List.getLast?_eq_some_iff.mp ends
  have lastTaken : last ∈ (state.rows.range start).take count := mem_of_getLast? ends
  have lastHeld := mem_rowsFrom.mp (mem_of_mem_take lastTaken)
  apply Ascends.ext OrderedMap.range_ascends ordered.2.1
  intro entry
  rw [mem_rowsFrom, append_zero_le_iff]
  constructor
  · rintro ⟨above, held⟩
    have member : entry ∈ state.rows.range start :=
      mem_rowsFrom.mpr ⟨le_trans lastHeld.1 (le_of_lt above), held⟩
    rw [← split, mem_append] at member
    rcases member with taken | dropped
    · exfalso
      rw [frontEq] at taken
      rcases mem_append.mp taken with early | is
      · have below := (pairwise_append.mp (frontEq ▸ ordered.1)).2.2 entry early last
          mem_cons_self
        exact lt_asymm above below
      · rw [mem_singleton.mp is] at above
        exact lt_irrefl _ above
    · exact dropped
  · intro dropped
    exact ⟨ordered.2.2 last lastTaken entry dropped,
      (mem_rowsFrom.mp (mem_of_mem_drop dropped)).2⟩

theorem scanExpired_keys (fuel : Nat) (out : ExpiredNonces)
    (enough : (state.rows.range start).length < fuel) :
    (scanExpired state stop fuel start out).keys =
      out.keys ++ ((state.rows.range start).takeWhile fun row => row.1 < stop).map Prod.fst := by
  induction fuel generalizing start out with
  | zero => omega
  | succ fuel ih =>
    have split := take_append_drop noncePruneChunk (state.rows.range start)
    simp only [scanExpired, iterateFrom_eq_take]
    generalize chunkEq : (state.rows.range start).take noncePruneChunk = chunk at split ⊢
    by_cases stops : (chunk.takeWhile fun row => row.1 < stop).length < chunk.length
    · -- The end lies inside the chunk.
      rw [if_pos stops, ← split, takeWhile_append, if_neg (by omega)]
    · have all : chunk.takeWhile (fun row => row.1 < stop) = chunk :=
        (List.takeWhile_prefix _).eq_of_length_le (by omega)
      rw [if_neg stops, ← split, takeWhile_append, all, if_pos rfl]
      by_cases full : chunk.length = noncePruneChunk
      · have nonempty : chunk ≠ [] := by
          intro empty
          rw [empty] at full
          cases full
        have lastEq := List.getLast?_eq_some_getLast nonempty
        generalize chunk.getLast nonempty = last at lastEq
        have lastKey : (out.keys ++ chunk.map Prod.fst).getLast? = some last.1 := by
          rw [List.getLast?_append, List.getLast?_map, lastEq]
          rfl
        have rest : state.rows.range (last.1 ++ [0]) = (state.rows.range start).drop noncePruneChunk :=
          rowsFrom_successor (by rw [chunkEq, lastEq])
        have fewer : (state.rows.range (last.1 ++ [0])).length < fuel := by
          rw [rest, length_drop]
          have chunked : (0 : Nat) < noncePruneChunk := by decide
          rw [← full, ← chunkEq, length_take] at chunked
          omega
        rw [if_neg (not_not.mpr full)]
        simp only [lastKey]
        rw [ih _ fewer, rest, map_append, append_assoc]
      · have short : (state.rows.range start).drop noncePruneChunk = [] := by
          rw [← chunkEq, length_take] at full
          exact drop_eq_nil_of_le (by omega)
        rw [if_pos full, short]
        simp

theorem mem_expiredNonceKeys {parentBlockMs blockMs nonce : U64} {sender : Address} :
    nativeNonceKey sender nonce ∈ (expiredNonceKeys state parentBlockMs blockMs).keys ↔
      (state.get (nativeNonceKey sender nonce)).isSome ∧
        nonceCutoffMs parentBlockMs ≤ nonce ∧ nonce < nonceCutoffMs blockMs := by
  unfold expiredNonceKeys
  by_cases empty : nonceCutoffMs parentBlockMs ≥ nonceCutoffMs blockMs
  · simp only [empty, if_true, not_mem_nil, false_iff]
    rintro ⟨_, above, below⟩
    exact absurd (lt_of_lt_of_le below (le_trans empty above)) (lt_irrefl _)
  · simp only [empty, if_false]
    rw [scanExpired_keys _ _ (Nat.lt_succ_of_le (length_filter_le _ _)), nil_append,
      mem_map]
    constructor
    · rintro ⟨row, member, keyEq⟩
      have below := (OrderedMap.range_ascends.mem_takeWhile_lt fun _ => decide_eq_true_iff).mp member
      have held := mem_rowsFrom.mp below.1
      rw [keyEq] at held below
      exact ⟨Option.isSome_iff_exists.mpr ⟨_, held.2⟩, le_nativeNonceKey.mp held.1,
        nativeNonceKey_lt.mp below.2⟩
    · rintro ⟨held, above, below⟩
      obtain ⟨height, heldAt⟩ := Option.isSome_iff_exists.mp held
      refine ⟨(nativeNonceKey sender nonce, height), ?_, rfl⟩
      rw [OrderedMap.range_ascends.mem_takeWhile_lt fun _ => decide_eq_true_iff,
        mem_rowsFrom]
      exact ⟨⟨le_nativeNonceKey.mpr above, heldAt⟩, nativeNonceKey_lt.mpr below⟩

end Scan

end TorusHyperBft.State
