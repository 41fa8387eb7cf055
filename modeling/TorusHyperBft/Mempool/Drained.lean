import TorusHyperBft.Mempool.EvmPool

namespace TorusHyperBft.Mempool

open List

/-! What a drain takes: pooled transactions whose gas and bytes fit the two budgets. -/

def totalGas (entries : List EvmPoolEntry) : Nat :=
  (entries.map fun entry => entry.gasLimit.val).sum

def totalBytes (raws : List (List Byte)) : Nat := (raws.map List.length).sum

@[simp] theorem totalGas_append (first second : List EvmPoolEntry) :
    totalGas (first ++ second) = totalGas first + totalGas second := by
  simp [totalGas]

@[simp] theorem totalGas_singleton (entry : EvmPoolEntry) :
    totalGas [entry] = entry.gasLimit.val := by
  simp [totalGas]

@[simp] theorem totalBytes_append (first second : List (List Byte)) :
    totalBytes (first ++ second) = totalBytes first + totalBytes second := by
  simp [totalBytes]

@[simp] theorem totalBytes_singleton (raw : List Byte) : totalBytes [raw] = raw.length := by
  simp [totalBytes]

/-- The largest gas budget bounds nothing: the sum it is compared with saturates there. -/
structure Within (pool : EvmPool) (gasBudget : U64) (byteBudget : Nat)
    (selected : List EvmPoolEntry) : Prop where
  pooled : ∀ entry ∈ selected, entry ∈ pool.entries
  bytes : totalBytes (selected.map EvmPoolEntry.rawRlp) ≤ byteBudget
  gas : gasBudget.val < 2 ^ 64 - 1 → totalGas selected ≤ gasBudget.val

section Drain

variable {keccak : List Byte → B256} {ties : List DrainEntry → Nat} {pool : EvmPool}
  {request : DrainRequest}

/-- The heap entry stands for a pooled transaction. -/
def Pooled (pool : EvmPool) (entry : DrainEntry) : Prop :=
  ∃ pooled, pool.get entry.sender entry.nonce = some pooled ∧ pooled.gasLimit = entry.gasLimit

theorem candidateFrom_pooled {sender : Signing.Address} {fuel nonce : Nat} {entry : DrainEntry}
    (next : candidateFrom keccak pool request sender fuel nonce = some entry) :
    Pooled pool entry ∧ entry.sender = sender ∧ nonce ≤ entry.nonce := by
  induction fuel generalizing nonce with
  | zero => cases next
  | succ fuel ih =>
    cases found : pool.get sender nonce with
    | none => simp [candidateFrom, found] at next
    | some pooled =>
      simp only [candidateFrom, found] at next
      obtain ⟨-, sameSender, sameNonce⟩ := EvmPool.get_mem found
      split at next
      · obtain ⟨stands, from_, later⟩ := ih next
        exact ⟨stands, from_, by omega⟩
      · cases next
        refine ⟨⟨pooled, ?_, rfl⟩, sameSender, sameNonce.ge⟩
        simp only [DrainEntry.new, sameSender, sameNonce, found]

theorem initialHeap_pooled {entry : DrainEntry} (member : entry ∈ initialHeap keccak pool request) :
    Pooled pool entry := by
  obtain ⟨sender, -, starts⟩ := mem_filterMap.mp member
  obtain ⟨lowest, -, next⟩ := Option.bind_eq_some_iff.mp starts
  exact (candidateFrom_pooled next).1

theorem filterMap_senders {make : Signing.Address → Option DrainEntry}
    {senders : List Signing.Address}
    (own : ∀ sender entry, make sender = some entry → entry.sender = sender) :
    ((senders.filterMap make).map DrainEntry.sender).Sublist senders := by
  induction senders with
  | nil => exact List.Sublist.refl _
  | cons sender senders ih =>
    rw [filterMap_cons]
    cases made : make sender with
    | none => exact ih.cons _
    | some entry =>
      rw [map_cons, own sender entry made]
      exact ih.cons_cons _

theorem initialHeap_senders :
    ((initialHeap keccak pool request).map DrainEntry.sender).Sublist
      (pool.entries.map EvmPoolEntry.sender).dedup := by
  apply filterMap_senders
  intro sender entry starts
  obtain ⟨lowest, -, next⟩ := Option.bind_eq_some_iff.mp starts
  exact (candidateFrom_pooled next).2.1

theorem heapPop_mem {heap rest : List DrainEntry} {top : DrainEntry}
    (popped : heapPop ties heap = some (top, rest)) : top ∈ heap ∧ rest = heap.erase top := by
  obtain ⟨greatest, found, same⟩ := Option.map_eq_some_iff.mp popped
  obtain ⟨rfl, rfl⟩ := Prod.mk.inj same
  exact ⟨(mem_filter.mp (mem_of_getElem? found)).1, rfl⟩

/-- The loop's invariant: what is selected is counted, within both budgets. -/
structure Drains (pool : EvmPool) (request : DrainRequest) (state : DrainState) : Prop where
  heap : ∀ entry ∈ state.heap, Pooled pool entry
  pooled : ∀ entry ∈ state.selected, entry ∈ pool.entries
  bytes : state.bytesUsed = totalBytes (state.selected.map EvmPoolEntry.rawRlp)
  bytesFit : state.bytesUsed ≤ request.byteBudget
  gas : request.gasBudget.val < 2 ^ 64 - 1 →
    state.gasUsed.val = totalGas state.selected ∧ state.gasUsed ≤ request.gasBudget

theorem gasUsed_add {used added budget : U64} (small : budget.val < 2 ^ 64 - 1)
    (fits : ¬ budget < used.saturatingAdd added) :
    (used + added).val = used.val + added.val ∧ used + added ≤ budget := by
  have bound : min (used.val + added.val) (2 ^ 64 - 1) ≤ budget.val := by
    have := not_lt.mp fits
    simpa [U64.saturatingAdd, Fin.le_def] using this
  have exact_ : used.val + added.val ≤ budget.val := by omega
  have sum : (used + added).val = used.val + added.val := by
    rw [Fin.val_add]
    apply Nat.mod_eq_of_lt
    omega
  refine ⟨sum, ?_⟩
  rw [Fin.le_def, sum]
  exact exact_

theorem Drains.visit {state : DrainState} {top : DrainEntry} (drains : Drains pool request state)
    (stands : Pooled pool top) :
    Drains pool request (Mempool.visit keccak pool request state top) := by
  obtain ⟨entry, found, sameGas⟩ := stands
  simp only [Mempool.visit, found]
  split
  · exact drains
  · split
    · exact drains
    · rename_i gasFits
      split
      · exact drains
      · rename_i bytesFit
        refine ⟨?_, ?_, ?_, by simpa using bytesFit, ?_⟩
        · intro other member
          rcases mem_append.mp member with old | pushed
          · exact drains.heap other old
          · exact (candidateFrom_pooled (Option.mem_toList.mp pushed)).1
        · intro other member
          rcases mem_append.mp member with old | taken
          · exact drains.pooled other old
          · rw [mem_singleton.mp taken]
            exact (EvmPool.get_mem found).1
        · simp [drains.bytes]
        · intro small
          obtain ⟨counted, -⟩ := drains.gas small
          obtain ⟨sum, within⟩ := gasUsed_add small gasFits
          refine ⟨?_, within⟩
          rw [sum, counted, totalGas_append, totalGas_singleton, sameGas]

theorem Drains.loop {fuel : Nat} {state : DrainState} (drains : Drains pool request state) :
    Drains pool request (drainLoop keccak ties pool request fuel state) := by
  induction fuel generalizing state with
  | zero => exact drains
  | succ fuel ih =>
    rw [drainLoop]
    cases popped : heapPop ties state.heap with
    | none => exact drains
    | some result =>
      obtain ⟨top, rest⟩ := result
      obtain ⟨member, rfl⟩ := heapPop_mem popped
      dsimp only
      split
      · exact drains
      · apply ih
        have left : Drains pool request { state with heap := state.heap.erase top } :=
          { drains with heap := fun entry kept => drains.heap entry (mem_of_mem_erase kept) }
        exact left.visit (drains.heap top member)

/-! The loop ends by itself: what the heap can still yield shrinks with every pop. -/

def ahead (pool : EvmPool) (entry : DrainEntry) : Nat :=
  pool.entries.countP fun other => other.sender = entry.sender ∧ entry.nonce ≤ other.nonce

def remaining (pool : EvmPool) (heap : List DrainEntry) : Nat := (heap.map (ahead pool)).sum

theorem ahead_lt {first next : DrainEntry} (stands : Pooled pool first)
    (sameSender : next.sender = first.sender) (later : first.nonce + 1 ≤ next.nonce) :
    ahead pool next < ahead pool first := by
  obtain ⟨entry, found, -⟩ := stands
  obtain ⟨member, isSender, isNonce⟩ := EvmPool.get_mem found
  have split := pool.entries.countP_eq_countP_filter_add
    (fun other => decide (other.sender = first.sender ∧ first.nonce ≤ other.nonce))
    (fun other => decide (next.nonce ≤ other.nonce))
  have counted : 0 < (pool.entries.filter fun other => !decide (next.nonce ≤ other.nonce)).countP
      fun other => decide (other.sender = first.sender ∧ first.nonce ≤ other.nonce) := by
    refine countP_pos_iff.mpr ⟨entry, mem_filter.mpr ⟨member, ?_⟩, ?_⟩
    · simp only [Bool.not_eq_true', decide_eq_false_iff_not]
      omega
    · simp only [decide_eq_true_eq]
      exact ⟨isSender, isNonce.ge⟩
  have same : ahead pool next = (pool.entries.filter fun other =>
      decide (next.nonce ≤ other.nonce)).countP
        fun other => decide (other.sender = first.sender ∧ first.nonce ≤ other.nonce) := by
    rw [ahead, countP_filter, sameSender]
    apply countP_congr
    intro other _
    simp only [decide_eq_true_eq, Bool.and_eq_true]
    exact ⟨fun is => ⟨⟨is.1, by omega⟩, is.2⟩, fun is => ⟨is.1.1, is.2⟩⟩
  rw [same]
  simp only [ahead]
  omega

theorem remaining_erase {heap : List DrainEntry} {top : DrainEntry} (member : top ∈ heap) :
    remaining pool heap = ahead pool top + remaining pool (heap.erase top) := by
  have split := ((perm_cons_erase member).map (ahead pool)).sum_eq
  simpa [remaining] using split

theorem remaining_visit {state : DrainState} {top : DrainEntry} (stands : Pooled pool top) :
    remaining pool (Mempool.visit keccak pool request state top).heap + 1 ≤
      remaining pool state.heap + ahead pool top := by
  have positive : 0 < ahead pool top := by
    have := @ahead_lt pool top { top with nonce := top.nonce + 1 } stands rfl (le_refl _)
    omega
  obtain ⟨entry, found, -⟩ := id stands
  simp only [Mempool.visit, found]
  split
  · omega
  · split
    · omega
    · split
      · omega
      · cases next : candidate keccak pool request top.sender (top.nonce + 1) with
        | none =>
          simp only [remaining, Option.toList_none, append_nil]
          omega
        | some pushed =>
          obtain ⟨-, sameSender, later⟩ := candidateFrom_pooled next
          have fewer := ahead_lt stands sameSender later
          simp only [remaining, Option.toList_some, map_append, map_cons, map_nil,
            sum_append, sum_cons, sum_nil]
          omega

/-- Nothing left in the heap pays its way. -/
def Finished (ties : List DrainEntry → Nat) (state : DrainState) : Prop :=
  ∀ top rest, heapPop ties state.heap = some (top, rest) → top.tip < 0

theorem drainLoop_finished {fuel : Nat} {state : DrainState} (drains : Drains pool request state)
    (enough : remaining pool state.heap ≤ fuel) :
    Finished ties (drainLoop keccak ties pool request fuel state) := by
  induction fuel generalizing state with
  | zero =>
    intro top rest popped
    rw [drainLoop] at popped
    obtain ⟨member, -⟩ := heapPop_mem popped
    have positive := @ahead_lt pool top { top with nonce := top.nonce + 1 }
      (drains.heap top member) rfl (le_refl _)
    have split := @remaining_erase pool state.heap top member
    omega
  | succ fuel ih =>
    rw [drainLoop]
    cases popped : heapPop ties state.heap with
    | none =>
      intro top rest again
      rw [popped] at again
      cases again
    | some result =>
      obtain ⟨top, rest⟩ := result
      obtain ⟨member, rfl⟩ := heapPop_mem popped
      dsimp only
      split
      · rename_i below
        intro other rest again
        rw [popped] at again
        cases again
        exact below
      · have stands := drains.heap top member
        have left : Drains pool request { state with heap := state.heap.erase top } :=
          { drains with heap := fun entry kept => drains.heap entry (mem_of_mem_erase kept) }
        apply ih (left.visit stands)
        have split := @remaining_erase pool state.heap top member
        have visited := @remaining_visit keccak pool request
          { state with heap := state.heap.erase top } top stands
        dsimp only at visited
        omega

theorem drains_initial : Drains pool request { heap := initialHeap keccak pool request } where
  heap _ := initialHeap_pooled
  pooled _ member := absurd member not_mem_nil
  bytes := rfl
  bytesFit := Nat.zero_le _
  gas _ := ⟨rfl, Fin.zero_le _⟩

theorem remaining_initial :
    remaining pool (initialHeap keccak pool request) ≤ pool.entries.length := by
  have starts : ∀ senders : List Signing.Address,
      remaining pool (senders.filterMap fun sender =>
        ((pool.senderTxs sender).argmin EvmPoolEntry.nonce).bind fun entry =>
          candidate keccak pool request sender entry.nonce) ≤
        (senders.map fun sender => (pool.entries.map EvmPoolEntry.sender).count sender).sum := by
    intro senders
    induction senders with
    | nil => simp [remaining]
    | cons sender senders ih =>
      rw [filterMap_cons, map_cons, sum_cons]
      split
      · omega
      · rename_i first start
        obtain ⟨lowest, -, next⟩ := Option.bind_eq_some_iff.mp start
        obtain ⟨-, sameSender, -⟩ := candidateFrom_pooled next
        have bound : ahead pool first ≤ (pool.entries.map EvmPoolEntry.sender).count sender := by
          rw [List.count, countP_map]
          apply countP_mono_left
          intro entry _ counted
          simp only [sameSender, decide_eq_true_eq] at counted
          simpa using counted.1
        simp only [remaining, map_cons, sum_cons]
        exact Nat.add_le_add bound ih
  have total := starts (pool.entries.map EvmPoolEntry.sender).dedup
  rw [sum_map_count_dedup_eq_length, length_map] at total
  exact total

theorem selection_finished : Finished ties (drainLoop keccak ties pool request pool.entries.length
    { heap := initialHeap keccak pool request }) :=
  drainLoop_finished drains_initial remaining_initial

theorem selection_within :
    Within pool request.gasBudget request.byteBudget (selection keccak ties pool request) := by
  have final := @Drains.loop keccak ties pool request pool.entries.length _
    (@drains_initial keccak pool request)
  refine ⟨final.pooled, final.bytes ▸ final.bytesFit, fun small => ?_⟩
  obtain ⟨counted, fits⟩ := final.gas small
  rw [selection, ← counted]
  exact fits

end Drain

end TorusHyperBft.Mempool
