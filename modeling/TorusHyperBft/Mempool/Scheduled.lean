import TorusHyperBft.Mempool.Schedule
import TorusHyperBft.Keccak

namespace TorusHyperBft.Mempool

open List
open Signing (Address)

/-! The drain's heap follows the greedy schedule: it holds the offers of the senders that still go
on, and each turn takes the greatest of them. -/

variable {entry : EvmPoolEntry}

section Candidates

variable {keccak : List Byte → B256} {pool : EvmPool} {request : DrainRequest} {sender : Address}
  {nonce count : Nat}

theorem Passes.length_le (passes : Passes pool request sender nonce count) :
    count ≤ pool.entries.length := by
  have distinct : ((List.range count).map fun step => (sender, nonce + step)).Nodup := by
    apply nodup_range.map
    intro step other same
    have := (Prod.mk.inj same).2
    omega
  have inside : ((List.range count).map fun step => (sender, nonce + step)) ⊆
      pool.entries.map fun entry => (entry.sender, entry.nonce) := by
    intro key member
    obtain ⟨step, below, rfl⟩ := mem_map.mp member
    obtain ⟨entry, found, -⟩ := passes step (List.mem_range.mp below)
    obtain ⟨pooled, isSender, isNonce⟩ := EvmPool.get_mem found
    exact mem_map.mpr ⟨entry, pooled, by rw [isSender, isNonce]⟩
  simpa using (distinct.subperm inside).length_le

theorem passes_end (pool : EvmPool) (request : DrainRequest) (sender : Address) (nonce : Nat) :
    ∃ count, Passes pool request sender nonce count ∧
      ∀ entry, pool.get sender (nonce + count) = some entry →
        request.inFlight entry.hash = false := by
  classical
  have ends : ∃ count, ¬ ∃ entry, pool.get sender (nonce + count) = some entry ∧
      request.inFlight entry.hash = true := by
    by_contra endless
    have all : Passes pool request sender nonce (pool.entries.length + 1) :=
      fun step _ => not_not.mp fun grounded => endless ⟨step, grounded⟩
    have := all.length_le
    omega
  refine ⟨Nat.find ends, fun step below => not_not.mp (Nat.find_min ends below), ?_⟩
  intro entry found
  have stays := Nat.find_spec ends
  by_contra flies
  exact stays ⟨entry, found, by simpa using flies⟩

theorem candidateFrom_passes {fuel : Nat} (passes : Passes pool request sender nonce count) :
    candidateFrom keccak pool request sender (fuel + count) nonce =
      candidateFrom keccak pool request sender fuel (nonce + count) := by
  induction count generalizing nonce with
  | zero => rfl
  | succ count ih =>
    obtain ⟨entry, found, flies⟩ := passes 0 (Nat.succ_pos _)
    have rest : Passes pool request sender (nonce + 1) count := by
      intro step below
      have later := passes (step + 1) (Nat.succ_lt_succ below)
      rwa [show nonce + (step + 1) = nonce + 1 + step by omega] at later
    rw [Nat.add_zero] at found
    rw [← Nat.add_assoc, candidateFrom]
    simp only [found, flies, if_true]
    rw [ih rest]
    congr 1
    omega

theorem candidate_eq (passes : Passes pool request sender nonce count)
    (grounded : ∀ entry, pool.get sender (nonce + count) = some entry →
      request.inFlight entry.hash = false) :
    candidate keccak pool request sender nonce =
      (pool.get sender (nonce + count)).map fun entry => DrainEntry.new keccak entry request := by
  have enough := passes.length_le
  obtain ⟨fuel, isFuel⟩ : ∃ fuel, pool.entries.length + 1 = fuel + 1 + count :=
    ⟨pool.entries.length - count, by omega⟩
  rw [candidate, isFuel, candidateFrom_passes passes, candidateFrom]
  cases found : pool.get sender (nonce + count) with
  | none => rfl
  | some entry => simp [grounded entry found]

def candidateOf (keccak : List Byte → B256) (pool : EvmPool) (request : DrainRequest)
    (selected : List EvmPoolEntry) (sender : Address) : Option DrainEntry :=
  (resumeNonce pool selected sender).bind (candidate keccak pool request sender)

variable {selected : List EvmPoolEntry}

theorem candidateOf_eq_some {top : DrainEntry} :
    candidateOf keccak pool request selected sender = some top ↔
      ∃ entry, Offers pool request selected entry ∧ entry.sender = sender ∧
        top = DrainEntry.new keccak entry request := by
  rw [candidateOf]
  constructor
  · intro found
    obtain ⟨nonce, resumes, next⟩ := Option.bind_eq_some_iff.mp found
    obtain ⟨count, passes, grounded⟩ := passes_end pool request sender nonce
    rw [candidate_eq passes grounded] at next
    obtain ⟨entry, isEntry, rfl⟩ := Option.map_eq_some_iff.mp next
    obtain ⟨-, rfl, -⟩ := EvmPool.get_mem isEntry
    exact ⟨entry, ⟨nonce, count, resumes, passes, isEntry, grounded entry isEntry⟩, rfl, rfl⟩
  · rintro ⟨entry, ⟨nonce, count, resumes, passes, found, grounded⟩, rfl, rfl⟩
    have only : ∀ other, pool.get entry.sender (nonce + count) = some other →
        request.inFlight other.hash = false := by
      intro other isOther
      rw [found] at isOther
      cases isOther
      exact grounded
    rw [resumes, Option.bind_some, candidate_eq passes only, found]
    rfl

theorem gap_of_none (start : resumeNonce pool selected sender = some nonce)
    (none' : candidateOf keccak pool request selected sender = none) :
    Gap pool request selected sender := by
  obtain ⟨count, passes, grounded⟩ := passes_end pool request sender nonce
  rw [candidateOf, start, Option.bind_some, candidate_eq passes grounded,
    Option.map_eq_none_iff] at none'
  exact ⟨nonce, count, start, passes, none'⟩

theorem Offers.get (offers : Offers pool request selected entry) :
    pool.get entry.sender entry.nonce = some entry := by
  obtain ⟨nonce, count, -, -, found, -⟩ := offers
  obtain ⟨-, -, isNonce⟩ := EvmPool.get_mem found
  rw [isNonce]
  exact found

end Candidates

section Heap

variable {ties : List DrainEntry → Nat} {heap rest : List DrainEntry} {top : DrainEntry}

theorem heapPop_greatest (popped : heapPop ties heap = some (top, rest)) :
    ∀ other ∈ heap, other.rank ≤ top.rank := by
  obtain ⟨greatest, found, same⟩ := Option.map_eq_some_iff.mp popped
  obtain ⟨rfl, rfl⟩ := Prod.mk.inj same
  have is := (mem_filter.mp (mem_of_getElem? found)).2
  simpa using is

theorem exists_greatest {other : DrainEntry} (member : other ∈ heap) :
    ∃ entry ∈ heap, ∀ other ∈ heap, other.rank ≤ entry.rank := by
  induction heap generalizing other with
  | nil => cases member
  | cons first heap ih =>
    cases heap with
    | nil => exact ⟨first, by simp, by simp⟩
    | cons second heap =>
      obtain ⟨best, inside, greatest⟩ := ih mem_cons_self
      rcases le_total first.rank best.rank with below | above
      · refine ⟨best, mem_cons_of_mem _ inside, ?_⟩
        intro other here
        rcases mem_cons.mp here with rfl | later
        · exact below
        · exact greatest other later
      · refine ⟨first, mem_cons_self, ?_⟩
        intro other here
        rcases mem_cons.mp here with rfl | later
        · exact le_refl _
        · exact (greatest other later).trans above

theorem exists_heapPop {other : DrainEntry} (member : other ∈ heap) :
    ∃ top rest, heapPop ties heap = some (top, rest) := by
  obtain ⟨best, inside, greatest⟩ := exists_greatest member
  have among : best ∈ heap.filter fun entry => heap.all fun other => other.rank ≤ entry.rank := by
    rw [mem_filter]
    exact ⟨inside, by simpa using greatest⟩
  have positive := length_pos_of_mem among
  rw [heapPop]
  have within := Nat.mod_lt (ties (heap.filter fun entry =>
    heap.all fun other => other.rank ≤ entry.rank)) positive
  rw [List.getElem?_eq_getElem within]
  exact ⟨_, _, rfl⟩

end Heap

section Follow

variable {keccak : List Byte → B256} {ties : List DrainEntry → Nat} {pool : EvmPool}
  {request : DrainRequest}

/-- The loop stands where the schedule does: the heap holds the offers of the senders that go on,
and the counters count what is selected. -/
structure Follows (keccak : List Byte → B256) (pool : EvmPool) (request : DrainRequest)
    (state : DrainState) (stopped : List Address) : Prop where
  schedule : Schedule keccak pool request state.selected stopped
  heap : ∀ top, top ∈ state.heap ↔ top.sender ∉ stopped ∧
    candidateOf keccak pool request state.selected top.sender = some top
  distinct : (state.heap.map DrainEntry.sender).Nodup
  gas : state.gasUsed.val = totalGas state.selected
  bytes : state.bytesUsed = totalBytes (state.selected.map EvmPoolEntry.rawRlp)
  share : ∀ sender, (state.senderGas sender).val = totalGas (ownOf state.selected sender)

/-- Pooled transactions have distinct hashes, and gas to pay for themselves with: admission asks
for their intrinsic gas. -/
structure Consistent (pool : EvmPool) : Prop where
  hashes : (pool.entries.map EvmPoolEntry.hash).Nodup
  gas : ∀ entry ∈ pool.entries, 0 < entry.gasLimit.val

theorem tip_nonneg_iff {entry : EvmPoolEntry} (low : request.minBaseFee < 2 ^ 64) :
    0 ≤ (DrainEntry.new keccak entry request).tip ↔ PaysBaseFee request entry := by
  simp only [DrainEntry.new, effectiveTip, PaysBaseFee]
  omega

theorem tip_le_of_rank {first second : DrainEntry} (below : first.rank ≤ second.rank) :
    first.tip ≤ second.tip := by
  rcases Prod.Lex.le_iff.mp below with less | ⟨same, -⟩
  · exact Int.le_of_lt less
  · exact Int.le_of_eq same

theorem lt_saturatingAdd {cap used added : U64} :
    cap < used.saturatingAdd added ↔ cap.val < used.val + added.val ∧ cap.val < 2 ^ 64 - 1 := by
  rw [Fin.lt_def, U64.saturatingAdd, U64.ofNatSaturating_val, lt_min_iff]

theorem totalGas_pos {selected : List EvmPoolEntry} (some' : selected ≠ [])
    (positive : ∀ entry ∈ selected, 0 < entry.gasLimit.val) : 0 < totalGas selected := by
  obtain ⟨first, rest, rfl⟩ := exists_cons_of_ne_nil some'
  have gas := positive first mem_cons_self
  simp only [totalGas, map_cons, sum_cons]
  omega

namespace Follows

variable {state : DrainState} {stopped : List Address} {top : DrainEntry}

variable (follows : Follows keccak pool request state stopped)
include follows

theorem offer (member : top ∈ state.heap) :
    ∃ entry, Offers pool request state.selected entry ∧ entry.sender ∉ stopped ∧
      top = DrainEntry.new keccak entry request := by
  obtain ⟨goesOn, found⟩ := (follows.heap top).mp member
  obtain ⟨entry, offers, isSender, is⟩ := candidateOf_eq_some.mp found
  exact ⟨entry, offers, isSender ▸ goesOn, is⟩

theorem greatest {rest : List DrainEntry} (popped : heapPop ties state.heap = some (top, rest))
    (offers : Offers pool request state.selected entry) (goesOn : entry.sender ∉ stopped)
    (is : top = DrainEntry.new keccak entry request) :
    Greatest keccak pool request state.selected stopped entry := by
  refine ⟨offers, goesOn, ?_⟩
  intro other isOffer goes
  have inHeap : DrainEntry.new keccak other request ∈ state.heap :=
    (follows.heap _).mpr ⟨goes, candidateOf_eq_some.mpr ⟨other, isOffer, rfl, rfl⟩⟩
  have below := heapPop_greatest popped _ inHeap
  rw [is] at below
  exact below

theorem mem_erase (member : top ∈ state.heap) {other : DrainEntry} :
    other ∈ state.heap.erase top ↔ other ∈ state.heap ∧ other.sender ≠ top.sender := by
  have nodup : state.heap.Nodup := List.Nodup.of_map _ follows.distinct
  rw [nodup.mem_erase_iff]
  constructor
  · rintro ⟨different, inside⟩
    refine ⟨inside, fun same => different ?_⟩
    exact inj_on_of_nodup_map follows.distinct inside member same
  · rintro ⟨inside, different⟩
    exact ⟨fun same => different (congrArg DrainEntry.sender same), inside⟩

theorem stop (member : top ∈ state.heap) (is : top = DrainEntry.new keccak entry request)
    (greatest : Greatest keccak pool request state.selected stopped entry)
    (pays : PaysBaseFee request entry) (beyond : ¬ Fits request state.selected entry) :
    Follows keccak pool request { state with heap := state.heap.erase top }
      (entry.sender :: stopped) where
  schedule := follows.schedule.stop greatest pays beyond
  heap := by
    intro other
    have sameSender : top.sender = entry.sender := by rw [is]; rfl
    rw [follows.mem_erase member, follows.heap, sameSender, mem_cons, not_or]
    constructor
    · rintro ⟨⟨goesOn, found⟩, different⟩
      exact ⟨⟨different, goesOn⟩, found⟩
    · rintro ⟨⟨different, goesOn⟩, found⟩
      exact ⟨⟨goesOn, found⟩, different⟩
  distinct := follows.distinct.sublist (erase_sublist.map _)
  gas := follows.gas
  bytes := follows.bytes
  share := follows.share

theorem take (member : top ∈ state.heap)
    {entry : EvmPoolEntry} (is : top = DrainEntry.new keccak entry request)
    (greatest : Greatest keccak pool request state.selected stopped entry)
    (pays : PaysBaseFee request entry) (fits : Fits request state.selected entry) :
    Follows keccak pool request
      { heap := state.heap.erase top ++
          (candidate keccak pool request top.sender (top.nonce + 1)).toList
        selected := state.selected ++ [entry]
        gasUsed := state.gasUsed + top.gasLimit
        bytesUsed := state.bytesUsed + entry.rawRlp.length
        senderGas := Function.update state.senderGas top.sender
          (state.senderGas top.sender + top.gasLimit) } stopped := by
  have sameSender : top.sender = entry.sender := by rw [is]; rfl
  have sameNonce : top.nonce = entry.nonce := by rw [is]; rfl
  have sameGas : top.gasLimit = entry.gasLimit := by rw [is]; rfl
  have budget := request.gasBudget.isLt
  have gasFits := fits.gas
  have nextOf : candidateOf keccak pool request (state.selected ++ [entry]) entry.sender =
      candidate keccak pool request top.sender (top.nonce + 1) := by
    rw [candidateOf, resumeNonce_same, Option.bind_some, sameSender, sameNonce]
  constructor
  case schedule => exact follows.schedule.take greatest pays fits
  case heap =>
    intro other
    dsimp only
    rw [mem_append, follows.mem_erase member, follows.heap, Option.mem_toList, sameSender]
    by_cases same : other.sender = entry.sender
    · rw [same, nextOf, sameSender]
      simp [greatest.2.1]
    · have kept : candidateOf keccak pool request (state.selected ++ [entry]) other.sender =
          candidateOf keccak pool request state.selected other.sender := by
        rw [candidateOf, resumeNonce_other (Ne.symm same)]
        rfl
      have notNext : candidate keccak pool request entry.sender (top.nonce + 1) ≠ some other := by
        intro next
        exact same (candidateFrom_pooled next).2.1
      rw [kept]
      simp [same, notNext]
  case distinct =>
    rw [map_append, nodup_append]
    refine ⟨follows.distinct.sublist (erase_sublist.map _), ?_, ?_⟩
    · cases candidate keccak pool request top.sender (top.nonce + 1) <;> simp
    · intro sender here other there same
      obtain ⟨old, inHeap, rfl⟩ := mem_map.mp here
      obtain ⟨new, isNext, rfl⟩ := mem_map.mp there
      have different := ((follows.mem_erase member).mp inHeap).2
      exact different (same.trans (candidateFrom_pooled (Option.mem_toList.mp isNext)).2.1)
  case gas =>
    rw [totalGas_append, totalGas_singleton, Fin.val_add, follows.gas, sameGas]
    exact Nat.mod_eq_of_lt (by omega)
  case bytes =>
    rw [map_append, totalBytes_append, map_singleton, totalBytes_singleton,
      follows.bytes]
  case share =>
    intro sender
    dsimp only
    by_cases same : entry.sender = sender
    · subst same
      have part := totalGas_ownOf_le state.selected entry.sender
      rw [sameSender, Function.update_self, ownOf_same, totalGas_append, totalGas_singleton,
        Fin.val_add, follows.share, sameGas]
      exact Nat.mod_eq_of_lt (by omega)
    · rw [Function.update_of_ne (by rw [sameSender]; exact Ne.symm same), ownOf_other same]
      exact follows.share sender

omit follows

theorem visit {rest : List DrainEntry} (consistent : Consistent pool)
    (small : request.gasBudget.val < 2 ^ 64 - 1) (low : request.minBaseFee < 2 ^ 64)
    (follows : Follows keccak pool request state stopped)
    (popped : heapPop ties state.heap = some (top, rest)) (floor : ¬ top.tip < 0) :
    ∃ stopped', Follows keccak pool request
      (Mempool.visit keccak pool request { state with heap := rest } top) stopped' := by
  obtain ⟨member, rfl⟩ := heapPop_mem popped
  obtain ⟨entry, offers, goesOn, is⟩ := follows.offer member
  have greatest := follows.greatest popped offers goesOn is
  have pays : PaysBaseFee request entry := by
    rw [is] at floor
    exact (tip_nonneg_iff low).mp (Int.not_lt.mp floor)
  have found : pool.get top.sender top.nonce = some entry := by
    rw [is]
    exact offers.get
  have sameSender : top.sender = entry.sender := by rw [is]; rfl
  have sameGas : top.gasLimit = entry.gasLimit := by rw [is]; rfl
  have used : (state.senderGas top.sender).val = totalGas (ownOf state.selected entry.sender) := by
    rw [follows.share, sameSender]
  have part := totalGas_ownOf_le state.selected entry.sender
  have stops : ¬ Fits request state.selected entry → ∃ stopped', Follows keccak pool request
      { state with heap := state.heap.erase top } stopped' :=
    fun beyond => ⟨_, follows.stop member is greatest pays beyond⟩
  simp only [Mempool.visit, found]
  split
  case isTrue overShare =>
    apply stops
    intro fits
    obtain ⟨cap, isCap, beyond⟩ := (Option.any_eq_true _ _).mp overShare
    rw [Bool.and_eq_true, decide_eq_true_eq, decide_eq_true_eq, lt_saturatingAdd, sameGas,
      used] at beyond
    have bound := fits.share cap isCap fun none' => beyond.1 (Fin.ext (by rw [used, none']; rfl))
    omega
  case isFalse withinShare =>
    split
    case isTrue overGas =>
      apply stops
      intro fits
      have bound := fits.gas
      rw [lt_saturatingAdd, follows.gas, sameGas] at overGas
      omega
    case isFalse withinGas =>
      split
      case isTrue overBytes =>
        apply stops
        intro fits
        have bound := fits.bytes
        rw [← follows.bytes] at bound
        omega
      case isFalse withinBytes =>
        rw [lt_saturatingAdd, follows.gas, sameGas] at withinGas
        refine ⟨stopped, follows.take member is greatest pays ⟨by omega, ?_, ?_⟩⟩
        · rw [← follows.bytes]
          omega
        · intro cap isCap several
          have positive : 0 < totalGas (ownOf state.selected entry.sender) := by
            apply totalGas_pos several
            intro own inside
            exact consistent.gas own (follows.schedule.mem (mem_of_mem_filter inside)).1
          have notZero : state.senderGas top.sender ≠ 0 := by
            intro zero
            rw [zero] at used
            exact absurd used (by simp only [Fin.val_zero]; omega)
          by_contra beyond
          apply withinShare
          rw [Option.any_eq_true]
          refine ⟨cap, isCap, ?_⟩
          rw [Bool.and_eq_true, decide_eq_true_eq, decide_eq_true_eq, lt_saturatingAdd, sameGas,
            used]
          exact ⟨notZero, by omega, by omega⟩

end Follows

theorem Follows.loop {fuel : Nat} {state : DrainState} {stopped : List Address}
    (consistent : Consistent pool) (small : request.gasBudget.val < 2 ^ 64 - 1)
    (low : request.minBaseFee < 2 ^ 64) (follows : Follows keccak pool request state stopped) :
    ∃ stopped', Follows keccak pool request (drainLoop keccak ties pool request fuel state)
      stopped' := by
  induction fuel generalizing state stopped with
  | zero => exact ⟨stopped, follows⟩
  | succ fuel ih =>
    rw [drainLoop]
    cases popped : heapPop ties state.heap with
    | none => exact ⟨stopped, follows⟩
    | some result =>
      obtain ⟨top, rest⟩ := result
      dsimp only
      split
      case isTrue => exact ⟨stopped, follows⟩
      case isFalse floor =>
        obtain ⟨stopped', next⟩ := follows.visit consistent small low popped floor
        exact ih next

theorem candidateOf_nil (sender : Address) : candidateOf keccak pool request [] sender =
    ((pool.senderTxs sender).argmin EvmPoolEntry.nonce).bind fun entry =>
      candidate keccak pool request sender entry.nonce := by
  rw [candidateOf, resumeNonce, ownOf_nil]
  exact Option.bind_map

theorem follows_initial :
    Follows keccak pool request { heap := initialHeap keccak pool request } [] where
  schedule := Schedule.start
  heap := by
    intro top
    rw [initialHeap, mem_filterMap]
    constructor
    · rintro ⟨sender, -, starts⟩
      rw [← candidateOf_nil] at starts
      obtain ⟨entry, -, isSender, is⟩ := candidateOf_eq_some.mp starts
      have same : top.sender = sender := by
        rw [is]
        exact isSender
      rw [same]
      exact ⟨not_mem_nil, starts⟩
    · rintro ⟨-, starts⟩
      rw [candidateOf_nil] at starts
      refine ⟨top.sender, ?_, starts⟩
      obtain ⟨entry, lowest, -⟩ := Option.bind_eq_some_iff.mp starts
      have inside := argmin_mem lowest
      obtain ⟨pooled, isSender⟩ := mem_filter.mp inside
      rw [mem_dedup, mem_map]
      exact ⟨entry, pooled, by simpa using isSender⟩
  distinct := by
    exact (nodup_dedup _).sublist initialHeap_senders
  gas := rfl
  bytes := rfl
  share _ := rfl

theorem Follows.ended {state : DrainState} {stopped : List Address}
    (low : request.minBaseFee < 2 ^ 64) (follows : Follows keccak pool request state stopped)
    (finished : Finished ties state) : Ended pool request state.selected stopped := by
  intro sender pooled
  by_cases isStopped : sender ∈ stopped
  · exact .inl isStopped
  · right
    cases found : candidateOf keccak pool request state.selected sender with
    | none =>
      left
      have resumes : resumeNonce pool state.selected sender ≠ none := by
        rw [resumeNonce]
        split
        · simp
        · exact pooled
      obtain ⟨nonce, isNonce⟩ := Option.ne_none_iff_exists'.mp resumes
      exact gap_of_none isNonce found
    | some next =>
      right
      obtain ⟨entry, offers, isSender, is⟩ := candidateOf_eq_some.mp found
      have same : next.sender = sender := by rw [is]; exact isSender
      have inHeap : next ∈ state.heap := (follows.heap next).mpr ⟨same ▸ isStopped, same ▸ found⟩
      obtain ⟨top, rest, popped⟩ := @exists_heapPop ties _ _ inHeap
      have below := tip_le_of_rank (heapPop_greatest popped next inHeap)
      have under := finished top rest popped
      refine ⟨entry, isSender, offers, fun pays => ?_⟩
      have above := (@tip_nonneg_iff keccak request entry low).mpr pays
      rw [← is] at above
      omega

/-- A drain as the greedy schedule has it, and what is left behind. -/
structure DrainsGreedily (keccak : List Byte → B256) (pool : EvmPool) (request : DrainRequest)
    (drained : B256 → Option (Address × Nat)) (selected : List EvmPoolEntry)
    (result : List (List Byte) × EvmPool × (B256 → Option (Address × Nat))) : Prop where
  scheduled : ∃ stopped, Schedule keccak pool request selected stopped ∧
    Ended pool request selected stopped
  queued : ∀ sender, Queued pool request selected sender
  payable : ∀ entry ∈ selected, request.inFlight entry.hash = false ∧ PaysBaseFee request entry
  gas : totalGas selected ≤ request.gasBudget.val
  bytes : totalBytes (selected.map EvmPoolEntry.rawRlp) ≤ request.byteBudget
  share : ∀ cap ∈ request.senderGasCap, ∀ sender, 2 ≤ (ownOf selected sender).length →
    totalGas (ownOf selected sender) ≤ cap.val
  raws : result.1 = selected.map EvmPoolEntry.rawRlp
  left : result.2.1.entries = pool.entries.filter (· ∉ selected)
  fee : result.2.1.baseFee = pool.baseFee
  recorded : ∀ entry ∈ selected, result.2.2 entry.hash = some (entry.sender, entry.nonce)
  others : ∀ hash ∉ selected.map EvmPoolEntry.hash, result.2.2 hash = drained hash

section Record

variable {drained : B256 → Option (Address × Nat)} {selected : List EvmPoolEntry}

theorem recordDrained_other {hash : B256} (absent : hash ∉ selected.map EvmPoolEntry.hash) :
    recordDrained drained selected hash = drained hash := by
  rw [recordDrained]
  induction selected generalizing drained with
  | nil => rfl
  | cons entry selected ih =>
    rw [map_cons, mem_cons, not_or] at absent
    rw [foldl_cons, ih absent.2, Function.update_of_ne absent.1]

theorem recordDrained_mem (member : entry ∈ selected)
    (hashes : ∀ other ∈ selected, other.hash = entry.hash → other = entry) :
    recordDrained drained selected entry.hash = some (entry.sender, entry.nonce) := by
  rw [recordDrained]
  induction selected generalizing drained with
  | nil => cases member
  | cons first selected ih =>
    have later : ∀ other ∈ selected, other.hash = entry.hash → other = entry :=
      fun other inside => hashes other (mem_cons_of_mem _ inside)
    rw [foldl_cons]
    by_cases again : entry ∈ selected
    · exact ih again later
    · have here : first = entry := by
        rcases mem_cons.mp member with is | inside
        · exact is.symm
        · exact absurd inside again
      have absent : entry.hash ∉ selected.map EvmPoolEntry.hash := by
        intro found
        obtain ⟨other, inside, same⟩ := mem_map.mp found
        exact again (later other inside same ▸ inside)
      have kept := @recordDrained_other (Function.update drained first.hash
        (some (first.sender, first.nonce))) selected entry.hash absent
      rw [recordDrained] at kept
      rw [kept, here, Function.update_self]

end Record

/-- A drain is a greedy schedule, as long as its gas budget is not the greatest number there is:
the sum it is compared with saturates there. -/
theorem drain_greedy {drained : B256 → Option (Address × Nat)} (consistent : Consistent pool)
    (small : request.gasBudget.val < 2 ^ 64 - 1) (low : request.minBaseFee < 2 ^ 64) :
    DrainsGreedily keccak pool request drained (selection keccak ties pool request)
      (drainRecording keccak ties pool request drained) := by
  obtain ⟨stopped, follows⟩ := @Follows.loop keccak ties pool request pool.entries.length _ _
    consistent small low follows_initial
  have schedule : Schedule keccak pool request (selection keccak ties pool request) stopped :=
    follows.schedule
  have hashes : ∀ entry ∈ selection keccak ties pool request, ∀ other ∈ pool.entries,
      other.hash = entry.hash → other = entry := fun entry member other pooled same =>
    inj_on_of_nodup_map consistent.hashes pooled (schedule.mem member).1 same
  constructor
  case scheduled => exact ⟨stopped, schedule, follows.ended low selection_finished⟩
  case queued => exact schedule.queued
  case payable => exact fun entry member => (schedule.mem member).2
  case gas => exact schedule.within_budgets.1
  case bytes => exact schedule.within_budgets.2
  case share => exact fun cap isCap sender several => schedule.within_share isCap several
  case raws => rfl
  case left =>
    apply filter_congr
    intro entry pooled
    simp only [decide_eq_decide, not_iff_not, mem_map]
    constructor
    · rintro ⟨taken, member, same⟩
      rwa [hashes taken member entry pooled same.symm]
    · exact fun member => ⟨entry, member, rfl⟩
  case fee => rfl
  case recorded =>
    intro entry member
    apply recordDrained_mem member
    exact fun other inside => hashes entry member other (schedule.mem inside).1
  case others => exact fun hash absent => recordDrained_other absent

def queuedTx (hash : B256) (sender : Address) (nonce maxFee : Nat) : EvmPoolEntry where
  hash := hash
  sender := sender
  nonce := nonce
  maxFeePerGas := maxFee
  maxPriorityFee := 3
  gasLimit := 21000
  rawRlp := [1, 2]

/-- Sender 7 bids more for its second transaction, and the first one of sender 8 is in flight. -/
def twoSenders : EvmPool where
  entries := [queuedTx 1 7 0 10, queuedTx 2 7 1 20, queuedTx 3 8 4 15, queuedTx 4 8 5 12]
  baseFee := 5
  distinct := by decide

def sharedRequest : DrainRequest where
  gasBudget := 60000
  byteBudget := 100
  senderGasCap := some 30000
  parentHash := 0
  minBaseFee := 5
  inFlight hash := hash = 3

theorem drain_greedy_twoSenders : DrainsGreedily keccak256 twoSenders sharedRequest (fun _ => none)
    (selection keccak256 (fun _ => 0) twoSenders sharedRequest)
    (drainRecording keccak256 (fun _ => 0) twoSenders sharedRequest fun _ => none) :=
  drain_greedy ⟨by decide, by decide⟩ (by decide) (by decide)

end Follow

end TorusHyperBft.Mempool
