import TorusHyperBft.Mempool.Lanes
import TorusHyperBft.Mempool.PoolGrown
import TorusHyperBft.Mempool.Drained
import TorusHyperBft.Mempool.Admitted

namespace TorusHyperBft.Mempool

open List LanePool
open Signing (Address)

/-! The two lanes stay apart and are counted together, through every call. -/

section Distinct

variable {keccak : List Byte → B256} {ties : List DrainEntry → Nat} {pool : EvmPool}
  {request : DrainRequest}

/-- The heap stands before what is selected: one entry a sender, behind all that sender gave. -/
structure Spread (state : DrainState) : Prop where
  heap : (state.heap.map DrainEntry.sender).Nodup
  behind : ∀ entry ∈ state.heap, ∀ taken ∈ state.selected, taken.sender = entry.sender →
    taken.nonce < entry.nonce
  distinct : state.selected.Nodup

theorem Spread.pop {state : DrainState} {top : DrainEntry} (spread : Spread state)
    (member : top ∈ state.heap) : Spread { state with heap := state.heap.erase top } ∧
      ∀ other ∈ state.heap.erase top, other.sender ≠ top.sender := by
  have order := perm_cons_erase member
  have senders := (order.map DrainEntry.sender).nodup_iff.mp spread.heap
  rw [map_cons, nodup_cons] at senders
  refine ⟨⟨senders.2, ?_, spread.distinct⟩, ?_⟩
  · intro entry kept
    exact spread.behind entry (mem_of_mem_erase kept)
  · intro other kept same
    exact senders.1 (same ▸ mem_map_of_mem kept)

theorem Spread.visit {state : DrainState} {top : DrainEntry} (spread : Spread state)
    (alone : ∀ other ∈ state.heap, other.sender ≠ top.sender)
    (behind : ∀ taken ∈ state.selected, taken.sender = top.sender → taken.nonce < top.nonce) :
    Spread (Mempool.visit keccak pool request state top) := by
  rw [Mempool.visit]
  split
  · exact spread
  split
  · exact spread
  cases found : pool.get top.sender top.nonce with
  | none => exact spread
  | some entry =>
    obtain ⟨-, isSender, isNonce⟩ := EvmPool.get_mem found
    dsimp only
    split
    · exact spread
    refine ⟨?_, ?_, ?_⟩
    · cases next : candidate keccak pool request top.sender (top.nonce + 1) with
      | none => simpa using spread.heap
      | some pushed =>
        obtain ⟨-, same, -⟩ := candidateFrom_pooled next
        rw [Option.toList_some, map_append, nodup_append]
        refine ⟨spread.heap, nodup_singleton _, ?_⟩
        intro sender kept other placed equal
        obtain ⟨inHeap, member, rfl⟩ := mem_map.mp kept
        rw [map_singleton, mem_singleton] at placed
        exact alone inHeap member (equal.trans (placed.trans same))
    · intro other inHeap taken inSelected same
      rcases mem_append.mp inHeap with old | pushed
      · rcases mem_append.mp inSelected with before | now
        · exact spread.behind other old taken before same
        · rw [mem_singleton.mp now, isSender] at same
          exact absurd same.symm (alone other old)
      · obtain ⟨-, isTop, later⟩ := candidateFrom_pooled (Option.mem_toList.mp pushed)
        rcases mem_append.mp inSelected with before | now
        · have := behind taken before (same.trans isTop)
          omega
        · rw [mem_singleton.mp now, isNonce]
          omega
    · rw [nodup_append]
      refine ⟨spread.distinct, nodup_singleton _, ?_⟩
      rintro taken before other placed rfl
      rw [mem_singleton.mp placed] at before
      have := behind entry before isSender
      omega

theorem Spread.loop {fuel : Nat} {state : DrainState} (spread : Spread state) :
    Spread (drainLoop keccak ties pool request fuel state) := by
  induction fuel generalizing state with
  | zero => exact spread
  | succ fuel ih =>
    rw [drainLoop]
    cases popped : heapPop ties state.heap with
    | none => exact spread
    | some result =>
      obtain ⟨top, rest⟩ := result
      obtain ⟨member, rfl⟩ := heapPop_mem popped
      dsimp only
      split
      · exact spread
      · obtain ⟨left, alone⟩ := spread.pop member
        exact ih (left.visit alone (spread.behind top member))

theorem selection_nodup : (selection keccak ties pool request).Nodup := by
  have start : Spread { heap := initialHeap keccak pool request } :=
    ⟨(nodup_dedup _).sublist initialHeap_senders, by simp, nodup_nil⟩
  exact (@Spread.loop keccak ties pool request pool.entries.length _ start).distinct

end Distinct

namespace LanePool

variable {pool : LanePool}

theorem Sound.drain (sound : Sound pool) (keccak : List Byte → B256)
    (ties : List DrainEntry → Nat) (request : DrainRequest) :
    Shrunk pool (pool.drain keccak ties request).2 (pool.drain keccak ties request).1 := by
  have pooled : ∀ entry ∈ (pool.drain keccak ties request).1, entry ∈ pool.all := by
    intro entry member
    exact pwFilter_subset _ (selection_within.pooled entry member)
  obtain ⟨after, ran, shrunk⟩ := removeHashes_selected 0 sound pooled selection_nodup
  have isAfter : (pool.drain keccak ties request).2 = after := congrArg Prod.snd ran
  rwa [isAfter]

section Pair

variable {limits : PoolLimits} {pool other after otherAfter : LanePool} {entry : EvmPoolEntry}

/-- Two lanes with nothing in common, within the limits together. -/
structure Paired (limits : PoolLimits) (pool other : LanePool) : Prop where
  sound : Sound pool
  otherSound : Sound other
  apart : ∀ first ∈ pool.all, ∀ second ∈ other.all,
    first.sender ≠ second.sender ∧ first.hash ≠ second.hash
  total : pool.size + other.size ≤ limits.maxPoolSize
  share : ∀ sender, pool.ownCount sender + other.ownCount sender ≤ limits.maxPerSender

theorem Paired.symm (paired : Paired limits pool other) : Paired limits other pool where
  sound := paired.otherSound
  otherSound := paired.sound
  apart first inOther second inPool :=
    ⟨(paired.apart second inPool first inOther).1.symm, (paired.apart second inPool first inOther).2.symm⟩
  total := by
    rw [Nat.add_comm]
    exact paired.total
  share sender := by
    rw [Nat.add_comm]
    exact paired.share sender

theorem Paired.shrink {gone otherGone : List EvmPoolEntry} (paired : Paired limits pool other)
    (sound : Sound after) (perm : pool.all.Perm (gone ++ after.all)) (otherSound : Sound otherAfter)
    (otherPerm : other.all.Perm (otherGone ++ otherAfter.all)) : Paired limits after otherAfter where
  sound := sound
  otherSound := otherSound
  apart first member second otherMember :=
    paired.apart first (perm.mem_iff.mpr (mem_append_right _ member)) second
      (otherPerm.mem_iff.mpr (mem_append_right _ otherMember))
  total := by
    have bound := paired.total
    rw [paired.sound.counted, paired.otherSound.counted, perm.length_eq, otherPerm.length_eq,
      length_append, length_append] at bound
    rw [sound.counted, otherSound.counted]
    omega
  share sender := by
    have bound := paired.share sender
    rw [ownCount, ownCount, perm.countP_eq, otherPerm.countP_eq, countP_append,
      countP_append] at bound
    rw [ownCount, ownCount]
    omega

theorem Paired.grow {start : LanePool} {inserted : Inserted}
    {first gone goneOther : List EvmPoolEntry} (paired : Paired limits pool other)
    (usable : 1 ≤ limits.maxPerSender) (shrunk : Shrunk pool start first)
    (allowed : Allowed limits start other entry gone goneOther)
    (grown : Grown start other entry inserted gone goneOther)
    (alone : other.hasSender entry.sender = false) (fresh : other.contains entry.hash = false) :
    Paired limits inserted.pool inserted.other := by
  obtain ⟨middle, left, added⟩ := grown.added
  have begun := paired.shrink shrunk.sound shrunk.perm paired.otherSound (Shrunk.refl paired.otherSound).perm
  have less := begun.shrink left.sound left.perm grown.other.sound grown.other.perm
  have perm := added.perm grown.sound.toKeyed left.sound.toKeyed
  have otherMem : ∀ second ∈ inserted.other.all, second ∈ other.all := fun _ => grown.other.mem
  have noOwn : ∀ second ∈ other.all, second.sender ≠ entry.sender := by
    intro second member same
    rw [paired.otherSound.hasSender_iff.mpr ⟨second, member, same⟩] at alone
    cases alone
  have noHash : ∀ second ∈ other.all, second.hash ≠ entry.hash := by
    intro second member same
    rw [paired.otherSound.contains_iff.mpr ⟨second, member, same⟩] at fresh
    cases fresh
  have sizes : inserted.pool.size = middle.size + 1 ∧ start.size = gone.length + middle.size ∧
      other.size = goneOther.length + inserted.other.size := by
    rw [grown.sound.counted, left.sound.counted, shrunk.sound.counted, paired.otherSound.counted,
      grown.other.sound.counted, perm.length_eq, left.perm.length_eq, grown.other.perm.length_eq]
    simp
  have counts : ∀ sender, inserted.pool.ownCount sender =
      middle.ownCount sender + if entry.sender = sender then 1 else 0 := by
    intro sender
    rw [ownCount, perm.countP_eq, countP_cons, ownCount]
    simp
  have none' : inserted.other.ownCount entry.sender = 0 := by
    rw [ownCount, countP_eq_zero]
    intro second member
    simpa using noOwn second (otherMem second member)
  refine ⟨grown.sound, grown.other.sound, ?_, ?_, ?_⟩
  · intro one member second otherMember
    rcases mem_cons.mp (perm.mem_iff.mp member) with rfl | before
    · exact ⟨(noOwn second (otherMem second otherMember)).symm,
        (noHash second (otherMem second otherMember)).symm⟩
    · exact less.apart one before second otherMember
  · have bound := begun.total
    cases allowed with
    | replaces | outbids | outbidsOther => simp only [length_cons, length_nil] at sizes; omega
    | fits free room small => simp only [length_nil] at sizes; omega
  · intro sender
    have bound := less.share sender
    rw [counts]
    split
    case isFalse => omega
    case isTrue same =>
      subst same
      rw [none']
      have startCount : start.ownCount entry.sender =
          gone.countP (fun kept => kept.sender = entry.sender) + middle.ownCount entry.sender := by
        rw [ownCount, left.perm.countP_eq, countP_append, ownCount]
      have whole := begun.share entry.sender
      cases allowed with
      | replaces taken =>
        have own := (shrunk.sound.placed _ _ _ taken).1
        rw [countP_singleton] at startCount
        simp only [own, decide_true, if_true] at startCount
        omega
      | fits _ room | outbids _ room | outbidsOther _ room =>
        rcases room with nothing | few <;> omega

end Pair

end LanePool

namespace EvmLanes

def all (lanes : EvmLanes) : List EvmPoolEntry := lanes.small.all ++ lanes.big.all

/-- The lanes agree with each other, with their limits and with the counter of their bytes. -/
structure Sound (limits : PoolLimits) (lanes : EvmLanes) : Prop where
  config : lanes.config.limits = limits
  paired : Paired limits lanes.small lanes.big
  off : lanes.bigBlocksOn = false → lanes.big.all = []
  memory : lanes.memoryUsed = rawBytes lanes.all

variable {limits : PoolLimits} {lanes after : EvmLanes} {evm : EvmLibrary} {ingress : Ingress}
  {raw : List Byte} {entry : EvmPoolEntry} {lane : EvmLane} {reinsert : Bool}

theorem sound_new (config : LanesConfig) : Sound config.limits (new config) where
  config := rfl
  paired := ⟨sound_empty _, sound_empty _, fun _ member => absurd member not_mem_nil,
    Nat.zero_le _, fun _ => Nat.zero_le _⟩
  off _ := rfl
  memory := rfl

section Fewer

variable {gone goneBig : List EvmPoolEntry}

theorem Sound.shrink (sound : Sound limits lanes) (config : after.config = lanes.config)
    (small : LanePool.Sound after.small) (perm : lanes.small.all.Perm (gone ++ after.small.all))
    (big : LanePool.Sound after.big) (bigPerm : lanes.big.all.Perm (goneBig ++ after.big.all))
    (off : after.bigBlocksOn = false → after.big.all = [])
    (memory : after.memoryUsed = lanes.memoryUsed - (rawBytes gone + rawBytes goneBig)) :
    Sound limits after where
  config := config ▸ sound.config
  paired := sound.paired.shrink small perm big bigPerm
  off := off
  memory := by
    rw [memory, sound.memory, all, all, rawBytes_append, rawBytes_append,
      rawBytes_perm perm, rawBytes_perm bigPerm, rawBytes_append,
      rawBytes_append]
    omega

theorem Sound.lose (sound : Sound limits lanes) (config : after.config = lanes.config)
    (interval : after.currentBigInterval = lanes.currentBigInterval)
    (small : Shrunk lanes.small after.small gone) (big : Shrunk lanes.big after.big goneBig)
    (memory : after.memoryUsed = lanes.memoryUsed - (rawBytes gone + rawBytes goneBig)) :
    Sound limits after := by
  refine sound.shrink config small.sound small.perm big.sound big.perm ?_ memory
  intro isOff
  have before := sound.off (by rwa [bigBlocksOn, ← interval])
  have perm := big.perm
  rw [before] at perm
  exact (append_eq_nil_iff.mp (nil_perm.mp perm)).2

end Fewer

variable (sound : Sound limits lanes)
include sound

theorem Sound.drainEvm (keccak : List Byte → B256)
    (ties : List DrainEntry → Nat) (gasLimit baseFee : U64) (parentHash : B256)
    (inFlight : B256 → Bool) :
    Sound limits (lanes.drainEvm keccak ties gasLimit baseFee parentHash inFlight).2 := by
  refine sound.lose rfl rfl (sound.paired.sound.drain keccak ties _)
    (.refl sound.paired.otherSound) ?_
  simp only [EvmLanes.drainEvm, map_map, rawBytes_nil, Nat.add_zero]
  rfl

theorem Sound.drainEvmBig (keccak : List Byte → B256)
    (ties : List DrainEntry → Nat) (gasLimit : U64) (byteBudget : Nat) (bigBaseFee : U64)
    (parentHash : B256) (inFlight : B256 → Bool) :
    Sound limits
      (lanes.drainEvmBig keccak ties gasLimit byteBudget bigBaseFee parentHash inFlight).2 := by
  refine sound.lose rfl rfl (.refl sound.paired.sound)
    (sound.paired.otherSound.drain keccak ties _) ?_
  simp only [EvmLanes.drainEvmBig, map_map, rawBytes_nil, Nat.zero_add]
  rfl

theorem Sound.pruneSender (stateNonce : Address → Nat)
    (sender : Address) : Sound limits (EvmLanes.pruneSender stateNonce lanes sender) := by
  obtain ⟨gone, small, ran, shrunk⟩ :=
    sound.paired.sound.pruneConfirmed sender (stateNonce sender)
  obtain ⟨goneBig, big, ranBig, shrunkBig⟩ :=
    sound.paired.otherSound.pruneConfirmed sender (stateNonce sender)
  rw [EvmLanes.pruneSender, ran, ranBig]
  exact sound.lose rfl rfl shrunk shrunkBig rfl

theorem Sound.pruneSenders (stateNonce : Address → Nat) (senders : List Address) :
    Sound limits (senders.foldl (EvmLanes.pruneSender stateNonce) lanes) := by
  induction senders generalizing lanes with
  | nil => exact sound
  | cons sender senders ih => exact ih (sound.pruneSender stateNonce sender)

theorem removeByHash_shrunk (hash : B256) :
    ∃ gone goneBig, Shrunk lanes.small (lanes.removeByHash hash).2.small gone ∧
      Shrunk lanes.big (lanes.removeByHash hash).2.big goneBig ∧
      lengthOf (lanes.removeByHash hash).1 = rawBytes gone + rawBytes goneBig := by
  have soundSmall := sound.paired.sound
  have soundBig := sound.paired.otherSound
  rw [removeByHash]
  rcases soundSmall.removeByHash hash with ⟨ran, -⟩ | ⟨entry, small, ran, -, soundAfter, removed⟩
  · rcases soundBig.removeByHash hash with ⟨ranBig, -⟩ | ⟨entry, big, ranBig, -, soundAfter, removed⟩
    · rw [ran, ranBig]
      exact ⟨[], [], .refl soundSmall, .refl soundBig, rfl⟩
    · rw [ran, ranBig]
      exact ⟨[], [entry], .refl soundSmall, .of_removed soundBig soundAfter removed, by
        simp [lengthOf]⟩
  · rw [ran]
    exact ⟨[entry], [], .of_removed soundSmall soundAfter removed, .refl soundBig, by simp [lengthOf]⟩

omit sound

theorem removeByHash_frame (hash : B256) : (lanes.removeByHash hash).2.config = lanes.config ∧
    (lanes.removeByHash hash).2.currentBigInterval = lanes.currentBigInterval ∧
      (lanes.removeByHash hash).2.memoryUsed = lanes.memoryUsed := by
  rw [removeByHash]
  split <;> exact ⟨rfl, rfl, rfl⟩

theorem Sound.commitHash (sound : Sound limits lanes) (height : U64) (hash : B256) :
    Sound limits (EvmLanes.commitHash height lanes hash) := by
  -- What is noted of the hash has no part in the lanes.
  have noted : Sound limits { lanes with committed := lanes.committed.insert hash height } :=
    ⟨sound.config, sound.paired, sound.off, sound.memory⟩
  obtain ⟨gone, goneBig, small, big, freed⟩ := removeByHash_shrunk noted hash
  obtain ⟨config, interval, memory⟩ := @removeByHash_frame
    { lanes with committed := lanes.committed.insert hash height } hash
  rw [EvmLanes.commitHash]
  generalize ({ lanes with committed := lanes.committed.insert hash height } : EvmLanes).removeByHash
    hash = removal at small big freed config interval memory ⊢
  obtain ⟨removed, left⟩ := removal
  dsimp only at small big freed config interval memory ⊢
  split
  all_goals
    refine noted.lose config interval small big ?_
    rw [memory, freed]

theorem Sound.removeCommittedEvm (sound : Sound limits lanes) (height : U64)
    (raws : List (List Byte)) : Sound limits (lanes.removeCommittedEvm evm height raws) := by
  rw [EvmLanes.removeCommittedEvm]
  generalize raws.filterMap (evmTxHash evm) = hashes
  refine List.foldlRecOn hashes _ ?_ ?_
  · exact ⟨sound.config, sound.paired, sound.off, sound.memory⟩
  · intro lanes sound hash _
    exact sound.commitHash height hash

theorem Sound.setBaseFee (sound : Sound limits lanes) (baseFee : U64) :
    Sound limits (lanes.setBaseFee baseFee) := by
  refine @Sound.shrink limits lanes (lanes.setBaseFee baseFee) [] [] sound rfl
    (sound.paired.sound.setBaseFee baseFee) ?_ sound.paired.otherSound
    (List.Perm.refl _) sound.off rfl
  rw [EvmLanes.setBaseFee, all_setBaseFee]
  exact List.Perm.refl _

theorem Sound.setEvmGasLimit (sound : Sound limits lanes) (gasLimit : U64) :
    Sound limits (lanes.setEvmGasLimit gasLimit) := by
  rw [EvmLanes.setEvmGasLimit]
  dsimp only
  split
  · obtain ⟨gone, small, ran, shrunk⟩ := sound.paired.sound.evictGasAbove
      (min gasLimit lanes.config.evmBlockGasBudget)
    rw [ran]
    exact sound.lose rfl rfl shrunk (.refl sound.paired.otherSound) rfl
  · exact ⟨sound.config, sound.paired, sound.off, sound.memory⟩

theorem validated_raw (valid : lanes.validated evm ingress raw reinsert = .ok entry) :
    entry.rawRlp = raw := by
  obtain ⟨-, -, -, -, -, same⟩ := validateEvmTx_inv (validated_valid valid)
  exact same

theorem checkInFlight_fresh (flight : lanes.checkInFlight entry = .ok ()) (each : EvmLane) :
    (lanes.pool each).contains entry.hash = false := by
  rw [checkInFlight] at flight
  split at flight
  · cases flight
  rename_i unknown
  rw [not_or, laneOf] at unknown
  cases each with
  | small =>
    rw [pool, Bool.eq_false_iff]
    intro known
    exact unknown.1 (by rw [if_pos known]; rfl)
  | big =>
    rw [pool, Bool.eq_false_iff]
    intro known
    apply unknown.1
    rw [if_pos known]
    split <;> rfl

theorem chooseLane_alone (sound : Sound limits lanes)
    (chosen : lanes.chooseLane ingress entry reinsert = .ok lane) :
    (lanes.pool lane.other).hasSender entry.sender = false ∧
      (lane = .big → lanes.bigBlocksOn = true) := by
  have onBig : lanes.evmLane ingress entry.sender = .big → lanes.bigBlocksOn = true := by
    intro isBig
    rw [evmLane] at isBig
    split at isBig
    · cases isBig
    · rename_i on
      simpa using on
  have bigOn : lanes.big.hasSender entry.sender = true → lanes.bigBlocksOn = true := by
    intro holds
    by_contra isOff
    obtain ⟨kept, member, -⟩ := sound.paired.otherSound.hasSender_iff.mp holds
    rw [sound.off (by simpa using isOff)] at member
    cases member
  have notBoth : lanes.small.hasSender entry.sender = true →
      lanes.big.hasSender entry.sender = false := by
    intro small
    rw [Bool.eq_false_iff]
    intro big
    obtain ⟨first, inSmall, isFirst⟩ := sound.paired.sound.hasSender_iff.mp small
    obtain ⟨second, inBig, isSecond⟩ := sound.paired.otherSound.hasSender_iff.mp big
    exact (sound.paired.apart first inSmall second inBig).1 (isFirst.trans isSecond.symm)
  rw [chooseLane] at chosen
  generalize lanes.evmLane ingress entry.sender = home at chosen onBig
  cases home with
  | small =>
    cases held : lanes.big.hasSender entry.sender with
    | false =>
      simp only [EvmLane.other, pool, held, Bool.false_eq_true, if_false, reduceCtorEq, false_and] at chosen
      cases chosen
      exact ⟨held, fun isBig => by cases isBig⟩
    | true =>
      have on := bigOn held
      cases reinsert with
      | false => simp [EvmLane.other, pool, held] at chosen
      | true =>
        simp only [EvmLane.other, pool, held, on, if_true, Bool.not_true, Bool.false_eq_true, and_false,
          if_false] at chosen
        cases chosen
        refine ⟨?_, fun _ => on⟩
        rw [Bool.eq_false_iff]
        intro small
        rw [notBoth small] at held
        cases held
  | big =>
    have on := onBig rfl
    cases held : lanes.small.hasSender entry.sender with
    | false =>
      simp only [EvmLane.other, pool, held, on, Bool.false_eq_true, if_false, Bool.not_true, and_false] at chosen
      cases chosen
      exact ⟨held, fun _ => on⟩
    | true =>
      cases reinsert with
      | false => simp [EvmLane.other, pool, held] at chosen
      | true =>
        simp only [EvmLane.other, pool, held, if_true, reduceCtorEq, false_and, if_false] at chosen
        cases chosen
        exact ⟨notBoth held, fun isBig => by cases isBig⟩

theorem all_perm (lanes : EvmLanes) (lane : EvmLane) :
    lanes.all.Perm ((lanes.pool lane).all ++ (lanes.pool lane.other).all) := by
  cases lane with
  | small => exact List.Perm.refl _
  | big => exact perm_append_comm

theorem Sound.lanePaired (sound : Sound limits lanes) (lane : EvmLane) :
    Paired limits (lanes.pool lane) (lanes.pool lane.other) := by
  cases lane with
  | small => exact sound.paired
  | big => exact sound.paired.symm

theorem insert_grown (sound : Sound limits lanes) {inserted : LanePool.Inserted}
    (ran : lanes.insert lane entry reinsert = .ok inserted) :
    ∃ start first gone goneOther, Shrunk (lanes.pool lane) start first ∧
      Allowed limits start (lanes.pool lane.other) entry gone goneOther ∧
      Grown start (lanes.pool lane.other) entry inserted gone goneOther ∧
      inserted.freedBytes = rawBytes first + (rawBytes gone + rawBytes goneOther) := by
  have paired := sound.lanePaired lane
  rw [insert, sound.config] at ran
  cases reinsert with
  | false =>
    obtain ⟨gone, goneOther, allowed, grown, freed⟩ :=
      insertSharing_grown paired.sound paired.otherSound ran
    exact ⟨_, [], gone, goneOther, .refl paired.sound, allowed, grown, by simp [freed]⟩
  | true =>
    obtain ⟨start, first, gone, goneOther, shrunk, -, allowed, grown, freed⟩ :=
      reinsertSharing_grown paired.sound paired.otherSound ran
    exact ⟨start, first, gone, goneOther, shrunk, allowed, grown, freed⟩

theorem setPools_frame (lanes : EvmLanes) (lane : EvmLane) (pool other : LanePool) :
    (lanes.setPools lane pool other).config = lanes.config ∧
      (lanes.setPools lane pool other).bigBlocksOn = lanes.bigBlocksOn := by
  cases lane <;> exact ⟨rfl, rfl⟩

theorem Sound.admitEvmTx (sound : Sound limits lanes) (usable : 1 ≤ limits.maxPerSender)
    (ran : lanes.admitEvmTx evm ingress raw reinsert = .ok after) : Sound limits after := by
  obtain ⟨entry, lane, inserted, valid, flight, chosen, -, placed, rfl⟩ := admitEvmTx_eq_ok.mp ran
  obtain ⟨alone, onBig⟩ := chooseLane_alone sound chosen
  obtain ⟨start, first, gone, goneOther, shrunk, allowed, grown, freed⟩ := insert_grown sound placed
  have paired := (sound.lanePaired lane).grow usable shrunk allowed grown alone
    (checkInFlight_fresh flight lane.other)
  obtain ⟨isPool, isOther⟩ := setPools_pool lanes lane inserted.pool inserted.other
  obtain ⟨config, on⟩ := setPools_frame lanes lane inserted.pool inserted.other
  refine ⟨config ▸ sound.config, ?_, ?_, ?_⟩
  · cases lane with
    | small => exact paired
    | big => exact paired.symm
  · intro isOff
    have wasOff : lanes.bigBlocksOn = false := on ▸ isOff
    cases lane with
    | big =>
      rw [onBig rfl] at wasOff
      cases wasOff
    | small =>
      have perm : lanes.big.all.Perm (goneOther ++ inserted.other.all) := grown.other.perm
      rw [sound.off wasOff] at perm
      exact (append_eq_nil_iff.mp (nil_perm.mp perm)).2
  · -- The bytes of the lane before: what left first, what left for the entry, and the rest.
    obtain ⟨middle, left, added⟩ := grown.added
    have before := rawBytes_perm (all_perm lanes lane)
    have now := rawBytes_perm
      (all_perm (lanes.setPools lane inserted.pool inserted.other) lane)
    have begun := rawBytes_perm shrunk.perm
    have less := rawBytes_perm left.perm
    have more := rawBytes_perm (added.perm grown.sound.toKeyed left.sound.toKeyed)
    have otherLess := rawBytes_perm grown.other.perm
    rw [isPool, isOther] at now
    simp only [rawBytes_append, rawBytes_cons, validated_raw valid] at *
    rw [sound.memory, freed, before]
    change _ = rawBytes (lanes.setPools lane inserted.pool inserted.other).all
    omega

theorem Sound.reinsertEvm (sound : Sound limits lanes) (usable : 1 ≤ limits.maxPerSender)
    (raws : List (List Byte)) : Sound limits (lanes.reinsertEvm evm ingress raws) := by
  rw [EvmLanes.reinsertEvm]
  refine List.foldlRecOn raws _ ?_ ?_
  · exact ⟨sound.config, sound.paired, sound.off, sound.memory⟩
  · intro lanes sound raw _
    cases ran : lanes.admitEvmTx evm ingress raw true with
    | ok after => exact sound.admitEvmTx usable ran
    | error reason => exact sound

theorem Sound.shrinkBig {goneBig : List EvmPoolEntry} (sound : Sound limits lanes)
    (config : after.config = lanes.config) (small : after.small = lanes.small)
    (big : LanePool.Sound after.big) (perm : lanes.big.all.Perm (goneBig ++ after.big.all))
    (off : after.bigBlocksOn = false → after.big.all = [])
    (memory : after.memoryUsed = lanes.memoryUsed - rawBytes goneBig) : Sound limits after := by
  refine @Sound.shrink limits lanes after [] goneBig sound config (small ▸ sound.paired.sound) ?_ big
    perm off ?_
  · rw [small]
    exact List.Perm.refl _
  · rw [memory, rawBytes_nil, Nat.zero_add]

theorem Sound.setBigLane (sound : Sound limits lanes) (usable : 1 ≤ limits.maxPerSender)
    (interval gasLimit baseFee : U64) :
    Sound limits (lanes.setBigLane evm ingress interval gasLimit baseFee) := by
  have big := sound.paired.otherSound.setBaseFee baseFee
  have same : lanes.big.all.Perm (lanes.big.setBaseFee baseFee).all := by
    rw [all_setBaseFee]
  rw [EvmLanes.setBigLane]
  dsimp only
  by_cases on : 0 < interval
  · have isOn : ∀ lanes : EvmLanes, lanes.currentBigInterval = interval →
        lanes.bigBlocksOn = false → lanes.big.all = [] := by
      intro lanes is isOff
      rw [bigBlocksOn, is, decide_eq_false_iff_not] at isOff
      exact absurd on isOff
    rw [if_neg fun both => (ne_of_gt on) both.1]
    split
    · obtain ⟨gone, after, ran, shrunk⟩ := big.evictGasAbove gasLimit
      rw [ran]
      exact sound.shrinkBig rfl rfl shrunk.sound (same.trans shrunk.perm) (isOn _ rfl) rfl
    · exact @Sound.shrinkBig _ _ _ [] sound rfl rfl big same (isOn _ rfl) rfl
  · obtain rfl : interval = 0 := by
      rw [Fin.lt_def, Fin.val_zero] at on
      exact Fin.ext (by rw [Fin.val_zero]; omega)
    have stays : ¬ ((0 : U64) < 0 ∧ gasLimit < lanes.currentBigGasLimit) := fun both => on both.1
    simp only [stays, if_false, true_and]
    split
    · obtain ⟨moved, shrunk⟩ := takeAll_shrunk (lanes.big.setBaseFee baseFee)
      refine Sound.reinsertEvm ?_ usable _
      refine sound.shrinkBig rfl rfl shrunk.sound (same.trans shrunk.perm) (fun _ => rfl) ?_
      rw [moved, map_map]
      rfl
    · rename_i some'
      refine @Sound.shrinkBig _ _ _ [] sound rfl rfl big same (fun _ => ?_) rfl
      rw [big.counted] at some'
      exact length_eq_zero_iff.mp (by simpa using some')

/-- Every call of the lanes keeps each pool sound and within its limits. -/
theorem Sound.step (sound : Sound limits lanes) (usable : 1 ≤ limits.maxPerSender)
    (keccak : List Byte → B256) (ties : List DrainEntry → Nat) (call : LaneCall) :
    Sound limits (lanes.step evm keccak ties call) := by
  cases call with
  | addEvmTx ingress raw =>
    rw [EvmLanes.step]
    cases ran : lanes.admitEvmTx evm ingress raw false with
    | ok after => exact sound.admitEvmTx usable ran
    | error reason => exact sound
  | reinsertEvm ingress raws => exact sound.reinsertEvm usable raws
  | drainEvm gasLimit baseFee parentHash inFlight => exact sound.drainEvm keccak ties _ _ _ _
  | drainEvmBig gasLimit byteBudget bigBaseFee parentHash inFlight =>
    exact sound.drainEvmBig keccak ties _ _ _ _ _
  | removeCommittedEvm height raws => exact sound.removeCommittedEvm height raws
  | notifyBlockCommitted stateNonce senders => exact sound.pruneSenders stateNonce senders
  | pruneCommittedTxs executedHeight stateNonce =>
    have pruned := sound.pruneSenders stateNonce (lanes.small.allSenders ++ lanes.big.allSenders ++
      lanes.committedNext.keys ++ lanes.drained.entries.map fun row => row.2.1).dedup
    exact ⟨pruned.config, pruned.paired, pruned.off, pruned.memory⟩
  | setBaseFee baseFee => exact sound.setBaseFee baseFee
  | setEvmGasLimit gasLimit => exact sound.setEvmGasLimit gasLimit
  | setBigLane ingress interval gasLimit baseFee => exact sound.setBigLane usable _ _ _

theorem Sound.run (sound : Sound limits lanes) (usable : 1 ≤ limits.maxPerSender)
    (keccak : List Byte → B256) (ties : List DrainEntry → Nat) (calls : List LaneCall) :
    Sound limits (lanes.run evm keccak ties calls) := by
  induction calls generalizing lanes with
  | nil => exact sound
  | cons call calls ih => exact ih (sound.step usable keccak ties call)

/-- Only at the cap does an admission push out a transaction, one that pays less in its lane than
the new one in its own; besides that it may replace the one of its sender at its nonce. -/
def Outbids (lanes after : EvmLanes) (lane : EvmLane) (entry : EvmPoolEntry) : Prop :=
  ∀ each, ∀ lost ∈ (lanes.pool each).all, lost ∉ (after.pool each).all →
    (lost.sender = entry.sender ∧ lost.nonce = entry.nonce) ∨
      lanes.config.limits.maxPoolSize ≤ lanes.small.size + lanes.big.size ∧
        (lanes.pool each).tipIn lost < (lanes.pool lane).tipIn entry

/-- All that a returning transaction costs is the highest nonce of its sender. -/
def CostsHighest (lanes after : EvmLanes) (entry : EvmPoolEntry) : Prop :=
  ∀ lost ∈ lanes.all, lost ∉ after.all → lost.sender = entry.sender ∧
    ∀ kept ∈ lanes.all, kept.sender = entry.sender → kept.nonce ≤ lost.nonce

theorem admitEvmTx_outbids (sound : Sound limits lanes)
    (ran : lanes.admitEvmTx evm ingress raw false = .ok after) :
    ∃ entry lane, lanes.validated evm ingress raw false = .ok entry ∧
      lanes.chooseLane ingress entry false = .ok lane ∧ entry ∈ (after.pool lane).all ∧
      Outbids lanes after lane entry := by
  obtain ⟨entry, lane, inserted, valid, -, chosen, -, placed, rfl⟩ := admitEvmTx_eq_ok.mp ran
  have paired := sound.lanePaired lane
  have bothSizes : (lanes.pool lane).size + (lanes.pool lane.other).size =
      lanes.small.size + lanes.big.size := by
    cases lane with
    | small => rfl
    | big => exact Nat.add_comm _ _
  rw [insert, sound.config] at placed
  obtain ⟨gone, goneOther, allowed, grown, -⟩ :=
    insertSharing_grown paired.sound paired.otherSound placed
  obtain ⟨middle, left, added⟩ := grown.added
  have perm := added.perm grown.sound.toKeyed left.sound.toKeyed
  obtain ⟨isPool, isOther⟩ := setPools_pool lanes lane inserted.pool inserted.other
  refine ⟨entry, lane, valid, chosen, ?_, ?_⟩
  · change entry ∈ ((lanes.setPools lane inserted.pool inserted.other).pool lane).all
    rw [isPool, perm.mem_iff]
    exact mem_cons_self
  · intro each lost member absent
    change lost ∉ ((lanes.setPools lane inserted.pool inserted.other).pool each).all at absent
    have isGone : (each = lane ∧ lost ∈ gone) ∨ (each = lane.other ∧ lost ∈ goneOther) := by
      by_cases own : each = lane
      · subst own
        rw [isPool, perm.mem_iff, mem_cons, not_or] at absent
        rcases mem_append.mp (left.perm.mem_iff.mp member) with isGone | kept
        · exact .inl ⟨rfl, isGone⟩
        · exact absurd kept absent.2
      · obtain rfl : each = lane.other := by cases each <;> cases lane <;> first | rfl | exact absurd rfl own
        rw [isOther] at absent
        rcases mem_append.mp (grown.other.perm.mem_iff.mp member) with isGone | kept
        · exact .inr ⟨rfl, isGone⟩
        · exact absurd kept absent
    rw [sound.config, ← bothSizes]
    cases allowed with
    | replaces taken =>
      rcases isGone with ⟨rfl, isGone⟩ | ⟨-, isGone⟩
      · rw [mem_singleton.mp isGone]
        exact .inl (paired.sound.placed _ _ _ taken)
      · cases isGone
    | fits => rcases isGone with ⟨-, isGone⟩ | ⟨-, isGone⟩ <;> cases isGone
    | outbids _ _ full cheaper =>
      rcases isGone with ⟨rfl, isGone⟩ | ⟨-, isGone⟩
      · rw [mem_singleton.mp isGone]
        exact .inr ⟨full, cheaper⟩
      · cases isGone
    | outbidsOther _ _ full cheaper =>
      rcases isGone with ⟨-, isGone⟩ | ⟨rfl, isGone⟩
      · cases isGone
      · rw [mem_singleton.mp isGone]
        exact .inr ⟨full, cheaper⟩

theorem reinsert_returns (sound : Sound limits lanes)
    (valid : lanes.validated evm ingress raw true = .ok entry)
    (flight : lanes.checkInFlight entry = .ok ())
    (chosen : lanes.chooseLane ingress entry true = .ok lane)
    (caps : checkLaneCaps entry (lanes.laneCaps lane) = .ok ())
    (free : ∀ kept ∈ lanes.all, kept.sender = entry.sender → kept.nonce ≠ entry.nonce)
    {above : EvmPoolEntry} (pooled : above ∈ lanes.all) (own : above.sender = entry.sender)
    (higher : entry.nonce < above.nonce) :
    ∃ after, lanes.admitEvmTx evm ingress raw true = .ok after ∧ entry ∈ after.all ∧
      CostsHighest lanes after entry := by
  have paired := sound.lanePaired lane
  have order := all_perm lanes lane
  -- The chosen lane is that of the sender.
  have inLane : ∀ kept ∈ lanes.all, kept.sender = entry.sender → kept ∈ (lanes.pool lane).all := by
    intro kept member same
    rcases mem_append.mp (order.mem_iff.mp member) with here | there
    · exact here
    · have alone := (chooseLane_alone sound chosen).1
      rw [paired.otherSound.hasSender_iff.mpr ⟨kept, there, same⟩] at alone
      cases alone
  have empty : (lanes.pool lane).queue entry.sender entry.nonce = none := by
    cases taken : (lanes.pool lane).queue entry.sender entry.nonce with
    | none => rfl
    | some kept =>
      obtain ⟨isSender, isNonce⟩ := paired.sound.placed _ _ _ taken
      have member := mem_all.mpr ⟨_, _, taken⟩
      exact absurd isNonce (free kept (order.mem_iff.mpr (mem_append_left _ member)) isSender)
  have few : (lanes.pool lane).ownCount entry.sender ≤ max limits.maxPerSender 1 := by
    have bound := paired.share entry.sender
    omega
  obtain ⟨inserted, start, ran, shrunk, other, added⟩ := reinsertSharing_ok paired.sound
    paired.total few empty (checkInFlight_fresh flight lane) (inLane above pooled own) own higher
  have placed : lanes.insert lane entry true = .ok inserted := by
    rw [insert, sound.config]
    exact ran
  obtain ⟨_, _, _, _, _, _, _, grown, _⟩ :=
    reinsertSharing_grown paired.sound paired.otherSound ran
  have perm := added.perm grown.sound.toKeyed shrunk.sound.toKeyed
  obtain ⟨isPool, isOther⟩ := setPools_pool lanes lane inserted.pool inserted.other
  have now := all_perm (lanes.setPools lane inserted.pool inserted.other) lane
  rw [isPool, isOther] at now
  refine ⟨_, admitEvmTx_eq_ok.mpr ⟨entry, lane, inserted, valid, flight, chosen, caps, placed, rfl⟩,
    ?_, ?_⟩
  · apply now.mem_iff.mpr
    exact mem_append_left _ (perm.mem_iff.mpr mem_cons_self)
  · intro lost member absent
    have missing : lost ∉ (lanes.setPools lane inserted.pool inserted.other).all := absent
    rw [now.mem_iff, mem_append, not_or, perm.mem_iff, mem_cons, not_or] at missing
    rcases mem_append.mp (order.mem_iff.mp member) with here | there
    · rcases mem_append.mp (shrunk.perm.mem_iff.mp here) with top | kept
      · obtain ⟨-, isOwn, -, highest, -⟩ :=
          makesRoom_spec paired.sound (Option.mem_toList.mp top)
        exact ⟨isOwn, fun kept inAll same => highest kept (inLane kept inAll same) same⟩
      · exact absurd kept missing.1.2
    · exact absurd (other ▸ there) missing.2

/-- Everything asked of the lanes at one moment: they are sound, an admission pushes out only what
pays less, and what returns below a pooled nonce of its sender does return. -/
structure Consistent (evm : EvmLibrary) (limits : PoolLimits) (lanes : EvmLanes) : Prop where
  sound : Sound limits lanes
  outbids : ∀ ingress raw after, lanes.admitEvmTx evm ingress raw false = .ok after →
    ∃ entry lane, lanes.validated evm ingress raw false = .ok entry ∧
      lanes.chooseLane ingress entry false = .ok lane ∧ entry ∈ (after.pool lane).all ∧
      Outbids lanes after lane entry
  returns : ∀ ingress raw entry lane above, lanes.validated evm ingress raw true = .ok entry →
    lanes.checkInFlight entry = .ok () → lanes.chooseLane ingress entry true = .ok lane →
    checkLaneCaps entry (lanes.laneCaps lane) = .ok () →
    (∀ kept ∈ lanes.all, kept.sender = entry.sender → kept.nonce ≠ entry.nonce) →
    above ∈ lanes.all → above.sender = entry.sender → entry.nonce < above.nonce →
    ∃ after, lanes.admitEvmTx evm ingress raw true = .ok after ∧ entry ∈ after.all ∧
      CostsHighest lanes after entry

/-- Whatever the calls and their order, as long as a sender may have a transaction. -/
theorem run_consistent (evm : EvmLibrary) (keccak : List Byte → B256)
    (ties : List DrainEntry → Nat) (config : LanesConfig) (calls : List LaneCall)
    (usable : 1 ≤ config.limits.maxPerSender) :
    Consistent evm config.limits ((new config).run evm keccak ties calls) := by
  have sound := @Sound.run config.limits (new config) evm (sound_new config) usable keccak ties calls
  refine ⟨sound, fun ingress raw after ran => admitEvmTx_outbids sound ran, ?_⟩
  intro ingress raw entry lane above valid flight chosen caps free pooled own higher
  exact reinsert_returns sound valid flight chosen caps free pooled own higher

def oneTx : EvmLibrary where
  decode raw :=
    if raw = [7] then
      some
        ({ txType := .legacy
           chainId := none
           nonce := 0
           gasLimit := 21000
           maxFeePerGas := 0
           maxPriorityFeePerGas := none
           value := 0
           isCreate := false
           input := []
           accessAccounts := 0
           accessKeys := 0
           txHash := 7 }, [])
    else none
  recoverSigner _ := some 3
  intrinsicGas _ := 21000
  decode_nil := rfl
  intrinsicGas_min _ := Nat.le_refl _

def laneConfig : LanesConfig where
  limits := { maxPoolSize := 10, maxPerSender := 16, replacementBumpPct := 10 }
  chainId := 1
  blockGasLimit := 30000000
  initialBaseFee := 0
  evmBlockGasBudget := 30000000
  evmSenderSharePct := 0
  maxMemoryBytes := 0

def emptyIngress : Ingress where
  account _ := none
  usesBigBlocks _ := false

/-- A transaction is taken into a block, put back, moved by the fee, and committed. -/
theorem run_consistent_one : Consistent oneTx laneConfig.limits
    ((new laneConfig).run oneTx (fun _ => 0) (fun _ => 0)
      [.setBigLane emptyIngress 4 60000000 0, .addEvmTx emptyIngress [7],
        .drainEvm 30000000 0 0 fun _ => false, .reinsertEvm emptyIngress [[7]], .setBaseFee 5,
        .removeCommittedEvm 1 [[7]], .pruneCommittedTxs 1 fun _ => 1]) :=
  run_consistent oneTx (fun _ => 0) (fun _ => 0) laneConfig _ (by decide)

end EvmLanes

end TorusHyperBft.Mempool
