import TorusHyperBft.Account.Trade

namespace TorusHyperBft.Account

open OrderBook (Address MarketId)

/-! The write-back cache that settlement keeps over the position rows.

A row is read from the store once, then changed in memory, and every changed row is written
once at the end of a batch, in the order of its key. -/

/-- What the backend knows of a row that the running block itself has written. -/
inductive OwnPendingRow where
  | pending (row : Option Position)
  | resident
  | unknown

/-- A decoded copy of the stored rows, which may decline to answer, and the backend's word
on which rows it may be asked for. -/
structure TypedRows where
  ownPendingRow : Address → MarketId → OwnPendingRow
  position : Address → MarketId → Option (Option Position)

inductive CacheError where
  /-- An escrow's fill in a funded market charges the vault, which a cache cannot. -/
  | escrowFill (trader : Address)
  /-- A cached row that names another key than its own. -/
  | foreignRow (key : PositionKey) (named : PositionKey)
deriving DecidableEq

def coverMarket (markets : Option (MarketId × MarketId)) (marketId : MarketId) :
    Option (MarketId × MarketId) :=
  match markets with
  | some (low, high) => some (min low marketId, max high marketId)
  | none => some (marketId, marketId)

/-- The market is in the range. -/
def InRange (markets : Option (MarketId × MarketId)) (marketId : MarketId) : Prop :=
  ∃ low high, markets = some (low, high) ∧ low ≤ marketId ∧ marketId ≤ high

theorem coverMarket_ordered {markets : Option (MarketId × MarketId)} (marketId : MarketId)
    (ordered : ∀ range ∈ markets, range.1 ≤ range.2) :
    ∀ range ∈ coverMarket markets marketId, range.1 ≤ range.2 := by
  cases markets with
  | none =>
    rintro range ⟨⟩
    exact le_rfl
  | some old =>
    rintro range ⟨⟩
    exact le_trans (min_le_left _ _) (le_trans (ordered old rfl) (le_max_left _ _))

theorem inRange_coverMarket {markets : Option (MarketId × MarketId)} {marketId other : MarketId}
    (inside : InRange markets other ∨ other = marketId) :
    InRange (coverMarket markets marketId) other := by
  cases markets with
  | none =>
    rcases inside with ⟨low, high, absurd, _⟩ | rfl
    · cases absurd
    · exact ⟨other, other, rfl, le_rfl, le_rfl⟩
  | some range =>
    obtain ⟨low, high⟩ := range
    refine ⟨min low marketId, max high marketId, rfl, ?_⟩
    rcases inside with ⟨_, _, same, lower, upper⟩ | rfl
    · cases same
      exact ⟨le_trans (min_le_left _ _) lower, le_trans upper (le_max_left _ _)⟩
    · exact ⟨min_le_right _ _, le_max_right _ _⟩

/-- Cached rows, misses and closed positions, and the keys that have to be written.  The
range `markets` covers every cached key. -/
structure PositionCache where
  map : PositionKey → Option (Option Position) := fun _ => none
  dirty : Finset PositionKey := ∅
  markets : Option (MarketId × MarketId) := none
  ordered : ∀ range ∈ markets, range.1 ≤ range.2 := by simp
  covered : ∀ key, (map key).isSome → InRange markets key.2 := by simp
  cached : ∀ key ∈ dirty, (map key).isSome := by simp

abbrev PositionCache.empty : PositionCache := {}

inductive RunsFlush where
  | unmerged
  | merged
deriving DecidableEq

namespace PositionManager

def getPositionTyped (pm : PositionManager) (typed : Option TypedRows) (trader : Address)
    (marketId : MarketId) : Option Position :=
  match typed with
  | none => pm.getPosition trader marketId
  | some typed =>
    match typed.ownPendingRow trader marketId with
    | .pending row => row
    | .resident => (typed.position trader marketId).getD (pm.getPosition trader marketId)
    | .unknown => pm.getPosition trader marketId

end PositionManager

namespace PositionCache

def memoize (cache : PositionCache) (key : PositionKey) (row : Option Position) : PositionCache where
  map := Function.update cache.map key (some row)
  dirty := cache.dirty
  markets := coverMarket cache.markets key.2
  ordered := coverMarket_ordered key.2 cache.ordered
  covered other some := by
    by_cases same : other = key
    · exact inRange_coverMarket (.inr (congrArg Prod.snd same))
    · rw [Function.update_of_ne same] at some
      exact inRange_coverMarket (.inl (cache.covered other some))
  cached other member := by
    by_cases same : other = key
    · rw [same, Function.update_self, Option.isSome_some]
    · rw [Function.update_of_ne same]
      exact cache.cached other member

def loadTyped (cache : PositionCache) (pm : PositionManager) (typed : Option TypedRows)
    (key : PositionKey) : PositionCache × Option Position :=
  match cache.map key with
  | some row => (cache, row)
  | none =>
    let row := pm.getPositionTyped typed key.1 key.2
    (cache.memoize key row, row)

def store (cache : PositionCache) (key : PositionKey) (row : Option Position) : PositionCache where
  map := (cache.memoize key row).map
  dirty := insert key cache.dirty
  markets := (cache.memoize key row).markets
  ordered := (cache.memoize key row).ordered
  covered := (cache.memoize key row).covered
  cached other member := by
    rcases Finset.mem_insert.mp member with same | old
    · rw [same, memoize]
      dsimp only
      rw [Function.update_self, Option.isSome_some]
    · exact (cache.memoize key row).cached other old

def updateInPlace {R : Type} (cache : PositionCache) (pm : PositionManager)
    (typed : Option TypedRows) (key : PositionKey) (f : Option Position → Option Position × R) :
    Except CacheError (PositionCache × R) :=
  let (loaded, row) := cache.loadTyped pm typed key
  match row.filter fun pos => decide (pos.key ≠ key) with
  | some pos => .error (.foreignRow key pos.key)
  | none =>
    let (after, out) := f row
    .ok (loaded.store key after, out)

def mergeDisjoint (cache other : PositionCache) : PositionCache where
  map key := (other.map key).or (cache.map key)
  dirty := cache.dirty ∪ other.dirty
  markets :=
    match other.markets with
    | some (low, high) => coverMarket (coverMarket cache.markets low) high
    | none => cache.markets
  ordered := by
    split
    · exact coverMarket_ordered _ (coverMarket_ordered _ cache.ordered)
    · exact cache.ordered
  covered key some := by
    rw [Option.isSome_or, Bool.or_eq_true] at some
    rcases some with theirs | ours
    · obtain ⟨low, high, range, lower, upper⟩ := other.covered key theirs
      rw [range]
      obtain ⟨first, last, whole, below, above⟩ :=
        @inRange_coverMarket (coverMarket cache.markets low) high low
          (.inl (inRange_coverMarket (.inr rfl)))
      obtain ⟨_, _, same, _, top⟩ :=
        @inRange_coverMarket (coverMarket cache.markets low) high high (.inr rfl)
      rw [whole, Option.some.injEq, Prod.mk.injEq] at same
      obtain ⟨rfl, rfl⟩ := same
      exact ⟨first, last, whole, le_trans below lower, le_trans upper top⟩
    · have inside := cache.covered key ours
      split
      · exact inRange_coverMarket (.inl (inRange_coverMarket (.inl inside)))
      · exact inside
  cached key member := by
    rw [Option.isSome_or, Bool.or_eq_true]
    rcases Finset.mem_union.mp member with ours | theirs
    · exact .inr (cache.cached key ours)
    · exact .inl (other.cached key theirs)

def runsDisjoint (cache : PositionCache) (runs : List PositionCache) : Bool :=
  let rec ascend (previous : Option MarketId) : List PositionCache → Bool
    | [] => true
    | run :: runs =>
      match run.markets with
      | none => ascend previous runs
      | some (low, high) =>
        if previous.any fun last => decide (low ≤ last) then false
        else if cache.markets.any fun own => decide (own.1 ≤ high ∧ low ≤ own.2) then false
        else ascend (some high) runs
  ascend none runs

def dirtyKeys (cache : PositionCache) : List PositionKey :=
  ((cache.dirty.map toLex.toEmbedding).sort).map ofLex

def dirtyRows (cache : PositionCache) : List (PositionKey × Option Position) :=
  cache.dirtyKeys.filterMap fun key => (cache.map key).map fun row => (key, row)

def clean (cache : PositionCache) : PositionCache :=
  { cache with dirty := ∅, cached := by simp }

end PositionCache

namespace PositionManager

def writeRows (pm : PositionManager) (rows : List (PositionKey × Option Position)) :
    PositionManager :=
  rows.foldl (fun pm row => pm.replacePosition row.1.1 row.1.2 row.2) pm

end PositionManager

namespace PositionCache

def flushAll (cache : PositionCache) (pm : PositionManager) : PositionManager × PositionCache :=
  (pm.writeRows cache.dirtyRows, cache.clean)

def rowLe (left right : PositionKey × Option Position) : Bool :=
  decide (toLex left.1 ≤ toLex right.1)

/-- Flush a cache together with the caches of single markets, which are merged into it only
when their keys are not known to be apart. -/
def flushWithRuns (cache : PositionCache) (runs : List PositionCache) (pm : PositionManager) :
    PositionManager × PositionCache × List PositionCache × RunsFlush :=
  if cache.runsDisjoint runs then
    let rows := ((cache :: runs).flatMap dirtyRows).mergeSort rowLe
    (pm.writeRows rows, cache.clean, runs.map clean, .unmerged)
  else
    let (pm, merged) := (runs.foldl mergeDisjoint cache).flushAll pm
    (pm, merged, runs.map fun _ => {}, .merged)

end PositionCache

namespace PositionManager

def applyFillCachedEffectTyped (pm : PositionManager) (cache : PositionCache)
    (typed : Option TypedRows) (fill : Fill) : Except CacheError (PositionCache × FillEffect) :=
  let index := pm.fundingIndex fill.marketId
  if index.isSome && isAdlEscrow fill.trader then .error (.escrowFill fill.trader)
  else
    cache.updateInPlace pm typed fill.key fun existing =>
      let (pos, pnl, funding) := fillTransition existing fill index
      (pos, { startSize := signedSize existing, closedPnl := pnl, funding })

def settleFill (typed : Option TypedRows) (state : PositionManager × PositionCache) (fill : Fill) :
    Except CacheError (PositionManager × PositionCache) := do
  let (pm, cache) := state
  let (cache, effect) ← pm.applyFillCachedEffectTyped cache typed fill
  match effect.cash with
  | some cash => pure (pm.creditRealizedPnl fill.trader cash, cache)
  | none => pure (pm, cache)

def settleFills (typed : Option TypedRows) (state : PositionManager × PositionCache)
    (fills : List Fill) : Except CacheError (PositionManager × PositionCache) :=
  fills.foldlM (settleFill typed) state

end PositionManager

end TorusHyperBft.Account
