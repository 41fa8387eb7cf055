import TorusHyperBft.Account.PositionCache

namespace TorusHyperBft.Account

open List PositionCache PositionManager
open OrderBook (Address MarketId)

/-! Settling on a cache against filling the store, fill by fill. -/

/-- The typed copy answers as decoding the stored rows would. -/
structure TypedRows.Decodes (typed : TypedRows) (pm : PositionManager) : Prop where
  pending : ∀ trader marketId row, typed.ownPendingRow trader marketId = .pending row →
    row = pm.getPosition trader marketId
  resident : ∀ trader marketId row, typed.ownPendingRow trader marketId = .resident →
    typed.position trader marketId = some row → row = pm.getPosition trader marketId

theorem TypedRows.Decodes.congr {typed : TypedRows} {pm other : PositionManager}
    (decodes : typed.Decodes pm) (same : other.positions = pm.positions) : typed.Decodes other := by
  have read : other.getPosition = pm.getPosition := by
    funext trader marketId
    unfold PositionManager.getPosition
    rw [same]
  refine ⟨fun trader marketId row own => ?_, fun trader marketId row own answer => ?_⟩
  · rw [read]
    exact decodes.pending trader marketId row own
  · rw [read]
    exact decodes.resident trader marketId row own answer

namespace PositionManager

variable {pm : PositionManager}

theorem getPositionTyped_eq {typed : Option TypedRows} (decodes : ∀ rows ∈ typed, rows.Decodes pm)
    (trader : Address) (marketId : MarketId) :
    pm.getPositionTyped typed trader marketId = pm.getPosition trader marketId := by
  cases typed with
  | none => rfl
  | some rows =>
    have agrees := decodes rows rfl
    unfold getPositionTyped
    dsimp only
    cases own : rows.ownPendingRow trader marketId with
    | pending row => exact agrees.pending trader marketId row own
    | resident =>
      cases answer : rows.position trader marketId with
      | none => rfl
      | some row => exact agrees.resident trader marketId row own answer
    | unknown => rfl

section WriteRows

variable {rows : List (PositionKey × Option Position)} {key : PositionKey}

@[simp]
theorem writeRows_balances (rows : List (PositionKey × Option Position)) :
    (pm.writeRows rows).balances = pm.balances := by
  induction rows generalizing pm with
  | nil => rfl
  | cons row rows ih =>
    refine (@ih (pm.replacePosition row.1.1 row.1.2 row.2)).trans ?_
    cases row.2 <;> rfl

theorem getPosition_writeRows_absent (keyed : ∀ row ∈ rows, ∀ pos ∈ row.2, pos.key = row.1)
    (absent : ∀ row ∈ rows, row.1 ≠ key) :
    (pm.writeRows rows).getPosition key.1 key.2 = pm.getPosition key.1 key.2 := by
  induction rows generalizing pm with
  | nil => rfl
  | cons row rows ih =>
    have later := @ih (pm.replacePosition row.1.1 row.1.2 row.2)
      (fun other member => keyed other (mem_cons_of_mem _ member))
      fun other member => absent other (mem_cons_of_mem _ member)
    refine later.trans ?_
    rw [getPosition_replacePosition (keyed row mem_cons_self),
      if_neg (absent row mem_cons_self).symm]

theorem getPosition_writeRows {row : Option Position}
    (keyed : ∀ row ∈ rows, ∀ pos ∈ row.2, pos.key = row.1)
    (once : (rows.map Prod.fst).Nodup) (member : (key, row) ∈ rows) :
    (pm.writeRows rows).getPosition key.1 key.2 = row := by
  induction rows generalizing pm with
  | nil => contradiction
  | cons first rows ih =>
    rw [map_cons, nodup_cons] at once
    have others := fun other (inside : other ∈ rows) => keyed other (mem_cons_of_mem _ inside)
    rcases mem_cons.mp member with rfl | inside
    · refine (getPosition_writeRows_absent others ?_).trans ?_
      · intro other inside same
        exact once.1 (mem_map.mpr ⟨other, inside, same⟩)
      · rw [getPosition_replacePosition (keyed _ mem_cons_self), if_pos rfl]
    · exact ih others once.2 inside

end WriteRows

end PositionManager

namespace PositionCache

variable {cache : PositionCache} {key : PositionKey}

theorem mem_dirtyKeys : key ∈ cache.dirtyKeys ↔ key ∈ cache.dirty := by
  unfold dirtyKeys
  rw [mem_map]
  constructor
  · rintro ⟨lexed, member, rfl⟩
    obtain ⟨inside, marked, rfl⟩ := Finset.mem_map.mp ((Finset.mem_sort _).mp member)
    exact marked
  · intro member
    exact ⟨toLex key, (Finset.mem_sort _).mpr (Finset.mem_map.mpr ⟨key, member, rfl⟩), rfl⟩

theorem dirtyKeys_sorted (cache : PositionCache) :
    cache.dirtyKeys.Pairwise fun left right => toLex left < toLex right := by
  unfold dirtyKeys
  rw [pairwise_map]
  exact Finset.sortedLT_sort (cache.dirty.map toLex.toEmbedding) |>.pairwise

theorem mem_dirtyRows {row : Option Position} :
    (key, row) ∈ cache.dirtyRows ↔ key ∈ cache.dirty ∧ cache.map key = some row := by
  unfold dirtyRows
  rw [mem_filterMap]
  constructor
  · rintro ⟨other, member, found⟩
    obtain ⟨row', held, same⟩ := Option.map_eq_some_iff.mp found
    cases same
    exact ⟨mem_dirtyKeys.mp member, held⟩
  · rintro ⟨member, held⟩
    exact ⟨key, mem_dirtyKeys.mpr member, by rw [held]; rfl⟩

theorem dirtyRows_sorted (cache : PositionCache) :
    cache.dirtyRows.Pairwise fun left right => toLex left.1 < toLex right.1 := by
  refine List.Pairwise.filterMap _ ?_ cache.dirtyKeys_sorted
  intro first second before left leftRow right rightRow
  obtain ⟨_, _, rfl⟩ := Option.map_eq_some_iff.mp leftRow
  obtain ⟨_, _, rfl⟩ := Option.map_eq_some_iff.mp rightRow
  exact before

theorem sorted_nodup {rows : List (PositionKey × Option Position)}
    (sorted : rows.Pairwise fun left right => toLex left.1 < toLex right.1) :
    (rows.map Prod.fst).Nodup := by
  rw [List.Nodup, pairwise_map]
  exact sorted.imp fun before same => absurd (congrArg toLex same) before.ne

def view (cache : PositionCache) (pm : PositionManager) (key : PositionKey) : Option Position :=
  (cache.map key).getD (pm.getPosition key.1 key.2)

/-- The cache stands for the rows that filling the store directly has come to; the store has
the same balances, and the rows from before. -/
structure StandsFor (cache : PositionCache) (pm direct : PositionManager) : Prop where
  rows : ∀ key, cache.view pm key = direct.getPosition key.1 key.2
  unmarked : ∀ key, key ∉ cache.dirty → direct.getPosition key.1 key.2 = pm.getPosition key.1 key.2
  balances : pm.balances = direct.balances
  fundingIndex : direct.fundingIndex = pm.fundingIndex

theorem StandsFor.empty (pm : PositionManager) : StandsFor {} pm pm :=
  ⟨fun _ => rfl, fun _ _ => rfl, rfl, rfl⟩

theorem StandsFor.keyed {pm direct : PositionManager} (stands : StandsFor cache pm direct) :
    ∀ row ∈ cache.dirtyRows, ∀ pos ∈ row.2, pos.key = row.1 := by
  rintro ⟨key, row⟩ member pos held
  obtain ⟨_, found⟩ := mem_dirtyRows.mp member
  have read := stands.rows key
  rw [view, found, Option.getD_some] at read
  rw [read] at held
  exact direct.positions.keyed _ _ held

theorem StandsFor.flushAll {pm direct : PositionManager} (stands : StandsFor cache pm direct) :
    (∀ trader marketId, (cache.flushAll pm).1.getPosition trader marketId =
      direct.getPosition trader marketId) ∧ (cache.flushAll pm).1.balances = direct.balances := by
  refine ⟨fun trader marketId => ?_, ?_⟩
  · by_cases marked : (trader, marketId) ∈ cache.dirty
    · obtain ⟨row, found⟩ := Option.isSome_iff_exists.mp (cache.cached _ marked)
      have written := @getPosition_writeRows pm cache.dirtyRows (trader, marketId) row
        stands.keyed (sorted_nodup cache.dirtyRows_sorted) (mem_dirtyRows.mpr ⟨marked, found⟩)
      have read := stands.rows (trader, marketId)
      rw [view, found, Option.getD_some] at read
      exact written.trans read
    · have kept := @getPosition_writeRows_absent pm cache.dirtyRows (trader, marketId)
        stands.keyed fun row member same => marked (same ▸ (mem_dirtyRows.mp member).1)
      exact kept.trans (stands.unmarked (trader, marketId) marked).symm
  · exact (writeRows_balances cache.dirtyRows).trans stands.balances

theorem view_memoize (pm : PositionManager) (row : Option Position) (other : PositionKey) :
    (cache.memoize key row).view pm other = if other = key then row else cache.view pm other := by
  unfold view memoize
  dsimp only
  split
  · rename_i same
    rw [same, Function.update_self, Option.getD_some]
  · rename_i different
    rw [Function.update_of_ne different]

theorem view_store (pm : PositionManager) (row : Option Position) (other : PositionKey) :
    (cache.store key row).view pm other = if other = key then row else cache.view pm other :=
  view_memoize pm row other

theorem loadTyped_view {pm : PositionManager} {typed : Option TypedRows}
    (decodes : ∀ rows ∈ typed, rows.Decodes pm) :
    (cache.loadTyped pm typed key).2 = cache.view pm key ∧
      (cache.loadTyped pm typed key).1.dirty = cache.dirty ∧
      ∀ other, (cache.loadTyped pm typed key).1.view pm other = cache.view pm other := by
  unfold loadTyped
  cases held : cache.map key with
  | some row =>
    refine ⟨?_, rfl, fun _ => rfl⟩
    rw [view, held]
    rfl
  | none =>
    have read : pm.getPositionTyped typed key.1 key.2 = cache.view pm key := by
      rw [getPositionTyped_eq decodes, view, held]
      rfl
    refine ⟨read, rfl, fun other => ?_⟩
    dsimp only
    rw [view_memoize, read]
    split
    · rename_i same
      rw [same]
    · rfl

end PositionCache

namespace PositionManager

variable {pm direct : PositionManager} {cache : PositionCache} {typed : Option TypedRows}
  {fill : Fill} {fills : List Fill}

/-- The cached path refuses an escrow's fill in a market with a funding index. -/
def Refused (pm : PositionManager) (fill : Fill) : Prop :=
  (pm.fundingIndex fill.marketId).isSome ∧ isAdlEscrow fill.trader = true

theorem applyFillCached_ok (decodes : ∀ rows ∈ typed, rows.Decodes pm)
    (stands : cache.StandsFor pm direct) (allowed : ¬ pm.Refused fill) :
    ∃ after, pm.applyFillCachedEffectTyped cache typed fill =
        .ok (after, (direct.applyFill fill).2) ∧
      after.dirty = insert fill.key cache.dirty ∧
      ∀ other, after.view pm other =
        (direct.applyFill fill).1.getPosition other.1 other.2 := by
  obtain ⟨read, dirty, views⟩ := @loadTyped_view cache fill.key pm typed decodes
  rw [stands.rows fill.key] at read
  have own : ((cache.loadTyped pm typed fill.key).2.filter fun pos =>
      decide (pos.key ≠ fill.key)) = none := by
    rw [Option.filter_eq_none_iff]
    intro pos held
    rw [read] at held
    have keyed : pos.key = fill.key := direct.positions.keyed _ _ held
    simp [keyed]
  have index : direct.fundingIndex fill.marketId = pm.fundingIndex fill.marketId := by
    rw [stands.fundingIndex]
  refine ⟨(cache.loadTyped pm typed fill.key).1.store fill.key (direct.filled fill), ?_, ?_, ?_⟩
  · unfold applyFillCachedEffectTyped PositionCache.updateInPlace
    dsimp only
    rw [if_neg (by simpa [Refused] using allowed), own, read]
    dsimp only
    rw [← index]
    rfl
  · change insert fill.key (cache.loadTyped pm typed fill.key).1.dirty = _
    rw [dirty]
  · intro other
    rw [view_store, getPosition_applyFill, views, stands.rows]

theorem escrowShare_allowed (allowed : ¬ pm.Refused fill) :
    pm.escrowShare fill.trader fill.marketId = 0 := by
  cases index : pm.fundingIndex fill.marketId with
  | none => exact escrowShare_off index
  | some funding =>
    have plain : isAdlEscrow fill.trader = false := by simpa [Refused, index] using allowed
    unfold escrowShare
    rw [plain]
    cases pm.getPosition fill.trader fill.marketId <;> rfl

def creditCash (pm : PositionManager) (trader : Address) (effect : FillEffect) : PositionManager :=
  match effect.cash with
  | some cash => pm.creditRealizedPnl trader cash
  | none => pm

theorem creditCash_frame (pm : PositionManager) (trader : Address) (effect : FillEffect) :
    (pm.creditCash trader effect).positions = pm.positions ∧
      (pm.creditCash trader effect).fundingIndex = pm.fundingIndex := by
  unfold creditCash
  split <;> exact ⟨rfl, rfl⟩

theorem creditCash_balances {other : PositionManager} (same : pm.balances = other.balances)
    (trader : Address) (effect : FillEffect) :
    (pm.creditCash trader effect).balances = (other.creditCash trader effect).balances := by
  unfold creditCash
  split
  · simp only [creditRealizedPnl, putNativeBalance, getNativeBalance, same]
  · exact same

theorem applyFill_balances (unshared : pm.escrowShare fill.trader fill.marketId = 0) :
    (pm.applyFill fill).1.balances =
      (pm.creditCash fill.trader (pm.applyFill fill).2).balances := by
  have written : ∀ left, (pm.replacePosition fill.trader fill.marketId left).balances =
      pm.balances := by
    intro left
    cases left <;> rfl
  rw [← creditCash_balances (written (pm.filled fill))]
  unfold applyFill creditCash
  dsimp only
  rw [unshared, if_neg (by simp)]
  rfl

theorem settleFill_stands (decodes : ∀ rows ∈ typed, rows.Decodes pm)
    (stands : cache.StandsFor pm direct) (allowed : ¬ pm.Refused fill) :
    ∃ after, settleFill typed (pm, cache) fill =
        .ok (pm.creditCash fill.trader (direct.applyFill fill).2, after) ∧
      after.StandsFor (pm.creditCash fill.trader (direct.applyFill fill).2)
        (direct.applyFill fill).1 := by
  obtain ⟨after, applied, dirty, views⟩ := applyFillCached_ok decodes stands allowed
  obtain ⟨positions, index⟩ := creditCash_frame pm fill.trader (direct.applyFill fill).2
  have rows : ∀ trader marketId,
      (pm.creditCash fill.trader (direct.applyFill fill).2).getPosition trader marketId =
        pm.getPosition trader marketId := by
    intro trader marketId
    rw [getPosition, positions]
    rfl
  have unrefused : ¬ direct.Refused fill := by
    rw [Refused, stands.fundingIndex]
    exact allowed
  refine ⟨after, ?_, fun key => ?_, fun key unmarked => ?_, ?_, ?_⟩
  · unfold settleFill creditCash
    dsimp only
    rw [applied]
    change (match (direct.applyFill fill).2.cash with
      | some cash => pure (pm.creditRealizedPnl fill.trader cash, after)
      | none => pure (pm, after)) = _
    cases (direct.applyFill fill).2.cash <;> rfl
  · rw [← views key, PositionCache.view, rows]
    rfl
  · rw [dirty, Finset.mem_insert, not_or] at unmarked
    rw [rows, getPosition_applyFill, if_neg unmarked.1]
    exact stands.unmarked key unmarked.2
  · rw [applyFill_balances (escrowShare_allowed unrefused)]
    exact creditCash_balances stands.balances fill.trader _
  · rw [applyFill_funding, stands.fundingIndex, index]

theorem settleFills_stands (decodes : ∀ rows ∈ typed, rows.Decodes pm)
    (stands : cache.StandsFor pm direct) (allowed : ∀ fill ∈ fills, ¬ pm.Refused fill) :
    ∃ credited after, settleFills typed (pm, cache) fills = .ok (credited, after) ∧
      credited.positions = pm.positions ∧
      after.StandsFor credited (direct.applyFills fills).1 := by
  induction fills generalizing pm cache direct with
  | nil => exact ⟨pm, cache, rfl, rfl, stands⟩
  | cons fill fills ih =>
    obtain ⟨next, settled, standsNext⟩ :=
      settleFill_stands decodes stands (allowed fill mem_cons_self)
    obtain ⟨positions, index⟩ := creditCash_frame pm fill.trader (direct.applyFill fill).2
    obtain ⟨credited, after, run, kept, done⟩ := ih
      (fun rows member => (decodes rows member).congr positions) standsNext
      fun other member => by
        rw [Refused, index]
        exact allowed other (mem_cons_of_mem _ member)
    refine ⟨credited, after, ?_, kept.trans positions, done⟩
    rw [settleFills, foldlM_cons, settled]
    exact run

theorem settleFills_refused (decodes : ∀ rows ∈ typed, rows.Decodes pm)
    (stands : cache.StandsFor pm direct) (refused : ∃ fill ∈ fills, pm.Refused fill) :
    ∃ trader, settleFills typed (pm, cache) fills = .error (.escrowFill trader) := by
  induction fills generalizing pm cache direct with
  | nil => simp at refused
  | cons fill fills ih =>
    by_cases first : pm.Refused fill
    · refine ⟨fill.trader, ?_⟩
      rw [settleFills, foldlM_cons, settleFill, applyFillCachedEffectTyped]
      dsimp only
      rw [if_pos (by simpa [Refused] using first)]
      rfl
    · obtain ⟨next, settled, standsNext⟩ := settleFill_stands decodes stands first
      obtain ⟨positions, index⟩ := creditCash_frame pm fill.trader (direct.applyFill fill).2
      obtain ⟨other, member, later⟩ := refused
      have different : other ≠ fill := fun same => first (same ▸ later)
      have inRest := mem_of_ne_of_mem different member
      obtain ⟨trader, run⟩ := ih (fun rows member => (decodes rows member).congr positions)
        standsNext ⟨other, inRest, by rw [Refused, index]; exact later⟩
      refine ⟨trader, ?_⟩
      rw [settleFills, foldlM_cons, settled]
      exact run

end PositionManager

variable {marketId : MarketId}

namespace PositionCache

section Runs

variable {cache : PositionCache} {runs : List PositionCache} {key : PositionKey}

/-- No key is in both caches. -/
def Apart (left right : PositionCache) : Prop :=
  ∀ key, (left.map key).isSome → (right.map key).isSome → False

instance : Std.Symm Apart := ⟨fun _ _ apart key left right => apart key right left⟩

theorem ascend_apart {previous : Option MarketId}
    (ascends : runsDisjoint.ascend cache previous runs = true) :
    (∀ run ∈ runs, ∀ marketId, InRange run.markets marketId →
      ¬ InRange cache.markets marketId ∧ ∀ last ∈ previous, last < marketId) ∧
    runs.Pairwise fun left right => ∀ first second, InRange left.markets first →
      InRange right.markets second → first < second := by
  induction runs generalizing previous with
  | nil => exact ⟨by simp, .nil⟩
  | cons run runs ih =>
    rw [runsDisjoint.ascend] at ascends
    cases range : run.markets with
    | none =>
      rw [range] at ascends
      obtain ⟨clear, sorted⟩ := ih ascends
      have nothing : ∀ marketId, ¬ InRange run.markets marketId := by
        rintro marketId ⟨low, high, some, _⟩
        rw [range] at some
        cases some
      refine ⟨fun other member marketId inside => ?_, .cons ?_ sorted⟩
      · rcases mem_cons.mp member with rfl | member
        · exact absurd inside (nothing marketId)
        · exact clear other member marketId inside
      · intro other _ first _ inside
        exact absurd inside (nothing first)
    | some bounds =>
      obtain ⟨low, high⟩ := bounds
      rw [range] at ascends
      dsimp only at ascends
      split at ascends
      · contradiction
      · rename_i above
        split at ascends
        · contradiction
        · rename_i clearOfOwn
          obtain ⟨clear, sorted⟩ := ih ascends
          have bounds : ∀ marketId, InRange run.markets marketId →
              low ≤ marketId ∧ marketId ≤ high := by
            rintro marketId ⟨_, _, same, lower, upper⟩
            rw [range] at same
            cases same
            exact ⟨lower, upper⟩
          refine ⟨fun other member marketId inside => ?_, .cons ?_ sorted⟩
          · rcases mem_cons.mp member with rfl | member
            · obtain ⟨lower, upper⟩ := bounds marketId inside
              refine ⟨?_, fun last named => ?_⟩
              · rintro ⟨ownLow, ownHigh, own, ownLower, ownUpper⟩
                rw [own] at clearOfOwn
                simp only [Option.any_some, decide_eq_true_eq] at clearOfOwn
                exact clearOfOwn ⟨le_trans ownLower upper, le_trans lower ownUpper⟩
              · rw [Option.mem_def.mp named] at above
                simp only [Option.any_some, decide_eq_true_eq, not_le] at above
                exact lt_of_lt_of_le above lower
            · obtain ⟨apart, later⟩ := clear other member marketId inside
              refine ⟨apart, fun last named => ?_⟩
              have passed := later high rfl
              rw [Option.mem_def.mp named] at above
              simp only [Option.any_some, decide_eq_true_eq, not_le] at above
              exact lt_of_lt_of_le above (le_trans (run.ordered (low, high) range) passed.le)
          · intro other member first second inside beyond
            have passed := (clear other member second beyond).2 high rfl
            exact lt_of_le_of_lt (bounds first inside).2 passed

theorem runsDisjoint_apart (disjoint : cache.runsDisjoint runs = true) :
    (cache :: runs).Pairwise Apart := by
  obtain ⟨clear, sorted⟩ := ascend_apart disjoint
  refine .cons (fun run member key own theirs => ?_) (sorted.imp fun before key left right => ?_)
  · exact (clear run member key.2 (run.covered key theirs)).1 (cache.covered key own)
  · exact lt_irrefl key.2 (before key.2 key.2 (PositionCache.covered _ key left)
      (PositionCache.covered _ key right))

theorem mem_merged_dirty : key ∈ (runs.foldl mergeDisjoint cache).dirty ↔
    ∃ held ∈ cache :: runs, key ∈ held.dirty := by
  induction runs generalizing cache with
  | nil => simp
  | cons run runs ih =>
    rw [foldl_cons, ih]
    simp only [mem_cons, exists_eq_or_imp, mergeDisjoint, Finset.mem_union, or_assoc]

theorem merged_map (apart : (cache :: runs).Pairwise Apart) {row : Option Position} :
    (runs.foldl mergeDisjoint cache).map key = some row ↔
      ∃ held ∈ cache :: runs, held.map key = some row := by
  induction runs generalizing cache with
  | nil => simp
  | cons run runs ih =>
    obtain ⟨own, rest⟩ := pairwise_cons.mp apart
    obtain ⟨first, later⟩ := pairwise_cons.mp rest
    have merged : (cache.mergeDisjoint run :: runs).Pairwise Apart := by
      refine .cons (fun other member key both theirs => ?_) later
      rw [mergeDisjoint, Option.isSome_or, Bool.or_eq_true] at both
      rcases both with inRun | inCache
      · exact first other member key inRun theirs
      · exact own other (mem_cons_of_mem _ member) key inCache theirs
    have either : (cache.mergeDisjoint run).map key = some row ↔
        cache.map key = some row ∨ run.map key = some row := by
      rw [mergeDisjoint]
      dsimp only
      cases theirs : run.map key with
      | none => simp
      | some found =>
        rw [Option.some_or]
        constructor
        · exact fun same => .inr same
        · rintro (mine | same)
          · have clash := own run mem_cons_self key (by simp [mine]) (by simp [theirs])
            exact clash.elim
          · exact same
    rw [foldl_cons, ih merged]
    simp only [mem_cons, exists_eq_or_imp, either, or_assoc]

theorem rows_nodup (apart : (cache :: runs).Pairwise Apart) :
    (((cache :: runs).flatMap dirtyRows).map Prod.fst).Nodup := by
  rw [map_flatMap, nodup_flatMap]
  refine ⟨fun held _ => sorted_nodup held.dirtyRows_sorted, apart.imp fun {left right} clash => ?_⟩
  intro key inLeft inRight
  obtain ⟨⟨_, row⟩, member, rfl⟩ := mem_map.mp inLeft
  obtain ⟨⟨_, row'⟩, member', same⟩ := mem_map.mp inRight
  dsimp only at same
  subst same
  exact clash _ (left.cached _ (mem_dirtyRows.mp member).1)
    (right.cached _ (mem_dirtyRows.mp member').1)

theorem sortedRows_eq (apart : (cache :: runs).Pairwise Apart) :
    ((cache :: runs).flatMap dirtyRows).mergeSort rowLe =
      (runs.foldl mergeDisjoint cache).dirtyRows := by
  have sorted : (((cache :: runs).flatMap dirtyRows).mergeSort rowLe).Pairwise
      fun left right => toLex left.1 < toLex right.1 := by
    have ascending := @pairwise_mergeSort _ rowLe
      (fun first second third below above => by
        simp only [rowLe, decide_eq_true_eq] at below above ⊢
        exact le_trans below above)
      (fun first second => by
        simp only [rowLe, Bool.or_eq_true, decide_eq_true_eq]
        exact le_total _ _) ((cache :: runs).flatMap dirtyRows)
    have once := rows_nodup apart
    rw [← ((mergeSort_perm _ rowLe).map Prod.fst).nodup_iff, List.Nodup,
      pairwise_map] at once
    refine (ascending.and once).imp fun both => ?_
    obtain ⟨below, different⟩ := both
    simp only [rowLe, decide_eq_true_eq] at below
    exact lt_of_le_of_ne below fun same => different (toLex.injective same)
  refine List.Pairwise.eq_of_mem_iff sorted (dirtyRows_sorted _) ?_
  rintro ⟨key, row⟩
  rw [mem_mergeSort, mem_flatMap, mem_dirtyRows, mem_merged_dirty, merged_map apart]
  simp only [mem_dirtyRows]
  constructor
  · rintro ⟨held, member, marked, found⟩
    exact ⟨⟨held, member, marked⟩, held, member, found⟩
  · rintro ⟨⟨held, member, marked⟩, other, inside, found⟩
    have same : other = held := by
      by_contra different
      have clash := apart.forall inside member different
      exact clash key (by rw [found, Option.isSome_some]) (held.cached key marked)
    subst same
    exact ⟨other, member, marked, found⟩

theorem flushWithRuns_eq (cache : PositionCache) (runs : List PositionCache)
    (pm : PositionManager) :
    (cache.flushWithRuns runs pm).1 = ((runs.foldl mergeDisjoint cache).flushAll pm).1 := by
  unfold flushWithRuns
  split
  · rename_i disjoint
    rw [sortedRows_eq (runsDisjoint_apart disjoint)]
    rfl
  · rfl

/-- The cache is of this market alone. -/
def OfMarket (cache : PositionCache) (marketId : MarketId) : Prop :=
  ∀ range ∈ cache.markets, range = (marketId, marketId)

theorem OfMarket.store (own : cache.OfMarket marketId)
    (same : key.2 = marketId) (row : Option Position) :
    (cache.store key row).OfMarket marketId := by
  intro range member
  have covers : coverMarket cache.markets key.2 = some range := member
  cases markets : cache.markets with
  | none =>
    rw [markets, coverMarket, Option.some.injEq, same] at covers
    exact covers.symm
  | some bounds =>
    rw [markets, own bounds markets, coverMarket, Option.some.injEq, same] at covers
    rw [← covers, min_self, max_self]

theorem OfMarket.memoize (own : cache.OfMarket marketId)
    (same : key.2 = marketId) (row : Option Position) : (cache.memoize key row).OfMarket marketId :=
  own.store same row

theorem runsDisjoint_ascending {markets : List MarketId} {previous : Option MarketId}
    (owned : List.Forall₂ OfMarket runs markets) (ascending : markets.Pairwise (· < ·))
    (above : ∀ last ∈ previous, ∀ marketId ∈ markets, last < marketId) :
    runsDisjoint.ascend {} previous runs = true := by
  induction owned generalizing previous with
  | nil => rfl
  | @cons run marketId runs markets own owned ih =>
    obtain ⟨least, rest⟩ := pairwise_cons.mp ascending
    rw [runsDisjoint.ascend]
    cases range : run.markets with
    | none =>
      exact ih rest fun last named other member =>
        above last named other (mem_cons_of_mem _ member)
    | some bounds =>
      have single := own bounds range
      subst single
      dsimp only
      have passed : (previous.any fun last => decide (marketId ≤ last)) = false := by
        cases previous with
        | none => rfl
        | some last =>
          have less := above last rfl marketId mem_cons_self
          simpa using less
      rw [passed]
      refine ih rest ?_
      rintro last ⟨⟩ other member
      exact least other member

end Runs

end PositionCache

namespace PositionManager

variable {pm : PositionManager} {typed : Option TypedRows} {fills : List Fill}

def settleMarket (pm : PositionManager) (typed : Option TypedRows) (fills : List Fill)
    (marketId : MarketId) : Except CacheError PositionCache :=
  (settleFills typed (pm, .empty) (fills.filter fun fill => fill.marketId = marketId)).map Prod.snd

theorem getPosition_applyFills_market {other : PositionManager} (fills : List Fill)
    (trader : Address) {marketId : MarketId}
    (same : ∀ trader, pm.getPosition trader marketId = other.getPosition trader marketId)
    (index : pm.fundingIndex marketId = other.fundingIndex marketId) :
    (pm.applyFills (fills.filter fun fill => fill.marketId = marketId)).1.getPosition trader marketId =
      (other.applyFills fills).1.getPosition trader marketId := by
  induction fills generalizing pm other with
  | nil => exact same trader
  | cons fill fills ih =>
    by_cases here : fill.marketId = marketId
    · rw [filter_cons_of_pos (by simpa using here)]
      have filled : pm.filled fill = other.filled fill := by
        rw [filled, filled, here, same, index]
      apply @ih (pm.applyFill fill).1 (other.applyFill fill).1
      · intro trader
        rw [getPosition_applyFill, getPosition_applyFill, filled, same]
      · rw [applyFill_funding, applyFill_funding, index]
    · rw [filter_cons_of_neg (by simpa using here)]
      apply @ih pm (other.applyFill fill).1
      · intro trader
        rw [same, getPosition_applyFill, if_neg]
        intro own
        exact here (congrArg Prod.snd own).symm
      · rw [applyFill_funding, index]

theorem loadTyped_ofMarket {cache : PositionCache} {key : PositionKey} {marketId : MarketId}
    (own : cache.OfMarket marketId) (same : key.2 = marketId) :
    (cache.loadTyped pm typed key).1.OfMarket marketId := by
  unfold PositionCache.loadTyped
  split
  · exact own
  · exact own.memoize same _

theorem settleFill_ofMarket {cache after : PositionCache} {credited : PositionManager} {fill : Fill}
    (own : cache.OfMarket fill.marketId)
    (settled : settleFill typed (pm, cache) fill = .ok (credited, after)) :
    after.OfMarket fill.marketId := by
  unfold settleFill applyFillCachedEffectTyped PositionCache.updateInPlace at settled
  dsimp only at settled
  split at settled
  · cases settled
  · split at settled
    · cases settled
    · have stored := (@loadTyped_ofMarket pm typed cache fill.key fill.marketId own rfl).store
        (show fill.key.2 = fill.marketId from rfl)
      simp only [bind, Except.bind, pure, Except.pure] at settled
      split at settled <;> cases settled <;> exact stored _

theorem settleFills_ofMarket {cache after : PositionCache}
    {credited : PositionManager} (own : cache.OfMarket marketId)
    (here : ∀ fill ∈ fills, fill.marketId = marketId)
    (settled : settleFills typed (pm, cache) fills = .ok (credited, after)) :
    after.OfMarket marketId := by
  induction fills generalizing pm cache with
  | nil =>
    cases settled
    exact own
  | cons fill fills ih =>
    rw [settleFills, foldlM_cons] at settled
    have first := here fill mem_cons_self
    cases step : settleFill typed (pm, cache) fill with
    | error reason =>
      rw [step] at settled
      cases settled
    | ok next =>
      rw [step] at settled
      rw [← first] at own
      have kept := settleFill_ofMarket own step
      rw [first] at kept
      exact ih kept (fun other member => here other (mem_cons_of_mem _ member)) settled

/-- What a market's own cache holds when its fills are done. -/
structure MarketRun (pm : PositionManager) (fills : List Fill) (run : PositionCache)
    (marketId : MarketId) : Prop where
  ofMarket : run.OfMarket marketId
  stands : ∃ credited : PositionManager, credited.positions = pm.positions ∧ run.StandsFor credited
    (pm.applyFills (fills.filter fun fill => fill.marketId = marketId)).1

/-- One market's worker succeeds, with the rows of its fills in sequence. -/
theorem settleMarket_run (decodes : ∀ rows ∈ typed, rows.Decodes pm)
    (allowed : ∀ fill ∈ fills, ¬ pm.Refused fill) (marketId : MarketId) :
    ∃ run, pm.settleMarket typed fills marketId = .ok run ∧ MarketRun pm fills run marketId := by
  obtain ⟨credited, run, settled, kept, stands⟩ := @settleFills_stands pm pm {} typed
    (fills.filter fun fill => fill.marketId = marketId) decodes (.empty pm)
    fun fill member => allowed fill (mem_of_mem_filter member)
  refine ⟨run, by rw [settleMarket, settled]; rfl, ?_, credited, kept, stands⟩
  refine settleFills_ofMarket (fun range member => by cases member) (fun fill member => ?_) settled
  exact of_decide_eq_true (mem_filter.mp member).2

theorem settleMarkets_runs (decodes : ∀ rows ∈ typed, rows.Decodes pm)
    (allowed : ∀ fill ∈ fills, ¬ pm.Refused fill) (markets : List MarketId) :
    ∃ runs, markets.mapM (pm.settleMarket typed fills) = .ok runs ∧
      List.Forall₂ (MarketRun pm fills) runs markets := by
  induction markets with
  | nil => exact ⟨[], rfl, .nil⟩
  | cons marketId markets ih =>
    obtain ⟨run, settled, own⟩ := settleMarket_run decodes allowed marketId
    obtain ⟨runs, rest, others⟩ := ih
    refine ⟨run :: runs, ?_, .cons own others⟩
    rw [mapM_cons, settled, rest]
    rfl

variable {runs : List PositionCache} {markets : List MarketId}

theorem MarketRun.market {run : PositionCache} {key : PositionKey}
    (own : MarketRun pm fills run marketId) (held : (run.map key).isSome) : key.2 = marketId := by
  obtain ⟨low, high, range, lower, upper⟩ := run.covered key held
  have single := own.ofMarket (low, high) range
  rw [Prod.mk.injEq] at single
  obtain ⟨rfl, rfl⟩ := single
  exact le_antisymm upper lower

theorem MarketRun.rows {run : PositionCache}
    (own : MarketRun pm fills run marketId) (trader : Address) :
    run.view pm (trader, marketId) = (pm.applyFills fills).1.getPosition trader marketId ∧
      ((trader, marketId) ∉ run.dirty →
        (pm.applyFills fills).1.getPosition trader marketId = pm.getPosition trader marketId) := by
  obtain ⟨credited, positions, stands⟩ := own.stands
  have stored : credited.getPosition = pm.getPosition := by
    funext trader marketId
    unfold getPosition
    rw [positions]
  have alone := @getPosition_applyFills_market pm pm fills trader marketId (fun _ => rfl) rfl
  have shown := stands.rows (trader, marketId)
  have unmarked := stands.unmarked (trader, marketId)
  dsimp only at shown unmarked
  rw [alone] at shown unmarked
  rw [stored] at unmarked
  rw [PositionCache.view, stored] at shown
  exact ⟨shown, unmarked⟩

theorem marketRuns_apart (owned : List.Forall₂ (MarketRun pm fills) runs markets)
    (different : markets.Nodup) : (({} : PositionCache) :: runs).Pairwise PositionCache.Apart := by
  refine .cons (fun run _ key held => by cases held) ?_
  induction owned with
  | nil => exact .nil
  | @cons run marketId runs markets own owned ih =>
    obtain ⟨fresh, rest⟩ := nodup_cons.mp different
    refine .cons (fun other member key left right => ?_) (ih rest)
    obtain ⟨index, bound, rfl⟩ := getElem_of_mem member
    have inMarkets : index < markets.length := owned.length_eq ▸ bound
    have theirs := owned.get bound inMarkets
    have same := (own.market left).symm.trans (theirs.market right)
    exact fresh (same ▸ getElem_mem inMarkets)

theorem marketRuns_stand (owned : List.Forall₂ (MarketRun pm fills) runs markets)
    (different : markets.Nodup) (all : ∀ fill ∈ fills, fill.marketId ∈ markets) :
    (runs.foldl PositionCache.mergeDisjoint {}).StandsFor pm
      { (pm.applyFills fills).1 with balances := pm.balances } := by
  have apart := marketRuns_apart owned different
  have unmarked : ∀ key : PositionKey, (∀ run ∈ runs, key ∉ run.dirty) →
      (pm.applyFills fills).1.getPosition key.1 key.2 = pm.getPosition key.1 key.2 := by
    rintro ⟨trader, marketId⟩ clean
    by_cases listed : marketId ∈ markets
    · obtain ⟨index, bound, rfl⟩ := getElem_of_mem listed
      have inRuns : index < runs.length := owned.length_eq.symm ▸ bound
      exact ((owned.get inRuns bound).rows trader).2 (clean _ (getElem_mem inRuns))
    · have alone := @getPosition_applyFills_market pm pm fills trader marketId (fun _ => rfl) rfl
      have none : (fills.filter fun fill => decide (fill.marketId = marketId)) = [] := by
        rw [filter_eq_nil_iff]
        intro fill member here
        exact listed (of_decide_eq_true here ▸ all fill member)
      rw [none] at alone
      exact alone.symm
  refine ⟨fun key => ?_, fun key clean => ?_, rfl, ?_⟩
  · change _ = (pm.applyFills fills).1.getPosition key.1 key.2
    rw [PositionCache.view]
    cases held : (runs.foldl PositionCache.mergeDisjoint {}).map key with
    | none =>
      refine (unmarked key fun run member marked => ?_).symm
      obtain ⟨row, found⟩ := Option.isSome_iff_exists.mp (run.cached key marked)
      have merged := (merged_map apart).mpr ⟨run, mem_cons_of_mem _ member, found⟩
      rw [held] at merged
      cases merged
    | some row =>
      obtain ⟨run, member, found⟩ := (merged_map apart).mp held
      rcases mem_cons.mp member with rfl | member
      · cases found
      · obtain ⟨index, bound, rfl⟩ := getElem_of_mem member
        have inMarkets : index < markets.length := owned.length_eq ▸ bound
        have own := owned.get bound inMarkets
        have holds : ((runs.get ⟨index, bound⟩).map key).isSome := by
          rw [get_eq_getElem, found]
          rfl
        have here := own.market holds
        obtain ⟨trader, marketId⟩ := key
        dsimp only at here
        subst here
        have shown := (own.rows trader).1
        rw [PositionCache.view, get_eq_getElem, found] at shown
        exact shown
  · apply unmarked key
    intro run member marked
    exact clean (mem_merged_dirty.mpr ⟨run, mem_cons_of_mem _ member, marked⟩)
  · exact fundingIndex_applyFills fills

/-- Settling on a cache is transparent.  A run of fills without an escrow's fill in a funded
market leaves, once its cash is credited and its cache flushed, the rows and the balances
that filling the store directly leaves; with such a fill it is refused.  Caches of single
markets are flushed together as their merge would be, without a merge where the markets
ascend. -/
theorem settle_transparent (pm : PositionManager) (typed : Option TypedRows)
    (decodes : ∀ rows ∈ typed, rows.Decodes pm) (fills : List Fill) :
    ((∃ fill ∈ fills, pm.Refused fill) →
      ∃ trader, settleFills typed (pm, {}) fills = .error (.escrowFill trader)) ∧
    ((∀ fill ∈ fills, ¬ pm.Refused fill) →
      (∃ credited cache, settleFills typed (pm, {}) fills = .ok (credited, cache) ∧
        (∀ trader marketId, (cache.flushAll credited).1.getPosition trader marketId =
          (pm.applyFills fills).1.getPosition trader marketId) ∧
        (cache.flushAll credited).1.balances = (pm.applyFills fills).1.balances) ∧
      ∀ markets : List MarketId, markets.Nodup → (∀ fill ∈ fills, fill.marketId ∈ markets) →
        ∃ runs, markets.mapM (pm.settleMarket typed fills) = .ok runs ∧
          (∀ cache : PositionCache, (cache.flushWithRuns runs pm).1 =
            ((runs.foldl PositionCache.mergeDisjoint cache).flushAll pm).1) ∧
          (∀ trader marketId,
            (({} : PositionCache).flushWithRuns runs pm).1.getPosition trader marketId =
              (pm.applyFills fills).1.getPosition trader marketId) ∧
          (markets.Pairwise (· < ·) →
            (({} : PositionCache).flushWithRuns runs pm).2.2.2 = .unmerged)) := by
  refine ⟨settleFills_refused decodes (.empty pm), fun allowed => ⟨?_, ?_⟩⟩
  · obtain ⟨credited, cache, settled, _, stands⟩ := settleFills_stands decodes (.empty pm) allowed
    obtain ⟨rows, balances⟩ := stands.flushAll
    exact ⟨credited, cache, settled, rows, balances⟩
  · intro markets different all
    obtain ⟨runs, settled, owned⟩ := settleMarkets_runs decodes allowed markets
    refine ⟨runs, settled, fun cache => cache.flushWithRuns_eq runs pm, ?_, fun ascending => ?_⟩
    · intro trader marketId
      rw [flushWithRuns_eq]
      exact (marketRuns_stand owned different all).flushAll.1 trader marketId
    · have disjoint : ({} : PositionCache).runsDisjoint runs = true :=
        runsDisjoint_ascending (owned.imp fun _ _ own => own.ofMarket) ascending
          (by simp)
      rw [PositionCache.flushWithRuns, if_pos disjoint]

def oneLong : PositionManager where
  positions := PositionRows.empty.put
    (Fill.opened { trader := 1, marketId := 1, isBuy := true, qty := 5, price := 100, marginType := .cross }
      5 500)

def oneLongTyped : TypedRows where
  ownPendingRow _ _ := .resident
  position trader marketId := some (oneLong.getPosition trader marketId)

/-- The long is closed and reopened in another market; the other side trades both. -/
def closeAndReopen : List Fill :=
  [{ trader := 1, marketId := 1, isBuy := false, qty := 5, price := 120, marginType := .cross },
    { trader := 2, marketId := 1, isBuy := true, qty := 5, price := 120, marginType := .cross },
    { trader := 1, marketId := 2, isBuy := true, qty := 3, price := 40, marginType := .cross },
    { trader := 2, marketId := 2, isBuy := false, qty := 3, price := 40, marginType := .cross }]

theorem settle_transparent_reopened :
    (∀ fill ∈ closeAndReopen, ¬ oneLong.Refused fill) ∧
    ∃ credited cache, settleFills (some oneLongTyped) (oneLong, {}) closeAndReopen =
        .ok (credited, cache) ∧
      (∀ trader marketId, (cache.flushAll credited).1.getPosition trader marketId =
        (oneLong.applyFills closeAndReopen).1.getPosition trader marketId) ∧
      (cache.flushAll credited).1.balances = (oneLong.applyFills closeAndReopen).1.balances := by
  have decodes : ∀ rows ∈ some oneLongTyped, rows.Decodes oneLong := by
    rintro rows ⟨⟩
    constructor
    · intro trader marketId row own
      cases own
    · intro trader marketId row own answer
      exact (Option.some.inj answer).symm
  have allowed : ∀ fill ∈ closeAndReopen, ¬ oneLong.Refused fill := by
    intro fill _ refused
    have off : oneLong.fundingIndex fill.marketId = none := rfl
    rw [Refused, off] at refused
    exact absurd refused.1 (by decide)
  exact ⟨allowed, ((settle_transparent oneLong (some oneLongTyped) decodes closeAndReopen).2
    allowed).1⟩

/-- An escrow's fill in a funded market is refused on a cache and goes through on the store. -/
theorem settleFills_refuses_escrow :
    settleFills none (({ funding := some fun _ => some 0 } : PositionManager), {})
        [{ trader := adlEscrowLong, marketId := 1, isBuy := true, qty := 5, price := 100,
           marginType := .cross }] = .error (.escrowFill adlEscrowLong) ∧
      ((({ funding := some fun _ => some 0 } : PositionManager).applyFills
        [{ trader := adlEscrowLong, marketId := 1, isBuy := true, qty := 5, price := 100,
           marginType := .cross }]).1.getPosition adlEscrowLong 1).isSome = true :=
  ⟨rfl, by decide⟩

end PositionManager

end TorusHyperBft.Account
