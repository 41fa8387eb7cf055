import TorusHyperBft.Account.Liquidation
import TorusHyperBft.Program

namespace TorusHyperBft.Account

open FixedPoint Program List PositionManager
open OrderBook (Address MarketId)

/-! Liquidation moves value and never makes it. -/

namespace PositionManager

/-- No market has a funding index. -/
def FundingOff (pm : PositionManager) : Prop := ∀ marketId, pm.fundingIndex marketId = none

def value (pm : PositionManager) : Int := pm.collateral - pm.longBasis + pm.shortBasis

theorem value_eq {pm : PositionManager} : pm.value = pm.collateral + pm.basis := by
  unfold value
  rw [basis_eq]
  omega

end PositionManager

/-- Net sizes and value are as before. -/
structure Conserved (before after : PositionManager) : Prop where
  netSize : ∀ marketId, after.netSize marketId = before.netSize marketId
  value : after.value = before.value
  sound : after.Sound
  off : after.FundingOff

section Moves

variable {before middle after pm : PositionManager}

theorem Conserved.refl (sound : pm.Sound) (off : pm.FundingOff) : Conserved pm pm :=
  ⟨fun _ => rfl, rfl, sound, off⟩

theorem Conserved.trans (first : Conserved before middle) (second : Conserved middle after) :
    Conserved before after where
  netSize marketId := (second.netSize marketId).trans (first.netSize marketId)
  value := second.value.trans first.value
  sound := second.sound
  off := second.off

theorem applyFill_pair {sell buy : Fill} (sound : pm.Sound) (off : pm.FundingOff)
    (market : sell.marketId = buy.marketId) (opposite : sell.signedQty + buy.signedQty = 0)
    (qtySell : 0 < sell.qty) (qtyBuy : 0 < buy.qty) (priceSell : 0 < sell.price)
    (priceBuy : 0 < buy.price) :
    let after := ((pm.applyFill sell).1.applyFill buy).1
    (∀ marketId, after.netSize marketId = pm.netSize marketId) ∧
    after.value = pm.value + (sell.signedValue + buy.signedValue) ∧
    after.Sound ∧ after.FundingOff := by
  intro after
  have still : (pm.applyFill sell).1.FundingOff := by
    intro marketId
    rw [applyFill_funding]
    exact off marketId
  refine ⟨?_, ?_, (sound.applyFill qtySell priceSell).applyFill qtyBuy priceBuy, ?_⟩
  · intro marketId
    rw [netSize_applyFill, netSize_applyFill, market]
    split <;> omega
  · rw [value_eq, value_eq,
      value_applyFill (still _), value_applyFill (off _)]
    omega
  · intro marketId
    rw [applyFill_funding]
    exact still marketId

theorem Conserved.cash (sound : before.Sound) (off : before.FundingOff)
    (positions : after.positions = before.positions)
    (collateral : after.collateral = before.collateral)
    (funding : after.fundingIndex = before.fundingIndex) : Conserved before after := by
  constructor
  · intro marketId
    unfold PositionManager.netSize PositionManager.weighMarket PositionManager.weigh
    rw [positions]
  · unfold PositionManager.value PositionManager.longBasis PositionManager.shortBasis
      PositionManager.weigh
    rw [positions, collateral]
  · intro trader marketId pos found
    unfold PositionManager.getPosition at found
    rw [positions] at found
    exact sound trader marketId pos found
  · intro marketId
    rw [funding]
    exact off marketId

theorem orFail_bind {α β : Type} {error : LiquidationError} {found : Option α}
    {next : α → LiquidationM β} {value : β}
    (ran : (orFail error found >>= next) before = .ok value after) :
    ∃ part, found = some part ∧ next part before = .ok value after := by
  cases found with
  | none => cases ran
  | some part => exact ⟨part, rfl, ran⟩

variable {source target trader vault : Address} {marketId : MarketId} {qty price : Int}
variable {pos : Position}

theorem transfer_eq (found : pm.getPosition source marketId = some pos) :
    transfer source target marketId qty price pm =
      .ok ()
        ((pm.applyFill (fillCross source marketId (!pos.isLong) qty price)).1.applyFill
          (fillCross target marketId pos.isLong qty price)).1 := by
  unfold transfer
  rw [get_bind, found]
  rfl

theorem transfer_ok {done : Unit}
    (ran : transfer source target marketId qty price before = .ok done after) :
    ∃ pos, before.getPosition source marketId = some pos ∧
      after = ((before.applyFill (fillCross source marketId (!pos.isLong) qty price)).1.applyFill
        (fillCross target marketId pos.isLong qty price)).1 := by
  unfold transfer at ran
  rw [get_bind] at ran
  obtain ⟨pos, found, ran⟩ := orFail_bind ran
  rw [modify_bind, modify_eq, EStateM.Result.ok.injEq] at ran
  exact ⟨pos, found, ran.2.symm⟩

theorem transfer_conserved {done : Unit} (sound : before.Sound) (off : before.FundingOff)
    (qtyPos : 0 < qty) (pricePos : 0 < price)
    (ran : transfer source target marketId qty price before = .ok done after) :
    Conserved before after := by
  obtain ⟨pos, found, rfl⟩ := transfer_ok ran
  obtain ⟨sizes, value, sound, off⟩ := @applyFill_pair _
    (fillCross source marketId (!pos.isLong) qty price)
    (fillCross target marketId pos.isLong qty price)
    sound off rfl (by cases long : pos.isLong <;> simp [fillCross, Fill.signedQty])
    qtyPos qtyPos pricePos pricePos
  have level : (fillCross source marketId (!pos.isLong) qty price).signedValue +
      (fillCross target marketId pos.isLong qty price).signedValue = 0 := by
    cases long : pos.isLong <;> simp [fillCross, Fill.signedValue, Fill.notional]
  exact ⟨sizes, by rw [value, level, Int.add_zero], sound, off⟩

theorem fit_some {raw value : Int} (fits : fit raw = some value) : value = raw := by
  unfold fit at fits
  split at fits
  · exact (Option.some.inj fits).symm
  · cases fits

theorem moveCollateral_ok {amount : Int} (apart : source ≠ target)
    (ran : moveCollateral source target before = .ok amount after) :
    after.collateral = before.collateral ∧ after.positions = before.positions ∧
    after.fundingIndex = before.fundingIndex ∧
    (after.getNativeBalance source).available +
    (after.getNativeBalance source).orderMargin = 0 := by
  unfold moveCollateral at ran
  simp only [get_bind] at ran
  obtain ⟨sum, summed, ran⟩ := orFail_bind ran
  have total := fit_some summed
  split at ran
  · rename_i nothing
    rw [pure_eq, EStateM.Result.ok.injEq] at ran
    obtain ⟨rfl, rfl⟩ := ran
    exact ⟨rfl, rfl, rfl, by omega⟩
  · obtain ⟨less, lessIs, ran⟩ := orFail_bind ran
    obtain ⟨more, moreIs, ran⟩ := orFail_bind ran
    rw [modify_bind, modify_bind, pure_eq, EStateM.Result.ok.injEq] at ran
    obtain ⟨rfl, rfl⟩ := ran
    have lessIs := fit_some lessIs
    have moreIs := fit_some moreIs
    refine ⟨?_, rfl, rfl, ?_⟩
    · rw [collateral_putNativeBalance, collateral_putNativeBalance,
        getNativeBalance_putNativeBalance, if_neg apart.symm]
      dsimp only
      omega
    · rw [getNativeBalance_putNativeBalance, if_neg apart,
        getNativeBalance_putNativeBalance, if_pos rfl]
      dsimp only
      omega

theorem positionsForTrader_markets (pm : PositionManager) (trader : Address) :
    ((pm.positionsForTrader trader).map Position.marketId).Nodup := by
  have keys : ((pm.positions.rows.entries.map Sigma.snd).map Position.key).Nodup := by
    have same : (pm.positions.rows.entries.map Sigma.snd).map Position.key =
        pm.positions.rows.entries.map Sigma.fst := by
      rw [map_map]
      apply map_congr_left
      intro row member
      exact pm.positions.keyed _ _ (Rows.mem_entries_lookup member)
    rw [same]
    exact pm.positions.rows.nodupKeys
  have owned : ((pm.positions.rows.entries.map Sigma.snd).filter fun pos => pos.trader = trader).map
      Position.key = (((pm.positions.rows.entries.map Sigma.snd).filter fun pos =>
        pos.trader = trader).map Position.marketId).map fun marketId => (trader, marketId) := by
    rw [map_map]
    apply map_congr_left
    intro pos member
    have owner : pos.trader = trader := by simpa using (mem_filter.mp member).2
    simp [Position.key, owner]
  have nodup : (((pm.positions.rows.entries.map Sigma.snd).filter fun pos =>
      pos.trader = trader).map Position.key).Nodup := keys.sublist (filter_sublist.map _)
  rw [owned] at nodup
  have perm := (mergeSort_perm ((pm.positions.rows.entries.map Sigma.snd).filter fun pos =>
    pos.trader = trader) fun left right => decide (left.marketId ≤ right.marketId)).map
      Position.marketId
  exact perm.nodup_iff.mpr nodup.of_map

theorem getPosition_transfer (apart : source ≠ target)
    (found : before.getPosition source marketId = some pos)
    (ran : transfer source target marketId pos.size price before = .ok () after)
    (other : MarketId) :
    after.getPosition source other =
      if other = marketId then none else before.getPosition source other := by
  rw [transfer_eq found, EStateM.Result.ok.injEq] at ran
  rw [← ran.2, getPosition_applyFill, if_neg (by simp [Fill.key, fillCross, apart]),
    getPosition_applyFill]
  by_cases here : other = marketId
  · subst here
    rw [if_pos (show (source, other) = (fillCross source other _ _ _).key from rfl), if_pos rfl]
    have closed := @filled_against _
      (fillCross source other (!pos.isLong) pos.size price) _ found rfl (Int.le_refl _)
    rcases closed with ⟨none, _⟩ | ⟨left, _, _, _, less⟩
    · exact none
    · exact absurd less (Int.lt_irrefl _)
  · rw [if_neg (by simp [Fill.key, fillCross, here]), if_neg here]

/-- The backstop moves each marked position to the vault and loses nothing. -/
theorem backstopPositions_spec {mark : MarketId → Option Int} {positions : List Position}
    (apart : trader ≠ vault) (marked : ∀ marketId price, mark marketId = some price → 0 < price)
    (sound : pm.Sound) (off : pm.FundingOff) (markets : (positions.map Position.marketId).Nodup)
    (current : ∀ pos ∈ positions, pm.getPosition trader pos.marketId = some pos) :
    ∃ after, backstopPositions trader vault mark positions pm = .ok () after ∧
      Conserved pm after ∧ ∀ marketId, after.getPosition trader marketId =
        if (mark marketId).isSome ∧ marketId ∈ positions.map Position.marketId then none
        else pm.getPosition trader marketId := by
  induction positions generalizing pm with
  | nil => exact ⟨pm, rfl, .refl sound off, by simp⟩
  | cons pos rest ih =>
    rw [map_cons, nodup_cons] at markets
    have found := current pos mem_cons_self
    cases price : mark pos.marketId with
    | none =>
      obtain ⟨after, ran, conserved, closed⟩ := ih sound off markets.2 fun pos member =>
        current pos (mem_cons_of_mem _ member)
      refine ⟨after, ?_, conserved, ?_⟩
      · simpa [backstopPositions, price] using ran
      · intro marketId
        rw [closed]
        by_cases here : marketId = pos.marketId
        · subst here
          simp [price]
        · simp [here]
    | some price' =>
      obtain ⟨middle, moved⟩ : ∃ middle,
          transfer trader vault pos.marketId pos.size price' pm = .ok () middle :=
        ⟨_, transfer_eq found⟩
      have kept := transfer_conserved sound off (sound _ _ pos found).1 (marked _ _ price) moved
      have left := getPosition_transfer apart found moved
      obtain ⟨after, ran, conserved, closed⟩ := @ih middle kept.sound kept.off markets.2 (by
        intro next member
        have different : next.marketId ≠ pos.marketId := fun same =>
          markets.1 (same ▸ mem_map_of_mem member)
        rw [left, if_neg different]
        exact current next (mem_cons_of_mem _ member))
      refine ⟨after, ?_, kept.trans conserved, ?_⟩
      · unfold backstopPositions
        rw [price]
        exact (bind_eq moved).trans ran
      · intro marketId
        rw [closed, left]
        by_cases here : marketId = pos.marketId
        · subst here
          simp [price]
        · simp [here]

theorem backstop_conserved {mark : MarketId → Option Int} {done : Unit} (apart : trader ≠ vault)
    (marked : ∀ marketId price, mark marketId = some price → 0 < price) (sound : before.Sound)
    (off : before.FundingOff) (ran : backstop trader vault mark before = .ok done after) :
    Conserved before after ∧
    (∀ marketId, (mark marketId).isSome → after.getPosition trader marketId = none) ∧
    (after.getNativeBalance trader).available +
    (after.getNativeBalance trader).orderMargin = 0 := by
  obtain ⟨middle, moved, kept, closed⟩ := backstopPositions_spec apart marked sound off
    (positionsForTrader_markets before trader) fun pos member =>
      (mem_positionsForTrader.mp member).2
  unfold backstop at ran
  rw [get_bind, bind_eq moved] at ran
  obtain ⟨amount, last, swept, ran⟩ := Program.bind_ok ran
  rw [pure_eq, EStateM.Result.ok.injEq] at ran
  obtain ⟨rfl, rfl⟩ := ran
  obtain ⟨cash, positions, funding, empty⟩ := moveCollateral_ok apart swept
  have same := Conserved.cash kept.sound kept.off positions cash funding
  refine ⟨kept.trans same, ?_, empty⟩
  intro marketId markedHere
  have here : last.getPosition trader marketId = middle.getPosition trader marketId := by
    unfold PositionManager.getPosition
    rw [positions]
  rw [here, closed]
  split
  · rfl
  · rename_i unlisted
    cases found : before.getPosition trader marketId with
    | none => rfl
    | some pos =>
      have key := getPosition_key found
      refine absurd ⟨markedHere, mem_map.mpr ⟨pos, ?_, key.2⟩⟩ unlisted
      rw [mem_positionsForTrader, key.2]
      exact ⟨key.1, found⟩

variable {progress result : AdlProgress} {isLong : Bool}

theorem adlCandidate_ok {candidate : AdlCandidate}
    (ran : adlCandidate trader marketId isLong price candidate progress before = .ok result after) :
    (after = before ∧ result = { progress with read := progress.read + 1 }.advance true ∧
      (candidate.trader = trader ∨ ∀ held,
        before.getPosition candidate.trader marketId = some held →
          held.isLong = isLong ∨ held.size ≤ 0)) ∨
    ∃ held q, candidate.trader ≠ trader ∧
      before.getPosition candidate.trader marketId = some held ∧ held.isLong ≠ isLong ∧
      0 < held.size ∧ q = min progress.remaining held.size ∧
      transfer trader candidate.trader marketId q price before = .ok () after ∧
      result = { progress with
        read := progress.read + 1
        closes := progress.closes ++ [(candidate.trader, q)]
        remaining := progress.remaining - q }.advance (q = held.size) := by
  unfold adlCandidate at ran
  rw [get_bind] at ran
  cases own : decide (candidate.trader = trader) with
  | true =>
    simp only [own] at ran
    cases ran
    exact .inl ⟨rfl, rfl, .inl (of_decide_eq_true own)⟩
  | false =>
    have other := of_decide_eq_false own
    cases found : before.getPosition candidate.trader marketId with
    | none =>
      simp only [own, found] at ran
      cases ran
      exact .inl ⟨rfl, rfl, .inr (by simp)⟩
    | some held =>
      simp only [own, found] at ran
      split at ran
      · rename_i side
        obtain ⟨done, middle, moved, finished⟩ := Program.bind_ok ran
        cases finished
        exact .inr ⟨held, _, other, rfl, side.1, side.2, rfl, moved, rfl⟩
      · rename_i side
        cases ran
        refine .inl ⟨rfl, rfl, .inr ?_⟩
        rintro _ ⟨⟩
        by_cases same : held.isLong = isLong
        · exact .inl same
        · exact .inr (Int.not_lt.mp fun sized => side ⟨same, sized⟩)

theorem adlCandidate_conserved {candidate : AdlCandidate} (pricePos : 0 < price)
    (remains : 0 < progress.remaining)
    (sound : before.Sound) (off : before.FundingOff)
    (ran : adlCandidate trader marketId isLong price candidate progress before = .ok result after) :
    Conserved before after := by
  rcases adlCandidate_ok ran with ⟨rfl, -⟩ | ⟨held, q, -, -, -, sized, rfl, moved, -⟩
  · exact .refl sound off
  · exact transfer_conserved sound off (lt_min remains sized) pricePos moved

theorem adlCloseEach_conserved {ranked : List AdlCandidate} (pricePos : 0 < price)
    (sound : before.Sound)
    (off : before.FundingOff)
    (ran : adlCloseEach trader marketId isLong price ranked progress before = .ok result after) :
    Conserved before after := by
  induction ranked generalizing progress before with
  | nil =>
    cases ran
    exact .refl sound off
  | cons candidate rest ih =>
    unfold adlCloseEach at ran
    split at ran
    · cases ran
      exact .refl sound off
    · rename_i remains
      obtain ⟨next, middle, stepped, ran⟩ := Program.bind_ok ran
      have step := adlCandidate_conserved pricePos (Int.not_le.mp remains) sound off stepped
      exact step.trans (ih step.sound step.off ran)

theorem adlClose_conserved {ranked : List AdlCandidate} {result : AdlProgress}
    (pricePos : 0 < price) (sound : before.Sound) (off : before.FundingOff)
    (ran : adlClose trader marketId price qty ranked before = .ok result after) :
    Conserved before after := by
  unfold adlClose at ran
  rw [get_bind] at ran
  cases found : before.getPosition trader marketId with
  | none =>
    rw [found] at ran
    cases ran
    exact .refl sound off
  | some pos =>
    rw [found] at ran
    exact adlCloseEach_conserved pricePos sound off ran

theorem settleFlatDeficit_conserved {amount : Int} (sound : before.Sound) (off : before.FundingOff)
    (ran : settleFlatDeficit trader vault before = .ok amount after) : Conserved before after := by
  unfold settleFlatDeficit at ran
  rw [get_bind] at ran
  split at ran
  · cases ran
    exact .refl sound off
  · rename_i settles
    obtain ⟨collateral, _, ran⟩ := orFail_bind ran
    split at ran
    · cases ran
      exact .refl sound off
    · have apart : trader ≠ vault := fun same => settles (.inl same)
      obtain ⟨cash, positions, funding, _⟩ := moveCollateral_ok apart ran
      exact .cash sound off positions cash funding

section Cross

variable {q priceLong priceShort : Int}

theorem checkCloses_eq (escrow : Address) (isLong : Bool) :
    checkCloses escrow isLong marketId q pm =
      if q ≤ 0 || !holds pm escrow isLong marketId q then .error (.cannotClose escrow q marketId) pm
      else .ok () pm := by
  unfold checkCloses
  rw [get_bind]
  split <;> rfl

theorem crossClose_fails
    (cannot : q ≤ 0 ∨ holds pm adlEscrowLong true marketId q = false ∨
      holds pm adlEscrowShort false marketId q = false) :
    ∃ error, crossClose marketId q priceLong priceShort vault pm = .error error pm := by
  unfold crossClose
  by_cases first : (q ≤ 0 || !holds pm adlEscrowLong true marketId q) = true
  · exact ⟨_, bind_error ((checkCloses_eq _ _).trans (if_pos first))⟩
  · have second : (q ≤ 0 || !holds pm adlEscrowShort false marketId q) = true := by
      simp only [Bool.or_eq_true, decide_eq_true_eq, Bool.not_eq_true'] at first ⊢
      tauto
    rw [bind_eq ((checkCloses_eq _ _).trans (if_neg first))]
    exact ⟨_, bind_error ((checkCloses_eq _ _).trans (if_pos second))⟩

theorem holds_iff {escrow : Address} : holds pm escrow isLong marketId q = true ↔
      ∃ pos, pm.getPosition escrow marketId = some pos ∧ pos.isLong = isLong ∧ q ≤ pos.size := by
  unfold holds
  cases pm.getPosition escrow marketId <;> simp

/-- A position that lost `q` of its size, on the side it was, or its row if that was all. -/
def Reduced (before after : Option Position) (q : Int) : Prop :=
  ∃ pos, before = some pos ∧ q ≤ pos.size ∧
    ((after = none ∧ q = pos.size) ∨
      ∃ left, after = some left ∧ left.isLong = pos.isLong ∧ left.size = pos.size - q ∧ q < pos.size)

theorem crossClose_conserved {paid : Int} (longPos : 0 < priceLong) (shortPos : 0 < priceShort)
    (sound : before.Sound) (off : before.FundingOff)
    (ran : crossClose marketId q priceLong priceShort vault before = .ok paid after) :
    Conserved before after ∧
    Reduced (before.getPosition adlEscrowLong marketId) (after.getPosition adlEscrowLong marketId) q ∧
    Reduced (before.getPosition adlEscrowShort marketId)
      (after.getPosition adlEscrowShort marketId) q := by
  have able : 0 < q ∧ holds before adlEscrowLong true marketId q = true ∧
      holds before adlEscrowShort false marketId q = true := by
    by_contra unable
    have cannot : q ≤ 0 ∨ holds before adlEscrowLong true marketId q = false ∨
        holds before adlEscrowShort false marketId q = false := by
      simp only [← Bool.not_eq_true]
      rw [← Int.not_lt]
      tauto
    obtain ⟨error, failed⟩ :=
      @crossClose_fails before vault marketId q priceLong priceShort cannot
    rw [failed] at ran
    cases ran
  obtain ⟨qPos, holdsLong, holdsShort⟩ := able
  have apart : adlEscrowLong ≠ adlEscrowShort := by decide
  have passLong : checkCloses adlEscrowLong true marketId q before = .ok () before :=
    (checkCloses_eq _ _).trans (if_neg (by simp [holdsLong]; omega))
  have passShort : checkCloses adlEscrowShort false marketId q before = .ok () before :=
    (checkCloses_eq _ _).trans (if_neg (by simp [holdsShort]; omega))
  unfold crossClose at ran
  rw [bind_eq passLong, bind_eq passShort, modify_bind, modify_bind] at ran
  obtain ⟨short, shortIs, ran⟩ := orFail_bind ran
  obtain ⟨long, longIs, ran⟩ := orFail_bind ran
  obtain ⟨difference, differenceIs, ran⟩ := orFail_bind ran
  rw [get_bind] at ran
  obtain ⟨available, availableIs, ran⟩ := orFail_bind ran
  rw [modify_bind, pure_eq, EStateM.Result.ok.injEq] at ran
  obtain ⟨rfl, rfl⟩ := ran
  have shortIs := fit_some shortIs
  have longIs := fit_some longIs
  have differenceIs := fit_some differenceIs
  have availableIs := fit_some availableIs
  obtain ⟨heldLong, foundLong, sideLong, mostLong⟩ := holds_iff.mp holdsLong
  obtain ⟨heldShort, foundShort, sideShort, mostShort⟩ := holds_iff.mp holdsShort
  obtain ⟨sizes, value, soundAfter, offAfter⟩ := @applyFill_pair _
    (fillCross adlEscrowLong marketId false q priceLong)
    (fillCross adlEscrowShort marketId true q priceShort) sound off rfl
    (by simp [fillCross, Fill.signedQty]) qPos qPos longPos shortPos
  have sold : (fillCross adlEscrowLong marketId false q priceLong).signedValue = long := longIs.symm
  have bought : (fillCross adlEscrowShort marketId true q priceShort).signedValue = -short :=
    congrArg Neg.neg shortIs.symm
  refine ⟨⟨sizes, ?_, soundAfter, offAfter⟩, ⟨heldLong, foundLong, mostLong, ?_⟩,
    ⟨heldShort, foundShort, mostShort, ?_⟩⟩
  · rw [value_eq] at value ⊢
    rw [collateral_putNativeBalance]
    change _ + PositionManager.basis ((before.applyFill _).1.applyFill _).1 = _
    dsimp only
    omega
  · have left : ((before.applyFill (fillCross adlEscrowLong marketId false q priceLong)).1.applyFill
        (fillCross adlEscrowShort marketId true q priceShort)).1.getPosition adlEscrowLong marketId =
        before.filled (fillCross adlEscrowLong marketId false q priceLong) := by
      rw [getPosition_applyFill, if_neg (by simp [Fill.key, fillCross, apart]),
        getPosition_applyFill]
      exact if_pos rfl
    exact left ▸ filled_against foundLong (by simp [fillCross, sideLong]) mostLong
  · have untouched :
        (before.applyFill (fillCross adlEscrowLong marketId false q priceLong)).1.getPosition
          adlEscrowShort marketId = some heldShort := by
      rw [getPosition_applyFill, if_neg (by simp [Fill.key, fillCross, apart.symm])]
      exact foundShort
    have left : ((before.applyFill (fillCross adlEscrowLong marketId false q priceLong)).1.applyFill
        (fillCross adlEscrowShort marketId true q priceShort)).1.getPosition adlEscrowShort marketId =
        (before.applyFill (fillCross adlEscrowLong marketId false q priceLong)).1.filled
          (fillCross adlEscrowShort marketId true q priceShort) := by
      rw [getPosition_applyFill]
      exact if_pos rfl
    exact left ▸ filled_against untouched (by simp [fillCross, sideShort]) mostShort

end Cross

/-- The five moves keep every market's net size and the value of all accounts; a backstop
empties the account of marked positions and of collateral, and a cross close only reduces the
escrows' positions or fails without a write. -/
theorem liquidation_conserves (pm : PositionManager) (sound : pm.Sound) (off : pm.FundingOff) :
    (∀ source target marketId qty price after, 0 < qty → 0 < price →
      transfer source target marketId qty price pm = .ok () after → Conserved pm after) ∧
    (∀ trader vault (mark : MarketId → Option Int) after, trader ≠ vault →
      (∀ marketId price, mark marketId = some price → 0 < price) →
      backstop trader vault mark pm = .ok () after →
      Conserved pm after ∧
      (∀ marketId, (mark marketId).isSome → after.getPosition trader marketId = none) ∧
      (after.getNativeBalance trader).available +
        (after.getNativeBalance trader).orderMargin = 0) ∧
    (∀ trader marketId price qty ranked progress after, 0 < price →
      adlClose trader marketId price qty ranked pm = .ok progress after → Conserved pm after) ∧
    (∀ marketId q priceLong priceShort vault paid after, 0 < priceLong → 0 < priceShort →
      crossClose marketId q priceLong priceShort vault pm = .ok paid after →
      Conserved pm after ∧
      Reduced (pm.getPosition adlEscrowLong marketId) (after.getPosition adlEscrowLong marketId) q ∧
      Reduced (pm.getPosition adlEscrowShort marketId)
        (after.getPosition adlEscrowShort marketId) q) ∧
    (∀ marketId q priceLong priceShort vault,
      q ≤ 0 ∨ holds pm adlEscrowLong true marketId q = false ∨
        holds pm adlEscrowShort false marketId q = false →
      ∃ error, crossClose marketId q priceLong priceShort vault pm = .error error pm) ∧
    (∀ trader vault amount after, settleFlatDeficit trader vault pm = .ok amount after →
      Conserved pm after) := by
  refine ⟨?_, ?_, ?_, ?_, ?_, ?_⟩
  · intro source target marketId qty price after qtyPos pricePos ran
    exact transfer_conserved sound off qtyPos pricePos ran
  · intro trader vault mark after apart marked ran
    exact backstop_conserved apart marked sound off ran
  · intro trader marketId price qty ranked progress after pricePos ran
    exact adlClose_conserved pricePos sound off ran
  · intro marketId q priceLong priceShort vault paid after longPos shortPos ran
    exact crossClose_conserved longPos shortPos sound off ran
  · intro marketId q priceLong priceShort vault cannot
    exact crossClose_fails cannot
  · intro trader vault amount after ran
    exact settleFlatDeficit_conserved sound off ran

/-- The escrows close two of three units against each other at two prices. -/
theorem liquidation_conserves_crossClose :
    let held (trader : Address) (isLong : Bool) : Position := {
      trader, marketId := 7, isLong, size := 300000000, entryPrice := 100000000,
      costBasis := 300000001, realizedPnl := 0, isolatedMargin := 0, marginType := .cross,
      funding := none }
    let pm : PositionManager := {
      positions := (PositionRows.put {} (held adlEscrowLong true)).put (held adlEscrowShort false) }
    ∃ paid after, crossClose 7 200000000 110000001 90000000 liquidatorVault pm = .ok paid after ∧
      Conserved pm after := by
  intro held pm
  have sound : pm.Sound := by
    intro trader marketId pos found
    have row : ⟨(trader, marketId), pos⟩ ∈ pm.positions.rows.entries := AList.mem_lookup_iff.mp found
    have listed : pos = held adlEscrowShort false ∨ pos = held adlEscrowLong true := by
      change (⟨(trader, marketId), pos⟩ : Sigma fun _ : PositionKey => Position) ∈
        [⟨(adlEscrowShort, 7), held adlEscrowShort false⟩,
          ⟨(adlEscrowLong, 7), held adlEscrowLong true⟩] at row
      simp only [mem_cons, Sigma.mk.injEq, heq_eq_eq, not_mem_nil, or_false] at row
      tauto
    rcases listed with rfl | rfl
    · exact ⟨by decide, by decide⟩
    · exact ⟨by decide, by decide⟩
  have cross := (liquidation_conserves pm sound fun _ => rfl).2.2.2.1
  refine ⟨_, _, rfl, ?_⟩
  exact (cross 7 200000000 110000001 90000000 liquidatorVault _ _ (by decide) (by decide) rfl).1

end Moves

end TorusHyperBft.Account
