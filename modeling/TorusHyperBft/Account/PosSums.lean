import TorusHyperBft.Margin.Need
import TorusHyperBft.Account.Fill

namespace TorusHyperBft.Account

open FixedPoint NeedM List
open OrderBook (MarketId)

/-! The margin sums over the positions of an account, built anew or carried over changed rows. -/

structure PositionTerms where
  upnl : Int
  notional : Int
  positionIm : Int
  maintenance : Int

def PositionTerms.parts (terms : PositionTerms) : Fin 4 → Int :=
  ![terms.upnl, terms.positionIm, terms.notional, terms.maintenance]

def positionTerms (pos : Position) (mark : Option Int) (tiers : MarginTiers) :
    NeedM PositionTerms := do
  let n ← checked (checkedMul pos.size (mark.getD pos.entryPrice))
  let upnl ← match mark with
    | none => pure 0
    | some _ =>
      if pos.isLong then checked (checkedSub n pos.costBasis)
      else checked (checkedSub pos.costBasis n)
  let positionIm ← initialMargin tiers n
  return { upnl, notional := n, positionIm, maintenance := maintenanceMargin tiers n }

def positionTermsFunded (pos : Position) (mark index : Option Int) (tiers : MarginTiers) :
    NeedM PositionTerms := do
  let terms ← positionTerms pos mark tiers
  if index.isSome then
    let upnl ← checked (checkedSub terms.upnl (pos.fundingOwed index))
    return { terms with upnl }
  return terms

/-- The marks of a block and its funding indices; no index table while funding is off. -/
structure BlockMarks where
  get : MarketId → Option (Option Int)
  funding : Option (MarketId → Option Int)

def BlockMarks.fundingOf (marks : BlockMarks) (market : MarketId) : Option (Option Int) :=
  match marks.funding with
  | none => some none
  | some table => (table market).map some

/-- Sums and magnitudes stand in the order of `PositionTerms.parts`. -/
structure PosSums where
  sums : Fin 4 → Int := 0
  isolated : Nat := 0
  marked : Nat := 0
  abs : Fin 4 → Nat := 0

def u32Max : Nat := 2 ^ 32 - 1
def u128Max : Nat := 2 ^ 128 - 1
def absGuard : Nat := maxRaw.toNat

def fitParts (parts : Fin 4 → Int) : NeedM (Fin 4 → Int) :=
  if ∀ i, minRaw ≤ parts i ∧ parts i ≤ maxRaw then pure parts else failure

def addParts (sums : PosSums) (parts : Fin 4 → Int) : NeedM PosSums := do
  let total ← fitParts (sums.sums + parts)
  return { sums with
    sums := total
    abs := fun i => min (sums.abs i + (parts i).natAbs) u128Max }

def takeParts (sums : PosSums) (parts : Fin 4 → Int) : NeedM PosSums := do
  let total ← fitParts (sums.sums - parts)
  if ∃ i, sums.abs i < (parts i).natAbs then failure
  else return { sums with sums := total, abs := fun i => sums.abs i - (parts i).natAbs }

section BuildSums

variable (mark : MarketId → Option Int) (funding : MarketId → NeedM (Option Int))
  (tiers : MarketId → MarginTiers)

def buildStep (sums : PosSums) (pos : Position) : NeedM PosSums := do
  let index ← funding pos.marketId
  let terms ← positionTermsFunded pos (mark pos.marketId) index (tiers pos.marketId)
  let marked := min (sums.marked + (mark pos.marketId).isSome.toNat) u32Max
  addParts { sums with marked } terms.parts

def buildSums (positions : List Position) : NeedM PosSums := do
  let sums ← (positions.filter (·.marginType = .cross)).foldlM (buildStep mark funding tiers) {}
  return { sums with isolated := min (positions.countP (·.marginType ≠ .cross)) u32Max }

end BuildSums

section SumsWithChanges

variable (marks : BlockMarks) (tiers : MarketId → MarginTiers)

def stepCount (add counts : Bool) (count : Nat) : NeedM Nat :=
  if ¬counts then pure count
  else if add then if count < u32Max then pure (count + 1) else failure
  else if count = 0 then failure else pure (count - 1)

def changeStep (add : Bool) (sums : PosSums) (pos : Position) : NeedM PosSums :=
  if pos.marginType ≠ .cross then do
    let isolated ← stepCount add true sums.isolated
    return { sums with isolated }
  else do
    let mark ← OptionT.mk (pure (marks.get pos.marketId))
    let marked ← stepCount add mark.isSome sums.marked
    let index ← OptionT.mk (pure (marks.fundingOf pos.marketId))
    let terms ← positionTermsFunded pos mark index (tiers pos.marketId)
    if add then addParts { sums with marked } terms.parts
    else takeParts { sums with marked } terms.parts

def sumsWithChanges (base : PosSums) (changes : List (Option Position × Option Position)) :
    NeedM PosSums :=
  if ∃ i, absGuard < base.abs i then failure
  else do
    let removed ← (changes.filterMap Prod.fst).foldlM (changeStep marks tiers false) base
    let sums ← (changes.filterMap Prod.snd).foldlM (changeStep marks tiers true) removed
    if ∃ i, absGuard < sums.abs i then failure else return sums

end SumsWithChanges

/-- What a reader values positions with: markets outside the table read the oracle and the
stored index. -/
structure Valuation where
  table : BlockMarks
  oracle : MarketId → Option Int
  stored : MarketId → Option Int
  tiers : MarketId → MarginTiers

namespace Valuation

def mark (v : Valuation) (market : MarketId) : Option Int :=
  (v.table.get market).getD (v.oracle market)

def funding (v : Valuation) (market : MarketId) : Option Int :=
  (v.table.fundingOf market).getD (v.stored market)

def sumsOf (v : Valuation) : List Position → NeedM PosSums :=
  buildSums v.mark (fun market => pure (v.funding market)) v.tiers

def terms (v : Valuation) (pos : Position) : NeedM PositionTerms :=
  positionTermsFunded pos (v.mark pos.marketId) (v.funding pos.marketId) (v.tiers pos.marketId)

end Valuation

inductive Part where
  | sum (i : Fin 4)
  | abs (i : Fin 4)
  | isolated
  | marked

def PosSums.part (sums : PosSums) : Part → Int
  | .sum i => sums.sums i
  | .abs i => sums.abs i
  | .isolated => sums.isolated
  | .marked => sums.marked

theorem PosSums.ext_part {sums other : PosSums}
    (same : ∀ part, sums.part part = other.part part) : sums = other := by
  obtain ⟨left, isolated, marked, abs⟩ := sums
  obtain ⟨right, isolated', marked', abs'⟩ := other
  have counts := And.intro (same .isolated) (same .marked)
  simp only [part, Int.natCast_inj] at counts
  rw [counts.1, counts.2, show left = right from funext fun i => same (.sum i),
    show abs = abs' from funext fun i => Int.natCast_inj.mp (same (.abs i))]

def capped : Part → Int → Int
  | .sum _, exact => exact
  | .abs _, exact => min exact u128Max
  | _, exact => min exact u32Max

namespace Valuation

variable (v : Valuation)

def value (pos : Position) : Fin 4 → Int :=
  match pos.marginType, (v.terms pos).run with
  | .cross, .ok (some terms) => terms.parts
  | _, _ => 0

def share (pos : Position) : Part → Int
  | .sum i => v.value pos i
  | .abs i => (v.value pos i).natAbs
  | .isolated => if pos.marginType = .cross then 0 else 1
  | .marked => if pos.marginType = .cross then (v.mark pos.marketId).isSome.toNat else 0

def total (positions : List Position) (part : Part) : Int :=
  (positions.map fun pos => v.share pos part).sum

/-- A cross position can be valued. -/
def Valued (pos : Position) : Prop :=
  pos.marginType = .cross → ∃ terms, (v.terms pos).run = .ok (some terms)

/-- Each sum gains the position's share, up to its cap. -/
structure Adds (before : PosSums) (pos : Position) (after : PosSums) : Prop where
  valued : v.Valued pos
  added : ∀ part exact, before.part part = capped part exact →
    after.part part = capped part (exact + v.share pos part)

end Valuation

open Account.Valuation

variable {v : Valuation} {positions : List Position} {before after : PosSums} {pos : Position}
  {part : Part}

theorem value_cross (cross : pos.marginType = .cross) {terms : PositionTerms}
    (valued : (v.terms pos).run = .ok (some terms)) : v.value pos = terms.parts := by
  simp [value, cross, valued]

theorem value_isolated (isolated : pos.marginType ≠ .cross) : v.value pos = 0 := by
  unfold value
  split
  · rename_i cross _
    exact absurd cross isolated
  · rfl

theorem fitParts_ok {parts fitted : Fin 4 → Int} (ran : (fitParts parts).run = .ok (some fitted)) :
    fitted = parts := by
  unfold fitParts at ran
  split at ran
  · cases ran
    rfl
  · cases ran

theorem addParts_adds (cross : pos.marginType = .cross) {terms : PositionTerms} {marked : Nat}
    (valued : (v.terms pos).run = .ok (some terms))
    (counted : ∀ exact : Int, before.marked = min exact u32Max →
      marked = min (exact + (v.mark pos.marketId).isSome.toNat) u32Max)
    (ran : (addParts { before with marked } terms.parts).run = .ok (some after)) :
    v.Adds before pos after := by
  obtain ⟨total, isTotal, ran⟩ := bind_ok ran
  cases ran
  rw [fitParts_ok isTotal]
  refine ⟨fun _ => ⟨terms, valued⟩, fun part exact start => ?_⟩
  cases part with
  | marked =>
    rw [share, if_pos cross]
    exact counted exact start
  | _ =>
    simp only [PosSums.part, capped, share, value_cross cross valued, cross, if_true,
      Pi.add_apply] at start ⊢
    omega

theorem buildStep_adds (cross : pos.marginType = .cross)
    (ran : (buildStep v.mark (fun market => pure (v.funding market)) v.tiers before pos).run =
      .ok (some after)) : v.Adds before pos after := by
  obtain ⟨terms, valued, ran⟩ := bind_ok (show (v.terms pos >>= _).run = .ok (some after) from ran)
  exact addParts_adds cross valued (fun exact start => by omega) ran

theorem stepCount_add {counts : Bool} {count next : Nat}
    (ran : (stepCount true counts count).run = .ok (some next)) (exact : Int)
    (start : count = min exact u32Max) : next = min (exact + counts.toNat) u32Max := by
  unfold stepCount at ran
  split at ran
  · cases ran
    simp_all
  · split at ran
    · split at ran
      · cases ran
        simp_all
        omega
      · cases ran
    · contradiction

theorem stepCount_take {counts : Bool} {count next : Nat}
    (ran : (stepCount false counts count).run = .ok (some next)) :
    count = next + counts.toNat := by
  unfold stepCount at ran
  split at ran
  · cases ran
    simp_all
  · rw [if_neg Bool.false_ne_true] at ran
    split at ran
    · cases ran
    · cases ran
      simp_all
      omega

theorem changeStep_cases {add : Bool}
    (ran : (changeStep v.table v.tiers add before pos).run = .ok (some after)) :
    (pos.marginType ≠ .cross ∧ ∃ isolated,
      (stepCount add true before.isolated).run = .ok (some isolated) ∧
        after = { before with isolated }) ∨
    (pos.marginType = .cross ∧ ∃ terms marked, (v.terms pos).run = .ok (some terms) ∧
      (stepCount add (v.mark pos.marketId).isSome before.marked).run = .ok (some marked) ∧
      (if add then addParts { before with marked } terms.parts
        else takeParts { before with marked } terms.parts).run = .ok (some after)) := by
  unfold changeStep at ran
  split at ran
  · rename_i isolated
    obtain ⟨count, counted, ran⟩ := bind_ok ran
    cases ran
    exact .inl ⟨isolated, count, counted, rfl⟩
  · rename_i cross
    obtain ⟨mark, inTable, ran⟩ := bind_ok ran
    obtain ⟨marked, counted, ran⟩ := bind_ok ran
    obtain ⟨index, indexed, ran⟩ := bind_ok ran
    obtain ⟨terms, valued, ran⟩ := bind_ok ran
    have isMark : v.mark pos.marketId = mark := by
      rw [Valuation.mark, Except.ok.inj inTable, Option.getD_some]
    have isIndex : v.funding pos.marketId = index := by
      rw [Valuation.funding, Except.ok.inj indexed, Option.getD_some]
    rw [← isMark] at counted
    rw [← isMark, ← isIndex] at valued
    exact .inr ⟨Decidable.not_not.mp cross, terms, marked, valued, counted, ran⟩

theorem changeStep_adds
    (ran : (changeStep v.table v.tiers true before pos).run = .ok (some after)) :
    v.Adds before pos after := by
  obtain ⟨isolated, count, counted, rfl⟩ | ⟨cross, terms, marked, valued, counted, ran⟩ :=
    changeStep_cases ran
  · refine ⟨fun cross => absurd cross isolated, fun part exact start => ?_⟩
    cases part with
    | isolated =>
      rw [share, if_neg isolated]
      exact stepCount_add counted exact start
    | _ => simpa [PosSums.part, share, value_isolated isolated, isolated] using start
  · exact addParts_adds cross valued (stepCount_add counted) ran

/-- A removal is exact, and what is left of a magnitude or a count is no more than before. -/
theorem changeStep_takes (part : Part)
    (ran : (changeStep v.table v.tiers false before pos).run = .ok (some after)) :
    after.part part = before.part part - v.share pos part ∧
      (capped part (before.part part) = before.part part →
        capped part (after.part part) = after.part part) := by
  obtain ⟨isolated, count, counted, rfl⟩ | ⟨cross, terms, marked, valued, counted, ran⟩ :=
    changeStep_cases ran
  · have counted := stepCount_take counted
    cases part <;>
      simp [PosSums.part, capped, share, value_isolated isolated, isolated] at counted ⊢
    omega
  · have counted := stepCount_take counted
    obtain ⟨total, isTotal, ran⟩ := bind_ok ran
    split at ran
    · cases ran
    · rename_i enough
      cases ran
      rw [fitParts_ok isTotal]
      cases part with
      | abs i =>
        have enough := not_exists.mp enough i
        simp only [PosSums.part, capped, share, value_cross cross valued] at enough ⊢
        omega
      | sum i => simp [PosSums.part, capped, share, value_cross cross valued]
      | _ =>
        simp only [PosSums.part, capped, share, cross, if_true]
        omega

theorem adds_all {step : PosSums → Position → NeedM PosSums}
    (each : ∀ {before pos after}, pos ∈ positions → (step before pos).run = .ok (some after) →
      v.Adds before pos after) {exact : Part → Int}
    (start : ∀ part, before.part part = capped part (exact part))
    (ran : (positions.foldlM step before).run = .ok (some after)) :
    (∀ pos ∈ positions, v.Valued pos) ∧
      ∀ part, after.part part = capped part (exact part + v.total positions part) := by
  induction positions generalizing before exact with
  | nil =>
    cases ran
    exact ⟨by simp, fun part => by simpa [total] using start part⟩
  | cons pos rest ih =>
    rw [foldlM_cons] at ran
    obtain ⟨next, stepped, ran⟩ := bind_ok ran
    have adds := each mem_cons_self stepped
    obtain ⟨valued, summed⟩ := ih (fun member => each (mem_cons_of_mem _ member))
      (fun part => adds.added part _ (start part)) ran
    refine ⟨forall_mem_cons.mpr ⟨adds.valued, valued⟩, fun part => ?_⟩
    rw [summed, total, total, map_cons, sum_cons, Int.add_assoc]

theorem takes_all (part : Part)
    (ran : (positions.foldlM (changeStep v.table v.tiers false) before).run = .ok (some after)) :
    after.part part = before.part part - v.total positions part ∧
      (capped part (before.part part) = before.part part →
        capped part (after.part part) = after.part part) := by
  induction positions generalizing before with
  | nil =>
    cases ran
    simp [total]
  | cons pos rest ih =>
    rw [foldlM_cons] at ran
    obtain ⟨next, stepped, ran⟩ := bind_ok ran
    obtain ⟨taken, kept⟩ := changeStep_takes part stepped
    obtain ⟨left, capped⟩ := ih ran
    refine ⟨?_, fun start => capped (kept start)⟩
    rw [left, taken, total, total, map_cons, sum_cons, Int.sub_sub]

theorem total_perm {other : List Position} (same : positions.Perm other) :
    v.total positions part = v.total other part :=
  (same.map _).sum_eq

theorem total_append (other : List Position) :
    v.total (positions ++ other) part = v.total positions part + v.total other part := by
  simp [total]

theorem total_isolated :
    v.total positions .isolated = positions.countP (·.marginType ≠ .cross) := by
  induction positions with
  | nil => rfl
  | cons pos rest ih =>
    rw [total, map_cons, sum_cons, ← total, ih, countP_cons, share]
    split <;> simp_all
    omega

theorem total_cross (counted : part ≠ .isolated) :
    v.total positions part = v.total (positions.filter (·.marginType = .cross)) part := by
  induction positions with
  | nil => rfl
  | cons pos rest ih =>
    rw [total, map_cons, sum_cons, ← total, ih, filter_cons]
    split
    · rw [total, total, map_cons, sum_cons]
    · rename_i isolated
      rw [decide_eq_true_eq] at isolated
      cases part with
      | isolated => exact absurd rfl counted
      | _ => simp [share, value_isolated isolated, isolated]

theorem sumsOf_ok {sums : PosSums} (built : (v.sumsOf positions).run = .ok (some sums)) :
    (∀ pos ∈ positions, v.Valued pos) ∧
      ∀ part, sums.part part = capped part (v.total positions part) := by
  obtain ⟨cross, folded, built⟩ := bind_ok built
  cases built
  have start (part : Part) : ({} : PosSums).part part = capped part 0 := by
    cases part <;> rfl
  obtain ⟨valued, summed⟩ := adds_all (v := v)
    (fun member => buildStep_adds (by simpa using (mem_filter.mp member).2)) start folded
  simp only [Int.zero_add] at summed
  refine ⟨fun pos member isCross => valued pos ?_ isCross, fun part => ?_⟩
  · exact mem_filter.mpr ⟨member, by simpa using isCross⟩
  · cases part with
    | isolated =>
      rw [total_isolated]
      simp only [PosSums.part, capped]
      omega
    | _ =>
      rw [total_cross (by simp), ← summed]
      rfl

/-- No order of the positions overflows while the magnitudes are within the guard. -/
theorem buildStep_total (cross : ∀ pos ∈ positions, pos.marginType = .cross)
    (valued : ∀ pos ∈ positions, v.Valued pos)
    (small : ∀ i, (before.sums i).natAbs + v.total positions (.abs i) ≤ maxRaw) :
    ∃ after, (positions.foldlM (buildStep v.mark (fun market => pure (v.funding market)) v.tiers)
      before).run = .ok (some after) := by
  induction positions generalizing before with
  | nil => exact ⟨before, rfl⟩
  | cons pos rest ih =>
    rw [forall_mem_cons] at cross valued
    obtain ⟨terms, isTerms⟩ := valued.1 cross.1
    have nonneg (i : Fin 4) : 0 ≤ v.total rest (.abs i) := by
      refine sum_nonneg fun term member => ?_
      obtain ⟨other, _, rfl⟩ := mem_map.mp member
      exact Int.natCast_nonneg _
    simp only [total, map_cons, sum_cons, share, value_cross cross.1 isTerms] at small
    simp only [total, share] at nonneg
    have fits : fitParts (before.sums + terms.parts) = pure (before.sums + terms.parts) := by
      refine if_pos fun i => ?_
      have small := small i
      have nonneg := nonneg i
      simp only [Pi.add_apply, minRaw, maxRaw] at small ⊢
      omega
    let next : PosSums := { before with
      sums := before.sums + terms.parts
      marked := min (before.marked + (v.mark pos.marketId).isSome.toNat) u32Max
      abs := fun i => min (before.abs i + (terms.parts i).natAbs) u128Max }
    have stepped : buildStep v.mark (fun market => pure (v.funding market)) v.tiers before pos =
        pure next := by
      change v.terms pos >>= _ = _
      rw [show v.terms pos = pure terms from isTerms, pure_bind, addParts, fits]
      rfl
    have start (i : Fin 4) : ((next.sums i).natAbs : Int) + v.total rest (.abs i) ≤ maxRaw := by
      have small := small i
      simp only [next, Pi.add_apply, total, share]
      omega
    obtain ⟨after, ran⟩ := ih cross.2 valued.2 start
    refine ⟨after, ?_⟩
    rw [foldlM_cons, stepped, pure_bind, ran]

theorem sumsOf_total (valued : ∀ pos ∈ positions, v.Valued pos)
    (small : ∀ i, v.total positions (.abs i) ≤ maxRaw) :
    ∃ sums, (v.sumsOf positions).run = .ok (some sums) := by
  have start (i : Fin 4) : ((({} : PosSums).sums i).natAbs : Int) +
      v.total (positions.filter (·.marginType = .cross)) (.abs i) ≤ maxRaw := by
    simpa [← total_cross] using small i
  obtain ⟨sums, folded⟩ := buildStep_total
    (fun pos member => by simpa using (mem_filter.mp member).2)
    (fun pos member => valued pos (mem_filter.mp member).1) start
  unfold sumsOf buildSums
  rw [show List.foldlM _ _ _ = pure sums from folded]
  exact ⟨_, rfl⟩

theorem sumsWithChanges_ok {base result : PosSums}
    {changes : List (Option Position × Option Position)}
    (ran : (sumsWithChanges v.table v.tiers base changes).run = .ok (some result)) :
    (∀ i, base.abs i ≤ absGuard) ∧ (∀ i, result.abs i ≤ absGuard) ∧ ∃ removed,
      ((changes.filterMap Prod.fst).foldlM (changeStep v.table v.tiers false) base).run =
        .ok (some removed) ∧
      ((changes.filterMap Prod.snd).foldlM (changeStep v.table v.tiers true) removed).run =
        .ok (some result) := by
  unfold sumsWithChanges at ran
  split at ran
  · cases ran
  · rename_i small
    obtain ⟨removed, isRemoved, ran⟩ := bind_ok ran
    obtain ⟨sums, added, ran⟩ := bind_ok ran
    split at ran
    · cases ran
    · rename_i within
      cases ran
      exact ⟨by simpa using small, by simpa using within, removed, isRemoved, added⟩

/-- While neither count of the base is saturated, sums carried over changed rows are those built
over the new rows, in whichever order these stand. -/
theorem sumsWithChanges_eq_sumsOf {old new kept : List Position} {base result : PosSums}
    {changes : List (Option Position × Option Position)}
    (before : old.Perm (kept ++ changes.filterMap Prod.fst))
    (after : new.Perm (kept ++ changes.filterMap Prod.snd))
    (built : (v.sumsOf old).run = .ok (some base))
    (isolated : base.isolated < u32Max) (marked : base.marked < u32Max)
    (ran : (sumsWithChanges v.table v.tiers base changes).run = .ok (some result)) :
    (v.sumsOf new).run = .ok (some result) := by
  obtain ⟨small, within, removed, isRemoved, isAdded⟩ := sumsWithChanges_ok ran
  obtain ⟨valued, summed⟩ := sumsOf_ok built
  have exactly (part : Part) : base.part part = v.total old part := by
    have summed := summed part
    cases part with
    | sum i => exact summed
    | abs i =>
      have small := small i
      simp only [PosSums.part, capped, absGuard, maxRaw, u128Max] at small summed ⊢
      omega
    | _ =>
      simp only [PosSums.part, capped] at summed ⊢
      omega
  have keeps (part : Part) : removed.part part = capped part (v.total kept part) := by
    obtain ⟨taken, stays⟩ := takes_all part isRemoved
    rw [exactly, total_perm before, total_append, Int.add_sub_cancel] at taken
    rw [← taken, stays (by rw [exactly, ← summed, exactly])]
  obtain ⟨addedValued, added⟩ := adds_all (fun _ => changeStep_adds) keeps isAdded
  have every (pos : Position) (member : pos ∈ new) : v.Valued pos := by
    rcases mem_append.mp (after.mem_iff.mp member) with member | member
    · exact valued pos (before.mem_iff.mpr (mem_append_left _ member))
    · exact addedValued pos member
  have same (part : Part) : result.part part = capped part (v.total new part) := by
    rw [added, total_perm after, total_append]
  obtain ⟨sums, rebuilt⟩ := sumsOf_total every fun i => by
    have within := within i
    have same := same (.abs i)
    simp only [PosSums.part, capped, absGuard, maxRaw, u128Max] at within same ⊢
    omega
  rw [rebuilt, PosSums.ext_part fun part => (same part).trans ((sumsOf_ok rebuilt).2 part).symm]

def isolatedIn (market : MarketId) : Position where
  trader := 0
  marketId := market
  isLong := true
  size := 1
  entryPrice := scale
  costBasis := 1
  realizedPnl := 0
  isolatedMargin := 1
  marginType := .isolated
  funding := none

def unmarked : Valuation where
  table := { get := fun _ => none, funding := none }
  oracle := fun _ => none
  stored := fun _ => none
  tiers := fun _ => none

theorem sumsOf_isolatedIn (markets : List MarketId) :
    (unmarked.sumsOf (markets.map isolatedIn)).run =
      .ok (some { isolated := min markets.length u32Max }) := by
  have none_cross : (markets.map isolatedIn).filter (·.marginType = .cross) = [] := by
    simp [isolatedIn]
  have all : (markets.map isolatedIn).countP (·.marginType ≠ .cross) = markets.length := by
    simp [countP_map, isolatedIn, Function.comp_def]
  unfold sumsOf buildSums
  rw [none_cross, all]
  rfl

theorem sumsWithChanges_saturated : ∃ (markets : List MarketId) (base result : PosSums),
    (0 :: markets).Nodup ∧
    (unmarked.sumsOf ((0 :: markets).map isolatedIn)).run = .ok (some base) ∧
    (sumsWithChanges unmarked.table unmarked.tiers base [(some (isolatedIn 0), none)]).run =
      .ok (some result) ∧
    (unmarked.sumsOf (markets.map isolatedIn)).run ≠ .ok (some result) := by
  refine ⟨List.range' 1 u32Max, { isolated := u32Max }, { isolated := u32Max - 1 }, ?_, ?_, rfl, ?_⟩
  · simp [List.nodup_range']
  · rw [sumsOf_isolatedIn, length_cons, List.length_range', min_eq_right (Nat.le_succ _)]
  · rw [sumsOf_isolatedIn, List.length_range', min_self]
    simp [u32Max]

def crossOf (size : Int) : Position := { isolatedIn 0 with size, marginType := .cross }

def atTwo : Valuation :=
  { unmarked with table := { get := fun _ => some (some (2 * scale)), funding := none } }

theorem sumsWithChanges_eq_sumsOf_resized : ∃ base result,
    (atTwo.sumsOf [isolatedIn 1, crossOf 20]).run = .ok (some base) ∧
    (sumsWithChanges atTwo.table atTwo.tiers base [(some (crossOf 20), some (crossOf 40))]).run =
      .ok (some result) ∧
    (atTwo.sumsOf [crossOf 40, isolatedIn 1]).run = .ok (some result) := by
  have before : [isolatedIn 1, crossOf 20].Perm ([isolatedIn 1] ++
      [(some (crossOf 20), some (crossOf 40))].filterMap Prod.fst) := .refl _
  refine ⟨_, _, rfl, rfl, sumsWithChanges_eq_sumsOf before (.swap ..) rfl ?_ ?_ rfl⟩
  · decide
  · decide

/-- Within the guard the sums do not depend on the order of the positions. -/
theorem sumsOf_perm {other : List Position} {sums : PosSums} (same : positions.Perm other)
    (built : (v.sumsOf positions).run = .ok (some sums)) (within : ∀ i, sums.abs i ≤ absGuard) :
    (v.sumsOf other).run = .ok (some sums) := by
  obtain ⟨valued, summed⟩ := sumsOf_ok built
  simp only [total_perm same] at summed
  have small (i : Fin 4) : v.total other (.abs i) ≤ maxRaw := by
    have within := within i
    have summed := summed (.abs i)
    simp only [PosSums.part, capped, absGuard, maxRaw, u128Max] at within summed ⊢
    omega
  obtain ⟨rebuilt, isRebuilt⟩ :=
    sumsOf_total (fun pos member => valued pos (same.mem_iff.mpr member)) small
  rw [isRebuilt, PosSums.ext_part fun part =>
    (summed part).trans ((sumsOf_ok isRebuilt).2 part).symm]

theorem sumsOf_perm_swapped : ∃ sums,
    (atTwo.sumsOf [isolatedIn 1, crossOf 20]).run = .ok (some sums) ∧
    (atTwo.sumsOf [crossOf 20, isolatedIn 1]).run = .ok (some sums) :=
  ⟨_, rfl, sumsOf_perm (.swap ..) rfl (by decide)⟩

end TorusHyperBft.Account
