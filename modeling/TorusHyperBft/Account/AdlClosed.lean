import TorusHyperBft.Account.AdlRank
import TorusHyperBft.Account.Bankruptcy

namespace TorusHyperBft.Account

open FixedPoint Program List PositionManager
open OrderBook (Address MarketId)

/-! What an ADL close takes from the ranked counterparties, and what it leaves of them. -/

def liveSize (pm : PositionManager) (marketId : MarketId) (isLong : Bool) (trader : Address) : Int :=
  match pm.getPosition trader marketId with
  | some held => if held.isLong ≠ isLong ∧ held.size > 0 then held.size else 0
  | none => 0

/-- The closes of `remaining` against sizes in order: each in full until nothing remains. -/
def adlPlan : Int → List (Address × Int) → List (Address × Int)
  | _, [] => []
  | remaining, (trader, size) :: rest =>
    if remaining ≤ 0 then []
    else if size ≤ 0 then adlPlan remaining rest
    else (trader, min remaining size) :: adlPlan (remaining - min remaining size) rest

def adlReads : Int → List Int → Nat
  | _, [] => 0
  | remaining, size :: rest =>
    if remaining ≤ 0 then 0 else 1 + adlReads (remaining - min remaining (max size 0)) rest

def closed (closes : List (Address × Int)) : Int := (closes.map Prod.snd).sum

section Plan

variable {remaining : Int} {sizes : List (Address × Int)}

theorem adlPlan_done (done : remaining ≤ 0) : adlPlan remaining sizes = [] := by
  cases sizes with
  | nil => rfl
  | cons first rest => rw [adlPlan, if_pos done]

theorem adlPlan_closed (nonneg : ∀ size ∈ sizes, 0 ≤ size.2) :
    closed (adlPlan remaining sizes) = max 0 (min remaining (closed sizes)) := by
  induction sizes generalizing remaining with
  | nil =>
    simp only [adlPlan, closed, map_nil, sum_nil]
    omega
  | cons first rest ih =>
    obtain ⟨trader, size⟩ := first
    have sized : 0 ≤ size := nonneg _ mem_cons_self
    have others : ∀ size ∈ rest, 0 ≤ size.2 := fun size member =>
      nonneg size (mem_cons_of_mem _ member)
    have total : 0 ≤ closed rest := by
      apply sum_nonneg
      intro part member
      obtain ⟨size, inRest, rfl⟩ := mem_map.mp member
      exact others size inRest
    have split : closed ((trader, size) :: rest) = size + closed rest := by simp [closed]
    rw [split, adlPlan]
    by_cases done : remaining ≤ 0
    · rw [if_pos done]
      simp only [closed, map_nil, sum_nil]
      omega
    rw [if_neg done]
    by_cases gone : size ≤ 0
    · rw [if_pos gone, ih others]
      omega
    · rw [if_neg gone]
      have step : closed ((trader, min remaining size) ::
          adlPlan (remaining - min remaining size) rest) =
            min remaining size + closed (adlPlan (remaining - min remaining size) rest) := by
        simp [closed]
      rw [step, ih others]
      omega

theorem adlPlan_order : (adlPlan remaining sizes).map Prod.fst =
    ((sizes.filter fun size => 0 < size.2).map Prod.fst).take (adlPlan remaining sizes).length := by
  induction sizes generalizing remaining with
  | nil => rfl
  | cons first rest ih =>
    obtain ⟨trader, size⟩ := first
    rw [adlPlan]
    split
    · simp
    · split
      · rename_i gone
        rw [ih, filter_cons_of_neg (by simpa using gone)]
      · rename_i held
        rw [filter_cons_of_pos (by simpa using held)]
        simpa using ih

theorem adlPlan_mem {close : Address × Int} (member : close ∈ adlPlan remaining sizes) :
    0 < close.2 ∧ ∃ size, (close.1, size) ∈ sizes ∧ close.2 ≤ size := by
  induction sizes generalizing remaining with
  | nil => cases member
  | cons first rest ih =>
    obtain ⟨trader, size⟩ := first
    rw [adlPlan] at member
    split at member
    · cases member
    · split at member
      · obtain ⟨positive, size, listed, most⟩ := ih member
        exact ⟨positive, size, mem_cons_of_mem _ listed, most⟩
      · rcases mem_cons.mp member with rfl | member
        · dsimp only
          exact ⟨by omega, size, mem_cons_self, by omega⟩
        · obtain ⟨positive, size, listed, most⟩ := ih member
          exact ⟨positive, size, mem_cons_of_mem _ listed, most⟩

theorem adlPlan_full {close : Address × Int} (member : close ∈ (adlPlan remaining sizes).dropLast) :
    close ∈ sizes := by
  induction sizes generalizing remaining with
  | nil => cases member
  | cons first rest ih =>
    obtain ⟨trader, size⟩ := first
    rw [adlPlan] at member
    split at member
    · cases member
    · split at member
      · exact mem_cons_of_mem _ (ih member)
      · rename_i held
        cases later : adlPlan (remaining - min remaining size) rest with
        | nil => simp [later] at member
        | cons next more =>
          have open_ : ¬ remaining - min remaining size ≤ 0 := by
            intro done
            rw [adlPlan_done done] at later
            cases later
          rw [later, dropLast_cons_of_ne_nil (by simp), ← later] at member
          rcases mem_cons.mp member with rfl | member
          · have whole : min remaining size = size := by omega
            rw [whole]
            exact mem_cons_self
          · exact mem_cons_of_mem _ (ih member)

end Plan

section Reads

variable {remaining : Int} {sizes : List Int}

theorem adlReads_least (nonneg : ∀ size ∈ sizes, 0 ≤ size) :
    (∀ count < adlReads remaining sizes, (sizes.take count).sum < remaining) ∧
      (adlReads remaining sizes = sizes.length ∨
        remaining ≤ (sizes.take (adlReads remaining sizes)).sum) := by
  induction sizes generalizing remaining with
  | nil => simp [adlReads]
  | cons size rest ih =>
    have sized : 0 ≤ size := nonneg _ mem_cons_self
    obtain ⟨before, reached⟩ := @ih (remaining - min remaining (max size 0)) fun size member =>
      nonneg size (mem_cons_of_mem _ member)
    rw [adlReads]
    split
    · rename_i done
      exact ⟨by simp, .inr (by simpa using done)⟩
    · rename_i more
      constructor
      · intro count low
        cases count with
        | zero =>
          simp only [take_zero, sum_nil]
          omega
        | succ count =>
          have later := before count (by omega)
          have read : 0 ≤ (rest.take count).sum := by
            apply sum_nonneg
            intro part member
            exact nonneg part (mem_cons_of_mem _ (mem_of_mem_take member))
          rw [take_succ_cons, sum_cons]
          omega
      · rcases reached with all | enough
        · left
          rw [all, length_cons, Nat.add_comm]
        · right
          rw [Nat.add_comm, take_succ_cons, sum_cons]
          omega

end Reads

section Step

variable {trader other : Address} {marketId : MarketId} {isLong : Bool} {price : Int}
variable {pm after : PositionManager} {pos held : Position} {candidate : AdlCandidate}
variable {progress : AdlProgress}

theorem liveSize_nonneg : 0 ≤ liveSize pm marketId isLong trader := by
  unfold liveSize
  split
  · split <;> omega
  · exact le_rfl

theorem liveSize_congr (same : after.getPosition trader marketId = pm.getPosition trader marketId) :
    liveSize after marketId isLong trader = liveSize pm marketId isLong trader := by
  unfold liveSize
  rw [same]

theorem liveSize_own
    (own : ∀ pos, pm.getPosition trader marketId = some pos → pos.isLong = isLong) :
    liveSize pm marketId isLong trader = 0 := by
  unfold liveSize
  cases found : pm.getPosition trader marketId with
  | none => rfl
  | some pos => simp [own pos found]

theorem liveSize_pos (live : 0 < liveSize pm marketId isLong trader) :
    ∃ held, pm.getPosition trader marketId = some held ∧ held.isLong ≠ isLong ∧
      held.size = liveSize pm marketId isLong trader := by
  unfold liveSize at live ⊢
  cases found : pm.getPosition trader marketId with
  | none => simp [found] at live
  | some held =>
    simp only [found] at live ⊢
    split at live
    · rename_i opposite
      rw [if_pos opposite]
      exact ⟨held, rfl, opposite.1, rfl⟩
    · omega

theorem adlCandidate_dead
    (dead : candidate.trader = trader ∨ liveSize pm marketId isLong candidate.trader ≤ 0) :
    adlCandidate trader marketId isLong price candidate progress pm =
      .ok ({ progress with read := progress.read + 1 }.advance true) pm := by
  unfold adlCandidate
  rw [get_bind]
  cases own : decide (candidate.trader = trader) with
  | true => rfl
  | false =>
    have apart := of_decide_eq_false own
    have nothing : liveSize pm marketId isLong candidate.trader ≤ 0 := by
      rcases dead with same | nothing
      · exact absurd same apart
      · exact nothing
    unfold liveSize at nothing
    cases found : pm.getPosition candidate.trader marketId with
    | none => rfl
    | some held =>
      simp only [found] at nothing ⊢
      split at nothing
      · rename_i opposite
        omega
      · rename_i same
        rw [if_neg same]
        rfl

theorem adlCandidate_live (apart : candidate.trader ≠ trader)
    (live : 0 < liveSize pm marketId isLong candidate.trader)
    (found : pm.getPosition trader marketId = some pos) :
    let q := min progress.remaining (liveSize pm marketId isLong candidate.trader)
    ∃ after, transfer trader candidate.trader marketId q price pm = .ok () after ∧
      adlCandidate trader marketId isLong price candidate progress pm =
        .ok ({ progress with
          read := progress.read + 1
          closes := progress.closes ++ [(candidate.trader, q)]
          remaining := progress.remaining - q }.advance
            (q = liveSize pm marketId isLong candidate.trader)) after := by
  obtain ⟨held, isHeld, opposite, size⟩ := liveSize_pos live
  intro q
  refine ⟨_, transfer_eq found, ?_⟩
  unfold adlCandidate
  rw [get_bind]
  have own : decide (candidate.trader = trader) = false := decide_eq_false apart
  have sized : held.size > 0 := by omega
  simp only [own, isHeld]
  rw [if_pos ⟨opposite, sized⟩, size, bind_eq (transfer_eq found)]
  rfl

theorem getPosition_transfer_part {q : Int} (apart : other ≠ trader)
    (found : pm.getPosition trader marketId = some pos)
    (isHeld : pm.getPosition other marketId = some held) (opposite : held.isLong ≠ pos.isLong)
    (most : q ≤ pos.size) (part : q ≤ held.size)
    (moved : transfer trader other marketId q price pm = .ok () after) :
    Reduced (pm.getPosition trader marketId) (after.getPosition trader marketId) q ∧
      Reduced (pm.getPosition other marketId) (after.getPosition other marketId) q ∧
      ∀ third market, (third, market) ≠ (trader, marketId) → (third, market) ≠ (other, marketId) →
        after.getPosition third market = pm.getPosition third market := by
  rw [transfer_eq found, EStateM.Result.ok.injEq] at moved
  have isAfter := moved.2
  have sourceKey : (fillCross trader marketId (!pos.isLong) q price).key = (trader, marketId) := rfl
  have targetKey : (fillCross other marketId pos.isLong q price).key = (other, marketId) := rfl
  refine ⟨?_, ?_, ?_⟩
  · have filled := @filled_against pm
      (fillCross trader marketId (!pos.isLong) q price) pos found rfl most
    refine ⟨pos, found, most, ?_⟩
    rw [← isAfter, getPosition_applyFill, targetKey,
      if_neg (by simp [Ne.symm apart]), getPosition_applyFill, sourceKey, if_pos rfl]
    exact filled
  · have standing : (pm.applyFill (fillCross trader marketId (!pos.isLong) q price)).1.getPosition
        other marketId = some held := by
      rw [getPosition_applyFill, sourceKey, if_neg (by simp [apart])]
      exact isHeld
    have against : pos.isLong = !held.isLong := by
      cases long : pos.isLong <;> cases short : held.isLong <;> simp_all
    have filled := @filled_against _
      (fillCross other marketId pos.isLong q price) held standing against part
    refine ⟨held, isHeld, part, ?_⟩
    rw [← isAfter, getPosition_applyFill, targetKey, if_pos rfl]
    exact filled
  · intro third market notSource notTarget
    rw [← isAfter, getPosition_applyFill, targetKey, if_neg notTarget,
      getPosition_applyFill, sourceKey, if_neg notSource]

end Step

def liveSizes (pm : PositionManager) (marketId : MarketId) (isLong : Bool)
    (ranked : List AdlCandidate) : List (Address × Int) :=
  ranked.map fun candidate => (candidate.trader, liveSize pm marketId isLong candidate.trader)

/-- How a run over the candidates goes on from its progress. -/
structure AdlRun (trader : Address) (marketId : MarketId) (isLong : Bool)
    (before after : PositionManager) (ranked : List AdlCandidate) (progress result : AdlProgress)
    (plan : List (Address × Int)) : Prop where
  closes : result.closes = progress.closes ++ plan
  read : result.read = progress.read +
    adlReads progress.remaining ((liveSizes before marketId isLong ranked).map Prod.snd)
  own : (plan = [] ∧ after.getPosition trader marketId = before.getPosition trader marketId) ∨
    Reduced (before.getPosition trader marketId) (after.getPosition trader marketId) (closed plan)
  taken : ∀ close ∈ plan,
    Reduced (before.getPosition close.1 marketId) (after.getPosition close.1 marketId) close.2
  others : ∀ third market, (third, market) ≠ (trader, marketId) →
    (market = marketId → third ∉ plan.map Prod.fst) →
      after.getPosition third market = before.getPosition third market
  next : progress.next ≤ progress.read → result.next =
    if progress.next = progress.read then
      progress.next + ((ranked.take (result.read - progress.read)).takeWhile fun candidate =>
        liveSize after marketId isLong candidate.trader = 0).length
    else progress.next

section Run

variable {trader : Address} {marketId : MarketId} {isLong : Bool} {price : Int}
variable {before after : PositionManager} {ranked : List AdlCandidate} {progress : AdlProgress}

theorem adlRun_stop (done : progress.remaining ≤ 0 ∨ ranked = []) :
    AdlRun trader marketId isLong before before ranked progress progress [] where
  closes := (append_nil _).symm
  read := by
    rcases done with done | rfl
    · cases ranked with
      | nil => rfl
      | cons candidate rest => simp [liveSizes, adlReads, done]
    · rfl
  own := .inl ⟨rfl, rfl⟩
  taken _ member := by cases member
  others _ _ _ _ := rfl
  next _ := by simp

theorem Reduced.trans {first second third : Option Position} {q more : Int}
    (left : Reduced first second q) (right : Reduced second third more) :
    Reduced first third (q + more) := by
  obtain ⟨pos, rfl, most, closing⟩ := left
  obtain ⟨held, found, most', closing'⟩ := right
  rcases closing with ⟨gone, -⟩ | ⟨left, isLeft, side, size, part⟩
  · rw [gone] at found
    cases found
  · rw [isLeft, Option.some.injEq] at found
    subst found
    refine ⟨pos, rfl, by omega, ?_⟩
    rcases closing' with ⟨gone, all⟩ | ⟨last, isLast, lastSide, lastSize, lastPart⟩
    · exact .inl ⟨gone, by omega⟩
    · exact .inr ⟨last, isLast, lastSide.trans side, by omega, by omega⟩

theorem Reduced.side {first second : Option Position} {q : Int} (reduced : Reduced first second q)
    (own : ∀ pos, first = some pos → pos.isLong = isLong) :
    ∀ pos, second = some pos → pos.isLong = isLong := by
  obtain ⟨held, rfl, -, closing⟩ := reduced
  intro pos found
  rcases closing with ⟨gone, -⟩ | ⟨left, isLeft, side, -, -⟩
  · rw [gone] at found
    cases found
  · rw [isLeft, Option.some.injEq] at found
    rw [← found, side]
    exact own held rfl

theorem AdlRun.ownSide {result : AdlProgress} {plan : List (Address × Int)}
    (run : AdlRun trader marketId isLong before after ranked progress result plan)
    (own : ∀ pos, before.getPosition trader marketId = some pos → pos.isLong = isLong) :
    ∀ pos, after.getPosition trader marketId = some pos → pos.isLong = isLong := by
  rcases run.own with ⟨-, same⟩ | reduced
  · rw [same]
    exact own
  · exact reduced.side own

@[simp]
theorem advance_read (usedUp : Bool) : (progress.advance usedUp).read = progress.read := by
  unfold AdlProgress.advance
  split <;> rfl

theorem advance_next {read : Nat} (isRead : progress.read = read + 1) (usedUp : Bool) :
    (progress.advance usedUp).next =
      if progress.next = read ∧ usedUp then progress.next + 1 else progress.next := by
  unfold AdlProgress.advance
  rw [isRead]
  by_cases reached : progress.next = read
  · cases usedUp <;> simp [reached]
  · simp [reached]

theorem next_cons {candidate : AdlCandidate} {next read reads : Nat} {usedUp : Bool}
    {dead : AdlCandidate → Bool} (ordered : next ≤ read) (later : read + 1 ≤ reads)
    (isDead : dead candidate = usedUp) :
    let advanced := if next = read ∧ usedUp then next + 1 else next
    (if advanced = read + 1 then
        advanced + ((ranked.take (reads - (read + 1))).takeWhile dead).length
      else advanced) =
      if next = read then
        next + (((candidate :: ranked).take (reads - read)).takeWhile dead).length
      else next := by
  have count : reads - read = reads - (read + 1) + 1 := by omega
  rw [count, take_succ_cons, takeWhile_cons, isDead]
  by_cases reached : next = read
  · subst reached
    cases usedUp with
    | true =>
      simp only [and_self, if_true, length_cons]
      omega
    | false => simp
  · have behind : ¬ next = read + 1 := by omega
    simp [reached, behind]

theorem adlPlan_listed {pm : PositionManager} {remaining : Int} {third : Address}
    (member : third ∈ (adlPlan remaining (liveSizes pm marketId isLong ranked)).map Prod.fst) :
    third ∈ ranked.map AdlCandidate.trader ∧ 0 < liveSize pm marketId isLong third := by
  obtain ⟨close, inPlan, rfl⟩ := mem_map.mp member
  obtain ⟨positive, size, listed, most⟩ := adlPlan_mem inPlan
  obtain ⟨candidate, inRanked, same⟩ := mem_map.mp listed
  rw [Prod.mk.injEq] at same
  rw [← same.1]
  exact ⟨mem_map_of_mem inRanked, by omega⟩

section Cons

variable {candidate : AdlCandidate} {result : AdlProgress} {plan : List (Address × Int)}

theorem AdlRun.skip
    (run : AdlRun trader marketId isLong before after ranked
      ({ progress with read := progress.read + 1 }.advance true) result plan)
    (more : 0 < progress.remaining)
    (dead : liveSize before marketId isLong candidate.trader = 0)
    (still : liveSize after marketId isLong candidate.trader = 0) :
    AdlRun trader marketId isLong before after (candidate :: ranked) progress result plan where
  closes := by
    rw [run.closes, advance_closes]
  read := by
    have read := run.read
    rw [advance_read, advance_remaining] at read
    have unchanged : progress.remaining - min progress.remaining (max 0 0) = progress.remaining := by
      omega
    simp only [liveSizes, map_cons, dead, adlReads, if_neg (Int.not_le.mpr more), unchanged]
    rw [read]
    simp only [liveSizes]
    omega
  own := run.own
  taken := run.taken
  others := run.others
  next ordered := by
    have later : progress.read + 1 ≤ result.read := by
      rw [run.read, advance_read]
      exact Nat.le_add_right _ _
    have behind : ({ progress with read := progress.read + 1 }.advance true).next ≤
        ({ progress with read := progress.read + 1 }.advance true).read := by
      rw [advance_next rfl, advance_read]
      dsimp only
      split <;> omega
    rw [run.next behind, advance_next rfl, advance_read]
    exact next_cons ordered later (by simpa using still)

theorem liveSize_reduced {middle : PositionManager} {third : Address} {q : Int}
    (live : 0 < liveSize before marketId isLong third)
    (reduced : Reduced (before.getPosition third marketId) (middle.getPosition third marketId) q) :
    liveSize middle marketId isLong third = liveSize before marketId isLong third - q := by
  obtain ⟨held, isHeld, opposite, size⟩ := liveSize_pos live
  obtain ⟨pos, found, -, closing⟩ := reduced
  rw [isHeld, Option.some.injEq] at found
  subst found
  rw [← size]
  unfold liveSize
  rcases closing with ⟨gone, all⟩ | ⟨left, isLeft, side, leftSize, part⟩
  · rw [gone]
    dsimp only
    omega
  · rw [isLeft]
    dsimp only
    rw [if_pos ⟨side ▸ opposite, by omega⟩, leftSize]

theorem AdlRun.take {middle : PositionManager} {q : Int}
    (run : AdlRun trader marketId isLong middle after ranked
      ({ progress with
        read := progress.read + 1
        closes := progress.closes ++ [(candidate.trader, q)]
        remaining := progress.remaining - q }.advance
          (q = liveSize before marketId isLong candidate.trader)) result plan)
    (more : 0 < progress.remaining) (apart : candidate.trader ≠ trader)
    (live : 0 < liveSize before marketId isLong candidate.trader)
    (part : q = min progress.remaining (liveSize before marketId isLong candidate.trader))
    (source : Reduced (before.getPosition trader marketId) (middle.getPosition trader marketId) q)
    (target : Reduced (before.getPosition candidate.trader marketId)
      (middle.getPosition candidate.trader marketId) q)
    (kept : ∀ third market, (third, market) ≠ (trader, marketId) →
      (third, market) ≠ (candidate.trader, marketId) →
        middle.getPosition third market = before.getPosition third market)
    (sizes : liveSizes middle marketId isLong ranked = liveSizes before marketId isLong ranked)
    (notOwn : trader ∉ plan.map Prod.fst) (unlisted : candidate.trader ∉ plan.map Prod.fst) :
    AdlRun trader marketId isLong before after (candidate :: ranked) progress result
      ((candidate.trader, q) :: plan) where
  closes := by
    rw [run.closes, advance_closes]
    simp
  read := by
    have read := run.read
    rw [advance_read, advance_remaining, sizes] at read
    have sized : max (liveSize before marketId isLong candidate.trader) 0 =
        liveSize before marketId isLong candidate.trader := max_eq_left live.le
    simp only [liveSizes, map_cons, adlReads, if_neg (Int.not_le.mpr more), sized, ← part]
    rw [read]
    simp only [liveSizes]
    omega
  own := by
    have total : closed ((candidate.trader, q) :: plan) = q + closed plan := by simp [closed]
    right
    rw [total]
    rcases run.own with ⟨rfl, same⟩ | reduced
    · rw [same]
      simpa [closed] using source
    · exact source.trans reduced
  taken close member := by
    rcases mem_cons.mp member with rfl | member
    · dsimp only
      rw [run.others _ _ (by simp [apart]) fun _ => unlisted]
      exact target
    · have listed : close.1 ∈ plan.map Prod.fst := mem_map_of_mem member
      have notTrader : close.1 ≠ trader := fun same => notOwn (same ▸ listed)
      have notFirst : close.1 ≠ candidate.trader := fun same => unlisted (same ▸ listed)
      rw [← kept close.1 marketId (by simp [notTrader]) (by simp [notFirst])]
      exact run.taken close member
  others third market notTrader notListed := by
    rw [run.others third market notTrader fun here => ?_, kept third market notTrader ?_]
    · rintro ⟨⟩
      exact notListed rfl (by simp)
    · have absent := notListed here
      rw [map_cons, mem_cons, not_or] at absent
      exact absent.2
  next ordered := by
    have later : progress.read + 1 ≤ result.read := by
      rw [run.read, advance_read]
      exact Nat.le_add_right _ _
    have left : liveSize after marketId isLong candidate.trader =
        liveSize before marketId isLong candidate.trader - q := by
      rw [← liveSize_reduced live target]
      apply liveSize_congr
      exact run.others _ _ (by simp [apart]) fun _ => unlisted
    rw [run.next, advance_next rfl, advance_read]
    · apply next_cons ordered later
      rw [left]
      apply decide_eq_decide.mpr
      omega
    · rw [advance_next rfl, advance_read]
      dsimp only
      split <;> omega

end Cons

theorem holds_after {middle : PositionManager} {pos : Position} {q : Int}
    {closes : List (Address × Int)} {next read : Nat} {usedUp : Bool}
    (source : Reduced (before.getPosition trader marketId) (middle.getPosition trader marketId) q)
    (found : before.getPosition trader marketId = some pos) (most : progress.remaining ≤ pos.size) :
    let advanced :=
      AdlProgress.advance { closes, next, read, remaining := progress.remaining - q } usedUp
    advanced.remaining ≤ 0 ∨
      ∃ left, middle.getPosition trader marketId = some left ∧ advanced.remaining ≤ left.size := by
  obtain ⟨held, isHeld, -, closing⟩ := source
  rw [found, Option.some.injEq] at isHeld
  subst isHeld
  simp only [advance_remaining]
  rcases closing with ⟨-, all⟩ | ⟨left, isLeft, -, size, -⟩
  · left
    omega
  · exact .inr ⟨left, isLeft, by omega⟩

/-- The closing loop ends and closes what the plan over the live sizes says. -/
theorem adlCloseEach_run (ranked : List AdlCandidate) (before : PositionManager)
    (progress : AdlProgress) (distinct : (ranked.map AdlCandidate.trader).Nodup)
    (own : ∀ pos, before.getPosition trader marketId = some pos → pos.isLong = isLong)
    (holds : progress.remaining ≤ 0 ∨ ∃ pos, before.getPosition trader marketId = some pos ∧
      progress.remaining ≤ pos.size) :
    ∃ result after, adlCloseEach trader marketId isLong price ranked progress before =
        .ok result after ∧
      AdlRun trader marketId isLong before after ranked progress result
        (adlPlan progress.remaining (liveSizes before marketId isLong ranked)) := by
  induction ranked generalizing before progress with
  | nil => exact ⟨progress, before, rfl, adlRun_stop (.inr rfl)⟩
  | cons candidate rest ih =>
    rw [map_cons, nodup_cons] at distinct
    rw [adlCloseEach]
    by_cases done : progress.remaining ≤ 0
    · rw [if_pos done, adlPlan_done done]
      exact ⟨progress, before, rfl, adlRun_stop (.inl done)⟩
    have more : 0 < progress.remaining := Int.not_le.mp done
    rw [if_neg done]
    obtain ⟨pos, found, most⟩ := holds.resolve_left done
    by_cases dead : candidate.trader = trader ∨
        liveSize before marketId isLong candidate.trader ≤ 0
    · have nothing : liveSize before marketId isLong candidate.trader = 0 := by
        rcases dead with same | nothing
        · rw [same]
          exact liveSize_own own
        · exact le_antisymm nothing liveSize_nonneg
      obtain ⟨result, after, ran, run⟩ := ih before
        ({ progress with read := progress.read + 1 }.advance true) distinct.2 own
        (.inr ⟨pos, found, by simpa using most⟩)
      rw [advance_remaining] at run
      refine ⟨result, after, (bind_eq (adlCandidate_dead dead)).trans ran, ?_⟩
      have plan : adlPlan progress.remaining
          (liveSizes before marketId isLong (candidate :: rest)) =
            adlPlan progress.remaining (liveSizes before marketId isLong rest) := by
        simp only [liveSizes, map_cons, adlPlan, if_neg done, if_pos nothing.le]
      rw [plan]
      apply run.skip more nothing
      by_cases same : candidate.trader = trader
      · rw [same]
        exact liveSize_own (run.ownSide own)
      · rw [← nothing]
        apply liveSize_congr
        apply run.others _ _ (by simp [same])
        intro _ listed
        exact distinct.1 (adlPlan_listed listed).1
    · rw [not_or, Int.not_le] at dead
      obtain ⟨apart, live⟩ := dead
      obtain ⟨middle, moved, stepped⟩ := @adlCandidate_live trader marketId isLong price before pos
        candidate progress apart live found
      obtain ⟨held, isHeld, opposite, size⟩ := liveSize_pos live
      generalize isPart : min progress.remaining
        (liveSize before marketId isLong candidate.trader) = q at moved stepped
      have side : held.isLong ≠ pos.isLong := by
        rw [own pos found]
        exact opposite
      obtain ⟨source, target, kept⟩ := getPosition_transfer_part apart found isHeld side
        (by omega) (by omega) moved
      have stillOwn := source.side own
      have sizes : liveSizes middle marketId isLong rest =
          liveSizes before marketId isLong rest := by
        apply map_congr_left
        intro third member
        have notFirst : third.trader ≠ candidate.trader := fun same =>
          distinct.1 (same ▸ mem_map_of_mem member)
        by_cases same : third.trader = trader
        · rw [same, liveSize_own own, liveSize_own stillOwn]
        · rw [liveSize_congr (kept third.trader marketId (by simp [same]) (by simp [notFirst]))]
      obtain ⟨result, after, ran, run⟩ := ih middle _ distinct.2 stillOwn (holds_after source found most)
      refine ⟨result, after, (bind_eq stepped).trans ran, ?_⟩
      have plan : adlPlan progress.remaining
          (liveSizes before marketId isLong (candidate :: rest)) =
            (candidate.trader, q) ::
              adlPlan (progress.remaining - q) (liveSizes before marketId isLong rest) := by
        simp only [liveSizes, map_cons, adlPlan, if_neg done, if_neg (Int.not_le.mpr live),
          isPart]
      rw [advance_remaining, sizes] at run
      rw [plan]
      apply run.take more apart live isPart.symm source target kept sizes
      · intro listed
        have positive := (adlPlan_listed listed).2
        rw [liveSize_own own] at positive
        omega
      · intro listed
        exact distinct.1 (adlPlan_listed listed).1

end Run

/-- What a close of an account that holds a position does. -/
structure AdlClosed (before after : PositionManager) (trader : Address) (marketId : MarketId)
    (qty : Int) (pos : Position) (ranked : List AdlCandidate) (result : AdlProgress) : Prop where
  amount : closed result.closes =
    max 0 (min qty (min pos.size (closed (liveSizes before marketId pos.isLong ranked))))
  /-- The counterparties are the first of those that hold something, in the order of the list. -/
  order : result.closes.map Prod.fst =
    (((liveSizes before marketId pos.isLong ranked).filter fun live => 0 < live.2).map Prod.fst).take
      result.closes.length
  full : ∀ close ∈ result.closes.dropLast, close ∈ liveSizes before marketId pos.isLong ranked
  own : (result.closes = [] ∧
      after.getPosition trader marketId = before.getPosition trader marketId) ∨
    Reduced (before.getPosition trader marketId) (after.getPosition trader marketId)
      (closed result.closes)
  taken : ∀ close ∈ result.closes,
    Reduced (before.getPosition close.1 marketId) (after.getPosition close.1 marketId) close.2
  others : ∀ third market, (third, market) ≠ (trader, marketId) →
    (market = marketId → third ∉ result.closes.map Prod.fst) →
      after.getPosition third market = before.getPosition third market
  /-- It reads candidates until what they hold reaches the amount to close. -/
  read : (∀ count < result.read,
      closed ((liveSizes before marketId pos.isLong ranked).take count) < min pos.size qty) ∧
    (result.read = ranked.length ∨
      min pos.size qty ≤
        closed ((liveSizes before marketId pos.isLong ranked).take result.read))
  /-- The leading candidates that hold nothing any more, of those that were read. -/
  next : result.next = ((ranked.take result.read).takeWhile fun candidate =>
    liveSize after marketId pos.isLong candidate.trader = 0).length

theorem liveSizes_nonneg {pm : PositionManager} {marketId : MarketId} {isLong : Bool}
    {ranked : List AdlCandidate} : ∀ live ∈ liveSizes pm marketId isLong ranked, 0 ≤ live.2 := by
  intro live member
  obtain ⟨candidate, -, rfl⟩ := mem_map.mp member
  exact liveSize_nonneg

theorem adlClose_closed {trader : Address} {marketId : MarketId} {price qty : Int}
    {before : PositionManager} {pos : Position} {ranked : List AdlCandidate}
    (distinct : (ranked.map AdlCandidate.trader).Nodup)
    (found : before.getPosition trader marketId = some pos) :
    ∃ result after, adlClose trader marketId price qty ranked before = .ok result after ∧
      AdlClosed before after trader marketId qty pos ranked result := by
  have own : ∀ held, before.getPosition trader marketId = some held → held.isLong = pos.isLong := by
    intro held isHeld
    rw [found, Option.some.injEq] at isHeld
    rw [isHeld]
  obtain ⟨result, after, ran, run⟩ := @adlCloseEach_run trader marketId pos.isLong price ranked before
    { remaining := min pos.size qty } distinct own (.inr ⟨pos, found, min_le_left _ _⟩)
  refine ⟨result, after, ?_, ?_⟩
  · unfold adlClose
    rw [get_bind, found]
    exact ran
  have closes : result.closes =
      adlPlan (min pos.size qty) (liveSizes before marketId pos.isLong ranked) := run.closes
  have read := run.read
  dsimp only at read
  rw [Nat.zero_add] at read
  have least := @adlReads_least (min pos.size qty)
    ((liveSizes before marketId pos.isLong ranked).map Prod.snd) (by
      intro size member
      obtain ⟨live, listed, rfl⟩ := mem_map.mp member
      exact liveSizes_nonneg live listed)
  rw [← read] at least
  simp only [← map_take] at least
  rw [length_map] at least
  refine ⟨?_, ?_, ?_, ?_, ?_, ?_, ?_, ?_⟩
  · rw [closes, adlPlan_closed liveSizes_nonneg]
    omega
  · rw [closes]
    exact adlPlan_order
  · intro close member
    rw [closes] at member
    exact adlPlan_full member
  · rw [closes]
    exact run.own
  · rw [closes]
    exact run.taken
  · rw [closes]
    exact run.others
  · have length : (liveSizes before marketId pos.isLong ranked).length = ranked.length :=
      length_map _
    rw [length] at least
    exact least
  · have next := run.next le_rfl
    simpa using next

/-- Ranking sorts by the exact rank of the values clamped at zero, and no product of it wraps.  A
close takes the lesser of what is asked for, what the account holds and what the listed traders hold
against it, in order. -/
theorem adlRank_adlClose_spec (mark : Int) (cands : List AdlCandidate) (marked : mark ≤ maxRaw)
    (range : ∀ candidate ∈ cands, candidate.InRange)
    (distinct : (cands.map AdlCandidate.trader).Nodup)
    (trader : Address) (marketId : MarketId) (price qty : Int) (pm : PositionManager)
    (ranked : List AdlCandidate) (distinctRanked : (ranked.map AdlCandidate.trader).Nodup) :
    ((adlRank mark cands).Perm cands ∧
      ((adlRank mark cands).Pairwise fun a b => a.rankKey mark < b.rankKey mark) ∧
      ∀ a ∈ cands, ∀ b ∈ cands,
        (adlCompare (a.rankParts mark, a) (b.rankParts mark, b) = .lt ↔
          a.rankKey mark < b.rankKey mark) ∧
        (adlCompare (a.rankParts mark, a) (b.rankParts mark, b) = .gt ↔
          b.rankKey mark < a.rankKey mark) ∧
        (a.rankParts mark).1.toNat = (a.exactParts mark).1 ∧
        (a.rankParts mark).2.toNat = (a.exactParts mark).2 ∧
        (b.exactParts mark).1 * (a.exactParts mark).2 < 2 ^ 1024) ∧
    ∃ result after, adlClose trader marketId price qty ranked pm = .ok result after ∧
      match pm.getPosition trader marketId with
      | none => result = { remaining := 0 } ∧ after = pm
      | some pos => AdlClosed pm after trader marketId qty pos ranked result := by
  refine ⟨?_, ?_⟩
  · obtain ⟨perm, sorted⟩ := adlRank_sorted marked range distinct
    refine ⟨perm, sorted, ?_⟩
    intro a aIn b bIn
    obtain ⟨aNum, -, aDen, aDenBound⟩ := rankParts_exact marked (range a aIn)
    obtain ⟨-, bNumBound, -, -⟩ := rankParts_exact marked (range b bIn)
    refine ⟨adlCompare_lt marked (range a aIn) (range b bIn),
      adlCompare_gt marked (range a aIn) (range b bIn), aNum, aDen, ?_⟩
    exact cross_bound bNumBound aDenBound (by decide)
  · cases found : pm.getPosition trader marketId with
    | none =>
      refine ⟨{ remaining := 0 }, pm, ?_, rfl, rfl⟩
      unfold adlClose
      rw [get_bind, found]
      rfl
    | some pos => exact adlClose_closed distinctRanked found

def goneCandidate (trader : Address) : AdlCandidate where
  trader := trader
  isLong := false
  size := 0
  entryPrice := 0
  accountValue := 0

theorem adlRank_adlClose_spec_split :
    ((adlRank 60000000 (splitRanked true)).Perm (splitRanked true)) ∧
    ∃ result after,
      adlClose 1 7 50000000 2 (splitRanked true ++ [goneCandidate 4]) (splitLedger true) =
        .ok result after ∧
      AdlClosed (splitLedger true) after 1 7 2 (heldUnits 1 true 2 1)
        (splitRanked true ++ [goneCandidate 4]) result := by
  have range : ∀ candidate ∈ splitRanked true, candidate.InRange := by
    intro candidate member
    simp only [splitRanked, mem_cons, not_mem_nil, or_false] at member
    rcases member with rfl | rfl <;> exact ⟨by decide, by decide, by decide⟩
  have spec := adlRank_adlClose_spec 60000000 (splitRanked true) (by decide) range (by decide) 1 7
    50000000 2 (splitLedger true) (splitRanked true ++ [goneCandidate 4]) (by decide)
  exact ⟨spec.1.1, spec.2⟩

def unitLong (trader : Address) (entryPrice : Int) : AdlCandidate where
  trader := trader
  isLong := true
  size := 1
  entryPrice := entryPrice
  accountValue := 1

/-- A candidate after the last that is needed is not counted, though it holds nothing; a negative
quantity closes nothing; and at a negative mark the higher rank may come second. -/
theorem adlClose_stops_adlRank_clamps :
    (∃ result after,
      adlClose 1 7 50000000 2 (splitRanked true ++ [goneCandidate 4]) (splitLedger true) =
        .ok result after ∧
      result.next = 2 ∧
      ((splitRanked true ++ [goneCandidate 4]).takeWhile fun candidate =>
        liveSize after 7 true candidate.trader = 0).length = 3) ∧
    (∃ result after,
      adlClose 1 7 50000000 (-1) (splitRanked true) (splitLedger true) = .ok result after ∧
      closed result.closes ≠ min (-1) (min 2 (closed (liveSizes (splitLedger true) 7 true
        (splitRanked true))))) ∧
    adlCompare ((unitLong 1 2).rankParts (-1), unitLong 1 2)
      ((unitLong 2 1).rankParts (-1), unitLong 2 1) = .lt ∧
    ((-1 : ℚ) / 2) * (1 * (-1) / 1) < ((-1 : ℚ) / 1) * (1 * (-1) / 1) := by
  refine ⟨⟨_, _, rfl, rfl, rfl⟩, ⟨_, _, rfl, by decide⟩, ?_, by norm_num⟩
  have first : (unitLong 1 2).exactRank (-1) = 0 := by simp [AdlCandidate.exactRank, unitLong]
  have second : (unitLong 2 1).exactRank (-1) = 0 := by simp [AdlCandidate.exactRank, unitLong]
  rw [adlCompare_eq (by decide) ⟨by decide, by decide, by decide⟩ ⟨by decide, by decide, by decide⟩,
    first, second, compare_eq_iff_eq.mpr rfl]
  rfl

end TorusHyperBft.Account
