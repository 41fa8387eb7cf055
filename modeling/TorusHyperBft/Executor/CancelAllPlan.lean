import TorusHyperBft.Executor.CancelAllTurn

namespace TorusHyperBft.Executor

open FixedPoint OrderBook List
open Account (NativeBalance)
open CancelContext

/-! The plan of a run: which action visits which markets.

Each trader visits a market at most once, since the visit takes the market out of the index.  So
what a visit frees is what the trader had when the run began, in whatever order the visits are made. -/

variable {hash : StreamingHash} {market : MarketId} {sender : Address}

abbrev CancelPlan := List (Address × List MarketId)

def planOf : TraderMarkets → List CancelAllAction → TraderMarkets × CancelPlan
  | index, [] => (index, [])
  | index, action :: run =>
    let (index, markets) := index.visit action
    let (index, plan) := planOf index run
    (index, (action.1, markets) :: plan)

def sendersAt (plan : CancelPlan) (market : MarketId) : List Address :=
  (plan.filter fun visit => decide (market ∈ visit.2)).map Prod.fst

def placesFrom (place : Nat) (plan : CancelPlan) (market : MarketId) : List Nat :=
  ((plan.zipIdx place).filter fun visit => decide (market ∈ visit.1.2)).map Prod.snd

section Plan

variable {index : TraderMarkets} {run : List CancelAllAction} {plan : CancelPlan}

theorem planOf_senders : (planOf index run).2.map Prod.fst = run.map Prod.fst := by
  induction run generalizing index with
  | nil => rfl
  | cons action run ih => exact congrArg (action.1 :: ·) ih

theorem planOf_nodup : ∀ visit ∈ (planOf index run).2, visit.2.Nodup := by
  induction run generalizing index with
  | nil => exact fun _ member => absurd member not_mem_nil
  | cons action run ih =>
    intro visit member
    rcases mem_cons.mp member with rfl | later
    · exact index.visit_nodup action
    · exact ih visit later

theorem planOf_once : (sendersAt (planOf index run).2 market).Nodup ∧
    (∀ trader ∈ sendersAt (planOf index run).2 market, market ∈ index.markets trader) ∧
    ∀ trader, market ∈ (planOf index run).1.markets trader ↔
      market ∈ index.markets trader ∧ trader ∉ sendersAt (planOf index run).2 market := by
  induction run generalizing index with
  | nil => simp [planOf, sendersAt]
  | cons action run ih =>
    obtain ⟨nodup, listed, left⟩ := @ih (index.visit action).1
    have senders : sendersAt (planOf index (action :: run)).2 market =
        (if market ∈ (index.visit action).2 then [action.1] else []) ++
          sendersAt (planOf (index.visit action).1 run).2 market := by
      change sendersAt ((action.1, (index.visit action).2) ::
        (planOf (index.visit action).1 run).2) market = _
      unfold sendersAt
      by_cases visited : market ∈ (index.visit action).2 <;> simp [visited]
    have final : (planOf index (action :: run)).1 = (planOf (index.visit action).1 run).1 := rfl
    rw [senders, final]
    refine ⟨?_, fun trader member => ?_, fun trader => ?_⟩
    · by_cases visited : market ∈ (index.visit action).2
      · rw [if_pos visited, singleton_append, nodup_cons]
        refine ⟨fun again => ?_, nodup⟩
        exact (TraderMarkets.mem_visit_markets.mp (listed _ again)).2 ⟨rfl, visited⟩
      · rw [if_neg visited]
        exact nodup
    · rcases mem_append.mp member with now | later
      · split at now
        · rename_i visited
          rw [mem_singleton.mp now]
          exact (TraderMarkets.mem_visit.mp visited).1
        · contradiction
      · exact (TraderMarkets.mem_visit_markets.mp (listed _ later)).1
    · rw [left, TraderMarkets.mem_visit_markets, mem_append]
      by_cases visited : market ∈ (index.visit action).2
      · rw [if_pos visited, mem_singleton]
        tauto
      · rw [if_neg visited]
        simp [visited]

theorem takeVisits_eq (place : Nat) : takeVisits index place run =
    ((planOf index run).1, ((planOf index run).2.zipIdx place).flatMap fun visit =>
      visit.1.2.map fun market => (market, visit.2)) := by
  induction run generalizing index place with
  | nil => rfl
  | cons action run ih =>
    have rest := @ih (index.visit action).1 (place + 1)
    change ((takeVisits (index.visit action).1 (place + 1) run).1,
      (index.visit action).2.map (fun market => (market, place)) ++
        (takeVisits (index.visit action).1 (place + 1) run).2) = _
    rw [rest]
    rfl

theorem filter_visit {markets : List MarketId} (nodup : markets.Nodup) (place : Nat) :
    (markets.map fun other => (other, place)).filter (fun visit => decide (visit.1 = market)) =
      if market ∈ markets then [(market, place)] else [] := by
  rw [filter_map]
  have same : ((fun visit : MarketId × Nat => decide (visit.1 = market)) ∘
      fun other => (other, place)) = fun other => decide (other = market) := rfl
  rw [same]
  by_cases member : market ∈ markets
  · rw [if_pos member, filter_eq, count_eq_one_of_mem nodup member]
    rfl
  · rw [if_neg member, map_eq_nil_iff, filter_eq_nil_iff]
    rintro other inMarkets equal
    exact member (of_decide_eq_true equal ▸ inMarkets)

theorem visits_at (nodup : ∀ visit ∈ plan, visit.2.Nodup) (place : Nat) :
    (((plan.zipIdx place).flatMap fun visit => visit.1.2.map fun market => (market, visit.2)).filter
      fun visit => decide (visit.1 = market)) =
        (placesFrom place plan market).map fun place => (market, place) := by
  induction plan generalizing place with
  | nil => rfl
  | cons visit plan ih =>
    have rest := ih (fun other member => nodup other (mem_cons_of_mem _ member)) (place + 1)
    rw [zipIdx_cons, flatMap_cons, filter_append, rest,
      filter_visit (nodup visit mem_cons_self)]
    unfold placesFrom
    rw [zipIdx_cons]
    by_cases visited : market ∈ visit.2 <;> simp [visited]

theorem mem_placesFrom {place : Nat} : place ∈ placesFrom 0 plan market ↔
    ∃ visit, plan[place]? = some visit ∧ market ∈ visit.2 := by
  unfold placesFrom
  constructor
  · intro member
    obtain ⟨⟨visit, other⟩, inPlan, rfl⟩ := mem_map.mp member
    obtain ⟨placed, visits⟩ := mem_filter.mp inPlan
    exact ⟨visit, mem_zipIdx_iff_getElem?.mp placed, of_decide_eq_true visits⟩
  · rintro ⟨visit, placed, visits⟩
    refine mem_map.mpr ⟨(visit, place), mem_filter.mpr ⟨?_, decide_eq_true visits⟩, rfl⟩
    exact mem_zipIdx_iff_getElem?.mpr placed

theorem placesFrom_ascending (place : Nat) : (placesFrom place plan market).Pairwise (· < ·) := by
  have places : ((plan.zipIdx place).map Prod.snd).Pairwise (· < ·) := by
    rw [zipIdx_map_snd]
    exact List.pairwise_lt_range'
  exact places.sublist (filter_sublist.map Prod.snd)

theorem senderAt_planned (senders : plan.map Prod.fst = run.map Prod.fst) {place : Nat}
    {visit : Address × List MarketId} (placed : plan[place]? = some visit) :
    senderAt run place = visit.1 := by
  have both := congrArg (fun list => list[place]?) senders
  simp only [List.getElem?_map] at both
  rw [senderAt, ← both, placed]
  rfl

theorem placesFrom_senders (senders : plan.map Prod.fst = run.map Prod.fst) :
    (placesFrom 0 plan market).map (senderAt run) = sendersAt plan market := by
  have placed : ∀ visit ∈ plan.zipIdx 0, senderAt run visit.2 = visit.1.1 := by
    intro visit member
    exact senderAt_planned senders (mem_zipIdx_iff_getElem?.mp member)
  unfold placesFrom sendersAt
  rw [map_map]
  have inPlan : ∀ visits : List ((Address × List MarketId) × Nat),
      (∀ visit ∈ visits, senderAt run visit.2 = visit.1.1) →
      (visits.filter fun visit => decide (market ∈ visit.1.2)).map (senderAt run ∘ Prod.snd) =
        ((visits.map Prod.fst).filter fun visit => decide (market ∈ visit.2)).map Prod.fst := by
    intro visits agree
    rw [filter_map, map_map]
    refine map_congr_left fun visit member => ?_
    exact agree visit (mem_filter.mp member).1
  rw [inPlan _ placed, zipIdx_map_fst]

theorem groups_markets (visits : List (MarketId × Nat)) :
    ((groups visits).map Prod.fst).Sublist (visits.map Prod.fst) ∧
      ∀ visit ∈ visits, visit.1 ∈ (groups visits).map Prod.fst := by
  induction visits with
  | nil => exact ⟨.slnil, fun _ member => absurd member not_mem_nil⟩
  | cons visit visits ih =>
    obtain ⟨market, place⟩ := visit
    obtain ⟨sub, all⟩ := ih
    rw [groups]
    cases grouped : groups visits with
    | nil =>
      rw [grouped] at all sub
      refine ⟨List.Sublist.cons_cons _ sub, fun other member => ?_⟩
      rcases mem_cons.mp member with rfl | later
      · simp
      · exact absurd (all other later) not_mem_nil
    | cons group later =>
      obtain ⟨other, places⟩ := group
      rw [grouped] at all sub
      dsimp only
      split
      · rename_i same
        subst same
        refine ⟨sub.cons _, fun visit member => ?_⟩
        rcases mem_cons.mp member with rfl | inVisits
        · simp
        · simpa using all visit inVisits
      · refine ⟨List.Sublist.cons_cons _ sub, fun visit member => ?_⟩
        rcases mem_cons.mp member with rfl | inVisits
        · simp
        · exact mem_cons_of_mem _ (all visit inVisits)

/-- The groups are the markets in order, each with the places of its visits. -/
theorem groups_spec {visits : List (MarketId × Nat)}
    (sorted : visits.Pairwise fun left right => left.1 ≤ right.1) :
    ((groups visits).map Prod.fst).Pairwise (· < ·) ∧
      ∀ group ∈ groups visits, group.2 =
        (visits.filter fun visit => decide (visit.1 = group.1)).map Prod.snd := by
  induction visits with
  | nil => exact ⟨List.Pairwise.nil, fun _ member => absurd member not_mem_nil⟩
  | cons visit visits ih =>
    obtain ⟨market, place⟩ := visit
    obtain ⟨below, rest⟩ := pairwise_cons.mp sorted
    obtain ⟨ascending, places⟩ := ih rest
    obtain ⟨sub, all⟩ := groups_markets visits
    have skip : ∀ other, market ≠ other →
        (((market, place) :: visits).filter fun visit => decide (visit.1 = other)) =
          visits.filter fun visit => decide (visit.1 = other) :=
      fun other different => filter_cons_of_neg (by simpa using different)
    have keep : (((market, place) :: visits).filter fun visit => decide (visit.1 = market)) =
        (market, place) :: visits.filter fun visit => decide (visit.1 = market) :=
      filter_cons_of_pos (by simp)
    rw [groups]
    cases grouped : groups visits with
    | nil =>
      rw [grouped] at all
      have none : visits = [] :=
        eq_nil_iff_forall_not_mem.mpr fun visit member =>
          absurd (all visit member) not_mem_nil
      refine ⟨pairwise_singleton _ _, fun group member => ?_⟩
      rw [mem_singleton.mp member, keep, none]
      rfl
    | cons head later =>
      obtain ⟨other, others⟩ := head
      rw [grouped] at ascending places sub all
      rw [map_cons, pairwise_cons] at ascending
      have least : market ≤ other := by
        obtain ⟨visit, member, same⟩ := mem_map.mp (sub.subset mem_cons_self)
        have le := below visit member
        rwa [same] at le
      have beyond : ∀ group ∈ later, other < group.1 := fun group member =>
        ascending.1 group.1 (mem_map_of_mem member)
      dsimp only
      split
      · rename_i same
        subst same
        refine ⟨pairwise_cons.mpr ascending, fun group member => ?_⟩
        rcases mem_cons.mp member with rfl | inLater
        · rw [keep, map_cons]
          exact congrArg (place :: ·) (places (market, others) mem_cons_self)
        · rw [skip group.1 (Nat.ne_of_lt (beyond group inLater))]
          exact places group (mem_cons_of_mem _ inLater)
      · rename_i different
        have before : market < other := Nat.lt_of_le_of_ne least different
        have above : ∀ group ∈ (other, others) :: later, market < group.1 := by
          intro group member
          rcases mem_cons.mp member with rfl | inLater
          · exact before
          · exact Nat.lt_trans before (beyond group inLater)
        refine ⟨pairwise_cons.mpr ⟨fun other member => ?_,
          pairwise_cons.mpr ascending⟩, fun group member => ?_⟩
        · obtain ⟨group, inGroups, rfl⟩ := mem_map.mp member
          exact above group inGroups
        · rcases mem_cons.mp member with rfl | inGroups
          · have none : visits.filter (fun visit => decide (visit.1 = market)) = [] := by
              rw [filter_eq_nil_iff]
              intro visit inVisits equal
              obtain ⟨group, inGroups, same⟩ := mem_map.mp (all visit inVisits)
              have later := above group inGroups
              rw [same, of_decide_eq_true equal] at later
              exact Nat.lt_irrefl _ later
            rw [keep, none]
            rfl
          · rw [skip group.1 (Nat.ne_of_lt (above group inGroups))]
            exact places group inGroups

variable {left right : Nat × Nat}

theorem visitLe_iff : visitLe left right = true ↔
    left.1 < right.1 ∨ left.1 = right.1 ∧ left.2 ≤ right.2 := by
  simp [visitLe]

theorem visitLe_market (le : visitLe left right = true) : left.1 ≤ right.1 := by
  rw [visitLe_iff] at le
  omega

theorem visitLe_antisymm (le : visitLe left right = true)
    (ge : visitLe right left = true) : left = right := by
  rw [visitLe_iff] at le ge
  exact Prod.ext (by omega) (by omega)

theorem groups_planned (nodup : ∀ visit ∈ plan, visit.2.Nodup) {visits : List (MarketId × Nat)}
    (planned : visits = (plan.zipIdx 0).flatMap fun visit =>
      visit.1.2.map fun market => (market, visit.2)) :
    ((groups (visits.mergeSort visitLe)).map Prod.fst).Nodup ∧
      (∀ group ∈ groups (visits.mergeSort visitLe), group.2 = placesFrom 0 plan group.1) ∧
      ∀ market, market ∈ (groups (visits.mergeSort visitLe)).map Prod.fst ↔
        ∃ visit ∈ plan, market ∈ visit.2 := by
  have sorted := @pairwise_mergeSort _ visitLe
    (fun first second third left right => by
      rw [visitLe_iff] at left right ⊢
      omega)
    (fun left right => by
      rw [Bool.or_eq_true, visitLe_iff, visitLe_iff]
      omega) visits
  have perm := mergeSort_perm visits visitLe
  obtain ⟨ascending, places⟩ := groups_spec (sorted.imp visitLe_market)
  obtain ⟨sub, all⟩ := groups_markets (visits.mergeSort visitLe)
  refine ⟨ascending.imp Nat.ne_of_lt, fun group member => ?_, fun market => ?_⟩
  · have own : (visits.mergeSort visitLe).filter (fun visit => decide (visit.1 = group.1)) =
        (placesFrom 0 plan group.1).map fun place => (group.1, place) := by
      rw [← visits_at nodup 0, ← planned]
      refine List.Perm.eq_of_pairwise ?_ (sorted.filter _) ?_ (perm.filter _)
      · intro left right _ _ le ge
        exact visitLe_antisymm le ge
      · rw [planned, visits_at nodup 0, pairwise_map]
        refine (placesFrom_ascending 0).imp fun {left right} before => ?_
        rw [visitLe_iff]
        exact Or.inr ⟨rfl, Nat.le_of_lt before⟩
    rw [places group member, own, map_map]
    exact List.map_id _
  · have inVisits : market ∈ (groups (visits.mergeSort visitLe)).map Prod.fst ↔
        market ∈ visits.map Prod.fst := by
      constructor
      · intro member
        exact (perm.map Prod.fst).mem_iff.mp (sub.subset member)
      · intro member
        obtain ⟨visit, inVisits, rfl⟩ := mem_map.mp member
        exact all visit (perm.mem_iff.mpr inVisits)
    rw [inVisits, planned]
    constructor
    · intro member
      obtain ⟨_, inFlat, rfl⟩ := mem_map.mp member
      obtain ⟨visit, inPlan, inMarkets⟩ := mem_flatMap.mp inFlat
      obtain ⟨other, visits, rfl⟩ := mem_map.mp inMarkets
      exact ⟨visit.1, fst_mem_of_mem_zipIdx inPlan, visits⟩
    · rintro ⟨visit, inPlan, visits⟩
      obtain ⟨place, found⟩ := mem_iff_getElem?.mp inPlan
      refine mem_map.mpr ⟨(market, place), mem_flatMap.mpr
        ⟨(visit, place), mem_zipIdx_iff_getElem?.mpr found, ?_⟩, rfl⟩
      exact mem_map_of_mem visits

end Plan

end TorusHyperBft.Executor
