import TorusHyperBft.OrderBook.Covers
import TorusHyperBft.OrderBook.Ladder
import TorusHyperBft.OrderBook.Match

namespace TorusHyperBft.OrderBook

open List

/-! Matching as a sequence of turns, each of which deals with the front order of those the
taker still has ahead of it. -/

/-- The taker turns to this maker: it wants more, has margin left, and its limit allows it. -/
structure Ready (maker : Order) (matching : Matching) : Prop where
  wants : 0 < matching.taker.remainingQty
  live : matching.exhausted = false
  within : withinLimit maker.side maker.price matching.taker.price = true

/-- A fill of `quantity` against this maker, apart from its record. -/
structure Filling (env : MatchEnv) (maker : Order) (matching : Matching) (quantity : Int)
    (after : Matching) : Prop where
  other : maker.trader ≠ matching.taker.trader
  same : SameRecord matching after
  positive : 0 < quantity
  wanted : quantity ≤ matching.taker.remainingQty
  policed : ∃ fillable, makerFillable matching.positions maker = some fillable ∧
    quantity ≤ fillable ∧ (after.exhausted = true ∨ (after.exhausted = false ∧
      quantity = min matching.taker.remainingQty fillable))
  moved : ∃ loaded, env.Seeded matching.positions loaded ∧ ∀ trader,
    after.positions.get trader =
      ((loaded.applyFill matching.taker.trader matching.taker.isBuy quantity).applyFill
        maker.trader maker.isBuy quantity).get trader

/-- One maker's turn in the match. -/
inductive Turn (env : MatchEnv) : List Order × Matching → List Order × Matching → Prop where
  | selfTrade {maker : Order} {rest : List Order} {matching : Matching}
      (ready : Ready maker matching) (own : maker.trader = matching.taker.trader) :
      Turn env (maker :: rest, matching) (rest, matching.cancelSelfTrade maker)
  | cut {maker : Order} {rest : List Order} {matching : Matching}
      (ready : Ready maker matching) (other : maker.trader ≠ matching.taker.trader)
      (spent : makerFillable matching.positions maker = none) :
      Turn env (maker :: rest, matching) (rest, matching.cutMaker maker)
  | starved {maker : Order} {rest : List Order} {matching after : Matching}
      (ready : Ready maker matching) (other : maker.trader ≠ matching.taker.trader)
      (same : SameRecord matching after)
      (seeded : env.Seeded matching.positions after.positions)
      (exhausted : after.exhausted = true) :
      Turn env (maker :: rest, matching) (maker :: rest, after)
  | marginCancel {maker : Order} {rest : List Order} {matching after : Matching}
      (ready : Ready maker matching) (other : maker.trader ≠ matching.taker.trader)
      (same : SameRecord matching after)
      (seeded : env.Seeded matching.positions after.positions)
      (live : after.exhausted = false) :
      Turn env (maker :: rest, matching) (rest, after.marginCancelMaker maker)
  | fillWhole {maker : Order} {rest : List Order} {matching after : Matching}
      (ready : Ready maker matching)
      (filling : Filling env maker matching maker.remainingQty after) :
      Turn env (maker :: rest, matching)
        (rest, (after.recordFill maker maker.price maker.remainingQty).forget maker)
  | fillPart {maker : Order} {rest : List Order} {matching after : Matching} {quantity : Int}
      (ready : Ready maker matching) (filling : Filling env maker matching quantity after)
      (part : quantity < maker.remainingQty) :
      Turn env (maker :: rest, matching)
        (maker.filled quantity :: rest, after.recordFill maker maker.price quantity)

abbrev Turns (env : MatchEnv) := Relation.ReflTransGen (Turn env)

/-- Deal with the front order of those ahead of the taker, unless matching is over. -/
def serve (env : MatchEnv) : List Order × Matching → Option (List Order × Matching)
  | ([], _) => none
  | (maker :: rest, matching) =>
    if 0 < matching.taker.remainingQty ∧ matching.exhausted = false ∧
        withinLimit maker.side maker.price matching.taker.price = true then
      match visit env maker.price maker matching with
      | .selfTrade => some (rest, matching.cancelSelfTrade maker)
      | .cut => some (rest, matching.cutMaker maker)
      | .starved after => some (maker :: rest, after)
      | .marginCancel after => some (rest, after.marginCancelMaker maker)
      | .fill quantity after =>
        let recorded := after.recordFill maker maker.price quantity
        if maker.remainingQty - quantity = 0 then some (rest, recorded.forget maker)
        else some (maker.filled quantity :: rest, recorded)
    else none

abbrev Serves (env : MatchEnv) :=
  Relation.ReflTransGen fun before after => serve env before = some after

def Order.terms (order : Order) : Order := { order with remainingQty := 0 }

section Terms

variable {first second : Order} (same : first.terms = second.terms)
include same

theorem Order.terms_key : first.key = second.key := by
  have keys := congrArg Order.key same
  exact keys

theorem Order.terms_id : first.id = second.id := by injection same

theorem Order.terms_trader : first.trader = second.trader := by injection same

theorem Order.terms_side : first.side = second.side := by injection same

theorem Order.terms_price : first.price = second.price := by injection same

theorem Order.terms_reduceOnly : first.reduceOnly = second.reduceOnly := by injection same

end Terms

/-- Every order has something left. -/
def AllPositive (orders : List Order) : Prop := ∀ order ∈ orders, 0 < order.remainingQty

variable {maker : Order} {matching after : Matching}

theorem Filling.recordFill_taker {env : MatchEnv}
    {quantity : Int} (filling : Filling env maker matching quantity after) (price : Int) :
    (after.recordFill maker price quantity).taker =
      { matching.taker with remainingQty := matching.taker.remainingQty - quantity } := by
  rw [Matching.recordFill, filling.same.taker]

section Step

variable {env : MatchEnv} {before after : List Order × Matching}

theorem Turn.positive (turn : Turn env before after) (positive : AllPositive before.1) :
    AllPositive after.1 := by
  cases turn with
  | selfTrade | cut | marginCancel | fillWhole =>
    exact fun order member => positive order (mem_cons_of_mem _ member)
  | starved => exact positive
  | fillPart ready filling part =>
    intro order member
    rcases mem_cons.mp member with rfl | member
    · exact Int.sub_pos_of_lt part
    · exact positive order (mem_cons_of_mem _ member)

theorem Turn.terms (turn : Turn env before after) :
    after.1.map Order.terms <:+ before.1.map Order.terms := by
  cases turn with
  | selfTrade | cut | marginCancel | fillWhole => exact suffix_cons _ _
  | starved | fillPart => exact suffix_rfl

theorem Turn.taker (turn : Turn env before after) :
    ∃ remainingQty, after.2.taker = { before.2.taker with remainingQty } := by
  cases turn with
  | selfTrade | cut => exact ⟨_, rfl⟩
  | starved ready other same => exact ⟨_, same.taker⟩
  | marginCancel ready other same => exact ⟨_, same.taker⟩
  | @fillWhole maker _ _ _ ready filling => exact ⟨_, filling.recordFill_taker maker.price⟩
  | @fillPart maker _ _ _ _ ready filling part => exact ⟨_, filling.recordFill_taker maker.price⟩

end Step

section Run

variable {env : MatchEnv} {before after : List Order × Matching}

variable (turns : Turns env before after)
include turns

theorem Turns.positive (positive : AllPositive before.1) : AllPositive after.1 := by
  induction turns with
  | refl => exact positive
  | tail _ turn ih => exact turn.positive ih

theorem Turns.terms : after.1.map Order.terms <:+ before.1.map Order.terms := by
  induction turns with
  | refl => exact suffix_rfl
  | tail _ turn ih => exact turn.terms.trans ih

theorem Turns.keys : after.1.map Order.key <:+ before.1.map Order.key := by
  have terms := turns.terms.map Order.key
  rwa [map_map, map_map] at terms

theorem Turns.taker : ∃ remainingQty, after.2.taker = { before.2.taker with remainingQty } := by
  induction turns with
  | refl => exact ⟨_, rfl⟩
  | tail _ turn ih =>
    obtain ⟨first, firstTaker⟩ := ih
    obtain ⟨second, secondTaker⟩ := turn.taker
    exact ⟨second, by rw [secondTaker, firstTaker]⟩

end Run

section Keys

variable {queue left : Queue} {side : Side} {price : Int}

theorem placed_of_keys (keys : left.map Order.key <:+ queue.map Order.key)
    (placed : ∀ order ∈ queue, order.side = side ∧ order.price = price) :
    ∀ order ∈ left, order.side = side ∧ order.price = price := by
  intro order member
  obtain ⟨old, inQueue, same⟩ := mem_map.mp
    (keys.subset (mem_map_of_mem member))
  obtain ⟨sameSide, samePrice⟩ := placed old inQueue
  exact ⟨(congrArg Key.side same).symm.trans sameSide,
    (congrArg Key.price same).symm.trans samePrice⟩

end Keys

section Level

variable {env : MatchEnv} {side : Side} {price : Int} {matching : Matching}

theorem Visited.of_visit {outcome : Visit}
    (wants : 0 < matching.taker.remainingQty) (visited : visit env price maker matching = outcome) :
    Visited env maker matching outcome :=
  visited ▸ visit_visited wants

theorem Visited.filling {quantity : Int}
    (visited : Visited env maker matching (.fill quantity after))
    (positive : 0 < maker.remainingQty)
    (live : matching.exhausted = false) : Filling env maker matching quantity after := by
  cases visited with
  | fill other policed same seeded moved bounded whole =>
    have enough : 0 < quantity := by omega
    refine ⟨other, same, enough, by omega, ⟨_, policed, by omega, ?_⟩, ⟨_, seeded, moved⟩⟩
    rw [live] at whole
    exact whole

theorem Filling.le_remaining {quantity : Int}
    (filling : Filling env maker matching quantity after) : quantity ≤ maker.remainingQty := by
  obtain ⟨fillable, policed, bounded, _⟩ := filling.policed
  exact le_trans bounded (makerFillable_bounds policed).1

theorem serve_ready {rest : List Order} (ready : Ready maker matching) :
    serve env (maker :: rest, matching) =
      match visit env maker.price maker matching with
      | .selfTrade => some (rest, matching.cancelSelfTrade maker)
      | .cut => some (rest, matching.cutMaker maker)
      | .starved after => some (maker :: rest, after)
      | .marginCancel after => some (rest, after.marginCancelMaker maker)
      | .fill quantity after =>
        if maker.remainingQty - quantity = 0 then
          some (rest, (after.recordFill maker maker.price quantity).forget maker)
        else some (maker.filled quantity :: rest, after.recordFill maker maker.price quantity) := by
  rw [serve, if_pos ⟨ready.wants, ready.live, ready.within⟩]

theorem Ready.of_serve {rest : List Order}
    {next : List Order × Matching} (served : serve env (maker :: rest, matching) = some next) :
    Ready maker matching := by
  rw [serve] at served
  split at served
  · rename_i ready
    exact ⟨ready.1, ready.2.1, ready.2.2⟩
  · contradiction

theorem matchAtLevel_serves {queue : Queue} {matching : Matching}
    (placed : ∀ order ∈ queue, order.side = side ∧ order.price = price)
    (live : matching.exhausted = false)
    (within : withinLimit side price matching.taker.price = true) (rest : List Order) :
    Serves env (queue ++ rest, matching)
      ((matchAtLevel env price queue matching).1 ++ rest,
        (matchAtLevel env price queue matching).2) := by
  fun_induction matchAtLevel env price queue matching with
  | case1 matching => exact .refl
  | case2 maker queue matching wants visited ih =>
    obtain ⟨rfl, rfl⟩ := placed maker mem_cons_self
    refine .head ?_ (ih (fun order member => placed order (mem_cons_of_mem _ member)) live
      within)
    rw [cons_append, serve_ready ⟨wants, live, within⟩, visited]
  | case3 maker queue matching wants visited ih =>
    obtain ⟨rfl, rfl⟩ := placed maker mem_cons_self
    refine .head ?_ (ih (fun order member => placed order (mem_cons_of_mem _ member)) live
      within)
    rw [cons_append, serve_ready ⟨wants, live, within⟩, visited]
  | case4 maker queue matching wants after visited =>
    obtain ⟨rfl, rfl⟩ := placed maker mem_cons_self
    apply Relation.ReflTransGen.single
    rw [cons_append, serve_ready ⟨wants, live, within⟩, visited]
  | case5 maker queue matching wants after visited ih =>
    obtain ⟨rfl, rfl⟩ := placed maker mem_cons_self
    have served : serve env (maker :: (queue ++ rest), matching) =
        some (queue ++ rest, after.marginCancelMaker maker) := by
      rw [serve_ready ⟨wants, live, within⟩, visited]
    cases Visited.of_visit wants visited with
    | marginCancel other same seeded exhausted =>
      exact .head served
        (ih (fun order member => placed order (mem_cons_of_mem _ member))
          (exhausted.trans live) (by rw [← same.taker] at within; exact within))
  | case6 maker queue matching wants quantity after visited recorded done popped exhausted =>
    obtain ⟨rfl, rfl⟩ := placed maker mem_cons_self
    apply Relation.ReflTransGen.single
    rw [cons_append, serve_ready ⟨wants, live, within⟩, visited]
    exact if_pos done
  | case7 maker queue matching wants quantity after visited recorded done popped goesOn ih =>
    obtain ⟨rfl, rfl⟩ := placed maker mem_cons_self
    have served : serve env (maker :: (queue ++ rest), matching) = some (queue ++ rest, popped) := by
      rw [serve_ready ⟨wants, live, within⟩, visited]
      exact if_pos done
    cases Visited.of_visit wants visited with
    | fill other policed same seeded moved bounded whole =>
      exact .head served
        (ih (fun order member => placed order (mem_cons_of_mem _ member))
          (Bool.not_eq_true _ ▸ goesOn) (by rw [← same.taker] at within; exact within))
  | case8 maker queue matching wants quantity after visited recorded kept exhausted =>
    obtain ⟨rfl, rfl⟩ := placed maker mem_cons_self
    apply Relation.ReflTransGen.single
    rw [cons_append, serve_ready ⟨wants, live, within⟩, visited]
    exact if_neg kept
  | case9 maker queue matching wants quantity after visited recorded kept goesOn ih =>
    obtain ⟨rfl, rfl⟩ := placed maker mem_cons_self
    have served : serve env (maker :: (queue ++ rest), matching) =
        some (maker.filled quantity :: (queue ++ rest), recorded) := by
      rw [serve_ready ⟨wants, live, within⟩, visited]
      exact if_neg kept
    cases Visited.of_visit wants visited with
    | fill other policed same seeded moved bounded whole =>
      refine .head served (ih (fun order member => ?_) (Bool.not_eq_true _ ▸ goesOn)
        (by rw [← same.taker] at within; exact within))
      rcases mem_cons.mp member with rfl | member
      · exact ⟨rfl, rfl⟩
      · exact placed order (mem_cons_of_mem _ member)
  | case10 maker queue matching sated => exact .refl

variable {before after : List Order × Matching}

theorem serve_turn (served : serve env before = some after)
    (positive : AllPositive before.1) : Turn env before after := by
  obtain ⟨ahead, matching⟩ := before
  cases ahead with
  | nil => cases served
  | cons maker rest =>
    have ready := Ready.of_serve served
    rw [serve_ready ready] at served
    have visited := @visit_visited env maker.price maker matching ready.wants
    generalize visit env maker.price maker matching = outcome at served visited
    cases outcome with
    | fill quantity filled =>
      have filling := visited.filling (positive maker mem_cons_self) ready.live
      dsimp only at served
      split at served
      · obtain rfl : quantity = maker.remainingQty := by omega
        cases served
        exact .fillWhole ready filling
      · have part : quantity < maker.remainingQty := by have := filling.le_remaining; omega
        cases served
        exact .fillPart ready filling part
    | selfTrade =>
      cases visited with
      | selfTrade own =>
        cases served
        exact .selfTrade ready own
    | cut =>
      cases visited with
      | cut other spent =>
        cases served
        exact .cut ready other spent
    | starved after =>
      cases visited with
      | starved other same seeded exhausted =>
        cases served
        exact .starved ready other same seeded exhausted
    | marginCancel after =>
      cases visited with
      | marginCancel other same seeded exhausted =>
        cases served
        exact .marginCancel ready other same seeded (exhausted.trans ready.live)

theorem Serves.turns (serves : Serves env before after)
    (positive : AllPositive before.1) : Turns env before after := by
  induction serves with
  | refl => exact .refl
  | tail _ served ih => exact .tail ih (serve_turn served (ih.positive positive))

theorem matchAtLevel_done (queue : Queue) (matching : Matching) :
    (matchAtLevel env price queue matching).1 = [] ∨
      (matchAtLevel env price queue matching).2.taker.remainingQty ≤ 0 ∨
      (matchAtLevel env price queue matching).2.exhausted = true := by
  fun_induction matchAtLevel env price queue matching with
  | case1 matching => exact Or.inl rfl
  | case2 maker queue matching wants visited ih => exact ih
  | case3 maker queue matching wants visited ih => exact ih
  | case4 maker queue matching wants after visited =>
    cases Visited.of_visit wants visited with
    | starved other same seeded exhausted => exact Or.inr (Or.inr exhausted)
  | case5 maker queue matching wants after visited ih => exact ih
  | case6 maker queue matching wants quantity after visited recorded done popped exhausted =>
    exact Or.inr (Or.inr exhausted)
  | case7 maker queue matching wants quantity after visited recorded done popped goesOn ih =>
    exact ih
  | case8 maker queue matching wants quantity after visited recorded kept exhausted =>
    exact Or.inr (Or.inr exhausted)
  | case9 maker queue matching wants quantity after visited recorded kept goesOn ih => exact ih
  | case10 maker queue matching sated => exact Or.inr (Or.inl (Int.not_lt.mp sated))

end Level

section Walk

variable {env : MatchEnv} {side : Side} {orderSeq : Nat → Option Nat} {ladder : Ladder}
  {matching : Matching}

variable (wf : LadderWf side orderSeq ladder)
include wf

/-- Matching serves makers one by one, from the best price on. -/
theorem executeMatch_serves : Serves env (ladder.orders, matching)
      ((executeMatch env side ladder matching).1.orders,
        (executeMatch env side ladder matching).2) := by
  induction ladder generalizing matching with
  | nil => exact .refl
  | cons head rest ih =>
    obtain ⟨price, queue⟩ := head
    unfold executeMatch
    split
    · rename_i ready
      obtain ⟨_, placed, _⟩ := wf.levels _ mem_cons_self
      have served := @matchAtLevel_serves env side price queue matching placed ready.2.1 ready.2.2
        (Ladder.orders rest)
      generalize matchAtLevel env price queue matching = outcome at served
      obtain ⟨left, after⟩ := outcome
      dsimp only at served ⊢
      rw [Ladder.orders_cons]
      split
      · rename_i empty
        rw [List.isEmpty_iff.mp empty] at served
        exact served.trans (ih wf.tail)
      · rw [Ladder.orders_cons]
        exact served
    · exact .refl

theorem executeMatch_turns : Turns env (ladder.orders, matching)
      ((executeMatch env side ladder matching).1.orders,
        (executeMatch env side ladder matching).2) :=
  (executeMatch_serves wf).turns fun _ member => wf.positive member

theorem executeMatch_wf : LadderWf side orderSeq (executeMatch env side ladder matching).1 := by
  induction ladder generalizing matching with
  | nil => exact wf
  | cons head rest ih =>
    obtain ⟨price, queue⟩ := head
    unfold executeMatch
    split
    · rename_i ready
      obtain ⟨_, placed, positive, ordered⟩ := wf.levels _ mem_cons_self
      have serves := @matchAtLevel_serves env side price queue matching placed ready.2.1 ready.2.2 []
      rw [append_nil, append_nil] at serves
      have turns := serves.turns positive
      generalize matchAtLevel env price queue matching = outcome at turns
      obtain ⟨left, after⟩ := outcome
      dsimp only at turns ⊢
      split
      · exact ih wf.tail
      · rename_i nonempty
        have keys := turns.keys
        have ids := keys.sublist.map Key.id
        rw [map_map, map_map] at ids
        refine ⟨pairwise_cons.mpr (pairwise_cons.mp wf.sorted), fun level member => ?_⟩
        rcases mem_cons.mp member with rfl | member
        · exact ⟨fun empty => nonempty (List.isEmpty_iff.mpr empty), placed_of_keys keys placed,
            turns.positive positive, SeqBefore.of_ids ids ordered⟩
        · exact wf.levels level (mem_cons_of_mem _ member)
    · exact wf

theorem executeMatch_done : (executeMatch env side ladder matching).2.taker.remainingQty ≤ 0 ∨
      (executeMatch env side ladder matching).2.exhausted = true ∨
      ∀ order ∈ (executeMatch env side ladder matching).1.orders,
        withinLimit side order.price (executeMatch env side ladder matching).2.taker.price =
          false := by
  induction ladder generalizing matching with
  | nil => exact Or.inr (Or.inr fun order member => absurd member not_mem_nil)
  | cons head rest ih =>
    obtain ⟨price, queue⟩ := head
    unfold executeMatch
    split
    · rename_i ready
      have done := @matchAtLevel_done env price queue matching
      generalize matchAtLevel env price queue matching = outcome at done
      obtain ⟨left, after⟩ := outcome
      dsimp only at done ⊢
      split
      · exact ih wf.tail
      · rename_i nonempty
        rcases done with empty | sated | exhausted
        · exact absurd (List.isEmpty_iff.mpr empty) nonempty
        · exact Or.inl sated
        · exact Or.inr (Or.inl exhausted)
    · rename_i stopped
      by_cases wants : 0 < matching.taker.remainingQty
      · by_cases live : matching.exhausted = false
        · refine Or.inr (Or.inr fun order member => ?_)
          have beyond : withinLimit side price matching.taker.price ≠ true :=
            fun within => stopped ⟨wants, live, within⟩
          rcases (wf.best_some rfl).2 order member with same | worse
          · rw [same]
            exact Bool.eq_false_iff.mpr beyond
          · exact Bool.eq_false_iff.mpr fun within => beyond (withinLimit_better worse within)
        · exact Or.inr (Or.inl (Bool.not_eq_false _ ▸ live))
      · exact Or.inl (Int.not_lt.mp wants)

end Walk

end TorusHyperBft.OrderBook
