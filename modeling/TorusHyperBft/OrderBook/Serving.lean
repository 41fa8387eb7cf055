import TorusHyperBft.OrderBook.Turn

namespace TorusHyperBft.OrderBook

/-! What the steps of the matching loop leave of the terms of the orders and of the fills. -/

section Terms

variable {env : MatchEnv} {maker : Order} {rest next orders : List Order}
  {matching after : Matching}

theorem serve_terms (served : serve env (maker :: rest, matching) = some (next, after)) :
    (∀ order ∈ next, ∃ old ∈ maker :: rest, order.terms = old.terms) ∧
      after.taker.terms = matching.taker.terms := by
  have ready := Ready.of_serve served
  have behind : ∀ order ∈ rest, ∃ old ∈ maker :: rest, order.terms = old.terms :=
    fun order member => ⟨order, List.mem_cons_of_mem _ member, rfl⟩
  rw [serve_ready ready] at served
  have visited := @visit_visited env maker.price maker matching ready.wants
  generalize visit env maker.price maker matching = outcome at served visited
  cases visited with
  | selfTrade own =>
    cases served
    exact ⟨behind, rfl⟩
  | cut other spent =>
    cases served
    exact ⟨behind, rfl⟩
  | starved other same seeded exhausted =>
    cases served
    exact ⟨fun order member => ⟨order, member, rfl⟩, congrArg Order.terms same.taker⟩
  | marginCancel other same seeded exhausted =>
    cases served
    exact ⟨behind, congrArg Order.terms same.taker⟩
  | @fill fillable quantity loaded after other policed same seeded moved bounded whole =>
    have sameTerms : (after.recordFill maker maker.price quantity).taker.terms =
        matching.taker.terms := by
      rw [Matching.recordFill, same.taker]
      rfl
    dsimp only at served
    split at served
    · cases served
      exact ⟨behind, sameTerms⟩
    · cases served
      refine ⟨fun order member => ?_, sameTerms⟩
      rcases List.mem_cons.mp member with rfl | member
      · exact ⟨maker, List.mem_cons_self, rfl⟩
      · exact behind order member

theorem Serves.terms (serves : Serves env (orders, matching) (next, after)) :
    (∀ order ∈ next, ∃ old ∈ orders, order.terms = old.terms) ∧
      after.taker.terms = matching.taker.terms := by
  generalize reachedEq : (next, after) = reached at serves
  induction serves generalizing next after with
  | refl =>
    cases reachedEq
    exact ⟨fun order member => ⟨order, member, rfl⟩, rfl⟩
  | @tail middle last serves step ih =>
    obtain ⟨ahead, met⟩ := middle
    subst reachedEq
    obtain ⟨earlier, sameTaker⟩ := ih rfl
    cases ahead with
    | nil => cases step
    | cons maker rest =>
      obtain ⟨fromAhead, sameMet⟩ := serve_terms step
      refine ⟨fun order member => ?_, sameMet.trans sameTaker⟩
      obtain ⟨old, inAhead, same⟩ := fromAhead order member
      obtain ⟨first, inOrders, sameFirst⟩ := earlier old inAhead
      exact ⟨first, inOrders, same.trans sameFirst⟩

theorem serve_fills (served : serve env (maker :: rest, matching) = some (next, after)) :
    ∀ fill ∈ after.fills, fill ∈ matching.fills ∨ fill.price = maker.price := by
  have ready := Ready.of_serve served
  rw [serve_ready ready] at served
  have visited := @visit_visited env maker.price maker matching ready.wants
  generalize visit env maker.price maker matching = outcome at served visited
  intro fill member
  cases visited with
  | selfTrade own =>
    cases served
    exact Or.inl member
  | cut other spent =>
    cases served
    exact Or.inl member
  | starved other same seeded exhausted =>
    cases served
    rw [same.fills] at member
    exact Or.inl member
  | marginCancel other same seeded exhausted =>
    cases served
    rw [Matching.marginCancelMaker, Matching.forget, same.fills] at member
    exact Or.inl member
  | @fill fillable quantity loaded filled other policed same seeded moved bounded whole =>
    have recorded : fill ∈ (filled.recordFill maker maker.price quantity).fills := by
      dsimp only at served
      split at served <;> cases served <;> exact member
    rw [Matching.recordFill, same.fills] at recorded
    rcases List.mem_append.mp recorded with earlier | last
    · exact Or.inl earlier
    · rw [List.mem_singleton.mp last]
      exact Or.inr rfl

theorem Serves.fills (serves : Serves env (orders, matching) (next, after)) :
    ∀ fill ∈ after.fills, fill ∈ matching.fills ∨ ∃ old ∈ orders, fill.price = old.price := by
  generalize reachedEq : (next, after) = reached at serves
  induction serves generalizing next after with
  | refl =>
    cases reachedEq
    exact fun fill member => Or.inl member
  | @tail middle last serves step ih =>
    obtain ⟨ahead, met⟩ := middle
    subst reachedEq
    cases ahead with
    | nil => cases step
    | cons maker rest =>
      intro fill member
      rcases serve_fills step fill member with earlier | price
      · exact ih rfl fill earlier
      · obtain ⟨old, inOrders, same⟩ := (Serves.terms serves).1 maker List.mem_cons_self
        exact Or.inr ⟨old, inOrders, price.trans (Order.terms_price same)⟩

end Terms

end TorusHyperBft.OrderBook
