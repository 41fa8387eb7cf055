import TorusHyperBft.Executor.Amended

namespace TorusHyperBft.Executor

open FixedPoint OrderBook
open Account (NativeBalance)

/-! The modification as a whole: the book of one market, and the balance of one account. -/

variable {ρ : Type} {ctx after : Context ρ} {sender : Address} {marketId : MarketId}

/-- What the order margin of an order grows by under new terms; an order whose notional overflows
holds nothing. -/
def reserveChange (tiers : MarginTiers) (old : Order) (price qty : Int) : Int :=
  (tryReserveForQty tiers price qty).getD 0 -
    (tryReserveForQty tiers old.price old.remainingQty).getD 0

/-- What a modification that succeeds leaves of the context. -/
structure ModifyEffect (ctx after : Context ρ) (sender : Address) (marketId : MarketId) (book : Book)
    (old : Order) (price qty : Int) (last : Book) (cuts : List ReduceOnlyCut) : Prop where
  here : after.books.lookup marketId = some last
  elsewhere : ∀ other, other ≠ marketId → after.books.lookup other = ctx.books.lookup other
  revised : Revised book sender old price qty last cuts
  moved : MarginMoved sender ctx.balance after.balance
  /-- What the order needs more is reserved, what it needs less is released, and then what each cut
  frees. -/
  drawn : (after.balance sender).orderMargin =
    (-reserveChange (ctx.marginConfigs marketId) old price qty ::
        cuts.map (cutRelease (ctx.marginConfigs marketId) last)).foldl drawDown
      ((ctx.balance sender).orderMargin +
        max (reserveChange (ctx.marginConfigs marketId) old price qty) 0)
  rest : after = { ctx with books := after.books, balance := after.balance }

theorem ModifyEffect.exact {book last : Book} {old : Order} {price qty : Int}
    {cuts : List ReduceOnlyCut}
    (effect : ModifyEffect ctx after sender marketId book old price qty last cuts)
    (covered : max (-reserveChange (ctx.marginConfigs marketId) old price qty) 0 +
        released (cuts.map (cutRelease (ctx.marginConfigs marketId) last)) ≤
      (ctx.balance sender).orderMargin +
        max (reserveChange (ctx.marginConfigs marketId) old price qty) 0) :
    (after.balance sender).orderMargin = (ctx.balance sender).orderMargin +
      reserveChange (ctx.marginConfigs marketId) old price qty -
      released (cuts.map (cutRelease (ctx.marginConfigs marketId) last)) := by
  rw [← released_cons] at covered
  rw [effect.drawn, foldl_drawDown_covered covered, released_cons]
  omega

theorem sweepIfReduceOnly_recut {changed : Book} (found : ctx.books.lookup marketId = some changed)
    (valid : changed.Valid) (sender : Address) (roPos : Option Int) :
    ∃ last cuts, Recut sender changed last cuts ∧ (roPos = none → cuts = []) ∧
      (sweepIfReduceOnly ctx sender marketId roPos).books.lookup marketId = some last ∧
      (∀ other, other ≠ marketId →
        (sweepIfReduceOnly ctx sender marketId roPos).books.lookup other = ctx.books.lookup other) ∧
      (sweepIfReduceOnly ctx sender marketId roPos).balance =
        (cuts.map (cutRelease (ctx.marginConfigs marketId) last)).foldl
          (fun balance release => releaseOrderMargin balance sender release) ctx.balance ∧
      sweepIfReduceOnly ctx sender marketId roPos =
        { ctx with
          books := (sweepIfReduceOnly ctx sender marketId roPos).books
          balance := (sweepIfReduceOnly ctx sender marketId roPos).balance } := by
  cases roPos with
  | none => exact ⟨changed, [], .nothing valid, fun _ => rfl, found, fun _ _ => rfl, rfl, rfl⟩
  | some pos =>
    refine ⟨(changed.sweepReduceOnlyAt sender pos).1, (changed.sweepReduceOnlyAt sender pos).2,
      valid.sweepReduceOnlyAt_recut sender pos, fun none => by contradiction, ?_⟩
    unfold sweepIfReduceOnly sweepReduceOnlyAfterModify
    rw [found]
    exact ⟨AList.lookup_insert _, fun other different => AList.lookup_insert_ne different, rfl, rfl⟩

theorem findOrder_some {id : Nat} {book : Book} {old : Order}
    (valid : ∀ marketId book, ctx.books.lookup marketId = some book → book.Valid)
    (found : findOrder ctx id = some (marketId, book, old)) :
    ctx.books.lookup marketId = some book ∧ old ∈ book.resting ∧ old.id = id := by
  obtain ⟨row, member, here⟩ := List.exists_of_findSome?_eq_some found
  obtain ⟨order, located, same⟩ := Option.map_eq_some_iff.mp here
  cases same
  have lookup : ctx.books.lookup row.1 = some row.2 := AList.mem_lookup_iff.mpr member
  exact ⟨lookup, (valid row.1 row.2 lookup).getOrder_iff.mp located⟩

section Effect

variable {book : Book} {old : Order} {price qty : Int} {roPos : Option Int}

theorem ModifyEffect.of_sweep {changed : Book} {new : Order} {between : Context ρ}
    (valid : book.Valid) (member : old ∈ book.resting) (owner : old.trader = sender)
    (amended : Amended book old price qty changed new)
    (here : between.books.lookup marketId = some changed)
    (elsewhere : ∀ other, other ≠ marketId → between.books.lookup other = ctx.books.lookup other)
    (balance : between.balance = releaseOrderMargin
      (reserveOrderMargin ctx.balance sender (reserveChange (ctx.marginConfigs marketId) old price qty))
      sender (-reserveChange (ctx.marginConfigs marketId) old price qty))
    (rest : between = { ctx with books := between.books, balance := between.balance }) :
    ∃ last cuts, (roPos = none → cuts = []) ∧
      ModifyEffect ctx (sweepIfReduceOnly between sender marketId roPos) sender marketId book old price
        qty last cuts := by
  obtain ⟨last, cuts, recut, plain, lookup, others, swept, sweptRest⟩ :=
    sweepIfReduceOnly_recut here amended.valid sender roPos
  have configs : between.marginConfigs = ctx.marginConfigs := by rw [rest]
  rw [configs] at swept
  generalize sweepIfReduceOnly between sender marketId roPos = done at *
  obtain ⟨reserved, reservedMargin⟩ := reserveOrderMargin_moved ctx.balance sender
    (reserveChange (ctx.marginConfigs marketId) old price qty)
  obtain ⟨released, releasedMargin⟩ := releaseOrderMargin_moved
    (reserveOrderMargin ctx.balance sender (reserveChange (ctx.marginConfigs marketId) old price qty))
    sender (-reserveChange (ctx.marginConfigs marketId) old price qty)
  obtain ⟨freed, freedMargin⟩ := releases_moved between.balance sender
    (cuts.map (cutRelease (ctx.marginConfigs marketId) last))
  refine ⟨last, cuts, plain, lookup, fun other different => ?_,
    amended.revised valid member owner recut, ?_, ?_, ?_⟩
  · rw [others other different, elsewhere other different]
  · rw [balance] at freed swept
    rw [swept]
    exact (reserved.trans released).trans freed
  · rw [swept, freedMargin, balance, releasedMargin, reservedMargin]
    rfl
  · rw [sweptRest, rest]

theorem reserveChange_self (tiers : MarginTiers) (old : Order) :
    reserveChange tiers old old.price old.remainingQty = 0 := Int.sub_self _

theorem applyModify_effect {terms : ModifyTerms} (valid : book.Valid) (member : old ∈ book.resting)
    (owner : old.trader = sender)
    (changes : ¬ (terms.price = old.price ∧ terms.qty = old.remainingQty))
    (positive : 0 < terms.qty)
    (clear : ∀ best, (book.ladder old.side.opposite).best = some best →
      Apart old.side terms.price best) :
    ∃ after last cuts, applyModify ctx sender marketId book old terms
        (reserveChange (ctx.marginConfigs marketId) old terms.price terms.qty) = (after, .ok ()) ∧
      (terms.roPos = none → cuts = []) ∧
      ModifyEffect ctx after sender marketId book old terms.price terms.qty last cuts := by
  obtain ⟨changed, new, modified, amended⟩ :=
    amended_of_modifyOrder valid member changes positive clear
  obtain ⟨between, same⟩ : ∃ between : Context ρ, between =
      { ctx with
        books := ctx.books.insert marketId changed
        balance := releaseOrderMargin
          (reserveOrderMargin ctx.balance sender
            (reserveChange (ctx.marginConfigs marketId) old terms.price terms.qty))
          sender (-reserveChange (ctx.marginConfigs marketId) old terms.price terms.qty) } :=
    ⟨_, rfl⟩
  obtain ⟨last, cuts, plain, effect⟩ := @ModifyEffect.of_sweep ρ ctx sender marketId book old
    terms.price terms.qty terms.roPos changed new between valid member owner amended
    (by rw [same]; exact AList.lookup_insert _)
    (fun other different => by rw [same]; exact AList.lookup_insert_ne different)
    (by rw [same]) (by rw [same])
  refine ⟨_, last, cuts, ?_, plain, effect⟩
  unfold applyModify
  rw [modified, same]

end Effect

/-- A modification that fails changes nothing.  One that succeeds leaves a valid book of the same
market with the order in its new terms, and moves the sender's order margin alone. -/
theorem execModifyOrder_atomic {reads : ModifyReads ρ} {id : Nat} {newPrice newQty : Option Int}
    {outcome : Except ModifyError Unit}
    (valid : ∀ marketId book, ctx.books.lookup marketId = some book → book.Valid)
    (run : execModifyOrder reads ctx sender id newPrice newQty = .ok (after, outcome)) :
    (∀ error, outcome = .error error → after = ctx) ∧
    (outcome = .ok () → ∃ marketId book old terms last cuts,
      ctx.books.lookup marketId = some book ∧ old ∈ book.resting ∧ old.id = id ∧
      Checked reads ctx sender marketId book old newPrice newQty terms ∧
      ModifyEffect ctx after sender marketId book old terms.price terms.qty last cuts ∧
      (old.reduceOnly = false → cuts = []) ∧
      (max (-reserveChange (ctx.marginConfigs marketId) old terms.price terms.qty) 0 +
          released (cuts.map (cutRelease (ctx.marginConfigs marketId) last)) ≤
        (ctx.balance sender).orderMargin +
          max (reserveChange (ctx.marginConfigs marketId) old terms.price terms.qty) 0 →
        (after.balance sender).orderMargin = (ctx.balance sender).orderMargin +
          reserveChange (ctx.marginConfigs marketId) old terms.price terms.qty -
          released (cuts.map (cutRelease (ctx.marginConfigs marketId) last)))) := by
  suffices settled : (∃ error, after = ctx ∧ outcome = .error error) ∨
      (outcome = .ok () ∧ ∃ marketId book old terms last cuts,
        ctx.books.lookup marketId = some book ∧ old ∈ book.resting ∧ old.id = id ∧
        Checked reads ctx sender marketId book old newPrice newQty terms ∧
        (terms.roPos = none → cuts = []) ∧
        ModifyEffect ctx after sender marketId book old terms.price terms.qty last cuts) by
    rcases settled with ⟨error, same, failed⟩ | ⟨passed, marketId, book, old, terms, last, cuts, found,
      member, sameId, checked, plain, effect⟩
    · refine ⟨fun _ _ => same, fun passed => ?_⟩
      rw [failed] at passed
      contradiction
    · refine ⟨fun error failed => ?_, fun _ => ⟨marketId, book, old, terms, last, cuts, found, member,
        sameId, checked, effect, fun unpoliced => plain (checked.plain unpoliced).2, effect.exact⟩⟩
      rw [passed] at failed
      contradiction
  unfold execModifyOrder at run
  split at run
  · cases run
    exact Or.inl ⟨_, rfl, rfl⟩
  · cases found : findOrder ctx id with
    | none =>
      rw [found] at run
      cases run
      exact Or.inl ⟨_, rfl, rfl⟩
    | some located =>
      obtain ⟨marketId, book, old⟩ := located
      obtain ⟨lookup, member, sameId⟩ := findOrder_some valid found
      have bookValid := valid marketId book lookup
      rw [found] at run
      dsimp only at run
      cases passed : checkModify reads ctx sender marketId book old newPrice newQty with
      | error reason =>
        rw [passed] at run
        cases run
        exact Or.inl ⟨_, rfl, rfl⟩
      | ok terms =>
        have checked := checkModify_ok passed
        rw [passed] at run
        dsimp only at run
        split at run
        · rename_i same
          cases run
          have amended := Amended.nothing bookValid member
          rw [← same.1, ← same.2] at amended
          have unchanged : reserveChange (ctx.marginConfigs marketId) old terms.price terms.qty = 0 := by
            rw [same.1, same.2, reserveChange_self]
          obtain ⟨last, cuts, plain, effect⟩ := @ModifyEffect.of_sweep ρ ctx sender marketId book old
            terms.price terms.qty terms.roPos book old ctx bookValid member checked.owner amended
            lookup (fun _ _ => rfl) (by rw [unchanged]; rfl) rfl
          exact Or.inr ⟨rfl, marketId, book, old, terms, last, cuts, lookup, member, sameId, checked,
            plain, effect⟩
        · rename_i changes
          cases reserved : tryReserveForQty (ctx.marginConfigs marketId) terms.price terms.qty with
          | none =>
            rw [reserved] at run
            cases run
            exact Or.inl ⟨_, rfl, rfl⟩
          | some newReserved =>
            rw [reserved] at run
            dsimp only at run
            cases gate : modifyGate reads ctx sender marketId old terms.price terms.qty
                ((tryReserveForQty (ctx.marginConfigs marketId) old.price
                  old.remainingQty).getD 0) with
            | error panic =>
              rw [gate] at run
              contradiction
            | ok refusal =>
              rw [gate] at run
              cases refusal with
              | some reason =>
                cases run
                exact Or.inl ⟨_, rfl, rfl⟩
              | none =>
                have change : newReserved - (tryReserveForQty (ctx.marginConfigs marketId)
                    old.price old.remainingQty).getD 0 =
                    reserveChange (ctx.marginConfigs marketId) old terms.price terms.qty := by
                  unfold reserveChange
                  rw [reserved]
                  rfl
                change Except.ok (applyModify ctx sender marketId book old terms _) = _ at run
                obtain ⟨done, last, cuts, applied, plain, effect⟩ := @applyModify_effect ρ ctx
                  sender marketId book old terms bookValid member checked.owner changes
                  checked.qtyPositive checked.clear
                rw [change, applied] at run
                cases run
                exact Or.inr ⟨rfl, marketId, book, old, terms, last, cuts, lookup, member,
                  sameId, checked, plain, effect⟩

section Bid

def flatReads : ModifyReads Unit where
  everMarked _ _ := true
  outsideBand _ _ _ := false
  signedPosition _ _ _ := some 0
  positionPx _ _ _ := some (0, 0)
  posNet _ _ := some 0

def oneBid : Book := (Book.new 1 1 1).placeAll [Book.limitOrder 7 true 100000000000 400000000]

def bidContext (orderMargin : Int) : Context Unit where
  books := (∅ : AList fun _ : MarketId => Book).insert 1 oneBid
  balance _ := { available := 500000000000, orderMargin }
  rest := ()

theorem bidContext_valid (orderMargin : Int) :
    ∀ marketId book, (bidContext orderMargin).books.lookup marketId = some book → book.Valid := by
  intro marketId book found
  have sound : oneBid.Sound := (Book.Sound.new 1 1 Int.one_pos).placeAll (by decide)
  by_cases here : marketId = 1
  · subst here
    rw [bidContext, AList.lookup_insert] at found
    cases found
    exact sound.valid
  · rw [bidContext, AList.lookup_insert_ne here] at found
    contradiction

theorem execModifyOrder_atomic_halved : ∃ after,
    execModifyOrder flatReads (bidContext 20000000000) 7 1 none (some 200000000) = .ok (after, .ok ()) ∧
      ∃ marketId book old price qty last cuts, old.id = 1 ∧
        ModifyEffect (bidContext 20000000000) after 7 marketId book old price qty last cuts := by
  obtain ⟨after, run⟩ : ∃ after, execModifyOrder flatReads (bidContext 20000000000) 7 1 none
      (some 200000000) = .ok (after, .ok ()) := ⟨_, rfl⟩
  obtain ⟨marketId, book, old, terms, last, cuts, _, _, sameId, _, effect, _⟩ :=
    (execModifyOrder_atomic (bidContext_valid 20000000000) run).2 rfl
  exact ⟨after, run, marketId, book, old, terms.price, terms.qty, last, cuts, sameId, effect⟩

/-- An account that holds no order margin gets none back: half of the bid goes, and the order margin
stays. -/
theorem execModifyOrder_unfunded :
    (∀ marketId book, (bidContext 0).books.lookup marketId = some book → book.Valid) ∧
    oneBid.resting.map (fun old => (old.id, reserveChange ((bidContext 0).marginConfigs 1) old old.price
      200000000)) = [(1, -10000000000)] ∧
    oneBid.resting.map Order.reduceOnly = [false] ∧
    ∃ after, execModifyOrder flatReads (bidContext 0) 7 1 none (some 200000000) = .ok (after, .ok ()) ∧
      (after.balance 7).orderMargin - ((bidContext 0).balance 7).orderMargin ≠ -10000000000 :=
  ⟨bidContext_valid 0, by decide, by decide, _, rfl, by decide⟩

end Bid

end TorusHyperBft.Executor
