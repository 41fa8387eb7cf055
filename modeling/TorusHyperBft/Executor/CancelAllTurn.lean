import TorusHyperBft.Executor.CancelAllBook

namespace TorusHyperBft.Executor

open FixedPoint OrderBook List TraderMarkets
open Account (NativeBalance)

/-! One cancel-all, by the index and by a full scan.

Markets that the index does not list hold nothing of the sender's, so the scan finds nothing there. -/

variable {hash : StreamingHash} {ctx after : CancelContext hash} {sender : Address}
variable {market : MarketId} {markets : List MarketId} {other : CancelContext hash}

namespace CancelContext

/-- Every book is valid. -/
def Valid (ctx : CancelContext hash) : Prop :=
  ∀ market logged, ctx.books.lookup market = some logged → logged.book.Valid

def lossAt (ctx : CancelContext hash) (market : MarketId) (sender : Address) : Int :=
  match ctx.books.lookup market with
  | none => 0
  | some logged =>
    cancelledOrdersMargin (ctx.marginConfigs market) (logged.book.ordersOf sender) +
      stopReservations (ctx.marginConfigs market) (logged.book.reservedStops sender)

/-- The sender has something to cancel in the market. -/
def HitAt (ctx : CancelContext hash) (market : MarketId) (sender : Address) : Prop :=
  ∃ logged, ctx.books.lookup market = some logged ∧
    (logged.book.reservedStops sender ≠ [] ∨ logged.book.ordersOf sender ≠ [])

/-- Nothing but the books, the dirty markets, the balances and the index differs. -/
structure SameSettings (ctx after : CancelContext hash) : Prop where
  marginConfigs : after.marginConfigs = ctx.marginConfigs
  cancelCause : after.cancelCause = ctx.cancelCause

theorem SameSettings.trans {middle last : CancelContext hash} (left : SameSettings ctx middle)
    (right : SameSettings middle last) : SameSettings ctx last :=
  ⟨right.marginConfigs.trans left.marginConfigs, right.cancelCause.trans left.cancelCause⟩

theorem lossAt_congr (books : other.books.lookup market = ctx.books.lookup market)
    (configs : other.marginConfigs = ctx.marginConfigs) :
    other.lossAt market sender = ctx.lossAt market sender := by
  rw [lossAt, lossAt, books, configs]

theorem hitAt_congr (books : other.books.lookup market = ctx.books.lookup market) :
    other.HitAt market sender ↔ ctx.HitAt market sender := by
  rw [HitAt, HitAt, books]

theorem lossAt_absent
    (absent : ∀ logged, ctx.books.lookup market = some logged → logged.book.Absent sender) :
    ctx.lossAt market sender = 0 ∧ ¬ ctx.HitAt market sender := by
  cases found : ctx.books.lookup market with
  | none =>
    refine ⟨by rw [lossAt, found], ?_⟩
    rintro ⟨logged, present, _⟩
    rw [found] at present
    contradiction
  | some logged =>
    have nothing := absent logged found
    refine ⟨?_, ?_⟩
    · rw [lossAt, found]
      dsimp only
      rw [nothing.ordersOf, nothing.reservedStops]
      rfl
    · rintro ⟨other, present, some⟩
      rw [found, Option.some.injEq] at present
      subst present
      rw [nothing.ordersOf, nothing.reservedStops] at some
      simp at some

end CancelContext

open CancelContext

/-- One sender's cancel-all over these markets. -/
structure Served (ctx : CancelContext hash) (sender : Address) (markets : List MarketId)
    (after : CancelContext hash) (total : Int) : Prop where
  books : ∀ market, after.books.lookup market = (ctx.books.lookup market).map fun logged =>
    if market ∈ markets then (logged.takeAll ctx.cancelCause sender).1 else logged
  dirty : ∀ market, market ∈ after.dirtyBooks ↔
    market ∈ ctx.dirtyBooks ∨ market ∈ markets ∧ ctx.HitAt market sender
  total : total = (markets.map fun market => ctx.lossAt market sender).sum
  balance : after.balance = ctx.balance
  traderMarkets : after.traderMarkets = ctx.traderMarkets
  settings : SameSettings ctx after

theorem Served.nothing : Served ctx sender [] ctx 0 where
  books market := by simp
  dirty market := by simp
  total := rfl
  balance := rfl
  traderMarkets := rfl
  settings := ⟨rfl, rfl⟩

theorem Served.trans {middle last : CancelContext hash} {others : List MarketId}
    {first second : Int} (left : Served ctx sender markets middle first)
    (right : Served middle sender others last second)
    (apart : ∀ market ∈ others, market ∉ markets) :
    Served ctx sender (markets ++ others) last (first + second) := by
  have untouched : ∀ market ∈ others, middle.books.lookup market = ctx.books.lookup market := by
    intro market member
    rw [left.books market]
    simp [apart market member]
  refine ⟨fun market => ?_, fun market => ?_, ?_, right.balance.trans left.balance,
    right.traderMarkets.trans left.traderMarkets, left.settings.trans right.settings⟩
  · rw [right.books, left.books, left.settings.cancelCause, Option.map_map]
    congr 1
    funext logged
    by_cases late : market ∈ others
    · simp [late, apart market late]
    · simp [late]
  · rw [right.dirty, left.dirty, mem_append, or_assoc]
    apply or_congr_right
    constructor
    · rintro (⟨early, hit⟩ | ⟨late, hit⟩)
      · exact ⟨Or.inl early, hit⟩
      · exact ⟨Or.inr late, (hitAt_congr (untouched market late)).mp hit⟩
    · rintro ⟨early | late, hit⟩
      · exact Or.inl ⟨early, hit⟩
      · exact Or.inr ⟨late, (hitAt_congr (untouched market late)).mpr hit⟩
  · rw [left.total, right.total, map_append, sum_append]
    congr 2
    exact map_congr_left fun market member =>
      lossAt_congr (untouched market member) left.settings.marginConfigs

theorem cancelInMarket_served (valid : ctx.Valid) (sender : Address) (market : MarketId)
    (total : Int) :
    ∃ freed, (cancelInMarket sender (ctx, total) market).2 = total + freed ∧
      Served ctx sender [market] (cancelInMarket sender (ctx, total) market).1 freed := by
  unfold cancelInMarket
  dsimp only
  cases found : ctx.books.lookup market with
  | none =>
    refine ⟨0, (Int.add_zero _).symm, fun other => ?_, fun other => ?_, ?_, rfl, rfl, rfl, rfl⟩
    · by_cases same : other = market
      · rw [same, found]
        rfl
      · simp [same]
    · refine ⟨Or.inl, ?_⟩
      rintro (dirty | ⟨member, logged, present, _⟩)
      · exact dirty
      · rw [mem_singleton.mp member, found] at present
        contradiction
    · rw [map_singleton, sum_singleton, lossAt, found]
  | some logged =>
    obtain ⟨returned, _⟩ :=
      LoggedBook.takeAll_cancelled (valid market logged found) ctx.cancelCause sender
    have books : ∀ other, (ctx.books.insert market
        (logged.takeAll ctx.cancelCause sender).1).lookup other =
        (ctx.books.lookup other).map fun logged =>
          if other ∈ [market] then (logged.takeAll ctx.cancelCause sender).1 else logged := by
      intro other
      by_cases same : other = market
      · subst same
        rw [AList.lookup_insert, found]
        simp
      · rw [AList.lookup_insert_ne same]
        simp [same]
    have loss : ctx.lossAt market sender =
        cancelledOrdersMargin (ctx.marginConfigs market) (logged.book.ordersOf sender) +
          stopReservations (ctx.marginConfigs market) (logged.book.reservedStops sender) := by
      rw [lossAt, found]
    have hit : ctx.HitAt market sender ↔
        ¬ (logged.book.reservedStops sender = [] ∧ logged.book.ordersOf sender = []) := by
      rw [HitAt, found]
      constructor
      · rintro ⟨other, present, some⟩ ⟨noStops, noOrders⟩
        rw [Option.some.injEq] at present
        subst present
        exact some.elim (fun stops => stops noStops) fun orders => orders noOrders
      · intro some
        exact ⟨logged, rfl, not_and_or.mp some⟩
    have stops : (logged.takeAll ctx.cancelCause sender).2.1 = logged.book.reservedStops sender :=
      congrArg Prod.fst returned
    have orders : (logged.takeAll ctx.cancelCause sender).2.2 = logged.book.ordersOf sender :=
      congrArg Prod.snd returned
    simp only [stops, orders]
    split
    · rename_i nothing
      refine ⟨0, (Int.add_zero _).symm, books, fun other => ?_, ?_, rfl, rfl, rfl, rfl⟩
      · refine ⟨Or.inl, ?_⟩
        rintro (dirty | ⟨member, some⟩)
        · exact dirty
        · rw [mem_singleton.mp member, hit] at some
          exact absurd nothing some
      · rw [map_singleton, sum_singleton, loss, nothing.1, nothing.2]
        rfl
    · rename_i something
      refine ⟨ctx.lossAt market sender, ?_, books, fun other => ?_, ?_, rfl, rfl, rfl, rfl⟩
      · rw [loss]
        omega
      · rw [Finset.mem_insert, mem_singleton, or_comm]
        apply or_congr_right
        refine ⟨fun same => ⟨same, ?_⟩, fun both => both.1⟩
        rw [same, hit]
        exact something
      · rw [map_singleton, sum_singleton]

theorem Served.valid {total : Int} (valid : ctx.Valid)
    (served : Served ctx sender markets after total) :
    after.Valid := by
  intro market logged found
  rw [served.books] at found
  obtain ⟨before, present, rfl⟩ := Option.map_eq_some_iff.mp found
  have ok := valid market before present
  split
  · exact (LoggedBook.takeAll_cancelled ok ctx.cancelCause sender).2.emptied.valid
  · exact ok

theorem foldl_cancelInMarket (valid : ctx.Valid) (sender : Address) (nodup : markets.Nodup)
    (total : Int) :
    ∃ freed, (markets.foldl (cancelInMarket sender) (ctx, total)).2 = total + freed ∧
      Served ctx sender markets (markets.foldl (cancelInMarket sender) (ctx, total)).1 freed := by
  induction markets generalizing ctx total with
  | nil => exact ⟨0, (Int.add_zero _).symm, .nothing⟩
  | cons market markets ih =>
    obtain ⟨fresh, others⟩ := nodup_cons.mp nodup
    obtain ⟨first, sum, served⟩ := cancelInMarket_served valid sender market total
    obtain ⟨second, later, rest⟩ := ih (served.valid valid) others
      (cancelInMarket sender (ctx, total) market).2
    refine ⟨first + second, ?_, served.trans rest fun other member same => ?_⟩
    · rw [foldl_cons]
      refine later.trans ?_
      rw [sum]
      omega
    · rw [mem_singleton.mp same] at member
      exact fresh member

variable {action : CancelAllAction}

namespace TraderMarkets

variable {index : TraderMarkets} {books : LoggedBooks hash}

/-- Wherever a trader has a resting order or a pending stop, the index lists the market for it. -/
def Covers (index : TraderMarkets) (books : LoggedBooks hash) : Prop :=
  ∀ market logged, books.lookup market = some logged → ∀ trader,
    ((∃ order ∈ logged.book.resting, order.trader = trader) ∨
      ∃ stop ∈ logged.book.pendingStops, stop.trader = trader) → market ∈ index.markets trader

theorem absent_of_unlisted (covers : index.Covers books) {logged : LoggedBook hash}
    (valid : logged.book.Valid) (found : books.lookup market = some logged)
    (unlisted : market ∉ index.markets sender) : logged.book.Absent sender := by
  refine ⟨eq_nil_iff_forall_not_mem.mpr fun id listed => unlisted ?_,
    fun stop pending same => unlisted ?_⟩
  · obtain ⟨order, rests, _, own⟩ := (valid.represented.traderOrders sender).2 id |>.mp listed
    exact covers market logged found sender (Or.inl ⟨order, rests, own⟩)
  · exact covers market logged found sender (Or.inr ⟨stop, pending, same⟩)

theorem covers_of_absent (valid : ∀ market logged, books.lookup market = some logged →
      logged.book.Valid)
    (absent : ∀ market logged trader, books.lookup market = some logged →
      market ∉ index.markets trader → logged.book.Absent trader) : index.Covers books := by
  intro market logged found trader some
  by_contra unlisted
  obtain ⟨noOrders, noStops⟩ := absent market logged trader found unlisted
  rcases some with ⟨order, rests, own⟩ | ⟨stop, pending, own⟩
  · have listed := ((valid market logged found).represented.traderOrders trader).2 order.id |>.mpr
      ⟨order, rests, rfl, own⟩
    rw [noOrders] at listed
    contradiction
  · exact noStops stop pending own

theorem mem_insert_markets {trader other : Address} {added : MarketId} :
    market ∈ (index.insert trader added).markets other ↔
      market ∈ index.markets other ∨ other = trader ∧ market = added := by
  unfold TraderMarkets.insert setMarkets
  dsimp only
  by_cases same : other = trader
  · subst same
    rw [Function.update_self, mem_insertMarket]
    tauto
  · rw [Function.update_of_ne same]
    tauto

theorem mem_addPresent {book : Book} {added : MarketId} {trader : Address} :
    market ∈ (index.addPresent book added).markets trader ↔
      market ∈ index.markets trader ∨ trader ∈ tradersPresent book ∧ market = added := by
  unfold addPresent
  induction tradersPresent book generalizing index with
  | nil => simp
  | cons head traders ih =>
    rw [foldl_cons, ih, mem_insert_markets, mem_cons]
    tauto

theorem build_covers (books : LoggedBooks hash) : (build books).Covers books := by
  have later : ∀ (rows : List (Sigma fun _ : MarketId => LoggedBook hash)) (index : TraderMarkets),
      ∀ market trader, market ∈ (rows.foldl (fun index row =>
        index.addPresent row.2.book row.1) index).markets trader ↔
          market ∈ index.markets trader ∨
            ∃ row ∈ rows, row.1 = market ∧ trader ∈ tradersPresent row.2.book := by
    intro rows
    induction rows with
    | nil => simp
    | cons row rows ih =>
      intro index market trader
      rw [foldl_cons, ih, mem_addPresent]
      simp only [mem_cons, exists_eq_or_imp]
      tauto
  intro market logged found trader some
  refine (later books.entries {} market trader).mpr (Or.inr ?_)
  refine ⟨⟨market, logged⟩, AList.mem_lookup_iff.mp found, rfl, ?_⟩
  rw [tradersPresent, mem_append, mem_map, mem_map]
  exact some

theorem mem_visit : market ∈ (index.visit action).2 ↔
    market ∈ index.markets action.1 ∧ (action.2 = none ∨ action.2 = some market) := by
  obtain ⟨sender, target⟩ := action
  cases target with
  | none => simp [visit, take]
  | some target =>
    unfold visit remove
    dsimp only
    split
    · rename_i listed
      simp only [if_true, mem_singleton, reduceCtorEq, Option.some.injEq, false_or]
      constructor
      · rintro rfl
        exact ⟨listed, rfl⟩
      · rintro ⟨_, rfl⟩
        rfl
    · rename_i unlisted
      simp only [Bool.false_eq_true, if_false, not_mem_nil, reduceCtorEq, Option.some.injEq,
        false_or, false_iff]
      rintro ⟨listed, rfl⟩
      exact unlisted listed

theorem markets_nodup (index : TraderMarkets) (trader : Address) :
    (index.markets trader).Nodup :=
  (index.ascending trader).imp Nat.ne_of_lt

theorem visit_nodup (index : TraderMarkets) (action : CancelAllAction) :
    (index.visit action).2.Nodup := by
  obtain ⟨sender, target⟩ := action
  cases target with
  | none => exact index.markets_nodup sender
  | some target =>
    unfold visit
    dsimp only
    split <;> simp

theorem mem_visit_markets {trader : Address} : market ∈ (index.visit action).1.markets trader ↔
      market ∈ index.markets trader ∧ ¬ (trader = action.1 ∧ market ∈ (index.visit action).2) := by
  rw [mem_visit]
  obtain ⟨sender, target⟩ := action
  cases target with
  | none =>
    unfold visit take setMarkets
    dsimp only
    by_cases same : trader = sender
    · subst same
      simp
    · simp [same]
  | some target =>
    unfold visit remove
    dsimp only
    by_cases listed : target ∈ index.markets sender
    · rw [if_pos listed]
      unfold setMarkets
      dsimp only
      by_cases same : trader = sender
      · subst same
        rw [Function.update_self, (index.markets_nodup trader).mem_erase_iff]
        simp only [reduceCtorEq, Option.some.injEq, false_or, true_and]
        constructor
        · rintro ⟨different, member⟩
          exact ⟨member, fun both => different both.2.symm⟩
        · rintro ⟨member, apart⟩
          exact ⟨fun equal => apart ⟨member, equal.symm⟩, member⟩
      · simp [same]
    · rw [if_neg listed]
      dsimp only
      refine ⟨fun member => ⟨member, ?_⟩, fun both => both.1⟩
      rintro ⟨rfl, inIndex, named⟩
      rcases named with none | some
      · contradiction
      · rw [Option.some.injEq] at some
        exact listed (some ▸ inIndex)

end TraderMarkets

/-- What an action does that visits the given markets. -/
structure Turn (ctx : CancelContext hash) (sender : Address) (markets : List MarketId)
    (after : CancelContext hash) : Prop where
  books : ∀ market, after.books.lookup market = (ctx.books.lookup market).map fun logged =>
    if market ∈ markets then (logged.takeAll ctx.cancelCause sender).1 else logged
  dirty : ∀ market, market ∈ after.dirtyBooks ↔
    market ∈ ctx.dirtyBooks ∨ market ∈ markets ∧ ctx.HitAt market sender
  balance : after.balance = releaseOrderMargin ctx.balance sender
    (markets.map fun market => ctx.lossAt market sender).sum
  settings : SameSettings ctx after

theorem Served.turn {middle : CancelContext hash} {total : Int}
    (served : Served middle sender markets after total) (books : middle.books = ctx.books)
    (dirty : middle.dirtyBooks = ctx.dirtyBooks) (balance : middle.balance = ctx.balance)
    (settings : SameSettings ctx middle) :
    Turn ctx sender markets
      { after with balance := releaseOrderMargin after.balance sender total } where
  books market := by rw [← books, ← settings.cancelCause]; exact served.books market
  dirty market := by
    have same : middle.books.lookup market = ctx.books.lookup market := by rw [books]
    rw [← dirty, ← hitAt_congr same]
    exact served.dirty market
  balance := by
    dsimp only
    rw [served.balance, served.total, balance]
    congr 2
    exact map_congr_left fun market _ => lossAt_congr (by rw [books]) settings.marginConfigs
  settings := ⟨served.settings.marginConfigs.trans settings.marginConfigs,
    served.settings.cancelCause.trans settings.cancelCause⟩

theorem Turn.valid (valid : ctx.Valid) (turn : Turn ctx sender markets after) : after.Valid := by
  intro market logged found
  rw [turn.books] at found
  obtain ⟨before, present, rfl⟩ := Option.map_eq_some_iff.mp found
  have ok := valid market before present
  split
  · exact (LoggedBook.takeAll_cancelled ok ctx.cancelCause sender).2.emptied.valid
  · exact ok

theorem execCancelAll_indexed (valid : ctx.Valid) (action : CancelAllAction) :
    Turn ctx action.1 (ctx.cancelIndex.visit action).2 (execCancelAll true ctx action) ∧
      (execCancelAll true ctx action).traderMarkets = some (ctx.cancelIndex.visit action).1 := by
  have taken : CancelContext.Valid
      { ctx with traderMarkets := some (ctx.cancelIndex.visit action).1 } := valid
  obtain ⟨freed, sum, served⟩ :=
    foldl_cancelInMarket taken action.1 (ctx.cancelIndex.visit_nodup action) 0
  rw [Int.zero_add] at sum
  have turn := served.turn (rfl : _ = ctx.books) rfl rfl ⟨rfl, rfl⟩
  rw [← sum] at turn
  exact ⟨turn, served.traderMarkets⟩

def scanned (ctx : CancelContext hash) (target : Option MarketId) : List MarketId :=
  match target with
  | some market => [market]
  | none => ctx.books.keys.mergeSort fun left right => decide (left ≤ right)

theorem scanned_nodup (ctx : CancelContext hash) (target : Option MarketId) :
    (scanned ctx target).Nodup := by
  cases target with
  | some market => exact nodup_singleton market
  | none => exact (mergeSort_perm _ _).nodup_iff.mpr ctx.books.keys_nodup

theorem execCancelAll_scanned (valid : ctx.Valid) (action : CancelAllAction) :
    Turn ctx action.1 (scanned ctx action.2) (execCancelAll false ctx action) := by
  obtain ⟨freed, sum, served⟩ :=
    foldl_cancelInMarket valid action.1 (scanned_nodup ctx action.2) 0
  rw [Int.zero_add] at sum
  have turn := served.turn rfl rfl rfl ⟨rfl, rfl⟩
  rw [← sum] at turn
  exact turn

/-- Two contexts with the same books, balances and dirty markets. -/
structure Agrees (left right : CancelContext hash) : Prop where
  books : ∀ market, right.books.lookup market = left.books.lookup market
  balance : right.balance = left.balance
  dirty : right.dirtyBooks = left.dirtyBooks
  settings : SameSettings left right

theorem sum_filter_support {loss : MarketId → Int} {first second : List MarketId}
    (firstNodup : first.Nodup) (secondNodup : second.Nodup)
    (left : ∀ market ∈ first, market ∉ second → loss market = 0)
    (right : ∀ market ∈ second, market ∉ first → loss market = 0) :
    (first.map loss).sum = (second.map loss).sum := by
  rw [← sum_toFinset loss firstNodup, ← sum_toFinset loss secondNodup]
  have inter : ∀ one other : List MarketId,
      (∀ market ∈ one, market ∉ other → loss market = 0) →
      one.toFinset.sum loss = (one.toFinset ∩ other.toFinset).sum loss := by
    intro one other outside
    refine (Finset.sum_subset Finset.inter_subset_left fun market member apart => ?_).symm
    refine outside market (mem_toFinset.mp member) fun both => apart ?_
    exact Finset.mem_inter.mpr ⟨member, mem_toFinset.mpr both⟩
  rw [inter first second left, inter second first right, Finset.inter_comm]

theorem Turn.agrees {other otherAfter : CancelContext hash} {others : List MarketId}
    (valid : ctx.Valid) (agrees : Agrees ctx other) (turn : Turn ctx sender markets after)
    (scan : Turn other sender others otherAfter) (nodup : markets.Nodup)
    (othersNodup : others.Nodup)
    (absent : ∀ market logged, ctx.books.lookup market = some logged →
      ¬ (market ∈ markets ↔ market ∈ others) → logged.book.Absent sender) :
    Agrees after otherAfter := by
  have nothing : ∀ market, ¬ (market ∈ markets ↔ market ∈ others) →
      ctx.lossAt market sender = 0 ∧ ¬ ctx.HitAt market sender :=
    fun market apart => lossAt_absent fun logged found => absent market logged found apart
  refine ⟨fun market => ?_, ?_, ?_, ?_⟩
  · rw [turn.books, scan.books, agrees.books, agrees.settings.cancelCause]
    cases found : ctx.books.lookup market with
    | none => rfl
    | some logged =>
      by_cases same : market ∈ markets ↔ market ∈ others
      · rw [Option.map_some, Option.map_some, if_congr same rfl rfl]
      · have idle := LoggedBook.takeAll_absent (valid market logged found) ctx.cancelCause
          (absent market logged found same)
        rw [Option.map_some, Option.map_some, idle, ite_self, ite_self]
  · rw [turn.balance, scan.balance, agrees.balance]
    congr 1
    have losses : (fun market => other.lossAt market sender) =
        fun market => ctx.lossAt market sender :=
      funext fun market => lossAt_congr (agrees.books market) agrees.settings.marginConfigs
    rw [losses]
    refine sum_filter_support othersNodup nodup (fun market member outside => ?_)
      fun market member outside => ?_
    · exact (nothing market fun same => outside (same.mpr member)).1
    · exact (nothing market fun same => outside (same.mp member)).1
  · ext market
    rw [turn.dirty, scan.dirty, agrees.dirty, hitAt_congr (agrees.books market)]
    apply or_congr_right
    by_cases same : market ∈ markets ↔ market ∈ others
    · rw [same]
    · have miss := (nothing market same).2
      simp [miss]
  · exact ⟨by rw [scan.settings.marginConfigs, turn.settings.marginConfigs,
        agrees.settings.marginConfigs],
      by rw [scan.settings.cancelCause, turn.settings.cancelCause, agrees.settings.cancelCause]⟩

/-- Valid books, all found through the index. -/
structure Indexed (ctx : CancelContext hash) : Prop where
  valid : ctx.Valid
  covers : ctx.cancelIndex.Covers ctx.books

theorem Turn.indexed (indexed : Indexed ctx)
    (turn : Turn ctx action.1 (ctx.cancelIndex.visit action).2 after)
    (index : after.traderMarkets = some (ctx.cancelIndex.visit action).1) : Indexed after := by
  have valid := turn.valid indexed.valid
  have carried : after.cancelIndex = (ctx.cancelIndex.visit action).1 := by
    rw [cancelIndex, index]
    rfl
  refine ⟨valid, ?_⟩
  rw [carried]
  refine covers_of_absent valid fun market logged trader found unlisted => ?_
  rw [turn.books] at found
  obtain ⟨before, present, rfl⟩ := Option.map_eq_some_iff.mp found
  have ok := indexed.valid market before present
  obtain ⟨_, cancelled⟩ := LoggedBook.takeAll_cancelled ok ctx.cancelCause action.1
  rw [mem_visit_markets, not_and_not_right] at unlisted
  by_cases listed : market ∈ ctx.cancelIndex.markets trader
  · obtain ⟨rfl, visited⟩ := unlisted listed
    rw [if_pos visited]
    exact cancelled.emptied.absent (mem_singleton_self _)
  · have absent := absent_of_unlisted indexed.covers ok present listed
    split
    · exact cancelled.emptied.absent_of_absent absent
    · exact absent

theorem execCancelAll_agrees (indexed : Indexed ctx)
    (agrees : Agrees ctx other) (action : CancelAllAction) :
    Agrees (execCancelAll true ctx action) (execCancelAll false other action) ∧
      Indexed (execCancelAll true ctx action) := by
  have otherValid : other.Valid := fun market logged found =>
    indexed.valid market logged (by rw [← agrees.books]; exact found)
  obtain ⟨turn, index⟩ := execCancelAll_indexed indexed.valid action
  have scan := execCancelAll_scanned otherValid action
  refine ⟨turn.agrees indexed.valid agrees scan (ctx.cancelIndex.visit_nodup action)
    (scanned_nodup other action.2) fun market logged found apart => ?_, turn.indexed indexed index⟩
  refine absent_of_unlisted indexed.covers (indexed.valid market logged found) found
    fun listed => apart ?_
  rw [mem_visit]
  cases target : action.2 with
  | some named =>
    simp only [reduceCtorEq, Option.some.injEq, false_or, scanned, mem_singleton]
    exact ⟨fun both => both.2.symm, fun same => ⟨listed, same.symm⟩⟩
  | none =>
    have key : market ∈ other.books.keys := by
      rw [← AList.mem_keys, ← AList.lookup_isSome, agrees.books, found]
      rfl
    simp [scanned, listed, key]

end TorusHyperBft.Executor
