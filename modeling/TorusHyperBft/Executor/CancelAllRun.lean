import TorusHyperBft.Executor.CancelAllPlan

namespace TorusHyperBft.Executor

open FixedPoint OrderBook List TraderMarkets
open Account (NativeBalance)
open CancelContext

/-! A run of cancel-alls leaves what the actions leave one by one. -/

variable {hash : StreamingHash} {base ctx after : CancelContext hash}
variable {market : MarketId} {sender : Address} {plan : CancelPlan}

def freedBy (base : CancelContext hash) (visit : Address × List MarketId) : Int :=
  (visit.2.map fun market => base.lossAt market visit.1).sum

/-- What the plan as a whole does to books, balance and dirty marks. -/
structure Carried (base : CancelContext hash) (plan : CancelPlan) (after : CancelContext hash) :
    Prop where
  absent : ∀ market, base.books.lookup market = none → after.books.lookup market = none
  books : ∀ market logged, base.books.lookup market = some logged →
    ∃ left, after.books.lookup market = some left ∧
      LoggedBook.Cancelled logged (sendersAt plan market)
        ((sendersAt plan market).flatMap logged.book.ordersOf) left
  balance : after.balance = plan.foldl
    (fun balance visit => releaseOrderMargin balance visit.1 (freedBy base visit)) base.balance
  dirty : ∀ market, market ∈ after.dirtyBooks ↔ market ∈ base.dirtyBooks ∨
    ∃ visit ∈ plan, market ∈ visit.2 ∧ base.HitAt market visit.1
  marginConfigs : after.marginConfigs = base.marginConfigs

section Turns

theorem Carried.nothing (valid : base.Valid) : Carried base [] base where
  absent _ none := none
  books market logged found := ⟨logged, found, .nothing (valid market logged found)⟩
  balance := rfl
  dirty market := by simp
  marginConfigs := rfl

theorem Carried.valid (carried : Carried base plan after) : after.Valid := by
  intro market left found
  cases present : base.books.lookup market with
  | none =>
    rw [carried.absent market present] at found
    contradiction
  | some logged =>
    obtain ⟨other, same, cancelled⟩ := carried.books market logged present
    rw [found, Option.some.injEq] at same
    rw [same]
    exact cancelled.emptied.valid

theorem Carried.untouched (valid : base.Valid) (carried : Carried base plan ctx)
    (fresh : sender ∉ sendersAt plan market) :
    ctx.lossAt market sender = base.lossAt market sender ∧
      (ctx.HitAt market sender ↔ base.HitAt market sender) := by
  cases present : base.books.lookup market with
  | none =>
    have none := carried.absent market present
    rw [lossAt, lossAt, HitAt, HitAt, present, none]
    simp
  | some logged =>
    obtain ⟨left, found, cancelled⟩ := carried.books market logged present
    have orders := cancelled.emptied.ordersOf (valid market logged present) sender
    have stops := Book.reservedStops_of_filter cancelled.emptied.pendingStops sender
    rw [if_neg fresh] at orders stops
    rw [lossAt, lossAt, HitAt, HitAt, present, found, carried.marginConfigs]
    simp [orders, stops]

theorem Carried.turn {markets : List MarketId} (valid : base.Valid)
    (carried : Carried base plan ctx) (turn : Turn ctx sender markets after)
    (fresh : ∀ market ∈ markets, sender ∉ sendersAt plan market) :
    Carried base (plan ++ [(sender, markets)]) after := by
  have senders : ∀ market, sendersAt (plan ++ [(sender, markets)]) market =
      sendersAt plan market ++ if market ∈ markets then [sender] else [] := by
    intro market
    unfold sendersAt
    rw [filter_append, map_append]
    by_cases visited : market ∈ markets <;> simp [visited]
  refine ⟨fun market none => ?_, fun market logged present => ?_, ?_, fun market => ?_,
    turn.settings.marginConfigs.trans carried.marginConfigs⟩
  · rw [turn.books, carried.absent market none]
    rfl
  · obtain ⟨left, found, cancelled⟩ := carried.books market logged present
    rw [turn.books, found, Option.map_some, senders]
    by_cases visited : market ∈ markets
    · rw [if_pos visited, if_pos visited]
      obtain ⟨_, step⟩ :=
        LoggedBook.takeAll_cancelled cancelled.emptied.valid ctx.cancelCause sender
      have orders := cancelled.emptied.ordersOf (valid market logged present) sender
      rw [if_neg (fresh market visited)] at orders
      have both := cancelled.trans step
      rw [orders] at both
      refine ⟨_, rfl, ?_⟩
      rw [flatMap_append, flatMap_singleton]
      exact both
    · rw [if_neg visited, if_neg visited, append_nil]
      exact ⟨left, rfl, cancelled⟩
  · rw [foldl_append, ← carried.balance, turn.balance]
    change _ = releaseOrderMargin ctx.balance sender (freedBy base (sender, markets))
    unfold freedBy
    congr 2
    exact map_congr_left fun market member =>
      (carried.untouched valid (fresh market member)).1
  · rw [turn.dirty, carried.dirty, or_assoc]
    apply or_congr_right
    simp only [mem_append, mem_singleton]
    constructor
    · rintro (⟨visit, inPlan, both⟩ | ⟨visited, hit⟩)
      · exact ⟨visit, Or.inl inPlan, both⟩
      · exact ⟨_, Or.inr rfl, visited, (carried.untouched valid (fresh market visited)).2.mp hit⟩
    · rintro ⟨visit, inPlan | rfl, visited, hit⟩
      · exact Or.inl ⟨visit, inPlan, visited, hit⟩
      · exact Or.inr ⟨visited, (carried.untouched valid (fresh market visited)).2.mpr hit⟩

theorem Carried.inTurn (valid : base.Valid) (carried : Carried base plan ctx)
    (indexed : Indexed ctx)
    (fresh : ∀ market trader, market ∈ ctx.cancelIndex.markets trader →
      trader ∉ sendersAt plan market) (run : List CancelAllAction) :
    Carried base (plan ++ (planOf ctx.cancelIndex run).2) (run.foldl (execCancelAll true) ctx) := by
  induction run generalizing plan ctx with
  | nil =>
    rw [planOf, append_nil]
    exact carried
  | cons action run ih =>
    obtain ⟨turn, index⟩ := execCancelAll_indexed indexed.valid action
    have current : (execCancelAll true ctx action).cancelIndex =
        (ctx.cancelIndex.visit action).1 := by
      rw [cancelIndex, index]
      rfl
    have step := carried.turn valid turn fun market visited =>
      fresh market action.1 (mem_visit.mp visited).1
    have later := ih step (turn.indexed indexed index) fun market trader listed => by
      rw [current, mem_visit_markets] at listed
      unfold sendersAt
      rw [filter_append, map_append, mem_append, not_or]
      refine ⟨fresh market trader listed.1, fun again => listed.2 ?_⟩
      obtain ⟨visit, member, rfl⟩ := mem_map.mp again
      obtain ⟨single, visits⟩ := mem_filter.mp member
      rw [mem_singleton.mp single] at visits ⊢
      exact ⟨rfl, of_decide_eq_true visits⟩
    rw [current, append_assoc, singleton_append] at later
    exact later

end Turns

variable {logged : LoggedBook hash} {group : MarketId × List Nat}

section Groups

variable {run : List CancelAllAction} {parts : List (MarketId × List Nat)}

def hitsOf (base : CancelContext hash) (run : List CancelAllAction) (group : MarketId × List Nat) :
    List (Hit (List Order)) :=
  match base.books.lookup group.1 with
  | none => []
  | some logged => group.2.filterMap fun place =>
    hitOf (base.marginConfigs group.1) logged.book group.1 place (senderAt run place)

def servedBook (configs : MarketId → MarginTiers) (run : List CancelAllAction)
    (parts : List (MarketId × List Nat)) (market : MarketId) (logged : LoggedBook hash) :
    LoggedBook hash :=
  match parts.find? fun group => decide (group.1 = market) with
  | none => logged
  | some group => (cancelAllGroup (configs market) run market group.2 logged).1

/-- All groups have been served and nothing is settled yet. -/
structure GroupsServed (base : CancelContext hash) (run : List CancelAllAction)
    (parts : List (MarketId × List Nat)) (after : CancelContext hash) : Prop where
  books : ∀ market, after.books.lookup market =
    (base.books.lookup market).map (servedBook base.marginConfigs run parts market)
  balance : after.balance = base.balance
  dirty : after.dirtyBooks = base.dirtyBooks
  marginConfigs : after.marginConfigs = base.marginConfigs
  traderMarkets : after.traderMarkets = base.traderMarkets

variable {configs : MarketId → MarginTiers}

theorem servedBook_cons_self {places : List Nat} : servedBook configs run
    ((market, places) :: parts) market logged =
      (cancelAllGroup (configs market) run market places logged).1 := by
  unfold servedBook
  rw [List.find?_cons_of_pos (by simp)]

theorem servedBook_cons_ne (different : group.1 ≠ market) :
    servedBook configs run (group :: parts) market logged =
      servedBook configs run parts market logged := by
  unfold servedBook
  rw [List.find?_cons_of_neg (by simpa using different)]

theorem servedBook_absent (unvisited : market ∉ parts.map Prod.fst) :
    servedBook configs run parts market logged = logged := by
  have none : parts.find? (fun group => decide (group.1 = market)) = none := by
    rw [List.find?_eq_none]
    intro group member same
    exact unvisited (of_decide_eq_true same ▸ mem_map_of_mem member)
  unfold servedBook
  rw [none]

theorem cancelAllGroup_hits (valid : base.Valid) (found : base.books.lookup group.1 = some logged)
    (once : (group.2.map (senderAt run)).Nodup) :
    (cancelAllGroup (base.marginConfigs group.1) run group.1 group.2 logged).2 =
      hitsOf base run group := by
  rw [hitsOf, found]
  exact (cancelAllGroup_spec (valid group.1 logged found) _ run group.1 once).2

def CancelContext.putBook (ctx : CancelContext hash) (market : MarketId) (logged : LoggedBook hash) :
    CancelContext hash :=
  { ctx with books := ctx.books.insert market logged }

theorem GroupsServed.nothing (base : CancelContext hash) (run : List CancelAllAction) :
    GroupsServed base run [] base := by
  refine ⟨fun market => ?_, rfl, rfl, rfl, rfl⟩
  cases base.books.lookup market <;> rfl

theorem GroupsServed.cons {group : MarketId × List Nat} {logged : LoggedBook hash}
    (found : base.books.lookup group.1 = some logged) (fresh : group.1 ∉ parts.map Prod.fst)
    (served : GroupsServed (base.putBook group.1
      (cancelAllGroup (base.marginConfigs group.1) run group.1 group.2 logged).1) run parts after) :
    GroupsServed base run (group :: parts) after := by
  refine ⟨fun market => ?_, served.balance, served.dirty, served.marginConfigs,
    served.traderMarkets⟩
  rw [served.books]
  unfold CancelContext.putBook
  dsimp only
  by_cases same : market = group.1
  · subst same
    rw [AList.lookup_insert, found, Option.map_some, Option.map_some, servedBook_absent fresh]
    exact congrArg some servedBook_cons_self.symm
  · rw [AList.lookup_insert_ne same]
    congr 1
    funext other
    exact (servedBook_cons_ne (Ne.symm same)).symm

theorem GroupsServed.cons_absent
    (none : base.books.lookup group.1 = none) (served : GroupsServed base run parts after) :
    GroupsServed base run (group :: parts) after := by
  refine ⟨fun market => ?_, served.balance, served.dirty, served.marginConfigs,
    served.traderMarkets⟩
  rw [served.books]
  by_cases same : group.1 = market
  · rw [← same, none]
    rfl
  · congr 1
    funext logged
    exact (servedBook_cons_ne same).symm

theorem putBook_valid (valid : base.Valid) (found : base.books.lookup group.1 = some logged)
    (once : (group.2.map (senderAt run)).Nodup) :
    (base.putBook group.1
      (cancelAllGroup (base.marginConfigs group.1) run group.1 group.2 logged).1).Valid := by
  intro market other present
  change (base.books.insert group.1 _).lookup market = some other at present
  by_cases same : market = group.1
  · rw [same, AList.lookup_insert, Option.some.injEq] at present
    rw [← present]
    exact (cancelAllGroup_spec (valid group.1 logged found) _ run group.1 once).1.emptied.valid
  · rw [AList.lookup_insert_ne same] at present
    exact valid market other present

theorem hitsOf_putBook {group other : MarketId × List Nat} (different : other.1 ≠ group.1) :
    hitsOf (base.putBook group.1 logged) run other = hitsOf base run other := by
  unfold hitsOf CancelContext.putBook
  dsimp only
  rw [AList.lookup_insert_ne different]

theorem serveSerially_all (valid : base.Valid) (nodup : (parts.map Prod.fst).Nodup)
    (once : ∀ group ∈ parts, (group.2.map (senderAt run)).Nodup) (hits : List (Hit (List Order))) :
    GroupsServed base run parts (parts.foldl (serveSerially run) (base, hits)).1 ∧
      (parts.foldl (serveSerially run) (base, hits)).2 =
        hits ++ parts.flatMap (hitsOf base run) := by
  induction parts generalizing base hits with
  | nil => exact ⟨.nothing base run, (append_nil _).symm⟩
  | cons group parts ih =>
    obtain ⟨fresh, rest⟩ := nodup_cons.mp nodup
    have later := fun group member => once group (mem_cons_of_mem _ member)
    rw [foldl_cons, flatMap_cons]
    cases found : base.books.lookup group.1 with
    | none =>
      have idle : serveSerially run (base, hits) group = (base, hits) := by
        unfold serveSerially
        dsimp only
        rw [found]
      have empty : hitsOf base run group = [] := by rw [hitsOf, found]
      obtain ⟨served, freed⟩ := ih valid rest later hits
      rw [idle, empty, nil_append]
      exact ⟨served.cons_absent found, freed⟩
    | some logged =>
      have own := once group mem_cons_self
      have step : serveSerially run (base, hits) group =
          (base.putBook group.1
            (cancelAllGroup (base.marginConfigs group.1) run group.1 group.2 logged).1,
            hits ++ hitsOf base run group) := by
        rw [← cancelAllGroup_hits valid found own]
        unfold serveSerially
        dsimp only
        rw [found]
        rfl
      obtain ⟨served, freed⟩ := ih (putBook_valid valid found own) rest later
        (hits ++ hitsOf base run group)
      rw [step]
      refine ⟨served.cons found fresh, ?_⟩
      rw [freed, append_assoc]
      congr 2
      refine flatMap_congr fun other member => hitsOf_putBook fun same => ?_
      exact fresh (same ▸ mem_map_of_mem member)

def Hit.priced (configs : MarketId → MarginTiers) (hit : Hit (List Order)) : Hit Int where
  place := hit.place
  market := hit.market
  freed := cancelledOrdersMargin (configs hit.market) hit.freed
  stops := hit.stops

theorem hitsOf_market {group : MarketId × List Nat} :
    ∀ hit ∈ hitsOf base run group, hit.market = group.1 := by
  intro hit member
  unfold hitsOf at member
  split at member
  · contradiction
  · obtain ⟨place, _, found⟩ := mem_filterMap.mp member
    unfold hitOf at found
    split at found
    · rw [Option.some.injEq] at found
      rw [← found]
    · contradiction

theorem cancelAllJob_eq (valid : base.Valid) (once : (group.2.map (senderAt run)).Nodup) :
    cancelAllJob base run group = (base.books.lookup group.1).map fun logged =>
      (group.1, (cancelAllGroup (base.marginConfigs group.1) run group.1 group.2 logged).1,
        (hitsOf base run group).map (Hit.priced base.marginConfigs)) := by
  unfold cancelAllJob
  cases found : base.books.lookup group.1 with
  | none => rfl
  | some logged =>
    rw [Option.map_some, Option.map_some, ← cancelAllGroup_hits valid found once]
    have markets := @hitsOf_market hash base run group
    rw [← cancelAllGroup_hits valid found once] at markets
    refine congrArg some (Prod.ext rfl (Prod.ext rfl ?_))
    refine map_congr_left fun hit member => ?_
    rw [Hit.priced, markets hit member]

theorem foldl_jobs (valid : base.Valid) (nodup : (parts.map Prod.fst).Nodup)
    (once : ∀ group ∈ parts, (group.2.map (senderAt run)).Nodup) (books : LoggedBooks hash)
    (same : ∀ market ∈ parts.map Prod.fst, books.lookup market = base.books.lookup market)
    (market : MarketId) :
    ((parts.filterMap (cancelAllJob base run)).foldl
      (fun books job => books.insert job.1 job.2.1) books).lookup market =
        (books.lookup market).map (servedBook base.marginConfigs run parts market) := by
  induction parts generalizing books with
  | nil =>
    rw [filterMap_nil, foldl_nil]
    cases books.lookup market <;> rfl
  | cons group parts ih =>
    obtain ⟨fresh, rest⟩ := nodup_cons.mp nodup
    have later := fun group member => once group (mem_cons_of_mem _ member)
    have here := same group.1 mem_cons_self
    have job := cancelAllJob_eq valid (once group mem_cons_self)
    cases found : base.books.lookup group.1 with
    | none =>
      rw [found, Option.map_none] at job
      rw [filterMap_cons_none job,
        ih rest later books fun other member => same other (mem_cons_of_mem _ member)]
      by_cases visited : group.1 = market
      · rw [← visited, here, found]
        rfl
      · congr 1
        funext logged
        exact (servedBook_cons_ne visited).symm
    | some logged =>
      rw [found, Option.map_some] at job
      rw [filterMap_cons_some job, foldl_cons, ih rest later]
      · by_cases visited : market = group.1
        · subst visited
          rw [AList.lookup_insert, here, found, Option.map_some, Option.map_some,
            servedBook_absent fresh]
          exact congrArg some servedBook_cons_self.symm
        · rw [AList.lookup_insert_ne visited]
          congr 1
          funext other
          exact (servedBook_cons_ne (Ne.symm visited)).symm
      · intro other member
        have different : other ≠ group.1 := fun equal => fresh (equal ▸ member)
        rw [AList.lookup_insert_ne different]
        exact same other (mem_cons_of_mem _ member)

theorem cancelAllGroupsParallel_served (valid : base.Valid) (nodup : (parts.map Prod.fst).Nodup)
    (once : ∀ group ∈ parts, (group.2.map (senderAt run)).Nodup) :
    GroupsServed base run parts (cancelAllGroupsParallel base run parts).1 ∧
      (cancelAllGroupsParallel base run parts).2 =
        (parts.flatMap (hitsOf base run)).map (Hit.priced base.marginConfigs) := by
  refine ⟨⟨foldl_jobs valid nodup once base.books fun _ _ => rfl, rfl, rfl, rfl, rfl⟩, ?_⟩
  unfold cancelAllGroupsParallel
  dsimp only
  clear nodup
  induction parts with
  | nil => rfl
  | cons group parts ih =>
    have later := ih fun group member => once group (mem_cons_of_mem _ member)
    have job := cancelAllJob_eq valid (once group mem_cons_self)
    rw [flatMap_cons, map_append, ← later]
    cases found : base.books.lookup group.1 with
    | none =>
      rw [found, Option.map_none] at job
      have empty : hitsOf base run group = [] := by rw [hitsOf, found]
      rw [filterMap_cons_none job, empty]
      rfl
    | some logged =>
      rw [found, Option.map_some] at job
      rw [filterMap_cons_some job, flatMap_cons]

end Groups

section Settle

variable {α : Type} {margin : MarketId → α → Int} {hits : List (Hit α)} {run : List CancelAllAction}

def Hit.value (margin : MarketId → α → Int) (hit : Hit α) : Int :=
  margin hit.market hit.freed + hit.stops

def freedAt (margin : MarketId → α → Int) (hits : List (Hit α)) (place : Nat) : Int :=
  ((hits.filter fun hit => decide (hit.place = place)).map (Hit.value margin)).sum

theorem takeWhile_place {place : Nat}
    (sorted : hits.Pairwise fun left right => left.place ≤ right.place)
    (later : ∀ hit ∈ hits, place ≤ hit.place) :
    hits.takeWhile (fun hit => decide (hit.place = place)) =
        hits.filter (fun hit => decide (hit.place = place)) ∧
      hits.dropWhile (fun hit => decide (hit.place = place)) =
        hits.filter fun hit => !decide (hit.place = place) := by
  induction hits with
  | nil => exact ⟨rfl, rfl⟩
  | cons hit hits ih =>
    obtain ⟨below, rest⟩ := pairwise_cons.mp sorted
    by_cases own : hit.place = place
    · obtain ⟨taken, dropped⟩ := ih rest fun other member =>
        later other (mem_cons_of_mem _ member)
      simp [own, taken, dropped]
    · have beyond : ∀ other ∈ hits, other.place ≠ place := by
        intro other member same
        have first := later hit mem_cons_self
        have second := below other member
        omega
      have none : hits.filter (fun hit => decide (hit.place = place)) = [] :=
        filter_eq_nil_iff.mpr fun other member => by simpa using beyond other member
      have all : hits.filter (fun hit => !decide (hit.place = place)) = hits :=
        filter_eq_self.mpr fun other member => by simpa using beyond other member
      simp [own, none, all]

theorem mem_foldl_insert {dirty : Finset MarketId} :
    market ∈ hits.foldl (fun dirty hit => insert hit.market dirty) dirty ↔
      market ∈ dirty ∨ ∃ hit ∈ hits, hit.market = market := by
  induction hits generalizing dirty with
  | nil => simp
  | cons hit hits ih =>
    rw [foldl_cons, ih, Finset.mem_insert]
    simp only [mem_cons, exists_eq_or_imp]
    constructor
    · rintro ((same | early) | late)
      · exact Or.inr (Or.inl same.symm)
      · exact Or.inl early
      · exact Or.inr (Or.inr late)
    · rintro (early | same | late)
      · exact Or.inl (Or.inr early)
      · exact Or.inl (Or.inl same.symm)
      · exact Or.inr late

/-- Settling the hits pays back each sender's freed margin in turn. -/
theorem settleHits_spec {place : Nat}
    (sorted : hits.Pairwise fun left right => left.place ≤ right.place)
    (later : ∀ hit ∈ hits, place ≤ hit.place) :
    (settleHits margin ctx place run hits).books = ctx.books ∧
      (settleHits margin ctx place run hits).traderMarkets = ctx.traderMarkets ∧
      (settleHits margin ctx place run hits).marginConfigs = ctx.marginConfigs ∧
      (settleHits margin ctx place run hits).balance = (run.zipIdx place).foldl
        (fun balance action =>
          releaseOrderMargin balance action.1.1 (freedAt margin hits action.2)) ctx.balance ∧
      ∀ market, market ∈ (settleHits margin ctx place run hits).dirtyBooks ↔
        market ∈ ctx.dirtyBooks ∨
          ∃ hit ∈ hits, hit.place < place + run.length ∧ hit.market = market := by
  induction run generalizing ctx place hits with
  | nil =>
    refine ⟨rfl, rfl, rfl, rfl, fun market => ⟨Or.inl, ?_⟩⟩
    rintro (dirty | ⟨hit, member, before, _⟩)
    · exact dirty
    · have bound := later hit member
      rw [length_nil] at before
      omega
  | cons action run ih =>
    obtain ⟨taken, dropped⟩ := takeWhile_place sorted later
    have restSorted := sorted.sublist (@filter_sublist _ (fun hit => !decide (hit.place = place)) hits)
    have restLater : ∀ hit ∈ hits.filter (fun hit => !decide (hit.place = place)),
        place + 1 ≤ hit.place := by
      intro hit member
      obtain ⟨inHits, different⟩ := mem_filter.mp member
      have bound := later hit inHits
      have apart : hit.place ≠ place := by simpa using different
      omega
    rw [settleHits]
    rw [taken, dropped]
    obtain ⟨books, traderMarkets, configs, balance, dirty⟩ := ih restSorted restLater
    refine ⟨books, traderMarkets, configs, balance.trans ?_, fun market => (dirty market).trans ?_⟩
    · rw [zipIdx_cons, foldl_cons]
      refine foldl_ext _ _ _ fun balance other member => ?_
      congr 1
      unfold freedAt
      rw [filter_filter]
      congr 2
      refine filter_congr fun hit _ => ?_
      have bound := le_snd_of_mem_zipIdx member
      by_cases own : hit.place = other.2
      · have apart : hit.place ≠ place := by omega
        simp [own, own ▸ apart]
      · simp [own]
    · rw [mem_foldl_insert, or_assoc]
      apply or_congr_right
      simp only [mem_filter, Bool.not_eq_true', decide_eq_true_eq, decide_eq_false_iff_not,
        length_cons]
      constructor
      · rintro (⟨hit, ⟨member, own⟩, same⟩ | ⟨hit, ⟨member, _⟩, before, same⟩)
        · exact ⟨hit, member, by omega, same⟩
        · exact ⟨hit, member, by omega, same⟩
      · rintro ⟨hit, member, before, same⟩
        by_cases own : hit.place = place
        · exact Or.inl ⟨hit, ⟨member, own⟩, same⟩
        · exact Or.inr ⟨hit, ⟨member, own⟩, by omega, same⟩

theorem freedAt_perm {others : List (Hit α)} (perm : hits.Perm others) (place : Nat) :
    freedAt margin hits place = freedAt margin others place :=
  ((perm.filter _).map _).sum_eq

theorem freedAt_append {others : List (Hit α)} (place : Nat) :
    freedAt margin (hits ++ others) place =
      freedAt margin hits place + freedAt margin others place := by
  unfold freedAt
  rw [filter_append, map_append, sum_append]

theorem freedAt_places {hitAt : Nat → Option (Hit α)} {loss : Nat → Int}
    (hit : ∀ place found, hitAt place = some found →
      found.place = place ∧ found.value margin = loss place)
    (miss : ∀ place, hitAt place = none → loss place = 0) {places : List Nat} (nodup : places.Nodup)
    (place : Nat) :
    freedAt margin (places.filterMap hitAt) place = if place ∈ places then loss place else 0 := by
  induction places with
  | nil => rfl
  | cons head places ih =>
    obtain ⟨fresh, rest⟩ := nodup_cons.mp nodup
    have later := ih rest
    cases found : hitAt head with
    | none =>
      rw [filterMap_cons_none found, later]
      by_cases same : place = head
      · subst same
        rw [if_neg fresh, if_pos mem_cons_self, miss place found]
      · rw [if_congr (mem_cons.trans (or_iff_right same)) rfl rfl]
    | some own =>
      obtain ⟨placed, value⟩ := hit head own found
      have split := @freedAt_append α margin [own] (places.filterMap hitAt) place
      rw [filterMap_cons_some found, ← singleton_append, split, later]
      unfold freedAt
      by_cases same : head = place
      · subst same
        rw [if_neg fresh, if_pos mem_cons_self, filter_cons_of_pos (by simpa using placed)]
        simp [value]
      · rw [filter_cons_of_neg (by rw [placed]; simpa using same),
          if_congr (mem_cons.trans (or_iff_right (Ne.symm same))) rfl rfl]
        simp

end Settle

section Run

variable {run : List CancelAllAction} {parts : List (MarketId × List Nat)}

def ordersMargin (base : CancelContext hash) (market : MarketId) (orders : List Order) : Int :=
  cancelledOrdersMargin (base.marginConfigs market) orders

/-- The hits are paid out in the order of the actions. -/
structure HitsSettled (base : CancelContext hash) (run : List CancelAllAction)
    (hits : List (Hit (List Order))) (served after : CancelContext hash) : Prop where
  books : after.books = served.books
  traderMarkets : after.traderMarkets = served.traderMarkets
  marginConfigs : after.marginConfigs = served.marginConfigs
  balance : after.balance = (run.zipIdx 0).foldl (fun balance action =>
    releaseOrderMargin balance action.1.1 (freedAt (ordersMargin base) hits action.2)) served.balance
  dirty : ∀ market, market ∈ after.dirtyBooks ↔ market ∈ served.dirtyBooks ∨
    ∃ hit ∈ hits, hit.place < run.length ∧ hit.market = market

theorem hitLe_sorted {α : Type} (hits : List (Hit α)) :
    (hits.mergeSort hitLe).Pairwise fun left right => left.place ≤ right.place := by
  have sorted := @pairwise_mergeSort _ (@hitLe α)
    (fun first second third left right => by
      simp only [hitLe, decide_eq_true_eq] at left right ⊢
      omega)
    (fun left right => by
      simp only [hitLe, Bool.or_eq_true, decide_eq_true_eq]
      omega) hits
  exact sorted.imp fun {left right} le => by simpa [hitLe] using le

variable {served : CancelContext hash}

theorem settleHits_serial
    (configs : served.marginConfigs = base.marginConfigs) (hits : List (Hit (List Order))) :
    HitsSettled base run hits served (settleHits
      (fun market orders => cancelledOrdersMargin (served.marginConfigs market) orders) served 0 run
        (hits.mergeSort hitLe)) := by
  have perm := mergeSort_perm hits hitLe
  have margin : (fun market orders => cancelledOrdersMargin (served.marginConfigs market) orders) =
      ordersMargin base := by
    funext market orders
    rw [ordersMargin, configs]
  rw [margin]
  obtain ⟨books, traderMarkets, marginConfigs, balance, dirty⟩ :=
    @settleHits_spec hash served _ (ordersMargin base) (hits.mergeSort hitLe) run 0
      (hitLe_sorted hits) fun _ _ => Nat.zero_le _
  refine ⟨books, traderMarkets, marginConfigs, balance.trans ?_, fun market => (dirty market).trans ?_⟩
  · congr 1
    funext balance action
    rw [freedAt_perm perm]
  · simp only [perm.mem_iff, Nat.zero_add]

theorem settleHits_parallel (hits : List (Hit (List Order))) :
    HitsSettled base run hits served (settleHits (fun _ margin => margin) served 0 run
      ((hits.map (Hit.priced base.marginConfigs)).mergeSort hitLe)) := by
  have perm := mergeSort_perm (hits.map (Hit.priced base.marginConfigs)) hitLe
  obtain ⟨books, traderMarkets, marginConfigs, balance, dirty⟩ :=
    @settleHits_spec hash served _ (fun _ margin => margin)
      ((hits.map (Hit.priced base.marginConfigs)).mergeSort hitLe) run 0
      (hitLe_sorted _) fun _ _ => Nat.zero_le _
  refine ⟨books, traderMarkets, marginConfigs, balance.trans ?_, fun market => (dirty market).trans ?_⟩
  · congr 1
    funext balance action
    rw [freedAt_perm perm]
    unfold freedAt
    rw [filter_map, map_map]
    rfl
  · apply or_congr_right
    simp only [perm.mem_iff, Nat.zero_add, mem_map]
    constructor
    · rintro ⟨_, ⟨hit, member, rfl⟩, before, same⟩
      exact ⟨hit, member, before, same⟩
    · rintro ⟨hit, member, before, same⟩
      exact ⟨_, ⟨hit, member, rfl⟩, before, same⟩

/-- One group for each visited market, with its places. -/
structure Grouped (plan : CancelPlan) (parts : List (MarketId × List Nat)) : Prop where
  nodup : (parts.map Prod.fst).Nodup
  places : ∀ group ∈ parts, group.2 = placesFrom 0 plan group.1
  visited : ∀ market, market ∈ parts.map Prod.fst ↔ ∃ visit ∈ plan, market ∈ visit.2

theorem hitOf_freed (found : base.books.lookup market = some logged)
    {place : Nat} {sender : Address} :
    (∀ hit, hitOf (base.marginConfigs market) logged.book market place sender = some hit →
      hit.place = place ∧ hit.value (ordersMargin base) = base.lossAt market sender ∧
        base.HitAt market sender) ∧
      (hitOf (base.marginConfigs market) logged.book market place sender = none →
        base.lossAt market sender = 0 ∧ ¬ base.HitAt market sender) := by
  have loss : base.lossAt market sender =
      cancelledOrdersMargin (base.marginConfigs market) (logged.book.ordersOf sender) +
        stopReservations (base.marginConfigs market) (logged.book.reservedStops sender) := by
    rw [lossAt, found]
  unfold hitOf
  split
  · rename_i some
    refine ⟨fun hit same => ?_, fun none => absurd none (by simp)⟩
    rw [Option.some.injEq] at same
    subst same
    exact ⟨rfl, loss.symm, logged, found, some⟩
  · rename_i nothing
    rw [not_or, not_ne_iff, not_ne_iff] at nothing
    refine ⟨fun hit same => absurd same (by simp), fun _ => ⟨?_, ?_⟩⟩
    · rw [loss, nothing.1, nothing.2]
      rfl
    · rintro ⟨other, present, some⟩
      rw [found, Option.some.injEq] at present
      subst present
      rw [nothing.1, nothing.2] at some
      simp at some

theorem freedAt_hitsOf (nodup : group.2.Nodup) (place : Nat) :
    freedAt (ordersMargin base) (hitsOf base run group) place =
      if place ∈ group.2 then base.lossAt group.1 (senderAt run place) else 0 := by
  unfold hitsOf
  cases found : base.books.lookup group.1 with
  | none =>
    have nothing : base.lossAt group.1 (senderAt run place) = 0 := by rw [lossAt, found]
    rw [nothing, ite_self]
    rfl
  | some logged =>
    have losses : ∀ place found', hitOf (base.marginConfigs group.1) logged.book group.1 place
        (senderAt run place) = some found' → found'.place = place ∧
          found'.value (ordersMargin base) = base.lossAt group.1 (senderAt run place) := by
      intro place hit made
      obtain ⟨placed, value, _⟩ := (hitOf_freed found).1 hit made
      exact ⟨placed, value⟩
    exact freedAt_places losses (fun place missed => ((hitOf_freed found).2 missed).1) nodup place

theorem sum_flatMap_freedAt (nodup : ∀ group ∈ parts, group.2.Nodup) (place : Nat) :
    freedAt (ordersMargin base) (parts.flatMap (hitsOf base run)) place =
      (((parts.filter fun group => decide (place ∈ group.2)).map Prod.fst).map fun market =>
        base.lossAt market (senderAt run place)).sum := by
  induction parts with
  | nil => rfl
  | cons group parts ih =>
    have later := ih fun other member => nodup other (mem_cons_of_mem _ member)
    rw [flatMap_cons, freedAt_append, later, freedAt_hitsOf (nodup group mem_cons_self)]
    by_cases visited : place ∈ group.2
    · simp [visited]
    · simp [visited]

theorem Grouped.freed (grouped : Grouped plan parts) (nodup : ∀ visit ∈ plan, visit.2.Nodup)
    (senders : plan.map Prod.fst = run.map Prod.fst) {place : Nat}
    {visit : Address × List MarketId} (placed : plan[place]? = some visit) :
    freedAt (ordersMargin base) (parts.flatMap (hitsOf base run)) place = freedBy base visit := by
  have sender := senderAt_planned senders placed
  have distinct : ∀ group ∈ parts, group.2.Nodup := by
    intro group member
    rw [grouped.places group member]
    exact (placesFrom_ascending 0).imp Nat.ne_of_lt
  rw [sum_flatMap_freedAt distinct, sender, freedBy]
  refine List.Perm.sum_eq (List.Perm.map _ ?_)
  refine (perm_ext_iff_of_nodup (grouped.nodup.sublist (filter_sublist.map _))
    (nodup visit (mem_of_getElem? placed))).mpr fun market => ?_
  constructor
  · intro member
    obtain ⟨group, inFilter, rfl⟩ := mem_map.mp member
    obtain ⟨inParts, inPlaces⟩ := mem_filter.mp inFilter
    have here := of_decide_eq_true inPlaces
    rw [grouped.places group inParts, mem_placesFrom] at here
    obtain ⟨other, found, visited⟩ := here
    rw [placed, Option.some.injEq] at found
    exact found ▸ visited
  · intro visited
    obtain ⟨group, inParts, rfl⟩ :=
      mem_map.mp ((grouped.visited market).mpr ⟨visit, mem_of_getElem? placed, visited⟩)
    refine mem_map.mpr ⟨group, mem_filter.mpr ⟨inParts, decide_eq_true ?_⟩, rfl⟩
    rw [grouped.places group inParts, mem_placesFrom]
    exact ⟨visit, placed, visited⟩

theorem Grouped.once (grouped : Grouped plan parts) (senders : plan.map Prod.fst = run.map Prod.fst)
    (distinct : ∀ market, (sendersAt plan market).Nodup) :
    ∀ group ∈ parts, (group.2.map (senderAt run)).Nodup := by
  intro group member
  rw [grouped.places group member, placesFrom_senders senders]
  exact distinct group.1

theorem GroupsServed.carried (valid : base.Valid)
    (grouped : Grouped plan parts) (nodup : ∀ visit ∈ plan, visit.2.Nodup)
    (senders : plan.map Prod.fst = run.map Prod.fst)
    (distinct : ∀ market, (sendersAt plan market).Nodup)
    (books : GroupsServed base run parts served)
    (settled : HitsSettled base run (parts.flatMap (hitsOf base run)) served after) :
    Carried base plan after := by
  have once := grouped.once senders distinct
  refine ⟨fun market none => ?_, fun market logged found => ?_, ?_, fun market => ?_,
    settled.marginConfigs.trans books.marginConfigs⟩
  · rw [settled.books, books.books, none]
    rfl
  · rw [settled.books, books.books, found, Option.map_some]
    refine ⟨_, rfl, ?_⟩
    by_cases visited : market ∈ parts.map Prod.fst
    · obtain ⟨group, inParts, same⟩ := mem_map.mp visited
      have present : parts.find? (fun group => decide (group.1 = market)) ≠ none := by
        rw [ne_eq, List.find?_eq_none]
        intro nowhere
        exact nowhere group inParts (decide_eq_true same)
      obtain ⟨part, first⟩ := Option.ne_none_iff_exists'.mp present
      have member := mem_of_find?_eq_some first
      have named : part.1 = market := by simpa using List.find?_some first
      have spec := (cancelAllGroup_spec (valid market logged found) (base.marginConfigs market) run
        market (once part member)).1
      unfold servedBook
      rw [first]
      dsimp only
      rw [grouped.places part member, placesFrom_senders senders, named] at spec
      rw [grouped.places part member, named]
      exact spec
    · have nobody : sendersAt plan market = [] := by
        unfold sendersAt
        rw [map_eq_nil_iff, filter_eq_nil_iff]
        intro visit inPlan visits
        exact visited ((grouped.visited market).mpr ⟨visit, inPlan, of_decide_eq_true visits⟩)
      rw [servedBook_absent visited, nobody]
      exact .nothing (valid market logged found)
  · rw [settled.balance, books.balance]
    have totals : (run.zipIdx 0).map (fun action => (action.1.1,
        freedAt (ordersMargin base) (parts.flatMap (hitsOf base run)) action.2)) =
          plan.map fun visit => (visit.1, freedBy base visit) := by
      have lengths := congrArg List.length senders
      rw [length_map, length_map] at lengths
      refine ext_getElem? fun place => ?_
      have both := congrArg (fun list => list[place]?) senders
      simp only [List.getElem?_map] at both
      rw [List.getElem?_map, List.getElem?_map, List.getElem?_zipIdx]
      cases placed : plan[place]? with
      | none =>
        rw [placed, Option.map_none] at both
        rw [Option.map_eq_none_iff.mp both.symm]
        rfl
      | some visit =>
        rw [placed, Option.map_some] at both
        obtain ⟨action, found, same⟩ := Option.map_eq_some_iff.mp both.symm
        rw [found]
        simp only [Option.map_some, Nat.zero_add]
        rw [grouped.freed nodup senders placed, same]
    calc (run.zipIdx 0).foldl (fun balance action => releaseOrderMargin balance action.1.1
          (freedAt (ordersMargin base) (parts.flatMap (hitsOf base run)) action.2)) base.balance
        = ((run.zipIdx 0).map fun action => (action.1.1,
            freedAt (ordersMargin base) (parts.flatMap (hitsOf base run)) action.2)).foldl
              (fun balance pair => releaseOrderMargin balance pair.1 pair.2) base.balance := by
          rw [foldl_map]
      _ = (plan.map fun visit => (visit.1, freedBy base visit)).foldl
            (fun balance pair => releaseOrderMargin balance pair.1 pair.2) base.balance := by
          rw [totals]
      _ = _ := by rw [foldl_map]
  · rw [settled.dirty, books.dirty]
    apply or_congr_right
    constructor
    · rintro ⟨hit, member, before, rfl⟩
      obtain ⟨group, inParts, inHits⟩ := mem_flatMap.mp member
      have market := hitsOf_market hit inHits
      unfold hitsOf at inHits
      cases found : base.books.lookup group.1 with
      | none =>
        rw [found] at inHits
        contradiction
      | some logged =>
        rw [found] at inHits
        obtain ⟨place, inPlaces, made⟩ := mem_filterMap.mp inHits
        obtain ⟨_, _, hits⟩ := (hitOf_freed found).1 hit made
        rw [grouped.places group inParts, mem_placesFrom] at inPlaces
        obtain ⟨visit, placed, visited⟩ := inPlaces
        rw [market]
        exact ⟨visit, mem_of_getElem? placed, visited,
          senderAt_planned senders placed ▸ hits⟩
    · rintro ⟨visit, inPlan, visited, hits⟩
      obtain ⟨place, placed⟩ := mem_iff_getElem?.mp inPlan
      obtain ⟨group, inParts, rfl⟩ :=
        mem_map.mp ((grouped.visited market).mpr ⟨visit, inPlan, visited⟩)
      obtain ⟨logged, found, _⟩ := id hits
      rw [← senderAt_planned senders placed] at hits
      cases made : hitOf (base.marginConfigs group.1) logged.book group.1 place
          (senderAt run place) with
      | none => exact absurd hits ((hitOf_freed found).2 made).2
      | some hit =>
        have own : hit ∈ hitsOf base run group := by
          rw [hitsOf, found]
          refine mem_filterMap.mpr ⟨place, ?_, made⟩
          rw [grouped.places group inParts, mem_placesFrom]
          exact ⟨visit, placed, visited⟩
        refine ⟨hit, mem_flatMap.mpr ⟨group, inParts, own⟩, ?_, hitsOf_market hit own⟩
        rw [((hitOf_freed found).1 hit made).1]
        have bound : place < plan.length := (List.getElem?_eq_some_iff.mp placed).1
        have lengths := congrArg List.length senders
        rw [length_map, length_map] at lengths
        omega

theorem planOf_grouped (index : TraderMarkets) (run : List CancelAllAction) :
    Grouped (planOf index run).2 (groups ((takeVisits index 0 run).2.mergeSort visitLe)) := by
  have visits : (takeVisits index 0 run).2 =
      ((planOf index run).2.zipIdx 0).flatMap fun visit =>
        visit.1.2.map fun market => (market, visit.2) := by
    rw [takeVisits_eq]
  obtain ⟨nodup, places, visited⟩ := groups_planned planOf_nodup visits
  exact ⟨nodup, places, visited⟩

theorem cancelAllAtOnce_carried (indexed : Indexed ctx) (run : List CancelAllAction) :
    Carried ctx (planOf ctx.cancelIndex run).2 (cancelAllAtOnce ctx run) ∧
      (cancelAllAtOnce ctx run).traderMarkets = some (planOf ctx.cancelIndex run).1 := by
  have index : (takeVisits ctx.cancelIndex 0 run).1 = (planOf ctx.cancelIndex run).1 := by
    rw [takeVisits_eq]
  have grouped := planOf_grouped ctx.cancelIndex run
  have once := grouped.once planOf_senders fun market => planOf_once.1
  obtain ⟨taken, same⟩ : ∃ taken : CancelContext hash,
      taken = { ctx with traderMarkets := some (planOf ctx.cancelIndex run).1 } := ⟨_, rfl⟩
  have valid : taken.Valid := same ▸ indexed.valid
  have settled : ∃ served, GroupsServed taken run
        (groups ((takeVisits ctx.cancelIndex 0 run).2.mergeSort visitLe)) served ∧
      HitsSettled taken run ((groups ((takeVisits ctx.cancelIndex 0 run).2.mergeSort visitLe)).flatMap
        (hitsOf taken run)) served (cancelAllAtOnce ctx run) := by
    unfold cancelAllAtOnce
    dsimp only
    rw [index]
    split
    · obtain ⟨served, hits⟩ := cancelAllGroupsParallel_served valid grouped.nodup once
      rw [← same, hits]
      exact ⟨_, served, settleHits_parallel _⟩
    · obtain ⟨served, hits⟩ := serveSerially_all valid grouped.nodup once []
      rw [← same, hits, nil_append]
      exact ⟨_, served, settleHits_serial served.marginConfigs _⟩
  obtain ⟨served, books, hits⟩ := settled
  have carried := books.carried valid grouped planOf_nodup planOf_senders
    (fun market => planOf_once.1) hits
  subst same
  exact ⟨⟨carried.absent, carried.books, carried.balance, carried.dirty, carried.marginConfigs⟩,
    hits.traderMarkets.trans books.traderMarkets⟩

theorem execCancelAllRun_carried (indexed : Indexed ctx) (run : List CancelAllAction) :
    Carried ctx (planOf ctx.cancelIndex run).2 (execCancelAllRun ctx run) ∧
      (execCancelAllRun ctx run).traderMarkets = some (planOf ctx.cancelIndex run).1 := by
  unfold execCancelAllRun
  split
  · rename_i action
    have carried := (Carried.nothing indexed.valid).inTurn indexed.valid indexed
      (fun _ _ _ => not_mem_nil) [action]
    exact ⟨carried, (execCancelAll_indexed indexed.valid action).2⟩
  · exact cancelAllAtOnce_carried indexed run

/-- Equal in all that a block commits. -/
structure SameState (left right : CancelContext hash) : Prop where
  books : ∀ market,
    (left.books.lookup market).map (fun logged => (logged.book, logged.journals)) =
      (right.books.lookup market).map fun logged => (logged.book, logged.journals)
  balance : left.balance = right.balance
  dirtyBooks : left.dirtyBooks = right.dirtyBooks

theorem Carried.sameState {left right : CancelContext hash} (first : Carried base plan left)
    (second : Carried base plan right) : SameState left right := by
  refine ⟨fun market => ?_, first.balance.trans second.balance.symm, ?_⟩
  · cases found : base.books.lookup market with
    | none => rw [first.absent market found, second.absent market found]
    | some logged =>
      obtain ⟨one, inLeft, done⟩ := first.books market logged found
      obtain ⟨other, inRight, also⟩ := second.books market logged found
      rw [inLeft, inRight, Option.map_some, Option.map_some, done.emptied.unique also.emptied,
        done.journals, also.journals]
  · ext market
    rw [first.dirty, second.dirty]

theorem Carried.covers (indexed : Indexed ctx) {run : List CancelAllAction}
    (carried : Carried ctx (planOf ctx.cancelIndex run).2 after) :
    (planOf ctx.cancelIndex run).1.Covers after.books := by
  refine covers_of_absent carried.valid fun market left trader found unlisted => ?_
  cases present : ctx.books.lookup market with
  | none =>
    rw [carried.absent market present] at found
    contradiction
  | some logged =>
    obtain ⟨other, inAfter, cancelled⟩ := carried.books market logged present
    rw [found, Option.some.injEq] at inAfter
    subst inAfter
    obtain ⟨_, _, kept⟩ := @planOf_once market ctx.cancelIndex run
    rw [kept, not_and_not_right] at unlisted
    by_cases listed : market ∈ ctx.cancelIndex.markets trader
    · exact cancelled.emptied.absent (unlisted listed)
    · exact cancelled.emptied.absent_of_absent (absent_of_unlisted indexed.covers
        (indexed.valid market logged present) present listed)

/-- By the index or by scanning, a run leaves the same books and balances. -/
theorem foldl_execCancelAll_agrees {other : CancelContext hash} (indexed : Indexed ctx)
    (agrees : Agrees ctx other) (run : List CancelAllAction) :
    Agrees (run.foldl (execCancelAll true) ctx) (run.foldl (execCancelAll false) other) := by
  induction run generalizing ctx other with
  | nil => exact agrees
  | cons action run ih =>
    obtain ⟨next, nextIndexed⟩ := execCancelAll_agrees indexed agrees action
    exact ih nextIndexed next

/-- A run of cancel-alls at once leaves the books with their journals, the balances and the dirty
markets that the actions leave one by one with a full scan each, and an index that covers the books. -/
theorem execCancelAllRun_inTurn (valid : ctx.Valid)
    (covers : ∀ index, ctx.traderMarkets = some index → index.Covers ctx.books)
    (run : List CancelAllAction) :
    SameState (execCancelAllRun ctx run) (run.foldl (execCancelAll false) ctx) ∧
      ∃ index, (execCancelAllRun ctx run).traderMarkets = some index ∧
        index.Covers (execCancelAllRun ctx run).books := by
  have indexed : Indexed ctx := by
    refine ⟨valid, ?_⟩
    cases index : ctx.traderMarkets with
    | none =>
      rw [cancelIndex, index]
      exact build_covers ctx.books
    | some carried =>
      rw [cancelIndex, index]
      exact covers carried index
  obtain ⟨carried, index⟩ := execCancelAllRun_carried indexed run
  have each := (Carried.nothing valid).inTurn valid indexed (fun _ _ _ => not_mem_nil) run
  have scan := foldl_execCancelAll_agrees indexed ⟨fun _ => rfl, rfl, rfl, rfl, rfl⟩ run
  have same := carried.sameState each
  refine ⟨⟨fun market => ?_, ?_, ?_⟩, _, index, carried.covers indexed⟩
  · rw [scan.books]
    exact same.books market
  · rw [scan.balance]
    exact same.balance
  · rw [scan.dirty]
    exact same.dirtyBooks

/-- An ask and a stop in one market, with the index that lists both traders. -/
def askAndStopContext : CancelContext Saving.transcript where
  books := AList.insert 1 LoggedBook.askAndStop ∅
  traderMarkets := some (TraderMarkets.build (AList.insert 1 LoggedBook.askAndStop ∅))

theorem askAndStopContext_valid : askAndStopContext.Valid := by
  intro market logged found
  unfold askAndStopContext at found
  dsimp only at found
  by_cases same : market = 1
  · rw [same, AList.lookup_insert, Option.some.injEq] at found
    rw [← found]
    exact LoggedBook.askAndStop_valid
  · rw [AList.lookup_insert_ne same] at found
    contradiction

theorem execCancelAllRun_inTurn_askAndStop : askAndStopContext.Valid ∧
    SameState (execCancelAllRun askAndStopContext [(1, none), (2, some 1), (1, some 1)])
      ([(1, none), (2, some 1), (1, some 1)].foldl (execCancelAll false) askAndStopContext) :=
  ⟨askAndStopContext_valid, (execCancelAllRun_inTurn askAndStopContext_valid
    (fun index present => by
      rw [← Option.some.inj present]
      exact build_covers _) [(1, none), (2, some 1), (1, some 1)]).1⟩

end Run

end TorusHyperBft.Executor
