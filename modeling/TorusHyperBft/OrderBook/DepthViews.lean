import TorusHyperBft.OrderBook.Disk

namespace TorusHyperBft.OrderBook

open List WriteBehind

/-! After every save of every run the rows on disk show the depth of the book in memory. -/

open State (StateDb)

variable {hash : StreamingHash} {mode : BookMode} {marketId : MarketId} {stored : Stored hash}
  {db : StateDb}

/-- A run of one book with the database it is saved to.  Rows of other markets come and go. -/
inductive OnDisk (mode : BookMode) (marketId : MarketId) : Stored hash → StateDb → Prop
  | new (tickSize lotSize : Int) (positive : 0 < lotSize) {db : StateDb}
      (clean : ∀ row ∈ (bookRows db).entries, ¬ toBytes 8 marketId <+: row.1) :
      OnDisk mode marketId { saving := { desk := { book := Book.new marketId tickSize lotSize } } } db
  | operate {stored : Stored hash} {db : StateDb} (op : Op) (reached : OnDisk mode marketId stored db)
      (allowed : stored.saving.desk.Allowed op) : OnDisk mode marketId (stored.operate op) db
  | save {stored : Stored hash} {db : StateDb} (levelCachePerBook : Nat)
      (reached : OnDisk mode marketId stored db) (sized : stored.book.IsSized) :
      OnDisk mode marketId (stored.save mode levelCachePerBook)
        (saveBook mode marketId levelCachePerBook stored db)
  | load {stored : Stored hash} {db : StateDb} {header : BookMeta} {rows : List OrderRow}
      {stops : List StopOrder} (reached : OnDisk mode marketId stored db)
      (finds : Stored.Finds mode marketId header rows stops stored) :
      OnDisk mode marketId (stored.load mode marketId header rows stops) db
  | elsewhere {stored : Stored hash} {db after : StateDb} (reached : OnDisk mode marketId stored db)
      (same : ∀ row : RawRow, toBytes 8 marketId <+: row.1 →
        (row ∈ (bookRows after).entries ↔ row ∈ (bookRows db).entries)) :
      OnDisk mode marketId stored after

/-- The typed rows are those of the book's mode. -/
def Rowed (mode : BookMode) (stored : Stored hash) (typed : RowKey → Option (List Byte)) : Prop :=
  typed .blob = none ∧
    (mode.isLevelAuthority = false → ∀ id, typed (.order id) = stored.orderRows id) ∧
    (mode.isLevelAuthority = true → ∀ key,
      typed (.level key) = (stored.levelRows key).map LevelRowData.encode)

/-- What is on disk for the market is what its book stored. -/
structure DiskInv (mode : BookMode) (marketId : MarketId) (stored : Stored hash) (db : StateDb) :
    Prop where
  reachable : stored.Reachable mode
  orders : ∀ id, (stored.orderRows id).isSome → id < 256 ^ 16
  levels : ∀ key, (stored.levelRows key).isSome → IsI128 key.price
  lays : ∃ typed, Lays marketId typed db ∧ Rowed mode stored typed

variable {book : Book}

section Save

theorem Book.orderRow_sized (sized : book.IsSized) {id : Nat}
    (present : (book.orderRow id).isSome) : id < 256 ^ 16 := by
  obtain ⟨bytes, row⟩ := Option.isSome_iff_exists.mp present
  obtain ⟨order, found, _⟩ := Option.map_eq_some_iff.mp row
  have same : order.id = id := by simpa using List.find?_some found
  rw [← same]
  exact (sized.orders order (mem_of_find?_eq_some found)).id

theorem Book.freshLevelRow_sized (sized : book.IsSized) (valid : book.Valid)
    {chunked : Bool} {key : LevelKey} (present : (book.freshLevelRow hash chunked key).isSome) :
    IsI128 key.price := by
  obtain ⟨order, member⟩ := exists_mem_of_ne_nil _
    ((valid.freshLevelRow_spec hash chunked key).1.mp present)
  obtain ⟨inLadder, same⟩ := mem_filter.mp member
  rw [← of_decide_eq_true same]
  exact (sized.orders order ((Book.mem_resting key.side).mpr (Or.inl inLadder))).price

theorem saveOps_sized (inv : DiskInv mode marketId stored db) (sized : stored.book.IsSized)
    (levelCachePerBook : Nat) :
    ∀ op ∈ stored.saveOps mode levelCachePerBook, op.1.IsSized := by
  have inStep := inv.reachable.inStep
  have valid : stored.book.Valid := inStep.inv.desk.sound.valid
  unfold Stored.saveOps
  cases levels : mode.isLevelAuthority with
  | false =>
    rw [if_neg (by simp)]
    intro op member
    obtain ⟨rowOp, inOps, rfl⟩ := mem_map.mp member
    change rowOp.1 < 256 ^ 16
    have computes : ∀ (state : Unit) id, True →
        ((stored.book.liveRow id, ()) : Option (List Byte) × Unit).1 = stored.book.orderRow id ∧ True :=
      fun _ id _ => ⟨valid.liveRow id, trivial⟩
    have live : ∀ op ∈ stored.saving.takeRowOps.2, op.2 = stored.book.orderRow op.1 :=
      drain_ops computes trivial (by simp) _
    rcases (drain_keys _ _ _).2 rowOp inOps with none | known | ⟨found, put⟩
    · exact absurd none not_mem_nil
    · exact inv.orders _ ((inStep.rowsKnown _).mp known)
    · exact Book.orderRow_sized sized (by rw [← live _ put]; rfl)
  | true =>
    rw [if_pos rfl]
    obtain ⟨prepared, sameDesk, chunked, _, _, levelExists, _⟩ :=
      Stored.prepare_spec levelCachePerBook inStep.inv inStep.inMode
    generalize Stored.prepare mode levelCachePerBook stored.saving = saving at *
    have sameBook : saving.book = stored.book := congrArg Desk.book sameDesk
    have drained : saving.takeRowOps.1.Inv :=
      ⟨prepared.desk, prepared.sound.cached, prepared.sound.chunked⟩
    obtain ⟨_, live, _⟩ := (sameBook ▸ valid : saving.book.Valid).takeLevelOps_spec drained.sound
    intro op member
    obtain ⟨levelOp, inOps, rfl⟩ := mem_map.mp member
    change IsI128 levelOp.1.price
    have named : levelOp.1 ∈ saving.journals.levelExists ∨
        ∃ found, (levelOp.1, some found) ∈ saving.takeRowOps.1.takeLevelOps.2 := by
      change levelOp ∈ (saving.book.takeLevelOps saving.takeRowOps.1.journals).2 at inOps
      change _ ∨ ∃ found, (levelOp.1, some found) ∈
        (saving.book.takeLevelOps saving.takeRowOps.1.journals).2
      unfold Book.takeLevelOps at inOps ⊢
      dsimp only at inOps ⊢
      split at inOps
      · rename_i on
        rw [if_pos on]
        rcases (drain_keys _ _ _).2 levelOp inOps with none | known | put
        · exact absurd none not_mem_nil
        · exact Or.inl known
        · exact Or.inr put
      · rename_i off
        rw [if_neg off]
        rcases (drain_keys _ _ _).2 levelOp inOps with none | known | put
        · exact absurd none not_mem_nil
        · exact Or.inl known
        · exact Or.inr put
    rcases named with known | ⟨found, put⟩
    · rw [levelExists] at known
      exact inv.levels _ ((inStep.levelsKnown levels _).mp known)
    · have fresh := live _ put
      rw [sameBook] at fresh
      exact Book.freshLevelRow_sized sized valid (by rw [← fresh]; rfl)

variable {typed : RowKey → Option (List Byte)}

theorem Rowed.saveOps (rowed : Rowed mode stored typed) (levelCachePerBook : Nat) :
    Rowed mode (stored.save mode levelCachePerBook)
      (WriteBehind.applyOps typed (stored.saveOps mode levelCachePerBook)) := by
  obtain ⟨noBlob, orders, levels⟩ := rowed
  unfold Stored.saveOps Stored.save
  cases authority : mode.isLevelAuthority with
  | false =>
    obtain ⟨inside, outside⟩ := @applyOps_embed Nat (List Byte) _ RowKey (List Byte) _
      RowKey.order (fun _ _ same => RowKey.order.inj same) (fun value => value) stored.orderRows typed
      (fun id => by rw [orders authority id]; simp) stored.saving.takeRowOps.2
    simp only [Bool.false_eq_true, if_false]
    refine ⟨(outside _ (by simp)).trans noBlob, fun _ id => ?_, fun on => absurd (authority ▸ on) (by simp)⟩
    rw [inside id]
    simp
  | true =>
    obtain ⟨inside, outside⟩ := @applyOps_embed LevelKey LevelRowData _ RowKey (List Byte) _
      RowKey.level (fun _ _ same => RowKey.level.inj same) LevelRowData.encode stored.levelRows typed
      (levels authority)
      (Stored.prepare mode levelCachePerBook stored.saving).takeRowOps.1.takeLevelOps.2
    simp only [if_true]
    exact ⟨(outside _ (by simp)).trans noBlob, fun off => absurd (authority ▸ off) (by simp),
      fun _ key => inside key⟩

theorem Rowed.others (rowed : Rowed mode stored typed)
    {ops : RowOps} (only : ∀ op ∈ ops, op.1 = .header ∨ ∃ id, op.1 = .stop id) :
    Rowed mode stored (WriteBehind.applyOps typed ops) := by
  have same : ∀ key : RowKey, key ≠ .header → (∀ id, key ≠ .stop id) →
      WriteBehind.applyOps typed ops key = typed key := by
    intro key notHeader notStop
    refine applyOps_absent fun op member equal => ?_
    rcases only op member with header | ⟨id, stop⟩
    · exact notHeader (equal.symm.trans header)
    · exact notStop id (equal.symm.trans stop)
  obtain ⟨noBlob, orders, levels⟩ := rowed
  refine ⟨?_, fun off id => ?_, fun on key => ?_⟩
  · rw [same _ (by simp) (by simp), noBlob]
  · rw [same _ (by simp) (by simp), orders off id]
  · rw [same _ (by simp) (by simp), levels on key]

theorem persistedStops_sized {id : Nat}
    (member : id ∈ persistedStops db marketId) : id < 256 ^ 16 := by
  obtain ⟨row, _, read⟩ := mem_filterMap.mp member
  split at read
  · rename_i shape
    cases read
    have bound := fromBytes_lt ((row.1.drop 9).take 16)
    have length : ((row.1.drop 9).take 16).length = 16 := by
      rw [length_take, length_drop, shape.1]
      rfl
    rw [length] at bound
    exact bound
  · contradiction

theorem diffStopRows_keys {stops : List StopOrder} (sized : ∀ stop ∈ stops, stop.IsSized) :
    ∀ op ∈ diffStopRows db marketId stops, op.1.IsSized ∧ ∃ id, op.1 = .stop id := by
  intro op member
  rcases mem_append.mp member with put | gone
  · obtain ⟨stop, inStops, rfl⟩ := mem_map.mp put
    exact ⟨(sized stop (mem_filter.mp inStops).1).id, stop.id, rfl⟩
  · obtain ⟨id, inPersisted, rfl⟩ := mem_map.mp gone
    exact ⟨persistedStops_sized (mem_filter.mp inPersisted).1, id, rfl⟩

theorem writeMetaIfMoved_keys (value : List Byte) :
    ∀ op ∈ writeMetaIfMoved db marketId value, op.1 = .header := by
  intro op member
  unfold writeMetaIfMoved at member
  split at member
  · exact absurd member not_mem_nil
  · rw [mem_singleton.mp member]

theorem saveBook_lays (inv : DiskInv mode marketId stored db) (market : marketId < 256 ^ 8)
    (sized : stored.book.IsSized) (levelCachePerBook : Nat) :
    ∃ typed, Lays marketId typed (saveBook mode marketId levelCachePerBook stored db) ∧
      Rowed mode (stored.save mode levelCachePerBook) typed ∧
      typed .header = some stored.book.header.encode := by
  obtain ⟨typed, lays, rowed⟩ := inv.lays
  have saved := lays.writes market (saveOps_sized inv sized levelCachePerBook)
  have savedRowed := rowed.saveOps levelCachePerBook
  unfold saveBook
  dsimp only
  generalize writeRows marketId db (stored.saveOps mode levelCachePerBook) = savedDb at saved ⊢
  generalize WriteBehind.applyOps typed (stored.saveOps mode levelCachePerBook) = savedTyped
    at saved savedRowed
  have stops := @diffStopRows_keys marketId savedDb stored.book.pendingStops sized.stops
  have stopped := saved.writes market fun op member => (stops op member).1
  have stoppedRowed := savedRowed.others fun op member => Or.inr (stops op member).2
  generalize writeRows marketId savedDb (diffStopRows savedDb marketId stored.book.pendingStops) =
    stoppedDb at stopped ⊢
  generalize WriteBehind.applyOps savedTyped (diffStopRows savedDb marketId stored.book.pendingStops) =
    stoppedTyped at stopped stoppedRowed
  have header := @writeMetaIfMoved_keys marketId stoppedDb stored.book.header.encode
  refine ⟨_, stopped.writes market fun op member => by rw [header op member]; trivial,
    stoppedRowed.others fun op member => Or.inl (header op member), ?_⟩
  unfold writeMetaIfMoved
  split
  · rename_i unmoved
    exact (stopped.rows .header trivial).symm.trans unmoved
  · change Function.update stoppedTyped RowKey.header _ RowKey.header = _
    exact Function.update_self _ _ _

theorem DiskInv.save (inv : DiskInv mode marketId stored db) (market : marketId < 256 ^ 8)
    (sized : stored.book.IsSized) (levelCachePerBook : Nat) :
    DiskInv mode marketId (stored.save mode levelCachePerBook)
      (saveBook mode marketId levelCachePerBook stored db) := by
  obtain ⟨orderRows, levelRows⟩ := Stored.save_stores_book inv.reachable levelCachePerBook
  have valid : stored.book.Valid := inv.reachable.inStep.inv.desk.sound.valid
  obtain ⟨typed, lays, rowed, _⟩ := saveBook_lays inv market sized levelCachePerBook
  refine ⟨.save levelCachePerBook inv.reachable, fun id present => ?_, fun key present => ?_,
    typed, lays, rowed⟩
  · rw [orderRows] at present
    exact Book.orderRow_sized sized present
  · cases levels : mode.isLevelAuthority with
    | true =>
      rw [levelRows levels] at present
      exact Book.freshLevelRow_sized sized valid present
    | false =>
      have kept : (stored.save mode levelCachePerBook).levelRows = stored.levelRows := by
        simp [Stored.save, levels]
      rw [kept] at present
      exact inv.levels key present

theorem OnDisk.inv (reached : OnDisk mode marketId stored db) (market : marketId < 256 ^ 8) :
    DiskInv mode marketId stored db := by
  induction reached with
  | new tickSize lotSize positive clean =>
    refine ⟨.new marketId tickSize lotSize positive, by simp, by simp, fun _ => none,
      ⟨fun key sized => ?_, fun row member under => absurd under (clean row member)⟩,
      rfl, fun _ _ => rfl, fun _ _ => rfl⟩
    rename_i db
    cases found : (bookRows db).lookup (key.bytes marketId) with
    | none => rfl
    | some value =>
      exact absurd ((RowKey.market_prefix market market key).mpr rfl)
        (clean _ (OrderedMap.lookup_eq_some.mp found))
  | operate op reached allowed ih => exact ⟨.operate op ih.reachable allowed, ih.orders, ih.levels, ih.lays⟩
  | save levelCachePerBook reached sized ih => exact ih.save market sized levelCachePerBook
  | load reached finds ih => exact ⟨.load marketId ih.reachable finds, ih.orders, ih.levels, ih.lays⟩
  | elsewhere reached same ih =>
    obtain ⟨typed, lays, rowed⟩ := ih.lays
    refine ⟨ih.reachable, ih.orders, ih.levels, typed, ⟨fun key sized => ?_, fun row member under =>
      lays.only row ((same row under).mp member) under⟩, rowed⟩
    have under := (RowKey.market_prefix market market key).mpr rfl
    rw [← lays.rows key sized]
    apply Option.ext
    intro value
    rw [OrderedMap.lookup_eq_some, OrderedMap.lookup_eq_some]
    exact same (key.bytes marketId, value) under

end Save

variable {depth : BookDepth}

section Views

theorem bookDepth_some (shaped : ∀ side, Shaped side (book.ladder side))
    (inMemory : bookDepth book = some depth) :
    (∀ side, DepthOf side (book.ladder side).orders (depth.side side)) ∧
      ∀ side price, IsI128 (totalAt (book.ladder side).orders price) := by
  obtain ⟨bids, bidDepth, rest⟩ := Option.bind_eq_some_iff.mp inMemory
  obtain ⟨asks, askDepth, same⟩ := Option.bind_eq_some_iff.mp rest
  cases same
  refine ⟨fun side => ?_, fun side price => ?_⟩
  · cases side with
    | buy => exact (shaped .buy).depthOf bidDepth
    | sell => exact (shaped .sell).depthOf askDepth
  · cases side with
    | buy => exact (shaped .buy).total_fits bidDepth price
    | sell => exact (shaped .sell).total_fits askDepth price

theorem BookDepth.ext_sides {first second : BookDepth}
    (same : ∀ side, first.side side = second.side side) :
    first = second := by
  obtain ⟨bids, asks⟩ := first
  obtain ⟨otherBids, otherAsks⟩ := second
  have bidsSame : bids = otherBids := same .buy
  have asksSame : asks = otherAsks := same .sell
  rw [bidsSame, asksSame]

def BookMode.layout : BookMode → BookLayout
  | .orderRows => .orderRows
  | .levelAuthority => .levelAuthority
  | .levelAuthorityChunked => .levelAuthority

def BookMode.markerByte : BookMode → Nat
  | .orderRows => 1
  | .levelAuthority => 2
  | .levelAuthorityChunked => 3

theorem layout_of_marker (mode : BookMode) :
    BookLayout.fromMarkerByte mode.markerByte = some mode.layout := by
  cases mode <;> rfl

theorem readBookDepth_saved (reached : OnDisk mode marketId stored db) (market : marketId < 256 ^ 8)
    (width : ∀ state, (hash.finalize state).length = 32) (sized : stored.book.IsSized)
    (inMemory : bookDepth stored.book = some depth) (levelCachePerBook : Nat) :
    readBookDepth (saveBook mode marketId levelCachePerBook stored db) marketId mode.layout =
      .ok depth := by
  have inv := reached.inv market
  have valid : stored.book.Valid := inv.reachable.inStep.inv.desk.sound.valid
  obtain ⟨orderRows, levelRows⟩ := Stored.save_stores_book inv.reachable levelCachePerBook
  obtain ⟨typed, lays, ⟨noBlob, orders, levels⟩, header⟩ :=
    saveBook_lays inv market sized levelCachePerBook
  obtain ⟨keys, listed, rows⟩ := lays.listed market
  obtain ⟨memory, totals⟩ := bookDepth_some (fun side => (valid.ladders side).shaped) inMemory
  have prices : ∀ order ∈ stored.book.resting, IsI128 order.price := fun order member =>
    (sized.orders order member).price
  have headerPresent : RowKey.header ∈ keys := (listed.keys _).mpr ⟨trivial, by rw [header]; rfl⟩
  have noBlobKey : RowKey.blob ∉ keys := fun member => by
    have present := ((listed.keys _).mp member).2
    rw [noBlob] at present
    contradiction
  obtain ⟨read, headerRead⟩ := @readMeta_found marketId typed keys
    (by rw [header]; exact BookMeta.decode_encode_ok _) headerPresent noBlobKey
  -- whichever rows there are, they have a depth of the same orders
  have fromRows : ∃ found, depthFromRows marketId mode.layout (rowsUnder marketId typed keys) =
        .ok found ∧
      ∀ side, DepthOf side (stored.book.ladder side).orders (found.side side) := by
    cases authority : mode.isLevelAuthority with
    | false =>
      have layout : mode.layout = .orderRows := by
        cases mode <;> simp [BookMode.isLevelAuthority] at authority ⊢
        rfl
      rw [layout]
      exact depthFromRows_orders listed valid sized.orders sized.sequences totals fun id _ => by
        rw [orders authority id, orderRows]
    | true =>
      have layout : mode.layout = .levelAuthority := by
        cases mode <;> simp [BookMode.isLevelAuthority] at authority ⊢ <;> rfl
      rw [layout]
      exact depthFromRows_levels listed market valid width prices totals fun key _ => by
        rw [levels authority key, levelRows authority]
  obtain ⟨found, computed, agrees⟩ := fromRows
  have same : found = depth := BookDepth.ext_sides fun side => (agrees side).unique (memory side)
  have rowLayout : mode.layout ≠ .classic := by cases mode <;> simp [BookMode.layout]
  unfold readBookDepth depthFromMarketRows
  rw [if_neg rowLayout, if_neg rowLayout, rows, headerRead, ← same]
  exact computed

end Views

section Classic

theorem foldlM_checkedAdd_fits {queue : Queue} (positive : ∀ order ∈ queue, 0 < order.remainingQty)
    {start : Int} (nonneg : 0 ≤ start)
    (fits : IsI128 (start + (queue.map Order.remainingQty).sum)) :
    ∃ total, queue.foldlM (fun total order => FixedPoint.checkedAdd total order.remainingQty) start =
      some total := by
  induction queue generalizing start with
  | nil => exact ⟨start, rfl⟩
  | cons order queue ih =>
    have own := positive order mem_cons_self
    have later : 0 ≤ (queue.map Order.remainingQty).sum := by
      refine sum_nonneg fun value member => ?_
      obtain ⟨other, inQueue, rfl⟩ := mem_map.mp member
      exact Int.le_of_lt (positive other (mem_cons_of_mem _ inQueue))
    rw [map_cons, sum_cons, ← Int.add_assoc] at fits
    have added : FixedPoint.checkedAdd start order.remainingQty = some (start + order.remainingQty) := by
      unfold FixedPoint.checkedAdd FixedPoint.fit
      refine if_pos ?_
      obtain ⟨_, high⟩ := fits
      unfold FixedPoint.minRaw FixedPoint.maxRaw
      omega
    rw [foldlM_cons, added]
    exact ih (fun other member => positive other (mem_cons_of_mem _ member)) (by omega) fits

theorem Shaped.depth_exists {side : Side} {ladder : Ladder} (shaped : Shaped side ladder)
    (positive : ∀ order ∈ ladder.orders, 0 < order.remainingQty)
    (totals : ∀ price, IsI128 (totalAt ladder.orders price)) : ∃ summed, ladder.depth = some summed := by
  have each : ∀ level ∈ ladder, ∃ total, Queue.total level.2 = some total := by
    intro level member
    have fits := totals level.1
    unfold totalAt at fits
    rw [shaped.atPrice_level member] at fits
    refine foldlM_checkedAdd_fits (fun order inQueue => ?_) (Int.le_refl 0) (by rwa [Int.zero_add])
    exact positive order (Ladder.mem_orders.mpr ⟨level, member, inQueue⟩)
  clear shaped positive totals
  unfold Ladder.depth
  induction ladder with
  | nil => exact ⟨[], rfl⟩
  | cons level ladder ih =>
    obtain ⟨total, summed⟩ := each level mem_cons_self
    obtain ⟨rest, computed⟩ := ih fun other member => each other (mem_cons_of_mem _ member)
    refine ⟨(level.1, total, level.2.length) :: rest, ?_⟩
    rw [mapM_cons, summed, computed]
    rfl

theorem insertOrder_ladder (book : Book) (order : Order) (side : Side) :
    (book.insertOrder order).ladder side =
      if order.side = side then Ladder.pushBack side order (book.ladder side) else book.ladder side := by
  unfold Book.insertOrder
  cases own : order.side <;> cases side <;> simp [Book.setLadder, Book.ladder]

theorem foldl_insertOrder_ladder (orders : List Order) {book : Book}
    (shaped : ∀ side, Shaped side (book.ladder side)) (side : Side) :
    Shaped side ((orders.foldl Book.insertOrder book).ladder side) ∧
      ((orders.foldl Book.insertOrder book).ladder side).orders.Perm
        ((book.ladder side).orders ++ onSide side orders) := by
  induction orders generalizing book with
  | nil =>
    refine ⟨shaped side, ?_⟩
    simp [onSide]
  | cons order orders ih =>
    have next : ∀ side, Shaped side ((book.insertOrder order).ladder side) := by
      intro side
      rw [insertOrder_ladder]
      split
      · exact (shaped side).pushBack order
      · exact shaped side
    obtain ⟨last, perm⟩ := ih next
    refine ⟨last, perm.trans ?_⟩
    rw [insertOrder_ladder]
    by_cases own : order.side = side
    · rw [if_pos own]
      have split : onSide side (order :: orders) = order :: onSide side orders :=
        filter_cons_of_pos (decide_eq_true own)
      rw [split]
      exact (Ladder.pushBack_orders.append_right _).trans perm_middle.symm
    · have split : onSide side (order :: orders) = onSide side orders :=
        filter_cons_of_neg (by simpa using own)
      rw [if_neg own, split]

theorem readBookDepth_classic (valid : book.Valid) (sized : book.IsSized)
    (counted : book.IsCounted) (inMemory : bookDepth book = some depth)
    (blob : (bookRows db).lookup (classicKey marketId) = some book.encodeClassic) :
    readBookDepth db marketId .classic = .ok depth := by
  obtain ⟨memory, totals⟩ := bookDepth_some (fun side => (valid.ladders side).shaped) inMemory
  obtain ⟨read, decoded, ladders⟩ := decodeClassicBook_encode sized counted
  have rebuilt : ∀ side, Shaped side (read.ladder side) ∧
      (read.ladder side).orders.Perm (book.ladder side).orders := by
    intro side
    obtain ⟨shaped, perm⟩ := @foldl_insertOrder_ladder book.classicOrders
      { Book.new book.marketId book.tickSize book.lotSize with
        nextId := book.nextId, lastTradePrice := book.lastTradePrice }
      (fun side => by cases side <;> exact ⟨List.Pairwise.nil, fun _ member => absurd member not_mem_nil⟩)
      side
    rw [← ladders side] at shaped perm
    refine ⟨shaped, perm.trans ?_⟩
    have own : (onSide side book.classicOrders).Perm (book.ladder side).orders :=
      (book.classicOrders_perm.filter _).trans (valid.onSide_resting side)
    cases side <;> exact own
  have readTotals : ∀ side price, IsI128 (totalAt (read.ladder side).orders price) := by
    intro side price
    rw [totalAt_perm (rebuilt side).2]
    exact totals side price
  have positive : ∀ side, ∀ order ∈ (read.ladder side).orders, 0 < order.remainingQty := by
    intro side order member
    exact (valid.ladders side).positive ((rebuilt side).2.mem_iff.mp member)
  obtain ⟨bids, bidDepth⟩ := (rebuilt .buy).1.depth_exists (positive .buy) (readTotals .buy)
  obtain ⟨asks, askDepth⟩ := (rebuilt .sell).1.depth_exists (positive .sell) (readTotals .sell)
  have readDepth : bookDepth read = some { bids := toLevels bids, asks := toLevels asks } := by
    change read.bids.depth = some bids at bidDepth
    change read.asks.depth = some asks at askDepth
    unfold bookDepth Book.bidDepth Book.askDepth
    rw [bidDepth, askDepth]
    rfl
  obtain ⟨readMemory, _⟩ := bookDepth_some (fun side => (rebuilt side).1) readDepth
  have same : ({ bids := toLevels bids, asks := toLevels asks } : BookDepth) = depth :=
    BookDepth.ext_sides fun side => ((readMemory side).perm (rebuilt side).2).unique (memory side)
  unfold readBookDepth
  rw [if_pos rfl, StateDb.getCfRaw_eq, visible_books, blob]
  dsimp only
  rw [decoded]
  dsimp only
  rw [readDepth, same]

end Classic

/-- Whatever run a book has had and however it is stored, a request for any number of levels is
answered with those of the book in memory.  The bytes of prices ascend from the best price on, and no
two rows of any kind share a key. -/
theorem depthViews_agree (hash : StreamingHash)
    (width : ∀ state, (hash.finalize state).length = 32) :
    (∀ (mode : BookMode) (marketId : MarketId) (stored : Stored hash) (db : StateDb),
      OnDisk mode marketId stored db → marketId < 2 ^ 64 → stored.book.IsSized →
      ∀ layout, BookLayout.fromMarkerByte mode.markerByte = some layout →
      ∀ depth, bookDepth stored.book = some depth → ∀ levelCachePerBook levels,
        readTopLevels (saveBook mode marketId levelCachePerBook stored db) marketId layout levels =
          .ok (depth.truncate levels)) ∧
    (∀ (marketId : MarketId) (desk : Desk) (db : StateDb), desk.Reachable → desk.book.IsSized →
      desk.book.IsCounted → ∀ depth, bookDepth desk.book = some depth → ∀ levels,
        readTopLevels (writeRow marketId db (.blob, some desk.book.encodeClassic)) marketId .classic
          levels = .ok (depth.truncate levels)) ∧
    (∀ (tag : Byte) (left right : Int), IsI128 left → IsI128 right →
      (priceEnc tag left < priceEnc tag right ↔ if tag = sideTagBid then right < left else left < right) ∧
      (priceEnc tag left = priceEnc tag right → left = right) ∧
      priceDec tag (priceEnc tag left) = left) ∧
    ∀ (marketId other : MarketId) (left right : RowKey), marketId < 2 ^ 64 → other < 2 ^ 64 →
      left.IsSized → right.IsSized → left.bytes marketId = right.bytes other →
        marketId = other ∧ left = right := by
  refine ⟨fun mode marketId stored db reached market sized layout marked depth inMemory
      levelCachePerBook levels => ?_,
    fun marketId desk db reachable sized counted depth inMemory levels => ?_,
    fun tag left right leftFits rightFits => ⟨priceEnc_lt_iff tag leftFits rightFits,
      priceEnc_inj tag leftFits rightFits, priceDec_priceEnc tag leftFits⟩,
    fun marketId other left right leftMarket rightMarket leftSized rightSized same =>
      RowKey.bytes_inj leftMarket rightMarket leftSized rightSized same⟩
  · rw [layout_of_marker, Option.some.injEq] at marked
    unfold readTopLevels
    rw [← marked, readBookDepth_saved reached market width sized inMemory]
    rfl
  · have blob : (bookRows (writeRow marketId db (.blob, some desk.book.encodeClassic))).lookup
        (classicKey marketId) = some desk.book.encodeClassic := by
      rw [lookup_writeRow]
      exact if_pos rfl
    unfold readTopLevels
    rw [readBookDepth_classic reachable.inv.sound.valid sized counted inMemory blob]
    rfl

section Ask

def firstBytes : StreamingHash where
  State := List Byte
  new := []
  update := (· ++ ·)
  finalize state := (state ++ List.replicate 32 0).take 32
  update_update := append_assoc

def askStored : Stored firstBytes :=
  ({ saving := { desk := { book := Book.new 1 1 1 } } } : Stored firstBytes).operate
    (.place (Book.limitOrder 1 false 10 2))

theorem askStored_onDisk : OnDisk .levelAuthorityChunked 1 askStored {} :=
  .operate _ (.new 1 1 (by decide) (by simp [bookRows]))
    (fun checked => absurd checked (by decide))

theorem askStored_sized : askStored.book.IsSized := by
  have valid : askStored.book.Valid :=
    (askStored_onDisk.inv (by decide)).reachable.inStep.inv.desk.sound.valid
  have resting : askStored.book.resting =
      [{ id := 1, trader := 1, side := .sell, price := 10, remainingQty := 2, originalQty := 2,
         orderType := .limit, timeInForce := .gtc, timestamp := 0, reduceOnly := false,
         clientOrderId := none }] := by decide
  have noTrade : askStored.book.lastTradePrice = none := by decide
  have noStops : askStored.book.pendingStops = [] := by decide
  refine ⟨by decide, ?_, ?_, by decide, by simp [noTrade], fun order member => ?_,
    fun id seq sequenced => ?_, by simp [noStops]⟩
  · exact ⟨by decide, by decide⟩
  · exact ⟨by decide, by decide⟩
  · rw [resting, mem_singleton] at member
    subst member
    exact ⟨by decide, by decide, ⟨by decide, by decide⟩, ⟨by decide, by decide⟩,
      ⟨by decide, by decide⟩, trivial, by decide, fun cloid given => absurd given (by simp)⟩
  · have below := valid.covers.bounded id seq sequenced
    have next : askStored.book.nextSeq = 2 := by decide
    rw [next] at below
    omega

theorem depthViews_agree_ask :
    readTopLevels (saveBook .levelAuthorityChunked 1 0 askStored {}) 1 .levelAuthority 3 =
      .ok { bids := [], asks := [{ price := 10, quantity := 2, orderCount := 1 }] } :=
  (depthViews_agree firstBytes (by simp [firstBytes])).1 .levelAuthorityChunked 1 askStored {}
    askStored_onDisk (by decide) askStored_sized .levelAuthority rfl
    { bids := [], asks := [{ price := 10, quantity := 2, orderCount := 1 }] } (by decide) 0 3

end Ask

end TorusHyperBft.OrderBook
