import TorusHyperBft.OrderBook.DepthLevels
import TorusHyperBft.OrderBook.Stored

namespace TorusHyperBft.OrderBook

open List

/-! The depth that is read from the rows of a market, for each layout of the rows. -/

variable {marketId : MarketId} {typed : RowKey → Option (List Byte)} {keys : List RowKey}

/-- The keys of a market's rows, in the order of their bytes. -/
structure Listed (marketId : MarketId) (typed : RowKey → Option (List Byte)) (keys : List RowKey) :
    Prop where
  sorted : keys.Pairwise fun first second => first.bytes marketId < second.bytes marketId
  keys : ∀ key, key ∈ keys ↔ key.IsSized ∧ (typed key).isSome

def rowsUnder (marketId : MarketId) (typed : RowKey → Option (List Byte)) (keys : List RowKey) :
    List RawRow :=
  keys.map fun key => (key.bytes marketId, (typed key).getD [])

section Header

theorem observe_bytes (check : MarketRowsCheck) (key : RowKey) (value : List Byte) :
    check.observe marketId (key.bytes marketId, value) =
      match key with
      | .header =>
        match BookMeta.decode value with
        | .ok header => .ok { check with header := some header }
        | .error error => .error (.metaRow marketId error)
      | .blob => .error (.classicBlobUnderRows marketId)
      | _ => .ok { check with hasOtherRows := true } := by
  unfold MarketRowsCheck.observe
  dsimp only
  rw [RowKey.keyShape_bytes]
  cases key <;> rfl

theorem readMeta_found (header : ∃ read, BookMeta.decode ((typed .header).getD []) = .ok read)
    (present : RowKey.header ∈ keys) (noBlob : RowKey.blob ∉ keys) :
    ∃ read, readMeta marketId (rowsUnder marketId typed keys) = .ok (some read) := by
  have walk : ∀ keys : List RowKey, RowKey.blob ∉ keys → ∀ check : MarketRowsCheck,
      ∃ after, (rowsUnder marketId typed keys).foldlM (MarketRowsCheck.observe marketId) check =
          .ok after ∧
        (after.header.isSome ↔ check.header.isSome ∨ RowKey.header ∈ keys) := by
    intro keys noBlob
    induction keys with
    | nil => exact fun check => ⟨check, rfl, by simp⟩
    | cons key keys ih =>
      intro check
      obtain ⟨notBlob, rest⟩ := not_or.mp (mt mem_cons.mpr noBlob)
      have step : ∃ next, check.observe marketId (key.bytes marketId, (typed key).getD []) =
            .ok next ∧
          (next.header.isSome ↔ check.header.isSome ∨ RowKey.header = key) := by
        rw [observe_bytes]
        cases key with
        | blob => exact absurd rfl notBlob
        | header =>
          obtain ⟨read, decoded⟩ := header
          rw [decoded]
          exact ⟨_, rfl, by simp⟩
        | order id => exact ⟨_, rfl, by simp⟩
        | stop id => exact ⟨_, rfl, by simp⟩
        | level level => exact ⟨_, rfl, by simp⟩
      obtain ⟨next, stepped, found⟩ := step
      obtain ⟨after, walked, foundLater⟩ := ih rest next
      refine ⟨after, ?_, ?_⟩
      · rw [rowsUnder, map_cons, foldlM_cons, stepped]
        exact walked
      · rw [foundLater, found, mem_cons, or_assoc]
  obtain ⟨after, walked, found⟩ := walk keys noBlob {}
  obtain ⟨read, isRead⟩ := Option.isSome_iff_exists.mp (found.mpr (Or.inr present))
  refine ⟨read, ?_⟩
  unfold readMeta
  rw [walked]
  change MarketRowsCheck.finish marketId after = _
  unfold MarketRowsCheck.finish
  rw [isRead]
  rfl

end Header

variable {book : Book}

section Levels

variable {data : LevelKey → LevelRowData}

def levelOn (data : LevelKey → LevelRowData) (side : Side) : RowKey → Option DepthLevel
  | .level key =>
    if key.side = side then some
      { price := key.price
        quantity := (data key).totalQtyRaw
        orderCount := (data key).orderCount % 2 ^ 32 }
    else none
  | _ => none

theorem sideFromTag_tag (side : Side) : sideFromTag side.tag = some side := by
  cases side <;> rfl

theorem BookDepth.push_side (depth : BookDepth) (pushed side : Side) (level : DepthLevel) :
    (depth.push pushed level).side side =
      depth.side side ++ if pushed = side then [level] else [] := by
  cases pushed <;> cases side <;> simp [BookDepth.push, BookDepth.side]

theorem addLevelRow_level (depth : BookDepth) {key : LevelKey} (sized : IsI128 key.price)
    (hash : (data key).levelHash.length = 32) (total : IsI128 (data key).totalQtyRaw) :
    addLevelRow marketId depth ((RowKey.level key).bytes marketId, (data key).encode) =
      .ok (depth.push key.side
        { price := key.price
          quantity := (data key).totalQtyRaw
          orderCount := (data key).orderCount % 2 ^ 32 }) := by
  have market : (toBytes 8 marketId).length = 8 := toBytes_length _ _
  have tag : ((RowKey.level key).bytes marketId).getD 9 0 = key.side.tag := by
    rw [RowKey.bytes_eq, getD_eq_getElem?_getD, List.getElem?_append_right (by omega), market]
    rfl
  have price : (((RowKey.level key).bytes marketId).drop 10).take 16 = priceEnc key.side.tag key.price := by
    have split : (RowKey.level key).bytes marketId =
        (toBytes 8 marketId ++ [rowTagLevel, key.side.tag]) ++ priceEnc key.side.tag key.price := by
      rw [RowKey.bytes_eq, append_assoc]
      rfl
    rw [split, List.drop_left' (by rw [length_append, market]; rfl)]
    exact take_of_length_le (by rw [priceEnc_length])
  unfold addLevelRow
  dsimp only
  rw [RowKey.keyShape_bytes, if_neg (by simp [RowKey.shape]), LevelRowData.decode_encode hash total]
  dsimp only
  rw [tag, sideFromTag_tag, price, priceDec_priceEnc _ sized]

theorem addLevelRow_other (depth : BookDepth) {key : RowKey} (other : ∀ level, key ≠ .level level)
    (value : List Byte) : addLevelRow marketId depth (key.bytes marketId, value) = .ok depth := by
  unfold addLevelRow
  dsimp only
  rw [RowKey.keyShape_bytes, if_pos]
  cases key with
  | level level => exact absurd rfl (other level)
  | _ => simp [RowKey.shape]

theorem foldlM_addLevelRow {keys : List RowKey} (sized : ∀ key ∈ keys, key.IsSized)
    (stored : ∀ key, RowKey.level key ∈ keys → typed (.level key) = some (data key).encode ∧
      (data key).levelHash.length = 32 ∧ IsI128 (data key).totalQtyRaw) (depth : BookDepth) :
    ∃ after, (rowsUnder marketId typed keys).foldlM (addLevelRow marketId) depth = .ok after ∧
      ∀ side, after.side side = depth.side side ++ keys.filterMap (levelOn data side) := by
  induction keys generalizing depth with
  | nil => exact ⟨depth, rfl, fun side => by simp⟩
  | cons key keys ih =>
    have step : ∃ next, addLevelRow marketId depth (key.bytes marketId, (typed key).getD []) =
          .ok next ∧
        ∀ side, next.side side = depth.side side ++ (levelOn data side key).toList := by
      cases key with
      | level level =>
        obtain ⟨value, hash, total⟩ := stored level mem_cons_self
        have added := @addLevelRow_level marketId data depth level (sized _ mem_cons_self) hash
          total
        rw [value, Option.getD_some]
        refine ⟨_, added, fun side => ?_⟩
        · rw [BookDepth.push_side, levelOn]
          by_cases own : level.side = side <;> simp [own]
      | blob => exact ⟨depth, addLevelRow_other depth (by simp) _, by simp [levelOn]⟩
      | header => exact ⟨depth, addLevelRow_other depth (by simp) _, by simp [levelOn]⟩
      | order id => exact ⟨depth, addLevelRow_other depth (by simp) _, by simp [levelOn]⟩
      | stop id => exact ⟨depth, addLevelRow_other depth (by simp) _, by simp [levelOn]⟩
    obtain ⟨next, stepped, pushed⟩ := step
    obtain ⟨after, walked, all⟩ := ih (fun key later => sized key (mem_cons_of_mem _ later))
      (fun level later => stored level (mem_cons_of_mem _ later)) next
    refine ⟨after, ?_, fun side => ?_⟩
    · rw [rowsUnder, map_cons, foldlM_cons, stepped]
      exact walked
    · rw [all side, pushed side, append_assoc]
      cases level : levelOn data side key <;> simp [level]

theorem level_bytes_lt {side : Side} {first second : Int} (market : marketId < 256 ^ 8)
    (firstSized : IsI128 first) (secondSized : IsI128 second) :
    (RowKey.level ⟨side, first⟩).bytes marketId < (RowKey.level ⟨side, second⟩).bytes marketId ↔
      betterPrice side first second = true := by
  rw [RowKey.bytes_eq, RowKey.bytes_eq, toBytes_append_lt market market]
  simp only [RowKey.tail, cons_lt_cons_iff, lt_self_iff_false, false_or, true_and,
    priceEnc_lt_iff _ firstSized secondSized]
  cases side <;> simp [Side.tag, sideTagBid, sideTagAsk, betterPrice]

theorem mem_levelOn {side : Side} {level : DepthLevel} :
    level ∈ keys.filterMap (levelOn data side) ↔ RowKey.level ⟨side, level.price⟩ ∈ keys ∧
      level.quantity = (data ⟨side, level.price⟩).totalQtyRaw ∧
      level.orderCount = (data ⟨side, level.price⟩).orderCount % 2 ^ 32 := by
  rw [mem_filterMap]
  constructor
  · rintro ⟨key, member, read⟩
    cases key with
    | level key =>
      rw [levelOn] at read
      split at read
      · rename_i own
        cases read
        subst own
        exact ⟨member, rfl, rfl⟩
      · contradiction
    | _ => contradiction
  · rintro ⟨member, quantity, count⟩
    refine ⟨_, member, ?_⟩
    rw [levelOn, if_pos rfl, ← quantity, ← count]

theorem depthFromRows_levels {hash : StreamingHash} {chunked : Bool}
    (listed : Listed marketId typed keys) (market : marketId < 256 ^ 8) (valid : book.Valid)
    (width : ∀ state, (hash.finalize state).length = 32)
    (prices : ∀ order ∈ book.resting, IsI128 order.price)
    (totals : ∀ side price, IsI128 (totalAt (book.ladder side).orders price))
    (stored : ∀ key, IsI128 key.price →
      typed (.level key) = (book.freshLevelRow hash chunked key).map LevelRowData.encode) :
    ∃ depth, depthFromRows marketId .levelAuthority (rowsUnder marketId typed keys) = .ok depth ∧
      ∀ side, DepthOf side (book.ladder side).orders (depth.side side) := by
  obtain ⟨data, isData⟩ : ∃ data : LevelKey → LevelRowData,
      ∀ key, data key = (book.freshLevelRow hash chunked key).getD ⟨0, 0, []⟩ := ⟨_, fun _ => rfl⟩
  have present : ∀ key, RowKey.level key ∈ keys ↔
      atPrice (book.ladder key.side).orders key.price ≠ [] := by
    intro key
    rw [listed.keys]
    change IsI128 key.price ∧ _ ↔ _
    constructor
    · rintro ⟨sized, isStored⟩
      rw [stored key sized, Option.isSome_map] at isStored
      exact (valid.freshLevelRow_spec hash chunked key).1.mp isStored
    · intro some
      obtain ⟨order, member⟩ := exists_mem_of_ne_nil _ some
      obtain ⟨inLadder, same⟩ := mem_filter.mp member
      have sized : IsI128 key.price := by
        rw [← of_decide_eq_true same]
        exact prices order ((Book.mem_resting key.side).mpr (Or.inl inLadder))
      refine ⟨sized, ?_⟩
      rw [stored key sized, Option.isSome_map]
      exact (valid.freshLevelRow_spec hash chunked key).1.mpr some
  have written : ∀ key, RowKey.level key ∈ keys → book.freshLevelRow hash chunked key = some (data key) := by
    intro key member
    obtain ⟨found, fresh⟩ := Option.isSome_iff_exists.mp
      ((valid.freshLevelRow_spec hash chunked key).1.mpr ((present key).mp member))
    rw [isData, fresh]
    rfl
  have sized : ∀ key ∈ keys, key.IsSized := fun key member => ((listed.keys key).mp member).1
  obtain ⟨depth, walked, sides⟩ := @foldlM_addLevelRow marketId typed data keys sized
    (fun key member => by
      have fresh := written key member
      obtain ⟨total, _, state, digest⟩ := (valid.freshLevelRow_spec hash chunked key).2 _ fresh
      refine ⟨?_, ?_, ?_⟩
      · rw [stored key (sized _ member), fresh]
        rfl
      · rw [digest, width]
      · rw [total]
        exact totals key.side key.price) {}
  refine ⟨depth, walked, fun side => ?_⟩
  have read : depth.side side = keys.filterMap (levelOn data side) := by
    rw [sides side]
    cases side <;> rfl
  rw [read]
  refine ⟨?_, fun level => ?_⟩
  · rw [pairwise_filterMap]
    refine listed.sorted.imp_of_mem fun {first second} inFirst inSecond below level readFirst other
      readSecond => ?_
    cases first with
    | level firstKey =>
      cases second with
      | level secondKey =>
        rw [levelOn] at readFirst readSecond
        split at readFirst
        · split at readSecond
          · rename_i firstSide secondSide
            obtain ⟨_, firstPrice⟩ := firstKey
            obtain ⟨_, secondPrice⟩ := secondKey
            dsimp only at firstSide secondSide
            subst firstSide
            subst secondSide
            cases readFirst
            cases readSecond
            exact (level_bytes_lt market (sized _ inFirst) (sized _ inSecond)).mp below
          · contradiction
        · contradiction
      | _ => contradiction
    | _ => contradiction
  · rw [mem_levelOn, present]
    refine and_congr_right fun some => ?_
    have fresh := written ⟨side, level.price⟩ ((present _).mpr some)
    obtain ⟨total, count, _⟩ := (valid.freshLevelRow_spec hash chunked ⟨side, level.price⟩).2 _ fresh
    rw [total, count]

end Levels

section Orders

theorem lookup_foldl_add (orders : List Order) (price : Int) :
    (orders.foldl PriceTotals.add ({} : PriceTotals)).lookup price =
      if atPrice orders price = [] then none
      else some ((totalAt orders price).bmod (2 ^ 128), (atPrice orders price).length % 2 ^ 32) := by
  induction orders using List.reverseRecOn generalizing price with
  | nil => rfl
  | append_singleton orders order ih =>
    rw [foldl_append, foldl_cons, foldl_nil]
    generalize orders.foldl PriceTotals.add ({} : PriceTotals) = totals at ih ⊢
    have inserted : totals.add order = totals.insert order.price
        ((((totals.lookup order.price).getD (0, 0)).1 + order.remainingQty).bmod (2 ^ 128),
          (((totals.lookup order.price).getD (0, 0)).2 + 1) % 2 ^ 32) := rfl
    rw [inserted, OrderedMap.lookup_insert, ih order.price]
    by_cases own : price = order.price
    · subst own
      have added : atPrice (orders ++ [order]) order.price = atPrice orders order.price ++ [order] := by
        rw [atPrice_append]
        simp [atPrice]
      have total : totalAt (orders ++ [order]) order.price =
          totalAt orders order.price + order.remainingQty := by
        unfold totalAt
        rw [added]
        simp
      have nonempty : ¬ atPrice orders order.price ++ [order] = [] := by simp
      rw [if_pos rfl, added, total, if_neg nonempty]
      by_cases empty : atPrice orders order.price = []
      · have nothing : totalAt orders order.price = 0 := by
          unfold totalAt
          rw [empty]
          rfl
        rw [if_pos empty, nothing, empty]
        simp
      · rw [if_neg empty]
        dsimp only [Option.getD_some]
        rw [Int.bmod_add_bmod, length_append, Nat.mod_add_mod]
        rfl
    · have same : atPrice (orders ++ [order]) price = atPrice orders price := by
        rw [atPrice_append]
        simp [atPrice, Ne.symm own]
      have total : totalAt (orders ++ [order]) price = totalAt orders price := by
        unfold totalAt
        rw [same]
      rw [if_neg own, ih price, same, total]

theorem bmod_of_isI128 {raw : Int} (fits : IsI128 raw) : raw.bmod (2 ^ 128) = raw := by
  obtain ⟨low, high⟩ := fits
  exact Int.bmod_eq_of_le (by omega) (by omega)

theorem depthOf_totals {orders : List Order} (fits : ∀ price, IsI128 (totalAt orders price)) :
    DepthOf .sell orders (orders.foldl PriceTotals.add {}).levels ∧
      DepthOf .buy orders (orders.foldl PriceTotals.add {}).levels.reverse := by
  have lookup := lookup_foldl_add orders
  generalize orders.foldl PriceTotals.add {} = totals at lookup ⊢
  have levels : ∀ level, level ∈ totals.levels ↔ atPrice orders level.price ≠ [] ∧
      level.quantity = totalAt orders level.price ∧
      level.orderCount = (atPrice orders level.price).length % 2 ^ 32 := by
    intro level
    unfold PriceTotals.levels
    rw [mem_map]
    constructor
    · rintro ⟨⟨price, qty, count⟩, member, rfl⟩
      have found := lookup price
      rw [OrderedMap.lookup_eq_some.mpr member, bmod_of_isI128 (fits price)] at found
      split at found
      · contradiction
      · rename_i some
        cases found
        exact ⟨some, rfl, rfl⟩
    · rintro ⟨some, quantity, count⟩
      have found := lookup level.price
      rw [if_neg some, bmod_of_isI128 (fits level.price), ← quantity, ← count] at found
      exact ⟨_, OrderedMap.lookup_eq_some.mp found, rfl⟩
  have sorted : totals.levels.Pairwise fun first second => first.price < second.price :=
    pairwise_map.mpr totals.ascends
  refine ⟨⟨sorted.imp fun {_ _} below => by simpa [betterPrice] using below, levels⟩,
    ⟨?_, fun level => by rw [mem_reverse]; exact levels level⟩⟩
  rw [pairwise_reverse]
  exact sorted.imp fun {_ _} below => by simpa [betterPrice] using below

def orderUnder (book : Book) : RowKey → Option Order
  | .order id => book.resting.find? fun order => order.id = id
  | _ => none

def onSide (side : Side) (orders : List Order) : List Order :=
  orders.filter fun order => decide (order.side = side)

theorem addOrderRow_order (totals : PriceTotals × PriceTotals) {id seq : Nat} {order : Order}
    (seqSized : seq < 256 ^ 8) (sized : order.IsSized) :
    addOrderRow marketId totals ((RowKey.order id).bytes marketId, encodeOrderRow (seq, order)) =
      .ok ((onSide .buy [order]).foldl PriceTotals.add totals.1,
        (onSide .sell [order]).foldl PriceTotals.add totals.2) := by
  unfold addOrderRow
  dsimp only
  rw [RowKey.keyShape_bytes, if_neg (by simp [RowKey.shape]), decodeOrderRow_encode seqSized sized]
  dsimp only
  cases side : order.side <;> simp [onSide, side]

theorem addOrderRow_other (totals : PriceTotals × PriceTotals) {key : RowKey}
    (other : ∀ id, key ≠ .order id) (value : List Byte) :
    addOrderRow marketId totals (key.bytes marketId, value) = .ok totals := by
  unfold addOrderRow
  dsimp only
  rw [RowKey.keyShape_bytes, if_pos]
  cases key with
  | order id => exact absurd rfl (other id)
  | _ => simp [RowKey.shape]

theorem foldlM_addOrderRow {book : Book} {keys : List RowKey}
    (stored : ∀ id, RowKey.order id ∈ keys → ∃ seq order,
      typed (.order id) = some (encodeOrderRow (seq, order)) ∧
      orderUnder book (.order id) = some order ∧ seq < 256 ^ 8 ∧ order.IsSized)
    (totals : PriceTotals × PriceTotals) :
    (rowsUnder marketId typed keys).foldlM (addOrderRow marketId) totals =
      .ok ((onSide .buy (keys.filterMap (orderUnder book))).foldl PriceTotals.add totals.1,
        (onSide .sell (keys.filterMap (orderUnder book))).foldl PriceTotals.add totals.2) := by
  induction keys generalizing totals with
  | nil => rfl
  | cons key keys ih =>
    have step : addOrderRow marketId totals (key.bytes marketId, (typed key).getD []) =
        .ok ((onSide .buy (orderUnder book key).toList).foldl PriceTotals.add totals.1,
          (onSide .sell (orderUnder book key).toList).foldl PriceTotals.add totals.2) := by
      cases key with
      | order id =>
        obtain ⟨seq, order, value, found, seqSized, sized⟩ := stored id mem_cons_self
        rw [value, found]
        exact addOrderRow_order totals seqSized sized
      | blob => exact addOrderRow_other totals (by simp) _
      | header => exact addOrderRow_other totals (by simp) _
      | stop id => exact addOrderRow_other totals (by simp) _
      | level level => exact addOrderRow_other totals (by simp) _
    have split : ∀ side, onSide side ((key :: keys).filterMap (orderUnder book)) =
        onSide side (orderUnder book key).toList ++
          onSide side (keys.filterMap (orderUnder book)) := by
      intro side
      cases found : orderUnder book key <;> simp [onSide, found, filter_cons]
      split <;> rfl
    rw [rowsUnder, map_cons, foldlM_cons, step, split, split, foldl_append,
      foldl_append]
    exact ih (fun id later => stored id (mem_cons_of_mem _ later)) _

theorem filterMap_orderUnder (listed : Listed marketId typed keys) (valid : book.Valid)
    (sized : ∀ order ∈ book.resting, order.IsSized)
    (stored : ∀ id, id < 256 ^ 16 → typed (.order id) = book.orderRow id) :
    (keys.filterMap (orderUnder book)).Perm book.resting := by
  have found : ∀ key order, orderUnder book key = some order ↔
      key = .order order.id ∧ order ∈ book.resting := by
    intro key order
    constructor
    · intro under
      cases key with
      | order id =>
        have same : order.id = id := by simpa using List.find?_some under
        rw [same]
        exact ⟨rfl, mem_of_find?_eq_some under⟩
      | _ => contradiction
    · rintro ⟨rfl, member⟩
      have row := valid.orderRow_of_resting member
      obtain ⟨other, under, _⟩ := Option.map_eq_some_iff.mp row
      have same : other.id = order.id := by simpa using List.find?_some under
      rw [orderUnder, under, valid.eq_of_id (mem_of_find?_eq_some under) member same]
  have nodup : keys.Nodup := listed.sorted.imp fun {_ _} below same => by
    rw [same] at below
    exact absurd below (lt_irrefl _)
  have once : (keys.filterMap (orderUnder book)).Nodup := by
    refine nodup.filterMap fun first second order inFirst inSecond => ?_
    rw [((found first order).mp inFirst).1, ((found second order).mp inSecond).1]
  refine (perm_ext_iff_of_nodup once (List.Nodup.of_map _ valid.nodup)).mpr fun order => ?_
  rw [mem_filterMap]
  constructor
  · rintro ⟨key, _, under⟩
    exact ((found key order).mp under).2
  · intro member
    refine ⟨.order order.id, (listed.keys _).mpr ⟨(sized order member).id, ?_⟩,
      (found _ _).mpr ⟨rfl, member⟩⟩
    rw [stored _ (sized order member).id, valid.orderRow_of_resting member]
    rfl

theorem Book.Valid.onSide_resting (valid : book.Valid) (side : Side) :
    (onSide side book.resting).Perm (book.ladder side).orders := by
  have own : ∀ ladderSide, ∀ order ∈ (book.ladder ladderSide).orders, order.side = ladderSide :=
    fun ladderSide order member => (valid.ladders ladderSide).placed member
  have split := (Book.resting_perm book side).filter fun order => decide (order.side = side)
  have mine : (book.ladder side).orders.filter (fun order => decide (order.side = side)) =
      (book.ladder side).orders :=
    filter_eq_self.mpr fun order member => decide_eq_true (own side order member)
  have theirs : (book.ladder side.opposite).orders.filter (fun order => decide (order.side = side)) =
      [] := by
    refine filter_eq_nil_iff.mpr fun order member same => ?_
    have opposite := own side.opposite order member
    rw [of_decide_eq_true same] at opposite
    cases side <;> contradiction
  rwa [filter_append, mine, theirs, append_nil] at split

theorem depthFromRows_orders (listed : Listed marketId typed keys) (valid : book.Valid)
    (sized : ∀ order ∈ book.resting, order.IsSized)
    (sequences : ∀ id seq, book.indexes.orderSeq id = some seq → seq < 256 ^ 8)
    (totals : ∀ side price, IsI128 (totalAt (book.ladder side).orders price))
    (stored : ∀ id, id < 256 ^ 16 → typed (.order id) = book.orderRow id) :
    ∃ depth, depthFromRows marketId .orderRows (rowsUnder marketId typed keys) = .ok depth ∧
      ∀ side, DepthOf side (book.ladder side).orders (depth.side side) := by
  have perm := filterMap_orderUnder listed valid sized stored
  have walked := @foldlM_addOrderRow marketId typed book keys (fun id member => by
    obtain ⟨idSized, present⟩ := (listed.keys _).mp member
    rw [stored id idSized] at present
    obtain ⟨bytes, row⟩ := Option.isSome_iff_exists.mp present
    obtain ⟨order, under, encoded⟩ := Option.map_eq_some_iff.mp row
    have rests := mem_of_find?_eq_some under
    obtain ⟨seq, sequenced⟩ := valid.seq_of_resting rests
    refine ⟨seq, order, ?_, under, sequences _ _ sequenced, sized order rests⟩
    rw [stored id idSized, row, ← encoded]
    simp [Order.row, sequenced]) ({}, {})
  have sides : ∀ side, (onSide side (keys.filterMap (orderUnder book))).Perm
      (book.ladder side).orders := fun side =>
    (perm.filter _).trans (valid.onSide_resting side)
  have fits : ∀ side price, IsI128 (totalAt (onSide side (keys.filterMap (orderUnder book))) price) := by
    intro side price
    rw [totalAt_perm (sides side)]
    exact totals side price
  refine ⟨⟨((onSide .buy (keys.filterMap (orderUnder book))).foldl PriceTotals.add
      ({} : PriceTotals)).levels.reverse, ((onSide .sell (keys.filterMap (orderUnder book))).foldl
      PriceTotals.add ({} : PriceTotals)).levels⟩, ?_, fun side => ?_⟩
  · unfold depthFromRows
    dsimp only
    rw [walked]
    rfl
  · cases side with
    | buy => exact (depthOf_totals (fits .buy)).2.perm (sides .buy)
    | sell => exact (depthOf_totals (fits .sell)).1.perm (sides .sell)

end Orders

end TorusHyperBft.OrderBook
