import TorusHyperBft.OrderBook.DepthRows

namespace TorusHyperBft.OrderBook

open List

/-! The rows of a book in the database, from save to save. -/

open State (StateDb startsWith startsWith_iff)

abbrev RowOps := WriteBehind.Ops RowKey (List Byte)

def bookRows (db : StateDb) : OrderedMap (List Byte) (List Byte) := db.rows .nativeOrderBooks

def setBookRows (db : StateDb) (rows : OrderedMap (List Byte) (List Byte)) : StateDb :=
  { db with rows := fun cf => if cf = .nativeOrderBooks then rows else db.rows cf }

def writeRow (marketId : MarketId) (db : StateDb) (op : RowKey × Option (List Byte)) : StateDb :=
  setBookRows db (match op.2 with
    | some value => (bookRows db).insert (op.1.bytes marketId) value
    | none => (bookRows db).erase (op.1.bytes marketId))

def writeRows (marketId : MarketId) (db : StateDb) (ops : RowOps) : StateDb :=
  ops.foldl (writeRow marketId) db

def persistedStops (db : StateDb) (marketId : MarketId) : List Nat :=
  (db.iterateCf .nativeOrderBooks (some (toBytes 8 marketId ++ [rowTagStop]))).filterMap fun row =>
    if row.1.length = 25 ∧ row.1[8]? = some rowTagStop then some (field row.1 9 16) else none

/-- A stop never changes: rows of new ones are put, and rows of those that are gone deleted. -/
def diffStopRows (db : StateDb) (marketId : MarketId) (stops : List StopOrder) : RowOps :=
  let persisted := persistedStops db marketId
  let live := stops.map StopOrder.id
  (stops.filter fun stop => stop.id ∉ persisted).map (fun stop => (.stop stop.id, some stop.serialize)) ++
    (persisted.filter fun id => id ∉ live).map fun id => (.stop id, none)

def Book.header (book : Book) : BookMeta where
  nextSeq := book.nextSeq
  tickSize := book.tickSize
  lotSize := book.lotSize
  nextId := book.nextId
  lastTradePrice := book.lastTradePrice

def writeMetaIfMoved (db : StateDb) (marketId : MarketId) (value : List Byte) : RowOps :=
  if (bookRows db).lookup (bookMetaKey marketId) = some value then []
  else [(.header, some value)]

section Save

variable {hash : StreamingHash}

/-- The row operations of a save in the family that is part of the state root.  Where levels are
stored, the order rows go to a family of their own. -/
def Stored.saveOps (mode : BookMode) (levelCachePerBook : Nat) (stored : Stored hash) : RowOps :=
  if mode.isLevelAuthority then
    ((Stored.prepare mode levelCachePerBook stored.saving).takeRowOps.1.takeLevelOps.2).map
      fun op => (.level op.1, op.2.map LevelRowData.encode)
  else stored.saving.takeRowOps.2.map fun op => (.order op.1, op.2.map fun value => value)

def saveBook (mode : BookMode) (marketId : MarketId) (levelCachePerBook : Nat) (stored : Stored hash)
    (db : StateDb) : StateDb :=
  let saved := writeRows marketId db (stored.saveOps mode levelCachePerBook)
  let stopped := writeRows marketId saved (diffStopRows saved marketId stored.book.pendingStops)
  writeRows marketId stopped (writeMetaIfMoved stopped marketId stored.book.header.encode)

end Save

/-- The rows under the number of a market are these. -/
structure Lays (marketId : MarketId) (typed : RowKey → Option (List Byte)) (db : StateDb) : Prop where
  rows : ∀ key : RowKey, key.IsSized → (bookRows db).lookup (key.bytes marketId) = typed key
  only : ∀ row ∈ (bookRows db).entries, toBytes 8 marketId <+: row.1 →
    ∃ key : RowKey, key.IsSized ∧ row.1 = key.bytes marketId

section Lays

variable {marketId : MarketId} {typed : RowKey → Option (List Byte)} {db : StateDb}

@[simp] theorem bookRows_setBookRows (rows : OrderedMap (List Byte) (List Byte)) :
    bookRows (setBookRows db rows) = rows := by
  simp [bookRows, setBookRows]

theorem lookup_writeRow (op : RowKey × Option (List Byte)) (key : List Byte) :
    (bookRows (writeRow marketId db op)).lookup key =
      if key = op.1.bytes marketId then op.2 else (bookRows db).lookup key := by
  unfold writeRow
  rw [bookRows_setBookRows]
  cases op.2 with
  | some value =>
    dsimp only
    rw [OrderedMap.lookup_insert]
    congr
  | none =>
    dsimp only
    rw [OrderedMap.lookup_erase]
    congr

theorem Lays.write (lays : Lays marketId typed db) (market : marketId < 256 ^ 8)
    {op : RowKey × Option (List Byte)} (sized : op.1.IsSized) :
    Lays marketId (Function.update typed op.1 op.2) (writeRow marketId db op) where
  rows key keySized := by
    rw [lookup_writeRow]
    by_cases same : key = op.1
    · rw [same, if_pos rfl, Function.update_self]
    · have apart : key.bytes marketId ≠ op.1.bytes marketId := fun equal =>
        same (RowKey.bytes_inj market market keySized sized equal).2
      rw [if_neg apart, Function.update_of_ne same, lays.rows key keySized]
  only row member under := by
    have found := @lookup_writeRow marketId db op row.1
    rw [OrderedMap.lookup_eq_some.mpr member] at found
    by_cases same : row.1 = op.1.bytes marketId
    · exact ⟨op.1, sized, same⟩
    · rw [if_neg same] at found
      exact lays.only (row.1, row.2) (OrderedMap.lookup_eq_some.mp found.symm) under

theorem Lays.writes (lays : Lays marketId typed db) (market : marketId < 256 ^ 8) {ops : RowOps}
    (sized : ∀ op ∈ ops, op.1.IsSized) :
    Lays marketId (WriteBehind.applyOps typed ops) (writeRows marketId db ops) := by
  induction ops generalizing typed db with
  | nil => exact lays
  | cons op ops ih =>
    exact ih (lays.write market (sized op mem_cons_self))
      fun later member => sized later (mem_cons_of_mem _ member)

theorem visible_books (db : StateDb) : db.visible .nativeOrderBooks = bookRows db := by
  have shown : ∀ key, db.isHidden .nativeOrderBooks key = false := by
    intro key
    unfold StateDb.isHidden State.heightKeyedKeyLen
    split <;> rfl
  unfold StateDb.visible bookRows
  simp only [shown]
  cases db.rows .nativeOrderBooks
  simp [OrderedMap.select]

theorem mem_marketRows {row : RawRow} : row ∈ marketRows db marketId ↔
    row ∈ (bookRows db).entries ∧ toBytes 8 marketId <+: row.1 := by
  unfold marketRows
  rw [StateDb.iterateCf_eq, visible_books]
  simp only [OrderedMap.select, Option.getD_some, mem_filter]
  rw [startsWith_iff]

theorem exists_keys {rows : List RawRow}
    (each : ∀ row ∈ rows, ∃ key : RowKey, key.IsSized ∧ row = (key.bytes marketId, (typed key).getD []) ∧
      (typed key).isSome) :
    ∃ keys : List RowKey, rows = rowsUnder marketId typed keys ∧
      ∀ key ∈ keys, key.IsSized ∧ (typed key).isSome := by
  induction rows with
  | nil => exact ⟨[], rfl, fun key member => absurd member not_mem_nil⟩
  | cons row rows ih =>
    obtain ⟨key, sized, same, present⟩ := each row mem_cons_self
    obtain ⟨keys, rest, good⟩ := ih fun later member => each later (mem_cons_of_mem _ member)
    refine ⟨key :: keys, by rw [same, rest]; rfl, fun other member => ?_⟩
    rcases mem_cons.mp member with rfl | member
    · exact ⟨sized, present⟩
    · exact good other member

theorem Lays.listed (lays : Lays marketId typed db) (market : marketId < 256 ^ 8) :
    ∃ keys, Listed marketId typed keys ∧ marketRows db marketId = rowsUnder marketId typed keys := by
  have ascends : Ascends (marketRows db marketId) := by
    unfold marketRows
    rw [StateDb.iterateCf_eq]
    exact OrderedMap.ascends _
  obtain ⟨keys, same, good⟩ := @exists_keys marketId typed (marketRows db marketId) fun row member => by
    obtain ⟨stored, under⟩ := mem_marketRows.mp member
    obtain ⟨key, sized, isKey⟩ := lays.only row stored under
    have found := lays.rows key sized
    rw [← isKey, OrderedMap.lookup_eq_some.mpr stored] at found
    refine ⟨key, sized, ?_, ?_⟩
    · rw [← isKey, ← found]
      rfl
    · rw [← found]
      rfl
  refine ⟨keys, ⟨?_, fun key => ⟨good key, fun ⟨sized, present⟩ => ?_⟩⟩, same⟩
  · rw [same] at ascends
    unfold Ascends rowsUnder at ascends
    rwa [pairwise_map] at ascends
  · obtain ⟨value, found⟩ := Option.isSome_iff_exists.mp present
    have stored : (key.bytes marketId, value) ∈ (bookRows db).entries :=
      OrderedMap.lookup_eq_some.mp ((lays.rows key sized).trans found)
    have member : (key.bytes marketId, value) ∈ marketRows db marketId :=
      mem_marketRows.mpr ⟨stored, (RowKey.market_prefix market market key).mpr rfl⟩
    rw [same] at member
    obtain ⟨other, inKeys, row⟩ := mem_map.mp member
    have sameKey := RowKey.bytes_inj market market (good other inKeys).1 sized (congrArg Prod.fst row)
    rw [← sameKey.2]
    exact inKeys

end Lays

end TorusHyperBft.OrderBook
