import TorusHyperBft.OrderBook.Decode

namespace TorusHyperBft.OrderBook

/-! The values of the other rows: the header of a market, its price levels, and the whole book in one
blob. -/

open Reader (Takes takes_byte takes_number takes_repeatFold)

def field (value : List Byte) (start width : Nat) : Nat := fromBytes ((value.drop start).take width)

section Meta

def lastTradeBytes : Option Int → List Byte
  | none => [0]
  | some price => 1 :: fpBytes price

def BookMeta.encode (header : BookMeta) : List Byte :=
  toBytes 8 header.nextSeq ++ (fpBytes header.tickSize ++ (fpBytes header.lotSize ++
    (toBytes 16 header.nextId ++ lastTradeBytes header.lastTradePrice)))

inductive MetaError where
  | truncated
  | badLtpTag
deriving DecidableEq

def metaRowMinLen : Nat := 8 + 16 + 16 + 16 + 1

/-- The length must be exactly the one that the tag of the last trade price asks for. -/
def BookMeta.decode (value : List Byte) : Except MetaError BookMeta :=
  if value.length < metaRowMinLen then .error .truncated
  else
    let header := fun lastTradePrice =>
      { nextSeq := field value 0 8
        tickSize := signed (field value 8 16)
        lotSize := signed (field value 24 16)
        nextId := field value 40 16
        lastTradePrice : BookMeta }
    match field value 56 1 with
    | 0 => if value.length = metaRowMinLen then .ok (header none) else .error .truncated
    | 1 =>
      if value.length = metaRowMinLen + 16 then .ok (header (some (signed (field value 57 16))))
      else .error .truncated
    | _ => .error .badLtpTag

theorem fpBytes_length (raw : Int) : (fpBytes raw).length = 16 := toBytes_length _ _

theorem BookMeta.decode_encode_ok (header : BookMeta) :
    ∃ read, BookMeta.decode header.encode = .ok read := by
  have tag : field header.encode 56 1 = (lastTradeBytes header.lastTradePrice).headD 0 := by
    unfold field BookMeta.encode
    rw [← List.append_assoc, ← List.append_assoc, ← List.append_assoc, List.drop_left' (by
      simp only [List.length_append, toBytes_length, fpBytes_length])]
    cases header.lastTradePrice <;> simp [lastTradeBytes, fromBytes]
  unfold BookMeta.decode
  rw [tag]
  cases last : header.lastTradePrice with
  | none =>
    have length : header.encode.length = metaRowMinLen := by
      simp [BookMeta.encode, last, lastTradeBytes, fpBytes_length, metaRowMinLen]
    simp [length, lastTradeBytes]
  | some price =>
    have length : header.encode.length = metaRowMinLen + 16 := by
      simp [BookMeta.encode, last, lastTradeBytes, fpBytes_length, metaRowMinLen]
    have long : ¬ metaRowMinLen + 16 < metaRowMinLen := by omega
    simp [length, lastTradeBytes, long]

end Meta

section Levels

def levelRowValueLen : Nat := 52

def LevelRowData.encode (data : LevelRowData) : List Byte :=
  fpBytes data.totalQtyRaw ++ (toBytes 4 data.orderCount ++ data.levelHash)

def LevelRowData.decode (value : List Byte) : Option LevelRowData :=
  if value.length ≠ levelRowValueLen then none
  else some
    { totalQtyRaw := signed (field value 0 16)
      orderCount := field value 16 4
      levelHash := value.drop 20 }

variable {data : LevelRowData}

theorem LevelRowData.encode_length (hash : data.levelHash.length = 32) :
    data.encode.length = levelRowValueLen := by
  simp [encode, fpBytes_length, hash, levelRowValueLen]

theorem LevelRowData.decode_encode (hash : data.levelHash.length = 32)
    (total : IsI128 data.totalQtyRaw) :
    LevelRowData.decode data.encode =
      some { data with orderCount := data.orderCount % 2 ^ 32 } := by
  have qty : field data.encode 0 16 = (data.totalQtyRaw % 2 ^ 128).toNat := by
    unfold field LevelRowData.encode
    rw [List.drop_zero, List.take_left' (fpBytes_length _), fpBytes, fromBytes_toBytes]
    have := Int.emod_lt_of_pos data.totalQtyRaw (show (0 : Int) < 2 ^ 128 by decide)
    have := Int.emod_nonneg data.totalQtyRaw (show (2 ^ 128 : Int) ≠ 0 by decide)
    omega
  have count : field data.encode 16 4 = data.orderCount % 2 ^ 32 := by
    unfold field LevelRowData.encode
    rw [List.drop_left' (fpBytes_length _), List.take_left' (toBytes_length _ _),
      fromBytes_toBytes_mod]
    rfl
  have rest : data.encode.drop 20 = data.levelHash := by
    unfold LevelRowData.encode
    rw [← List.append_assoc, List.drop_left' (by
      simp only [List.length_append, toBytes_length, fpBytes_length])]
  unfold LevelRowData.decode
  rw [if_neg (not_not.mpr (encode_length hash)), qty, count, rest, signed_mod total]

end Levels

section Classic

/-- The resting orders as the blob holds them: bids from the lowest price on, then asks. -/
def Book.classicOrders (book : Book) : List Order :=
  book.bids.reverse.flatMap Prod.snd ++ book.asks.flatMap Prod.snd

def Book.encodeClassic (book : Book) : List Byte :=
  toBytes 8 book.marketId ++ (fpBytes book.tickSize ++ (fpBytes book.lotSize ++
    (toBytes 16 book.nextId ++ (lastTradeBytes book.lastTradePrice ++
      (toBytes 4 book.classicOrders.length ++ (book.classicOrders.flatMap Order.serialize ++
        (toBytes 4 book.pendingStops.length ++ book.pendingStops.flatMap StopOrder.serialize)))))))

def readLastTrade : Reader (Option Int) := do
  match ← Reader.number 1 with
  | 0 => return none
  | _ =>
    let price ← readFp
    return some price

def readBook : Reader Book := do
  let marketId ← Reader.number 8
  let tickSize ← readFp
  let lotSize ← readFp
  let nextId ← Reader.number 16
  let lastTradePrice ← readLastTrade
  let orderCount ← Reader.number 4
  let book ← Reader.repeatFold readOrder Book.insertOrder orderCount
    { Book.new marketId tickSize lotSize with nextId, lastTradePrice }
  let stopCount ← Reader.number 4
  Reader.repeatFold readStop Book.restoreStop stopCount book

def decodeClassicBook (blob : List Byte) : Option Book := readBook.whole blob

/-- The values of a book have the widths of their types. -/
structure Book.IsSized (book : Book) : Prop where
  marketId : book.marketId < 256 ^ 8
  tickSize : IsI128 book.tickSize
  lotSize : IsI128 book.lotSize
  nextId : book.nextId < 256 ^ 16
  lastTradePrice : ∀ price ∈ book.lastTradePrice, IsI128 price
  orders : ∀ order ∈ book.resting, order.IsSized
  sequences : ∀ id seq, book.indexes.orderSeq id = some seq → seq < 256 ^ 8
  stops : ∀ stop ∈ book.pendingStops, stop.IsSized

/-- The counts of a blob hold what there is to count. -/
structure Book.IsCounted (book : Book) : Prop where
  orders : book.resting.length < 256 ^ 4
  stops : book.pendingStops.length < 256 ^ 4

theorem Book.classicOrders_perm (book : Book) : book.classicOrders.Perm book.resting :=
  (book.bids.reverse_perm.flatMap_right _).append_right _

theorem takes_lastTrade {price : Option Int} (fits : ∀ value ∈ price, IsI128 value) :
    Takes readLastTrade (lastTradeBytes price) price := by
  cases price with
  | none => exact (takes_byte 0).bind (Takes.pure _)
  | some value => exact (takes_byte 1).bind (takes_fp (fits value rfl)).last

theorem Book.foldl_restoreStop_ladder (read : StopOrder → StopOrder) (stops : List StopOrder)
    (book : Book) (side : Side) :
    (stops.foldl (fun book stop => book.restoreStop (read stop)) book).ladder side =
      book.ladder side := by
  induction stops generalizing book with
  | nil => rfl
  | cons stop stops ih =>
    rw [List.foldl_cons, ih]
    cases side <;> rfl

theorem decodeClassicBook_encode {book : Book} (sized : book.IsSized) (counted : book.IsCounted) :
    ∃ read, decodeClassicBook book.encodeClassic = some read ∧ ∀ side,
      read.ladder side = (book.classicOrders.foldl Book.insertOrder
        { Book.new book.marketId book.tickSize book.lotSize with
          nextId := book.nextId, lastTradePrice := book.lastTradePrice }).ladder side := by
  have orders : ∀ order ∈ book.classicOrders, Takes readOrder order.serialize order :=
    fun order member => takes_order (sized.orders order (book.classicOrders_perm.mem_iff.mp member))
  have count : book.classicOrders.length < 256 ^ 4 := by
    rw [book.classicOrders_perm.length_eq]
    exact counted.orders
  -- a stop may be read back without its cap, so the stops read are images of the ones written
  have stops : ∀ stop ∈ book.pendingStops, Takes readStop stop.serialize
      { stop with limitPrice := stop.readPrice.1, priceCap := stop.readPrice.2 } :=
    fun stop member => takes_stop (sized.stops stop member)
  generalize inserted : book.classicOrders.foldl Book.insertOrder
    { Book.new book.marketId book.tickSize book.lotSize with
      nextId := book.nextId, lastTradePrice := book.lastTradePrice } = full
  have body : Takes (Reader.repeatFold readOrder Book.insertOrder book.classicOrders.length
      { Book.new book.marketId book.tickSize book.lotSize with
        nextId := book.nextId, lastTradePrice := book.lastTradePrice })
      (book.classicOrders.flatMap Order.serialize) full := by
    rw [← inserted]
    exact takes_repeatFold orders _
  have tail : Takes (Reader.repeatFold readStop Book.restoreStop book.pendingStops.length full)
      (book.pendingStops.flatMap StopOrder.serialize) _ := takes_repeatFold stops full
  have takes : Takes readBook book.encodeClassic _ :=
    (takes_number sized.marketId).bind <| (takes_fp sized.tickSize).bind <|
      (takes_fp sized.lotSize).bind <| (takes_number sized.nextId).bind <|
      (takes_lastTrade sized.lastTradePrice).bind <| (takes_number count).bind <|
      body.bind <| (takes_number counted.stops).bind tail
  exact ⟨_, takes.whole, fun side => Book.foldl_restoreStop_ladder _ _ _ side⟩

end Classic

end TorusHyperBft.OrderBook
