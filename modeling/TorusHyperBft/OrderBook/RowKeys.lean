import TorusHyperBft.OrderBook.RowValues

namespace TorusHyperBft.OrderBook

/-! The keys of the stored rows.

Prices are written so that the keys of a side ascend from its best price on. -/

def rowTagMeta : Byte := 0
def rowTagOrder : Byte := 1
def rowTagStop : Byte := 2
def rowTagLevel : Byte := 3

def sideTagBid : Byte := 0
def sideTagAsk : Byte := 1

def Side.tag : Side → Byte
  | .buy => sideTagBid
  | .sell => sideTagAsk

def sideFromTag (tag : Byte) : Option Side :=
  if tag = sideTagBid then some .buy
  else if tag = sideTagAsk then some .sell
  else none

def complement (byte : Byte) : Byte := ⟨255 - byte.val, by omega⟩

def priceEnc (tag : Byte) (rawPrice : Int) : List Byte :=
  let bytes := toBytes 16 ((rawPrice % 2 ^ 128).toNat ^^^ 2 ^ 127)
  if tag = sideTagBid then bytes.map complement else bytes

def priceDec (tag : Byte) (bytes : List Byte) : Int :=
  let bytes := if tag = sideTagBid then bytes.map complement else bytes
  signed (fromBytes bytes ^^^ 2 ^ 127)

def classicKey (marketId : MarketId) : List Byte := toBytes 8 marketId

def bookMetaKey (marketId : MarketId) : List Byte := toBytes 8 marketId ++ [rowTagMeta]

def bookOrderKey (marketId : MarketId) (orderId : Nat) : List Byte :=
  toBytes 8 marketId ++ rowTagOrder :: toBytes 16 orderId

def bookStopKey (marketId : MarketId) (stopId : Nat) : List Byte :=
  toBytes 8 marketId ++ rowTagStop :: toBytes 16 stopId

def levelRowKeyTagged (marketId : MarketId) (tag : Byte) (rawPrice : Int) : List Byte :=
  toBytes 8 marketId ++ rowTagLevel :: tag :: priceEnc tag rawPrice

def levelRowKey (marketId : MarketId) (key : LevelKey) : List Byte :=
  levelRowKeyTagged marketId key.side.tag key.price

inductive KeyShape where
  | classicBlob
  | header
  | orderRow
  | stopRow
  | levelRow
deriving DecidableEq

def keyShape (key : List Byte) : Option KeyShape :=
  match key.length, key[8]? with
  | 8, _ => some .classicBlob
  | 9, some tag => if tag = rowTagMeta then some .header else none
  | 25, some tag =>
    if tag = rowTagOrder then some .orderRow else if tag = rowTagStop then some .stopRow else none
  | 26, some tag => if tag = rowTagLevel then some .levelRow else none
  | _, _ => none

section Bits

theorem xor_top {number : Nat}
    (low : number < 2 ^ 127) : number ^^^ 2 ^ 127 = number + 2 ^ 127 := by
  have bits : number ^^^ 2 ^ 127 = 2 ^ 127 ||| number := by
    apply Nat.eq_of_testBit_eq
    intro bit
    rw [Nat.testBit_xor, Nat.testBit_or, Nat.testBit_two_pow]
    by_cases top : 127 = bit
    · subst top
      simp [Nat.testBit_lt_two_pow low]
    · simp [top]
  have sum := Nat.two_pow_add_eq_or_of_lt low 1
  rw [Nat.mul_one] at sum
  omega

theorem flipped_eq {raw : Int} (fits : IsI128 raw) :
    (raw % 2 ^ 128).toNat ^^^ 2 ^ 127 = (raw + 2 ^ 127).toNat := by
  obtain ⟨low, high⟩ := fits
  by_cases negative : raw < 0
  · have number : (raw % 2 ^ 128).toNat = (raw + 2 ^ 127).toNat ^^^ 2 ^ 127 := by
      rw [xor_top (by omega)]
      omega
    rw [number, Nat.xor_assoc, Nat.xor_self, Nat.xor_zero]
  · rw [xor_top (by omega)]
    omega

theorem map_complement {width value : Nat} (fits : value < 256 ^ width) :
    (toBytes width value).map complement = toBytes width (256 ^ width - 1 - value) := by
  induction width generalizing value with
  | zero => rfl
  | succ width ih =>
    have positive : 0 < 256 ^ width := Nat.pow_pos (by decide)
    rw [Nat.pow_succ] at fits
    have high : value / 256 ^ width < 256 := Nat.div_lt_of_lt_mul fits
    have low := Nat.mod_lt value positive
    have whole := Nat.div_add_mod value (256 ^ width)
    -- the complement digit by digit, and of the rest
    have other : 256 ^ (width + 1) - 1 - value =
        256 ^ width * (255 - value / 256 ^ width) + (256 ^ width - 1 - value % 256 ^ width) := by
      have split : 256 ^ width * (255 - value / 256 ^ width) + 256 ^ width * (value / 256 ^ width) =
          256 ^ width * 255 := by
        rw [← Nat.mul_add, Nat.sub_add_cancel (by omega)]
      rw [Nat.pow_succ]
      omega
    have digit : (256 ^ (width + 1) - 1 - value) / 256 ^ width = 255 - value / 256 ^ width := by
      have below : 256 ^ width - 1 - value % 256 ^ width < 256 ^ width := by omega
      rw [other, Nat.mul_add_div positive, Nat.div_eq_of_lt below, Nat.add_zero]
    have rest : (256 ^ (width + 1) - 1 - value) % 256 ^ width =
        256 ^ width - 1 - value % 256 ^ width := by
      rw [other, Nat.mul_add_mod, Nat.mod_eq_of_lt (by omega)]
    rw [toBytes, toBytes, List.map_cons, ih low, rest]
    congr 1
    apply Fin.ext
    change 255 - value / 256 ^ width % 256 = (256 ^ (width + 1) - 1 - value) / 256 ^ width % 256
    rw [digit, Nat.mod_eq_of_lt high, Nat.mod_eq_of_lt (Nat.lt_succ_of_le (Nat.sub_le _ _))]

end Bits

section Price

variable {left right : Int}

def priceRank (tag : Byte) (rawPrice : Int) : Nat :=
  if tag = sideTagBid then 256 ^ 16 - 1 - (rawPrice + 2 ^ 127).toNat else (rawPrice + 2 ^ 127).toNat

theorem priceRank_lt (tag : Byte) {raw : Int}
    (fits : IsI128 raw) : priceRank tag raw < 256 ^ 16 := by
  obtain ⟨low, high⟩ := fits
  unfold priceRank
  split <;> omega

theorem priceEnc_eq (tag : Byte) {raw : Int} (fits : IsI128 raw) :
    priceEnc tag raw = toBytes 16 (priceRank tag raw) := by
  have range : (raw + 2 ^ 127).toNat < 256 ^ 16 := by
    obtain ⟨low, high⟩ := fits
    omega
  unfold priceEnc priceRank
  rw [flipped_eq fits]
  split
  · exact map_complement range
  · rfl

theorem priceRank_lt_iff (tag : Byte) (leftFits : IsI128 left) (rightFits : IsI128 right) :
    priceRank tag left < priceRank tag right ↔
      if tag = sideTagBid then right < left else left < right := by
  obtain ⟨leftLow, leftHigh⟩ := leftFits
  obtain ⟨rightLow, rightHigh⟩ := rightFits
  unfold priceRank
  split <;> omega

theorem priceEnc_lt_iff (tag : Byte) (leftFits : IsI128 left) (rightFits : IsI128 right) :
    priceEnc tag left < priceEnc tag right ↔
      if tag = sideTagBid then right < left else left < right := by
  have compared := @toBytes_append_lt 16 _ _ (priceRank_lt tag leftFits) (priceRank_lt tag rightFits)
    [] []
  rw [List.append_nil, List.append_nil] at compared
  rw [priceEnc_eq tag leftFits, priceEnc_eq tag rightFits, compared,
    ← priceRank_lt_iff tag leftFits rightFits]
  simp

theorem priceEnc_length (tag : Byte) (raw : Int) : (priceEnc tag raw).length = 16 := by
  unfold priceEnc
  split <;> simp

theorem complement_complement (byte : Byte) : complement (complement byte) = byte := by
  apply Fin.ext
  have := byte.isLt
  simp only [complement]
  omega

theorem priceDec_priceEnc (tag : Byte) {raw : Int} (fits : IsI128 raw) :
    priceDec tag (priceEnc tag raw) = raw := by
  have range : (raw % 2 ^ 128).toNat ^^^ 2 ^ 127 < 256 ^ 16 := by
    rw [flipped_eq fits]
    obtain ⟨low, high⟩ := fits
    omega
  have flipped : fromBytes (toBytes 16 ((raw % 2 ^ 128).toNat ^^^ 2 ^ 127)) ^^^ 2 ^ 127 =
      (raw % 2 ^ 128).toNat := by
    rw [fromBytes_toBytes range, Nat.xor_assoc, Nat.xor_self, Nat.xor_zero]
  unfold priceDec priceEnc
  by_cases bid : tag = sideTagBid
  · simp only [if_pos bid, List.map_map]
    have twice : complement ∘ complement = id := funext complement_complement
    rw [twice, List.map_id, flipped, signed_mod fits]
  · simp only [if_neg bid]
    rw [flipped, signed_mod fits]

theorem priceEnc_inj (tag : Byte) (leftFits : IsI128 left) (rightFits : IsI128 right)
    (same : priceEnc tag left = priceEnc tag right) : left = right := by
  rw [← priceDec_priceEnc tag leftFits, same, priceDec_priceEnc tag rightFits]

end Price

inductive RowKey where
  | blob
  | header
  | order (id : Nat)
  | stop (id : Nat)
  | level (key : LevelKey)
deriving DecidableEq

namespace RowKey

/-- The id or price fits the key. -/
def IsSized : RowKey → Prop
  | .blob => True
  | .header => True
  | .order id => id < 256 ^ 16
  | .stop id => id < 256 ^ 16
  | .level key => IsI128 key.price

def bytes (marketId : MarketId) : RowKey → List Byte
  | .blob => classicKey marketId
  | .header => bookMetaKey marketId
  | .order id => bookOrderKey marketId id
  | .stop id => bookStopKey marketId id
  | .level key => levelRowKey marketId key

def tail : RowKey → List Byte
  | .blob => []
  | .header => [rowTagMeta]
  | .order id => rowTagOrder :: toBytes 16 id
  | .stop id => rowTagStop :: toBytes 16 id
  | .level key => rowTagLevel :: key.side.tag :: priceEnc key.side.tag key.price

def shape : RowKey → KeyShape
  | .blob => .classicBlob
  | .header => .header
  | .order _ => .orderRow
  | .stop _ => .stopRow
  | .level _ => .levelRow

variable {left right : RowKey} {marketId other : MarketId}

theorem bytes_eq (marketId : MarketId) (row : RowKey) :
    row.bytes marketId = toBytes 8 marketId ++ row.tail := by
  cases row with
  | blob => exact (List.append_nil _).symm
  | _ => rfl

theorem keyShape_bytes (marketId : MarketId) (row : RowKey) :
    keyShape (row.bytes marketId) = some row.shape := by
  have market : (toBytes 8 marketId).length = 8 := toBytes_length _ _
  have tagged : (row.bytes marketId)[8]? = row.tail[0]? := by
    rw [bytes_eq, List.getElem?_append_right (by omega), market]
  have length : (row.bytes marketId).length = 8 + row.tail.length := by
    rw [bytes_eq, List.length_append, market]
  unfold keyShape
  rw [tagged, length]
  cases row <;>
    simp [tail, shape, priceEnc_length, rowTagMeta, rowTagOrder, rowTagStop, rowTagLevel]

theorem toBytes_inj {width left right : Nat} (leftFits : left < 256 ^ width)
    (rightFits : right < 256 ^ width) (same : toBytes width left = toBytes width right) :
    left = right := by
  rw [← fromBytes_toBytes leftFits, same, fromBytes_toBytes rightFits]

theorem tail_inj (leftSized : left.IsSized) (rightSized : right.IsSized)
    (same : left.tail = right.tail) : left = right := by
  -- the tags tell the kinds apart, and what follows them the rows of a kind
  cases left <;> cases right <;>
    simp [tail, rowTagMeta, rowTagOrder, rowTagStop, rowTagLevel] at same
  case blob.blob => rfl
  case header.header => rfl
  case order.order => exact congrArg order (toBytes_inj leftSized rightSized same)
  case stop.stop => exact congrArg stop (toBytes_inj leftSized rightSized same)
  case level.level leftKey rightKey =>
    obtain ⟨leftSide, leftPrice⟩ := leftKey
    obtain ⟨rightSide, rightPrice⟩ := rightKey
    have sides : leftSide = rightSide := by
      cases leftSide <;> cases rightSide <;> simp [Side.tag, sideTagBid, sideTagAsk] at same ⊢
    subst sides
    have prices : leftPrice = rightPrice := priceEnc_inj _ leftSized rightSized same.2
    rw [prices]

theorem bytes_inj (leftMarket : marketId < 256 ^ 8) (rightMarket : other < 256 ^ 8)
    (leftSized : left.IsSized) (rightSized : right.IsSized)
    (same : left.bytes marketId = right.bytes other) : marketId = other ∧ left = right := by
  rw [bytes_eq, bytes_eq] at same
  obtain ⟨markets, tails⟩ := toBytes_append_inj leftMarket rightMarket same
  exact ⟨markets, tail_inj leftSized rightSized tails⟩

theorem market_prefix (leftMarket : marketId < 256 ^ 8) (rightMarket : other < 256 ^ 8)
    (row : RowKey) :
    toBytes 8 marketId <+: row.bytes other ↔ marketId = other := by
  rw [bytes_eq]
  constructor
  · rintro ⟨rest, same⟩
    exact (toBytes_append_inj leftMarket rightMarket same).1
  · rintro rfl
    exact List.prefix_append _ _

end RowKey

end TorusHyperBft.OrderBook
