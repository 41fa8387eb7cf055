import TorusHyperBft.Signing.Encoding
import TorusHyperBft.Delimited
import TorusHyperBft.Keccak

namespace TorusHyperBft.Signing

open List

/-! The canonical bytes of an action and the content address over them: a tag, then fields that
end where their own bytes say. -/

def beBytes {width : Nat} (value : BitVec width) : List Byte := toBytes (width / 8) value.toNat

def lenBytes (length : Nat) : List Byte := beBytes (BitVec.ofNat 32 length)

def textBytes (text : String) : List Byte := lenBytes (stringBytes text).length ++ stringBytes text

def boolByte (flag : Bool) : Byte := if flag then 1 else 0

def optionBytes {width : Nat} : Option (BitVec width) → List Byte
  | some value => 1 :: beBytes value
  | none => [0]

def OrderType.canonicalBytes : OrderType → List Byte
  | .limit => [0]
  | .market => [1]
  | .stopMarket trigger => 2 :: beBytes trigger
  | .stopLimit trigger price => 3 :: (beBytes trigger ++ beBytes price)

def TimeInForce.canonicalByte : TimeInForce → Byte
  | .gtc => 0
  | .ioc => 1
  | .fok => 2
  | .postOnly => 3

def encodePlaceOrderParams (params : PlaceOrderParams) : List Byte :=
  beBytes params.marketId ++ boolByte params.isBuy :: (beBytes params.price ++
    (beBytes params.quantity ++ (params.orderType.canonicalBytes ++
      params.timeInForce.canonicalByte :: boolByte params.reduceOnly ::
        optionBytes params.clientOrderId)))

def MarketParams.canonicalBytes (params : MarketParams) : List Byte :=
  beBytes params.tickSize ++ (beBytes params.lotSize ++ (beBytes params.maxLeverage ++
    (beBytes params.maintenanceMarginBps ++ beBytes params.maxFundingRateBps)))

def MarketListing.canonicalBytes (listing : MarketListing) : List Byte :=
  textBytes listing.baseAsset ++ (textBytes listing.quoteAsset ++ (beBytes listing.tickSize ++
    (beBytes listing.lotSize ++ (beBytes listing.maxLeverage ++
      beBytes listing.maintenanceMarginBps))))

def ProposalAction.canonicalBytes : ProposalAction → List Byte
  | .updateMarketParams marketId params => 0 :: (beBytes marketId ++ params.canonicalBytes)
  | .listMarket listing => 1 :: listing.canonicalBytes
  | .delistMarket marketId => 2 :: beBytes marketId
  | .parameterChange key value => 3 :: (textBytes key ++ textBytes value)
  | .validatorRegistration candidate => 4 :: beBytes candidate
  | .setDelistClosePrice marketId price => 5 :: (beBytes marketId ++ beBytes price)

def VoteOption.canonicalByte : VoteOption → Byte
  | .yes => 0
  | .no => 1
  | .abstain => 2

def SessionScope.canonicalByte : SessionScope → Byte
  | .trading => 0
  | .transfersOnly => 1
  | .full => 2

def Signature.canonicalBytes (signature : Signature) : List Byte :=
  beBytes signature.v ++ (beBytes signature.r ++ beBytes signature.s)

def NativeAction.canonicalBytes : NativeAction → List Byte
  | .placeOrder params => 0 :: encodePlaceOrderParams params
  | .placeOrderBatch orders => 25 :: (lenBytes orders.length ++ orders.flatMap encodePlaceOrderParams)
  | .cancelOrder orderId => 1 :: beBytes orderId
  | .cancelAllOrders marketId => 2 :: optionBytes marketId
  | .modifyOrder orderId newPrice newQty =>
    3 :: (beBytes orderId ++ (optionBytes newPrice ++ optionBytes newQty))
  | .transferToPerp amount => 4 :: beBytes amount
  | .transferToSpot amount => 5 :: beBytes amount
  | .withdraw amount recipient => 6 :: (beBytes amount ++ beBytes recipient)
  | .delegate validator amount => 7 :: (beBytes validator ++ beBytes amount)
  | .undelegate validator amount => 8 :: (beBytes validator ++ beBytes amount)
  | .permanentStake amount => 9 :: beBytes amount
  | .claimRewards => [10]
  | .submitProposal proposal =>
    11 :: (textBytes proposal.title ++ (textBytes proposal.description ++
      proposal.action.canonicalBytes))
  | .vote proposalId option => 12 :: (beBytes proposalId ++ [option.canonicalByte])
  | .submitOraclePrices submission =>
    13 :: (lenBytes submission.prices.length ++
      (submission.prices.flatMap (fun entry => beBytes entry.1 ++ beBytes entry.2) ++
        beBytes submission.timestamp))
  | .registerValidator pubkey commission => 14 :: (beBytes pubkey ++ beBytes commission)
  | .updateCommission newRate => 15 :: beBytes newRate
  | .jailVote target => 16 :: beBytes target
  | .unjailSelf => [17]
  | .rotateValidatorKey newPubkey => 18 :: beBytes newPubkey
  | .updateMarketParams marketId params => 19 :: (beBytes marketId ++ params.canonicalBytes)
  | .listMarket listing => 20 :: listing.canonicalBytes
  | .delistMarket marketId => 21 :: beBytes marketId
  | .topUpSelfStake amount => 22 :: beBytes amount
  | .createSession sessionPubkey expiry scope =>
    23 :: (beBytes sessionPubkey ++ (beBytes expiry ++ [scope.canonicalByte]))
  | .revokeSession sessionPubkey => 24 :: beBytes sessionPubkey
  | .attestStateHash height hash => 26 :: (beBytes height ++ beBytes hash)
  | .claimUnbonded => [27]
  | .cancelByCloid marketId cloid => 29 :: (beBytes marketId ++ beBytes cloid)
  | .setOracleSigner signer none => 28 :: (beBytes signer ++ [0])
  | .setOracleSigner signer (some proof) =>
    28 :: (beBytes signer ++ 1 :: (beBytes proof.nonce ++ proof.signature.canonicalBytes))
  | .evmUserModify usingBigBlocks => [30, boolByte usingBigBlocks]

def NativeAction.appendCanonicalBytes (action : NativeAction) (buffer : List Byte) : List Byte :=
  buffer ++ action.canonicalBytes

def ActionSignature.canonicalBytes : ActionSignature → List Byte
  | .eip712 signature => 0 :: signature.canonicalBytes
  | .session sessionPubkey sig => 1 :: (beBytes sessionPubkey ++ beBytes sig)

def SignedNativeAction.preimage (signed : SignedNativeAction) : List Byte :=
  signed.action.appendCanonicalBytes [] ++ (beBytes signed.nonce ++ signed.signature.canonicalBytes)

/-- The caller's buffer is cleared first and left with the whole preimage. -/
def computeActionHashWithScratch (keccak : List Byte → Word) (signed : SignedNativeAction)
    (data : List Byte) : Word × List Byte :=
  let data := signed.action.appendCanonicalBytes (data.take 0) ++ beBytes signed.nonce
  let data := data ++ signed.signature.canonicalBytes
  (keccak data, data)

def computeActionHash (keccak : List Byte → Word) (signed : SignedNativeAction) : Word :=
  (computeActionHashWithScratch keccak signed []).1

/-- Its length fits the four length bytes. -/
abbrev Fits (text : String) : Prop := (stringBytes text).length < 2 ^ 32

/-- Both names fit. -/
def MarketListing.Short (listing : MarketListing) : Prop :=
  Fits listing.baseAsset ∧ Fits listing.quoteAsset

/-- Every text in it fits. -/
def ProposalAction.Short : ProposalAction → Prop
  | .listMarket listing => listing.Short
  | .parameterChange key value => Fits key ∧ Fits value
  | _ => True

/-- Every text and list in it fits its length bytes. -/
def NativeAction.Short : NativeAction → Prop
  | .placeOrderBatch orders => orders.length < 2 ^ 32
  | .submitProposal proposal =>
    Fits proposal.title ∧ Fits proposal.description ∧ proposal.action.Short
  | .submitOraclePrices submission => submission.prices.length < 2 ^ 32
  | .listMarket listing => listing.Short
  | _ => True

section Fields

variable {rest otherRest : List Byte}

theorem beBytes_append {width : Nat} (whole : width % 8 = 0) {value other : BitVec width} :
    beBytes value ++ rest = beBytes other ++ otherRest ↔ value = other ∧ rest = otherRest := by
  have bound : ∀ value : BitVec width, value.toNat < 256 ^ (width / 8) := by
    intro value
    have power : 256 ^ (width / 8) = 2 ^ width := by
      rw [show 256 = 2 ^ 8 from rfl, ← Nat.pow_mul, Nat.mul_div_cancel' (Nat.dvd_of_mod_eq_zero whole)]
    rw [power]
    exact value.isLt
  constructor
  · intro same
    obtain ⟨values, rests⟩ := toBytes_append_inj (bound value) (bound other) same
    exact ⟨BitVec.eq_of_toNat_eq values, rests⟩
  · rintro ⟨rfl, rfl⟩
    rfl

theorem lenBytes_append {length other : Nat} (fits : length < 2 ^ 32) (otherFits : other < 2 ^ 32) :
    lenBytes length ++ rest = lenBytes other ++ otherRest ↔ length = other ∧ rest = otherRest := by
  rw [lenBytes, lenBytes, beBytes_append (by decide)]
  constructor
  · rintro ⟨values, rests⟩
    have numbers := congrArg BitVec.toNat values
    rw [BitVec.toNat_ofNat, BitVec.toNat_ofNat, Nat.mod_eq_of_lt fits, Nat.mod_eq_of_lt otherFits] at numbers
    exact ⟨numbers, rests⟩
  · rintro ⟨rfl, rfl⟩
    exact ⟨rfl, rfl⟩

theorem textBytes_append {text other : String} (fits : Fits text) (otherFits : Fits other) :
    textBytes text ++ rest = textBytes other ++ otherRest ↔ text = other ∧ rest = otherRest := by
  rw [textBytes, textBytes, append_assoc, append_assoc, lenBytes_append fits otherFits]
  constructor
  · rintro ⟨lengths, same⟩
    obtain ⟨texts, rests⟩ := append_inj same lengths
    exact ⟨stringBytes_injective texts, rests⟩
  · rintro ⟨rfl, rfl⟩
    exact ⟨rfl, rfl⟩

@[simp] theorem boolByte_inj {flag other : Bool} : boolByte flag = boolByte other ↔ flag = other := by
  cases flag <;> cases other <;> decide

theorem optionBytes_append {width : Nat} (whole : width % 8 = 0)
    {value other : Option (BitVec width)} :
    optionBytes value ++ rest = optionBytes other ++ otherRest ↔ value = other ∧ rest = otherRest := by
  cases value with
  | none =>
    cases other with
    | none => simp [optionBytes]
    | some other => simp [optionBytes]
  | some value =>
    cases other with
    | none => simp [optionBytes]
    | some other => simp [optionBytes, beBytes_append whole]

theorem orderType_append {type other : OrderType} :
    type.canonicalBytes ++ rest = other.canonicalBytes ++ otherRest ↔
      type = other ∧ rest = otherRest := by
  cases type <;> cases other <;> simp [OrderType.canonicalBytes, beBytes_append, and_assoc]

@[simp] theorem timeInForceByte_inj {value other : TimeInForce} :
    value.canonicalByte = other.canonicalByte ↔ value = other := by
  cases value <;> cases other <;> decide

@[simp] theorem voteOptionByte_inj {value other : VoteOption} :
    value.canonicalByte = other.canonicalByte ↔ value = other := by
  cases value <;> cases other <;> decide

@[simp] theorem sessionScopeByte_inj {value other : SessionScope} :
    value.canonicalByte = other.canonicalByte ↔ value = other := by
  cases value <;> cases other <;> decide

theorem encodePlaceOrderParams_delimited :
    Delimited (fun _ => True) encodePlaceOrderParams := by
  rintro ⟨marketId, isBuy, price, quantity, orderType, timeInForce, reduceOnly, clientOrderId⟩
    ⟨marketId', isBuy', price', quantity', orderType', timeInForce', reduceOnly', clientOrderId'⟩
    _ _ rest otherRest same
  simpa [encodePlaceOrderParams, beBytes_append, orderType_append, optionBytes_append, and_assoc]
    using same

theorem marketParams_append {params other : MarketParams} :
    params.canonicalBytes ++ rest = other.canonicalBytes ++ otherRest ↔
      params = other ∧ rest = otherRest := by
  cases params
  cases other
  simp [MarketParams.canonicalBytes, beBytes_append, and_assoc]

theorem marketListing_append {listing other : MarketListing} (short : listing.Short)
    (otherShort : other.Short) :
    listing.canonicalBytes ++ rest = other.canonicalBytes ++ otherRest ↔
      listing = other ∧ rest = otherRest := by
  cases listing
  cases other
  simp [MarketListing.canonicalBytes, beBytes_append, textBytes_append short.1 otherShort.1,
    textBytes_append short.2 otherShort.2, and_assoc]

theorem proposalAction_append {action other : ProposalAction} (short : action.Short)
    (otherShort : other.Short) :
    action.canonicalBytes ++ rest = other.canonicalBytes ++ otherRest ↔
      action = other ∧ rest = otherRest := by
  cases action <;> cases other <;>
    simp only [ProposalAction.canonicalBytes, cons_append, append_assoc, List.cons.injEq,
      reduceCtorEq, false_and, Fin.reduceEq, true_and]
  case updateMarketParams.updateMarketParams =>
    simp [beBytes_append, marketParams_append, and_assoc]
  case listMarket.listMarket => simp [marketListing_append short otherShort]
  case parameterChange.parameterChange =>
    simp [textBytes_append short.1 otherShort.1, textBytes_append short.2 otherShort.2, and_assoc]
  -- The rest are numbers and nothing else.
  all_goals simp [beBytes_append, and_assoc]

theorem signature_append {signature other : Signature} :
    signature.canonicalBytes ++ rest = other.canonicalBytes ++ otherRest ↔
      signature = other ∧ rest = otherRest := by
  cases signature
  cases other
  simp [Signature.canonicalBytes, beBytes_append, and_assoc]

theorem actionSignature_append {signature other : ActionSignature} :
    signature.canonicalBytes ++ rest = other.canonicalBytes ++ otherRest ↔
      signature = other ∧ rest = otherRest := by
  cases signature <;> cases other <;>
    simp [ActionSignature.canonicalBytes, beBytes_append, signature_append, and_assoc]

end Fields

namespace NativeAction

def canonicalTags : List Byte :=
  [0, 25, 1, 2, 3, 4, 5, 6, 7, 8, 9, 10, 22, 11, 12, 13, 14, 15, 16, 17, 18, 23, 24, 19, 20, 21, 26, 27,
    28, 29, 30]

theorem canonicalTags_nodup : canonicalTags.Nodup := by decide

theorem canonicalBytes_head? (action : NativeAction) (rest : List Byte) :
    (action.canonicalBytes ++ rest).head? = canonicalTags[action.ctorIdx]? := by
  cases action with
  | setOracleSigner signer proof => cases proof <;> rfl
  | _ => rfl

theorem ctorIdx_eq_of_canonicalBytes {action other : NativeAction} {rest otherRest : List Byte}
    (same : action.canonicalBytes ++ rest = other.canonicalBytes ++ otherRest) :
    action.ctorIdx = other.ctorIdx := by
  have tags : canonicalTags[action.ctorIdx]? = canonicalTags[other.ctorIdx]? := by
    rw [← canonicalBytes_head? action rest, same, canonicalBytes_head?]
  have bound : action.ctorIdx < canonicalTags.length := by
    cases action <;> simp [canonicalTags, NativeAction.ctorIdx]
  exact (List.getElem?_inj bound canonicalTags_nodup).mp tags

theorem canonicalBytes_delimited : Delimited Short canonicalBytes := by
  intro action other short otherShort rest otherRest same
  have index := ctorIdx_eq_of_canonicalBytes same
  cases action <;> cases other <;> try cases index
  case placeOrder.placeOrder params otherParams =>
    obtain ⟨params, rests⟩ := encodePlaceOrderParams_delimited params otherParams trivial trivial
      rest otherRest (List.cons.inj same).2
    exact ⟨by rw [params], rests⟩
  case placeOrderBatch.placeOrderBatch orders others =>
    simp only [canonicalBytes, cons_append, append_assoc, List.cons.injEq, true_and,
      lenBytes_append short otherShort] at same
    obtain ⟨orders, rests⟩ := encodePlaceOrderParams_delimited.flatMap (fun _ _ => trivial)
      (fun _ _ => trivial) same.1 same.2
    exact ⟨by rw [orders], rests⟩
  case submitOraclePrices.submitOraclePrices submission others =>
    simp only [canonicalBytes, cons_append, append_assoc, List.cons.injEq, true_and,
      lenBytes_append short otherShort] at same
    have entries : Delimited (fun _ => True)
        (fun entry : MarketId × Raw => beBytes entry.1 ++ beBytes entry.2) := by
      rintro ⟨market, price⟩ ⟨otherMarket, otherPrice⟩ _ _ rest otherRest same
      simpa [beBytes_append, and_assoc] using same
    obtain ⟨prices, tails⟩ := entries.flatMap (fun _ _ => trivial) (fun _ _ => trivial) same.1 same.2
    obtain ⟨timestamps, rests⟩ := (beBytes_append (by decide)).mp tails
    cases submission
    cases others
    simp_all
  case submitProposal.submitProposal proposal others =>
    simp only [canonicalBytes, cons_append, append_assoc, List.cons.injEq, true_and,
      textBytes_append short.1 otherShort.1, textBytes_append short.2.1 otherShort.2.1,
      proposalAction_append short.2.2 otherShort.2.2] at same
    cases proposal
    cases others
    simp_all
  case listMarket.listMarket =>
    simpa [canonicalBytes, marketListing_append short otherShort] using same
  case setOracleSigner.setOracleSigner signer proof otherSigner otherProof =>
    cases proof with
    | none =>
      cases otherProof with
      | none => simpa [canonicalBytes, beBytes_append] using same
      | some proof => simp [canonicalBytes, beBytes_append] at same
    | some proof =>
      cases otherProof with
      | none => simp [canonicalBytes, beBytes_append] at same
      | some otherProof =>
        simp only [canonicalBytes, cons_append, append_assoc, List.cons.injEq, true_and,
          beBytes_append, signature_append, Nat.reduceMod] at same
        cases proof
        cases otherProof
        simp_all
  case claimRewards.claimRewards | unjailSelf.unjailSelf | claimUnbonded.claimUnbonded =>
    exact ⟨rfl, (List.cons.inj same).2⟩
  -- The rest are numbers and nothing else.
  all_goals
    simpa [canonicalBytes, beBytes_append, optionBytes_append, marketParams_append, and_assoc] using same

theorem canonicalBytes_placeOrderBatch (orders : List PlaceOrderParams) :
    (placeOrderBatch orders).canonicalBytes =
      25 :: (lenBytes orders.length ++
        orders.flatMap fun params => (placeOrder params).canonicalBytes.tail) := rfl

end NativeAction

theorem preimage_inj {signed other : SignedNativeAction} (short : signed.action.Short)
    (otherShort : other.action.Short)
    (same : signed.preimage = other.preimage) : signed = other := by
  obtain ⟨action, nonce, signature⟩ := signed
  obtain ⟨otherAction, otherNonce, otherSignature⟩ := other
  obtain ⟨actions, tails⟩ := NativeAction.canonicalBytes_delimited action otherAction short otherShort
    _ _ same
  obtain ⟨nonces, signatures⟩ := (beBytes_append (by decide)).mp tails
  change nonce = otherNonce at nonces
  have signatures : signature.canonicalBytes ++ [] = otherSignature.canonicalBytes ++ [] := by
    rw [append_nil, append_nil]
    exact signatures
  rw [actions, nonces, (actionSignature_append.mp signatures).1]

/-- The content address determines the signed action. -/
structure ContentAddressed (signed other : SignedNativeAction) : Prop where
  scratch : ∀ keccak data, computeActionHashWithScratch keccak signed data =
    (keccak signed.preimage, signed.preimage)
  preimages : signed.preimage = other.preimage → signed = other
  actions : signed.action.canonicalBytes = other.action.canonicalBytes → signed.action = other.action
  prefixes : signed.action.canonicalBytes <+: other.action.canonicalBytes →
    signed.action.canonicalBytes = other.action.canonicalBytes
  batches : ∀ orders, (NativeAction.placeOrderBatch orders).canonicalBytes =
    25 :: (lenBytes orders.length ++
      orders.flatMap fun params => (NativeAction.placeOrder params).canonicalBytes.tail)

theorem contentAddressed {signed other : SignedNativeAction} (short : signed.action.Short)
    (otherShort : other.action.Short) : ContentAddressed signed other where
  scratch keccak data := by
    rw [computeActionHashWithScratch, SignedNativeAction.preimage, take_zero, append_assoc]
  preimages := preimage_inj short otherShort
  actions := NativeAction.canonicalBytes_delimited.injective short otherShort
  prefixes := by
    intro begins
    rw [NativeAction.canonicalBytes_delimited.eq_of_isPrefix short otherShort begins]
  batches := NativeAction.canonicalBytes_placeOrderBatch

/-- A batch of two orders and a listing, under either kind of signature. -/
theorem contentAddressed_batch_listing :
    ContentAddressed
      { action := .placeOrderBatch [
          { marketId := 1, isBuy := true, price := 5, quantity := 7, orderType := .limit
            timeInForce := .gtc, reduceOnly := false, clientOrderId := none },
          { marketId := 1, isBuy := false, price := 6, quantity := 7, orderType := .stopLimit 8 9
            timeInForce := .ioc, reduceOnly := true, clientOrderId := some 3 }]
        nonce := 1
        signature := .eip712 { v := 27, r := 1, s := 2 } }
      { action := .listMarket { baseAsset := "TRS", quoteAsset := "USD", tickSize := 1, lotSize := 1
                                maxLeverage := 20, maintenanceMarginBps := 100 }
        nonce := 1
        signature := .session 4 5 } := by
  apply contentAddressed
  · exact (by decide : 2 < 2 ^ 32)
  · exact ⟨by decide +kernel, by decide +kernel⟩

end TorusHyperBft.Signing
