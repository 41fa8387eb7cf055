import TorusHyperBft.Signing.Encoding

namespace TorusHyperBft.Signing

open Hashed List

/-! A struct hash fixes the action up to the triggers and limits of its stop orders. -/

theorem getD_injective {texts : List String} (distinct : texts.Nodup) {index other : Nat}
    (bound : index < texts.length) (otherBound : other < texts.length)
    (same : texts.getD index "" = texts.getD other "") : index = other := by
  rw [getD_eq_getElem _ _ bound, getD_eq_getElem _ _ otherBound] at same
  exact (List.Nodup.getElem_inj_iff distinct).mp same

namespace NativeAction

def typeStrings : List String :=
  [placeOrderType, placeOrderBatchType, cancelOrderType, cancelAllOrdersType, modifyOrderType,
    transferToPerpType, transferToSpotType, withdrawType, delegateType, undelegateType,
    permanentStakeType, claimRewardsType, topUpSelfStakeType, submitProposalType, voteType,
    submitOraclePricesType, registerValidatorType, updateCommissionType, jailVoteType,
    unjailSelfType, rotateValidatorKeyType, createSessionType, revokeSessionType,
    updateMarketParamsType, listMarketType, delistMarketType, attestStateHashType,
    claimUnbondedType, setOracleSignerType, cancelByCloidType, evmUserModifyType]

def typeString (action : NativeAction) : String := typeStrings.getD action.ctorIdx ""

theorem typeStrings_nodup : typeStrings.Nodup := by decide +kernel

theorem ctorIdx_lt (action : NativeAction) : action.ctorIdx < typeStrings.length := by
  have count : typeStrings.length = 31 := rfl
  cases action <;> simp [count, NativeAction.ctorIdx]

theorem ctorIdx_eq {action other : NativeAction} (same : action.typeString = other.typeString) :
    action.ctorIdx = other.ctorIdx :=
  getD_injective typeStrings_nodup action.ctorIdx_lt other.ctorIdx_lt same

section

variable (keccak : List Byte → Word)

def fields : NativeAction → Hashing (List Word)
  | placeOrder params => pure (placeOrderFields params)
  | placeOrderBatch orders => do
      let ordersHash ← hashOrders keccak orders
      pure [encodeBytes32 ordersHash, encodeU64 (BitVec.ofNat 64 orders.length)]
  | cancelOrder orderId => pure [encodeU128 orderId]
  | cancelAllOrders marketId => pure [encodeU64 (marketId.getD 0), encodeBool marketId.isSome]
  | modifyOrder orderId newPrice newQty =>
    pure [encodeU128 orderId, encodeI128 (newPrice.getD 0), encodeBool newPrice.isSome,
      encodeI128 (newQty.getD 0), encodeBool newQty.isSome]
  | transferToPerp amount | transferToSpot amount | permanentStake amount
  | topUpSelfStake amount => pure [encodeU256 amount]
  | withdraw amount recipient => pure [encodeU256 amount, encodeAddress recipient]
  | delegate validator amount | undelegate validator amount =>
    pure [encodeAddress validator, encodeU256 amount]
  | claimRewards | unjailSelf | claimUnbonded => pure []
  | submitProposal proposal => do
      let actionHash ← hashProposalAction keccak proposal.action
      let title ← encodeString keccak proposal.title
      let description ← encodeString keccak proposal.description
      pure [title, description, encodeBytes32 actionHash]
  | vote proposalId option => pure [encodeU64 proposalId, encodeU8 option.tag]
  | submitOraclePrices submission => do
      let pricesHash ← hashPriceVec keccak submission.prices
      pure [encodeBytes32 pricesHash, encodeU64 submission.timestamp]
  | registerValidator pubkey commission => pure [encodeBytes32 pubkey, encodeU16 commission]
  | updateCommission newRate => pure [encodeU16 newRate]
  | jailVote target => pure [encodeAddress target]
  | rotateValidatorKey newPubkey => pure [encodeBytes32 newPubkey]
  | createSession sessionPubkey expiry scope =>
    pure [sessionPubkey, encodeU64 expiry, encodeU8 scope.tag]
  | revokeSession sessionPubkey => pure [sessionPubkey]
  | updateMarketParams marketId params => do
      let paramsHash ← hashMarketParams keccak params
      pure [encodeU64 marketId, encodeBytes32 paramsHash]
  | listMarket listing => do
      let listingHash ← hashMarketListing keccak listing
      pure [encodeBytes32 listingHash]
  | delistMarket marketId => pure [encodeU64 marketId]
  | attestStateHash height hash => pure [encodeU64 height, encodeBytes32 hash]
  | setOracleSigner signer proof => do
      let proofHash ← hashProof keccak proof
      pure [encodeAddress signer, encodeBytes32 proofHash]
  | cancelByCloid marketId cloid => pure [encodeU64 marketId, encodeU128 cloid]
  | evmUserModify usingBigBlocks => pure [encodeBool usingBigBlocks]

end

end NativeAction

variable {action other : ProposalAction}

namespace ProposalAction

def typeStrings : List String :=
  ["ProposalUpdateMarketParams(uint64 marketId,MarketParams params)" ++ marketParamsType,
    "ProposalListMarket(MarketListing listing)" ++ marketListingType,
    "ProposalDelistMarket(uint64 marketId)", "ProposalParameterChange(string key,string value)",
    "ProposalValidatorRegistration(address candidate)",
    "ProposalSetDelistClosePrice(uint64 marketId,int128 price)"]

def typeString (action : ProposalAction) : String := typeStrings.getD action.ctorIdx ""

theorem typeStrings_nodup : typeStrings.Nodup := by decide +kernel

theorem ctorIdx_lt (action : ProposalAction) : action.ctorIdx < typeStrings.length := by
  have count : typeStrings.length = 6 := rfl
  cases action <;> simp [count, ProposalAction.ctorIdx]

theorem ctorIdx_eq (same : action.typeString = other.typeString) : action.ctorIdx = other.ctorIdx :=
  getD_injective typeStrings_nodup action.ctorIdx_lt other.ctorIdx_lt same

def fields (keccak : List Byte → Word) : ProposalAction → Hashing (List Word)
  | updateMarketParams marketId params => do
      let paramsHash ← hashMarketParams keccak params
      pure [encodeU64 marketId, paramsHash]
  | listMarket listing => do
      let listingHash ← hashMarketListing keccak listing
      pure [listingHash]
  | delistMarket marketId => pure [encodeU64 marketId]
  | parameterChange key value => do
      let keyHash ← encodeString keccak key
      let valueHash ← encodeString keccak value
      pure [keyHash, valueHash]
  | validatorRegistration candidate => pure [encodeAddress candidate]
  | setDelistClosePrice marketId price => pure [encodeU64 marketId, encodeI128 price]

end ProposalAction

section

variable {keccak : List Byte → Word}

theorem eip712StructHash_eq (action : NativeAction) (nonce : BitVec 64) :
    eip712StructHash keccak action nonce = (do
      let fields ← action.fields keccak
      structHash keccak action.typeString (fields ++ [encodeU64 nonce])) := by
  cases action <;>
    simp only [NativeAction.fields, bind_assoc, pure_bind] <;> rfl

theorem hashMarketParams_injective {params other : MarketParams}
    (apart : Apart keccak 0 (hashMarketParams keccak params).inputs
      (hashMarketParams keccak other).inputs)
    (same : (hashMarketParams keccak params).value = (hashMarketParams keccak other).value) :
    params = other := by
  obtain ⟨_, fields⟩ := structHash_injective apart same
  simp only [List.cons.injEq, encodeI128_inj, encodeU64_inj, widened_inj, and_true] at fields
  obtain ⟨tick, lot, leverage, maintenance, funding⟩ := fields
  cases params
  cases other
  simp_all

theorem hashMarketListing_injective {listing other : MarketListing}
    (apart : Apart keccak 0 (hashMarketListing keccak listing).inputs
      (hashMarketListing keccak other).inputs)
    (same : (hashMarketListing keccak listing).value = (hashMarketListing keccak other).value) :
    listing = other := by
  obtain ⟨bases, apart⟩ := apart.bind
  obtain ⟨quotes, apart⟩ := apart.bind
  obtain ⟨_, fields⟩ := structHash_injective apart same
  simp only [List.cons.injEq, encodeI128_inj, encodeU64_inj, widened_inj, and_true] at fields
  obtain ⟨base, quote, tick, lot, leverage, maintenance⟩ := fields
  have base := encodeString_injective bases base
  have quote := encodeString_injective quotes quote
  cases listing
  cases other
  simp_all

theorem hashProof_injective {proof other : Option OracleSignerProof}
    (apart : Apart keccak 0 (hashProof keccak proof).inputs (hashProof keccak other).inputs)
    (same : (hashProof keccak proof).value = (hashProof keccak other).value) : proof = other := by
  cases proof with
  | none =>
    cases other with
    | none => rfl
    | some other => exact absurd same.symm (apart.presentRight _ (by simp [hashProof]))
  | some proof =>
    cases other with
    | none => exact absurd same (apart.presentLeft _ (by simp [hashProof]))
    | some other => rw [proofBytes_injective (apart.call same)]

theorem hashPriceVec_injective {prices others : List (MarketId × Raw)}
    (apart : Apart keccak 0 (hashPriceVec keccak prices).inputs (hashPriceVec keccak others).inputs)
    (same : (hashPriceVec keccak prices).value = (hashPriceVec keccak others).value) :
    prices = others := by
  have words := wordsBytes_injective (apart.call same)
  clear apart same
  induction prices generalizing others with
  | nil => cases others <;> simp_all
  | cons price prices ih =>
    cases others with
    | nil => simp at words
    | cons other others =>
      simp only [flatMap_cons, cons_append, nil_append, List.cons.injEq,
        encodeU64_inj, encodeI128_inj] at words
      obtain ⟨markets, raws, words⟩ := words
      rw [ih words, Prod.ext markets raws]

theorem hashProposalAction_eq (action : ProposalAction) :
    hashProposalAction keccak action = (do
      let fields ← action.fields keccak
      structHash keccak action.typeString fields) := by
  cases action <;>
    simp only [ProposalAction.fields, bind_assoc, pure_bind] <;> rfl

theorem proposalFields_injective (index : action.ctorIdx = other.ctorIdx)
    (apart : Apart keccak 0 (action.fields keccak).inputs (other.fields keccak).inputs)
    (same : (action.fields keccak).value = (other.fields keccak).value) : action = other := by
  cases action <;> cases other <;> try cases index
  case updateMarketParams.updateMarketParams =>
    simp only [ProposalAction.fields, bind_value, pure_value, List.cons.injEq,
      encodeU64_inj] at same
    rw [same.1, hashMarketParams_injective apart.bind.1 same.2.1]
  case listMarket.listMarket =>
    rw [hashMarketListing_injective apart.bind.1 (List.cons.inj same).1]
  case parameterChange.parameterChange =>
    obtain ⟨keys, apart⟩ := apart.bind
    obtain ⟨key, rest⟩ := List.cons.inj same
    obtain ⟨value, _⟩ := List.cons.inj rest
    rw [encodeString_injective keys key, encodeString_injective apart.bind.1 value]
  all_goals
    simpa [ProposalAction.fields] using same

theorem hashProposalAction_injective
    (apart : Apart keccak 0 (hashProposalAction keccak action).inputs
      (hashProposalAction keccak other).inputs)
    (same : (hashProposalAction keccak action).value = (hashProposalAction keccak other).value) :
    action = other := by
  rw [hashProposalAction_eq, hashProposalAction_eq] at apart same
  obtain ⟨fieldsApart, structApart⟩ := apart.bind
  obtain ⟨types, fields⟩ := structHash_injective structApart same
  exact proposalFields_injective (ProposalAction.ctorIdx_eq types) fieldsApart fields

theorem orderTypeTag_erase {type other : OrderType} (same : type.tag = other.tag) :
    type.erase = other.erase := by
  cases type <;> cases other <;> simp_all [OrderType.tag, OrderType.erase]

@[simp] theorem erase_tag (type : OrderType) : type.erase.tag = type.tag := by
  cases type <;> rfl

theorem placeOrderFields_injective {params other : PlaceOrderParams}
    (same : placeOrderFields params = placeOrderFields other) : params.erase = other.erase := by
  simp only [placeOrderFields, List.cons.injEq, encodeU64_inj, encodeBool_inj, encodeI128_inj,
    encodeU8_inj, encodeU128_inj, timeInForceTag_inj, and_true] at same
  obtain ⟨market, side, price, quantity, type, force, reduce, cloid, flag⟩ := same
  have type := orderTypeTag_erase type
  have cloid := option_eq cloid flag
  cases params
  cases other
  simp_all [PlaceOrderParams.erase]

@[simp] theorem erase_placeOrderFields (params : PlaceOrderParams) :
    placeOrderFields params.erase = placeOrderFields params := by
  simp [placeOrderFields, PlaceOrderParams.erase]

variable {orders others : List PlaceOrderParams}

theorem hashPlaceOrderItems_injective {typeHash : Word}
    (apart : Apart keccak 0 (hashPlaceOrderItems keccak typeHash orders).inputs
      (hashPlaceOrderItems keccak typeHash others).inputs)
    (same : (hashPlaceOrderItems keccak typeHash orders).value =
      (hashPlaceOrderItems keccak typeHash others).value) :
    orders.map PlaceOrderParams.erase = others.map PlaceOrderParams.erase := by
  induction orders generalizing others with
  | nil =>
    cases others with
    | nil => rfl
    | cons other others => exact absurd same.symm (cons_ne_nil _ _)
  | cons params orders ih =>
    cases others with
    | nil => exact absurd same (cons_ne_nil _ _)
    | cons other others =>
      obtain ⟨itemApart, restApart⟩ := apart.bind
      obtain ⟨item, rest⟩ := List.cons.inj same
      have fields := (List.cons.inj (wordsBytes_injective (itemApart.call item))).2
      rw [map_cons, map_cons, placeOrderFields_injective fields,
        ih restApart.bind.1 rest]

theorem hashOrders_injective
    (apart : Apart keccak 0 (hashOrders keccak orders).inputs (hashOrders keccak others).inputs)
    (same : (hashOrders keccak orders).value = (hashOrders keccak others).value) :
    orders.map PlaceOrderParams.erase = others.map PlaceOrderParams.erase := by
  obtain ⟨_, apart⟩ := apart.bind
  obtain ⟨itemsApart, apart⟩ := apart.bind
  exact hashPlaceOrderItems_injective itemsApart (wordsBytes_injective (apart.call same))

theorem hashPlaceOrderItems_erase (typeHash : Word) (orders : List PlaceOrderParams) :
    hashPlaceOrderItems keccak typeHash (orders.map PlaceOrderParams.erase) =
      hashPlaceOrderItems keccak typeHash orders := by
  induction orders with
  | nil => rfl
  | cons params orders ih =>
    simp only [map_cons, hashPlaceOrderItems, ih, hashPlaceOrderItem,
      erase_placeOrderFields]

variable {action other : NativeAction}

theorem fields_injective (index : action.ctorIdx = other.ctorIdx)
    (apart : Apart keccak 0 (action.fields keccak).inputs (other.fields keccak).inputs)
    (same : (action.fields keccak).value = (other.fields keccak).value) :
    action.erase = other.erase := by
  cases action <;> cases other <;> try cases index
  case placeOrder.placeOrder =>
    exact congrArg NativeAction.placeOrder (placeOrderFields_injective same)
  case placeOrderBatch.placeOrderBatch =>
    exact congrArg NativeAction.placeOrderBatch
      (hashOrders_injective apart.bind.1 (List.cons.inj same).1)
  case cancelAllOrders.cancelAllOrders =>
    simp only [NativeAction.fields, pure_value, List.cons.injEq, encodeU64_inj,
      encodeBool_inj, and_true] at same
    rw [option_eq same.1 same.2]
  case modifyOrder.modifyOrder =>
    simp only [NativeAction.fields, pure_value, List.cons.injEq, encodeU128_inj,
      encodeI128_inj, encodeBool_inj, and_true] at same
    obtain ⟨id, price, hasPrice, qty, hasQty⟩ := same
    rw [id, option_eq price hasPrice, option_eq qty hasQty]
  case submitProposal.submitProposal proposal otherProposal =>
    obtain ⟨actionApart, apart⟩ := apart.bind
    obtain ⟨titleApart, apart⟩ := apart.bind
    simp only [NativeAction.fields, bind_value, pure_value, List.cons.injEq, and_true] at same
    obtain ⟨title, description, action⟩ := same
    have title := encodeString_injective titleApart title
    have description := encodeString_injective apart.bind.1 description
    have action := hashProposalAction_injective actionApart action
    cases proposal
    cases otherProposal
    simp_all
  case submitOraclePrices.submitOraclePrices submission otherSubmission =>
    simp only [NativeAction.fields, bind_value, pure_value, List.cons.injEq, encodeU64_inj,
      and_true] at same
    have prices := hashPriceVec_injective apart.bind.1 same.1
    cases submission
    cases otherSubmission
    simp_all
  case updateMarketParams.updateMarketParams =>
    simp only [NativeAction.fields, bind_value, pure_value, List.cons.injEq, encodeU64_inj,
      and_true] at same
    rw [same.1, hashMarketParams_injective apart.bind.1 same.2]
  case listMarket.listMarket =>
    rw [hashMarketListing_injective apart.bind.1 (List.cons.inj same).1]
  case setOracleSigner.setOracleSigner =>
    simp only [NativeAction.fields, bind_value, pure_value, List.cons.injEq,
      encodeAddress_inj, and_true] at same
    rw [same.1, hashProof_injective apart.bind.1 same.2]
  case claimRewards.claimRewards | unjailSelf.unjailSelf | claimUnbonded.claimUnbonded => rfl
  -- The rest are words and nothing else.
  all_goals
    simpa [NativeAction.fields, NativeAction.erase, encodeU256, encodeBytes32] using same

theorem eip712StructHash_injective {nonce otherNonce : BitVec 64}
    (apart : Apart keccak 0 (eip712StructHash keccak action nonce).inputs
      (eip712StructHash keccak other otherNonce).inputs)
    (same : (eip712StructHash keccak action nonce).value =
      (eip712StructHash keccak other otherNonce).value) :
    action.erase = other.erase ∧ nonce = otherNonce := by
  rw [eip712StructHash_eq, eip712StructHash_eq] at apart same
  obtain ⟨fieldsApart, structApart⟩ := apart.bind
  obtain ⟨types, words⟩ := structHash_injective structApart same
  obtain ⟨fields, nonces⟩ := List.append_inj' words rfl
  exact ⟨fields_injective (NativeAction.ctorIdx_eq types) fieldsApart fields, by simpa using nonces⟩

theorem eip712StructHash_erase (action : NativeAction) (nonce : BitVec 64) :
    eip712StructHash keccak action.erase nonce = eip712StructHash keccak action nonce := by
  cases action with
  | placeOrder params =>
    simp only [NativeAction.erase, eip712StructHash, hashPlaceOrder, erase_placeOrderFields]
  | placeOrderBatch orders =>
    simp only [NativeAction.erase, eip712StructHash, hashPlaceOrderBatch, hashOrders,
      hashPlaceOrderItems_erase, length_map]
  | _ => rfl

end

end TorusHyperBft.Signing
