import TorusHyperBft.Hashed
import TorusHyperBft.Signing.Action

namespace TorusHyperBft.Signing

/-! The EIP-712 hashes of native actions. The hash function is a parameter, and every
computation keeps the list of its inputs. -/

/-! Values are padded to words of 32 bytes, the most significant first. -/

def encodeUnsigned {width : Nat} (value : BitVec width) : Word := value.setWidth 256

def encodeU8 (value : BitVec 8) : Word := encodeUnsigned value

def encodeU16 (value : BitVec 16) : Word := encodeUnsigned value

def encodeU64 (value : BitVec 64) : Word := encodeUnsigned value

def encodeU128 (value : BitVec 128) : Word := encodeUnsigned value

def encodeI128 (value : BitVec 128) : Word := value.signExtend 256

def encodeBool (value : Bool) : Word := if value then 1 else 0

def encodeAddress (address : Address) : Word := encodeUnsigned address

def encodeU256 (value : Word) : Word := value

def encodeBytes32 (value : Word) : Word := value

def wordBytes (word : Word) : List Byte := toBytes 32 word.toNat

def wordsBytes (words : List Word) : List Byte := words.flatMap wordBytes

def stringBytes (text : String) : List Byte := text.toByteArray.data.toList.map UInt8.toFin

abbrev Hashing := Hashed (List Byte)

section

variable (keccak : List Byte → Word)

def encodeString (text : String) : Hashing Word := .call keccak (stringBytes text)

def structHash (type : String) (fields : List Word) : Hashing Word := do
  let typeHash ← .call keccak (stringBytes type)
  .call keccak (wordsBytes (typeHash :: fields))

def domainType : String :=
  "EIP712Domain(string name,string version,uint256 chainId,address verifyingContract)"

def eip712DomainSeparatorForChain (chainId : BitVec 64) : Hashing Word := do
  let name ← encodeString keccak "Torus"
  let version ← encodeString keccak "1"
  structHash keccak domainType
    [name, version, encodeU256 (chainId.setWidth 256), encodeAddress 0]

def eip712SigningHash (domainSeparator structHash : Word) : Hashing Word :=
  .call keccak (0x19 :: 0x01 :: wordsBytes [domainSeparator, structHash])

def OrderType.tag : OrderType → BitVec 8
  | .limit => 0
  | .market => 1
  | .stopMarket _ => 2
  | .stopLimit .. => 3

def TimeInForce.tag : TimeInForce → BitVec 8
  | .gtc => 0
  | .ioc => 1
  | .fok => 2
  | .postOnly => 3

def placeOrderFields (params : PlaceOrderParams) : List Word :=
  [encodeU64 params.marketId, encodeBool params.isBuy, encodeI128 params.price,
    encodeI128 params.quantity, encodeU8 params.orderType.tag, encodeU8 params.timeInForce.tag,
    encodeBool params.reduceOnly, encodeU128 (params.clientOrderId.getD 0),
    encodeBool params.clientOrderId.isSome]

def placeOrderType : String :=
  "PlaceOrder(uint64 marketId,bool isBuy,int128 price,int128 quantity," ++
    "uint8 orderType,uint8 timeInForce,bool reduceOnly," ++
    "uint128 clientOrderId,bool hasClientOrderId,uint64 nonce)"

def hashPlaceOrder (params : PlaceOrderParams) (nonce : BitVec 64) : Hashing Word :=
  structHash keccak placeOrderType (placeOrderFields params ++ [encodeU64 nonce])

def placeOrderItemType : String :=
  "PlaceOrderItem(uint64 marketId,bool isBuy,int128 price,int128 quantity," ++
    "uint8 orderType,uint8 timeInForce,bool reduceOnly," ++
    "uint128 clientOrderId,bool hasClientOrderId)"

def hashPlaceOrderItem (typeHash : Word) (params : PlaceOrderParams) : Hashing Word :=
  .call keccak (wordsBytes (typeHash :: placeOrderFields params))

def hashPlaceOrderItems (typeHash : Word) : List PlaceOrderParams → Hashing (List Word)
  | [] => pure []
  | params :: orders => do
      let item ← hashPlaceOrderItem keccak typeHash params
      let items ← hashPlaceOrderItems typeHash orders
      pure (item :: items)

def placeOrderBatchType : String := "PlaceOrderBatch(bytes32 ordersHash,uint64 count,uint64 nonce)"

def hashOrders (orders : List PlaceOrderParams) : Hashing Word := do
  let typeHash ← .call keccak (stringBytes placeOrderItemType)
  let items ← hashPlaceOrderItems keccak typeHash orders
  .call keccak (wordsBytes items)

def hashPlaceOrderBatch (orders : List PlaceOrderParams) (nonce : BitVec 64) : Hashing Word := do
  let ordersHash ← hashOrders keccak orders
  structHash keccak placeOrderBatchType
    [encodeBytes32 ordersHash, encodeU64 (BitVec.ofNat 64 orders.length), encodeU64 nonce]

def cancelOrderType : String := "CancelOrder(uint128 orderId,uint64 nonce)"

def hashCancelOrder (orderId : OrderId) (nonce : BitVec 64) : Hashing Word :=
  structHash keccak cancelOrderType [encodeU128 orderId, encodeU64 nonce]

def cancelByCloidType : String := "CancelByCloid(uint64 marketId,uint128 cloid,uint64 nonce)"

def hashCancelByCloid (marketId : MarketId) (cloid : Cloid) (nonce : BitVec 64) : Hashing Word :=
  structHash keccak cancelByCloidType [encodeU64 marketId, encodeU128 cloid, encodeU64 nonce]

def cancelAllOrdersType : String :=
  "CancelAllOrders(uint64 marketId,bool hasMarketId,uint64 nonce)"

def hashCancelAllOrders (marketId : Option MarketId) (nonce : BitVec 64) : Hashing Word :=
  structHash keccak cancelAllOrdersType
    [encodeU64 (marketId.getD 0), encodeBool marketId.isSome, encodeU64 nonce]

def modifyOrderType : String :=
  "ModifyOrder(uint128 orderId,int128 newPrice,bool hasNewPrice," ++
    "int128 newQty,bool hasNewQty,uint64 nonce)"

def hashModifyOrder (orderId : OrderId) (newPrice newQty : Option Raw) (nonce : BitVec 64) :
    Hashing Word :=
  structHash keccak modifyOrderType
    [encodeU128 orderId, encodeI128 (newPrice.getD 0), encodeBool newPrice.isSome,
      encodeI128 (newQty.getD 0), encodeBool newQty.isSome, encodeU64 nonce]

def transferToPerpType : String := "TransferToPerp(uint256 amount,uint64 nonce)"

def hashTransferToPerp (amount : Word) (nonce : BitVec 64) : Hashing Word :=
  structHash keccak transferToPerpType [encodeU256 amount, encodeU64 nonce]

def transferToSpotType : String := "TransferToSpot(uint256 amount,uint64 nonce)"

def hashTransferToSpot (amount : Word) (nonce : BitVec 64) : Hashing Word :=
  structHash keccak transferToSpotType [encodeU256 amount, encodeU64 nonce]

def withdrawType : String := "Withdraw(uint256 amount,address to,uint64 nonce)"

def hashWithdraw (amount : Word) (recipient : Address) (nonce : BitVec 64) : Hashing Word :=
  structHash keccak withdrawType [encodeU256 amount, encodeAddress recipient, encodeU64 nonce]

def delegateType : String := "Delegate(address validator,uint256 amount,uint64 nonce)"

def hashDelegate (validator : Address) (amount : Word) (nonce : BitVec 64) : Hashing Word :=
  structHash keccak delegateType [encodeAddress validator, encodeU256 amount, encodeU64 nonce]

def undelegateType : String := "Undelegate(address validator,uint256 amount,uint64 nonce)"

def hashUndelegate (validator : Address) (amount : Word) (nonce : BitVec 64) : Hashing Word :=
  structHash keccak undelegateType [encodeAddress validator, encodeU256 amount, encodeU64 nonce]

def permanentStakeType : String := "PermanentStake(uint256 amount,uint64 nonce)"

def hashPermanentStake (amount : Word) (nonce : BitVec 64) : Hashing Word :=
  structHash keccak permanentStakeType [encodeU256 amount, encodeU64 nonce]

def claimRewardsType : String := "ClaimRewards(uint64 nonce)"

def hashClaimRewards (nonce : BitVec 64) : Hashing Word :=
  structHash keccak claimRewardsType [encodeU64 nonce]

def claimUnbondedType : String := "ClaimUnbonded(uint64 nonce)"

def hashClaimUnbonded (nonce : BitVec 64) : Hashing Word :=
  structHash keccak claimUnbondedType [encodeU64 nonce]

def topUpSelfStakeType : String := "TopUpSelfStake(uint256 amount,uint64 nonce)"

def hashTopUpSelfStake (amount : Word) (nonce : BitVec 64) : Hashing Word :=
  structHash keccak topUpSelfStakeType [encodeU256 amount, encodeU64 nonce]

def setOracleSignerType : String :=
  "SetOracleSigner(address signer,bytes32 proofHash,uint64 nonce)"

def proofBytes (proof : OracleSignerProof) : List Byte :=
  toBytes 8 proof.nonce.toNat ++
    (toBytes 1 proof.signature.v.toNat ++ wordsBytes [proof.signature.r, proof.signature.s])

def hashProof : Option OracleSignerProof → Hashing Word
  | none => pure 0
  | some proof => .call keccak (proofBytes proof)

def hashSetOracleSigner (signer : Address) (proof : Option OracleSignerProof)
    (nonce : BitVec 64) : Hashing Word := do
  let proofHash ← hashProof keccak proof
  structHash keccak setOracleSignerType
    [encodeAddress signer, encodeBytes32 proofHash, encodeU64 nonce]

def hashPriceVec (prices : List (MarketId × Raw)) : Hashing Word :=
  .call keccak
    (wordsBytes (prices.flatMap fun entry => [encodeU64 entry.1, encodeI128 entry.2]))

def submitOraclePricesType : String :=
  "SubmitOraclePrices(bytes32 pricesHash,uint64 timestamp,uint64 nonce)"

def hashSubmitOraclePrices (submission : OracleSubmission) (nonce : BitVec 64) :
    Hashing Word := do
  let pricesHash ← hashPriceVec keccak submission.prices
  structHash keccak submitOraclePricesType
    [encodeBytes32 pricesHash, encodeU64 submission.timestamp, encodeU64 nonce]

def marketParamsType : String :=
  "MarketParams(int128 tickSize,int128 lotSize,uint32 maxLeverage," ++
    "uint32 maintenanceMarginBps,uint32 maxFundingRateBps)"

def marketListingType : String :=
  "MarketListing(string baseAsset,string quoteAsset,int128 tickSize,int128 lotSize," ++
    "uint32 maxLeverage,uint32 maintenanceMarginBps)"

def hashMarketParams (params : MarketParams) : Hashing Word :=
  structHash keccak marketParamsType
    [encodeI128 params.tickSize, encodeI128 params.lotSize,
      encodeU64 (params.maxLeverage.setWidth 64),
      encodeU64 (params.maintenanceMarginBps.setWidth 64),
      encodeU64 (params.maxFundingRateBps.setWidth 64)]

def hashMarketListing (listing : MarketListing) : Hashing Word := do
  let baseAsset ← encodeString keccak listing.baseAsset
  let quoteAsset ← encodeString keccak listing.quoteAsset
  structHash keccak marketListingType
    [baseAsset, quoteAsset, encodeI128 listing.tickSize, encodeI128 listing.lotSize,
      encodeU64 (listing.maxLeverage.setWidth 64),
      encodeU64 (listing.maintenanceMarginBps.setWidth 64)]

def updateMarketParamsType : String :=
  "UpdateMarketParams(uint64 marketId,MarketParams params,uint64 nonce)" ++ marketParamsType

def hashUpdateMarketParams (marketId : MarketId) (params : MarketParams) (nonce : BitVec 64) :
    Hashing Word := do
  let paramsHash ← hashMarketParams keccak params
  structHash keccak updateMarketParamsType
    [encodeU64 marketId, encodeBytes32 paramsHash, encodeU64 nonce]

def listMarketType : String :=
  "ListMarket(MarketListing listing,uint64 nonce)" ++ marketListingType

def hashListMarket (listing : MarketListing) (nonce : BitVec 64) : Hashing Word := do
  let listingHash ← hashMarketListing keccak listing
  structHash keccak listMarketType [encodeBytes32 listingHash, encodeU64 nonce]

def delistMarketType : String := "DelistMarket(uint64 marketId,uint64 nonce)"

def hashDelistMarket (marketId : MarketId) (nonce : BitVec 64) : Hashing Word :=
  structHash keccak delistMarketType [encodeU64 marketId, encodeU64 nonce]

def hashProposalAction : ProposalAction → Hashing Word
  | .updateMarketParams marketId params => do
      let paramsHash ← hashMarketParams keccak params
      structHash keccak
        ("ProposalUpdateMarketParams(uint64 marketId,MarketParams params)" ++ marketParamsType)
        [encodeU64 marketId, paramsHash]
  | .listMarket listing => do
      let listingHash ← hashMarketListing keccak listing
      structHash keccak ("ProposalListMarket(MarketListing listing)" ++ marketListingType)
        [listingHash]
  | .delistMarket marketId =>
    structHash keccak "ProposalDelistMarket(uint64 marketId)" [encodeU64 marketId]
  | .parameterChange key value => do
      let keyHash ← encodeString keccak key
      let valueHash ← encodeString keccak value
      structHash keccak "ProposalParameterChange(string key,string value)" [keyHash, valueHash]
  | .validatorRegistration candidate =>
    structHash keccak "ProposalValidatorRegistration(address candidate)"
      [encodeAddress candidate]
  | .setDelistClosePrice marketId price =>
    structHash keccak "ProposalSetDelistClosePrice(uint64 marketId,int128 price)"
      [encodeU64 marketId, encodeI128 price]

def submitProposalType : String :=
  "SubmitProposal(string title,string description,bytes32 actionHash,uint64 nonce)"

def hashSubmitProposal (proposal : Proposal) (nonce : BitVec 64) : Hashing Word := do
  let actionHash ← hashProposalAction keccak proposal.action
  let title ← encodeString keccak proposal.title
  let description ← encodeString keccak proposal.description
  structHash keccak submitProposalType
    [title, description, encodeBytes32 actionHash, encodeU64 nonce]

def VoteOption.tag : VoteOption → BitVec 8
  | .yes => 0
  | .no => 1
  | .abstain => 2

def voteType : String := "Vote(uint64 proposalId,uint8 option,uint64 nonce)"

def hashVote (proposalId : BitVec 64) (option : VoteOption) (nonce : BitVec 64) : Hashing Word :=
  structHash keccak voteType [encodeU64 proposalId, encodeU8 option.tag, encodeU64 nonce]

def registerValidatorType : String :=
  "RegisterValidator(bytes32 pubkey,uint16 commission,uint64 nonce)"

def hashRegisterValidator (pubkey : PublicKey) (commission : BitVec 16) (nonce : BitVec 64) :
    Hashing Word :=
  structHash keccak registerValidatorType
    [encodeBytes32 pubkey, encodeU16 commission, encodeU64 nonce]

def updateCommissionType : String := "UpdateCommission(uint16 newRate,uint64 nonce)"

def hashUpdateCommission (newRate : BitVec 16) (nonce : BitVec 64) : Hashing Word :=
  structHash keccak updateCommissionType [encodeU16 newRate, encodeU64 nonce]

def jailVoteType : String := "JailVote(address target,uint64 nonce)"

def hashJailVote (target : Address) (nonce : BitVec 64) : Hashing Word :=
  structHash keccak jailVoteType [encodeAddress target, encodeU64 nonce]

def attestStateHashType : String :=
  "AttestStateHash(uint64 height,bytes32 stateHash,uint64 nonce)"

def hashAttestStateHash (height : BitVec 64) (stateHash : Word) (nonce : BitVec 64) :
    Hashing Word :=
  structHash keccak attestStateHashType
    [encodeU64 height, encodeBytes32 stateHash, encodeU64 nonce]

def unjailSelfType : String := "UnjailSelf(uint64 nonce)"

def hashUnjailSelf (nonce : BitVec 64) : Hashing Word :=
  structHash keccak unjailSelfType [encodeU64 nonce]

def rotateValidatorKeyType : String := "RotateValidatorKey(bytes32 newPubkey,uint64 nonce)"

def hashRotateValidatorKey (newPubkey : PublicKey) (nonce : BitVec 64) : Hashing Word :=
  structHash keccak rotateValidatorKeyType [encodeBytes32 newPubkey, encodeU64 nonce]

def SessionScope.tag : SessionScope → BitVec 8
  | .trading => 0
  | .transfersOnly => 1
  | .full => 2

def createSessionType : String :=
  "CreateSession(bytes32 sessionPubkey,uint64 expiry,uint8 scope,uint64 nonce)"

def hashCreateSession (pubkey : Word) (expiry : BitVec 64) (scope : SessionScope)
    (nonce : BitVec 64) : Hashing Word :=
  structHash keccak createSessionType
    [pubkey, encodeU64 expiry, encodeU8 scope.tag, encodeU64 nonce]

def revokeSessionType : String := "RevokeSession(bytes32 sessionPubkey,uint64 nonce)"

def hashRevokeSession (pubkey : Word) (nonce : BitVec 64) : Hashing Word :=
  structHash keccak revokeSessionType [pubkey, encodeU64 nonce]

def evmUserModifyType : String := "EvmUserModify(bool usingBigBlocks,uint64 nonce)"

def hashEvmUserModify (usingBigBlocks : Bool) (nonce : BitVec 64) : Hashing Word :=
  structHash keccak evmUserModifyType [encodeBool usingBigBlocks, encodeU64 nonce]

def eip712StructHash (action : NativeAction) (nonce : BitVec 64) : Hashing Word :=
  match action with
  | .placeOrder params => hashPlaceOrder keccak params nonce
  | .placeOrderBatch orders => hashPlaceOrderBatch keccak orders nonce
  | .cancelOrder orderId => hashCancelOrder keccak orderId nonce
  | .cancelAllOrders marketId => hashCancelAllOrders keccak marketId nonce
  | .modifyOrder orderId newPrice newQty => hashModifyOrder keccak orderId newPrice newQty nonce
  | .transferToPerp amount => hashTransferToPerp keccak amount nonce
  | .transferToSpot amount => hashTransferToSpot keccak amount nonce
  | .withdraw amount recipient => hashWithdraw keccak amount recipient nonce
  | .delegate validator amount => hashDelegate keccak validator amount nonce
  | .undelegate validator amount => hashUndelegate keccak validator amount nonce
  | .permanentStake amount => hashPermanentStake keccak amount nonce
  | .claimRewards => hashClaimRewards keccak nonce
  | .submitProposal proposal => hashSubmitProposal keccak proposal nonce
  | .vote proposalId option => hashVote keccak proposalId option nonce
  | .submitOraclePrices submission => hashSubmitOraclePrices keccak submission nonce
  | .registerValidator pubkey commission => hashRegisterValidator keccak pubkey commission nonce
  | .updateCommission newRate => hashUpdateCommission keccak newRate nonce
  | .jailVote target => hashJailVote keccak target nonce
  | .attestStateHash height hash => hashAttestStateHash keccak height hash nonce
  | .unjailSelf => hashUnjailSelf keccak nonce
  | .rotateValidatorKey newPubkey => hashRotateValidatorKey keccak newPubkey nonce
  | .updateMarketParams marketId params => hashUpdateMarketParams keccak marketId params nonce
  | .listMarket listing => hashListMarket keccak listing nonce
  | .delistMarket marketId => hashDelistMarket keccak marketId nonce
  | .topUpSelfStake amount => hashTopUpSelfStake keccak amount nonce
  | .createSession sessionPubkey expiry scope =>
    hashCreateSession keccak sessionPubkey expiry scope nonce
  | .revokeSession sessionPubkey => hashRevokeSession keccak sessionPubkey nonce
  | .claimUnbonded => hashClaimUnbonded keccak nonce
  | .setOracleSigner signer proof => hashSetOracleSigner keccak signer proof nonce
  | .cancelByCloid marketId cloid => hashCancelByCloid keccak marketId cloid nonce
  | .evmUserModify usingBigBlocks => hashEvmUserModify keccak usingBigBlocks nonce

def signingHash (chainId : BitVec 64) (action : NativeAction) (nonce : BitVec 64) :
    Hashing Word := do
  let domain ← eip712DomainSeparatorForChain keccak chainId
  let structHash ← eip712StructHash keccak action nonce
  eip712SigningHash keccak domain structHash

end

end TorusHyperBft.Signing
