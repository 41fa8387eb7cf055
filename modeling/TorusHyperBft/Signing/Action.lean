import TorusHyperBft.Bytes

namespace TorusHyperBft.Signing

/-! Native actions as they are signed: every field has the width of its source type, and
byte arrays of a fixed length are the numbers they spell with the most significant byte
first. -/

abbrev Word := BitVec 256

abbrev Address := BitVec 160

abbrev MarketId := BitVec 64

abbrev OrderId := BitVec 128

abbrev Cloid := BitVec 128

abbrev Raw := BitVec 128

abbrev PublicKey := BitVec 256

inductive OrderType where
  | limit
  | market
  | stopMarket (trigger : Raw)
  | stopLimit (trigger limit : Raw)
deriving DecidableEq

inductive TimeInForce where
  | gtc
  | ioc
  | fok
  | postOnly
deriving DecidableEq

structure PlaceOrderParams where
  marketId : MarketId
  isBuy : Bool
  price : Raw
  quantity : Raw
  orderType : OrderType
  timeInForce : TimeInForce
  reduceOnly : Bool
  clientOrderId : Option Cloid
deriving DecidableEq

structure MarketParams where
  tickSize : Raw
  lotSize : Raw
  maxLeverage : BitVec 32
  maintenanceMarginBps : BitVec 32
  maxFundingRateBps : BitVec 32
deriving DecidableEq

structure MarketListing where
  baseAsset : String
  quoteAsset : String
  tickSize : Raw
  lotSize : Raw
  maxLeverage : BitVec 32
  maintenanceMarginBps : BitVec 32
deriving DecidableEq

inductive ProposalAction where
  | updateMarketParams (marketId : MarketId) (params : MarketParams)
  | listMarket (listing : MarketListing)
  | delistMarket (marketId : MarketId)
  | parameterChange (key value : String)
  | validatorRegistration (candidate : Address)
  | setDelistClosePrice (marketId : MarketId) (price : Raw)
deriving DecidableEq

structure Proposal where
  title : String
  description : String
  action : ProposalAction
deriving DecidableEq

inductive VoteOption where
  | yes
  | no
  | abstain
deriving DecidableEq

structure OracleSubmission where
  prices : List (MarketId × Raw)
  timestamp : BitVec 64
deriving DecidableEq

structure Signature where
  v : BitVec 8
  r : Word
  s : Word
deriving DecidableEq

structure OracleSignerProof where
  nonce : BitVec 64
  signature : Signature
deriving DecidableEq

inductive SessionScope where
  | trading
  | transfersOnly
  | full
deriving DecidableEq

inductive NativeAction where
  | placeOrder (params : PlaceOrderParams)
  | placeOrderBatch (orders : List PlaceOrderParams)
  | cancelOrder (orderId : OrderId)
  | cancelAllOrders (marketId : Option MarketId)
  | modifyOrder (orderId : OrderId) (newPrice newQty : Option Raw)
  | transferToPerp (amount : Word)
  | transferToSpot (amount : Word)
  | withdraw (amount : Word) (recipient : Address)
  | delegate (validator : Address) (amount : Word)
  | undelegate (validator : Address) (amount : Word)
  | permanentStake (amount : Word)
  | claimRewards
  | topUpSelfStake (amount : Word)
  | submitProposal (proposal : Proposal)
  | vote (proposalId : BitVec 64) (option : VoteOption)
  | submitOraclePrices (submission : OracleSubmission)
  | registerValidator (pubkey : PublicKey) (commission : BitVec 16)
  | updateCommission (newRate : BitVec 16)
  | jailVote (target : Address)
  | unjailSelf
  | rotateValidatorKey (newPubkey : PublicKey)
  | createSession (sessionPubkey : Word) (expiry : BitVec 64) (scope : SessionScope)
  | revokeSession (sessionPubkey : Word)
  | updateMarketParams (marketId : MarketId) (params : MarketParams)
  | listMarket (listing : MarketListing)
  | delistMarket (marketId : MarketId)
  | attestStateHash (height : BitVec 64) (hash : Word)
  | claimUnbonded
  | setOracleSigner (signer : Address) (proof : Option OracleSignerProof)
  | cancelByCloid (marketId : MarketId) (cloid : Cloid)
  | evmUserModify (usingBigBlocks : Bool)
deriving DecidableEq

namespace NativeAction

def isTrading : NativeAction → Bool
  | placeOrder _ | placeOrderBatch _ | cancelOrder _ | modifyOrder .. | cancelAllOrders _
  | cancelByCloid .. => true
  | _ => false

end NativeAction

def SessionScope.allows : SessionScope → NativeAction → Bool
  | .trading, action | .full, action => action.isTrading
  | .transfersOnly, _ => false

structure SessionData where
  owner : Address
  expiry : BitVec 64
  scope : SessionScope

inductive ActionSignature where
  | eip712 (signature : Signature)
  | session (sessionPubkey : Word) (sig : BitVec 512)

structure SignedNativeAction where
  action : NativeAction
  nonce : BitVec 64
  signature : ActionSignature

namespace OrderType

def isStop : OrderType → Bool
  | .stopMarket _ | .stopLimit .. => true
  | .limit | .market => false

def erase : OrderType → OrderType
  | .stopMarket _ => .stopMarket 0
  | .stopLimit .. => .stopLimit 0 0
  | other => other

def retrigger : OrderType → OrderType
  | .stopMarket trigger => .stopMarket (trigger + 1)
  | .stopLimit trigger price => .stopLimit (trigger + 1) price
  | other => other

theorem erase_of_not_stop {type : OrderType} (plain : type.isStop = false) : type.erase = type := by
  cases type <;> simp_all [isStop, erase]

@[simp] theorem erase_isStop (type : OrderType) : type.erase.isStop = type.isStop := by
  cases type <;> rfl

@[simp] theorem retrigger_erase (type : OrderType) : type.retrigger.erase = type.erase := by
  cases type <;> rfl

theorem retrigger_ne {type : OrderType} (stop : type.isStop = true) : type.retrigger ≠ type := by
  have moved : ∀ trigger : Raw, trigger + 1 ≠ trigger := by
    intro trigger same
    simp at same
  cases type <;> simp_all [isStop, retrigger]

end OrderType

namespace PlaceOrderParams

def erase (params : PlaceOrderParams) : PlaceOrderParams :=
  { params with orderType := params.orderType.erase }

def retrigger (params : PlaceOrderParams) : PlaceOrderParams :=
  { params with orderType := params.orderType.retrigger }

theorem erase_of_not_stop {params : PlaceOrderParams} (plain : params.orderType.isStop = false) :
    params.erase = params := by
  rw [erase, OrderType.erase_of_not_stop plain]

@[simp] theorem retrigger_erase (params : PlaceOrderParams) :
    params.retrigger.erase = params.erase := by
  simp [erase, retrigger]

theorem retrigger_ne {params : PlaceOrderParams} (stop : params.orderType.isStop = true) :
    params.retrigger ≠ params := by
  intro same
  exact OrderType.retrigger_ne stop (congrArg orderType same)

end PlaceOrderParams

namespace NativeAction

def hasStop : NativeAction → Bool
  | placeOrder params => params.orderType.isStop
  | placeOrderBatch orders => orders.any fun params => params.orderType.isStop
  | _ => false

def erase : NativeAction → NativeAction
  | placeOrder params => placeOrder params.erase
  | placeOrderBatch orders => placeOrderBatch (orders.map PlaceOrderParams.erase)
  | other => other

def retrigger : NativeAction → NativeAction
  | placeOrder params => placeOrder params.retrigger
  | placeOrderBatch orders => placeOrderBatch (orders.map PlaceOrderParams.retrigger)
  | other => other

theorem erase_of_not_stop {action : NativeAction} (plain : action.hasStop = false) :
    action.erase = action := by
  cases action with
  | placeOrder params => rw [erase, PlaceOrderParams.erase_of_not_stop plain]
  | placeOrderBatch orders =>
    simp only [hasStop, List.any_eq_false] at plain
    have unchanged : orders.map PlaceOrderParams.erase = orders.map id := by
      apply List.map_congr_left
      intro params member
      exact PlaceOrderParams.erase_of_not_stop (by simpa using plain params member)
    rw [erase, unchanged, List.map_id]
  | _ => rfl

@[simp] theorem erase_hasStop (action : NativeAction) : action.erase.hasStop = action.hasStop := by
  cases action with
  | placeOrder params => simp [erase, hasStop, PlaceOrderParams.erase]
  | placeOrderBatch orders =>
    simp [erase, hasStop, PlaceOrderParams.erase, List.any_map, Function.comp_def]
  | _ => rfl

@[simp] theorem retrigger_erase (action : NativeAction) :
    action.retrigger.erase = action.erase := by
  cases action with
  | placeOrder params => simp [erase, retrigger]
  | placeOrderBatch orders => simp [erase, retrigger]
  | _ => rfl

theorem retrigger_ne {action : NativeAction} (stop : action.hasStop = true) :
    action.retrigger ≠ action := by
  intro same
  cases action with
  | placeOrder params => exact PlaceOrderParams.retrigger_ne stop (placeOrder.inj same)
  | placeOrderBatch orders =>
    obtain ⟨params, member, stop⟩ := List.any_eq_true.mp stop
    have fixed : ∀ params ∈ orders, params.retrigger = params := by
      apply List.map_inj_left.mp
      rw [List.map_id']
      exact placeOrderBatch.inj same
    exact PlaceOrderParams.retrigger_ne stop (fixed params member)
  | _ => simp [hasStop] at stop

theorem eq_of_erase_eq {action other : NativeAction} (plain : action.hasStop = false)
    (same : action.erase = other.erase) : action = other := by
  have otherPlain : other.hasStop = false := by
    rw [← erase_hasStop, ← same, erase_hasStop, plain]
  rw [← erase_of_not_stop plain, same, erase_of_not_stop otherPlain]

end NativeAction

end TorusHyperBft.Signing
