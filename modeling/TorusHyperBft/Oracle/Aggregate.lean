import TorusHyperBft.Rows
import TorusHyperBft.OrderBook.Types

namespace TorusHyperBft.Oracle

open FixedPoint
open OrderBook (Address MarketId)

/-! Aggregation of the validators' price submissions into the mark of a market. -/

structure OracleSubmission where
  validator : Address
  marketId : MarketId
  price : Int
  sampleMs : Nat
  blockNumber : Nat
  timestamp : Nat
deriving DecidableEq

structure StoredAggregatedPrice where
  price : Int
  blockNumber : Nat
  numReporters : Nat
  timestamp : Nat
deriving DecidableEq

structure OracleConfig where
  maxAgeSecs : Nat
  minOracleReporters : Nat
  windowSecs : Nat
deriving DecidableEq

inductive OracleError where
  | noOraclePrice (marketId : MarketId)
  | staleOraclePrice (marketId : MarketId)
deriving DecidableEq

abbrev SubmissionKey := MarketId × Address

/-- The submission rows, one for each market and validator; `none` is a row that does not decode. -/
structure SubmissionRows where
  rows : AList fun _ : SubmissionKey => Option OracleSubmission := ∅
  keyed : ∀ key sub, rows.lookup key = some (some sub) → (sub.marketId, sub.validator) = key := by simp

def SubmissionRows.put (submissions : SubmissionRows) (sub : OracleSubmission) : SubmissionRows where
  rows := submissions.rows.insert (sub.marketId, sub.validator) (some sub)
  keyed key found lookup := by
    by_cases same : key = (sub.marketId, sub.validator)
    · subst same
      rw [AList.lookup_insert, Option.some.injEq, Option.some.injEq] at lookup
      rw [lookup]
    · rw [AList.lookup_insert_ne same] at lookup
      exact submissions.keyed key found lookup

def maxOraclePriceRaw : Int := 1000000000000 * scale

def validOraclePrice (price : Int) : Bool := price > 0 && price ≤ maxOraclePriceRaw

abbrev Weighed := List (Int × Int)

def simpleMedian (prices : List Int) : Int :=
  let sorted := prices.mergeSort fun left right => left ≤ right
  let n := sorted.length
  if n = 0 then 0
  else if n % 2 = 1 then sorted.getD (n / 2) 0
  else div (sorted.getD (n / 2 - 1) 0 + sorted.getD (n / 2) 0) (2 * scale)

/-- Keep what lies within three times the mean deviation from the unweighted median. -/
def rejectOutliers (pairs : Weighed) : Weighed :=
  if pairs.length ≤ 1 then pairs
  else
    let prices := pairs.map Prod.fst
    let median := simpleMedian prices
    let deviation (price : Int) : Int := (price - median).natAbs
    let threeSum := 3 * (prices.map deviation).sum
    pairs.filter fun pair => (prices.length : Int) * deviation pair.1 ≤ threeSum

def stakeSum (stakes : List Int) : Int := stakes.foldl (fun sum stake => saturate (sum + stake)) 0

def hasStakeQuorum (counted total : Int) : Bool :=
  let rest := total - counted
  counted > rest && counted - rest > rest

def walk (half : Int) : Int → Weighed → Option Int
  | _, [] => none
  | cumulative, (price, stake) :: rest =>
    if cumulative + stake ≥ half then some price else walk half (cumulative + stake) rest

def weightedMedian (pairs : Weighed) : Int :=
  match pairs with
  | [] => 0
  | [(price, _)] => price
  | _ =>
    let sorted := pairs.mergeSort fun left right => left.1 ≤ right.1
    let half := div (sorted.map Prod.snd).sum (2 * scale)
    (walk half 0 sorted).getD (sorted.getLastD (0, 0)).1

structure OracleManager where
  config : OracleConfig
  submissions : SubmissionRows := {}
  aggregates : AList (fun _ : MarketId => StoredAggregatedPrice) := ∅

namespace OracleManager

/-- Write the row of a market and validator with the reporter's sample time. -/
def submitSampled (oracle : OracleManager) (validator : Address) (marketId : MarketId)
    (price : Int) (sampleMs blockNumber timestamp : Nat) : OracleManager :=
  { oracle with
    submissions := oracle.submissions.put
      { validator, marketId, price, sampleMs, blockNumber, timestamp } }

def counts (oracle : OracleManager) (now : Nat) (sub : OracleSubmission) : Bool :=
  now - sub.timestamp ≤ oracle.config.windowSecs && validOraclePrice sub.price

def collectSubmissions (oracle : OracleManager) (marketId : MarketId) (now : Nat) :
    List OracleSubmission :=
  let rows := (oracle.submissions.rows.entries.filter fun row => row.1.1 = marketId).mergeSort
    fun left right => left.1.2 ≤ right.1.2
  (rows.filterMap Sigma.snd).filter (oracle.counts now)

def getLastValidPrice (oracle : OracleManager) (marketId : MarketId) (now : Nat) :
    Except OracleError Int :=
  match oracle.aggregates.lookup marketId with
  | none => .error (.noOraclePrice marketId)
  | some stored =>
    if now - stored.timestamp > oracle.config.maxAgeSecs then .error (.staleOraclePrice marketId)
    else .ok stored.price

def stakeOf (stakes : List (Address × Int)) (validator : Address) : Option Int :=
  (stakes.find? fun entry => entry.1 = validator).map Prod.snd

def pricedStakes (submissions : List OracleSubmission) (stakes : List (Address × Int)) : Weighed :=
  submissions.filterMap fun sub => (stakeOf stakes sub.validator).map fun stake => (sub.price, stake)

def singleCapped (oracle : OracleManager) (marketId : MarketId) (now : Nat) (filtered : Weighed) :
    Bool :=
  match filtered, oracle.getLastValidPrice marketId now with
  | [(single, _)], .ok last =>
    if last > 0 then
      let difference := if single > last then single - last else last - single
      difference > div (mul last (1000 * scale)) (10000 * scale)
    else false
  | _, _ => false

def aggregatePrice (oracle : OracleManager) (marketId : MarketId) (currentBlock now : Nat)
    (stakes : List (Address × Int)) : OracleManager × Except OracleError Int :=
  let kept := (oracle, oracle.getLastValidPrice marketId now)
  let submissions := oracle.collectSubmissions marketId now
  if submissions.isEmpty then kept
  else
    let pairs := pricedStakes submissions stakes
    if pairs.isEmpty then kept
    else
      let filtered := rejectOutliers pairs
      let totalStake := stakeSum (stakes.map Prod.snd)
      let countedStake := stakeSum (filtered.map Prod.snd)
      if filtered.length < oracle.config.minOracleReporters ||
          !hasStakeQuorum countedStake totalStake then kept
      else if oracle.singleCapped marketId now filtered then kept
      else
        let price := weightedMedian filtered
        let stored : StoredAggregatedPrice := {
          price, blockNumber := currentBlock, numReporters := filtered.length, timestamp := now }
        ({ oracle with aggregates := oracle.aggregates.insert marketId stored }, .ok price)

end OracleManager

end TorusHyperBft.Oracle
