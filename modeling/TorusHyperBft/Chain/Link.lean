import TorusHyperBft.Bytes

namespace TorusHyperBft.Chain

/-! A header's link to its parent, checked before the vote and on insertion. -/

structure EvmHeaderValues where
  gasLimit : U64 := 0
  blockInterval : U64 := 0
  bigBlockInterval : U64 := 0
  bigGasLimit : U64 := 0
  baseFee : U64 := 0
  bigBaseFee : U64 := 0
  deriving DecidableEq

/-- The fields the link check and execution read; `rest` is what else the header commits to. -/
structure TorusBlockHeader (η ρ : Type) where
  height : U64
  parentHash : η
  timestamp : U64
  evmGasLimit : U64 := 0
  evmBlockInterval : U64 := 0
  evmBigBlockInterval : U64 := 0
  evmBigGasLimit : U64 := 0
  baseFeePerGas : U64 := 0
  bigBaseFeePerGas : U64 := 0
  features : BitVec 128 := 0
  rest : ρ
  deriving DecidableEq

variable {η ρ ι : Type}

def EvmHeaderValues.of (header : TorusBlockHeader η ρ) : EvmHeaderValues where
  gasLimit := header.evmGasLimit
  blockInterval := header.evmBlockInterval
  bigBlockInterval := header.evmBigBlockInterval
  bigGasLimit := header.evmBigGasLimit
  baseFee := header.baseFeePerGas
  bigBaseFee := header.bigBaseFeePerGas

/-- The values an epoch plan sets; an unset one keeps the parent's. -/
structure PlanEvm where
  gasLimit : Option U64 := none
  blockInterval : Option U64 := none
  bigBlockInterval : Option U64 := none
  bigGasLimit : Option U64 := none
  baseFee : Option U64 := none
  bigBaseFee : Option U64 := none
  deriving DecidableEq

def PlanEvm.resolve (plan : PlanEvm) (parent : TorusBlockHeader η ρ) : EvmHeaderValues where
  gasLimit := plan.gasLimit.getD parent.evmGasLimit
  blockInterval := plan.blockInterval.getD parent.evmBlockInterval
  bigBlockInterval := plan.bigBlockInterval.getD parent.evmBigBlockInterval
  bigGasLimit := plan.bigGasLimit.getD parent.evmBigGasLimit
  baseFee := plan.baseFee.getD parent.baseFeePerGas
  bigBaseFee := plan.bigBaseFee.getD parent.bigBaseFeePerGas

def featureBit (feature : Fin 128) : BitVec 128 := 1#128 <<< feature.val

def firstUnknownFeatureIn (features known : BitVec 128) : Option Nat :=
  let unknown := features &&& ~~~known
  (List.range 128).find? fun bit => unknown.getLsbD bit

def firstBlock (height : U64) : U64 := if height = 0 then 1 else height

/-- The height from which each scheduled feature is on. -/
structure ActivationSchedule where
  heights : List (Fin 128 × U64) := []
  deriving DecidableEq

def ActivationSchedule.activeAt (schedule : ActivationSchedule) (height : U64) : BitVec 128 :=
  (schedule.heights.filter fun entry => firstBlock entry.2 ≤ firstBlock height).foldl
    (fun bits entry => bits ||| featureBit entry.1) 0

structure PhaseCertificate (ι : Type) where
  isGenesisPc : Bool
  block : ι
  deriving DecidableEq

inductive ParentHeader (η ρ : Type) where
  | header (header : TorusBlockHeader η ρ)
  | notInTree
  | undecodable
  deriving DecidableEq

inductive BlockDataCheck where
  | held
  | missing
  | invalid
  deriving DecidableEq

structure UpgradeRequired where
  feature : Nat
  deriving DecidableEq

structure EpochPlanNotReady where
  deriving DecidableEq

def parentHeader (justify : PhaseCertificate ι) (genesis : TorusBlockHeader η ρ)
    (parent : ι → ParentHeader η ρ) : ParentHeader η ρ :=
  if justify.isGenesisPc then .header genesis else parent justify.block

/-- `headerHash` is the hash of a header's canonical bytes; `boundary` reads the epoch plan. -/
def checkParentLinkOrUpgrade [DecidableEq η] (headerHash : TorusBlockHeader η ρ → η)
    (header : TorusBlockHeader η ρ) (justify : PhaseCertificate ι)
    (genesis : TorusBlockHeader η ρ) (schedule : ActivationSchedule) (known : BitVec 128)
    (parent : ι → ParentHeader η ρ) (boundary : U64 → Except EpochPlanNotReady (Option PlanEvm)) :
    Except UpgradeRequired BlockDataCheck :=
  match parentHeader justify genesis parent with
  | .notInTree => .ok .missing
  | .undecodable => .ok .invalid
  | .header parent =>
    if header.timestamp < parent.timestamp then .ok .invalid
    else if header.height ≠ parent.height + 1 ∨ header.parentHash ≠ headerHash parent then
      .ok .invalid
    else
      match firstUnknownFeatureIn header.features known with
      | some feature => .error { feature := feature }
      | none =>
        if header.features ≠ schedule.activeAt header.height then .ok .invalid
        else
          match boundary header.height with
          | .error _ => .ok .missing
          | .ok plan =>
            if EvmHeaderValues.of header ≠ (plan.getD {}).resolve parent then .ok .invalid
            else .ok .held

theorem checkParentLinkOrUpgrade_held [DecidableEq η] {headerHash : TorusBlockHeader η ρ → η}
    {header : TorusBlockHeader η ρ} {justify : PhaseCertificate ι}
    {genesis : TorusBlockHeader η ρ} {schedule : ActivationSchedule} {known : BitVec 128}
    {parents : ι → ParentHeader η ρ} {boundary : U64 → Except EpochPlanNotReady (Option PlanEvm)}
    {parent : TorusBlockHeader η ρ}
    (resolves : parentHeader justify genesis parents = .header parent)
    (held : checkParentLinkOrUpgrade headerHash header justify genesis schedule known parents
      boundary = .ok .held) :
    parent.timestamp ≤ header.timestamp ∧ header.height = parent.height + 1 := by
  unfold checkParentLinkOrUpgrade at held
  simp only [resolves] at held
  split at held
  · cases held
  · rename_i notOlder
    split at held
    · cases held
    · rename_i linked
      exact ⟨not_lt.mp notOlder, not_not.mp (not_or.mp linked).1⟩

end TorusHyperBft.Chain
