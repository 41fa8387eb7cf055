import TorusHyperBft.State.StateDb

namespace TorusHyperBft.State

/-! The reads of a block's overlay: its own pending set over the parent block's frozen set, the
layer since the last checkpoint, the checkpoint in flight and the database, with the resident rows
of some column families standing in for all but the own set. -/

open RunningHash (Key Value ColumnFamily PendingState)

def isDeferredSlot (deferBooks : Bool) (cf : ColumnFamily) : Bool :=
  cf = .nativePositions || cf = .nativeBalances || (deferBooks && cf = .nativeOrderBooks)

def mainPart (deferBooks : Bool) (state : PendingState) : PendingState :=
  fun cf => if isDeferredSlot deferBooks cf then {} else state cf

def deferredPart (deferBooks : Bool) (state : PendingState) : PendingState :=
  fun cf => if isDeferredSlot deferBooks cf then state cf else {}

inductive DeferredLayer where
  | merged (state : PendingState)
  | failed

inductive StateError where
  | io (message : String)
deriving DecidableEq

/-- A source of the rows of the first resident slots. -/
structure ResidentSource where
  get : Nat → Key → Option Value
  getLen : Nat → Key → Option Nat
  range : Nat → Key → Key → List (Key × Value)

inductive SourceSlots where
  | raw
  | source (rows : ResidentSource)
  | detached

/-- The resident rows by slot, and who answers the first slots. -/
structure ResidentRows where
  cfs : Nat → OrderedMap Key Value
  users : SourceSlots

def residentCfs : List ColumnFamily :=
  [.nativePositions, .nativeBalances, .nativeLiquidation, .nativeOracle, .nativeMarkets]

def residentSlot (cf : ColumnFamily) : Option Nat := residentCfs.idxOf? cf

def sourceSlots : Nat := 2

inductive Resident where
  | raw (rows : OrderedMap Key Value)
  | source (rows : ResidentSource) (slot : Nat)

namespace Resident

def get : Resident → Key → Option Value
  | .raw rows, key => rows.lookup key
  | .source rows slot, key => rows.get slot key

def getLen : Resident → Key → Option Nat
  | .raw rows, key => (rows.lookup key).map List.length
  | .source rows slot, key => rows.getLen slot key

/-- The rows from a key on, up to the first that does not start with the prefix. -/
def range : Resident → Key → Key → List (Key × Value)
  | .raw rows, start, stem => (rows.range start).takeWhile fun row => startsWith stem row.1
  | .source rows slot, start, stem => rows.range slot start stem

/-- The resident rows are those of a map; a source answers as the map would. -/
def Holds : Resident → OrderedMap Key Value → Prop
  | .raw rows, map => rows = map
  | .source rows slot, map =>
    (∀ key, rows.get slot key = map.lookup key) ∧
      (∀ key, rows.getLen slot key = (map.lookup key).map List.length) ∧
        ∀ start stem, rows.range slot start stem =
          (map.range start).takeWhile fun row => startsWith stem row.1

section Holds

variable {rows : Resident} {map : OrderedMap Key Value} (holds : rows.Holds map)

include holds

theorem get_eq (key : Key) : rows.get key = map.lookup key := by
  cases rows with
  | raw stored => rw [← show stored = map from holds]; rfl
  | source source slot => exact holds.1 key

theorem getLen_eq (key : Key) : rows.getLen key = (map.lookup key).map List.length := by
  cases rows with
  | raw stored => rw [← show stored = map from holds]; rfl
  | source source slot => exact holds.2.1 key

theorem range_eq (start stem : Key) :
    rows.range start stem = (map.range start).takeWhile fun row => startsWith stem row.1 := by
  cases rows with
  | raw stored => rw [← show stored = map from holds]; rfl
  | source source slot => exact holds.2.2 start stem

end Holds

end Resident

def ResidentRows.view (rows : ResidentRows) (slot : Nat) : Option Resident :=
  if sourceSlots ≤ slot then some (.raw (rows.cfs slot))
  else match rows.users with
    | .raw => some (.raw (rows.cfs slot))
    | .source source => some (.source source slot)
    | .detached => none

structure NativeStateOverlay where
  db : StateDb
  pending : PendingState := fun _ => {}
  parent : Option PendingState := none
  resident : Option ResidentRows := none
  layer : Option PendingState := none
  deferred : Option DeferredLayer := none
  inflight : Option PendingState := none
  deferBooks : Bool := false

namespace NativeStateOverlay

def layerFor (overlay : NativeStateOverlay) (cf : ColumnFamily) :
    Except StateError (Option PendingState) :=
  match overlay.deferred with
  | some deferred =>
    if isDeferredSlot overlay.deferBooks cf then
      match deferred with
      | .merged state => .ok (some state)
      | .failed => .error (.io "since-checkpoint layer merge failed (deferred part lost)")
    else .ok overlay.layer
  | none => .ok overlay.layer

def lower (overlay : NativeStateOverlay) (cf : ColumnFamily) :
    Except StateError (List (CfPending Key Value)) := do
  let layer ← overlay.layerFor cf
  return ([overlay.parent, layer, overlay.inflight].reduceOption).map fun state => state cf

/-- The first of the frozen layers that knows a key; a hit of the parent does not ask for the
layers below it. -/
def lookupLower (overlay : NativeStateOverlay) (cf : ColumnFamily) (key : Key) :
    Except StateError (Option (Option Value)) :=
  match overlay.parent.bind fun state => (state cf).lookup key with
  | some hit => .ok (some hit)
  | none => do
      match (← overlay.layerFor cf).bind fun state => (state cf).lookup key with
      | some hit => return some hit
      | none => return overlay.inflight.bind fun state => (state cf).lookup key

def residentFor (overlay : NativeStateOverlay) (cf : ColumnFamily) : Option Resident :=
  overlay.resident.bind fun rows => (residentSlot cf).bind rows.view

def getCfRaw (overlay : NativeStateOverlay) (cf : ColumnFamily) (key : Key) :
    Except StateError (Option Value) :=
  match (overlay.pending cf).lookup key with
  | some hit => .ok hit
  | none =>
    match overlay.residentFor cf with
    | some rows => .ok (rows.get key)
    | none => do
        match ← overlay.lookupLower cf key with
        | some hit => return hit
        | none => return overlay.db.getCfRaw cf key

def getCfLen (overlay : NativeStateOverlay) (cf : ColumnFamily) (key : Key) :
    Except StateError (Option Nat) :=
  match (overlay.pending cf).lookup key with
  | some hit => .ok (hit.map List.length)
  | none =>
    match overlay.residentFor cf with
    | some rows => .ok (rows.getLen key)
    | none => do
        match ← overlay.lookupLower cf key with
        | some hit => return hit.map List.length
        | none => return overlay.db.getCfLen cf key

def iterateCf (overlay : NativeStateOverlay) (cf : ColumnFamily) (stem : Option Key) :
    Except StateError (List (Key × Value)) :=
  let start := stem.getD []
  let pending := overlay.pending cf
  match overlay.residentFor cf with
  | some rows =>
    let base := rows.range start start
    if !pending.touches start (startsWith start) then .ok base
    else .ok (CfPending.overlaySorted pending.deletes base
      (pending.writesUnder start (startsWith start)))
  | none => do
      let lower ← overlay.lower cf
      if !pending.touches start (startsWith start) &&
          !lower.any fun layer => layer.touches start (startsWith start) then
        return overlay.db.iterateCf cf stem
      else
        -- the database rows as a map, then each layer from the oldest on
        let merged : OrderedMap Key Value :=
          (overlay.db.iterateCf cf stem).foldl (fun merged row => merged.insert row.1 row.2) .empty
        let merged := lower.reverse.foldl
          (fun merged layer => layer.overlayInto start (startsWith start) merged) merged
        return (pending.overlayInto start (startsWith start) merged).entries

def iterateCfFrom (overlay : NativeStateOverlay) (cf : ColumnFamily) (start : Key) (limit : Nat) :
    Except StateError (List (Key × Value)) :=
  if limit = 0 then .ok []
  else
    match overlay.residentFor cf with
    | some rows => .ok (mergeLayers [overlay.pending cf] start limit (rows.range start []))
    | none => do
        let lower ← overlay.lower cf
        -- the iterator of the rows on disk, hidden ones included
        return mergeLayers (overlay.pending cf :: lower) start limit
          (overlay.db.iteratorCf cf none start)

def iterateCfPrefixFrom (overlay : NativeStateOverlay) (cf : ColumnFamily) (stem start : Key)
    (limit : Nat) : Except StateError (List (Key × Value)) :=
  if limit = 0 then .ok []
  else
    let cut (rows : List (Key × Value)) := rows.takeWhile fun row => startsWith stem row.1
    match overlay.residentFor cf with
    | some rows => .ok (cut (mergeLayers [overlay.pending cf] start limit (rows.range start stem)))
    | none => do
        let lower ← overlay.lower cf
        return cut (mergeLayers (overlay.pending cf :: lower) start limit
          (overlay.db.iteratorCf cf (prefixSuccessor stem) start))

/-- A key held below the own set is live unless the first layer that knows it deletes it. -/
def isLive (pending : CfPending Key Value) (lower : List (CfPending Key Value)) (key : Key) : Bool :=
  match pending.lookup key with
  | some hit => hit.isSome
  | none =>
    match lookupLayers lower key with
    | some hit => hit.isSome
    | none => true

def prefixExists (overlay : NativeStateOverlay) (cf : ColumnFamily) (stem : Key) :
    Except StateError Bool := do
  let pending := overlay.pending cf
  let rows := overlay.residentFor cf
  let lower ← if rows.isNone then overlay.lower cf else pure []
  if !(pending.writesUnder stem (startsWith stem)).isEmpty then return true
  if lower.any fun layer =>
      (layer.writesUnder stem (startsWith stem)).any fun row => isLive pending lower row.1
    then return true
  match rows with
  | some rows => return (rows.range stem stem).any fun row => isLive pending lower row.1
  | none =>
    return ((overlay.db.prefixIter cf stem).takeWhile fun row => startsWith stem row.1).any
      fun row => isLive pending lower row.1

end NativeStateOverlay

end TorusHyperBft.State
