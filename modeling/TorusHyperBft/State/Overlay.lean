import TorusHyperBft.State.LayeredReads

namespace TorusHyperBft.State

open RunningHash (Key Value ColumnFamily PendingState)

/-! One column family of a block's overlay, for code that keeps to that family. -/

/-- The own pending set, the lower layers from the newest (the parent block's frozen set, the
checkpoint layer, the checkpoint in flight), and the database. -/
structure Overlay where
  pending : CfPending Key Value := {}
  lower : List (CfPending Key Value) := []
  db : OrderedMap Key Value := .empty

namespace Overlay

variable {overlay : Overlay} {key other start : Key} {value : Value} {limit : Nat}

def layers (overlay : Overlay) : List (CfPending Key Value) := overlay.pending :: overlay.lower

def get (overlay : Overlay) (key : Key) : Option Value :=
  (lookupLayers overlay.layers key).getD (overlay.db.lookup key)

def put (overlay : Overlay) (key : Key) (value : Value) : Overlay :=
  { overlay with pending := overlay.pending.put key value }

def delete (overlay : Overlay) (key : Key) : Overlay :=
  { overlay with pending := overlay.pending.delete key }

def iterateFrom (overlay : Overlay) (start : Key) (limit : Nat) : List (Key × Value) :=
  mergeLayers overlay.layers start limit (overlay.db.range start)

/-- The rows that the reads see. -/
def rows (overlay : Overlay) : OrderedMap Key Value := stack overlay.layers overlay.db

theorem get_eq_lookup : overlay.get key = overlay.rows.lookup key :=
  (lookup_stack _ _ _).symm

theorem iterateFrom_eq_take :
    overlay.iterateFrom start limit = (overlay.rows.range start).take limit :=
  mergeLayers_range

theorem mem_rowsFrom {row : Key × Value} : row ∈ overlay.rows.range start ↔
    start ≤ row.1 ∧ overlay.get row.1 = some row.2 := by
  rw [OrderedMap.mem_range, get_eq_lookup]

theorem get_put : (overlay.put key value).get other =
    if other = key then some value else overlay.get other := by
  simp only [get, layers, put, lookupLayers, List.findSome?_cons, CfPending.lookup_put]
  by_cases same : other = key
  · simp [same]
  · simp [same]

theorem get_delete : (overlay.delete key).get other =
    if other = key then none else overlay.get other := by
  simp only [get, layers, delete, lookupLayers, List.findSome?_cons, CfPending.lookup_delete]
  by_cases same : other = key
  · simp [same]
  · simp [same]

end Overlay

namespace NativeStateOverlay

variable {overlay : NativeStateOverlay} {since : Option PendingState} {cf : ColumnFamily}

def family (overlay : NativeStateOverlay) (since : Option PendingState)
    (cf : ColumnFamily) : Overlay where
  pending := overlay.pending cf
  lower := overlay.frozen since cf
  db := overlay.db.rows cf

variable (holds : overlay.HoldsSince since) (detached : overlay.residentFor cf = none)

include holds detached

theorem getCfRaw_family (shown : overlay.db.visible cf = overlay.db.rows cf) (key : Key) :
    overlay.getCfRaw cf key = .ok ((overlay.family since cf).get key) := by
  rw [getCfRaw_eq holds (by simp [detached]), StateDb.getCfRaw_eq, flat_visible, shown,
    Overlay.get_eq_lookup]
  rfl

theorem iterateCfFrom_family (start : Key) (limit : Nat) :
    overlay.iterateCfFrom cf start limit =
      .ok ((overlay.family since cf).iterateFrom start limit) := by
  rw [iterateCfFrom_eq holds (by simp [detached]), onDisk, detached, Overlay.iterateFrom_eq_take]
  rfl

end NativeStateOverlay

end TorusHyperBft.State
