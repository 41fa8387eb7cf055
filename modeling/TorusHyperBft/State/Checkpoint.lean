import TorusHyperBft.State.NativeStateOverlay

namespace TorusHyperBft

open List OrderedMap

/-! The layer of the blocks since the last checkpoint: last value or tombstone of each key, with a
byte count that is kept up. -/

universe u v

namespace OrderedMap

variable {κ : Type u} {ν : Type v} [LinearOrder κ]

def total (map : OrderedMap κ ν) (weight : κ → ν → Nat) : Nat :=
  (map.entries.map fun row => weight row.1 row.2).sum

variable {map : OrderedMap κ ν} {weight : κ → ν → Nat} {key : κ} {value : ν}

def weightAt (map : OrderedMap κ ν) (weight : κ → ν → Nat) (key : κ) : Nat :=
  ((map.lookup key).map (weight key)).getD 0

variable {rows : List (κ × ν)}

theorem sum_filter_ne (ascends : Ascends rows) :
    ((rows.filter fun row => row.1 ≠ key).map fun row => weight row.1 row.2).sum +
        (((rows.find? fun row => row.1 = key).map Prod.snd).map (weight key)).getD 0 =
      (rows.map fun row => weight row.1 row.2).sum := by
  induction rows with
  | nil => rfl
  | cons row rows ih =>
    have later := pairwise_cons.mp ascends
    by_cases here : row.1 = key
    · have others : rows.filter (fun row => row.1 ≠ key) = rows := by
        rw [filter_eq_self]
        intro other member
        have above := later.1 other member
        simp [← here, ne_of_gt above]
      rw [filter_cons_of_neg (by simp [here]), others, List.find?_cons_of_pos (by simp [here])]
      simp [here]
      omega
    · have rest := ih later.2
      rw [filter_cons_of_pos (by simp [here]), List.find?_cons_of_neg (by simp [here])]
      simp only [map_cons, sum_cons]
      omega

theorem lookup_cons {row : κ × ν} (ascends : Ascends (row :: rows))
    (key : κ) : (⟨row :: rows, ascends⟩ : OrderedMap κ ν).lookup key =
      if row.1 = key then some row.2
      else (⟨rows, (pairwise_cons.mp ascends).2⟩ : OrderedMap κ ν).lookup key := by
  unfold lookup
  by_cases here : row.1 = key
  · rw [if_pos here, List.find?_cons_of_pos (by simp [here])]
    rfl
  · rw [if_neg here, List.find?_cons_of_neg (by simp [here])]

theorem lookup_above {row : κ × ν} (ascends : Ascends (row :: rows)) :
    (⟨rows, (pairwise_cons.mp ascends).2⟩ : OrderedMap κ ν).lookup row.1 = none := by
  rw [Option.eq_none_iff_forall_ne_some]
  intro value found
  have later := (pairwise_cons.mp ascends).1 _ (lookup_eq_some.mp found)
  exact lt_irrefl _ later

theorem weightAt_none (absent : map.lookup key = none) : map.weightAt weight key = 0 := by
  rw [weightAt, absent]
  rfl

theorem weightAt_some (found : map.lookup key = some value) :
    map.weightAt weight key = weight key value := by
  rw [weightAt, found]
  rfl

theorem total_erase : (map.erase key).total weight + map.weightAt weight key = map.total weight :=
  sum_filter_ne map.ascends

theorem total_insert : (map.insert key value).total weight + map.weightAt weight key =
    map.total weight + weight key value := by
  have erased : (map.insert key value).erase key = map.erase key := by
    apply ext_lookup
    intro other
    rw [lookup_erase, lookup_erase, lookup_insert]
    by_cases here : other = key
    · simp [here]
    · simp [here]
  have inserted := @total_erase κ ν _ (map.insert key value) weight key
  have before := @total_erase κ ν _ map weight key
  have found : (map.insert key value).weightAt weight key = weight key value := by
    simp [weightAt, lookup_insert]
  rw [erased, found] at inserted
  omega

end OrderedMap

namespace State

open RunningHash (Key Value ColumnFamily PendingState)

namespace CfPending

variable {κ : Type u} {ν : Type v} [LinearOrder κ]

def merge (older newer : CfPending κ ν) : CfPending κ ν :=
  newer.deletes.entries.foldl (fun merged delete => merged.delete delete.1)
    (newer.writes.entries.foldl (fun merged write => merged.put write.1 write.2) older)

theorem entry_foldl_put (writes : List (κ × ν)) (ascends : Ascends writes) (cf : CfPending κ ν)
    (key : κ) : (writes.foldl (fun merged write => merged.put write.1 write.2) cf).entry key =
      (((writes.find? fun write => write.1 = key).map Prod.snd).map some).or (cf.entry key) := by
  induction writes generalizing cf with
  | nil => rfl
  | cons write writes ih =>
    have later := pairwise_cons.mp ascends
    rw [foldl_cons, ih later.2, entry_put]
    by_cases here : key = write.1
    · have absent : (writes.find? fun other => other.1 = key) = none := by
        rw [List.find?_eq_none]
        intro other member
        simp [here, ne_of_gt (later.1 other member)]
      rw [absent, if_pos here, List.find?_cons_of_pos (by simp [here])]
      rfl
    · rw [if_neg here, List.find?_cons_of_neg (by simp [Ne.symm here])]

theorem entry_foldl_delete (deletes : List (κ × Unit)) (cf : CfPending κ ν) (key : κ) :
    (deletes.foldl (fun merged delete => merged.delete delete.1) cf).entry key =
      if deletes.any fun delete => delete.1 = key then some none else cf.entry key := by
  induction deletes generalizing cf with
  | nil => rfl
  | cons delete deletes ih =>
    rw [foldl_cons, ih, entry_delete, any_cons]
    by_cases here : key = delete.1
    · simp [here]
    · have elsewhere : ¬ delete.1 = key := fun same => here same.symm
      rw [if_neg here, decide_eq_false elsewhere, Bool.false_or]

theorem entry_merge (older newer : CfPending κ ν) (key : κ) :
    (older.merge newer).entry key = (newer.entry key).or (older.entry key) := by
  have known : newer.entry key = if (newer.deletes.lookup key).isSome then some none
      else (newer.writes.lookup key).map some := rfl
  rw [merge, entry_foldl_delete, entry_foldl_put _ newer.writes.ascends, deletes_any, known]
  by_cases deleted : (newer.deletes.lookup key).isSome
  · rw [if_pos deleted, if_pos deleted]
    rfl
  · rw [if_neg deleted, if_neg deleted]
    rfl

def appendTo (cf : CfPending κ ν) (map : OrderedMap κ ν) : OrderedMap κ ν :=
  cf.deletes.entries.foldl (fun map delete => map.erase delete.1)
    (cf.writes.entries.foldl (fun map write => map.insert write.1 write.2) map)

theorem lookup_appendTo (cf : CfPending κ ν) (map : OrderedMap κ ν) (key : κ) :
    (cf.appendTo map).lookup key = (cf.entry key).getD (map.lookup key) := by
  have written : (cf.writes.entries.find? fun write => write.1 = key).map Prod.snd =
      cf.writes.lookup key := rfl
  rw [appendTo, lookup_foldl_erase, deletes_any, entry]
  by_cases deleted : (cf.deletes.lookup key).isSome
  · simp [deleted]
  · rw [if_neg deleted, if_neg deleted, lookup_foldl_insert cf.writes.ascends, written]
    cases cf.writes.lookup key with
    | some value => rfl
    | none => rfl

end CfPending

/-- The bytes a pending set holds: keys and values of the writes, keys of the tombstones. -/
def weight (cf : CfPending Key Value) : Nat :=
  cf.writes.total (fun key value => key.length + value.length) +
    cf.deletes.total fun key _ => key.length

def putCounted (counted : CfPending Key Value × Nat) (write : Key × Value) :
    CfPending Key Value × Nat :=
  let (dst, bytes) := counted
  let bytes := if (dst.deletes.lookup write.1).isSome then bytes - write.1.length else bytes
  (dst.put write.1 write.2, match dst.writes.lookup write.1 with
    | some old => bytes - old.length + write.2.length
    | none => bytes + (write.1.length + write.2.length))

def deleteCounted (counted : CfPending Key Value × Nat) (delete : Key × Unit) :
    CfPending Key Value × Nat :=
  let (dst, bytes) := counted
  let bytes := match dst.writes.lookup delete.1 with
    | some old => bytes - (delete.1.length + old.length)
    | none => bytes
  (dst.delete delete.1,
    if (dst.deletes.lookup delete.1).isSome then bytes else bytes + delete.1.length)

def mergeCf (dst : CfPending Key Value) (bytes : Nat) (src : CfPending Key Value) :
    CfPending Key Value × Nat :=
  src.deletes.entries.foldl deleteCounted (src.writes.entries.foldl putCounted (dst, bytes))

theorem putCounted_eq (dst : CfPending Key Value) (write : Key × Value) :
    putCounted (dst, weight dst) write =
      (dst.put write.1 write.2, weight (dst.put write.1 write.2)) := by
  obtain ⟨key, value⟩ := write
  have writes := @total_insert _ _ _ dst.writes
    (fun key (value : Value) => key.length + value.length) key value
  have held := @total_erase _ _ _ dst.writes
    (fun key (value : Value) => key.length + value.length) key
  have deletes := @total_erase _ _ _ dst.deletes (fun key _ => key.length) key
  simp only [putCounted, Prod.mk.injEq, true_and, CfPending.put, weight]
  cases written : dst.writes.lookup key with
  | none =>
    rw [weightAt_none written] at writes held
    cases deleted : dst.deletes.lookup key with
    | none =>
      rw [weightAt_none deleted] at deletes
      simp
      omega
    | some mark =>
      rw [weightAt_some deleted] at deletes
      simp
      omega
  | some old =>
    rw [weightAt_some written] at writes held
    cases deleted : dst.deletes.lookup key with
    | none =>
      rw [weightAt_none deleted] at deletes
      simp
      omega
    | some mark =>
      rw [weightAt_some deleted] at deletes
      simp
      omega

theorem deleteCounted_eq (dst : CfPending Key Value) (delete : Key × Unit) :
    deleteCounted (dst, weight dst) delete =
      (dst.delete delete.1, weight (dst.delete delete.1)) := by
  obtain ⟨key, mark⟩ := delete
  have writes := @total_erase _ _ _ dst.writes
    (fun key (value : Value) => key.length + value.length) key
  have deletes := @total_insert _ _ _ dst.deletes (fun key _ => key.length) key ()
  simp only [deleteCounted, Prod.mk.injEq, true_and, CfPending.delete, weight]
  cases written : dst.writes.lookup key with
  | none =>
    rw [weightAt_none written] at writes
    cases deleted : dst.deletes.lookup key with
    | none =>
      rw [weightAt_none deleted] at deletes
      simp
      omega
    | some mark =>
      rw [weightAt_some deleted] at deletes
      simp
      omega
  | some old =>
    rw [weightAt_some written] at writes
    cases deleted : dst.deletes.lookup key with
    | none =>
      rw [weightAt_none deleted] at deletes
      simp
      omega
    | some mark =>
      rw [weightAt_some deleted] at deletes
      simp
      omega

theorem mergeCf_eq (dst src : CfPending Key Value) :
    mergeCf dst (weight dst) src = (dst.merge src, weight (dst.merge src)) := by
  have puts : ∀ (writes : List (Key × Value)) (dst : CfPending Key Value),
      writes.foldl putCounted (dst, weight dst) =
        (writes.foldl (fun merged write => merged.put write.1 write.2) dst,
          weight (writes.foldl (fun merged write => merged.put write.1 write.2) dst)) := by
    intro writes
    induction writes with
    | nil => exact fun dst => rfl
    | cons write writes ih => exact fun dst => by rw [foldl_cons, putCounted_eq, ih]; rfl
  have drops : ∀ (deletes : List (Key × Unit)) (dst : CfPending Key Value),
      deletes.foldl deleteCounted (dst, weight dst) =
        (deletes.foldl (fun merged delete => merged.delete delete.1) dst,
          weight (deletes.foldl (fun merged delete => merged.delete delete.1) dst)) := by
    intro deletes
    induction deletes with
    | nil => exact fun dst => rfl
    | cons delete deletes ih => exact fun dst => by rw [foldl_cons, deleteCounted_eq, ih]; rfl
  rw [mergeCf, puts, drops]
  rfl

/-- A closed block set: its rows, the out-of-batch entries that are only hashed, and its height. -/
structure FrozenPending where
  state : PendingState := fun _ => {}
  hashExtras : Option PendingState := none
  height : Nat

structure CheckpointLayer where
  state : PendingState := fun _ => {}
  bytes : ColumnFamily → Nat := fun _ => 0
  top : Option Nat := none

inductive LayerPart where
  | all
  | main
  | deferred
deriving DecidableEq

def LayerPart.holds (deferBooks : Bool) : LayerPart → ColumnFamily → Bool
  | .all, _ => true
  | .main, cf => !isDeferredSlot deferBooks cf
  | .deferred, cf => isDeferredSlot deferBooks cf

def maxHeight : Option Nat → Option Nat → Option Nat
  | some left, some right => some (max left right)
  | left, right => left.or right

namespace CheckpointLayer

variable (deferBooks : Bool)

def mergePart (layer : CheckpointLayer) (frozen : FrozenPending) (part : LayerPart) :
    CheckpointLayer where
  state := fun cf =>
    if part.holds deferBooks cf then (mergeCf (layer.state cf) (layer.bytes cf) (frozen.state cf)).1
    else layer.state cf
  bytes := fun cf =>
    if part.holds deferBooks cf then (mergeCf (layer.state cf) (layer.bytes cf) (frozen.state cf)).2
    else layer.bytes cf
  top := some (match layer.top with
    | some top => max top frozen.height
    | none => frozen.height)

def merge (layer : CheckpointLayer) (frozen : FrozenPending) : CheckpointLayer :=
  layer.mergePart deferBooks frozen .all

def splitDeferred (layer : CheckpointLayer) : CheckpointLayer × CheckpointLayer :=
  ({ layer with
      state := fun cf => if isDeferredSlot deferBooks cf then {} else layer.state cf
      bytes := fun cf => if isDeferredSlot deferBooks cf then 0 else layer.bytes cf },
    { state := fun cf => if isDeferredSlot deferBooks cf then layer.state cf else {}
      bytes := fun cf => if isDeferredSlot deferBooks cf then layer.bytes cf else 0
      top := layer.top })

/-- A newer layer is folded in; a column family that only it holds moves over. -/
def absorb (layer newer : CheckpointLayer) : CheckpointLayer where
  state := fun cf =>
    if (newer.state cf).isEmpty then layer.state cf
    else if (layer.state cf).isEmpty then newer.state cf
    else (mergeCf (layer.state cf) (layer.bytes cf) (newer.state cf)).1
  bytes := fun cf =>
    if (newer.state cf).isEmpty then layer.bytes cf
    else if (layer.state cf).isEmpty then newer.bytes cf
    else (mergeCf (layer.state cf) (layer.bytes cf) (newer.state cf)).2
  top := maxHeight layer.top newer.top

def duplicate (layer : CheckpointLayer) : CheckpointLayer where
  state := layer.state
  bytes := layer.bytes
  top := layer.top

/-- The byte counts are those of what the layer holds. -/
def Counted (layer : CheckpointLayer) : Prop := ∀ cf, layer.bytes cf = weight (layer.state cf)

def entry (layer : CheckpointLayer) (cf : ColumnFamily) (key : Key) : Option (Option Value) :=
  (layer.state cf).entry key

section Operations

variable {deferBooks} {layer newer : CheckpointLayer} {frozen : FrozenPending} {part : LayerPart}
  {cf : ColumnFamily} {key : Key}

theorem Counted.mergePart (counted : layer.Counted) :
    (layer.mergePart deferBooks frozen part).Counted := by
  intro cf
  simp only [CheckpointLayer.mergePart]
  split
  · rw [counted cf, mergeCf_eq]
  · exact counted cf

theorem entry_mergePart (counted : layer.Counted) :
    (layer.mergePart deferBooks frozen part).entry cf key =
      if part.holds deferBooks cf then ((frozen.state cf).entry key).or (layer.entry cf key)
      else layer.entry cf key := by
  simp only [entry, CheckpointLayer.mergePart]
  split
  · rw [counted cf, mergeCf_eq, CfPending.entry_merge]
  · rfl

theorem Counted.splitDeferred (counted : layer.Counted) :
    (layer.splitDeferred deferBooks).1.Counted ∧ (layer.splitDeferred deferBooks).2.Counted := by
  constructor
  · intro cf
    simp only [CheckpointLayer.splitDeferred]
    split
    · rfl
    · exact counted cf
  · intro cf
    simp only [CheckpointLayer.splitDeferred]
    split
    · exact counted cf
    · rfl

omit deferBooks in
theorem Counted.absorb (counted : layer.Counted) (newerCounted : newer.Counted) :
    (layer.absorb newer).Counted := by
  intro cf
  simp only [CheckpointLayer.absorb]
  split
  · exact counted cf
  · split
    · exact newerCounted cf
    · rw [counted cf, mergeCf_eq]

omit deferBooks in
theorem entry_of_isEmpty {cf : CfPending Key Value} (empty : cf.isEmpty = true) (key : Key) :
    cf.entry key = none := by
  obtain ⟨writes, deletes⟩ := cf
  simp only [CfPending.isEmpty, Bool.and_eq_true, List.isEmpty_iff] at empty
  simp [CfPending.entry, OrderedMap.lookup, empty.1, empty.2]

omit deferBooks in
theorem entry_absorb (counted : layer.Counted) :
    (layer.absorb newer).entry cf key = (newer.entry cf key).or (layer.entry cf key) := by
  simp only [entry, CheckpointLayer.absorb]
  split
  · rename_i empty
    rw [entry_of_isEmpty empty, Option.none_or]
  · split
    · rename_i empty
      rw [entry_of_isEmpty empty, Option.or_none]
    · rw [counted cf, mergeCf_eq, CfPending.entry_merge]

end Operations

end CheckpointLayer

/-! The layer as the blocks of a window are merged into it, whole or in two parts. -/

def entryOf (blocks : List FrozenPending) (cf : ColumnFamily) (key : Key) : Option (Option Value) :=
  blocks.foldl (fun older block => ((block.state cf).entry key).or older) none

theorem entryOf_append (blocks : List FrozenPending) (block : FrozenPending) (cf : ColumnFamily)
    (key : Key) :
    entryOf (blocks ++ [block]) cf key = ((block.state cf).entry key).or (entryOf blocks cf key) := by
  rw [entryOf, foldl_append]
  rfl

inductive LayerOp where
  | merge (frozen : FrozenPending)
  | splitDeferred
  | mergeMain (frozen : FrozenPending)
  | mergeDeferred
  | absorb
  | duplicate

/-- The layer, its late part while that is split off, and the blocks the late part still misses. -/
structure Layering where
  layer : CheckpointLayer := {}
  part : Option CheckpointLayer := none
  waiting : List FrozenPending := []

namespace Layering

variable (deferBooks : Bool)

def step (run : Layering) : LayerOp → Option Layering
  | .merge frozen =>
    match run.part with
    | none => some { run with layer := run.layer.merge deferBooks frozen }
    | some _ => none
  | .splitDeferred =>
    match run.part with
    | none =>
      let split := run.layer.splitDeferred deferBooks
      some { run with layer := split.1, part := some split.2 }
    | some _ => none
  | .mergeMain frozen =>
    match run.part with
    | some _ =>
      some { run with
        layer := run.layer.mergePart deferBooks frozen .main
        waiting := run.waiting ++ [frozen] }
    | none => none
  | .mergeDeferred =>
    match run.part, run.waiting with
    | some part, frozen :: waiting =>
      some { run with part := some (part.mergePart deferBooks frozen .deferred), waiting }
    | _, _ => none
  | .absorb =>
    match run.part, run.waiting with
    | some part, [] => some { run with layer := run.layer.absorb part, part := none }
    | _, _ => none
  | .duplicate =>
    some { run with
      layer := run.layer.duplicate, part := run.part.map CheckpointLayer.duplicate }

def blockOf : LayerOp → List FrozenPending
  | .merge frozen => [frozen]
  | .mergeMain frozen => [frozen]
  | _ => []

/-- A schedule from the empty layer: the layers it ends with and the blocks it has brought in. -/
inductive Schedule : List FrozenPending → Layering → Prop where
  | start : Schedule [] {}
  | step {blocks : List FrozenPending} {run next : Layering} (op : LayerOp) :
      Schedule blocks run → run.step deferBooks op = some next →
        Schedule (blocks ++ blockOf op) next

/-- The layers hold what the blocks say, the late part of the blocks that are still waiting apart,
and every byte count is exact. -/
structure Holds (blocks : List FrozenPending) (run : Layering) : Prop where
  counted : run.layer.Counted
  partCounted : ∀ part, run.part = some part → part.Counted
  main : ∀ cf key, isDeferredSlot deferBooks cf = false →
    run.layer.entry cf key = entryOf blocks cf key ∧
      ∀ part, run.part = some part → part.entry cf key = none
  whole : run.part = none → run.waiting = [] ∧ ∀ cf key, isDeferredSlot deferBooks cf = true →
    run.layer.entry cf key = entryOf blocks cf key
  split : ∀ part, run.part = some part → ∃ done, blocks = done ++ run.waiting ∧
    ∀ cf key, isDeferredSlot deferBooks cf = true →
      part.entry cf key = entryOf done cf key ∧ run.layer.entry cf key = none

variable {deferBooks} {blocks : List FrozenPending} {run next : Layering}

theorem Holds.merge (holds : Holds deferBooks blocks run) (together : run.part = none)
    (frozen : FrozenPending) :
    Holds deferBooks (blocks ++ [frozen])
      { run with layer := run.layer.merge deferBooks frozen } := by
  have known : ∀ cf key, run.layer.entry cf key = entryOf blocks cf key := by
    intro cf key
    cases late : isDeferredSlot deferBooks cf with
    | true => exact (holds.whole together).2 cf key late
    | false => exact (holds.main cf key late).1
  have merged : ∀ cf key, (run.layer.merge deferBooks frozen).entry cf key =
      entryOf (blocks ++ [frozen]) cf key := by
    intro cf key
    rw [CheckpointLayer.merge, CheckpointLayer.entry_mergePart holds.counted, entryOf_append, known]
    rfl
  have no : ∀ part, run.part = some part → False := by
    intro part given
    rw [together] at given
    cases given
  constructor
  · exact holds.counted.mergePart
  · exact fun part given => (no part given).elim
  · exact fun cf key _ => ⟨merged cf key, fun part given => (no part given).elim⟩
  · exact fun _ => ⟨(holds.whole together).1, fun cf key _ => merged cf key⟩
  · exact fun part given => (no part given).elim

theorem Holds.splitDeferred (holds : Holds deferBooks blocks run) (together : run.part = none) :
    Holds deferBooks blocks
      { run with
        layer := (run.layer.splitDeferred deferBooks).1
        part := some (run.layer.splitDeferred deferBooks).2 } := by
  have counted := @CheckpointLayer.Counted.splitDeferred deferBooks _ holds.counted
  obtain ⟨none, late⟩ := holds.whole together
  have empty : ∀ key, CfPending.entry ({} : CfPending Key Value) key = Option.none := fun _ => rfl
  constructor
  · exact counted.1
  · intro part given
    cases given
    exact counted.2
  · intro cf key main
    constructor
    · rw [← (holds.main cf key main).1]
      simp [CheckpointLayer.entry, CheckpointLayer.splitDeferred, main]
    · intro part given
      cases given
      simp [CheckpointLayer.entry, CheckpointLayer.splitDeferred, main, empty]
  · intro contrary
    cases contrary
  · intro part given
    cases given
    refine ⟨blocks, by simp [none], ?_⟩
    intro cf key deferred
    rw [← late cf key deferred]
    simp [CheckpointLayer.entry, CheckpointLayer.splitDeferred, deferred, empty]

variable {part : CheckpointLayer}

theorem Holds.mergeMain (holds : Holds deferBooks blocks run)
    (apart : run.part = some part) (frozen : FrozenPending) :
    Holds deferBooks (blocks ++ [frozen])
      { run with
        layer := run.layer.mergePart deferBooks frozen .main
        waiting := run.waiting ++ [frozen] } := by
  constructor
  · exact holds.counted.mergePart
  · exact holds.partCounted
  · intro cf key main
    refine ⟨?_, (holds.main cf key main).2⟩
    have merged : (LayerPart.main.holds deferBooks cf) = true := by simp [LayerPart.holds, main]
    rw [CheckpointLayer.entry_mergePart holds.counted, if_pos merged, entryOf_append,
      (holds.main cf key main).1]
  · intro together
    rw [apart] at together
    cases together
  · intro part given
    obtain ⟨done, order, late⟩ := holds.split part given
    refine ⟨done, by rw [order, append_assoc], ?_⟩
    intro cf key deferred
    refine ⟨(late cf key deferred).1, ?_⟩
    have skipped : ¬ (LayerPart.main.holds deferBooks cf) = true := by
      simp [LayerPart.holds, deferred]
    rw [CheckpointLayer.entry_mergePart holds.counted, if_neg skipped]
    exact (late cf key deferred).2

theorem Holds.mergeDeferred (holds : Holds deferBooks blocks run)
    {frozen : FrozenPending} {waiting : List FrozenPending} (apart : run.part = some part)
    (first : run.waiting = frozen :: waiting) :
    Holds deferBooks blocks
      { run with part := some (part.mergePart deferBooks frozen .deferred), waiting } := by
  have counted := holds.partCounted part apart
  constructor
  · exact holds.counted
  · intro merged given
    cases given
    exact counted.mergePart
  · intro cf key main
    refine ⟨(holds.main cf key main).1, ?_⟩
    intro merged given
    cases given
    have skipped : ¬ (LayerPart.deferred.holds deferBooks cf) = true := by
      simp [LayerPart.holds, main]
    rw [CheckpointLayer.entry_mergePart counted, if_neg skipped]
    exact (holds.main cf key main).2 part apart
  · intro together
    cases together
  · intro merged given
    cases given
    obtain ⟨done, order, late⟩ := holds.split part apart
    refine ⟨done ++ [frozen], by simp [order, first], ?_⟩
    intro cf key deferred
    refine ⟨?_, (late cf key deferred).2⟩
    have covered : (LayerPart.deferred.holds deferBooks cf) = true := by
      simp [LayerPart.holds, deferred]
    rw [CheckpointLayer.entry_mergePart counted, if_pos covered, entryOf_append,
      (late cf key deferred).1]

theorem Holds.absorb (holds : Holds deferBooks blocks run)
    (apart : run.part = some part) (ready : run.waiting = []) :
    Holds deferBooks blocks { run with layer := run.layer.absorb part, part := none } := by
  obtain ⟨done, order, late⟩ := holds.split part apart
  rw [ready, append_nil] at order
  constructor
  · exact holds.counted.absorb (holds.partCounted part apart)
  · intro other contrary
    cases contrary
  · intro cf key main
    refine ⟨?_, ?_⟩
    · rw [CheckpointLayer.entry_absorb holds.counted, (holds.main cf key main).2 part apart,
        Option.none_or]
      exact (holds.main cf key main).1
    · intro other contrary
      cases contrary
  · intro _
    refine ⟨ready, ?_⟩
    intro cf key deferred
    rw [CheckpointLayer.entry_absorb holds.counted, (late cf key deferred).1,
      (late cf key deferred).2, Option.or_none, order]
  · intro other contrary
    cases contrary

/-- Every layer operation keeps what the checkpoints hold. -/
theorem Holds.step (holds : Holds deferBooks blocks run) {op : LayerOp}
    (taken : run.step deferBooks op = some next) :
    Holds deferBooks (blocks ++ blockOf op) next := by
  obtain ⟨layer, part, waiting⟩ := run
  have kept := append_nil blocks
  cases op with
  | merge frozen =>
    cases part with
    | none =>
      cases taken
      exact holds.merge rfl frozen
    | some part => cases taken
  | splitDeferred =>
    cases part with
    | none =>
      cases taken
      exact kept.symm ▸ holds.splitDeferred rfl
    | some part => cases taken
  | mergeMain frozen =>
    cases part with
    | none => cases taken
    | some part =>
      cases taken
      exact holds.mergeMain rfl frozen
  | mergeDeferred =>
    cases part with
    | none => cases taken
    | some part =>
      cases waiting with
      | nil => cases taken
      | cons frozen waiting =>
        cases taken
        exact kept.symm ▸ holds.mergeDeferred rfl rfl
  | absorb =>
    cases part with
    | none => cases taken
    | some part =>
      cases waiting with
      | nil =>
        cases taken
        exact kept.symm ▸ holds.absorb rfl rfl
      | cons frozen waiting => cases taken
  | duplicate =>
    cases taken
    cases part with
    | none => exact kept.symm ▸ holds
    | some part => exact kept.symm ▸ holds

theorem Schedule.holds
    (schedule : Schedule deferBooks blocks run) : Holds deferBooks blocks run := by
  induction schedule with
  | start =>
    constructor
    · exact fun cf => rfl
    · intro part contrary
      cases contrary
    · intro cf key _
      refine ⟨rfl, ?_⟩
      intro part contrary
      cases contrary
    · exact fun _ => ⟨rfl, fun cf key _ => rfl⟩
    · intro part contrary
      cases contrary
  | step op _ taken ih => exact ih.step taken

end Layering

end State

end TorusHyperBft
