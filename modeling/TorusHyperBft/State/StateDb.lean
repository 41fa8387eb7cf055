import TorusHyperBft.RunningHash.Digest
import TorusHyperBft.State.Flat

namespace TorusHyperBft.State

open List

/-! The reads of the state database. Rows of the height-keyed column families that lie below the
prune cutoff may linger on disk; every read of the database hides them. -/

open RunningHash (Key Value ColumnFamily)

section Prefixes

def startsWith (stem key : Key) : Bool := stem.isPrefixOf key

theorem startsWith_iff {stem key : Key} : startsWith stem key ↔ stem <+: key :=
  isPrefixOf_iff_prefix

/-- The last byte below `0xff` is raised and all after it are dropped; the argument is reversed. -/
def popSuccessor : List Byte → Option Key
  | [] => none
  | last :: rest => if last ≠ 255 then some (rest.reverse ++ [last + 1]) else popSuccessor rest

/-- The least key above every key that starts with the prefix, if there is one. -/
def prefixSuccessor (stem : Key) : Option Key := popSuccessor stem.reverse

theorem cons_le_cons_iff {first byte : Byte} {key other : Key} :
    first :: key ≤ byte :: other ↔ first < byte ∨ (first = byte ∧ key ≤ other) := by
  rw [le_iff_lt_or_eq, cons_lt_cons_iff, List.cons.injEq, le_iff_lt_or_eq]
  tauto

theorem append_between {stem low high key : Key} (least : stem ++ low ≤ key)
    (below : key < stem ++ high) : ∃ rest, key = stem ++ rest ∧ low ≤ rest ∧ rest < high := by
  induction stem generalizing key with
  | nil => exact ⟨key, rfl, least, below⟩
  | cons byte stem ih =>
    cases key with
    | nil => exact absurd least (not_le_of_gt (nil_lt_cons _ _))
    | cons first key =>
      rw [cons_append, cons_le_cons_iff] at least
      rw [cons_append, cons_lt_cons_iff] at below
      have same : first = byte := by
        rcases least with least | least
        · rcases below with below | below
          · exact absurd below (lt_asymm least)
          · exact below.1
        · exact least.1.symm
      subst same
      obtain ⟨rest, is, low, high⟩ := ih (least.resolve_left (lt_irrefl _)).2
        (below.resolve_left (lt_irrefl _)).2
      exact ⟨rest, congrArg (first :: ·) is, low, high⟩

theorem startsWith_le {stem key : Key} (starts : startsWith stem key) : stem ≤ key := by
  obtain ⟨rest, rfl⟩ := startsWith_iff.mp starts
  clear starts
  induction stem with
  | nil => exact not_lt.mp (not_lt_nil _)
  | cons byte stem ih => exact cons_le_cons_iff.mpr (.inr ⟨rfl, ih⟩)

theorem startsWith_cuts {start stem : Key} (from' : stem ≤ start) :
    CutsFrom start (startsWith stem) := by
  intro key other above below passes
  obtain ⟨rest, rfl⟩ := startsWith_iff.mp passes
  have least : stem ++ [] ≤ key := by
    rw [append_nil]
    exact le_trans from' above
  rcases lt_or_eq_of_le below with below | rfl
  · obtain ⟨inner, rfl, _, _⟩ := append_between least below
    exact startsWith_iff.mpr (prefix_append _ _)
  · exact passes

theorem prefixSuccessor_append (stem : Key) (last : Byte) :
    prefixSuccessor (stem ++ [last]) =
      if last ≠ 255 then some (stem ++ [last + 1]) else prefixSuccessor stem := by
  simp [prefixSuccessor, popSuccessor]

theorem byte_between {last : Byte} {rest : Key} (notLast : last ≠ 255) (least : [last] ≤ rest)
    (below : rest < [last + 1]) : [last] <+: rest := by
  cases rest with
  | nil => exact absurd least (not_le_of_gt (nil_lt_cons _ _))
  | cons first rest =>
    rw [cons_lt_cons_iff] at below
    rw [cons_le_cons_iff] at least
    have next : (last + 1).val = last.val + 1 := Fin.val_add_one_of_lt (Fin.lt_last_iff_ne_last.mpr notLast)
    have upper : first < last + 1 := below.resolve_right fun same => not_lt_nil _ same.2
    have same : last = first := by
      rcases least with least | least
      · have lower := Fin.lt_def.mp least
        have higher := Fin.lt_def.mp upper
        omega
      · exact least.1
    exact ⟨rest, by rw [same]; rfl⟩

theorem startsWith_iff_below {stem key : Key} (least : stem ≤ key) :
    startsWith stem key ↔ (prefixSuccessor stem).all fun upper => key < upper := by
  rw [startsWith_iff]
  induction stem using List.reverseRecOn generalizing key with
  | nil => simp [prefixSuccessor, popSuccessor]
  | append_singleton stem last ih =>
    rw [prefixSuccessor_append]
    by_cases isLast : last = 255
    · -- a last byte of 0xff is dropped: the successor is that of the shorter prefix
      subst isLast
      have shorter : stem ≤ key :=
        le_trans (startsWith_le (startsWith_iff.mpr (prefix_append _ _))) least
      rw [if_neg (not_not.mpr rfl), ← ih shorter]
      constructor
      · exact fun starts => (prefix_append _ _).trans starts
      · rintro ⟨rest, rfl⟩
        have high : [255] ≤ rest := by
          rw [← not_lt]
          intro low
          exact absurd least (not_le_of_gt (append_left_lt low))
        cases rest with
        | nil => exact absurd high (not_le_of_gt (nil_lt_cons _ _))
        | cons first rest =>
          rw [cons_le_cons_iff] at high
          have same : first = 255 := by
            rcases high with above | same
            · exact absurd above (not_lt_of_ge (Fin.le_last first))
            · exact same.1.symm
          exact ⟨rest, by simp [same]⟩
    · rw [if_pos isLast, Option.all_some, decide_eq_true_eq]
      constructor
      · rintro ⟨rest, rfl⟩
        rw [append_assoc]
        apply append_left_lt
        rw [singleton_append, cons_lt_cons_iff]
        exact .inl (Fin.lt_add_one_iff.mpr (Fin.lt_last_iff_ne_last.mpr isLast))
      · intro below
        obtain ⟨rest, rfl, low, high⟩ := append_between least below
        exact (prefix_append_right_inj stem).mpr (byte_between isLast low high)

end Prefixes

section PruneCutoff

def heightKeyedKeyLen : ColumnFamily → Option Nat
  | .blockBodies => some 8
  | .blockActionStatus => some 8
  | .receipts => some 12
  | .coreWriterTx => some 16
  | _ => none

def heightBound (height : U64) (keyLen : Nat) : Key :=
  (toBytes 8 height.val ++ List.replicate 8 0).take (min (max keyLen 8) 16)

def belowCutoff (key : Key) (keyLen : Nat) (cutoff : U64) : Bool :=
  if cutoff = 0 then false
  else decide (heightBound 0 keyLen ≤ key) && decide (key < heightBound cutoff keyLen)

end PruneCutoff

/-- The rows on disk by column family, and the height below which reads hide the pruned ones. -/
structure StateDb where
  rows : ColumnFamily → OrderedMap Key Value := fun _ => .empty
  hiddenBelow : U64 := 0

namespace StateDb

variable {db : StateDb} {cf : ColumnFamily}

def hiddenFor (db : StateDb) (cf : ColumnFamily) : Option (U64 × Nat) :=
  if db.hiddenBelow = 0 then none
  else (heightKeyedKeyLen cf).map fun keyLen => (db.hiddenBelow, keyLen)

def isPruned (hidden : Option (U64 × Nat)) (key : Key) : Bool :=
  hidden.any fun hidden => belowCutoff key hidden.2 hidden.1

def isHidden (db : StateDb) (cf : ColumnFamily) (key : Key) : Bool :=
  if db.hiddenBelow = 0 then false
  else match heightKeyedKeyLen cf with
    | some keyLen => belowCutoff key keyLen db.hiddenBelow
    | none => false

def iteratorCf (db : StateDb) (cf : ColumnFamily) (upper : Option Key) (start : Key) :
    List (Key × Value) :=
  ((db.rows cf).range start).filter fun row => upper.all fun upper => row.1 < upper

def prefixIter (db : StateDb) (cf : ColumnFamily) (stem : Key) : List (Key × Value) :=
  db.iteratorCf cf (prefixSuccessor stem) stem

def getCfRaw (db : StateDb) (cf : ColumnFamily) (key : Key) : Option Value :=
  if db.isHidden cf key then none else (db.rows cf).lookup key

def getCfLen (db : StateDb) (cf : ColumnFamily) (key : Key) : Option Nat :=
  if db.isHidden cf key then none else ((db.rows cf).lookup key).map List.length

def iterateCf (db : StateDb) (cf : ColumnFamily) (stem : Option Key) : List (Key × Value) :=
  let hidden := db.hiddenFor cf
  match stem with
  | some stem =>
    ((db.prefixIter cf stem).takeWhile fun row => startsWith stem row.1).filter fun row =>
      !isPruned hidden row.1
  | none => (db.rows cf).entries.filter fun row => !isPruned hidden row.1

def iterateCfFrom (db : StateDb) (cf : ColumnFamily) (start : Key) (limit : Nat) :
    List (Key × Value) :=
  let hidden := db.hiddenFor cf
  ((db.iteratorCf cf none start).filter fun row => !isPruned hidden row.1).take limit

def iterateCfPrefixFrom (db : StateDb) (cf : ColumnFamily) (stem start : Key) (limit : Nat) :
    List (Key × Value) :=
  let hidden := db.hiddenFor cf
  let rows := db.iteratorCf cf (prefixSuccessor stem) start
  ((rows.takeWhile fun row => startsWith stem row.1).filter fun row =>
    !isPruned hidden row.1).take limit

def prefixExists (db : StateDb) (cf : ColumnFamily) (stem : Key) : Bool :=
  let hidden := db.hiddenFor cf
  ((db.prefixIter cf stem).takeWhile fun row => startsWith stem row.1).any fun row =>
    !isPruned hidden row.1

def visible (db : StateDb) (cf : ColumnFamily) : OrderedMap Key Value :=
  (db.rows cf).select fun key => !db.isHidden cf key

theorem isPruned_hiddenFor (key : Key) : isPruned (db.hiddenFor cf) key = db.isHidden cf key := by
  unfold hiddenFor isHidden isPruned
  by_cases zero : db.hiddenBelow = 0
  · simp [zero]
  · cases heightKeyedKeyLen cf <;> simp [zero]

theorem iteratorCf_successor {stem start : Key} (from' : stem ≤ start) :
    db.iteratorCf cf (prefixSuccessor stem) start =
      ((db.rows cf).range start).filter fun row => startsWith stem row.1 := by
  apply filter_congr
  intro row member
  have above : stem ≤ row.1 := le_trans from' (OrderedMap.mem_range.mp member).1
  rw [Bool.eq_iff_iff, startsWith_iff_below above]

section Reads

theorem getCfRaw_eq (key : Key) : db.getCfRaw cf key = (db.visible cf).lookup key := by
  rw [getCfRaw, visible, OrderedMap.lookup_select]
  cases db.isHidden cf key <;> rfl

theorem getCfLen_eq (key : Key) :
    db.getCfLen cf key = ((db.visible cf).lookup key).map List.length := by
  rw [getCfLen, visible, OrderedMap.lookup_select]
  cases db.isHidden cf key <;> rfl

theorem filter_range (start : Key) :
    (((db.rows cf).range start).filter fun row => !isPruned (db.hiddenFor cf) row.1) =
      (db.visible cf).range start := by
  simp only [isPruned_hiddenFor]
  exact filter_comm ..

theorem walk_eq {stem start : Key} (from' : stem ≤ start) :
    (((db.iteratorCf cf (prefixSuccessor stem) start).takeWhile fun row =>
        startsWith stem row.1).filter fun row => !isPruned (db.hiddenFor cf) row.1) =
      ((db.visible cf).range start).filter fun row => startsWith stem row.1 := by
  have all : ((db.iteratorCf cf (prefixSuccessor stem) start).takeWhile fun row =>
      startsWith stem row.1) = db.iteratorCf cf (prefixSuccessor stem) start := by
    rw [iteratorCf_successor from']
    exact takeWhile_eq_self_iff.mpr fun row member => (mem_filter.mp member).2
  rw [all, iteratorCf_successor from', filter_comm, filter_range]

theorem range_filter (map : OrderedMap Key Value) (stem : Key) :
    ((map.range stem).filter fun row => startsWith stem row.1) =
      (map.select (startsWith stem)).entries := by
  rw [← CfPending.range_takeWhile map (startsWith_cuts (le_refl stem)) fun key => startsWith_le]
  exact ((startsWith_cuts (le_refl stem)).takeWhile OrderedMap.range_ascends fun row member =>
    (OrderedMap.mem_range.mp member).1).symm

theorem startsWith_nil (key : Key) : startsWith [] key := rfl

theorem iterateCf_eq (stem : Option Key) :
    db.iterateCf cf stem = ((db.visible cf).select (startsWith (stem.getD []))).entries := by
  cases stem with
  | some stem =>
    have walked := @walk_eq db cf stem stem (le_refl stem)
    rw [range_filter] at walked
    exact walked
  | none =>
    have all : ((db.visible cf).select (startsWith [])).entries = (db.visible cf).entries :=
      filter_eq_self.mpr fun row _ => startsWith_nil row.1
    simp only [Option.getD_none, all, iterateCf, isPruned_hiddenFor]
    rfl

theorem iterateCfFrom_eq (start : Key) (limit : Nat) :
    db.iterateCfFrom cf start limit = ((db.visible cf).range start).take limit := by
  have unbounded : db.iteratorCf cf none start = (db.rows cf).range start :=
    filter_eq_self.mpr fun _ _ => rfl
  simp only [iterateCfFrom, unbounded, filter_range]

theorem iterateCfPrefixFrom_eq {stem start : Key} (from' : stem ≤ start) (limit : Nat) :
    db.iterateCfPrefixFrom cf stem start limit =
      (((db.visible cf).range start).filter fun row => startsWith stem row.1).take limit := by
  rw [iterateCfPrefixFrom, walk_eq from']

theorem prefixExists_eq (stem : Key) :
    db.prefixExists cf stem = !((db.visible cf).select (startsWith stem)).entries.isEmpty := by
  have any_filter : ∀ (rows : List (Key × Value)) (wanted : Key × Value → Bool),
      rows.any wanted = !(rows.filter wanted).isEmpty := by
    intro rows wanted
    rw [Bool.eq_iff_iff, any_eq_true, Bool.not_eq_true', isEmpty_eq_false_iff_exists_mem]
    exact exists_congr fun row => mem_filter.symm
  rw [← range_filter, ← walk_eq (le_refl stem), ← any_filter]
  rfl

end Reads

end StateDb

end TorusHyperBft.State
