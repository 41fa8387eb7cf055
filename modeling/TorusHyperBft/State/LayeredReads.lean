import TorusHyperBft.State.NativeStateOverlay

namespace TorusHyperBft.State

open List CfPending

/-! The reads through the layers against the reads of one flat store. -/

open RunningHash (Key Value ColumnFamily PendingState)

variable {row : Key × Value}

section Stack

variable {layers : List (CfPending Key Value)} {map other : OrderedMap Key Value} {stem start : Key}
  {limit : Nat}

theorem range_filter_ext (same : ∀ key, start ≤ key → startsWith stem key →
    map.lookup key = other.lookup key) :
    ((map.range start).filter fun row => startsWith stem row.1) =
      (other.range start).filter fun row => startsWith stem row.1 := by
  apply (map.range_ascends.filter _).ext (other.range_ascends.filter _)
  intro row
  rw [mem_filter, mem_filter, OrderedMap.mem_range, OrderedMap.mem_range]
  constructor
  · rintro ⟨⟨above, found⟩, starts⟩
    exact ⟨⟨above, same row.1 above starts ▸ found⟩, starts⟩
  · rintro ⟨⟨above, found⟩, starts⟩
    exact ⟨⟨above, (same row.1 above starts).trans found⟩, starts⟩

theorem takeWhile_range (from' : stem ≤ start) :
    ((map.range start).takeWhile fun row => startsWith stem row.1) =
      (map.range start).filter fun row => startsWith stem row.1 :=
  (startsWith_cuts from').takeWhile OrderedMap.range_ascends fun _ member =>
    (OrderedMap.mem_range.mp member).1

theorem mergeLayers_under (from' : stem ≤ start) :
    ((mergeLayers layers start limit ((map.range start).filter fun row =>
        startsWith stem row.1)).takeWhile fun row => startsWith stem row.1) =
      (((stack layers map).range start).filter fun row => startsWith stem row.1).take limit := by
  let base : OrderedMap Key Value := map.select (startsWith stem)
  have rows : ((map.range start).filter fun row => startsWith stem row.1) = base.range start :=
    filter_comm ..
  rw [rows, mergeLayers_range, takeWhile_take, takeWhile_range from']
  congr 1
  apply range_filter_ext
  intro key _ starts
  rw [lookup_stack, lookup_stack, OrderedMap.lookup_select, if_pos starts]

theorem stack_select (wanted : Key → Bool) :
    (stack (layers.map fun layer => layer.select wanted) (map.select wanted)).entries =
      ((stack layers map).select wanted).entries := by
  apply OrderedMap.entries_ext
  intro key
  rw [lookup_stack, OrderedMap.lookup_select, OrderedMap.lookup_select, lookup_stack]
  have parts : lookupLayers (layers.map fun layer => layer.select wanted) key =
      if wanted key then lookupLayers layers key else none := by
    rw [lookupLayers, List.findSome?_map]
    by_cases passes : wanted key
    · simp only [Function.comp_def, lookup_select, passes, if_true]
      rfl
    · simp [Function.comp_def, lookup_select, passes]
  rw [parts]
  by_cases passes : wanted key
  · simp [passes]
  · simp [passes]

theorem lookupLayers_eq_none {key : Key} :
    lookupLayers layers key = none ↔ ∀ layer ∈ layers, layer.lookup key = none := by
  rw [lookupLayers, List.findSome?_eq_none_iff]

section Run

variable {under : Key → Bool} (cuts : CutsFrom start under) (starts : ∀ key, under key → start ≤ key)

include cuts starts

theorem stack_untouched (untouched : ∀ layer ∈ layers, layer.touches start under = false) :
    ((stack layers map).select under).entries = (map.select under).entries := by
  apply OrderedMap.entries_ext
  intro key
  rw [OrderedMap.lookup_select, OrderedMap.lookup_select, lookup_stack]
  by_cases passes : under key
  · have unknown : lookupLayers layers key = none := by
      rw [lookupLayers_eq_none]
      intro layer member
      have absent := @lookup_of_touches _ _ _ layer start key under cuts starts
        (untouched layer member)
      rwa [lookup_select, if_pos passes] at absent
    rw [unknown, Option.getD_none]
  · simp [passes]

/-- An overlay's read is a read of the stack of its layer and the rows. -/
theorem overlaySorted_run (own : CfPending Key Value) :
    CfPending.overlaySorted own.deletes (map.select under).entries (own.writesUnder start under) =
      ((stack [own] map).select under).entries := by
  let part : CfPending Key Value := { writes := own.writes.select under, deletes := own.deletes }
  have written : own.writesUnder start under = part.writes.entries :=
    writesUnder_eq cuts starts
  have sorted := overlaySorted_eq part (map.select under)
  rw [written]
  apply sorted.trans
  apply OrderedMap.entries_ext
  intro key
  rw [lookup_applyTo, OrderedMap.lookup_select, OrderedMap.lookup_select]
  have applied : (stack [own] map).lookup key = (own.lookup key).getD (map.lookup key) :=
    lookup_applyTo
  rw [applied]
  by_cases passes : under key
  · simp [part, CfPending.lookup, OrderedMap.lookup_select, passes]
  · by_cases deleted : (own.deletes.lookup key).isSome
    · simp [part, CfPending.lookup, OrderedMap.lookup_select, passes, deleted]
    · simp [part, CfPending.lookup, OrderedMap.lookup_select, passes, deleted]

theorem overlayInto_run (own : CfPending Key Value) (merged : OrderedMap Key Value)
    (rows : merged.entries = (map.select under).entries) :
    (own.overlayInto start under (layers.reverse.foldl
        (fun merged layer => layer.overlayInto start under merged) merged)).entries =
      ((stack (own :: layers) map).select under).entries := by
  have same : merged = map.select under := OrderedMap.eq_of_entries rows
  have laid : ∀ (merged : OrderedMap Key Value),
      layers.foldr (fun layer merged => layer.overlayInto start under merged) merged =
        stack (layers.map fun layer => layer.select under) merged := by
    intro merged
    rw [stack, foldr_map]
    simp only [overlayInto_eq cuts starts]
  rw [foldl_reverse, laid, overlayInto_eq cuts starts, same, ← stack_select]
  rfl

end Run

theorem mem_select {wanted : Key → Bool} :
    row ∈ (map.select wanted).entries ↔ wanted row.1 ∧ map.lookup row.1 = some row.2 := by
  rw [OrderedMap.lookup_eq_some, and_comm]
  exact mem_filter

theorem mem_writesUnder {cf : CfPending Key Value} : row ∈ cf.writesUnder stem (startsWith stem) ↔
      startsWith stem row.1 ∧ cf.writes.lookup row.1 = some row.2 := by
  rw [writesUnder_eq (startsWith_cuts (le_refl stem)) fun key => startsWith_le]
  exact mem_select

theorem isLive_eq (own : CfPending Key Value) (lower : List (CfPending Key Value)) (key : Key) :
    NativeStateOverlay.isLive own lower key =
      ((lookupLayers (own :: lower) key).getD (some [])).isSome := by
  have first : lookupLayers (own :: lower) key = (own.lookup key).or (lookupLayers lower key) := by
    rw [lookupLayers, List.findSome?_cons]
    cases own.lookup key <;> rfl
  rw [first, NativeStateOverlay.isLive]
  cases own.lookup key with
  | some hit => rfl
  | none => cases lookupLayers lower key <;> rfl

/-- Some key under a prefix is live: one the newest layer writes, one a lower layer writes, or one
of the base that no layer removes. -/
theorem exists_live (own : CfPending Key Value) (lower : List (CfPending Key Value))
    (map : OrderedMap Key Value) (stem : Key) :
    (!(own.writesUnder stem (startsWith stem)).isEmpty ||
        (lower.any fun layer => (layer.writesUnder stem (startsWith stem)).any fun row =>
          NativeStateOverlay.isLive own lower row.1) ||
        (map.select (startsWith stem)).entries.any fun row =>
          NativeStateOverlay.isLive own lower row.1) =
      !((stack (own :: lower) map).select (startsWith stem)).entries.isEmpty := by
  rw [Bool.eq_iff_iff]
  simp only [Bool.or_eq_true, Bool.not_eq_true', any_eq_true,
    isEmpty_eq_false_iff_exists_mem, isLive_eq, mem_writesUnder, mem_select, lookup_stack]
  constructor
  · rintro ((⟨⟨key, value⟩, starts, written⟩ | ⟨layer, member, ⟨key, value⟩, ⟨starts, written⟩, alive⟩) |
      ⟨⟨key, value⟩, ⟨starts, found⟩, alive⟩)
    · have hit : own.lookup key = some (some value) := by
        rw [CfPending.lookup, show own.writes.lookup key = some value from written]
      exact ⟨(key, value), starts, by simp [lookupLayers, hit]⟩
    · have known : lookupLayers (own :: lower) key ≠ none := by
        intro unknown
        have absent := lookupLayers_eq_none.mp unknown layer (mem_cons_of_mem _ member)
        rw [CfPending.lookup, show layer.writes.lookup key = some value from written] at absent
        cases absent
      obtain ⟨hit, is⟩ := Option.ne_none_iff_exists'.mp known
      simp only [is, Option.getD_some] at alive
      obtain ⟨value, rfl⟩ := Option.isSome_iff_exists.mp alive
      exact ⟨(key, value), starts, by simp [is]⟩
    · cases is : lookupLayers (own :: lower) key with
      | none => exact ⟨(key, value), starts, by simpa [is] using found⟩
      | some hit =>
        simp only [is, Option.getD_some] at alive
        obtain ⟨value, rfl⟩ := Option.isSome_iff_exists.mp alive
        exact ⟨(key, value), starts, by simp [is]⟩
  · rintro ⟨⟨key, value⟩, starts, found⟩
    cases is : lookupLayers (own :: lower) key with
    | none =>
      rw [is] at found
      exact .inr ⟨(key, value), ⟨starts, found⟩, by simp [is]⟩
    | some hit =>
      rw [is] at found
      simp only [Option.getD_some] at found
      subst found
      obtain ⟨layer, member, written⟩ := lookupLayers_eq_some_some is
      rcases mem_cons.mp member with rfl | member
      · exact .inl (.inl ⟨(key, value), starts, written⟩)
      · exact .inl (.inr ⟨layer, member, (key, value), ⟨starts, written⟩, by simp [is]⟩)

end Stack

namespace NativeStateOverlay

/-- The overlay's since-checkpoint layer, held whole or split into its main and its late part. -/
def HoldsSince (overlay : NativeStateOverlay) (since : Option PendingState) : Prop :=
  (overlay.deferred = none ∧ overlay.layer = since) ∨
    ∃ state, since = some state ∧ overlay.layer = some (mainPart overlay.deferBooks state) ∧
      overlay.deferred = some (.merged (deferredPart overlay.deferBooks state))

def frozen (overlay : NativeStateOverlay) (since : Option PendingState)
    (cf : ColumnFamily) : List (CfPending Key Value) :=
  [overlay.parent, since, overlay.inflight].reduceOption.map fun state => state cf

/-- The flat store without the own set: the layers applied to the visible rows, oldest first. -/
def flatBelow (overlay : NativeStateOverlay) (since : Option PendingState)
    (cf : ColumnFamily) : OrderedMap Key Value :=
  stack (overlay.frozen since cf) (overlay.db.visible cf)

def flat (overlay : NativeStateOverlay) (since : Option PendingState) : StateDb where
  rows := fun cf => (overlay.pending cf).applyTo (overlay.flatBelow since cf)

/-- What the iterators over the rows on disk stand on: the hidden rows count, but for a column
family with resident rows. -/
def onDisk (overlay : NativeStateOverlay) (since : Option PendingState)
    (cf : ColumnFamily) : OrderedMap Key Value :=
  stack (overlay.pending cf :: overlay.frozen since cf)
    (match overlay.residentFor cf with
      | some _ => overlay.db.visible cf
      | none => overlay.db.rows cf)

/-- Every read of a column family returns what it returns on a database. -/
structure ReadsAs (overlay : NativeStateOverlay) (db : StateDb) (cf : ColumnFamily) : Prop where
  getCfRaw : ∀ key, overlay.getCfRaw cf key = .ok (db.getCfRaw cf key)
  getCfLen : ∀ key, overlay.getCfLen cf key = .ok (db.getCfLen cf key)
  iterateCf : ∀ stem, overlay.iterateCf cf stem = .ok (db.iterateCf cf stem)
  iterateCfFrom : ∀ start limit,
    overlay.iterateCfFrom cf start limit = .ok (db.iterateCfFrom cf start limit)
  iterateCfPrefixFrom : ∀ stem start limit, stem ≤ start →
    overlay.iterateCfPrefixFrom cf stem start limit =
      .ok (db.iterateCfPrefixFrom cf stem start limit)
  prefixExists : ∀ stem, overlay.prefixExists cf stem = .ok (db.prefixExists cf stem)

section Reads

variable {overlay : NativeStateOverlay} {since : Option PendingState}
  {cf : ColumnFamily}

theorem flat_visible : (overlay.flat since).visible cf =
    stack (overlay.pending cf :: overlay.frozen since cf) (overlay.db.visible cf) := by
  have all : ∀ map : OrderedMap Key Value, (map.select fun _ => true) = map := by
    intro map
    cases map
    simp [OrderedMap.select]
  exact all _

theorem layerFor_eq (holds : overlay.HoldsSince since) : ∃ layer, overlay.layerFor cf = .ok layer ∧
    layer.map (fun state => state cf) = since.map fun state => state cf := by
  rcases holds with ⟨whole, rfl⟩ | ⟨state, rfl, main, late⟩
  · exact ⟨overlay.layer, by simp [layerFor, whole], rfl⟩
  · by_cases deferred : isDeferredSlot overlay.deferBooks cf
    · refine ⟨some (deferredPart overlay.deferBooks state), ?_, ?_⟩
      · simp [layerFor, late, deferred]
      · simp [deferredPart, deferred]
    · refine ⟨overlay.layer, ?_, ?_⟩
      · simp [layerFor, late, deferred]
      · simp [main, mainPart, deferred]

theorem map_reduceOption (read : PendingState → CfPending Key Value)
    (layer : Option PendingState)
    (same : layer.map read = since.map read) :
    [overlay.parent, layer, overlay.inflight].reduceOption.map read =
      [overlay.parent, since, overlay.inflight].reduceOption.map read := by
  rw [← reduceOption_map, ← reduceOption_map]
  simp only [map_cons, map_nil, same]

theorem lower_eq (holds : overlay.HoldsSince since) :
    overlay.lower cf = .ok (overlay.frozen since cf) := by
  obtain ⟨layer, found, same⟩ := @layerFor_eq _ _ cf holds
  rw [lower, found, frozen, ← map_reduceOption _ layer same]
  rfl

theorem lookupLower_eq (holds : overlay.HoldsSince since) (key : Key) :
    overlay.lookupLower cf key = .ok (lookupLayers (overlay.frozen since cf) key) := by
  obtain ⟨layer, found, same⟩ := @layerFor_eq _ _ cf holds
  rw [lookupLower, found, frozen, ← map_reduceOption _ layer same]
  have cons : ∀ (head : Option PendingState) (rest : List (Option PendingState)),
      lookupLayers ((head :: rest).reduceOption.map fun state => state cf) key =
        (head.bind fun state => (state cf).lookup key).or
          (lookupLayers (rest.reduceOption.map fun state => state cf) key) := by
    intro head rest
    cases head with
    | none => rw [reduceOption_cons_of_none]; rfl
    | some state =>
      rw [reduceOption_cons_of_some, map_cons, lookupLayers, List.findSome?_cons]
      cases hit : (state cf).lookup key <;> simp [hit, lookupLayers]
  have last : lookupLayers (([] : List (Option PendingState)).reduceOption.map
      fun state => state cf) key = none := rfl
  rw [cons, cons, cons, last, Option.or_none]
  cases overlay.parent.bind fun state => (state cf).lookup key with
  | some hit => rfl
  | none =>
    cases lower : layer.bind fun state => (state cf).lookup key with
    | some hit => simp [lower, bind, Except.bind, pure, Except.pure]
    | none => simp [lower, bind, Except.bind, pure, Except.pure]

variable (holds : overlay.HoldsSince since)
  (resident : ∀ rows, overlay.residentFor cf = some rows → rows.Holds (overlay.flatBelow since cf))

include holds resident

theorem getCfRaw_eq (key : Key) :
    overlay.getCfRaw cf key = .ok ((overlay.flat since).getCfRaw cf key) := by
  rw [StateDb.getCfRaw_eq, flat_visible, lookup_stack, lookupLayers, List.findSome?_cons, getCfRaw]
  cases (overlay.pending cf).lookup key with
  | some hit => rfl
  | none =>
    cases attached : overlay.residentFor cf with
    | some rows =>
      simp only [Resident.get_eq (resident rows attached), flatBelow, lookup_stack]
      rfl
    | none =>
      simp only [lookupLower_eq holds, StateDb.getCfRaw_eq]
      change _ = Except.ok ((lookupLayers (overlay.frozen since cf) key).getD _)
      cases lookupLayers (overlay.frozen since cf) key <;> rfl

theorem getCfLen_eq (key : Key) :
    overlay.getCfLen cf key = .ok ((overlay.flat since).getCfLen cf key) := by
  rw [StateDb.getCfLen_eq, flat_visible, lookup_stack, lookupLayers, List.findSome?_cons, getCfLen]
  cases (overlay.pending cf).lookup key with
  | some hit => rfl
  | none =>
    cases attached : overlay.residentFor cf with
    | some rows =>
      simp only [Resident.getLen_eq (resident rows attached), flatBelow, lookup_stack]
      rfl
    | none =>
      simp only [lookupLower_eq holds, StateDb.getCfLen_eq]
      change _ = Except.ok (((lookupLayers (overlay.frozen since cf) key).getD _).map List.length)
      cases lookupLayers (overlay.frozen since cf) key <;> rfl

theorem iterateCf_eq (stem : Option Key) :
    overlay.iterateCf cf stem = .ok ((overlay.flat since).iterateCf cf stem) := by
  have cuts := @startsWith_cuts (stem.getD []) (stem.getD []) (le_refl _)
  have starts : ∀ key, startsWith (stem.getD []) key → stem.getD [] ≤ key := fun key => startsWith_le
  rw [StateDb.iterateCf_eq, flat_visible, iterateCf]
  cases attached : overlay.residentFor cf with
  | some rows =>
    have base : rows.range (stem.getD []) (stem.getD []) =
        ((overlay.flatBelow since cf).select (startsWith (stem.getD []))).entries := by
      rw [Resident.range_eq (resident rows attached)]
      exact range_takeWhile _ cuts starts
    simp only [base]
    by_cases touched : (overlay.pending cf).touches (stem.getD []) (startsWith (stem.getD []))
    · simp only [touched, Bool.not_true, Bool.false_eq_true, if_false]
      exact congrArg Except.ok (overlaySorted_run cuts starts (overlay.pending cf))
    · simp only [touched, Bool.not_false, if_true]
      have same := @stack_untouched [overlay.pending cf] (overlay.flatBelow since cf) _ _ cuts
        starts (by simpa using touched)
      exact congrArg Except.ok same.symm
  | none =>
    simp only [lower_eq holds, StateDb.iterateCf_eq]
    change (if _ then Except.ok _ else Except.ok _) = _
    split
    · rename_i untouched
      simp only [Bool.and_eq_true, Bool.not_eq_true', any_eq_false] at untouched
      apply congrArg Except.ok
      symm
      apply stack_untouched cuts starts
      intro layer member
      rcases mem_cons.mp member with rfl | member
      · exact untouched.1
      · exact Bool.eq_false_iff.mpr (untouched.2 layer member)
    · apply congrArg Except.ok
      exact overlayInto_run cuts starts _ _ (OrderedMap.foldl_insert_entries _)

theorem iterateCfFrom_eq (start : Key) (limit : Nat) :
    overlay.iterateCfFrom cf start limit = .ok (((overlay.onDisk since cf).range start).take limit) := by
  rw [iterateCfFrom, onDisk]
  by_cases zero : limit = 0
  · simp [zero]
  · rw [if_neg zero]
    cases attached : overlay.residentFor cf with
    | some rows =>
      have all : rows.range start [] = (overlay.flatBelow since cf).range start := by
        rw [Resident.range_eq (resident rows attached), takeWhile_eq_self_iff]
        exact fun row _ => StateDb.startsWith_nil row.1
      simp only [all, mergeLayers_range]
      rfl
    | none =>
      have unbounded : overlay.db.iteratorCf cf none start = (overlay.db.rows cf).range start :=
        filter_eq_self.mpr fun _ _ => rfl
      simp only [lower_eq holds, unbounded, mergeLayers_range]
      rfl

theorem iterateCfPrefixFrom_eq {stem start : Key} (from' : stem ≤ start) (limit : Nat) :
    overlay.iterateCfPrefixFrom cf stem start limit =
      .ok ((((overlay.onDisk since cf).range start).filter fun row =>
        startsWith stem row.1).take limit) := by
  rw [iterateCfPrefixFrom, onDisk]
  by_cases zero : limit = 0
  · simp [zero]
  · rw [if_neg zero]
    cases attached : overlay.residentFor cf with
    | some rows =>
      simp only [Resident.range_eq (resident rows attached), takeWhile_range from',
        mergeLayers_under from']
      rfl
    | none =>
      simp only [lower_eq holds, StateDb.iteratorCf_successor from']
      exact congrArg Except.ok (mergeLayers_under from')

theorem prefixExists_eq (stem : Key) :
    overlay.prefixExists cf stem =
      .ok (!((overlay.onDisk since cf).select (startsWith stem)).entries.isEmpty) := by
  have returns : ∀ first second third : Bool,
      (if first then Except.ok true else if second then Except.ok true
        else (Except.ok third : Except StateError Bool)) = .ok (first || second || third) := by
    intro first second third
    cases first <;> cases second <;> rfl
  rw [prefixExists, onDisk]
  cases attached : overlay.residentFor cf with
  | some rows =>
    have base : rows.range stem stem =
        ((overlay.flatBelow since cf).select (startsWith stem)).entries := by
      rw [Resident.range_eq (resident rows attached)]
      exact range_takeWhile _ (startsWith_cuts (le_refl stem)) fun key => startsWith_le
    have below : stack (overlay.pending cf :: overlay.frozen since cf) (overlay.db.visible cf) =
        stack [overlay.pending cf] (overlay.flatBelow since cf) := rfl
    simp only [base, below]
    apply (returns _ _ _).trans
    exact congrArg Except.ok (exists_live _ _ _ stem)
  | none =>
    have base : ((overlay.db.prefixIter cf stem).takeWhile fun row => startsWith stem row.1) =
        ((overlay.db.rows cf).select (startsWith stem)).entries := by
      rw [StateDb.prefixIter, StateDb.iteratorCf_successor (le_refl stem), StateDb.range_filter,
        takeWhile_eq_self_iff]
      exact fun row member => (mem_select.mp member).1
    simp only [base, lower_eq holds]
    apply (returns _ _ _).trans
    exact congrArg Except.ok (exists_live _ _ _ stem)

end Reads

/-- Some layer has every hidden row. -/
def CoversHidden (overlay : NativeStateOverlay) (since : Option PendingState)
    (cf : ColumnFamily) : Prop :=
  ∀ row ∈ (overlay.db.rows cf).entries, overlay.db.isHidden cf row.1 →
    ∃ layer ∈ overlay.pending cf :: overlay.frozen since cf, (layer.lookup row.1).isSome

section Hidden

variable {overlay : NativeStateOverlay} {since : Option PendingState}
  {cf : ColumnFamily}

theorem onDisk_lookup (seen : (overlay.residentFor cf).isSome ∨ overlay.CoversHidden since cf)
    (key : Key) :
    (overlay.onDisk since cf).lookup key = ((overlay.flat since).visible cf).lookup key := by
  rw [onDisk, flat_visible]
  cases attached : overlay.residentFor cf with
  | some rows => rfl
  | none =>
    have covered := seen.resolve_left (by simp [attached])
    simp only [lookup_stack]
    cases known : lookupLayers (overlay.pending cf :: overlay.frozen since cf) key with
    | some hit => rfl
    | none =>
      simp only [Option.getD_none, StateDb.visible, OrderedMap.lookup_select]
      by_cases hidden : overlay.db.isHidden cf key
      · cases stored : (overlay.db.rows cf).lookup key with
        | none => simp
        | some value =>
          obtain ⟨layer, member, hit⟩ :=
            covered (key, value) (OrderedMap.lookup_eq_some.mp stored) hidden
          rw [lookupLayers_eq_none.mp known layer member] at hit
          cases hit
      · simp [hidden]

theorem onDisk_uncovered (detached : overlay.residentFor cf = none)
    (stored : row ∈ (overlay.db.rows cf).entries) (hidden : overlay.db.isHidden cf row.1)
    (unknown : ∀ layer ∈ overlay.pending cf :: overlay.frozen since cf, layer.lookup row.1 = none) :
    (overlay.onDisk since cf).lookup row.1 = some row.2 ∧
      ((overlay.flat since).visible cf).lookup row.1 = none := by
  have absent := lookupLayers_eq_none.mpr unknown
  constructor
  · rw [onDisk, detached, lookup_stack, absent]
    exact OrderedMap.lookup_eq_some.mpr stored
  · rw [flat_visible, lookup_stack, absent, Option.getD_none, StateDb.visible,
      OrderedMap.lookup_select, hidden]
    rfl

end Hidden

/-- The reads of a column family through the layers are those of the flat store, exactly when the
resident rows stand in for it or the layers know each of its rows below the prune cutoff. -/
theorem readsAs_flat_iff (overlay : NativeStateOverlay) (since : Option PendingState)
    (cf : ColumnFamily) (holds : overlay.HoldsSince since)
    (resident : ∀ rows, overlay.residentFor cf = some rows →
      rows.Holds (overlay.flatBelow since cf)) :
    overlay.ReadsAs (overlay.flat since) cf ↔
      (overlay.residentFor cf).isSome ∨ overlay.CoversHidden since cf := by
  constructor
  · intro reads
    rw [or_iff_not_imp_left]
    intro detached row stored hidden
    by_contra uncovered
    have unknown : ∀ layer ∈ overlay.pending cf :: overlay.frozen since cf,
        layer.lookup row.1 = none := by
      intro layer member
      rw [← Option.not_isSome_iff_eq_none]
      exact fun hit => uncovered ⟨layer, member, hit⟩
    obtain ⟨onDisk, absent⟩ := onDisk_uncovered (Option.not_isSome_iff_eq_none.mp detached) stored
      hidden unknown
    -- a limit that reaches the whole range from the row on
    have ranges := reads.iterateCfFrom row.1 ((overlay.onDisk since cf).range row.1).length
    rw [iterateCfFrom_eq holds resident, StateDb.iterateCfFrom_eq, take_length,
      Except.ok.injEq] at ranges
    have inside : row ∈ (overlay.onDisk since cf).range row.1 :=
      OrderedMap.mem_range.mpr ⟨le_refl _, onDisk⟩
    rw [ranges] at inside
    have present := (OrderedMap.mem_range.mp (mem_of_mem_take inside)).2
    rw [absent] at present
    cases present
  · intro seen
    have same : ∀ key, (overlay.onDisk since cf).lookup key =
        ((overlay.flat since).visible cf).lookup key := onDisk_lookup seen
    constructor
    · exact getCfRaw_eq holds resident
    · exact getCfLen_eq holds resident
    · exact iterateCf_eq holds resident
    · intro start limit
      rw [iterateCfFrom_eq holds resident, StateDb.iterateCfFrom_eq,
        OrderedMap.range_ext fun key _ => same key]
    · intro stem start limit from'
      rw [iterateCfPrefixFrom_eq holds resident from', StateDb.iterateCfPrefixFrom_eq from',
        range_filter_ext fun key _ _ => same key]
    · intro stem
      have selected : ((overlay.onDisk since cf).select (startsWith stem)).entries =
          (((overlay.flat since).visible cf).select (startsWith stem)).entries := by
        apply OrderedMap.entries_ext
        intro key
        rw [OrderedMap.lookup_select, OrderedMap.lookup_select, same]
      rw [prefixExists_eq holds resident, StateDb.prefixExists_eq, selected]

/-- Two block bodies on disk, the one of height 3 below a prune cutoff of 5. -/
def prunedBodies : StateDb where
  rows := fun cf => if cf = .blockBodies then
    (OrderedMap.empty.insert (toBytes 8 3) [1]).insert (toBytes 8 7) [2] else .empty
  hiddenBelow := 5

def deletesHidden : PendingState :=
  fun cf => if cf = .blockBodies then CfPending.delete {} (toBytes 8 3) else {}

def writesBody : NativeStateOverlay where
  db := prunedBodies
  pending := fun cf => if cf = .blockBodies then CfPending.put {} (toBytes 8 9) [4] else {}
  layer := some (mainPart false deletesHidden)
  deferred := some (.merged (deferredPart false deletesHidden))

theorem readsAs_flat_deleted :
    writesBody.CoversHidden (some deletesHidden) .blockBodies ∧
      writesBody.ReadsAs (writesBody.flat (some deletesHidden)) .blockBodies := by
  have covers : writesBody.CoversHidden (some deletesHidden) .blockBodies := by
    unfold CoversHidden
    decide +kernel
  have holds : writesBody.HoldsSince (some deletesHidden) := .inr ⟨deletesHidden, rfl, rfl, rfl⟩
  have detached : ∀ rows, writesBody.residentFor .blockBodies = some rows →
      rows.Holds (writesBody.flatBelow (some deletesHidden) .blockBodies) := by
    intro rows attached
    cases attached
  exact ⟨covers, (readsAs_flat_iff _ _ _ holds detached).mpr (.inr covers)⟩

/-- A read from a key on returns the body below the cutoff. -/
theorem readsAs_flat_pruned :
    let overlay : NativeStateOverlay := { db := prunedBodies }
    overlay.HoldsSince none ∧ overlay.resident.isNone ∧
      (∀ cf, ∀ layer ∈ overlay.pending cf :: overlay.frozen none cf, layer.Disjoint) ∧
        overlay.iterateCfFrom .blockBodies [] 1 = .ok [(toBytes 8 3, [1])] ∧
          (overlay.flat none).iterateCfFrom .blockBodies [] 1 = [(toBytes 8 7, [2])] ∧
            ¬ overlay.ReadsAs (overlay.flat none) .blockBodies := by
  have layered : NativeStateOverlay.iterateCfFrom { db := prunedBodies } .blockBodies [] 1 =
      .ok [(toBytes 8 3, [1])] := by decide +kernel
  have flattened : (NativeStateOverlay.flat { db := prunedBodies } none).iterateCfFrom .blockBodies
      [] 1 = [(toBytes 8 7, [2])] := by decide +kernel
  refine ⟨.inl ⟨rfl, rfl⟩, rfl, ?_, layered, flattened, ?_⟩
  · intro cf layer member key deleted
    cases mem_singleton.mp member
    cases deleted
  · intro reads
    have same := (layered.symm.trans (reads.iterateCfFrom [] 1)).trans (congrArg Except.ok flattened)
    rw [Except.ok.injEq, List.cons.injEq, Prod.mk.injEq] at same
    exact absurd same.1.1 (by decide)

end NativeStateOverlay

end TorusHyperBft.State
