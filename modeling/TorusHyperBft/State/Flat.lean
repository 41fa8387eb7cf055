import TorusHyperBft.State.Layers

namespace TorusHyperBft

open List

/-! Layers of writes and tombstones folded into one map, and reads over a run of its keys. -/

universe u v w

variable {κ : Type u} {ν : Type v} [LinearOrder κ] {key : κ}

namespace OrderedMap

variable {left right map : OrderedMap κ ν} {start : κ}

theorem entries_ext (same : ∀ key, left.lookup key = right.lookup key) :
    left.entries = right.entries := by
  apply left.ascends.ext right.ascends
  rintro ⟨key, value⟩
  rw [← lookup_eq_some, ← lookup_eq_some, same]

theorem eq_of_entries (same : left.entries = right.entries) : left = right := by
  cases left
  cases right
  cases same
  rfl

theorem ext_lookup (same : ∀ key, left.lookup key = right.lookup key) : left = right :=
  eq_of_entries (entries_ext same)

def select (map : OrderedMap κ ν) (wanted : κ → Bool) : OrderedMap κ ν where
  entries := map.entries.filter fun row => wanted row.1
  ascends := map.ascends.filter _

theorem lookup_select {wanted : κ → Bool} :
    (map.select wanted).lookup key = if wanted key then map.lookup key else none := by
  apply Option.ext
  intro value
  rw [lookup_eq_some]
  change (key, value) ∈ map.entries.filter _ ↔ _
  rw [mem_filter, ← lookup_eq_some]
  by_cases passes : wanted key
  · simp [passes]
  · simp [passes]

def mapValues {μ : Type w} (map : OrderedMap κ ν) (change : ν → μ) : OrderedMap κ μ where
  entries := map.entries.map fun row => (row.1, change row.2)
  ascends := by
    apply pairwise_map.mpr
    exact map.ascends

theorem lookup_mapValues {μ : Type w} {change : ν → μ} :
    (map.mapValues change).lookup key = (map.lookup key).map change := by
  simp [lookup, mapValues, List.find?_map, Function.comp_def]

theorem mem_range
    {row : κ × ν} : row ∈ map.range start ↔ start ≤ row.1 ∧ map.lookup row.1 = some row.2 := by
  rw [range, mem_filter, lookup_eq_some, decide_eq_true_eq, and_comm]

theorem range_ascends : Ascends (map.range start) := map.ascends.filter _

theorem range_ext (same : ∀ key, start ≤ key → left.lookup key = right.lookup key) :
    left.range start = right.range start := by
  apply left.range_ascends.ext right.range_ascends
  intro row
  rw [mem_range, mem_range]
  constructor
  · rintro ⟨above, found⟩
    exact ⟨above, same row.1 above ▸ found⟩
  · rintro ⟨above, found⟩
    exact ⟨above, (same row.1 above).trans found⟩

theorem lookup_foldl_insert {writes : List (κ × ν)} (ascends : Ascends writes)
    (map : OrderedMap κ ν) :
    (writes.foldl (fun map write => map.insert write.1 write.2) map).lookup key =
      ((writes.find? fun write => write.1 = key).map Prod.snd).or (map.lookup key) := by
  induction writes generalizing map with
  | nil => simp
  | cons write writes ih =>
    have later := pairwise_cons.mp ascends
    rw [foldl_cons, ih later.2, lookup_insert]
    by_cases here : key = write.1
    · have absent : (writes.find? fun other => other.1 = key) = none := by
        rw [List.find?_eq_none]
        intro other member
        simp [here, ne_of_gt (later.1 other member)]
      simp [here ▸ absent, here]
    · simp [List.find?_cons_of_neg, here, Ne.symm here]

def edit (map : OrderedMap κ ν) (row : κ × Option ν) : OrderedMap κ ν :=
  match row.2 with
  | some value => map.insert row.1 value
  | none => map.erase row.1

theorem lookup_foldl_edit {edits : List (κ × Option ν)} (ascends : Ascends edits)
    (map : OrderedMap κ ν) :
    (edits.foldl edit map).lookup key =
      ((edits.find? fun edit => edit.1 = key).map Prod.snd).getD (map.lookup key) := by
  induction edits generalizing map with
  | nil => rfl
  | cons first edits ih =>
    have later := pairwise_cons.mp ascends
    rw [foldl_cons, ih later.2]
    obtain ⟨at_, value⟩ := first
    by_cases here : at_ = key
    · have absent : (edits.find? fun other => other.1 = key) = none := by
        rw [List.find?_eq_none]
        intro other member
        have above := later.1 other member
        simp [← here, ne_of_gt above]
      rw [absent, List.find?_cons_of_pos (by simp [here])]
      cases value with
      | some value => simp [edit, lookup_insert, here]
      | none => simp [edit, lookup_erase, here]
    · rw [List.find?_cons_of_neg (by simp [here])]
      have elsewhere : ¬ key = at_ := fun same => here same.symm
      cases value with
      | some value => simp [edit, lookup_insert, elsewhere]
      | none => simp [edit, lookup_erase, elsewhere]

theorem foldl_insert_entries (map : OrderedMap κ ν) :
    (map.entries.foldl (fun merged row => merged.insert row.1 row.2)
      ({} : OrderedMap κ ν)).entries = map.entries := by
  apply entries_ext
  intro key
  rw [lookup_foldl_insert map.ascends]
  have empty : ({} : OrderedMap κ ν).lookup key = none := rfl
  rw [empty, Option.or_none]
  rfl

def gather {α : Type v} {β : Type w} (place : α → κ) (piece : α → List β) (rows : List α) :
    OrderedMap κ (List β) :=
  rows.foldl (fun gathered row =>
    gathered.insert (place row) ((gathered.lookup (place row)).getD [] ++ piece row)) {}

theorem lookup_gather {α : Type v} {β : Type w} (place : α → κ) (piece : α → List β)
    (rows : List α) (key : κ) :
    (gather place piece rows).lookup key =
      if rows.any fun row => place row = key then
        some ((rows.filter fun row => place row = key).flatMap piece) else none := by
  unfold gather
  induction rows using List.reverseRecOn with
  | nil => rfl
  | append_singleton rows row ih =>
    rw [foldl_append, foldl_cons, foldl_nil, lookup_insert, any_append,
      filter_append, flatMap_append]
    by_cases here : key = place row
    · subst here
      rw [ih]
      by_cases before : rows.any fun other => place other = place row
      · simp [before]
      · have none : (rows.filter fun other => place other = place row) = [] := by
          simpa [filter_eq_nil_iff] using before
        simp [before, none]
    · have elsewhere : ¬ place row = key := fun same => here same.symm
      simp [here, elsewhere, ih]

end OrderedMap

/-- Past the start, what is cut off is an end of the keys. -/
def CutsFrom (start : κ) (under : κ → Bool) : Prop :=
  ∀ ⦃key other⦄, start ≤ key → key ≤ other → under other → under key

theorem CutsFrom.takeWhile {start : κ} {under : κ → Bool} (cuts : CutsFrom start under)
    {rows : List (κ × ν)} (ascends : Ascends rows) (above : ∀ row ∈ rows, start ≤ row.1) :
    rows.takeWhile (fun row => under row.1) = rows.filter fun row => under row.1 := by
  induction rows with
  | nil => rfl
  | cons row rows ih =>
    have later := pairwise_cons.mp ascends
    have rest := ih later.2 fun other member => above other (mem_cons_of_mem _ member)
    by_cases passes : under row.1
    · simp only [takeWhile_cons, filter_cons, passes, if_true, rest]
    · have none : ∀ other ∈ rows, ¬ under other.1 := by
        intro other member passed
        exact passes (cuts (above row mem_cons_self)
          (le_of_lt (later.1 other member)) passed)
      simp only [takeWhile_cons, filter_cons, passes, Bool.false_eq_true, if_false]
      exact (filter_eq_nil_iff.mpr none).symm

theorem takeWhile_take {α : Type u} (rows : List α) (wanted : α → Bool) (limit : Nat) :
    (rows.take limit).takeWhile wanted = (rows.takeWhile wanted).take limit := by
  induction rows generalizing limit with
  | nil => simp
  | cons row rows ih =>
    cases limit with
    | zero => simp
    | succ limit =>
      by_cases passes : wanted row
      · simp [takeWhile_cons_of_pos passes, ih]
      · simp [takeWhile_cons_of_neg passes]

namespace State

namespace CfPending

variable {cf : CfPending κ ν} {map : OrderedMap κ ν} {key : κ}

def lookup (cf : CfPending κ ν) (key : κ) : Option (Option ν) :=
  match cf.writes.lookup key with
  | some value => some (some value)
  | none => if (cf.deletes.lookup key).isSome then some none else none

def applyTo (cf : CfPending κ ν) (map : OrderedMap κ ν) : OrderedMap κ ν :=
  cf.writes.entries.foldl (fun map write => map.insert write.1 write.2)
    (cf.deletes.entries.foldl (fun map delete => map.erase delete.1) map)

theorem lookup_foldl_erase (deletes : List (κ × Unit)) (map : OrderedMap κ ν) :
    (deletes.foldl (fun map delete => map.erase delete.1) map).lookup key =
      if deletes.any fun delete => delete.1 = key then none else map.lookup key := by
  induction deletes generalizing map with
  | nil => simp
  | cons delete deletes ih =>
    rw [foldl_cons, ih, OrderedMap.lookup_erase]
    by_cases here : key = delete.1
    · simp [here]
    · have others : decide (delete.1 = key) = false := decide_eq_false (Ne.symm here)
      rw [if_neg here, any_cons, others, Bool.false_or]

theorem deletes_any : (cf.deletes.entries.any fun delete => delete.1 = key) =
    (cf.deletes.lookup key).isSome := by
  rw [Bool.eq_iff_iff, any_eq_true, Option.isSome_iff_exists]
  constructor
  · rintro ⟨⟨other, mark⟩, member, same⟩
    cases of_decide_eq_true same
    exact ⟨mark, OrderedMap.lookup_eq_some.mpr member⟩
  · rintro ⟨mark, found⟩
    exact ⟨(key, mark), OrderedMap.lookup_eq_some.mp found, decide_eq_true rfl⟩

theorem lookup_applyTo : (cf.applyTo map).lookup key = (cf.lookup key).getD (map.lookup key) := by
  have written : (cf.writes.entries.find? fun write => write.1 = key).map Prod.snd =
      cf.writes.lookup key := rfl
  rw [applyTo, OrderedMap.lookup_foldl_insert cf.writes.ascends, written, lookup_foldl_erase, deletes_any,
    lookup]
  cases cf.writes.lookup key with
  | some value => rfl
  | none =>
    by_cases deleted : (cf.deletes.lookup key).isSome
    · simp [deleted]
    · simp [deleted]

theorem lookup_put {other : κ} {value : ν} : (cf.put key value).lookup other =
    if other = key then some (some value) else cf.lookup other := by
  by_cases same : other = key
  · simp [lookup, put, OrderedMap.lookup_insert, same]
  · simp [lookup, put, OrderedMap.lookup_insert, OrderedMap.lookup_erase, same]

theorem lookup_delete {other : κ} : (cf.delete key).lookup other =
    if other = key then some none else cf.lookup other := by
  by_cases same : other = key
  · simp [lookup, delete, OrderedMap.lookup_insert, OrderedMap.lookup_erase, same]
  · simp [lookup, delete, OrderedMap.lookup_insert, OrderedMap.lookup_erase, same]

theorem lookup_eq_some_some {value : ν} (found : cf.lookup key = some (some value)) :
    cf.writes.lookup key = some value := by
  unfold lookup at found
  cases written : cf.writes.lookup key with
  | some other => simpa [written] using found
  | none =>
    by_cases deleted : (cf.deletes.lookup key).isSome
    · simp [written, deleted] at found
    · simp [written, deleted] at found

end CfPending

namespace CfPending

section Run

variable {cf : CfPending κ ν} {start key : κ} {under wanted : κ → Bool}

def writesUnder (cf : CfPending κ ν) (start : κ) (under : κ → Bool) : List (κ × ν) :=
  (cf.writes.range start).takeWhile fun write => under write.1

def deletesUnder (cf : CfPending κ ν) (start : κ) (under : κ → Bool) : List (κ × Unit) :=
  (cf.deletes.range start).takeWhile fun delete => under delete.1

def touches (cf : CfPending κ ν) (start : κ) (under : κ → Bool) : Bool :=
  !(cf.writesUnder start under).isEmpty || !(cf.deletesUnder start under).isEmpty

def overlayInto (cf : CfPending κ ν) (start : κ) (under : κ → Bool) (merged : OrderedMap κ ν) :
    OrderedMap κ ν :=
  (cf.writesUnder start under).foldl (fun merged write => merged.insert write.1 write.2)
    ((cf.deletesUnder start under).foldl (fun merged delete => merged.erase delete.1) merged)

def select (cf : CfPending κ ν) (wanted : κ → Bool) : CfPending κ ν where
  writes := cf.writes.select wanted
  deletes := cf.deletes.select wanted

theorem lookup_select :
    (cf.select wanted).lookup key = if wanted key then cf.lookup key else none := by
  simp only [lookup, select, OrderedMap.lookup_select]
  by_cases passes : wanted key
  · simp [passes]
  · simp [passes]

theorem range_takeWhile {α : Type v} (map : OrderedMap κ α) (cuts : CutsFrom start under)
    (starts : ∀ key, under key → start ≤ key) :
    (map.range start).takeWhile (fun row => under row.1) = (map.select under).entries := by
  have above : ∀ row ∈ map.range start, start ≤ row.1 := fun row member =>
    (OrderedMap.mem_range.mp member).1
  rw [cuts.takeWhile OrderedMap.range_ascends above, OrderedMap.range, filter_filter]
  apply filter_congr
  intro row member
  by_cases passes : under row.1
  · simp [passes, starts row.1 passes]
  · simp [passes]

variable (cuts : CutsFrom start under) (starts : ∀ key, under key → start ≤ key)

include cuts starts

theorem writesUnder_eq : cf.writesUnder start under = (cf.select under).writes.entries :=
  range_takeWhile _ cuts starts

theorem deletesUnder_eq : cf.deletesUnder start under = (cf.select under).deletes.entries :=
  range_takeWhile _ cuts starts

theorem overlayInto_eq (merged : OrderedMap κ ν) :
    cf.overlayInto start under merged = (cf.select under).applyTo merged := by
  rw [overlayInto, writesUnder_eq cuts starts, deletesUnder_eq cuts starts, applyTo]

theorem lookup_of_touches (untouched : cf.touches start under = false) :
    (cf.select under).lookup key = none := by
  rw [touches, writesUnder_eq cuts starts, deletesUnder_eq cuts starts, Bool.or_eq_false_iff] at untouched
  have noWrites : (cf.select under).writes.entries = [] := by simpa using untouched.1
  have noDeletes : (cf.select under).deletes.entries = [] := by simpa using untouched.2
  simp [lookup, OrderedMap.lookup, noWrites, noDeletes]

end Run

/-- Ascending base rows with the writes of one layer merged in; its tombstones remove. -/
def overlaySorted (deletes : OrderedMap κ Unit) : List (κ × ν) → List (κ × ν) → List (κ × ν)
  | [], writes => writes
  | row :: base, [] =>
    if (deletes.lookup row.1).isSome then overlaySorted deletes base []
    else row :: overlaySorted deletes base []
  | row :: base, write :: writes =>
    if row.1 < write.1 then
      if (deletes.lookup row.1).isSome then overlaySorted deletes base (write :: writes)
      else row :: overlaySorted deletes base (write :: writes)
    else if row.1 = write.1 then write :: overlaySorted deletes base writes
    else write :: overlaySorted deletes (row :: base) writes
termination_by base writes => base.length + writes.length

section Sorted

variable {deletes : OrderedMap κ Unit} {base writes : List (κ × ν)}

theorem mem_overlaySorted (baseAscends : Ascends base) (writesAscend : Ascends writes)
    {row : κ × ν} : row ∈ overlaySorted deletes base writes ↔
      row ∈ writes ∨
        (row ∈ base ∧ (∀ write ∈ writes, write.1 ≠ row.1) ∧ deletes.lookup row.1 = none) := by
  fun_induction overlaySorted deletes base writes with
  | case1 writes => simp
  | case2 head base deleted ih =>
    have later := pairwise_cons.mp baseAscends
    rw [ih later.2 writesAscend]
    grind
  | case3 head base kept ih =>
    have later := pairwise_cons.mp baseAscends
    have absent : deletes.lookup head.1 = none := Option.not_isSome_iff_eq_none.mp kept
    rw [mem_cons, ih later.2 writesAscend]
    grind
  | case4 head base write writes before deleted ih =>
    have later := pairwise_cons.mp baseAscends
    rw [ih later.2 writesAscend]
    grind
  | case5 head base write writes before kept ih =>
    have later := pairwise_cons.mp baseAscends
    have laterWrites := pairwise_cons.mp writesAscend
    have absent : deletes.lookup head.1 = none := Option.not_isSome_iff_eq_none.mp kept
    have unwritten : ∀ other ∈ write :: writes, other.1 ≠ head.1 := by
      intro other member
      rcases mem_cons.mp member with rfl | member
      · exact ne_of_gt before
      · exact ne_of_gt (lt_trans before (laterWrites.1 other member))
    rw [mem_cons, ih later.2 writesAscend]
    grind
  | case6 head base write writes notBefore same ih =>
    have later := pairwise_cons.mp baseAscends
    have laterWrites := pairwise_cons.mp writesAscend
    rw [mem_cons, ih later.2 laterWrites.2]
    have others : ∀ other ∈ base, write.1 ≠ other.1 := fun other member =>
      same ▸ ne_of_lt (later.1 other member)
    grind
  | case7 head base write writes notBefore different ih =>
    have later := pairwise_cons.mp baseAscends
    have laterWrites := pairwise_cons.mp writesAscend
    have above : write.1 < head.1 := lt_of_le_of_ne (not_lt.mp notBefore) (Ne.symm different)
    have others : ∀ other ∈ head :: base, write.1 ≠ other.1 := by
      intro other member
      rcases mem_cons.mp member with rfl | member
      · exact ne_of_lt above
      · exact ne_of_lt (lt_trans above (later.1 other member))
    rw [mem_cons, ih baseAscends laterWrites.2]
    grind

theorem overlaySorted_ascends (baseAscends : Ascends base) (writesAscend : Ascends writes) :
    Ascends (overlaySorted deletes base writes) := by
  fun_induction overlaySorted deletes base writes with
  | case1 writes => exact writesAscend
  | case2 head base deleted ih => exact ih (pairwise_cons.mp baseAscends).2 writesAscend
  | case3 head base kept ih =>
    have later := pairwise_cons.mp baseAscends
    apply pairwise_cons.mpr
    constructor
    · intro row member
      rcases (mem_overlaySorted later.2 writesAscend).mp member with written | below
      · cases written
      · exact later.1 row below.1
    · exact ih later.2 writesAscend
  | case4 head base write writes before deleted ih =>
    exact ih (pairwise_cons.mp baseAscends).2 writesAscend
  | case5 head base write writes before kept ih =>
    have later := pairwise_cons.mp baseAscends
    have laterWrites := pairwise_cons.mp writesAscend
    apply pairwise_cons.mpr
    constructor
    · intro row member
      rcases (mem_overlaySorted later.2 writesAscend).mp member with written | below
      · rcases mem_cons.mp written with rfl | written
        · exact before
        · exact lt_trans before (laterWrites.1 row written)
      · exact later.1 row below.1
    · exact ih later.2 writesAscend
  | case6 head base write writes notBefore same ih =>
    have later := pairwise_cons.mp baseAscends
    have laterWrites := pairwise_cons.mp writesAscend
    apply pairwise_cons.mpr
    constructor
    · intro row member
      rcases (mem_overlaySorted later.2 laterWrites.2).mp member with written | below
      · exact laterWrites.1 row written
      · exact same ▸ later.1 row below.1
    · exact ih later.2 laterWrites.2
  | case7 head base write writes notBefore different ih =>
    have later := pairwise_cons.mp baseAscends
    have laterWrites := pairwise_cons.mp writesAscend
    have above : write.1 < head.1 := lt_of_le_of_ne (not_lt.mp notBefore) (Ne.symm different)
    apply pairwise_cons.mpr
    constructor
    · intro row member
      rcases (mem_overlaySorted baseAscends laterWrites.2).mp member with written | below
      · exact laterWrites.1 row written
      · rcases mem_cons.mp below.1 with rfl | below
        · exact above
        · exact lt_trans above (later.1 row below)
    · exact ih baseAscends laterWrites.2

theorem overlaySorted_eq (cf : CfPending κ ν) (map : OrderedMap κ ν) :
    overlaySorted cf.deletes map.entries cf.writes.entries = (cf.applyTo map).entries := by
  apply (overlaySorted_ascends map.ascends cf.writes.ascends).ext (cf.applyTo map).ascends
  rintro ⟨key, value⟩
  rw [mem_overlaySorted map.ascends cf.writes.ascends, ← OrderedMap.lookup_eq_some,
    ← OrderedMap.lookup_eq_some, ← OrderedMap.lookup_eq_some, lookup_applyTo, lookup]
  have unwritten : (∀ write ∈ cf.writes.entries, write.1 ≠ key) ↔ cf.writes.lookup key = none := by
    rw [Option.eq_none_iff_forall_ne_some]
    constructor
    · intro absent other found
      exact absent (key, other) (OrderedMap.lookup_eq_some.mp found) rfl
    · rintro absent ⟨other, written⟩ member rfl
      exact absent written (OrderedMap.lookup_eq_some.mpr member)
  rw [unwritten]
  cases cf.writes.lookup key with
  | some written => simp
  | none =>
    cases cf.deletes.lookup key with
    | none => simp
    | some mark => simp

end Sorted

end CfPending

def lookupLayers (layers : List (CfPending κ ν)) (key : κ) : Option (Option ν) :=
  layers.findSome? fun layer => layer.lookup key

def stack (layers : List (CfPending κ ν)) (map : OrderedMap κ ν) : OrderedMap κ ν :=
  layers.foldr (fun layer below => layer.applyTo below) map

theorem lookup_stack (layers : List (CfPending κ ν)) (map : OrderedMap κ ν) (key : κ) :
    (stack layers map).lookup key = (lookupLayers layers key).getD (map.lookup key) := by
  induction layers with
  | nil => rfl
  | cons layer layers ih =>
    have step : (stack (layer :: layers) map).lookup key =
        (layer.lookup key).getD ((stack layers map).lookup key) := CfPending.lookup_applyTo
    rw [step, ih]
    simp only [lookupLayers, List.findSome?_cons]
    cases layer.lookup key with
    | some hit => rfl
    | none => rfl

def mergeLayers (layers : List (CfPending κ ν)) (start : κ) (limit : Nat) (base : List (κ × ν)) :
    List (κ × ν) :=
  let writes := layers.map fun layer => layer.writes.range start
  mergeFrom (lookupLayers layers) (remaining (base :: writes)) limit writes base

section Merge

variable {layers : List (CfPending κ ν)} {base : OrderedMap κ ν} {start : κ} {limit : Nat}

theorem lookupLayers_eq_some_some {value : ν}
    (found : lookupLayers layers key = some (some value)) :
    ∃ layer ∈ layers, layer.writes.lookup key = some value := by
  obtain ⟨layer, member, looked⟩ := exists_of_findSome?_eq_some found
  exact ⟨layer, member, CfPending.lookup_eq_some_some looked⟩

theorem mergeLayers_eq (above : ∀ row ∈ base.entries, start ≤ row.1) :
    mergeLayers layers start limit base.entries = ((stack layers base).range start).take limit := by
  have ascend : ∀ range ∈ base.entries :: layers.map (fun layer => layer.writes.range start),
      Ascends range := by
    intro range member
    rcases mem_cons.mp member with rfl | member
    · exact base.ascends
    · obtain ⟨layer, _, rfl⟩ := mem_map.mp member
      exact OrderedMap.range_ascends
  rw [mergeLayers, mergeFrom_eq_take]
  congr 1
  apply (mergeAll_ascends ascend (le_refl _)).ext OrderedMap.range_ascends
  intro row
  have value : live (lookupLayers layers) base.entries row.1 = (stack layers base).lookup row.1 := by
    rw [lookup_stack, live]
    cases lookupLayers layers row.1 with
    | some hit => rfl
    | none => rfl
  rw [mem_mergeAll ascend (le_refl _), OrderedMap.mem_range, value]
  constructor
  · rintro ⟨⟨range, member, other, inside, same⟩, found⟩
    refine ⟨?_, found⟩
    rw [← same]
    rcases mem_cons.mp member with rfl | member
    · exact above other inside
    · obtain ⟨layer, _, rfl⟩ := mem_map.mp member
      exact (OrderedMap.mem_range.mp inside).1
  · rintro ⟨from', found⟩
    refine ⟨?_, found⟩
    rw [lookup_stack] at found
    cases hit : lookupLayers layers row.1 with
    | none =>
      rw [hit] at found
      exact ⟨_, mem_cons_self, row, OrderedMap.lookup_eq_some.mp found, rfl⟩
    | some value =>
      rw [hit] at found
      simp only [Option.getD_some] at found
      obtain ⟨layer, member, written⟩ := lookupLayers_eq_some_some (found ▸ hit)
      exact ⟨_, mem_cons_of_mem _ (mem_map_of_mem member), row,
        OrderedMap.mem_range.mpr ⟨from', written⟩, rfl⟩

theorem mergeLayers_range {map : OrderedMap κ ν} :
    mergeLayers layers start limit (map.range start) =
      ((stack layers map).range start).take limit := by
  let base : OrderedMap κ ν := { entries := map.range start, ascends := map.range_ascends }
  have merged : mergeLayers layers start limit (map.range start) =
      ((stack layers base).range start).take limit :=
    @mergeLayers_eq _ _ _ layers base start limit fun row member =>
      (OrderedMap.mem_range.mp member).1
  rw [merged]
  congr 1
  apply OrderedMap.range_ext
  intro key above
  have same : base.lookup key = map.lookup key := by
    have selected : base = map.select fun key => start ≤ key := rfl
    rw [selected, OrderedMap.lookup_select, decide_eq_true above, if_pos rfl]
  rw [lookup_stack, lookup_stack, same]

end Merge

end State

end TorusHyperBft
