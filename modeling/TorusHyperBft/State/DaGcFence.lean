import TorusHyperBft.State.Checkpoint

namespace TorusHyperBft.State

open List OrderedMap

/-! The fence between a pass that deletes bodies and the threads that rely on them. -/

abbrev Fingerprint := U64

abbrev Height := U64

abbrev HeightEntry := Height ×ₗ Fingerprint

def daGcFenceHeightWindow : U64 := 1024

/-- What the mutex guards.  `deleting` lists the members of a hash set. -/
structure FenceInner where
  pins : OrderedMap Fingerprint Height := .empty
  byHeight : OrderedMap HeightEntry Unit := .empty
  deleting : List Fingerprint := []
  overflowThrough : Option Height := none
  passed : Option Height := none

namespace FenceInner

def pinned (inner : FenceInner) : Nat := inner.pins.entries.length

def evictPassed (inner : FenceInner) : FenceInner × Bool :=
  match inner.byHeight.entries.head?, inner.passed with
  | some (entry, _), some passed =>
    if (ofLex entry).1 ≤ passed then
      ({ inner with
          byHeight := inner.byHeight.erase entry
          pins := inner.pins.erase (ofLex entry).2 }, true)
    else (inner, false)
  | _, _ => (inner, false)

def setPin (inner : FenceInner) (height : Height) (fp : Fingerprint) : FenceInner :=
  match inner.pins.lookup fp with
  | some at' =>
    if at' < height then
      { inner with
        byHeight := (inner.byHeight.erase (toLex (at', fp))).insert (toLex (height, fp)) ()
        pins := inner.pins.insert fp height }
    else inner
  | none =>
    { inner with
      pins := inner.pins.insert fp height
      byHeight := inner.byHeight.insert (toLex (height, fp)) () }

def pinOne (max : Nat) (height : Height) (inner : FenceInner) (fp : Fingerprint) : FenceInner × Bool :=
  if max ≤ inner.pinned && (inner.pins.lookup fp).isNone then
    let (evicted, room) := inner.evictPassed
    if room && decide (evicted.pinned < max) then (evicted.setPin height fp, false)
    else (evicted, true)
  else (inner.setPin height fp, false)

/-- The fingerprints of a pin one after the other, and whether one was refused. -/
def pinAll (max : Nat) (height : Height) (inner : FenceInner) : List Fingerprint → FenceInner × Bool
  | [] => (inner, false)
  | fp :: fps =>
    let (next, refused) := inner.pinOne max height fp
    let (final, others) := next.pinAll max height fps
    (final, refused || others)

def holdThrough (inner : FenceInner) (height : Height) (refused : Bool) : FenceInner :=
  if refused then
    { inner with overflowThrough := some (max ((inner.overflowThrough).getD height) height) }
  else inner

/-- What a pass may delete while nothing holds it: each body that is not pinned is marked. -/
def markAll {Hash : Type} (fingerprint : Hash → Fingerprint) (inner : FenceInner) :
    List (Hash × Nat) → FenceInner × List (Hash × Nat)
  | [] => (inner, [])
  | body :: bodies =>
    if (inner.pins.lookup (fingerprint body.1)).isSome then inner.markAll fingerprint bodies
    else
      let marked := { inner with deleting := fingerprint body.1 :: inner.deleting }
      let (final, kept) := marked.markAll fingerprint bodies
      (final, body :: kept)

/-- The deletes a pass may write, marked; none while a refused pin holds the passes. -/
def beginDelete {Hash : Type} (fingerprint : Hash → Fingerprint) (inner : FenceInner)
    (bodies : List (Hash × Nat)) : FenceInner × List (Hash × Nat) :=
  if bodies.isEmpty then (inner, [])
  else inner.markAll fingerprint (if inner.overflowThrough.isSome then [] else bodies)

def endDelete (inner : FenceInner) : FenceInner := { inner with deleting := [] }

/-- The first lock hold of a release notes the height and ends a hold it reaches. -/
def passThrough (inner : FenceInner) (height : Height) : FenceInner :=
  { inner with
    passed := some (match inner.passed with
      | some passed => max passed height
      | none => height)
    overflowThrough := match inner.overflowThrough with
      | some through => if through ≤ height then none else some through
      | none => none }

/-- The first entry a lock hold keeps: above the height, or the one after a full chunk. -/
def cut (chunk : Nat) (height : Height) (entries : List (HeightEntry × Unit)) : Option HeightEntry :=
  let stops : (HeightEntry × Unit) × Nat → Bool := fun row =>
    row.2 = chunk || decide (height < (ofLex row.1.1).1)
  ((entries.take (chunk + 1)).zipIdx.find? stops).map fun row => row.1.1

def detached (keep : Option HeightEntry) (index : OrderedMap HeightEntry Unit) : List HeightEntry :=
  let keys := index.entries.map Prod.fst
  match keep with
  | some entry => keys.filter fun key => key < entry
  | none => keys

def keptFrom (keep : Option HeightEntry) (index : OrderedMap HeightEntry Unit) :
    OrderedMap HeightEntry Unit :=
  match keep with
  | some entry => index.select fun key => decide (entry ≤ key)
  | none => {}

/-- One lock hold of a release drops at most a chunk of pins, and tells whether more are due. -/
def releaseChunk (chunk : Nat) (height : Height) (inner : FenceInner) : FenceInner × Bool :=
  let keep := cut chunk height inner.byHeight.entries
  let released := detached keep inner.byHeight
  ({ inner with
      byHeight := keptFrom keep inner.byHeight
      pins := released.foldl (fun pins entry => pins.erase (ofLex entry).2) inner.pins },
    keep.any fun entry => decide ((ofLex entry).1 ≤ height))

/-- The two indexes of the pins say the same. -/
def Agree (inner : FenceInner) : Prop :=
  ∀ fp height, inner.pins.lookup fp = some height ↔
    inner.byHeight.lookup (toLex (height, fp)) = some ()

section Size

variable {κ ν : Type} [LinearOrder κ] {map : OrderedMap κ ν} {key : κ} {value : ν}

theorem total_one (map : OrderedMap κ ν) : map.total (fun _ _ => 1) = map.entries.length := by
  simp [OrderedMap.total]

theorem length_insert_le : (map.insert key value).entries.length ≤ map.entries.length + 1 := by
  have counted := @total_insert κ ν _ map (fun _ _ => 1) key value
  rw [total_one, total_one] at counted
  omega

theorem length_insert_of_lookup {found : ν} (present : map.lookup key = some found) :
    (map.insert key value).entries.length = map.entries.length := by
  have counted := @total_insert κ ν _ map (fun _ _ => 1) key value
  rw [total_one, total_one, OrderedMap.weightAt, present] at counted
  simpa using counted

theorem length_erase_le : (map.erase key).entries.length ≤ map.entries.length :=
  length_filter_le _ _

end Size

section Pin

variable {inner : FenceInner} {height : Height} {fp : Fingerprint}

theorem evictPassed_cases (agree : inner.Agree) :
    inner.evictPassed = (inner, false) ∨ ∃ at' fp passed, inner.pins.lookup fp = some at' ∧
      inner.passed = some passed ∧ at' ≤ passed ∧ inner.evictPassed =
        ({ inner with
            byHeight := inner.byHeight.erase (toLex (at', fp))
            pins := inner.pins.erase fp }, true) := by
  unfold evictPassed
  split
  · rename_i entry present passed head isPassed
    split
    · rename_i below
      right
      have member : (entry, present) ∈ inner.byHeight.entries := mem_of_mem_head? head
      have indexed : inner.byHeight.lookup (toLex ((ofLex entry).1, (ofLex entry).2)) = some () :=
        lookup_eq_some.mpr member
      exact ⟨_, _, passed, (agree _ _).mpr indexed, isPassed, below, rfl⟩
    · exact Or.inl rfl
  · exact Or.inl rfl

theorem Agree.erase (agree : inner.Agree) {at' : Height}
    (present : inner.pins.lookup fp = some at') :
    Agree { inner with
      byHeight := inner.byHeight.erase (toLex (at', fp))
      pins := inner.pins.erase fp } := by
  intro other otherHeight
  rw [lookup_erase, lookup_erase]
  by_cases same : other = fp
  · subst same
    rw [if_pos rfl]
    by_cases sameHeight : otherHeight = at'
    · rw [sameHeight, if_pos rfl]
      simp
    · have different : toLex (otherHeight, other) ≠ toLex (at', other) := by
        simp [sameHeight]
      rw [if_neg different, ← agree, present]
      simp [Ne.symm sameHeight]
  · have different : toLex (otherHeight, other) ≠ toLex (at', fp) := by
      simp [same]
    rw [if_neg same, if_neg different]
    exact agree other otherHeight

theorem Agree.insert (agree : inner.Agree) (absent : inner.pins.lookup fp = none) :
    Agree { inner with
      pins := inner.pins.insert fp height
      byHeight := inner.byHeight.insert (toLex (height, fp)) () } := by
  intro other otherHeight
  rw [lookup_insert, lookup_insert]
  by_cases same : other = fp
  · subst same
    rw [if_pos rfl]
    by_cases sameHeight : otherHeight = height
    · simp [sameHeight]
    · have different : toLex (otherHeight, other) ≠ toLex (height, other) := by
        simp [sameHeight]
      rw [if_neg different, ← agree, absent]
      simp [Ne.symm sameHeight]
  · have different : toLex (otherHeight, other) ≠ toLex (height, fp) := by
      simp [same]
    rw [if_neg same, if_neg different]
    exact agree other otherHeight

theorem lookup_setPin (other : Fingerprint) : (inner.setPin height fp).pins.lookup other =
    if other = fp then some ((inner.pins.lookup fp).elim height fun at' => max at' height)
    else inner.pins.lookup other := by
  unfold setPin
  cases found : inner.pins.lookup fp with
  | none => simp [lookup_insert]
  | some at' =>
    by_cases below : at' < height
    · simp [below, lookup_insert, max_eq_right below.le]
    · by_cases same : other = fp
      · simp [below, same, found, max_eq_left (not_lt.mp below)]
      · simp [below, same]

theorem Agree.setPin (agree : inner.Agree) : (inner.setPin height fp).Agree := by
  unfold FenceInner.setPin
  cases found : inner.pins.lookup fp with
  | none => exact agree.insert found
  | some at' =>
    by_cases below : at' < height
    · -- a superseded entry is the erased one, put in again at its new height
      have erased := agree.erase found
      have absent : (inner.pins.erase fp).lookup fp = none := by
        rw [lookup_erase, if_pos rfl]
      have moved := @Agree.insert _ height fp erased absent
      have same : (inner.pins.erase fp).insert fp height = inner.pins.insert fp height := by
        apply ext_lookup
        intro other
        rw [lookup_insert, lookup_insert, lookup_erase]
        split <;> rfl
      simp only [same] at moved
      simpa [below] using moved
    · simpa [below] using agree

theorem pinned_setPin : (inner.setPin height fp).pinned ≤
    if (inner.pins.lookup fp).isNone then inner.pinned + 1 else inner.pinned := by
  unfold setPin pinned
  cases found : inner.pins.lookup fp with
  | none => simpa using length_insert_le
  | some at' =>
    by_cases below : at' < height
    · simp [below, length_insert_of_lookup found]
    · simp [below]

theorem setPin_frame : (inner.setPin height fp).passed = inner.passed ∧
    (inner.setPin height fp).overflowThrough = inner.overflowThrough ∧
    (inner.setPin height fp).deleting = inner.deleting := by
  unfold setPin
  split
  · split <;> exact ⟨rfl, rfl, rfl⟩
  · exact ⟨rfl, rfl, rfl⟩

end Pin

section PinOne

variable {inner next : FenceInner} {height : Height} {fp : Fingerprint} {most : Nat} {refused : Bool}

/-- What pinning one fingerprint does under the lock. -/
structure PinsOne (most : Nat) (height : Height) (inner : FenceInner) (fp : Fingerprint)
    (next : FenceInner) (refused : Bool) : Prop where
  agree : next.Agree
  passed : next.passed = inner.passed
  overflow : next.overflowThrough = inner.overflowThrough
  deleting : next.deleting = inner.deleting
  capped : inner.pinned ≤ most → next.pinned ≤ most
  own : next.pins.lookup fp = if refused then none
    else some ((inner.pins.lookup fp).elim height fun at' => max at' height)
  absent : refused = true → inner.pins.lookup fp = none
  others : ∀ other, other ≠ fp → next.pins.lookup other = inner.pins.lookup other ∨
    (next.pins.lookup other = none ∧ ∃ at' passed, inner.pins.lookup other = some at' ∧
      inner.passed = some passed ∧ at' ≤ passed)

theorem pinsOne_setPin (agree : inner.Agree)
    (room : inner.pinned < most ∨ (inner.pins.lookup fp).isSome) :
    PinsOne most height inner fp (inner.setPin height fp) false where
  agree := agree.setPin
  passed := setPin_frame.1
  overflow := setPin_frame.2.1
  deleting := setPin_frame.2.2
  capped within := by
    have bound := @pinned_setPin inner height fp
    rcases room with below | present
    · split at bound <;> omega
    · rw [Option.isSome_iff_exists] at present
      obtain ⟨at', found⟩ := present
      simp only [found, Option.isNone_some, Bool.false_eq_true, if_false] at bound
      omega
  own := by simp [lookup_setPin]
  absent refusal := nomatch refusal
  others other different := by
    left
    rw [lookup_setPin, if_neg different]

theorem pinOne_pinsOne (agree : inner.Agree) :
    PinsOne most height inner fp (inner.pinOne most height fp).1 (inner.pinOne most height fp).2 := by
  unfold pinOne
  split
  · rename_i full
    rw [Bool.and_eq_true, decide_eq_true_eq, Option.isNone_iff_eq_none] at full
    rcases evictPassed_cases agree with same | ⟨at', victim, passed, held, isPassed, below, evicted⟩
    · rw [same]
      simp only [Bool.false_and, Bool.false_eq_true, if_false]
      exact ⟨agree, rfl, rfl, rfl, id, by simp [full.2], fun _ => full.2, fun _ _ => .inl rfl⟩
    · rw [evicted]
      have different : fp ≠ victim := by
        rintro rfl
        rw [full.2] at held
        cases held
      have erased : (inner.pins.erase victim).lookup fp = none := by
        rw [lookup_erase, if_neg different, full.2]
      have dropped : ∀ other, (inner.pins.erase victim).lookup other = inner.pins.lookup other ∨
          ((inner.pins.erase victim).lookup other = none ∧ ∃ at' passed,
            inner.pins.lookup other = some at' ∧ inner.passed = some passed ∧ at' ≤ passed) := by
        intro other
        by_cases same : other = victim
        · subst same
          refine .inr ⟨?_, at', passed, held, isPassed, below⟩
          rw [lookup_erase, if_pos rfl]
        · left
          rw [lookup_erase, if_neg same]
      simp only [Bool.true_and, decide_eq_true_eq]
      split
      · rename_i room
        have set := @pinsOne_setPin _ height fp most (agree.erase held) (.inl room)
        refine ⟨set.agree, set.passed, set.overflow, set.deleting, fun _ => set.capped room.le, ?_,
          fun _ => full.2, ?_⟩
        · rw [set.own]
          simp only [erased, full.2]
        · intro other apart
          rw [lookup_setPin, if_neg apart]
          exact dropped other
      · refine ⟨agree.erase held, rfl, rfl, rfl, fun within => ?_, ?_, fun _ => full.2,
          fun other _ => dropped other⟩
        · exact length_erase_le.trans within
        · rw [if_pos rfl]
          exact erased
  · rename_i free
    apply pinsOne_setPin agree
    rw [Bool.and_eq_true, not_and_or, decide_eq_true_eq, not_le, Bool.not_eq_true,
      Option.isNone_eq_false_iff] at free
    exact free

end PinOne

section Release

variable {inner : FenceInner} {height : Height} {chunk : Nat}

theorem height_le_of_uncut {entries : List (HeightEntry × Unit)}
    (uncut : cut chunk height entries = none) : ∀ row ∈ entries, (ofLex row.1).1 ≤ height := by
  rw [cut, Option.map_eq_none_iff, List.find?_eq_none] at uncut
  have short : entries.length ≤ chunk := by
    by_contra long
    have within : chunk < (entries.take (chunk + 1)).length := by
      rw [length_take]
      omega
    have stops := uncut ((entries.take (chunk + 1))[chunk], chunk) (by
      rw [mem_zipIdx_iff_getElem?]
      exact List.getElem?_eq_getElem within)
    simp at stops
  have whole : entries.take (chunk + 1) = entries := take_of_length_le (by omega)
  rw [whole] at uncut
  intro row member
  obtain ⟨index, within, rfl⟩ := mem_iff_getElem.mp member
  have passes := uncut (entries[index], index) (by
    rw [mem_zipIdx_iff_getElem?]
    exact List.getElem?_eq_getElem within)
  simp only [Bool.or_eq_true, decide_eq_true_eq, not_or, not_lt] at passes
  exact passes.2

theorem height_le_of_cut {entries : List (HeightEntry × Unit)} (ascends : Ascends entries)
    {keep : HeightEntry} (isCut : cut chunk height entries = some keep) :
    ∀ row ∈ entries, row.1 < keep → (ofLex row.1).1 ≤ height := by
  rw [cut, Option.map_eq_some_iff] at isCut
  obtain ⟨found, isFound, rfl⟩ := isCut
  obtain ⟨-, earlier, later, split, pass⟩ := List.find?_eq_some_iff_append.mp isFound
  have parts : entries.take (chunk + 1) =
      earlier.map Prod.fst ++ found.1 :: later.map Prod.fst := by
    have mapped := congrArg (List.map Prod.fst) split
    rwa [map_append, map_cons, zipIdx_map_fst] at mapped
  intro row member below
  have order : Ascends (earlier.map Prod.fst ++ found.1 :: (later.map Prod.fst ++
      entries.drop (chunk + 1))) := by
    have whole := take_append_drop (chunk + 1) entries
    rw [parts, append_assoc, cons_append] at whole
    rwa [whole]
  have placed : row ∈ earlier.map Prod.fst ++ found.1 :: (later.map Prod.fst ++
      entries.drop (chunk + 1)) := by
    rw [← take_append_drop (chunk + 1) entries, parts] at member
    simpa using member
  have before : row ∈ earlier.map Prod.fst := by
    rcases mem_append.mp placed with before | after
    · exact before
    · have rest := (pairwise_append.mp order).2.1
      rcases mem_cons.mp after with same | after
      · rw [same] at below
        exact absurd below (lt_irrefl _)
      · exact absurd below (lt_asymm ((pairwise_cons.mp rest).1 row after))
  obtain ⟨indexed, isEarlier, rfl⟩ := mem_map.mp before
  have passes := pass indexed isEarlier
  simp only [Bool.not_eq_true', Bool.or_eq_false_iff, decide_eq_false_iff_not, not_lt] at passes
  exact passes.2

theorem height_le_of_detached {entry : HeightEntry}
    (isDetached : entry ∈ detached (cut chunk height inner.byHeight.entries) inner.byHeight) :
    (ofLex entry).1 ≤ height := by
  unfold detached at isDetached
  cases isCut : cut chunk height inner.byHeight.entries with
  | none =>
    rw [isCut] at isDetached
    obtain ⟨row, member, rfl⟩ := mem_map.mp isDetached
    exact height_le_of_uncut isCut row member
  | some keep =>
    rw [isCut] at isDetached
    obtain ⟨isKey, below⟩ := mem_filter.mp isDetached
    obtain ⟨row, member, rfl⟩ := mem_map.mp isKey
    exact height_le_of_cut inner.byHeight.ascends isCut row member (of_decide_eq_true below)

theorem lookup_keptFrom (keep : Option HeightEntry) (entry : HeightEntry) :
    (keptFrom keep inner.byHeight).lookup entry = some () ↔
      inner.byHeight.lookup entry = some () ∧ entry ∉ detached keep inner.byHeight := by
  cases keep with
  | none =>
    have none' : ({} : OrderedMap HeightEntry Unit).lookup entry = none := rfl
    simp only [keptFrom, none', reduceCtorEq, false_iff, not_and, not_not]
    intro indexed
    exact mem_map.mpr ⟨_, lookup_eq_some.mp indexed, rfl⟩
  | some keep =>
    simp only [keptFrom, lookup_select, decide_eq_true_eq]
    by_cases kept : keep ≤ entry
    · simp only [kept, if_true, iff_self_and]
      intro _ isDetached
      have below := of_decide_eq_true (mem_filter.mp isDetached).2
      exact absurd below (not_lt.mpr kept)
    · simp only [kept, if_false, reduceCtorEq, false_iff, not_and, not_not]
      intro indexed
      apply mem_filter.mpr
      exact ⟨mem_map.mpr ⟨_, lookup_eq_some.mp indexed, rfl⟩,
        decide_eq_true (not_le.mp kept)⟩

theorem lookup_foldl_erase_keys {κ ν α : Type} [LinearOrder κ] (place : α → κ) (dropped : List α)
    (map : OrderedMap κ ν) (key : κ) :
    (dropped.foldl (fun map item => map.erase (place item)) map).lookup key =
      if key ∈ dropped.map place then none else map.lookup key := by
  induction dropped generalizing map with
  | nil => simp
  | cons item dropped ih =>
    rw [foldl_cons, ih, lookup_erase, map_cons]
    by_cases here : key = place item
    · simp [here]
    · by_cases later : key ∈ dropped.map place
      · rw [if_pos later, if_pos (mem_cons_of_mem _ later)]
      · have apart : key ∉ place item :: dropped.map place := by
          rw [mem_cons, not_or]
          exact ⟨here, later⟩
        rw [if_neg later, if_neg here, if_neg apart]

/-- Only pins up to the height go, and nothing else changes. -/
structure Releases (height : Height) (inner next : FenceInner) : Prop where
  agree : next.Agree
  passed : next.passed = inner.passed
  overflow : next.overflowThrough = inner.overflowThrough
  deleting : next.deleting = inner.deleting
  capped : next.pinned ≤ inner.pinned
  pins : ∀ fp, next.pins.lookup fp = inner.pins.lookup fp ∨
    (next.pins.lookup fp = none ∧ ∃ at', inner.pins.lookup fp = some at' ∧ at' ≤ height)

theorem length_foldl_erase_le {κ ν α : Type} [LinearOrder κ] (place : α → κ) (dropped : List α)
    (map : OrderedMap κ ν) :
    (dropped.foldl (fun map item => map.erase (place item)) map).entries.length ≤
      map.entries.length := by
  induction dropped generalizing map with
  | nil => exact le_rfl
  | cons item dropped ih => exact (ih _).trans length_erase_le

theorem releaseChunk_releases (agree : inner.Agree) :
    Releases height inner (inner.releaseChunk chunk height).1 := by
  have lookup := fun fp => lookup_foldl_erase_keys (fun entry : HeightEntry => (ofLex entry).2)
    (detached (cut chunk height inner.byHeight.entries) inner.byHeight) inner.pins fp
  -- a detached entry is the entry of its pin, so only that pin goes
  have held : ∀ entry ∈ detached (cut chunk height inner.byHeight.entries) inner.byHeight,
      inner.pins.lookup (ofLex entry).2 = some (ofLex entry).1 := by
    intro entry isDetached
    have isKey : entry ∈ inner.byHeight.entries.map Prod.fst := by
      unfold detached at isDetached
      split at isDetached
      · exact (mem_filter.mp isDetached).1
      · exact isDetached
    obtain ⟨row, member, rfl⟩ := mem_map.mp isKey
    exact (agree _ _).mpr (lookup_eq_some.mpr member)
  refine ⟨?_, rfl, rfl, rfl, length_foldl_erase_le _ _ _, ?_⟩
  · intro fp at'
    rw [releaseChunk, lookup, lookup_keptFrom, ← agree]
    by_cases dropped : fp ∈ (detached (cut chunk height inner.byHeight.entries) inner.byHeight).map
        fun entry => (ofLex entry).2
    · rw [if_pos dropped]
      simp only [reduceCtorEq, false_iff, not_and, not_not]
      intro present
      obtain ⟨entry, isDetached, rfl⟩ := mem_map.mp dropped
      rw [held entry isDetached] at present
      cases present
      exact isDetached
    · rw [if_neg dropped, iff_self_and]
      intro _ isDetached
      exact dropped (mem_map.mpr ⟨_, isDetached, rfl⟩)
  · intro fp
    rw [releaseChunk, lookup]
    by_cases dropped : fp ∈ (detached (cut chunk height inner.byHeight.entries) inner.byHeight).map
        fun entry => (ofLex entry).2
    · rw [if_pos dropped]
      obtain ⟨entry, isDetached, rfl⟩ := mem_map.mp dropped
      exact .inr ⟨rfl, _, held entry isDetached, height_le_of_detached isDetached⟩
    · rw [if_neg dropped]
      exact .inl rfl

end Release

end FenceInner

end TorusHyperBft.State
