import TorusHyperBft.OrderBook.Withdraw

namespace TorusHyperBft.OrderBook

open List Ladder

/-! Every way of cancelling a trader's orders takes exactly these off the book. -/

section Group

variable {keyed : List (LevelKey × Target)}

theorem groupLevels_flatten : (groupLevels keyed).flatMap
    (fun group => group.2.map fun target => (group.1, target)) = keyed := by
  induction keyed with
  | nil => rfl
  | cons entry rest ih =>
    obtain ⟨key, target⟩ := entry
    unfold groupLevels
    split
    · rename_i nothing
      rw [nothing] at ih
      rw [← ih]
      rfl
    · rename_i other targets groups found
      rw [found] at ih
      split
      · rename_i same
        subst same
        rw [← ih]
        rfl
      · rw [← ih]
        rfl

/-- By side, then by price. -/
def LevelKey.before (left right : LevelKey) : Prop :=
  sideTag left.side < sideTag right.side ∨ left.side = right.side ∧ left.price < right.price

theorem LevelKey.before_of_ne {left right : LevelKey × Target} (le : keyedLe left right = true)
    (different : left.1 ≠ right.1) : left.1.before right.1 := by
  obtain ⟨⟨leftSide, leftPrice⟩, leftTarget⟩ := left
  obtain ⟨⟨rightSide, rightPrice⟩, rightTarget⟩ := right
  by_cases same : leftPrice = rightPrice
  · subst same
    cases leftSide <;> cases rightSide <;> simp_all [keyedLe, LevelKey.before, sideTag]
  · cases leftSide <;> cases rightSide <;> simp_all [keyedLe, LevelKey.before, sideTag]

theorem LevelKey.before.ne {left right : LevelKey} (before : left.before right) : left ≠ right := by
  rintro rfl
  rcases before with less | ⟨_, less⟩ <;> omega

theorem LevelKey.before.trans {first second third : LevelKey} (left : first.before second)
    (right : second.before third) : first.before third := by
  unfold LevelKey.before at *
  rcases left with less | ⟨same, less⟩ <;> rcases right with less' | ⟨same', less'⟩
  · exact Or.inl (by omega)
  · exact Or.inl (same' ▸ less)
  · exact Or.inl (same ▸ less')
  · exact Or.inr ⟨same.trans same', by omega⟩

theorem groupLevels_nonempty {group : LevelKey × List Target} (member : group ∈ groupLevels keyed) :
    group.2 ≠ [] := by
  induction keyed generalizing group with
  | nil => exact absurd member not_mem_nil
  | cons entry rest ih =>
    unfold groupLevels at member
    split at member
    · rw [mem_singleton.mp member]
      exact cons_ne_nil _ _
    · rename_i found
      split at member
      · rcases mem_cons.mp member with rfl | member
        · exact cons_ne_nil _ _
        · exact ih (found ▸ mem_cons_of_mem _ member)
      · rcases mem_cons.mp member with rfl | member
        · exact cons_ne_nil _ _
        · exact ih (found ▸ member)

theorem groupLevels_before (sorted : keyed.Pairwise fun left right => keyedLe left right = true) :
    ((groupLevels keyed).map Prod.fst).Pairwise LevelKey.before := by
  induction keyed with
  | nil => exact List.Pairwise.nil
  | cons entry rest ih =>
    obtain ⟨key, target⟩ := entry
    obtain ⟨least, sortedRest⟩ := pairwise_cons.mp sorted
    have before := ih sortedRest
    have flatten := @groupLevels_flatten rest
    unfold groupLevels
    split
    · exact pairwise_singleton _ _
    · rename_i other targets groups found
      rw [found] at before flatten
      split
      · rename_i same
        subst same
        exact before
      · rename_i different
        obtain ⟨first, inTargets⟩ := exists_mem_of_ne_nil targets
          (groupLevels_nonempty (found ▸ mem_cons_self))
        have inRest : (other, first) ∈ rest := by
          rw [← flatten]
          exact mem_flatMap.mpr ⟨(other, targets), mem_cons_self,
            mem_map_of_mem inTargets⟩
        have ahead := LevelKey.before_of_ne (least _ inRest) different
        rw [map_cons] at before ⊢
        refine pairwise_cons.mpr ⟨fun later member => ?_, before⟩
        rcases mem_cons.mp member with rfl | member
        · exact ahead
        · exact ahead.trans ((pairwise_cons.mp before).1 later member)

theorem groupLevels_ordered (sorted : keyed.Pairwise fun left right => keyedLe left right = true)
    {group : LevelKey × List Target} (member : group ∈ groupLevels keyed) :
    group.2.Pairwise fun first second => first.position ≤ second.position := by
  have part : (group.2.map fun target => (group.1, target)).Sublist keyed := by
    conv_rhs => rw [← @groupLevels_flatten keyed]
    exact sublist_flatten_of_mem (mem_map.mpr ⟨group, member, rfl⟩)
  have ordered := sorted.sublist part
  rw [pairwise_map] at ordered
  exact ordered.imp fun le => by simpa [keyedLe] using le

end Group

namespace Book

/-- What the plans rely on: two ladders in order and no id twice. -/
structure Stacked (book : Book) : Prop where
  ladders : ∀ side, LadderWf side book.indexes.orderSeq (book.ladder side)
  nodup : (book.resting.map Order.id).Nodup

theorem Valid.stacked {book : Book} (valid : book.Valid) : book.Stacked :=
  ⟨valid.ladders, valid.nodup⟩

variable {levels : List (LevelKey × List Target)} {epochFits : LevelKey → Nat → Bool}

section Plan

variable {book : Book} {ids : List Nat}

/-- The target is this order. -/
def Stands (book : Book) (entry : LevelKey × Target) (order : Order) : Prop :=
  ∃ queue, (book.ladder entry.1.side).get entry.1.price = some queue ∧
    queue[entry.2.position]? = some order

theorem planTarget_stands {output id : Nat} {entry : LevelKey × Target}
    (planned : book.planTarget output id = some entry) :
    entry.2.output = output ∧ ∃ order, book.Stands entry order ∧ order.id = id := by
  unfold planTarget at planned
  simp only [Option.bind_eq_bind, Option.bind_eq_some_iff] at planned
  obtain ⟨location, _, queue, level, seq, _, order, located, chosen⟩ := planned
  split at chosen
  · rename_i same
    cases chosen
    exact ⟨rfl, order, ⟨queue, level, located⟩, same⟩
  · contradiction

theorem planTargets_stand {output : Nat} {keyed : List (LevelKey × Target)}
    (planned : book.planTargets output ids = some keyed) :
    keyed.map (fun entry => entry.2.output) = List.range' output ids.length ∧
      ∀ entry ∈ keyed, ∃ index order, entry.2.output = output + index ∧
        book.Stands entry order ∧ ids[index]? = some order.id := by
  induction ids generalizing output keyed with
  | nil =>
    cases planned
    exact ⟨rfl, fun entry member => absurd member not_mem_nil⟩
  | cons id ids ih =>
    unfold planTargets at planned
    simp only [Option.bind_eq_bind, Option.bind_eq_some_iff] at planned
    obtain ⟨first, found, others, foundOthers, same⟩ := planned
    cases same
    obtain ⟨sameOutput, order, stands, sameId⟩ := planTarget_stands found
    obtain ⟨outputs, each⟩ := ih foundOthers
    refine ⟨?_, fun entry member => ?_⟩
    · rw [map_cons, outputs, sameOutput, length_cons, List.range'_succ]
    · rcases mem_cons.mp member with rfl | member
      · exact ⟨0, order, sameOutput, stands, by rw [List.getElem?_cons_zero, sameId]⟩
      · obtain ⟨index, order, output, stands, named⟩ := each entry member
        exact ⟨index + 1, order, by omega, stands, by rw [List.getElem?_cons_succ]; exact named⟩

/-- The plan of all levels: every id is a target once, under its own slot. -/
structure Planned (book : Book) (ids : List Nat) (levels : List (LevelKey × List Target)) : Prop where
  nodup : ids.Nodup
  nonempty : ∀ level ∈ levels, level.2 ≠ []
  apart : (levels.map Prod.fst).Pairwise LevelKey.before
  ordered : ∀ level ∈ levels, level.2.Pairwise fun first second => first.position ≤ second.position
  outputs : (levels.flatMap fun level => level.2.map Target.output).Perm (List.range ids.length)
  stands : ∀ level ∈ levels, ∀ target ∈ level.2, ∃ order, book.Stands (level.1, target) order ∧
    ids[target.output]? = some order.id

theorem keyedLe_total (left right : LevelKey × Target) :
    (keyedLe left right || keyedLe right left) = true := by
  unfold keyedLe
  grind

theorem keyedLe_trans (first second third : LevelKey × Target) (left : keyedLe first second = true)
    (right : keyedLe second third = true) : keyedLe first third = true := by
  unfold keyedLe at *
  grind

theorem planLevels_planned (planned : book.planLevels epochFits ids = some levels) :
    Planned book ids levels := by
  unfold planLevels at planned
  simp only [Option.bind_eq_bind, Option.bind_eq_some_iff] at planned
  obtain ⟨keyed, found, chosen⟩ := planned
  split at chosen
  · rename_i fits
    cases chosen
    obtain ⟨outputs, stand⟩ := planTargets_stand found
    have sorted := pairwise_mergeSort keyedLe_trans keyedLe_total keyed
    have perm := mergeSort_perm keyed keyedLe
    have flatten := @groupLevels_flatten (keyed.mergeSort keyedLe)
    refine ⟨fits.1, fun level member => groupLevels_nonempty member, groupLevels_before sorted,
      fun level member => groupLevels_ordered sorted member,
      ?_, fun level member target inTargets => ?_⟩
    · have same : ((groupLevels (keyed.mergeSort keyedLe)).flatMap fun level =>
          level.2.map Target.output) = (keyed.mergeSort keyedLe).map fun entry => entry.2.output := by
        conv_rhs => rw [← flatten]
        rw [map_flatMap]
        simp only [map_map]
        rfl
      rw [same, List.range_eq_range', ← outputs]
      exact perm.map _
    · have inKeyed : (level.1, target) ∈ keyed := by
        rw [← perm.mem_iff, ← flatten]
        exact mem_flatMap.mpr ⟨level, member, mem_map_of_mem inTargets⟩
      obtain ⟨index, order, output, stands, named⟩ := stand _ inKeyed
      rw [Nat.zero_add] at output
      exact ⟨order, stands, output ▸ named⟩
  · contradiction

end Plan

section Remove

variable {base book : Book} {ids done : List Nat} {levels : List (LevelKey × List Target)}
  {level : LevelKey × List Target}

def wanted (book : Book) (ids : List Nat) (output : Nat) : Option Order :=
  (ids[output]?).bind fun id => book.resting.find? fun order => decide (order.id = id)

theorem Stacked.find {order : Order} (stacked : base.Stacked) (member : order ∈ base.resting) :
    base.resting.find? (fun other => decide (other.id = order.id)) = some order := by
  cases found : base.resting.find? fun other => decide (other.id = order.id) with
  | none =>
    have := List.find?_eq_none.mp found order member
    simp at this
  | some other =>
    have same := List.find?_some found
    rw [decide_eq_true_eq] at same
    rw [inj_on_of_nodup_map stacked.nodup (mem_of_find?_eq_some found) member same]

theorem Stacked.stands {entry : LevelKey × Target} {order : Order} (stacked : base.Stacked)
    (stands : base.Stands entry order) :
    order ∈ base.resting ∧ order.side = entry.1.side ∧ order.price = entry.1.price := by
  obtain ⟨queue, level, located⟩ := stands
  have inQueue := mem_of_getElem? located
  have wf := (stacked.ladders entry.1.side).get_level level
  obtain ⟨before, after, split, _⟩ := get_split level
  have inLadder : (entry.1.price, queue) ∈ base.ladder entry.1.side := by
    rw [split]
    exact mem_append_right _ mem_cons_self
  exact ⟨(mem_resting entry.1.side).mpr (Or.inl (mem_orders.mpr ⟨_, inLadder, inQueue⟩)),
    wf.placed order inQueue⟩

theorem Planned.ascending (planned : Planned base ids levels)
    (member : level ∈ levels) : Ascending level.2 := by
  have nodup : (level.2.map Target.output).Nodup := by
    have all := planned.outputs.nodup_iff.mpr nodup_range
    exact all.sublist (sublist_flatten_of_mem (mem_map.mpr ⟨level, member, rfl⟩))
  rw [List.Nodup, pairwise_map] at nodup
  refine ((planned.ordered level member).and nodup).imp_of_mem ?_
  intro first second inFirst inSecond both
  obtain ⟨le, different⟩ := both
  refine Nat.lt_of_le_of_ne le fun same => different ?_
  obtain ⟨order, ⟨queue, found, located⟩, named⟩ := planned.stands level member first inFirst
  obtain ⟨other, ⟨queue', found', located'⟩, named'⟩ := planned.stands level member second inSecond
  dsimp only at found found' located located'
  rw [found] at found'
  cases found'
  rw [same, located'] at located
  cases located
  have bound := (List.getElem?_eq_some_iff.mp named).1
  exact (List.getElem?_inj bound planned.nodup).mp (named.trans named'.symm)

theorem Planned.aimed (stacked : base.Stacked) (planned : Planned base ids levels)
    (member : level ∈ levels) :
    ∃ queue, (base.ladder level.1.side).get level.1.price = some queue ∧
      Aimed queue level.2 (base.wanted ids) fun id => ids.idxOf id := by
  obtain ⟨first, inTargets⟩ := exists_mem_of_ne_nil _ (planned.nonempty level member)
  obtain ⟨_, ⟨queue, found, _⟩, _⟩ := planned.stands level member first inTargets
  refine ⟨queue, found, planned.ascending member, fun target inTargets => ?_⟩
  obtain ⟨order, stands, named⟩ := planned.stands level member target inTargets
  have member := (stacked.stands stands).1
  obtain ⟨other, foundOther, located⟩ := stands
  dsimp only at foundOther located
  rw [found] at foundOther
  cases foundOther
  refine ⟨order, located, ?_, ?_⟩
  · rw [wanted, named, Option.bind_some, stacked.find member]
  · obtain ⟨bound, same⟩ := List.getElem?_eq_some_iff.mp named
    rw [← same]
    exact planned.nodup.idxOf_getElem _ bound

/-- The ladders have lost the orders of some ids; nothing else has changed. -/
structure Cleared (base : Book) (ids : List Nat) (book : Book) : Prop where
  ladders : ∀ side, book.ladder side = (base.ladder side).without ids
  indexes : book.indexes = base.indexes
  reduceOnlyIndex : book.reduceOnlyIndex = base.reduceOnlyIndex
  nextSeq : book.nextSeq = base.nextSeq
  frame : Frame base book

def targetIds (ids : List Nat) (targets : List Target) : List Nat :=
  targets.filterMap fun target => ids[target.output]?

theorem dropAt_targets {queue : Queue} {targets : List Target}
    (nodup : (queue.map Order.id).Nodup)
    (located : ∀ target ∈ targets, ∃ order, queue[target.position]? = some order ∧
      ids[target.output]? = some order.id) :
    dropAt (targets.map Target.position) 0 queue =
      Queue.without (targetIds ids targets) queue := by
  refine dropAt_filter fun index item found => ?_
  rw [Nat.zero_add, decide_eq_false_iff_not, not_not]
  constructor
  · intro member
    obtain ⟨target, inTargets, rfl⟩ := mem_map.mp member
    obtain ⟨order, standing, named⟩ := located target inTargets
    rw [found] at standing
    cases standing
    exact mem_filterMap.mpr ⟨target, inTargets, named⟩
  · intro member
    obtain ⟨target, inTargets, same⟩ := mem_filterMap.mp member
    obtain ⟨order, standing, named⟩ := located target inTargets
    rw [named] at same
    have bound : index < (queue.map Order.id).length := by
      rw [length_map]
      exact (List.getElem?_eq_some_iff.mp found).1
    refine mem_map.mpr ⟨target, inTargets, ((List.getElem?_inj bound nodup).mp ?_).symm⟩
    rw [List.getElem?_map, List.getElem?_map, found, standing]
    exact same.symm

theorem Stacked.queue_nodup {side : Side} {price : Int} {queue : Queue} (stacked : base.Stacked)
    (found : (base.ladder side).get price = some queue) : (queue.map Order.id).Nodup := by
  obtain ⟨others, perm, _⟩ := setQueue_orders found
  have nodup := stacked.nodup
  rw [((resting_perm base side).map Order.id).nodup_iff, map_append,
    nodup_append] at nodup
  have own := nodup.1
  rw [(perm.map Order.id).nodup_iff, map_append, nodup_append] at own
  exact own.1

theorem Side.eq_or_opposite (side other : Side) : other = side ∨ other = side.opposite := by
  cases side <;> cases other <;> simp [Side.opposite]

theorem Side.ne_opposite (side : Side) : side ≠ side.opposite := by
  cases side <;> simp [Side.opposite]

theorem Cleared.removeLevel (stacked : base.Stacked) (planned : Planned base ids levels)
    (member : level ∈ levels) (cleared : Cleared base done book) (slots : Slots)
    (apart : ∀ order ∈ base.resting, order.side = level.1.side → order.price = level.1.price →
      order.id ∉ done) :
    ∃ after, removeLevel (fun id => ids.idxOf id) (book, slots) level =
        (after, fillSlots (base.wanted ids) (level.2.map Target.output) slots) ∧
      Cleared base (done ++ targetIds ids level.2) after := by
  obtain ⟨queue, found, aimed⟩ := planned.aimed stacked member
  obtain ⟨key, targets⟩ := level
  dsimp only at *
  have wf := (stacked.ladders key.side).get_level found
  have rests : ∀ order ∈ queue, order ∈ base.resting := by
    intro order inQueue
    obtain ⟨index, located⟩ := mem_iff_getElem?.mp inQueue
    exact (@Stacked.stands base (key, ⟨index, 0⟩) order stacked ⟨queue, found, located⟩).1
  -- The queue is still the one the plan was made for.
  have untouched : (book.ladder key.side).get key.price = some queue := by
    rw [cleared.ladders]
    refine get_without found wf.nonempty fun order inQueue => ?_
    obtain ⟨side, price⟩ := wf.placed order inQueue
    exact apart order (rests order inQueue) side price
  have located : ∀ target ∈ targets, ∃ order, queue[target.position]? = some order ∧
      ids[target.output]? = some order.id := by
    intro target inTargets
    obtain ⟨order, ⟨other, foundOther, located⟩, named⟩ :=
      planned.stands (key, targets) member target inTargets
    dsimp only at foundOther located
    rw [found] at foundOther
    cases foundOther
    exact ⟨order, located, named⟩
  have named : ∀ id ∈ targetIds ids targets, ∃ order ∈ queue, order.id = id := by
    intro id inIds
    obtain ⟨target, inTargets, same⟩ := mem_filterMap.mp inIds
    obtain ⟨order, standing, named⟩ := located target inTargets
    rw [named] at same
    exact ⟨order, mem_of_getElem? standing, Option.some.inj same⟩
  have owner : ∀ order ∈ base.resting, order.id ∈ targetIds ids targets → order ∈ queue := by
    intro order inBase inIds
    obtain ⟨other, inQueue, same⟩ := named _ inIds
    rw [← inj_on_of_nodup_map stacked.nodup (rests other inQueue) inBase same]
    exact inQueue
  have dropped := dropAt_targets (stacked.queue_nodup found) located
  refine ⟨book.setLadder key.side (Ladder.setQueue key.price
    (Queue.without (targetIds ids targets) queue) (book.ladder key.side)), ?_, ?_⟩
  · unfold Book.removeLevel
    dsimp only
    rw [untouched]
    dsimp only
    rw [removeTargets_spec aimed, dropped]
  · have stays : ∀ side, ∀ order ∈ (book.ladder side).orders, order ∈ base.resting ∧
        order.side = side := by
      intro side order inLadder
      rw [cleared.ladders, orders_without] at inLadder
      have old := (Queue.mem_without.mp inLadder).1
      exact ⟨(mem_resting side).mpr (Or.inl old), (stacked.ladders side).placed old⟩
    have sound : ∀ side, LadderWf side base.indexes.orderSeq (book.ladder side) := fun side =>
      cleared.ladders side ▸ without_wf (stacked.ladders side)
    have own := setQueue_without (sound key.side) untouched fun order inLadder inIds =>
      (wf.placed order (owner order (stays key.side order inLadder).1 inIds)).2
    have other : (book.ladder key.side.opposite).without (targetIds ids targets) =
        book.ladder key.side.opposite :=
      without_untouched (fun level inLadder => ((sound _).levels level inLadder).nonempty)
        fun order inLadder inIds => by
          obtain ⟨inBase, side⟩ := stays _ order inLadder
          have placed := (wf.placed order (owner order inBase inIds)).1
          rw [placed] at side
          exact Side.ne_opposite key.side side
    obtain ⟨indexes, nextSeq, reduceOnlyIndex⟩ := @setLadder_indexes book key.side
      (Ladder.setQueue key.price (Queue.without (targetIds ids targets) queue)
        (book.ladder key.side))
    refine ⟨fun side => ?_, indexes.trans cleared.indexes, reduceOnlyIndex.trans
      cleared.reduceOnlyIndex, nextSeq.trans cleared.nextSeq, cleared.frame.trans setLadder_frame⟩
    rw [← without_without, ← cleared.ladders]
    rcases Side.eq_or_opposite key.side side with rfl | rfl
    · rw [setLadder_ladder, own]
    · rw [setLadder_opposite, other]

theorem Planned.placed (stacked : base.Stacked) (planned : Planned base ids levels)
    (member : level ∈ levels) {order : Order} (inBase : order ∈ base.resting)
    (named : order.id ∈ targetIds ids level.2) :
    order.side = level.1.side ∧ order.price = level.1.price := by
  obtain ⟨target, inTargets, same⟩ := mem_filterMap.mp named
  obtain ⟨other, stands, sameId⟩ := planned.stands level member target inTargets
  rw [sameId, Option.some.injEq] at same
  obtain ⟨otherInBase, side, price⟩ := stacked.stands stands
  rw [← inj_on_of_nodup_map stacked.nodup otherInBase inBase same]
  exact ⟨side, price⟩

/-- Level by level, the planned orders leave the book and fill their slots. -/
theorem Cleared.foldLevels (stacked : base.Stacked) (planned : Planned base ids levels)
    {todo : List (LevelKey × List Target)} (inPlan : ∀ level ∈ todo, level ∈ levels)
    (keys : (todo.map Prod.fst).Pairwise LevelKey.before) (cleared : Cleared base done book)
    (slots : Slots)
    (apart : ∀ level ∈ todo, ∀ order ∈ base.resting, order.side = level.1.side →
      order.price = level.1.price → order.id ∉ done) :
    ∃ after, todo.foldl (Book.removeLevel fun id => ids.idxOf id) (book, slots) =
        (after, fillSlots (base.wanted ids) (todo.flatMap fun level => level.2.map Target.output)
          slots) ∧
      Cleared base (done ++ todo.flatMap fun level => targetIds ids level.2) after := by
  induction todo generalizing book slots done with
  | nil => exact ⟨book, rfl, by simpa using cleared⟩
  | cons level todo ih =>
    rw [map_cons, pairwise_cons] at keys
    have here := inPlan level mem_cons_self
    obtain ⟨after, removed, next⟩ :=
      cleared.removeLevel stacked planned here slots (apart level mem_cons_self)
    obtain ⟨last, folded, all⟩ := ih (fun other member => inPlan other (mem_cons_of_mem _ member))
      keys.2 next (fillSlots (base.wanted ids) (level.2.map Target.output) slots)
      fun other member order inBase side price inDone => by
        rcases mem_append.mp inDone with inDone | named
        · exact apart other (mem_cons_of_mem _ member) order inBase side price inDone
        · obtain ⟨side', price'⟩ := planned.placed stacked here inBase named
          refine (keys.1 other.1 (mem_map_of_mem member)).ne ?_
          exact LevelKey.ext (side'.symm.trans side) (price'.symm.trans price)
    refine ⟨last, ?_, ?_⟩
    · rw [foldl_cons, removed, folded, flatMap_cons, fillSlots_append]
    · rw [flatMap_cons, ← append_assoc]
      exact all

theorem Planned.removeLevels (stacked : base.Stacked) (planned : Planned base ids levels) :
    ∃ cancelled after, base.removeLevels ids levels = (after, cancelled) ∧
      cancelled.map Order.id = ids ∧ (∀ order ∈ cancelled, order ∈ base.resting) ∧
      Cleared base ids after := by
  have start : Cleared base [] base :=
    ⟨fun side => (without_untouched
      (fun level member => ((stacked.ladders side).levels level member).nonempty) (by simp)).symm,
      rfl, rfl, rfl, Frame.refl base⟩
  obtain ⟨after, folded, cleared⟩ := start.foldLevels stacked planned (fun _ member => member)
    planned.apart (List.replicate ids.length none) (by simp)
  -- Every slot belongs to a target, so every id names a resting order.
  have target : ∀ index, index < ids.length → ∃ level ∈ levels, ∃ target ∈ level.2,
      target.output = index := by
    intro index bound
    have member := planned.outputs.mem_iff.mpr (List.mem_range.mpr bound)
    obtain ⟨level, inLevels, inOutputs⟩ := mem_flatMap.mp member
    obtain ⟨target, inTargets, same⟩ := mem_map.mp inOutputs
    exact ⟨level, inLevels, target, inTargets, same⟩
  have rests : ∀ id ∈ ids, ∃ order ∈ base.resting, order.id = id ∧
      base.resting.find? (fun other => decide (other.id = id)) = some order := by
    intro id member
    obtain ⟨index, named⟩ := mem_iff_getElem?.mp member
    obtain ⟨level, inLevels, target, inTargets, rfl⟩ :=
      target index (List.getElem?_eq_some_iff.mp named).1
    obtain ⟨order, stands, sameId⟩ := planned.stands level inLevels target inTargets
    rw [named, Option.some.injEq] at sameId
    have inBase := (stacked.stands stands).1
    exact ⟨order, inBase, sameId.symm, sameId ▸ stacked.find inBase⟩
  have slots : fillSlots (base.wanted ids) (levels.flatMap fun level => level.2.map Target.output)
      (List.replicate ids.length none) =
      ids.map fun id => base.resting.find? fun order => decide (order.id = id) := by
    refine ext_getElem? fun index => ?_
    simp only [fillSlots_getElem, planned.outputs.mem_iff, List.mem_range, List.getElem?_replicate,
      List.getElem?_map]
    by_cases bound : index < ids.length
    · rw [if_pos bound, if_pos bound, wanted, List.getElem?_eq_getElem bound]
      rfl
    · rw [if_neg bound, if_neg bound, List.getElem?_eq_none (by omega)]
      rfl
  refine ⟨_, after, by rw [Book.removeLevels, folded, slots], ?_, ?_, ?_⟩
  · have each : ∀ id ∈ ids, (base.resting.find? fun order => decide (order.id = id)).map Order.id =
        some id := by
      intro id member
      obtain ⟨order, _, sameId, found⟩ := rests id member
      rw [found, Option.map_some, sameId]
    rw [List.reduceOption, filterMap_map, map_filterMap]
    exact (filterMap_congr each).trans filterMap_some
  · intro order member
    rw [List.reduceOption, filterMap_map, mem_filterMap] at member
    obtain ⟨id, _, found⟩ := member
    exact mem_of_find?_eq_some found
  · rw [nil_append] at cleared
    have same : ∀ id, id ∈ levels.flatMap (fun level => targetIds ids level.2) ↔ id ∈ ids := by
      intro id
      constructor
      · intro member
        obtain ⟨level, _, inIds⟩ := mem_flatMap.mp member
        obtain ⟨_, _, found⟩ := mem_filterMap.mp inIds
        exact mem_of_getElem? found
      · intro member
        obtain ⟨index, named⟩ := mem_iff_getElem?.mp member
        obtain ⟨level, inLevels, target, inTargets, rfl⟩ :=
          target index (List.getElem?_eq_some_iff.mp named).1
        exact mem_flatMap.mpr ⟨level, inLevels, mem_filterMap.mpr ⟨target, inTargets, named⟩⟩
    exact { cleared with ladders := fun side =>
      (cleared.ladders side).trans (without_congr same) }

end Remove

section Resting

variable {base book after : Book} {cancelled : List Order} {order : Order}

theorem unindexAll_append {indexes : Indexes} (first second : List Order) :
    unindexAll indexes (first ++ second) = unindexAll (unindexAll indexes first) second :=
  foldl_append

/-- Some orders have left the ladders and the indexes by id; what is kept per trader and
the client ids are left to the caller. -/
structure Removed (base : Book) (cancelled : List Order) (after : Book) : Prop where
  ladders : ∀ side, after.ladder side = (base.ladder side).without (cancelled.map Order.id)
  indexes : after.indexes = unindexAll base.indexes cancelled
  reduceOnlyIndex : after.reduceOnlyIndex = base.reduceOnlyIndex
  nextSeq : after.nextSeq = base.nextSeq
  frame : Frame base after

theorem Removed.nothing (stacked : base.Stacked) : Removed base [] base :=
  ⟨fun side => (without_untouched
    (fun level member => ((stacked.ladders side).levels level member).nonempty) (by simp)).symm,
    rfl, rfl, rfl, Frame.refl base⟩

theorem Removed.stacked (stacked : base.Stacked) (removed : Removed base cancelled book) :
    book.Stacked where
  ladders side := by
    rw [removed.ladders, removed.indexes]
    refine without_wf ((stacked.ladders side).mono fun order _ seq found => ?_)
    rw [unindexAll_orderSeq] at found
    split at found
    · contradiction
    · exact found
  nodup := by
    rw [resting_without removed.ladders]
    exact stacked.nodup.sublist (filter_sublist.map Order.id)

theorem tryCancelAllBatch_removed {ids : List Nat}
    (stacked : base.Stacked)
    (taken : base.tryCancelAllBatch epochFits ids = some (after, cancelled)) :
    cancelled.map Order.id = ids ∧ (∀ order ∈ cancelled, order ∈ base.resting) ∧
      Removed base cancelled after := by
  unfold tryCancelAllBatch at taken
  split at taken
  · obtain ⟨levels, found, result⟩ := Option.map_eq_some_iff.mp taken
    obtain ⟨orders, cleared, removed, named, rests, clear⟩ :=
      (planLevels_planned found).removeLevels stacked
    rw [removed] at result
    cases result
    refine ⟨named, rests, ?_, by rw [← clear.indexes], clear.reduceOnlyIndex, clear.nextSeq, ?_⟩
    · rw [named]
      exact fun side => by cases side; exacts [clear.ladders .buy, clear.ladders .sell]
    · exact clear.frame.trans ⟨rfl, rfl, rfl, rfl, rfl, rfl, rfl, rfl⟩
  · contradiction

theorem Removed.cancelEach (stacked : base.Stacked) (removed : Removed base cancelled book)
    (left : order.id ∉ cancelled.map Order.id)
    (indexed : base.indexes.orderIndex order.id =
      some { side := order.side, price := order.price })
    (placed : order ∈ (base.ladder order.side).orders) :
    ∃ after, cancelEach (book, cancelled) order.id = (after, cancelled ++ [order]) ∧
      Removed base (cancelled ++ [order]) after := by
  have stackedBook := removed.stacked stacked
  have inLadder : order ∈ (book.ladder order.side).orders := by
    rw [removed.ladders, orders_without]
    exact Queue.mem_without.mpr ⟨placed, left⟩
  obtain ⟨queue, level, inQueue⟩ := (stackedBook.ladders order.side).get_price inLadder
  have nodup := stackedBook.queue_nodup level
  obtain ⟨position, found, positioned, located, same⟩ :=
    @Indexes.queuePosition_found book.indexes queue order inQueue
  rw [inj_on_of_nodup_map nodup (mem_of_getElem? located) inQueue same] at located
  have index : book.indexes.orderIndex order.id =
      some { side := order.side, price := order.price } := by
    rw [removed.indexes, unindexAll_orderIndex, if_neg left, indexed]
  have own := setQueue_without (stackedBook.ladders order.side) level
    fun other inOrders named => by
      have rests : ∀ each ∈ (book.ladder order.side).orders, each ∈ book.resting := fun each inside =>
        (mem_resting order.side).mpr (Or.inl inside)
      rw [inj_on_of_nodup_map stackedBook.nodup (rests other inOrders) (rests order inLadder)
        (mem_singleton.mp named)]
  rw [← Queue.eraseIdx_without nodup located] at own
  have other : (book.ladder order.side.opposite).without [order.id] =
      book.ladder order.side.opposite :=
    without_untouched
      (fun level inside => ((stackedBook.ladders _).levels level inside).nonempty)
      fun each inside named => by
        have same := inj_on_of_nodup_map stackedBook.nodup
          ((mem_resting order.side).mpr (Or.inr inside))
          ((mem_resting order.side).mpr (Or.inl inLadder)) (mem_singleton.mp named)
        have side := (stackedBook.ladders _).placed inside
        rw [same] at side
        exact Side.ne_opposite order.side side
  obtain ⟨indexes, nextSeq, reduceOnlyIndex⟩ := @setLadder_indexes book order.side
    (Ladder.setQueue order.price (queue.eraseIdx position) (book.ladder order.side))
  refine ⟨{ book.setLadder order.side (Ladder.setQueue order.price (queue.eraseIdx position)
    (book.ladder order.side)) with indexes := unindex book.indexes order.id }, ?_, ?_⟩
  · unfold Book.cancelEach
    simp only [index, level, positioned, located, Option.toList_some, indexes]
  · refine ⟨fun side => ?_, ?_, reduceOnlyIndex.trans removed.reduceOnlyIndex,
      nextSeq.trans removed.nextSeq, removed.frame.trans (setLadder_frame.trans
        ⟨rfl, rfl, rfl, rfl, rfl, rfl, rfl, rfl⟩)⟩
    · rw [map_append, ← without_without, ← removed.ladders]
      have sameLadder : ∀ (changed : Book) (indexes : Indexes),
          { changed with indexes := indexes }.ladder side = changed.ladder side := by
        intro changed indexes
        cases side <;> rfl
      rw [sameLadder]
      rcases Side.eq_or_opposite order.side side with rfl | rfl
      · rw [setLadder_ladder, own]
        rfl
      · rw [setLadder_opposite]
        exact other.symm
    · change unindex book.indexes order.id = _
      rw [unindexAll_append, ← removed.indexes]
      rfl

theorem Removed.cancelLoop (stacked : base.Stacked) (removed : Removed base cancelled book)
    {orders : List Order} (nodup : ((cancelled ++ orders).map Order.id).Nodup)
    (known : ∀ order ∈ orders, base.indexes.orderIndex order.id =
      some { side := order.side, price := order.price } ∧
        order ∈ (base.ladder order.side).orders) :
    ∃ after, (orders.map Order.id).foldl Book.cancelEach (book, cancelled) =
        (after, cancelled ++ orders) ∧
      Removed base (cancelled ++ orders) after := by
  induction orders generalizing book cancelled with
  | nil => exact ⟨book, by simp, by simpa using removed⟩
  | cons order orders ih =>
    have left : order.id ∉ cancelled.map Order.id := by
      rw [map_append, nodup_append] at nodup
      exact fun member => nodup.2.2 order.id member order.id mem_cons_self rfl
    obtain ⟨indexed, placed⟩ := known order mem_cons_self
    obtain ⟨next, taken, step⟩ := removed.cancelEach stacked left indexed placed
    rw [append_cons] at nodup ⊢
    obtain ⟨after, folded, all⟩ := ih step nodup fun other member =>
      known other (mem_cons_of_mem _ member)
    exact ⟨after, by rw [map_cons, foldl_cons, taken, folded], all⟩

end Resting

section Traders

variable {indexes : Indexes} {trader : Address} {orders : List Order}

theorem forgetAll_of_parts (others : Indexes)
    (orderIndex : ∀ id, others.orderIndex id =
      if id ∈ orders.map Order.id then none else indexes.orderIndex id)
    (orderSeq : ∀ id, others.orderSeq id =
      if id ∈ orders.map Order.id then none else indexes.orderSeq id)
    (traderOrders : others.traderOrders = Function.update indexes.traderOrders trader [])
    (cloids : others.cloids = (forgetCloids indexes orders).cloids)
    (listedOnce : ∀ trader, (indexes.traderOrders trader).Nodup)
    (own : ∀ order ∈ orders, order.trader = trader)
    (all : ∀ id ∈ indexes.traderOrders trader, id ∈ orders.map Order.id) :
    others = indexes.forgetAll orders := by
  have traders : others.traderOrders = (indexes.forgetAll orders).traderOrders := by
    rw [traderOrders]
    funext other
    rw [forgetAll_traderOrders listedOnce]
    by_cases same : other = trader
    · subst same
      rw [Function.update_self, eq_comm, filter_eq_nil_iff]
      intro id member
      obtain ⟨order, inOrders, named⟩ := mem_map.mp (all id member)
      rw [decide_eq_true_eq]
      exact fun kept => kept order inOrders (own order inOrders) named
    · rw [Function.update_of_ne same, eq_comm, filter_eq_self]
      intro id _
      rw [decide_eq_true_eq]
      exact fun order inOrders owned => absurd (owned.symm.trans (own order inOrders)) same
  have index : others.orderIndex = (indexes.forgetAll orders).orderIndex :=
    funext fun id => (orderIndex id).trans (forgetAll_orderIndex id).symm
  have seq : others.orderSeq = (indexes.forgetAll orders).orderSeq :=
    funext fun id => (orderSeq id).trans (forgetAll_orderSeq id).symm
  have names : others.cloids = (indexes.forgetAll orders).cloids :=
    cloids.trans forgetAll_cloids.symm
  generalize indexes.forgetAll orders = forgotten at *
  obtain ⟨_, _, _, _⟩ := others
  obtain ⟨_, _, _, _⟩ := forgotten
  dsimp only at traders index seq names
  subst traders index seq names
  rfl

end Traders

section CancelAll

variable {book after : Book} {trader : Address} {orders : List Order}
  (epochFits : LevelKey → Nat → Bool)

/-- All orders of a trader, in the order the book lists them. -/
structure AllOf (book : Book) (trader : Address) (orders : List Order) : Prop where
  listed : orders.map Order.id = book.indexes.traderOrders trader
  rests : ∀ order ∈ orders, order ∈ book.resting ∧ order.trader = trader

theorem Valid.owner (valid : book.Valid) {order : Order} (member : order ∈ book.resting)
    (listed : order.id ∈ book.indexes.traderOrders trader) : order.trader = trader := by
  obtain ⟨key, inKeys, sameId, sameTrader⟩ := (valid.covers.listed trader order.id).mp listed
  obtain ⟨other, inResting, rfl⟩ := mem_map.mp inKeys
  rw [← valid.eq_of_id inResting member sameId]
  exact sameTrader

theorem Valid.allOf (valid : book.Valid)
    (listed : orders.map Order.id = book.indexes.traderOrders trader)
    (rests : ∀ order ∈ orders, order ∈ book.resting) : AllOf book trader orders :=
  ⟨listed, fun order member => ⟨rests order member,
    valid.owner (rests order member) (listed ▸ mem_map_of_mem member)⟩⟩

theorem Valid.exists_allOf (valid : book.Valid) (trader : Address) :
    ∃ orders, AllOf book trader orders := by
  have each : ∀ ids : List Nat, (∀ id ∈ ids, id ∈ book.indexes.traderOrders trader) →
      ∃ orders : List Order, orders.map Order.id = ids ∧ ∀ order ∈ orders, order ∈ book.resting := by
    intro ids inside
    induction ids with
    | nil => exact ⟨[], rfl, by simp⟩
    | cons id ids ih =>
      obtain ⟨orders, named, rests⟩ := ih fun other member => inside other (mem_cons_of_mem _ member)
      obtain ⟨key, inKeys, sameId, _⟩ :=
        (valid.covers.listed trader id).mp (inside id mem_cons_self)
      obtain ⟨order, inResting, rfl⟩ := mem_map.mp inKeys
      refine ⟨order :: orders, by rw [map_cons, named]; exact congrArg (· :: ids) sameId, ?_⟩
      intro other member
      rcases mem_cons.mp member with rfl | member
      · exact inResting
      · exact rests other member
  obtain ⟨orders, named, rests⟩ := each _ fun _ member => member
  exact ⟨orders, valid.allOf named rests⟩

def ordersOf (book : Book) (trader : Address) : List Order :=
  (book.indexes.traderOrders trader).filterMap book.getOrder

variable (valid : book.Valid)
include valid

theorem Valid.getOrder_ids (rests : ∀ order ∈ orders, order ∈ book.resting) :
    (orders.map Order.id).filterMap book.getOrder = orders := by
  rw [filterMap_map]
  refine (filterMap_congr fun order member => ?_).trans filterMap_some
  exact valid.getOrder_iff.mpr ⟨rests order member, rfl⟩

theorem AllOf.eq_ordersOf (all : AllOf book trader orders) : orders = book.ordersOf trader := by
  rw [ordersOf, ← all.listed]
  exact (valid.getOrder_ids fun order member => (all.rests order member).1).symm

theorem AllOf.nodup (all : AllOf book trader orders) : (orders.map Order.id).Nodup := by
  rw [all.listed]
  exact valid.covers.listedOnce trader

theorem dropTrader_stacked (trader : Address) : (book.dropTrader trader).Stacked :=
  ⟨fun side => by cases side; exacts [valid.ladders .buy, valid.ladders .sell], valid.nodup⟩

theorem AllOf.known (all : AllOf book trader orders) {order : Order}
    (member : order ∈ orders) : (book.dropTrader trader).indexes.orderIndex order.id =
      some { side := order.side, price := order.price } ∧
        order ∈ ((book.dropTrader trader).ladder order.side).orders := by
  refine ⟨valid.orderIndex (all.rests order member).1, ?_⟩
  have placed := valid.mem_ladder (all.rests order member).1
  cases side : order.side <;> rw [side] at placed <;> exact placed

theorem Valid.cancelAllResting (trader : Address) :
    ∃ after orders, book.cancelAllResting epochFits trader = (after, orders) ∧
      AllOf book trader orders ∧ Removed (book.dropTrader trader) orders after := by
  have stacked := dropTrader_stacked valid trader
  unfold Book.cancelAllResting
  dsimp only
  cases taken : (book.dropTrader trader).tryCancelAllBatch epochFits
      (book.indexes.traderOrders trader) with
  | some result =>
    obtain ⟨after, orders⟩ := result
    obtain ⟨named, rests, removed⟩ := tryCancelAllBatch_removed stacked taken
    exact ⟨after, orders, rfl, valid.allOf named rests, removed⟩
  | none =>
    obtain ⟨orders, all⟩ := valid.exists_allOf trader
    obtain ⟨after, folded, removed⟩ := (Removed.nothing stacked).cancelLoop stacked
      (by rw [nil_append]; exact all.nodup valid) fun _ member => all.known valid member
    rw [all.listed, nil_append] at folded
    exact ⟨after, orders, folded, all, removed⟩

theorem AllOf.reduceOnly (all : AllOf book trader orders) (other : Address)
    (id : Nat) : id ∈ Function.update book.reduceOnlyIndex trader [] other ↔
      id ∈ book.reduceOnlyIndex other ∧ id ∉ orders.map Order.id := by
  by_cases same : other = trader
  · subst same
    rw [Function.update_self]
    refine ⟨fun absurd => by contradiction, fun ⟨member, left⟩ => absurd ?_ left⟩
    obtain ⟨order, inResting, sameId, owned, _⟩ := (valid.reduceOnly other id).mp member
    rw [all.listed]
    exact (valid.covers.listed other id).mpr
      ⟨order.key, mem_map_of_mem inResting, sameId, owned⟩
  · rw [Function.update_of_ne same]
    refine ⟨fun member => ⟨member, fun named => same ?_⟩, And.left⟩
    obtain ⟨order, inResting, sameId, owned, _⟩ := (valid.reduceOnly other id).mp member
    rw [← owned]
    exact valid.owner inResting (by rw [← all.listed, sameId]; exact named)

theorem Valid.cancelAll_withdrawn (all : AllOf book trader orders)
    (removed : Removed (book.dropTrader trader) orders after) :
    Withdrawn book orders { after with indexes := forgetCloids after.indexes orders } := by
  obtain ⟨index, traders, seq⟩ := @forgetCloids_frame after.indexes orders
  obtain ⟨unindexTraders, unindexCloids⟩ := @unindexAll_frame (book.dropTrader trader).indexes orders
  refine ⟨fun side => ?_, ?_, fun other id => ?_, fun other => ?_, removed.nextSeq, ?_⟩
  · have ladder := removed.ladders side
    cases side <;> exact ladder
  · refine forgetAll_of_parts _ (fun id => ?_) (fun id => ?_) ?_ ?_ valid.covers.listedOnce
      (fun order member => (all.rests order member).2) (fun id member => all.listed ▸ member)
    · rw [index, removed.indexes, unindexAll_orderIndex]
      rfl
    · rw [seq, removed.indexes, unindexAll_orderSeq]
      rfl
    · rw [traders, removed.indexes, unindexTraders]
      rfl
    · refine forgetCloids_congr ?_
      rw [removed.indexes, unindexCloids]
      rfl
  · change id ∈ after.reduceOnlyIndex other ↔ _
    rw [removed.reduceOnlyIndex]
    exact all.reduceOnly valid other id
  · change (after.reduceOnlyIndex other).Pairwise _
    rw [removed.reduceOnlyIndex]
    change (Function.update book.reduceOnlyIndex trader [] other).Pairwise _
    by_cases same : other = trader
    · subst same
      rw [Function.update_self]
      exact List.Pairwise.nil
    · rw [Function.update_of_ne same]
      exact valid.ascending other
  · have frame : Frame book (book.dropTrader trader) := ⟨rfl, rfl, rfl, rfl, rfl, rfl, rfl, rfl⟩
    exact frame.trans (removed.frame.trans ⟨rfl, rfl, rfl, rfl, rfl, rfl, rfl, rfl⟩)

omit valid

/-- A valid book again, with nothing on it that was not there before. -/
structure Lighter (before after : Book) : Prop where
  valid : after.Valid
  orders : ∀ id ∈ after.resting.map Order.id, id ∈ before.resting.map Order.id
  stops : ∀ stop ∈ after.pendingStops, stop ∈ before.pendingStops
  nextId : after.nextId = before.nextId
  lotSize : after.lotSize = before.lotSize

theorem Lighter.refl (valid : book.Valid) : Lighter book book :=
  ⟨valid, fun _ member => member, fun _ member => member, rfl, rfl⟩

theorem Lighter.trans {first second third : Book} (left : Lighter first second)
    (right : Lighter second third) : Lighter first third where
  valid := right.valid
  orders id member := left.orders id (right.orders id member)
  stops stop member := left.stops stop (right.stops stop member)
  nextId := right.nextId.trans left.nextId
  lotSize := right.lotSize.trans left.lotSize

theorem Valid.retainStops_lighter (valid : book.Valid) (keep : StopOrder → Bool) :
    Lighter book (book.retainStops keep) :=
  ⟨valid.retainStops keep, fun _ member => member, fun _ member => mem_of_mem_filter member,
    rfl, rfl⟩

theorem Valid.withdrawn_lighter (valid : book.Valid)
    (inBook : ∀ order ∈ orders, order ∈ book.resting) (nodup : (orders.map Order.id).Nodup)
    (done : Withdrawn book orders after) : Lighter book after := by
  obtain ⟨afterValid, perm⟩ := valid.withdrawn inBook nodup done
  refine ⟨afterValid, fun id member => ?_, fun stop member => done.frame.pendingStops ▸ member,
    done.frame.nextId, done.frame.lotSize⟩
  rw [(perm.map Order.id).mem_iff, map_append]
  exact mem_append_right _ member

theorem Valid.cancelAll (valid : book.Valid) (trader : Address) :
    Lighter book (book.cancelAll epochFits trader).1 := by
  have retained := valid.retainStops_lighter fun stop => decide (stop.trader ≠ trader)
  obtain ⟨after, orders, cancelled, all, removed⟩ :=
    retained.valid.cancelAllResting epochFits trader
  have done := retained.valid.cancelAll_withdrawn all removed
  unfold Book.cancelAll
  dsimp only
  rw [cancelled]
  exact retained.trans (retained.valid.withdrawn_lighter
    (fun order member => (all.rests order member).1) (all.nodup retained.valid) done)

end CancelAll

section CancelMany

variable {book after : Book} {senders : List Address} (epochFits : LevelKey → Nat → Bool)

/-- Some senders are forgotten, the cancelled orders of the others still have to be. -/
structure Forgetting (book : Book) (done left : List Order) (after : Book) : Prop where
  ladders : ∀ side, after.ladder side = (book.ladder side).without ((done ++ left).map Order.id)
  indexes : after.indexes = book.indexes.forgetAll done
  reduceOnly : ∀ trader id, id ∈ after.reduceOnlyIndex trader ↔
    id ∈ book.reduceOnlyIndex trader ∧ id ∉ done.map Order.id
  ascending : ∀ trader, (after.reduceOnlyIndex trader).Pairwise (· < ·)
  nextSeq : after.nextSeq = book.nextSeq
  frame : Frame book after

variable {done left orders : List Order} {trader : Address}

theorem Forgetting.forgetSender (valid : book.Valid)
    (state : Forgetting book done (orders ++ left) after)
    (all : AllOf book trader orders) (out : List (List Order)) (some : orders ≠ []) :
    ∃ next, forgetSender (after, orders ++ left, out) (trader, orders.map Order.id) =
        (next, left, out ++ [orders]) ∧
      Forgetting book (done ++ orders) left next := by
  have traders := @forgetAll_traderOrders book.indexes done valid.covers.listedOnce
  rw [← state.indexes] at traders
  have listedOnce : ∀ other, (after.indexes.traderOrders other).Nodup := fun other => by
    rw [traders]
    exact (valid.covers.listedOnce other).filter _
  have forgotten : unindexAll (forgetCloids (after.dropTrader trader).indexes orders) orders =
      book.indexes.forgetAll (done ++ orders) := by
    obtain ⟨index, names, seq⟩ := @forgetCloids_frame (after.dropTrader trader).indexes orders
    obtain ⟨unindexTraders, unindexCloids⟩ :=
      @unindexAll_frame (forgetCloids (after.dropTrader trader).indexes orders) orders
    rw [Indexes.forgetAll, foldl_append, ← Indexes.forgetAll, ← Indexes.forgetAll,
      ← state.indexes]
    refine forgetAll_of_parts _ (fun id => ?_) (fun id => ?_) ?_ ?_ listedOnce
      (fun order member => (all.rests order member).2) fun id member => ?_
    · rw [unindexAll_orderIndex, index]
      rfl
    · rw [unindexAll_orderSeq, seq]
      rfl
    · rw [unindexTraders, names]
      rfl
    · rw [unindexCloids]
      exact forgetCloids_congr rfl
    · rw [all.listed]
      rw [traders] at member
      exact mem_of_mem_filter member
  refine ⟨{ after.dropTrader trader with
    indexes := unindexAll (forgetCloids (after.dropTrader trader).indexes orders) orders }, ?_, ?_⟩
  · unfold Book.forgetSender
    dsimp only
    rw [if_neg (by simpa using some), length_map, List.take_left' rfl, List.drop_left' rfl]
  · refine ⟨fun side => ?_, forgotten, fun other id => ?_, fun other => ?_, state.nextSeq, ?_⟩
    · have ladder := state.ladders side
      rw [← append_assoc] at ladder
      cases side <;> exact ladder
    · change id ∈ Function.update after.reduceOnlyIndex trader [] other ↔ _
      have own := all.reduceOnly valid other id
      rw [map_append, mem_append, not_or]
      by_cases same : other = trader
      · subst same
        rw [Function.update_self] at own ⊢
        exact ⟨fun absurd => by contradiction, fun kept => own.mpr ⟨kept.1, kept.2.2⟩⟩
      · rw [Function.update_of_ne same] at own ⊢
        rw [state.reduceOnly]
        exact ⟨fun kept => ⟨kept.1, kept.2, (own.mp kept.1).2⟩, fun kept => ⟨kept.1, kept.2.1⟩⟩
    · change (Function.update after.reduceOnlyIndex trader [] other).Pairwise _
      by_cases same : other = trader
      · subst same
        rw [Function.update_self]
        exact List.Pairwise.nil
      · rw [Function.update_of_ne same]
        exact state.ascending other
    · exact state.frame.trans ⟨rfl, rfl, rfl, rfl, rfl, rfl, rfl, rfl⟩

theorem Forgetting.forgetSenders (valid : book.Valid) {pairs : List (Address × List Nat)}
    (owned : ∀ pair ∈ pairs, pair.2 = [] ∨ pair.2 = book.indexes.traderOrders pair.1)
    (state : Forgetting book done left after)
    (named : left.map Order.id = (pairs.map Prod.snd).flatten)
    (rests : ∀ order ∈ left, order ∈ book.resting) (out : List (List Order)) :
    ∃ next, pairs.foldl Book.forgetSender (after, left, out) =
        (next, [], out ++ pairs.map fun pair => pair.2.filterMap book.getOrder) ∧
      Forgetting book (done ++ left) [] next := by
  induction pairs generalizing done left after out with
  | nil =>
    have none : left = [] := by simpa using named
    subst none
    exact ⟨after, by simp, by simpa using state⟩
  | cons pair pairs ih =>
    obtain ⟨trader, ids⟩ := pair
    rw [map_cons, flatten_cons] at named
    have later := fun pair member => owned pair (mem_cons_of_mem _ member)
    by_cases nothing : ids = []
    · subst nothing
      obtain ⟨last, folded, finished⟩ := ih later state named rests (out ++ [[]])
      refine ⟨last, ?_, finished⟩
      rw [append_assoc] at folded
      exact folded
    · -- The first orders of the list are this trader's.
      obtain ⟨orders, others, rfl, ownIds, otherIds⟩ := map_eq_append_iff.mp named
      have listed : ids = book.indexes.traderOrders trader :=
        (owned (trader, ids) mem_cons_self).resolve_left nothing
      have all : AllOf book trader orders := valid.allOf (ownIds.trans listed)
        fun order member => rests order (mem_append_left _ member)
      obtain ⟨next, forgot, step⟩ := state.forgetSender valid all out (by
        rintro rfl
        exact nothing ownIds.symm)
      obtain ⟨last, folded, finished⟩ := ih later step otherIds
        (fun order member => rests order (mem_append_right _ member)) (out ++ [orders])
      have read := valid.getOrder_ids fun order member =>
        rests order (mem_append_left others member)
      refine ⟨last, ?_, by rw [← append_assoc]; exact finished⟩
      rw [foldl_cons, show ids = orders.map Order.id from ownIds.symm, forgot, folded,
        map_cons, read, append_assoc, singleton_append]

theorem pairs_owned (book : Book) (senders : List Address) :
    ∀ pair ∈ senders.zip (book.ownedIds senders),
      pair.2 = [] ∨ pair.2 = book.indexes.traderOrders pair.1 := by
  intro pair member
  obtain ⟨index, found⟩ := mem_iff_getElem?.mp member
  obtain ⟨sender, owned⟩ := List.getElem?_zip_eq_some.mp found
  rw [ownedIds, List.getElem?_map, List.getElem?_zipIdx, sender, Option.map_some, Option.map_some,
    Option.some.injEq] at owned
  dsimp only at owned
  split at owned
  · exact Or.inr owned.symm
  · exact Or.inl owned.symm

theorem Valid.cancelAllMany_withdrawn (valid : book.Valid) (senders : List Address)
    (planned : book.planCancelAllMany epochFits senders = some levels) :
    ∃ next, Withdrawn book (book.removeLevels (book.ownedIds senders).flatten levels).2 next ∧
      (∀ order ∈ (book.removeLevels (book.ownedIds senders).flatten levels).2,
        order ∈ book.resting) ∧
      (book.removeLevels (book.ownedIds senders).flatten levels).2.map Order.id =
        (book.ownedIds senders).flatten ∧
      (book.ownedIds senders).flatten.Nodup ∧
      book.applyCancelAllMany senders levels =
        (next.retainStops fun stop => decide (stop.trader ∉ senders),
          (book.ownedIds senders).map fun ids => ids.filterMap book.getOrder) := by
  unfold planCancelAllMany at planned
  dsimp only at planned
  split at planned
  · contradiction
  · have plan := planLevels_planned planned
    obtain ⟨cancelled, cleared, removed, named, rests, clear⟩ := plan.removeLevels valid.stacked
    have start : Forgetting book [] cancelled cleared := by
      refine ⟨fun side => ?_, clear.indexes, fun trader id => ?_, fun trader => ?_,
        clear.nextSeq, clear.frame⟩
      · rw [nil_append, named]
        exact clear.ladders side
      · simp [clear.reduceOnlyIndex]
      · rw [clear.reduceOnlyIndex]
        exact valid.ascending trader
    have length : (book.ownedIds senders).length ≤ senders.length := by simp [ownedIds]
    have seconds := map_snd_zip length
    obtain ⟨next, folded, finished⟩ := start.forgetSenders valid
      (pairs_owned book senders) (by rw [seconds]; exact named) rests []
    have listed : ((senders.zip (book.ownedIds senders)).map fun pair =>
        pair.2.filterMap book.getOrder) =
        (book.ownedIds senders).map fun ids => ids.filterMap book.getOrder := by
      conv_rhs => rw [← seconds, map_map]
      rfl
    have done : Withdrawn book cancelled next :=
      ⟨by simpa using finished.ladders, finished.indexes, finished.reduceOnly,
        finished.ascending, finished.nextSeq, finished.frame⟩
    refine ⟨next, ?_⟩
    unfold applyCancelAllMany
    dsimp only
    rw [removed]
    dsimp only
    rw [folded, listed]
    exact ⟨done, rests, named, plan.nodup, rfl⟩

theorem Valid.cancelAllMany (valid : book.Valid) (senders : List Address) :
    Lighter book (book.cancelAllMany epochFits senders).1 := by
  unfold Book.cancelAllMany
  cases planned : book.planCancelAllMany epochFits senders with
  | none =>
    dsimp only
    have loop : ∀ (out : List (List Order)) (senders : List Address) (before : Book), before.Valid →
        Lighter before (senders.foldl (fun (state : Book × List (List Order)) sender =>
          ((state.1.cancelAll epochFits sender).1,
            state.2 ++ [(state.1.cancelAll epochFits sender).2])) (before, out)).1 := by
      intro out senders before
      induction senders generalizing before out with
      | nil => exact Lighter.refl
      | cons sender senders ih =>
        intro beforeValid
        have first := beforeValid.cancelAll epochFits sender
        exact first.trans (ih _ _ first.valid)
    exact loop [] senders book valid
  | some levels =>
    obtain ⟨next, done, rests, named, nodup, applied⟩ :=
      valid.cancelAllMany_withdrawn epochFits senders planned
    rw [← named] at nodup
    have lighter := valid.withdrawn_lighter rests nodup done
    dsimp only
    rw [applied]
    exact lighter.trans (lighter.valid.retainStops_lighter _)

end CancelMany

end Book

end TorusHyperBft.OrderBook
