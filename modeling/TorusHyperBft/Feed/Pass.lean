import TorusHyperBft.Feed.Store

namespace TorusHyperBft.Feed

open List

/-! One pass of the committed-block feed.

The app's fail-stop latch and a process crash can come between any two statements of
the loop, so the pass takes what the world does around each height as an argument. -/

/-- One call of `on_committed_block`; `halted` is the latch once the call is over. -/
structure Delivery (Hash Block : Type) where
  height : Nat
  hash : Hash
  block : Block
  halted : Bool
deriving DecidableEq

structure Interference where
  crashBefore : Bool := false
  haltBefore : Bool := false
  haltDuring : Bool := false
  crashAfter : Bool := false
deriving DecidableEq

structure World where
  around : Nat → Interference
  crashBeforeWrite : Bool := false

/-- The loop's variables, the latch, and the calls made so far. -/
structure Pass (Hash Block : Type) where
  anchored : Bool
  halted : Bool
  crashed : Bool := false
  lastFed : Option Nat := none
  delivered : Nat := 0
  deliveries : List (Delivery Hash Block) := []

variable {Hash Block : Type}

def feedLoop (store : Store Hash Block) (around : Nat → Interference) :
    List Nat → Pass Hash Block → Pass Hash Block
  | [], pass => pass
  | height :: rest, pass =>
    if (around height).crashBefore then { pass with crashed := true }
    else if pass.halted || (around height).haltBefore then { pass with halted := true }
    else
      match store.blockAtHeight height with
      | none => if pass.anchored then pass else feedLoop store around rest pass
      | some hash =>
        match store.block hash with
        | none => if pass.anchored then pass else feedLoop store around rest pass
        | some block =>
          let called := { pass with
            halted := (around height).haltDuring
            deliveries := pass.deliveries ++
              [{ height, hash, block, halted := (around height).haltDuring }] }
          if (around height).crashAfter then { called with crashed := true }
          else if called.halted then called
          else feedLoop store around rest { called with
            anchored := true
            lastFed := some height
            delivered := called.delivered + 1 }

/-- What a run of the loop over `start, …, start + count - 1` did: it skipped the
unreadable heights below `first` (none if anchored), then called the app for consecutive
heights.  Only the last call can be one that is not counted. -/
structure LoopTrace (store : Store Hash Block) (start count : Nat) (before after : Pass Hash Block)
    (first : Nat) (counted refused : List (Delivery Hash Block)) : Prop where
  anchored : before.anchored = true → first = start
  skipped : start ≤ first ∧ ∀ height, start ≤ height → height < first → ¬ store.Readable height
  deliveries : after.deliveries = before.deliveries ++ (counted ++ refused)
  heights : (counted ++ refused).map Delivery.height =
    List.range' first (counted.length + refused.length)
  readable : ∀ delivery ∈ counted ++ refused, store.Readable delivery.height
  unhalted : ∀ delivery ∈ counted, delivery.halted = false
  single : refused.length ≤ 1
  ended : after.crashed = false → ∀ delivery ∈ refused, delivery.halted = true ∧ after.halted = true
  lastFed : after.lastFed =
    if counted = [] then before.lastFed else some (first + counted.length - 1)
  delivered : after.delivered = before.delivered + counted.length
  inside : first + (counted.length + refused.length) ≤ start + count
  complete : after.crashed = false → after.halted = false →
    first + counted.length = start + count ∨
      ((before.anchored = true ∨ counted ≠ []) ∧ ¬ store.Readable (first + counted.length))
  halted : before.halted = true → counted = [] ∧ refused = []
  latched : before.halted = true → after.crashed = false → after.halted = true ∨ count = 0

variable {delivery : Delivery Hash Block}

section Loop

variable {store : Store Hash Block} {around : Nat → Interference} {start count : Nat}
  {pass : Pass Hash Block}

variable {after : Pass Hash Block}

private theorem LoopTrace.quiet
    (deliveries : after.deliveries = pass.deliveries) (lastFed : after.lastFed = pass.lastFed)
    (delivered : after.delivered = pass.delivered)
    (complete : after.crashed = false → after.halted = false →
      count = 0 ∨ (pass.anchored = true ∧ ¬ store.Readable start))
    (latched : pass.halted = true → after.crashed = false → after.halted = true ∨ count = 0) :
    LoopTrace store start count pass after start [] [] where
  anchored _ := rfl
  skipped := ⟨Nat.le_refl _, fun _ _ _ => by omega⟩
  deliveries := by simp [deliveries]
  heights := rfl
  readable := by simp
  unhalted := by simp
  single := by simp
  ended := by simp
  lastFed := by simp [lastFed]
  delivered := by simp [delivered]
  inside := by simp
  complete running up := by
    rcases complete running up with none | ⟨anchored, hole⟩
    · exact Or.inl (by simp [none])
    · exact Or.inr ⟨Or.inl anchored, by simpa using hole⟩
  halted _ := ⟨rfl, rfl⟩
  latched := latched

variable {counted refused : List (Delivery Hash Block)}

private theorem LoopTrace.skip {first : Nat}
    (unanchored : pass.anchored = false) (up : pass.halted = false)
    (hole : ¬ store.Readable start)
    (rest : LoopTrace store (start + 1) count pass after first counted refused) :
    LoopTrace store start (count + 1) pass after first counted refused where
  anchored anchored := by simp [unanchored] at anchored
  skipped := by
    obtain ⟨above, holes⟩ := rest.skipped
    refine ⟨by omega, fun height lower upper => ?_⟩
    by_cases same : height = start
    · exact same ▸ hole
    · exact holes height (by omega) upper
  deliveries := rest.deliveries
  heights := rest.heights
  readable := rest.readable
  unhalted := rest.unhalted
  single := rest.single
  ended := rest.ended
  lastFed := rest.lastFed
  delivered := rest.delivered
  inside := by have := rest.inside; omega
  complete running alive := by
    rcases rest.complete running alive with all | gap
    · exact Or.inl (by omega)
    · exact Or.inr gap
  halted halted := by simp [up] at halted
  latched halted := by simp [up] at halted

private theorem LoopTrace.deliver {called after : Pass Hash Block} {first : Nat}
    (up : pass.halted = false) (height : delivery.height = start)
    (readable : store.Readable start) (unhalted : delivery.halted = false)
    (deliveries : called.deliveries = pass.deliveries ++ [delivery])
    (anchored : called.anchored = true) (lastFed : called.lastFed = some start)
    (delivered : called.delivered = pass.delivered + 1)
    (rest : LoopTrace store (start + 1) count called after first counted refused) :
    LoopTrace store start (count + 1) pass after start (delivery :: counted) refused := by
  have next : first = start + 1 := rest.anchored anchored
  subst first
  refine ⟨fun _ => rfl, ⟨Nat.le_refl _, fun _ _ _ => by omega⟩, ?_, ?_, ?_, ?_, rest.single,
    rest.ended, ?_, ?_, ?_, ?_, ?_, ?_⟩
  · rw [rest.deliveries, deliveries]; simp
  · have heights := rest.heights
    simp only [cons_append, map_cons, length_cons, height, heights]
    rw [show counted.length + 1 + refused.length = (counted.length + refused.length) + 1 by omega,
      List.range'_succ]
  · intro other member
    rcases mem_cons.mp member with rfl | member
    · exact height ▸ readable
    · exact rest.readable other member
  · intro other member
    rcases mem_cons.mp member with rfl | member
    · exact unhalted
    · exact rest.unhalted other member
  · rw [rest.lastFed, lastFed]
    by_cases none : counted = []
    · simp [none]
    · simp only [none, if_false, reduceCtorEq, length_cons]
      congr 1
      omega
  · rw [rest.delivered, delivered, length_cons]; omega
  · have := rest.inside; simp only [length_cons]; omega
  · intro running alive
    rcases rest.complete running alive with all | ⟨_, gap⟩
    · exact Or.inl (by simp only [length_cons]; omega)
    · refine Or.inr ⟨Or.inr (by simp), ?_⟩
      rwa [length_cons, show start + (counted.length + 1) = start + 1 + counted.length by omega]
  · simp [up]
  · simp [up]

private theorem LoopTrace.refuse (up : pass.halted = false) (height : delivery.height = start)
    (readable : store.Readable start)
    (deliveries : after.deliveries = pass.deliveries ++ [delivery])
    (lastFed : after.lastFed = pass.lastFed) (delivered : after.delivered = pass.delivered)
    (stopped : after.crashed = true ∨ (delivery.halted = true ∧ after.halted = true)) :
    LoopTrace store start (count + 1) pass after start [] [delivery] where
  anchored _ := rfl
  skipped := ⟨Nat.le_refl _, fun _ _ _ => by omega⟩
  deliveries := by simp [deliveries]
  heights := by simp [height]
  readable := by simpa [height] using readable
  unhalted := by simp
  single := by simp
  ended running := by
    rcases stopped with crashed | halted
    · simp [crashed] at running
    · simpa using halted
  lastFed := by simp [lastFed]
  delivered := by simp [delivered]
  inside := by simp
  complete running alive := by
    rcases stopped with crashed | halted
    · simp [crashed] at running
    · simp [halted.2] at alive
  halted halted := by simp [up] at halted
  latched halted := by simp [up] at halted

theorem feedLoop_trace (running : pass.crashed = false) :
    ∃ first counted refused, LoopTrace store start count pass
      (feedLoop store around (List.range' start count) pass) first counted refused := by
  induction count generalizing start pass with
  | zero =>
    exact ⟨start, [], [], .quiet rfl rfl rfl (fun _ _ => Or.inl rfl) (fun _ _ => Or.inr rfl)⟩
  | succ count ih =>
    rw [List.range'_succ, feedLoop]
    by_cases crash : (around start).crashBefore = true
    · rw [if_pos crash]
      exact ⟨start, [], [], .quiet rfl rfl rfl (by simp) (by simp)⟩
    rw [if_neg crash]
    by_cases halt : (pass.halted || (around start).haltBefore) = true
    · rw [if_pos halt]
      exact ⟨start, [], [], .quiet rfl rfl rfl (by simp) (by simp)⟩
    rw [if_neg halt]
    have up : pass.halted = false := by
      simp only [Bool.or_eq_true, not_or, Bool.not_eq_true] at halt
      exact halt.1
    -- Both missing-record branches of the source behave alike.
    have missing (hole : ¬ store.Readable start) : ∃ first counted refused,
        LoopTrace store start (count + 1) pass
          (if pass.anchored = true then pass
            else feedLoop store around (List.range' (start + 1) count) pass)
          first counted refused := by
      by_cases anchored : pass.anchored = true
      · rw [if_pos anchored]
        exact ⟨start, [], [], .quiet rfl rfl rfl (fun _ _ => Or.inr ⟨anchored, hole⟩)
          (by simp [up])⟩
      · rw [if_neg anchored]
        obtain ⟨first, counted, refused, trace⟩ := ih running
        exact ⟨first, counted, refused, .skip (by simpa using anchored) up hole trace⟩
    cases indexed : store.blockAtHeight start with
    | none =>
      apply missing
      simp [Store.readable_iff, indexed]
    | some hash =>
      cases recorded : store.block hash with
      | none =>
        simp only [recorded]
        apply missing
        simp [Store.readable_iff, indexed, recorded]
      | some block =>
        have readable : store.Readable start :=
          Store.readable_iff.mpr ⟨hash, block, indexed, recorded⟩
        simp only [recorded]
        by_cases crashAfter : (around start).crashAfter = true
        · rw [if_pos crashAfter]
          exact ⟨start, [], _, .refuse up rfl readable rfl rfl rfl (Or.inl rfl)⟩
        rw [if_neg crashAfter]
        by_cases during : (around start).haltDuring = true
        · rw [if_pos during]
          exact ⟨start, [], _, .refuse up rfl readable rfl rfl rfl (Or.inr ⟨during, during⟩)⟩
        rw [if_neg during]
        obtain ⟨first, counted, refused, trace⟩ := @ih (start + 1) { pass with
          anchored := true
          halted := (around start).haltDuring
          lastFed := some start
          delivered := pass.delivered + 1
          deliveries := pass.deliveries ++
            [{ height := start, hash, block, halted := (around start).haltDuring }] } running
        exact ⟨start, _, refused,
          .deliver up rfl readable (by simpa using during) rfl rfl rfl rfl trace⟩

end Loop

/-- How a pass ended: what is durable, what the app saw, whether the process is
still there to return a count. -/
structure PassResult (Hash Block : Type) where
  store : Store Hash Block
  halted : Bool
  deliveries : List (Delivery Hash Block)
  returned : Option Nat

/-- The loop from `start` up to the highest committed height, then the frontier write. -/
def feedFrom (store : Store Hash Block) (halted : Bool) (world : World) (highest start : Nat)
    (anchored : Bool) : PassResult Hash Block :=
  let pass := feedLoop store world.around (List.range' start (highest + 1 - start))
    { anchored, halted }
  if pass.crashed then
    { store, halted := pass.halted, deliveries := pass.deliveries, returned := none }
  else
    match pass.lastFed with
    | none =>
      { store, halted := pass.halted, deliveries := pass.deliveries,
        returned := some pass.delivered }
    | some fed =>
      if world.crashBeforeWrite then
        { store, halted := pass.halted, deliveries := pass.deliveries, returned := none }
      else
        { store := store.advanceAppFedBlockHeight fed, halted := pass.halted,
          deliveries := pass.deliveries, returned := some pass.delivered }

def feedCommittedBlocksToApp (store : Store Hash Block) (halted : Bool) (world : World) :
    PassResult Hash Block :=
  match store.highestCommittedBlockHeight with
  | none => { store, halted, deliveries := [], returned := some 0 }
  | some highest =>
    match store.appFedBlockHeight with
    | some fed =>
      if highest ≤ fed then { store, halted, deliveries := [], returned := some 0 }
      else feedFrom store halted world highest (fed + 1) true
    | none => feedFrom store halted world highest (store.blockTreePrunedHeight.getD 0) false

/-- The boot reconciliation: lower the fed frontier to just below what the app asks
for, if every height in between can be read. -/
def lowerFedFrontierToApp (store : Store Hash Block) (resume : Option Nat) :
    Store Hash Block × Bool :=
  match resume, store.appFedBlockHeight with
  | none, _ => (store, false)
  | some _, none => (store, false)
  | some resume, some fed =>
    if fed < resume then (store, false)
    else if ∀ height ∈ List.range' resume (fed + 1 - resume), store.Readable height then
      match resume with
      | 0 => (store.resetAppFedBlockHeight, true)
      | below + 1 => (store.advanceAppFedBlockHeight below, true)
    else (store, false)

def bootFeedCommittedBlocksToApp (store : Store Hash Block) (resume : Option Nat)
    (crashAfterLower : Bool) (world : World) : PassResult Hash Block :=
  let lowered := (lowerFedFrontierToApp store resume).1
  if crashAfterLower then { store := lowered, halted := false, deliveries := [], returned := none }
  else feedCommittedBlocksToApp lowered false world

/-- A pass from a tidy store.  Its calls continue right above the frontier; with no
frontier they start at the lowest height that can be read.  The frontier moves, if at
all, to the last counted call. -/
structure PassTrace (store : Store Hash Block) (latch : Bool) (result : PassResult Hash Block)
    (first : Nat) (counted refused : List (Delivery Hash Block)) : Prop where
  deliveries : result.deliveries = counted ++ refused
  heights : (counted ++ refused).map Delivery.height =
    List.range' first (counted.length + refused.length)
  readable : ∀ delivery ∈ counted ++ refused, store.Readable delivery.height
  unhalted : ∀ delivery ∈ counted, delivery.halted = false
  single : refused.length ≤ 1
  ended : result.returned.isSome → ∀ delivery ∈ refused,
    delivery.halted = true ∧ result.halted = true
  fromFrontier : ∀ fed, store.appFedBlockHeight = some fed → first = fed + 1
  fromLowest : store.appFedBlockHeight = none → ∀ height, height < first → ¬ store.Readable height
  store_eq : result.store = store ∨
    (counted ≠ [] ∧ result.store = store.advanceAppFedBlockHeight (first + counted.length - 1))
  written : result.returned.isSome → result.store.appFedBlockHeight =
    if counted = [] then store.appFedBlockHeight else some (first + counted.length - 1)
  halted : latch = true → counted = [] ∧ refused = []
  latched : latch = true → result.returned.isSome → result.halted = true
  complete : result.returned.isSome → result.halted = false →
    ∀ highest, store.highestCommittedBlockHeight = some highest →
      ∃ fed, result.store.appFedBlockHeight = some fed ∧
        (highest ≤ fed ∨ ¬ store.Readable (fed + 1))

section Feed

variable {store : Store Hash Block} {halted : Bool} {world : World} {highest start : Nat}
  {anchored : Bool}

theorem feedFrom_cases (store : Store Hash Block) (halted : Bool) (world : World)
    (highest start : Nat) (anchored : Bool) :
    ∃ pass, pass = feedLoop store world.around (List.range' start (highest + 1 - start))
        { anchored, halted } ∧
      ∃ returned after, feedFrom store halted world highest start anchored =
          { store := after, halted := pass.halted, deliveries := pass.deliveries, returned } ∧
        ((returned = none ∧ after = store) ∨
          (returned = some pass.delivered ∧ pass.crashed = false ∧
            ((pass.lastFed = none ∧ after = store) ∨
              ∃ fed, pass.lastFed = some fed ∧ after = store.advanceAppFedBlockHeight fed))) := by
  refine ⟨_, rfl, ?_⟩
  simp only [feedFrom]
  generalize feedLoop store world.around (List.range' start (highest + 1 - start))
    { anchored, halted } = pass
  cases crashed : pass.crashed with
  | true => exact ⟨none, store, rfl, Or.inl ⟨rfl, rfl⟩⟩
  | false =>
    cases lastFed : pass.lastFed with
    | none =>
      exact ⟨some pass.delivered, store, rfl, Or.inr ⟨rfl, rfl, Or.inl ⟨rfl, rfl⟩⟩⟩
    | some fed =>
      cases world.crashBeforeWrite with
      | true => exact ⟨none, store, rfl, Or.inl ⟨rfl, rfl⟩⟩
      | false =>
        exact ⟨some pass.delivered, _, rfl, Or.inr ⟨rfl, rfl, Or.inr ⟨fed, rfl, rfl⟩⟩⟩

theorem feedFrom_trace (committed : store.highestCommittedBlockHeight = some highest)
    (reaches : start ≤ highest) (top : store.Readable highest)
    (fromFrontier : ∀ fed, store.appFedBlockHeight = some fed → anchored = true ∧ start = fed + 1)
    (fromLowest : store.appFedBlockHeight = none →
      anchored = false ∧ ∀ height, height < start → ¬ store.Readable height) :
    ∃ first counted refused,
      PassTrace store halted (feedFrom store halted world highest start anchored)
        first counted refused := by
  obtain ⟨pass, loop, returned, after, result, outcome⟩ :=
    feedFrom_cases store halted world highest start anchored
  obtain ⟨first, counted, refused, trace⟩ := @feedLoop_trace _ _ store world.around start
    (highest + 1 - start) { anchored, halted } rfl
  rw [← loop] at trace
  have inside := trace.inside
  have anchoredFirst : anchored = true → first = start := trace.anchored
  have lowest : store.appFedBlockHeight = none →
      ∀ height, height < first → ¬ store.Readable height := by
    intro unset height below
    by_cases lower : height < start
    · exact (fromLowest unset).2 height lower
    · exact trace.skipped.2 height (by omega) below
  have fed := trace.lastFed
  rw [result]
  refine ⟨first, counted, refused, by simpa using trace.deliveries, trace.heights, trace.readable,
    trace.unhalted, trace.single, ?_, ?_, lowest, ?_, ?_, trace.halted, ?_, ?_⟩
  · intro isReturned
    rcases outcome with ⟨rfl, _⟩ | ⟨_, alive, _⟩
    · simp at isReturned
    · exact trace.ended alive
  · intro fed stored
    obtain ⟨anchored, start_eq⟩ := fromFrontier fed stored
    rw [anchoredFirst anchored, start_eq]
  · rcases outcome with ⟨_, same⟩ | ⟨_, _, ⟨_, same⟩ | ⟨last, lastFed, advanced⟩⟩
    · exact Or.inl same
    · exact Or.inl same
    · rw [lastFed] at fed
      split at fed
      · contradiction
      · rename_i counts
        exact Or.inr ⟨counts, by rw [advanced, Option.some.inj fed]⟩
  · intro isReturned
    rcases outcome with ⟨rfl, _⟩ | ⟨_, _, ⟨unfed, same⟩ | ⟨last, lastFed, advanced⟩⟩
    · simp at isReturned
    · rw [unfed] at fed
      split at fed
      · rename_i none
        simp [none, same]
      · contradiction
    · rw [lastFed] at fed
      split at fed
      · contradiction
      · rename_i counts
        simp [counts, advanced, Store.advanceAppFedBlockHeight, Option.some.inj fed]
  · intro wasHalted isReturned
    rcases outcome with ⟨rfl, _⟩ | ⟨_, alive, _⟩
    · simp at isReturned
    · rcases trace.latched wasHalted alive with halted | none
      · exact halted
      · omega
  · intro isReturned up top' committed'
    obtain rfl : highest = top' := Option.some.inj (committed.symm.trans committed')
    rcases outcome with ⟨rfl, _⟩ | ⟨_, alive, written⟩
    · simp at isReturned
    have finished := trace.complete alive up
    rcases written with ⟨unfed, same⟩ | ⟨last, lastFed, advanced⟩
    · -- No call was counted, so the loop stopped at a hole right above a stored frontier.
      have none : counted = [] := by
        by_contra counts
        rw [unfed, if_neg counts] at fed
        contradiction
      simp only [none, length_nil, Nat.add_zero, ne_eq, not_true_eq_false, or_false]
        at finished
      cases stored : store.appFedBlockHeight with
      | none =>
        rcases finished with all | ⟨isAnchored, hole⟩
        · exact absurd top (lowest stored highest (by omega))
        · exact absurd ((fromLowest stored).1.symm.trans isAnchored) (by simp)
      | some fed =>
        obtain ⟨isAnchored, start_eq⟩ := fromFrontier fed stored
        have first_eq := anchoredFirst isAnchored
        refine ⟨fed, by rw [same, stored], ?_⟩
        rcases finished with all | ⟨_, hole⟩
        · omega
        · exact Or.inr (by rwa [first_eq, start_eq] at hole)
    · have counts : counted ≠ [] := by
        rintro none
        rw [lastFed, if_pos none] at fed
        contradiction
      have length_pos : 0 < counted.length := length_pos_iff.mpr counts
      rw [lastFed, if_neg counts] at fed
      have last_eq : last = first + counted.length - 1 := Option.some.inj fed
      refine ⟨last, by rw [advanced]; rfl, ?_⟩
      rcases finished with all | ⟨_, hole⟩
      · omega
      · exact Or.inr (by rwa [last_eq, show first + counted.length - 1 + 1 = first + counted.length
          by omega])

section Trace

variable {result : PassResult Hash Block} {first : Nat}
  {counted refused : List (Delivery Hash Block)}

variable (trace : PassTrace store halted result first counted refused)
include trace

theorem PassTrace.first_readable (calls : counted ++ refused ≠ []) : store.Readable first := by
  have heights := trace.heights
  rw [← length_append] at heights
  cases all : counted ++ refused with
  | nil => exact absurd all calls
  | cons delivery rest =>
    rw [all, map_cons, length_cons, List.range'_succ] at heights
    have first_eq : delivery.height = first := (List.cons.inj heights).1
    exact first_eq ▸ trace.readable delivery (by simp [all])

theorem PassTrace.counted_heights :
    counted.map Delivery.height = List.range' first counted.length := by
  have heights := trace.heights
  rw [map_append, ← List.range'_append_1] at heights
  exact append_inj_left heights (by simp)

theorem PassTrace.counted_taken {height : Nat}
    (above : first ≤ height) (below : height < first + counted.length) :
    ∃ delivery ∈ counted, delivery.height = height ∧ delivery.halted = false := by
  have member : height ∈ counted.map Delivery.height := by
    rw [trace.counted_heights]
    exact List.mem_range'_1.mpr ⟨above, below⟩
  obtain ⟨delivery, inCounted, same⟩ := mem_map.mp member
  exact ⟨delivery, inCounted, same, trace.unhalted delivery inCounted⟩

theorem PassTrace.last_counted {earlier : List (Delivery Hash Block)}
    (split : counted = earlier ++ [delivery]) :
    delivery.height = first + counted.length - 1 := by
  have heights := trace.counted_heights
  rw [split, map_append, length_append, map_singleton, length_singleton,
    List.range'_1_concat] at heights
  have last := (List.append_inj' heights rfl).2
  have same : delivery.height = first + earlier.length := (List.cons.inj last).1
  rw [same, split, length_append, length_singleton]
  omega

theorem PassTrace.refused_height
    (member : delivery ∈ refused) : delivery.height = first + counted.length := by
  have heights := trace.heights
  rw [map_append, ← List.range'_append_1] at heights
  have tail := append_inj_right heights (by simp)
  have single := trace.single
  match refused, member, single with
  | [only], member, _ =>
    rw [mem_singleton] at member
    rw [member]
    simpa using tail

theorem PassTrace.head_height
    (called : result.deliveries.head? = some delivery) : delivery.height = first := by
  have heights := congrArg List.head? trace.heights
  rw [← trace.deliveries, List.head?_map, called, List.head?_range'] at heights
  split at heights
  · contradiction
  · exact Option.some.inj heights

end Trace

private theorem PassTrace.idle
    (caughtUp : ∀ highest, store.highestCommittedBlockHeight = some highest →
      ∃ fed, store.appFedBlockHeight = some fed ∧ highest ≤ fed) :
    ∃ first counted refused, PassTrace store halted
      { store, halted, deliveries := [], returned := some 0 } first counted refused := by
  cases fed : store.appFedBlockHeight with
  | none =>
    refine ⟨0, [], [], rfl, rfl, by simp, by simp, by simp, by simp, by simp [fed], by simp,
      Or.inl rfl, by simp, by simp, fun wasHalted _ => wasHalted, ?_⟩
    intro _ _ highest committed
    obtain ⟨fed, stored, reached⟩ := caughtUp highest committed
    exact ⟨fed, stored, Or.inl reached⟩
  | some fed' =>
    refine ⟨fed' + 1, [], [], rfl, rfl, by simp, by simp, by simp, by simp, by simp [fed],
      by simp [fed], Or.inl rfl, by simp, by simp, fun wasHalted _ => wasHalted, ?_⟩
    intro _ _ highest committed
    obtain ⟨fed, stored, reached⟩ := caughtUp highest committed
    exact ⟨fed, stored, Or.inl reached⟩

theorem feedCommittedBlocksToApp_trace (tidy : store.Tidy) :
    ∃ first counted refused,
      PassTrace store halted (feedCommittedBlocksToApp store halted world)
        first counted refused := by
  unfold feedCommittedBlocksToApp
  cases committed : store.highestCommittedBlockHeight with
  | none => exact PassTrace.idle (by simp [committed])
  | some highest =>
    obtain ⟨low, bounded, pruned, inside⟩ := tidy.window committed
    have top : store.Readable highest := (inside highest).mpr ⟨bounded, Nat.le_refl _⟩
    cases fed : store.appFedBlockHeight with
    | none =>
      refine feedFrom_trace committed (by omega) top (by simp [fed]) fun _ => ⟨rfl, ?_⟩
      intro height below readable
      have := (inside height).mp readable
      omega
    | some fed' =>
      by_cases done : highest ≤ fed'
      · simp only [done, if_true]
        apply PassTrace.idle
        intro top committed'
        rw [committed, Option.some.injEq] at committed'
        exact ⟨fed', fed, committed' ▸ done⟩
      · simp only [done, if_false]
        refine feedFrom_trace committed (by omega) top ?_ (by simp [fed])
        intro other stored
        rw [fed, Option.some.injEq] at stored
        exact ⟨rfl, by omega⟩

end Feed

section Boot

variable {store : Store Hash Block} {resume : Option Nat}

/-- The boot step changes nothing, or it lowers the frontier to just below a height at
or under it from which every fed height can still be read. -/
theorem lowerFedFrontierToApp_cases (store : Store Hash Block) (resume : Option Nat) :
    lowerFedFrontierToApp store resume = (store, false) ∨
      ∃ target fed, resume = some target ∧ store.appFedBlockHeight = some fed ∧ target ≤ fed ∧
        (∀ height, target ≤ height → height ≤ fed → store.Readable height) ∧
        lowerFedFrontierToApp store resume =
          ({ store with appFedBlockHeight := if target = 0 then none else some (target - 1) }, true) := by
  unfold lowerFedFrontierToApp
  cases resume with
  | none => exact Or.inl rfl
  | some target =>
    cases stored : store.appFedBlockHeight with
    | none => exact Or.inl rfl
    | some fed =>
      by_cases below : fed < target
      · exact Or.inl (by simp [below])
      · simp only [below, if_false]
        by_cases readable : ∀ height ∈ List.range' target (fed + 1 - target), store.Readable height
        · rw [if_pos readable]
          refine Or.inr ⟨target, fed, rfl, rfl, by omega, ?_, ?_⟩
          · intro height lower upper
            exact readable height (List.mem_range'_1.mpr (by omega))
          · cases target with
            | zero => rfl
            | succ below => rfl
        · exact Or.inl (by rw [if_neg readable])

theorem lowerFedFrontierToApp_tidy (tidy : store.Tidy) :
    (lowerFedFrontierToApp store resume).1.Tidy := by
  rcases lowerFedFrontierToApp_cases store resume with
    same | ⟨_, _, _, _, _, _, lowered⟩
  · rw [same]; exact tidy
  · rw [lowered]
    exact ⟨⟨tidy.recorded, tidy.distinct⟩, tidy.uncommitted, tidy.window⟩

end Boot

end TorusHyperBft.Feed
