import TorusHyperBft.Feed.History

namespace TorusHyperBft.Feed

open List Store

/-! A node that commits, feeds, halts, crashes and boots in any order.

The store and the history survive a crash; the process and the app's fail-stop latch do
not.  A boot runs the reconciliation and a feed pass before anything else. -/

structure Node (Hash Block : Type) where
  store : Store Hash Block
  running : Bool
  halted : Bool
  history : List (Entry Hash Block)

inductive Action (Hash Block : Type) where
  | commit (first : Nat) (blocks : List (Hash × Block)) (retention : Option Nat)
  | feed (world : World)
  | failStop
  | crash
  | boot (resume : Option Nat) (crashAfterLower : Bool) (world : World)

namespace Node

variable {Hash Block : Type}

def afterPass (node : Node Hash Block) (result : PassResult Hash Block) : Node Hash Block where
  store := result.store
  running := result.returned.isSome
  halted := result.halted
  history := node.history ++ result.deliveries.map .delivered

def feed (node : Node Hash Block) (world : World) : Node Hash Block :=
  node.afterPass (feedCommittedBlocksToApp node.store node.halted world)

def boot (node : Node Hash Block) (resume : Option Nat) (crashAfterLower : Bool) (world : World) :
    Node Hash Block :=
  afterPass { node with history := node.history ++ [.booted] }
    (bootFeedCommittedBlocksToApp node.store resume crashAfterLower world)

/-- A store the feed has never written to, with no process on it yet. -/
structure Initial (node : Node Hash Block) : Prop where
  tidy : node.store.Tidy
  unfed : node.store.appFedBlockHeight = none
  history : node.history = []
  stopped : node.running = false

/-- What every step keeps.  With a frontier stored, all heights from the first delivered
one up to it were taken in; with none, so were those below the lowest readable height. -/
structure Consistent (node : Node Hash Block) : Prop where
  tidy : node.store.Tidy
  preceded : Preceded node.history
  ascending : Ascending node.history
  committed : ∀ height ∈ heights node.history,
    ∃ highest, node.store.highestCommittedBlockHeight = some highest ∧ height ≤ highest
  lowest : ∀ first, (heights node.history).head? = some first →
    ∀ height, node.store.Readable height → first ≤ height
  fed : ∀ fed, node.store.appFedBlockHeight = some fed →
    ∃ first, (heights node.history).head? = some first ∧ first ≤ fed + 1 ∧
      (∀ height, first ≤ height → height ≤ fed → Taken node.history height) ∧
      ∃ highest, node.store.highestCommittedBlockHeight = some highest ∧ fed ≤ highest
  unfed : node.store.appFedBlockHeight = none →
    ∀ first, (heights node.history).head? = some first →
      ∀ low, (∀ height, height < low → ¬ node.store.Readable height) → node.store.Readable low →
        ∀ height, first ≤ height → height < low → Taken node.history height
  current : node.running = true → node.halted = false →
    ∀ before last, node.history = before ++ [.delivered last] →
      node.store.appFedBlockHeight = some last.height

theorem Initial.consistent {node : Node Hash Block} (initial : node.Initial) : node.Consistent where
  tidy := initial.tidy
  preceded := by simp [initial.history, Preceded]
  ascending := by simp [initial.history, Ascending]
  committed := by simp [initial.history]
  lowest := by simp [initial.history]
  fed := by simp [initial.unfed]
  unfed := by simp [initial.history]
  current := by simp [initial.stopped]

variable {before : List (Entry Hash Block)} {last : Delivery Hash Block}

section Pass

variable {node : Node Hash Block} {result : PassResult Hash Block} {first : Nat}
  {counted refused : List (Delivery Hash Block)}

theorem Consistent.taken_below (consistent : node.Consistent)
    (trace : PassTrace node.store node.halted result first counted refused)
    (calls : counted ++ refused ≠ []) {start : Nat}
    (head : (heights node.history).head? = some start) :
    start ≤ first ∧ ∀ height, start ≤ height → height < first → Taken node.history height := by
  cases stored : node.store.appFedBlockHeight with
  | some fed =>
    obtain ⟨start', head', near, taken, _⟩ := consistent.fed fed stored
    obtain rfl : start' = start := Option.some.inj (head'.symm.trans head)
    have next := trace.fromFrontier fed stored
    exact ⟨by omega, fun height above below => taken height above (by omega)⟩
  | none =>
    have readable := trace.first_readable calls
    exact ⟨consistent.lowest start head first readable,
      consistent.unfed stored start head first (trace.fromLowest stored) readable⟩

theorem Consistent.adjacent (consistent : node.Consistent) (running : node.running = true)
    (trace : PassTrace node.store node.halted result first counted refused)
    (calls : counted ++ refused ≠ []) (split : node.history = before ++ [.delivered last]) :
    first = last.height + 1 := by
  have up : node.halted = false := by
    by_contra halted
    obtain ⟨noCounted, noRefused⟩ := trace.halted (by simpa using halted)
    exact calls (by simp [noCounted, noRefused])
  exact trace.fromFrontier _ (consistent.current running up before last split)

variable (trace : PassTrace node.store node.halted result first counted refused)
include trace

theorem afterPass_history :
    (node.afterPass result).history = node.history ++ (counted ++ refused).map .delivered := by
  rw [afterPass, trace.deliveries]

theorem afterPass_readable
    (height : Nat) :
    (node.afterPass result).store.Readable height ↔ node.store.Readable height := by
  rcases trace.store_eq with same | ⟨_, advanced⟩
  · rw [afterPass, same]
  · rw [afterPass, advanced]; rfl

theorem afterPass_highest : (node.afterPass result).store.highestCommittedBlockHeight =
      node.store.highestCommittedBlockHeight := by
  rcases trace.store_eq with same | ⟨_, advanced⟩
  · rw [afterPass, same]
  · rw [afterPass, advanced]; rfl

omit trace

theorem afterPass_tidy (tidy : node.store.Tidy)
    (trace : PassTrace node.store node.halted result first counted refused) :
    (node.afterPass result).store.Tidy := by
  rcases trace.store_eq with same | ⟨_, advanced⟩
  · rw [afterPass, same]; exact tidy
  · rw [afterPass, advanced]
    exact ⟨⟨tidy.recorded, tidy.distinct⟩, tidy.uncommitted, tidy.window⟩

theorem afterPass_head {start : Nat}
    (trace : PassTrace node.store node.halted result first counted refused)
    (head : (heights (node.afterPass result).history).head? = some start) :
    (heights node.history).head? = some start ∨
      ((heights node.history).head? = none ∧ counted ++ refused ≠ [] ∧ start = first) := by
  rw [afterPass_history trace, heights_append, heights_map_delivered, trace.heights,
    List.head?_append, List.head?_range'] at head
  cases earlier : (heights node.history).head? with
  | some found => exact Or.inl (by simpa [earlier] using head)
  | none =>
    rw [earlier, Option.none_or] at head
    split at head
    · contradiction
    · rename_i calls
      refine Or.inr ⟨rfl, fun none => calls ?_, (Option.some.inj head).symm⟩
      rw [← length_append, none, length_nil]

theorem afterPass_head_some {start : Nat}
    (trace : PassTrace node.store node.halted result first counted refused)
    (head : (heights node.history).head? = some start) :
    (heights (node.afterPass result).history).head? = some start := by
  rw [afterPass_history trace, heights_append, List.head?_append, head, Option.some_or]

variable (consistent : node.Consistent)
include consistent

theorem Consistent.no_frontier
    (empty : (heights node.history).head? = none) : node.store.appFedBlockHeight = none := by
  cases stored : node.store.appFedBlockHeight with
  | none => rfl
  | some fed =>
    obtain ⟨start, head, _⟩ := consistent.fed fed stored
    rw [empty] at head
    contradiction

theorem Consistent.below_highest {height : Nat} (readable : node.store.Readable height) :
    ∃ highest, node.store.highestCommittedBlockHeight = some highest ∧ height ≤ highest := by
  cases stored : node.store.highestCommittedBlockHeight with
  | none =>
    obtain ⟨_, _, indexed, _⟩ := readable_iff.mp readable
    simp [(consistent.tidy.uncommitted stored).1 height] at indexed
  | some highest =>
    obtain ⟨_, _, _, inside⟩ := consistent.tidy.window stored
    exact ⟨highest, rfl, ((inside height).mp readable).2⟩

theorem afterPass_fed
    (trace : PassTrace node.store node.halted result first counted refused) {fed : Nat}
    (stored : (node.afterPass result).store.appFedBlockHeight = some fed) :
    ∃ start, (heights (node.afterPass result).history).head? = some start ∧ start ≤ fed + 1 ∧
      (∀ height, start ≤ height → height ≤ fed → Taken (node.afterPass result).history height) ∧
      ∃ highest, node.store.highestCommittedBlockHeight = some highest ∧ fed ≤ highest := by
  have history := afterPass_history trace
  rcases trace.store_eq with same | ⟨counts, advanced⟩
  · rw [afterPass, same] at stored
    obtain ⟨start, head, near, taken, reached⟩ := consistent.fed fed stored
    refine ⟨start, afterPass_head_some trace head, near, fun height above below => ?_, reached⟩
    exact history ▸ (taken height above below).append _
  · rw [afterPass, advanced] at stored
    have fed_eq : first + counted.length - 1 = fed := Option.some.inj stored
    have length_pos : 0 < counted.length := length_pos_iff.mpr counts
    have calls : counted ++ refused ≠ [] := by simp [counts]
    have own : ∀ height, first ≤ height → height ≤ fed →
        Taken (node.afterPass result).history height := by
      intro height above below
      obtain ⟨delivery, member, same, unhalted⟩ := trace.counted_taken above (by omega)
      refine ⟨delivery, ?_, same, unhalted⟩
      rw [history]
      exact mem_append_right _ (mem_map_of_mem (mem_append_left _ member))
    have reached : ∃ highest, node.store.highestCommittedBlockHeight = some highest ∧
        fed ≤ highest := by
      obtain ⟨delivery, member, same, _⟩ :=
        @PassTrace.counted_taken _ _ _ _ _ _ _ _ trace fed (by omega) (by omega)
      exact consistent.below_highest (same ▸ trace.readable delivery (mem_append_left _ member))
    cases head : (heights node.history).head? with
    | some start =>
      obtain ⟨lower, taken⟩ := consistent.taken_below trace calls head
      refine ⟨start, afterPass_head_some trace head, by omega, fun height above below => ?_, reached⟩
      by_cases older : height < first
      · exact history ▸ (taken height above older).append _
      · exact own height (by omega) below
    | none =>
      refine ⟨first, ?_, by omega, own, reached⟩
      rw [history, heights_append, heights_map_delivered, trace.heights, List.head?_append, head,
        Option.none_or, List.head?_range', if_neg (by omega)]

theorem afterPass_unfed (trace : PassTrace node.store node.halted result first counted refused)
    (unset : (node.afterPass result).store.appFedBlockHeight = none) {start low : Nat}
    (head : (heights (node.afterPass result).history).head? = some start)
    (holes : ∀ height, height < low → ¬ node.store.Readable height)
    (readable : node.store.Readable low) {height : Nat} (above : start ≤ height)
    (below : height < low) : Taken (node.afterPass result).history height := by
  have same : result.store = node.store := by
    rcases trace.store_eq with same | ⟨_, advanced⟩
    · exact same
    · rw [afterPass, advanced] at unset; contradiction
  rw [afterPass, same] at unset
  rcases afterPass_head trace head with earlier | ⟨_, calls, rfl⟩
  · have taken := consistent.unfed unset start earlier low holes readable height above below
    exact afterPass_history trace ▸ taken.append _
  · exact absurd (trace.first_readable calls) (holes start (by omega))

theorem afterPass_current (running : node.running = true)
    (trace : PassTrace node.store node.halted result first counted refused)
    (returned : result.returned.isSome) (up : result.halted = false)
    (split : (node.afterPass result).history = before ++ [.delivered last]) :
    result.store.appFedBlockHeight = some last.height := by
  have noRefused : refused = [] := by
    cases refused with
    | nil => rfl
    | cons delivery rest =>
      have := (trace.ended returned delivery (by simp)).2
      rw [up] at this
      contradiction
  have wasUp : node.halted = false := by
    by_contra halted
    rw [trace.latched (by simpa using halted) returned] at up
    contradiction
  rw [afterPass_history trace, noRefused, append_nil] at split
  rw [trace.written returned]
  rcases eq_nil_or_concat counted with none | ⟨earlier, final, concat⟩
  · rw [none, map_nil, append_nil] at split
    rw [if_pos none]
    exact consistent.current running wasUp before last split
  · rw [concat_eq_append] at concat
    have counts : counted ≠ [] := by simp [concat]
    rw [if_neg counts, ← trace.last_counted concat]
    rw [concat, map_append, ← append_assoc] at split
    have same := (List.append_inj' split rfl).2
    cases same
    rfl

theorem afterPass_consistent (running : node.running = true)
    (trace : PassTrace node.store node.halted result first counted refused) :
    (node.afterPass result).Consistent := by
  have history := afterPass_history trace
  obtain ⟨preceded, ascending⟩ := append_deliveries consistent.preceded consistent.ascending
    (by rw [trace.heights, length_append])
    (fun calls start head => by
      obtain ⟨lower, taken⟩ := consistent.taken_below trace calls head
      exact ⟨lower, fun above => (taken (first - 1) (by omega) (by omega)).mem_heights⟩)
    (fun calls before last split => consistent.adjacent running trace calls split)
  refine ⟨afterPass_tidy consistent.tidy trace, history ▸ preceded, history ▸ ascending,
    ?_, ?_, ?_, ?_, ?_⟩
  · intro height member
    rw [afterPass_highest trace]
    rw [history, heights_append, heights_map_delivered, mem_append] at member
    rcases member with earlier | new
    · exact consistent.committed height earlier
    · obtain ⟨delivery, member, rfl⟩ := mem_map.mp new
      exact consistent.below_highest (trace.readable delivery member)
  · intro start head height readable
    rw [afterPass_readable trace] at readable
    rcases afterPass_head trace head with earlier | ⟨empty, calls, rfl⟩
    · exact consistent.lowest start earlier height readable
    · by_contra below
      exact trace.fromLowest (consistent.no_frontier empty) height (by omega) readable
  · intro fed stored
    rw [afterPass_highest trace]
    exact afterPass_fed consistent trace stored
  · intro unset start head low holes readable height above below
    rw [afterPass_readable trace] at readable
    exact afterPass_unfed consistent trace unset head
      (fun other lower found => holes other lower ((afterPass_readable trace other).mpr found))
      readable above below
  · intro returned up before last split
    exact afterPass_current consistent running trace returned up split

theorem feed_consistent {world : World}
    (running : node.running = true) : (node.feed world).Consistent := by
  obtain ⟨_, _, _, trace⟩ :=
    @feedCommittedBlocksToApp_trace _ _ node.store node.halted world consistent.tidy
  exact afterPass_consistent consistent running trace

end Pass

section Contract

variable {node : Node Hash Block} {result : PassResult Hash Block} {first : Nat}
  {counted refused : List (Delivery Hash Block)}

theorem afterPass_haltedUncounted
    (trace : PassTrace node.store node.halted result first counted refused)
    {delivery : Delivery Hash Block} (member : delivery ∈ result.deliveries)
    (halted : delivery.halted = true) {fed : Nat}
    (stored : (node.afterPass result).store.appFedBlockHeight = some fed) :
    fed < delivery.height := by
  rw [trace.deliveries] at member
  have isRefused : delivery ∈ refused := by
    rcases mem_append.mp member with inCounted | inRefused
    · rw [trace.unhalted delivery inCounted] at halted
      contradiction
    · exact inRefused
  have height := trace.refused_height isRefused
  rcases trace.store_eq with same | ⟨counts, advanced⟩
  · rw [afterPass, same] at stored
    have := trace.fromFrontier fed stored
    omega
  · rw [afterPass, advanced] at stored
    have fed_eq : first + counted.length - 1 = fed := Option.some.inj stored
    have := length_pos_iff.mpr counts
    omega

theorem afterPass_caughtUp (consistent : node.Consistent) (running : node.running = true)
    (trace : PassTrace node.store node.halted result first counted refused)
    (returned : result.returned.isSome) (up : result.halted = false)
    (readable : ∀ fed, (node.afterPass result).store.appFedBlockHeight = some fed →
      ∀ height, fed < height →
        (∃ highest, node.store.highestCommittedBlockHeight = some highest ∧ height ≤ highest) →
        node.store.Readable height) :
    (node.afterPass result).store.appFedBlockHeight = node.store.highestCommittedBlockHeight := by
  have after := afterPass_consistent consistent running trace
  cases committed : node.store.highestCommittedBlockHeight with
  | none =>
    cases stored : (node.afterPass result).store.appFedBlockHeight with
    | none => rfl
    | some fed =>
      obtain ⟨_, _, _, _, highest, found, _⟩ := after.fed fed stored
      rw [afterPass_highest trace, committed] at found
      contradiction
  | some highest =>
    obtain ⟨fed, stored, finished⟩ := trace.complete returned up highest committed
    obtain ⟨_, _, _, _, top, found, below⟩ := after.fed fed stored
    rw [afterPass_highest trace, committed] at found
    have top_eq : highest = top := Option.some.inj found
    have reached : highest ≤ fed := by
      by_contra short
      rcases finished with done | hole
      · exact short done
      · exact hole (readable fed stored (fed + 1) (by omega) ⟨highest, committed, by omega⟩)
    rw [afterPass, stored]
    congr 1
    omega

end Contract

section Boot

variable {node : Node Hash Block} {resume : Option Nat} {world : World}

def restart (node : Node Hash Block) (resume : Option Nat) : Node Hash Block where
  store := (lowerFedFrontierToApp node.store resume).1
  running := true
  halted := false
  history := node.history ++ [.booted]

theorem boot_eq_feed : node.boot resume false world = (node.restart resume).feed world := rfl

theorem boot_history : (node.boot resume false world).history = node.history ++
    (.booted :: (feedCommittedBlocksToApp (node.restart resume).store
      (node.restart resume).halted world).deliveries.map .delivered) := by
  rw [boot_eq_feed, feed, afterPass]
  simp [restart]

theorem boot_crash :
    node.boot resume true world = { node.restart resume with running := false } := by
  simp [boot, afterPass, bootFeedCommittedBlocksToApp, restart]

@[simp] theorem restart_heights : heights (node.restart resume).history = heights node.history := by
  simp [restart]

theorem restart_taken {height : Nat} (taken : Taken node.history height) :
    Taken (node.restart resume).history height :=
  taken.append [.booted]

theorem restart_fresh_process
    (split : (node.restart resume).history = before ++ [.delivered last]) : False := by
  have same := (List.append_inj' split rfl).2
  simp at same

variable (consistent : node.Consistent)
include consistent

theorem restart_consistent : (node.restart resume).Consistent := by
  have tidy := @lowerFedFrontierToApp_tidy _ _ node.store resume consistent.tidy
  rcases lowerFedFrontierToApp_cases node.store resume with
    same | ⟨target, fed, _, stored, lower, readable, lowered⟩
  · have store_eq : (node.restart resume).store = node.store := by rw [restart, same]
    refine ⟨tidy, consistent.preceded.boot, consistent.ascending.boot, ?_, ?_, ?_, ?_, ?_⟩
    · rw [restart_heights, store_eq]
      exact consistent.committed
    · rw [restart_heights, store_eq]
      exact consistent.lowest
    · rw [restart_heights, store_eq]
      intro fed stored
      obtain ⟨first, head, near, taken, reached⟩ := consistent.fed fed stored
      exact ⟨first, head, near,
        fun height above below => restart_taken (taken height above below), reached⟩
    · rw [restart_heights, store_eq]
      intro unset first head low holes readable height above below
      exact restart_taken (consistent.unfed unset first head low holes readable height above below)
    · intro _ _ before last split
      exact absurd split restart_fresh_process
  · obtain ⟨first, head, _, taken, highest, committed, reached⟩ := consistent.fed fed stored
    have firstBelow : first ≤ target :=
      consistent.lowest first head target (readable target (Nat.le_refl _) lower)
    have store_eq : (node.restart resume).store =
        { node.store with appFedBlockHeight := if target = 0 then none else some (target - 1) } := by
      rw [restart, lowered]
    refine ⟨tidy, consistent.preceded.boot, consistent.ascending.boot, ?_, ?_, ?_, ?_, ?_⟩
    · rw [restart_heights, store_eq]
      exact consistent.committed
    · rw [restart_heights, store_eq]
      exact consistent.lowest
    · rw [restart_heights, store_eq]
      intro frontier stored
      split at stored
      · contradiction
      · have : target - 1 = frontier := Option.some.inj stored
        exact ⟨first, head, by omega, fun height above below =>
          restart_taken (taken height above (by omega)), highest, committed, by omega⟩
    · -- The whole chain from height 0 can be read, so nothing lies below it.
      rw [restart_heights, store_eq]
      intro unset first head low holes _ height above below
      split at unset
      · exact absurd (readable 0 (by omega) (by omega)) (holes 0 (by omega))
      · contradiction
    · intro _ _ before last split
      exact absurd split restart_fresh_process

theorem stop_consistent : { node with running := false }.Consistent :=
  { consistent with current := by simp }

theorem failStop_consistent : { node with halted := true }.Consistent :=
  { consistent with current := by simp }

theorem boot_consistent {crashAfterLower : Bool} :
    (node.boot resume crashAfterLower world).Consistent := by
  have restarted := @restart_consistent _ _ _ resume consistent
  cases crashAfterLower with
  | true => exact boot_crash ▸ stop_consistent restarted
  | false => exact feed_consistent restarted rfl

theorem lowered_contract {store : Store Hash Block}
    (lowers : lowerFedFrontierToApp node.store resume = (store, true)) :
    ∃ target fed, resume = some target ∧ node.store.appFedBlockHeight = some fed ∧ target ≤ fed ∧
      (∀ height, target ≤ height → height ≤ fed →
        node.store.Readable height ∧ Taken node.history height) ∧
      ∀ world delivery, (feedCommittedBlocksToApp store false world).deliveries.head? =
        some delivery → delivery.height = target := by
  rcases lowerFedFrontierToApp_cases node.store resume with
    same | ⟨target, fed, asked, stored, lower, readable, lowered⟩
  · rw [same] at lowers
    simp at lowers
  · obtain ⟨first, head, _, taken, _⟩ := consistent.fed fed stored
    have firstBelow : first ≤ target :=
      consistent.lowest first head target (readable target (Nat.le_refl _) lower)
    refine ⟨target, fed, asked, stored, lower, fun height above below =>
      ⟨readable height above below, taken height (by omega) below⟩, ?_⟩
    intro world delivery called
    have tidy := @lowerFedFrontierToApp_tidy _ _ node.store resume consistent.tidy
    rw [lowers] at tidy lowered
    have store_eq := (Prod.mk.inj lowered).1
    obtain ⟨start, counted, refused, trace⟩ :=
      @feedCommittedBlocksToApp_trace _ _ store false world tidy
    have height := trace.head_height called
    by_cases zero : target = 0
    · have unset : store.appFedBlockHeight = none := by rw [store_eq, if_pos zero]
      have bottom : store.Readable 0 := by
        rw [store_eq]
        exact readable 0 (by omega) (by omega)
      have := trace.fromLowest unset 0
      by_contra different
      exact this (by omega) bottom
    · have frontier : store.appFedBlockHeight = some (target - 1) := by rw [store_eq, if_neg zero]
      have := trace.fromFrontier _ frontier
      omega

end Boot

variable [DecidableEq Hash]

def apply (node : Node Hash Block) : Action Hash Block → Node Hash Block
  | .commit first blocks retention => { node with store := node.store.commit first blocks retention }
  | .feed world => node.feed world
  | .failStop => { node with halted := true }
  | .crash => { node with running := false }
  | .boot resume crashAfterLower world => node.boot resume crashAfterLower world

/-- A process is there to act, or it is not and boots.  A commit brings new blocks. -/
def Enabled (node : Node Hash Block) : Action Hash Block → Prop
  | .commit _ blocks _ => node.running = true ∧ blocks ≠ [] ∧ node.store.Fresh blocks
  | .feed _ | .failStop | .crash => node.running = true
  | .boot _ _ _ => node.running = false

/-- The pruner behind this commit takes nothing away that an unset frontier still needs:
with no frontier stored, every height it deletes from the first delivered one on was
taken in by the app. -/
def PrunesOnlyTaken (node : Node Hash Block) : Action Hash Block → Prop
  | .commit first blocks retention =>
    node.store.appFedBlockHeight = none →
      ∀ start, (heights node.history).head? = some start →
        ∀ height, start ≤ height →
          height < (node.store.commitBlocks (node.store.nextHeight first) blocks).pruneStop
            retention →
          Taken node.history height
  | _ => True

/-- An enabled action that is allowed. -/
def Step (allowed : Node Hash Block → Action Hash Block → Prop) (before after : Node Hash Block) :
    Prop :=
  ∃ action, before.Enabled action ∧ allowed before action ∧ after = before.apply action

/-- Any number of such steps. -/
def Run (allowed : Node Hash Block → Action Hash Block → Prop) :
    Node Hash Block → Node Hash Block → Prop :=
  Relation.ReflTransGen (Step allowed)

/-- The feed's contract with the app, in the state a run has reached: for the calls so
far, and for whatever pass comes next. -/
structure Contract (node : Node Hash Block) : Prop where
  preceded : Preceded node.history
  redeliveredFirst : RedeliveredFirst node.history
  counted : ∀ fed, node.store.appFedBlockHeight = some fed →
    ∀ first, (heights node.history).head? = some first →
      ∀ height, first ≤ height → height ≤ fed → Taken node.history height
  haltedUncounted : ∀ action, node.Enabled action → ∃ calls,
    (node.apply action).history = node.history ++ calls ∧
    ∀ delivery, .delivered delivery ∈ calls → delivery.halted = true →
      ∀ fed, (node.apply action).store.appFedBlockHeight = some fed → fed < delivery.height
  haltedUnfed : node.halted = true → ∀ world, (node.feed world).store = node.store ∧
    (node.feed world).history = node.history
  caughtUp : ∀ action, node.Enabled action →
    (∃ world, action = .feed world) ∨ (∃ resume world, action = .boot resume false world) →
    (node.apply action).running = true → (node.apply action).halted = false →
    (∀ fed, (node.apply action).store.appFedBlockHeight = some fed →
      ∀ height, fed < height →
        (∃ highest, node.store.highestCommittedBlockHeight = some highest ∧ height ≤ highest) →
        node.store.Readable height) →
    (node.apply action).store.appFedBlockHeight = node.store.highestCommittedBlockHeight
  lowered : ∀ resume store, lowerFedFrontierToApp node.store resume = (store, true) →
    ∃ target fed, resume = some target ∧ node.store.appFedBlockHeight = some fed ∧ target ≤ fed ∧
      (∀ height, target ≤ height → height ≤ fed →
        node.store.Readable height ∧ Taken node.history height) ∧
      ∀ world delivery, (feedCommittedBlocksToApp store false world).deliveries.head? =
        some delivery → delivery.height = target

section Steps

variable {node : Node Hash Block}

theorem commit_consistent {first : Nat} {blocks : List (Hash × Block)} {retention : Option Nat}
    (consistent : node.Consistent) (nonempty : blocks ≠ []) (fresh : node.store.Fresh blocks)
    (prunes : node.PrunesOnlyTaken (.commit first blocks retention)) :
    (node.apply (.commit first blocks retention)).Consistent := by
  have tidy := consistent.tidy
  have grows : ∀ highest, node.store.highestCommittedBlockHeight = some highest →
      node.store.nextHeight first = highest + 1 := nextHeight_next node.store first
  have highest' := @commit_highest _ _ _ node.store _ first retention nonempty
  have length_pos : 0 < blocks.length := length_pos_iff.mpr nonempty
  have raised : ∀ height, (∃ highest, node.store.highestCommittedBlockHeight = some highest ∧
      height ≤ highest) → ∃ highest, (node.store.commit first blocks
        retention).highestCommittedBlockHeight = some highest ∧ height ≤ highest := by
    intro height reached
    obtain ⟨highest, stored, below⟩ := reached
    have := grows highest stored
    exact ⟨_, highest', by omega⟩
  have delivered_committed : ∀ start, (heights node.history).head? = some start →
      ∃ highest, node.store.highestCommittedBlockHeight = some highest ∧ start ≤ highest :=
    fun start head => consistent.committed start (mem_of_mem_head? head)
  refine ⟨commit_tidy tidy fresh, consistent.preceded, consistent.ascending, ?_, ?_, ?_, ?_, ?_⟩
  · intro height member
    exact raised height (consistent.committed height member)
  · intro start head height readable
    obtain ⟨highest, stored, below⟩ := delivered_committed start head
    have := grows highest stored
    rcases ((commit_readable tidy fresh nonempty).mp readable).1 with new | old
    · omega
    · exact consistent.lowest start head height old
  · intro fed stored
    rw [apply, commit_appFed] at stored
    obtain ⟨start, head, near, taken, reached⟩ := consistent.fed fed stored
    exact ⟨start, head, near, taken, raised fed reached⟩
  · intro unset start head low holes readable height above below
    rw [apply, commit_appFed] at unset
    obtain ⟨highest, stored, _⟩ := delivered_committed start head
    have next := grows highest stored
    obtain ⟨oldLow, bounded, _, inside⟩ := tidy.window stored
    have lowReadable := (commit_readable tidy fresh nonempty).mp readable
    by_cases older : height < oldLow
    · refine consistent.unfed unset start head oldLow ?_ ?_ height above older
      · intro other below' readable'
        have := (inside other).mp readable'
        omega
      · exact (inside oldLow).mpr ⟨Nat.le_refl _, bounded⟩
    · -- The height was in the window, so the pruner took it.
      apply prunes unset start head height above
      by_contra kept
      apply holes height below
      refine (commit_readable tidy fresh nonempty).mpr ⟨?_, by omega⟩
      rw [inside] at lowReadable ⊢
      omega
  · intro running up before last split
    rw [apply, commit_appFed]
    exact consistent.current running up before last split

theorem apply_consistent {action : Action Hash Block} (consistent : node.Consistent)
    (enabled : node.Enabled action) (prunes : node.PrunesOnlyTaken action) :
    (node.apply action).Consistent := by
  cases action with
  | commit first blocks retention =>
    obtain ⟨_, nonempty, fresh⟩ := enabled
    exact commit_consistent consistent nonempty fresh prunes
  | feed world => exact feed_consistent consistent enabled
  | failStop => exact failStop_consistent consistent
  | crash => exact stop_consistent consistent
  | boot resume crashAfterLower world => exact boot_consistent consistent

/-- Every run from an initial node that prunes only what was taken is consistent. -/
theorem run_stays_consistent {start : Node Hash Block} (initial : start.Initial)
    (run : Run PrunesOnlyTaken start node) : node.Consistent := by
  induction run with
  | refl => exact initial.consistent
  | tail _ step ih =>
    obtain ⟨action, enabled, allowed, rfl⟩ := step
    exact apply_consistent ih enabled allowed

theorem Consistent.contract (consistent : node.Consistent) : node.Contract where
  preceded := consistent.preceded
  redeliveredFirst := redeliveredFirst consistent.preceded consistent.ascending
  counted := by
    intro fed stored first head height above below
    obtain ⟨start, head', _, taken, _⟩ := consistent.fed fed stored
    obtain rfl : start = first := Option.some.inj (head'.symm.trans head)
    exact taken height above below
  haltedUncounted := by
    intro action enabled
    cases action with
    | commit first blocks retention => exact ⟨[], by simp [apply], by simp⟩
    | failStop => exact ⟨[], by simp [apply], by simp⟩
    | crash => exact ⟨[], by simp [apply], by simp⟩
    | feed world =>
      obtain ⟨_, _, _, trace⟩ :=
        @feedCommittedBlocksToApp_trace _ _ node.store node.halted world consistent.tidy
      refine ⟨_, rfl, fun delivery member halted fed stored => ?_⟩
      exact afterPass_haltedUncounted trace (by simpa using member) halted stored
    | boot resume crashAfterLower world =>
      have restarted := @restart_consistent _ _ _ resume consistent
      cases crashAfterLower with
      | true => exact ⟨[.booted], by simp [apply, boot_crash, restart], by simp⟩
      | false =>
        obtain ⟨_, _, _, trace⟩ := @feedCommittedBlocksToApp_trace _ _
          (node.restart resume).store (node.restart resume).halted world restarted.tidy
        refine ⟨_, boot_history, fun delivery member halted fed stored => ?_⟩
        exact afterPass_haltedUncounted trace (by simpa using member) halted stored
  haltedUnfed := by
    intro halted world
    obtain ⟨_, _, _, trace⟩ :=
      @feedCommittedBlocksToApp_trace _ _ node.store node.halted world consistent.tidy
    obtain ⟨noCounted, noRefused⟩ := trace.halted halted
    constructor
    · rcases trace.store_eq with same | ⟨counts, _⟩
      · exact same
      · exact absurd noCounted counts
    · rw [feed, afterPass_history trace, noCounted, noRefused]
      simp
  caughtUp := by
    intro action enabled passes running up readable
    rcases passes with ⟨world, rfl⟩ | ⟨resume, world, rfl⟩
    · obtain ⟨_, _, _, trace⟩ :=
        @feedCommittedBlocksToApp_trace _ _ node.store node.halted world consistent.tidy
      exact afterPass_caughtUp consistent enabled trace running up readable
    · have restarted := @restart_consistent _ _ _ resume consistent
      obtain ⟨_, _, _, trace⟩ := @feedCommittedBlocksToApp_trace _ _
        (node.restart resume).store (node.restart resume).halted world restarted.tidy
      have highestKept : (node.restart resume).store.highestCommittedBlockHeight =
          node.store.highestCommittedBlockHeight := by
        rcases lowerFedFrontierToApp_cases node.store resume with
          same | ⟨_, _, _, _, _, _, lowered⟩
        · rw [restart, same]
        · rw [restart, lowered]
      have readableKept : ∀ height, (node.restart resume).store.Readable height ↔
          node.store.Readable height := by
        intro height
        rcases lowerFedFrontierToApp_cases node.store resume with
          same | ⟨_, _, _, _, _, _, lowered⟩
        · rw [restart, same]
        · rw [restart, lowered]; rfl
      rw [← highestKept]
      refine afterPass_caughtUp restarted rfl trace running up fun fed stored height above reached => ?_
      rw [highestKept] at reached
      exact (readableKept height).mpr (readable fed stored height above reached)
  lowered := by
    intro resume store lowers
    exact lowered_contract consistent lowers

end Steps

/-- Every action of the list is one. -/
def Permitted (allowed : Node Hash Block → Action Hash Block → Prop) :
    Node Hash Block → List (Action Hash Block) → Prop
  | _, [] => True
  | node, action :: rest =>
    node.Enabled action ∧ allowed node action ∧ Permitted allowed (node.apply action) rest

theorem run_of_permitted {allowed : Node Hash Block → Action Hash Block → Prop}
    {node : Node Hash Block} {actions : List (Action Hash Block)}
    (permitted : Permitted allowed node actions) : Run allowed node (actions.foldl apply node) := by
  induction actions generalizing node with
  | nil => exact .refl
  | cons action rest ih =>
    obtain ⟨enabled, allowed, more⟩ := permitted
    exact .head ⟨action, enabled, allowed, rfl⟩ (ih more)

/-- Along every run whose commits prune nothing an unset frontier still needs, the app
sees each committed block in order, across crashes, halts and boots. -/
theorem run_contract {start node : Node Hash Block} (initial : start.Initial)
    (run : Run PrunesOnlyTaken start node) : node.Contract :=
  (run_stays_consistent initial run).contract

def freshNode : Node Nat Nat where
  store := Store.empty
  running := false
  halted := false
  history := []

theorem freshNode_initial : freshNode.Initial :=
  ⟨empty_tidy, rfl, rfl, rfl⟩

def calm : World where
  around := fun _ => {}

def crashAndRedeliver : List (Action Nat Nat) :=
  [.boot none false calm,
    .commit 0 [(0, 0), (1, 1)] (some 8),
    .feed calm,
    .commit 0 [(2, 2)] (some 8),
    .crash,
    .boot (some 1) false calm]

theorem crashAndRedeliver_permitted : Permitted PrunesOnlyTaken freshNode crashAndRedeliver := by
  refine ⟨rfl, trivial, ⟨rfl, by simp, by decide, ?_⟩, ?_, rfl, trivial,
    ⟨rfl, by simp, by decide, ?_⟩, ?_, rfl, trivial, rfl, trivial, trivial⟩
  · intro entry member height
    change none ≠ some entry.1
    simp
  · intro _ start head
    change none = some start at head
    contradiction
  · intro entry member height
    change (if height = 1 then some 1 else if height = 0 then some 0 else none) ≠ some entry.1
    have is_two : entry.1 = 2 := by
      simp only [mem_singleton] at member
      simp [member]
    rw [is_two]
    split
    · simp
    · split <;> simp
  · intro unset
    change some 1 = none at unset
    contradiction

theorem run_contract_crashAndRedeliver :
    (crashAndRedeliver.foldl apply freshNode).Contract ∧
      heights (crashAndRedeliver.foldl apply freshNode).history = [0, 1, 1, 2] :=
  ⟨run_contract freshNode_initial (run_of_permitted crashAndRedeliver_permitted), by decide⟩

/-- The app fail-stops inside its first callback, consensus commits on, and the pruner
passes the undelivered height 1 before the restart. -/
def prunedGap : List (Action Nat Nat) :=
  [.boot none false calm,
    .commit 0 [(0, 0)] (some 8),
    .feed { around := fun _ => { haltDuring := true } },
    .commit 0 [(1, 1), (2, 2), (3, 3), (4, 4), (5, 5), (6, 6), (7, 7), (8, 8), (9, 9), (10, 10)]
      (some 8),
    .crash,
    .boot none false calm]

theorem prunedGap_permitted : Permitted (fun _ _ => True) freshNode prunedGap := by
  refine ⟨rfl, trivial, ⟨rfl, by simp, by decide, ?_⟩, trivial, rfl, trivial,
    ⟨rfl, by simp, by decide, ?_⟩, trivial, rfl, trivial, rfl, trivial, trivial⟩
  · intro entry member height indexed
    exact absurd indexed (by simp [freshNode, apply, boot, afterPass, bootFeedCommittedBlocksToApp,
      lowerFedFrontierToApp, feedCommittedBlocksToApp, Store.empty])
  · intro entry member height
    change (if height = 0 then some 0 else none) ≠ some entry.1
    have positive : 0 < entry.1 := by
      simp only [mem_cons, not_mem_nil, or_false] at member
      rcases member with rfl | rfl | rfl | rfl | rfl | rfl | rfl | rfl | rfl | rfl <;> decide
    split
    · simp only [ne_eq, Option.some.injEq]; omega
    · simp

theorem prunedGap_heights :
    heights (prunedGap.foldl apply freshNode).history = [0, 2, 3, 4, 5, 6, 7, 8, 9, 10] := by
  decide

/-- Without a condition on the pruner a run can skip a height for good. -/
theorem run_contract_fails_pruned : ¬ ∀ start node : Node Nat Nat, start.Initial →
    Run (fun _ _ => True) start node → node.Contract := by
  intro all
  have contract := all freshNode _ freshNode_initial (run_of_permitted prunedGap_permitted)
  have gapless := @Preceded.contiguous _ _ _ 0 2 contract.preceded
    (by rw [prunedGap_heights]; rfl) (by rw [prunedGap_heights]; decide)
  have delivered := gapless.2 1 (by decide) (by decide)
  rw [prunedGap_heights] at delivered
  revert delivered
  decide

end Node

end TorusHyperBft.Feed
