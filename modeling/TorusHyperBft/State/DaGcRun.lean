import TorusHyperBft.State.DaGcFence

namespace TorusHyperBft.State

open List FenceInner

/-! Checking threads and one garbage-collection worker around the fence, in any interleaving of
their atomic steps. -/

/-- The fence's settings: any fingerprint function, pin cap and release chunk. -/
structure FenceConfig (Hash : Type) where
  fingerprint : Hash → Fingerprint
  maxPins : Nat
  releaseChunk : Nat

/-- Where the worker is: between two calls, with a marked batch that is not written yet, with a
batch that returned, or between two lock holds of a release. -/
inductive Worker (Hash : Type) where
  | idle
  | writing (bodies : List (Hash × Nat))
  | written
  | releasing (height : Height)

/-- What has happened.  `pinned` is a pin that returned, with the hashes it listed as missing and
whether one of them was refused for lack of room. -/
inductive Event (Hash : Type) where
  | pinned (height : Height) (hashes listed : List Hash) (refused : Bool)
  | read (hash : Hash) (found : Bool)
  | landed (bodies : List (Hash × Nat))
  | released (height : Height)

/-- The fence, the stored bodies, the worker and the checking threads that passed a pin's window
check and wait for the lock.  `since` remembers the heights a fingerprint was pinned at since it
was last released; the history is kept newest first. -/
structure System (Hash : Type) where
  inner : FenceInner := {}
  committed : Height
  bodies : Hash → Bool
  worker : Worker Hash := .idle
  waiting : Nat → Option (Height × List Hash) := fun _ => none
  since : Fingerprint → List Height := fun _ => []
  history : List (Event Hash) := []

inductive Action (Hash : Type) where
  | pin (thread : Nat) (height : Height) (hashes : List Hash)
  | pinHold (thread : Nat)
  | read (hash : Hash)
  | store (hash : Hash)
  | noteCommitted (height : Height)
  | beginDelete (bodies : List (Hash × Nat))
  | batchLands
  | batchFails
  | endDelete
  | release (height : Height)
  | releaseNext

namespace System

variable {Hash : Type} [DecidableEq Hash]

/-- A pin adds its height; a fingerprint that is not in the pin map any more starts anew. -/
def noteOne (next : FenceInner) (refused : Bool) (height : Height) (fp : Fingerprint)
    (since : Fingerprint → List Height) : Fingerprint → List Height := fun other =>
  if (next.pins.lookup other).isNone then []
  else if other = fp ∧ refused = false then height :: since other
  else since other

def noteAll (most : Nat) (height : Height) (inner : FenceInner) :
    List Fingerprint → (Fingerprint → List Height) → Fingerprint → List Height
  | [], since => since
  | fp :: fps, since =>
    let (next, refused) := inner.pinOne most height fp
    noteAll most height next fps (noteOne next refused height fp since)

def noteReleased (next : FenceInner) (since : Fingerprint → List Height) : Fingerprint → List Height :=
  fun fp => if (next.pins.lookup fp).isNone then [] else since fp

/-- The part of a pin before the lock: a pin above the window is refused and lists everything. -/
def pin (system : System Hash) (thread : Nat) (height : Height) (hashes : List Hash) : System Hash :=
  if hashes.isEmpty then { system with history := .pinned height [] [] false :: system.history }
  else if system.committed.saturatingAdd daGcFenceHeightWindow < height then
    { system with history := .pinned height hashes hashes false :: system.history }
  else { system with waiting := Function.update system.waiting thread (some (height, hashes)) }

def pinHold (config : FenceConfig Hash) (system : System Hash) (thread : Nat) (height : Height)
    (hashes : List Hash) : System Hash :=
  let fps := hashes.map config.fingerprint
  let (pinned, refused) := system.inner.pinAll config.maxPins height fps
  let inner := pinned.holdThrough height refused
  let listed := hashes.filter fun hash => inner.deleting.contains (config.fingerprint hash)
  { system with
    inner
    waiting := Function.update system.waiting thread none
    since := noteAll config.maxPins height system.inner fps system.since
    history := .pinned height hashes listed refused :: system.history }

/-- One lock hold of a release; the worker is done when no more pins are due. -/
def releaseHold (config : FenceConfig Hash) (system : System Hash) (height : Height) : System Hash :=
  let (next, more) := system.inner.releaseChunk (max config.releaseChunk 1) height
  { system with
    inner := next
    since := noteReleased next system.since
    worker := if more then .releasing height else .idle }

def step (config : FenceConfig Hash) (system : System Hash) : Action Hash → System Hash
  | .pin thread height hashes =>
    match system.waiting thread with
    | none => system.pin thread height hashes
    | some _ => system
  | .pinHold thread =>
    match system.waiting thread with
    | none => system
    | some (height, hashes) => system.pinHold config thread height hashes
  | .read hash => { system with history := .read hash (system.bodies hash) :: system.history }
  | .store hash => { system with bodies := Function.update system.bodies hash true }
  | .noteCommitted height => { system with committed := max system.committed height }
  | .beginDelete bodies =>
    match system.worker with
    | .idle =>
      let (inner, kept) := system.inner.beginDelete config.fingerprint bodies
      { system with inner, worker := .writing kept }
    | _ => system
  | .batchLands =>
    match system.worker with
    | .writing bodies =>
      { system with
        bodies := fun hash => system.bodies hash && !(bodies.map Prod.fst).contains hash
        worker := .written
        history := .landed bodies :: system.history }
    | _ => system
  | .batchFails =>
    match system.worker with
    | .writing _ => { system with worker := .written }
    | _ => system
  | .endDelete =>
    match system.worker with
    | .written => { system with inner := system.inner.endDelete, worker := .idle }
    | _ => system
  | .release height =>
    match system.worker with
    | .idle =>
      releaseHold config
        { system with
          inner := system.inner.passThrough height
          history := .released height :: system.history } height
    | _ => system
  | .releaseNext =>
    match system.worker with
    | .releasing height => system.releaseHold config height
    | _ => system

def run (config : FenceConfig Hash) (system : System Hash) (actions : List (Action Hash)) : System Hash :=
  actions.foldl (step config) system

end System

variable {refused : Bool}

namespace FenceInner

/-- The fence has passed this height. -/
def Reached (inner : FenceInner) (height : Height) : Prop :=
  ∃ passed, inner.passed = some passed ∧ height ≤ passed

/-- The body is pinned at this height or a later one. -/
def PinnedAt (inner : FenceInner) (fp : Fingerprint) (height : Height) : Prop :=
  ∃ at', inner.pins.lookup fp = some at' ∧ height ≤ at'

/-- All deletion is held back for this height. -/
def Holding (inner : FenceInner) (height : Height) : Prop :=
  ∃ through, inner.overflowThrough = some through ∧ height ≤ through

/-- No batch deletes the body: it is pinned or the passes hold, and it is not being deleted; or
the worker passed the height. -/
def Protects (inner : FenceInner) (fp : Fingerprint) (height : Height) : Prop :=
  inner.Reached height ∨ ((inner.PinnedAt fp height ∨ inner.Holding height) ∧ fp ∉ inner.deleting)

variable {inner next : FenceInner} {fp : Fingerprint} {height : Height} {most : Nat}

/-- Each body is pinned at the height, or the fence was full or past it. -/
structure PinsAll (most : Nat) (height : Height) (inner : FenceInner) (fps : List Fingerprint)
    (next : FenceInner) (refused : Bool) : Prop where
  agree : next.Agree
  passed : next.passed = inner.passed
  overflow : next.overflowThrough = inner.overflowThrough
  deleting : next.deleting = inner.deleting
  capped : inner.pinned ≤ most → next.pinned ≤ most
  keeps : ∀ fp at', inner.PinnedAt fp at' → next.PinnedAt fp at' ∨ inner.Reached at'
  sets : ∀ fp ∈ fps, refused = true ∨ next.PinnedAt fp height ∨ inner.Reached height

theorem PinsOne.keeps (pins : PinsOne most height inner fp next refused)
    {other : Fingerprint} {at' : Height} (held : inner.PinnedAt other at') :
    next.PinnedAt other at' ∨ inner.Reached at' := by
  obtain ⟨now, lookup, above⟩ := held
  by_cases same : other = fp
  · subst same
    left
    cases refused with
    | true =>
      rw [pins.absent rfl] at lookup
      cases lookup
    | false =>
      refine ⟨max now height, ?_, le_trans above (le_max_left _ _)⟩
      rw [pins.own, lookup]
      rfl
  · rcases pins.others other same with kept | ⟨-, dropped, passed, lookup', isPassed, below⟩
    · left
      exact ⟨now, kept.trans lookup, above⟩
    · right
      rw [lookup] at lookup'
      cases lookup'
      exact ⟨passed, isPassed, le_trans above below⟩

theorem pinAll_pinsAll (fps : List Fingerprint) (agree : inner.Agree) :
    PinsAll most height inner fps (inner.pinAll most height fps).1
      (inner.pinAll most height fps).2 := by
  induction fps generalizing inner with
  | nil => exact ⟨agree, rfl, rfl, rfl, id, fun _ _ held => .inl held, by simp⟩
  | cons fp fps ih =>
    have one := @pinOne_pinsOne inner height fp most agree
    have rest := ih one.agree
    have reached : ∀ at', (inner.pinOne most height fp).1.Reached at' → inner.Reached at' := by
      rintro at' ⟨passed, isPassed, above⟩
      exact ⟨passed, one.passed ▸ isPassed, above⟩
    refine ⟨rest.agree, rest.passed.trans one.passed, rest.overflow.trans one.overflow,
      rest.deleting.trans one.deleting, fun within => rest.capped (one.capped within), ?_, ?_⟩
    · intro other at' held
      rcases one.keeps held with kept | passed
      · exact (rest.keeps other at' kept).imp_right (reached at')
      · exact .inr passed
    · intro other member
      rcases mem_cons.mp member with rfl | later
      · cases refusal : (inner.pinOne most height other).2 with
        | true =>
          left
          simp [pinAll, refusal]
        | false =>
          right
          have own := one.own
          rw [refusal] at own
          have set : (inner.pinOne most height other).1.PinnedAt other height := by
            refine ⟨_, own, ?_⟩
            cases inner.pins.lookup other with
            | none => exact le_rfl
            | some at' => exact le_max_right _ _
          exact (rest.keeps other height set).imp_right (reached height)
      · rcases rest.sets other later with refusal | set
        · left
          simp [pinAll, refusal]
        · exact .inr (set.imp_right (reached height))

/-- What a lock hold may do to the protection of bodies that it does not mark. -/
structure Keeps (inner next : FenceInner) : Prop where
  reached : ∀ height, inner.Reached height → next.Reached height
  pinned : ∀ fp height, inner.PinnedAt fp height → next.PinnedAt fp height ∨ next.Reached height
  holding : ∀ height, inner.Holding height → next.Holding height ∨ next.Reached height
  deleting : ∀ fp, fp ∈ next.deleting → fp ∈ inner.deleting

theorem Keeps.protects (keeps : Keeps inner next) (protects : inner.Protects fp height) :
    next.Protects fp height := by
  rcases protects with reached | ⟨held, unmarked⟩
  · exact .inl (keeps.reached height reached)
  · have still : (next.PinnedAt fp height ∨ next.Holding height) ∨ next.Reached height := by
      rcases held with pinned | holding
      · exact (keeps.pinned fp height pinned).imp_left .inl
      · exact (keeps.holding height holding).imp_left .inr
    rcases still with held | reached
    · exact .inr ⟨held, fun marked => unmarked (keeps.deleting fp marked)⟩
    · exact .inl reached

theorem Keeps.refl (inner : FenceInner) : Keeps inner inner :=
  ⟨fun _ => id, fun _ _ => .inl, fun _ => .inl, fun _ => id⟩

theorem Keeps.trans {middle : FenceInner} (first : Keeps inner middle)
    (second : Keeps middle next) :
    Keeps inner next := by
  refine ⟨fun height reached => second.reached height (first.reached height reached), ?_, ?_,
    fun fp marked => first.deleting fp (second.deleting fp marked)⟩
  · intro fp height held
    rcases first.pinned fp height held with held | reached
    · exact second.pinned fp height held
    · exact .inr (second.reached height reached)
  · intro height held
    rcases first.holding height held with held | reached
    · exact second.holding height held
    · exact .inr (second.reached height reached)

theorem PinsAll.keeps' {fps : List Fingerprint}
    (pins : PinsAll most height inner fps next refused) : Keeps inner next := by
  have reached : ∀ height, inner.Reached height → next.Reached height := by
    rintro height ⟨passed, isPassed, above⟩
    exact ⟨passed, pins.passed.trans isPassed, above⟩
  refine ⟨reached, ?_, ?_, fun fp marked => pins.deleting ▸ marked⟩
  · intro fp height held
    exact (pins.keeps fp height held).imp_right (reached height)
  · rintro height ⟨through, isThrough, above⟩
    exact .inl ⟨through, pins.overflow.trans isThrough, above⟩

theorem holdThrough_keeps (refused : Bool) : Keeps inner (inner.holdThrough height refused) := by
  cases refused with
  | false => exact .refl inner
  | true =>
    refine ⟨fun _ => id, fun _ _ => .inl, ?_, fun _ => id⟩
    rintro height ⟨through, isThrough, above⟩
    refine .inl ⟨_, rfl, ?_⟩
    rw [isThrough, Option.getD_some]
    exact le_trans above (le_max_left _ _)

theorem passThrough_reached (inner : FenceInner) (height : Height) :
    (inner.passThrough height).Reached height := by
  refine ⟨_, rfl, ?_⟩
  split
  · exact le_max_right _ _
  · exact le_rfl

theorem passThrough_keeps : Keeps inner (inner.passThrough height) := by
  refine ⟨?_, fun _ _ => .inl, ?_, fun _ => id⟩
  · rintro below ⟨before, isPassed, above⟩
    refine ⟨_, rfl, ?_⟩
    rw [isPassed]
    exact le_trans above (le_max_left _ _)
  · rintro below ⟨through, isThrough, above⟩
    by_cases ended : through ≤ height
    · right
      obtain ⟨last, isLast, reached⟩ := inner.passThrough_reached height
      exact ⟨last, isLast, le_trans above (le_trans ended reached)⟩
    · left
      refine ⟨through, ?_, above⟩
      simp [passThrough, isThrough, ended]

theorem Releases.keeps (releases : Releases height inner next) (reached : inner.Reached height) :
    Keeps inner next := by
  have same : ∀ height, inner.Reached height → next.Reached height := by
    rintro height ⟨passed, isPassed, above⟩
    exact ⟨passed, releases.passed.trans isPassed, above⟩
  refine ⟨same, ?_, ?_, fun fp marked => releases.deleting ▸ marked⟩
  · rintro fp below ⟨now, lookup, above⟩
    rcases releases.pins fp with kept | ⟨-, dropped, lookup', atMost⟩
    · exact .inl ⟨now, kept.trans lookup, above⟩
    · right
      rw [lookup] at lookup'
      cases lookup'
      obtain ⟨passed, isPassed, high⟩ := same height reached
      exact ⟨passed, isPassed, le_trans above (le_trans atMost high)⟩
  · rintro height ⟨through, isThrough, above⟩
    exact .inl ⟨through, releases.overflow.trans isThrough, above⟩

section Mark

variable {Hash : Type} {fingerprint : Hash → Fingerprint}

/-- What marking bodies does: only unpinned ones are marked, and all that are kept for the batch. -/
structure Marks (fingerprint : Hash → Fingerprint) (inner next : FenceInner)
    (kept : List (Hash × Nat)) : Prop where
  pins : next.pins = inner.pins
  byHeight : next.byHeight = inner.byHeight
  passed : next.passed = inner.passed
  overflow : next.overflowThrough = inner.overflowThrough
  kept : ∀ body ∈ kept, fingerprint body.1 ∈ next.deleting
  deleting : ∀ fp, fp ∈ next.deleting →
    fp ∈ inner.deleting ∨ (inner.pins.lookup fp = none ∧ inner.overflowThrough = none)
  marked : ∀ fp, fp ∈ inner.deleting → fp ∈ next.deleting

theorem markAll_marks (bodies : List (Hash × Nat)) (free : inner.overflowThrough = none) :
    Marks fingerprint inner (inner.markAll fingerprint bodies).1
      (inner.markAll fingerprint bodies).2 := by
  induction bodies generalizing inner with
  | nil => exact ⟨rfl, rfl, rfl, rfl, by simp [markAll], fun _ => .inl, fun _ => id⟩
  | cons body bodies ih =>
    by_cases pinned : (inner.pins.lookup (fingerprint body.1)).isSome
    · rw [markAll, if_pos pinned]
      exact ih free
    · rw [markAll, if_neg pinned]
      have rest := @ih { inner with deleting := fingerprint body.1 :: inner.deleting } free
      refine ⟨rest.pins, rest.byHeight, rest.passed, rest.overflow, ?_, ?_, ?_⟩
      · intro other member
        rcases mem_cons.mp member with rfl | later
        · exact rest.marked _ mem_cons_self
        · exact rest.kept other later
      · intro fp marked
        rcases rest.deleting fp marked with already | unpinned
        · rcases mem_cons.mp already with rfl | already
          · right
            exact ⟨Option.not_isSome_iff_eq_none.mp pinned, free⟩
          · exact .inl already
        · exact .inr unpinned
      · intro fp marked
        exact rest.marked fp (mem_cons_of_mem _ marked)

theorem beginDelete_marks (bodies : List (Hash × Nat)) :
    Marks fingerprint inner (inner.beginDelete fingerprint bodies).1
      (inner.beginDelete fingerprint bodies).2 := by
  have nothing : Marks fingerprint inner inner [] :=
    ⟨rfl, rfl, rfl, rfl, by simp, fun _ => .inl, fun _ => id⟩
  unfold beginDelete
  split
  · exact nothing
  · cases hold : inner.overflowThrough with
    | none => exact markAll_marks bodies hold
    | some through => exact nothing

theorem Marks.protects {kept : List (Hash × Nat)} (marks : Marks fingerprint inner next kept)
    (protects : inner.Protects fp height) : next.Protects fp height := by
  rcases protects with ⟨passed, isPassed, above⟩ | ⟨held, unmarked⟩
  · exact .inl ⟨passed, marks.passed.trans isPassed, above⟩
  · right
    constructor
    · rcases held with ⟨now, lookup, above⟩ | ⟨through, isThrough, above⟩
      · exact .inl ⟨now, marks.pins ▸ lookup, above⟩
      · exact .inr ⟨through, marks.overflow.trans isThrough, above⟩
    · intro marked
      rcases marks.deleting fp marked with already | ⟨unpinned, free⟩
      · exact unmarked already
      · rcases held with ⟨now, lookup, -⟩ | ⟨through, isThrough, -⟩
        · rw [unpinned] at lookup
          cases lookup
        · rw [free] at isThrough
          cases isThrough

end Mark

end FenceInner

/-- A pin was refused for lack of room at the height and the worker has not passed it since. -/
def Unpassed {Hash : Type} (height : Height) : List (Event Hash) → Prop
  | [] => False
  | .pinned at' _ _ refused :: earlier => (refused = true ∧ at' = height) ∨ Unpassed height earlier
  | .released passed :: earlier => passed < height ∧ Unpassed height earlier
  | .read _ _ :: earlier => Unpassed height earlier
  | .landed _ :: earlier => Unpassed height earlier

/-- A body that a pin did not list and that was read after it is in no batch that lands later,
unless the worker called a release at or above the pin's height before. -/
def StaysFound {Hash : Type} (history : List (Event Hash)) : Prop :=
  ∀ later between before height hashes listed refused bodies hash,
    history = later ++ .landed bodies :: (between ++ .pinned height hashes listed refused :: before) →
      hash ∈ hashes → hash ∉ listed → .read hash true ∈ between → hash ∈ bodies.map Prod.fst →
        ∃ passed, height ≤ passed ∧
          .released passed ∈ between ++ .pinned height hashes listed refused :: before

/-- What holds of the fence and its history after every step. -/
structure FenceSafe {Hash : Type} (config : FenceConfig Hash) (system : System Hash) : Prop where
  agree : system.inner.Agree
  capped : system.inner.pinned ≤ config.maxPins
  highest : ∀ fp, system.inner.pins.lookup fp = (system.since fp).max?
  staysFound : StaysFound system.history
  holds : ∀ height, Unpassed height system.history → system.inner.Holding height
  holdEnds : ∀ through, system.inner.overflowThrough = some through → Unpassed through system.history

/-- The same with what ties the fence to the past and to the worker. -/
structure Fenced {Hash : Type} (config : FenceConfig Hash) (system : System Hash) : Prop
    extends FenceSafe config system where
  reached : ∀ height, system.inner.Reached height →
    ∃ passed, height ≤ passed ∧ .released passed ∈ system.history
  marked : ∀ bodies, system.worker = .writing bodies →
    ∀ body ∈ bodies, config.fingerprint body.1 ∈ system.inner.deleting
  releasing : ∀ height, system.worker = .releasing height → system.inner.Reached height
  covered : ∀ height hashes listed refused, .pinned height hashes listed refused ∈ system.history →
    ∀ hash ∈ hashes, hash ∉ listed → system.inner.Protects (config.fingerprint hash) height

section Past

variable {Hash : Type} {history : List (Event Hash)} {event : Event Hash}

theorem StaysFound.cons (stays : StaysFound history)
    (landed : ∀ bodies between before height hashes listed refused hash, event = .landed bodies →
      history = between ++ .pinned height hashes listed refused :: before → hash ∈ hashes →
        hash ∉ listed → hash ∈ bodies.map Prod.fst →
          ∃ passed, height ≤ passed ∧ .released passed ∈ history) :
    StaysFound (event :: history) := by
  intro later between before height hashes listed refused bodies hash split pinned unlisted wasRead
    deleted
  cases later with
  | nil =>
    rw [nil_append, List.cons.injEq] at split
    rw [← split.2]
    exact landed _ _ _ _ _ _ _ _ split.1 split.2 pinned unlisted deleted
  | cons first later =>
    rw [cons_append, List.cons.injEq] at split
    exact stays later between before height hashes listed refused bodies hash split.2 pinned unlisted
      wasRead deleted

theorem StaysFound.other (stays : StaysFound history) (other : ∀ bodies, event ≠ .landed bodies) :
    StaysFound (event :: history) :=
  stays.cons fun bodies _ _ _ _ _ _ _ same => absurd same (other bodies)

end Past

section Since

variable {inner : FenceInner} {most : Nat} {height : Height} {since : Fingerprint → List Height}

/-- A body's pin is the highest it was given since it was released. -/
def Highest (inner : FenceInner) (since : Fingerprint → List Height) : Prop :=
  ∀ fp, inner.pins.lookup fp = (since fp).max?

theorem Highest.noteOne {next : FenceInner} {fp : Fingerprint}
    (highest : Highest inner since) (pins : FenceInner.PinsOne most height inner fp next refused) :
    Highest next (System.noteOne next refused height fp since) := by
  intro other
  unfold System.noteOne
  cases found : next.pins.lookup other with
  | none => simp
  | some now =>
    simp only [Option.isNone_some, Bool.false_eq_true, if_false]
    by_cases own : other = fp ∧ refused = false
    · obtain ⟨rfl, rfl⟩ := own
      have set := pins.own
      rw [found, highest other] at set
      simp only [Bool.false_eq_true, if_false] at set
      rw [set, if_pos ⟨rfl, rfl⟩, List.max?_cons]
      cases (since other).max? with
      | none => rfl
      | some top => simp [max_comm]
    · rw [if_neg own, ← highest other]
      by_cases same : other = fp
      · subst same
        have refusal : refused = true := by
          cases refused with
          | true => rfl
          | false => exact absurd ⟨rfl, rfl⟩ own
        have absent := pins.own
        rw [found, refusal] at absent
        cases absent
      · rcases pins.others other same with kept | ⟨dropped, -⟩
        · rw [← kept, found]
        · rw [found] at dropped
          cases dropped

theorem Highest.noteAll (fps : List Fingerprint) (agree : inner.Agree)
    (highest : Highest inner since) :
    Highest (inner.pinAll most height fps).1 (System.noteAll most height inner fps since) := by
  induction fps generalizing inner since with
  | nil => exact highest
  | cons fp fps ih =>
    have one := @pinOne_pinsOne inner height fp most agree
    exact ih one.agree (highest.noteOne one)

theorem Highest.noteReleased {next : FenceInner} (highest : Highest inner since)
    (releases : FenceInner.Releases height inner next) :
    Highest next (System.noteReleased next since) := by
  intro fp
  unfold System.noteReleased
  cases found : next.pins.lookup fp with
  | none => simp
  | some now =>
    simp only [Option.isNone_some, Bool.false_eq_true, if_false]
    rw [← highest fp]
    rcases releases.pins fp with kept | ⟨dropped, -⟩
    · rw [← kept, found]
    · rw [found] at dropped
      cases dropped

end Since

section Step

variable {Hash : Type} {config : FenceConfig Hash} {system next : System Hash}

theorem Fenced.congr (fenced : Fenced config system) (inner : next.inner = system.inner)
    (since : next.since = system.since) (worker : next.worker = system.worker)
    (history : next.history = system.history) : Fenced config next := by
  obtain ⟨inner', committed', bodies', worker', waiting', since', history'⟩ := next
  subst inner since worker history
  exact ⟨⟨fenced.agree, fenced.capped, fenced.highest, fenced.staysFound, fenced.holds,
    fenced.holdEnds⟩, fenced.reached, fenced.marked, fenced.releasing, fenced.covered⟩

theorem Fenced.note {event : Event Hash} (fenced : Fenced config system)
    (other : ∀ bodies, event ≠ .landed bodies)
    (quiet : ∀ height, Unpassed height (event :: system.history) ↔ Unpassed height system.history)
    (listed : ∀ height hashes listed refused, event = .pinned height hashes listed refused →
      ∀ hash ∈ hashes, hash ∈ listed) :
    Fenced config { system with history := event :: system.history } := by
  refine ⟨⟨fenced.agree, fenced.capped, fenced.highest, fenced.staysFound.other other, ?_, ?_⟩, ?_,
    fenced.marked, fenced.releasing, ?_⟩
  · intro height unpassed
    exact fenced.holds height ((quiet height).mp unpassed)
  · intro through isThrough
    exact (quiet through).mpr (fenced.holdEnds through isThrough)
  · intro height reached
    obtain ⟨passed, above, released⟩ := fenced.reached height reached
    exact ⟨passed, above, mem_cons_of_mem _ released⟩
  · intro height hashes isListed refused member hash inHashes unlisted
    rcases mem_cons.mp member with same | earlier
    · exact absurd (listed height hashes isListed refused same.symm hash inHashes) unlisted
    · exact fenced.covered height hashes isListed refused earlier hash inHashes unlisted

theorem Fenced.pin (fenced : Fenced config system) (thread : Nat) (height : Height)
    (hashes : List Hash) : Fenced config (system.pin thread height hashes) := by
  unfold System.pin
  split
  · refine fenced.note (fun _ => nofun) (fun _ => by simp [Unpassed]) ?_
    rintro _ _ _ _ ⟨⟩ hash member
    exact member
  · split
    · refine fenced.note (fun _ => nofun) (fun _ => by simp [Unpassed]) ?_
      rintro _ _ _ _ ⟨⟩ hash member
      exact member
    · exact fenced.congr rfl rfl rfl rfl

theorem Fenced.covered_keeps (fenced : Fenced config system) {inner : FenceInner}
    (keeps : FenceInner.Keeps system.inner inner) {height : Height} {hashes listed : List Hash}
    (member : .pinned height hashes listed refused ∈ system.history) {hash : Hash}
    (inHashes : hash ∈ hashes) (unlisted : hash ∉ listed) :
    inner.Protects (config.fingerprint hash) height :=
  keeps.protects (fenced.covered height hashes listed refused member hash inHashes unlisted)

theorem Fenced.pinHold (fenced : Fenced config system) (thread : Nat) (height : Height)
    (hashes : List Hash) : Fenced config (system.pinHold config thread height hashes) := by
  have pins := @pinAll_pinsAll system.inner height config.maxPins
    (hashes.map config.fingerprint) fenced.agree
  have highest := @Highest.noteAll system.inner config.maxPins height system.since
    (hashes.map config.fingerprint) fenced.agree fenced.highest
  rcases ran : system.inner.pinAll config.maxPins height (hashes.map config.fingerprint) with
    ⟨pinned, refused⟩
  simp only [ran] at pins highest
  simp only [System.pinHold, ran]
  have keeps : FenceInner.Keeps system.inner (pinned.holdThrough height refused) :=
    pins.keeps'.trans (holdThrough_keeps refused)
  have samePins : (pinned.holdThrough height refused).pins = pinned.pins := by
    cases refused <;> rfl
  have sameIndex : (pinned.holdThrough height refused).byHeight = pinned.byHeight := by
    cases refused <;> rfl
  have samePassed : (pinned.holdThrough height refused).passed = system.inner.passed := by
    cases refused <;> exact pins.passed
  have sameDeleting : (pinned.holdThrough height refused).deleting = system.inner.deleting := by
    cases refused <;> exact pins.deleting
  refine ⟨⟨?_, ?_, ?_, fenced.staysFound.other (fun _ => nofun), ?_, ?_⟩, ?_, ?_, ?_, ?_⟩
  · intro fp at'
    simp only [samePins, sameIndex]
    exact pins.agree fp at'
  · simp only [FenceInner.pinned, samePins]
    exact pins.capped fenced.capped
  · intro fp
    simp only [samePins]
    exact highest fp
  · intro at' unpassed
    rcases unpassed with ⟨refusal, rfl⟩ | earlier
    · subst refusal
      exact ⟨_, rfl, le_max_right _ _⟩
    · obtain ⟨through, isThrough, above⟩ := fenced.holds at' earlier
      cases refused with
      | false => exact ⟨through, pins.overflow.trans isThrough, above⟩
      | true =>
        refine ⟨_, rfl, ?_⟩
        rw [pins.overflow, isThrough, Option.getD_some]
        exact le_trans above (le_max_left _ _)
  · intro through isThrough
    cases refused with
    | false => exact .inr (fenced.holdEnds through (pins.overflow.symm.trans isThrough))
    | true =>
      have overflow : pinned.overflowThrough = system.inner.overflowThrough := pins.overflow
      simp only [FenceInner.holdThrough, if_true, Option.some.injEq, overflow] at isThrough
      cases before : system.inner.overflowThrough with
      | none =>
        rw [before, Option.getD_none, max_self] at isThrough
        exact .inl ⟨rfl, isThrough⟩
      | some earlier =>
        rw [before, Option.getD_some] at isThrough
        rcases max_cases earlier height with ⟨isMax, -⟩ | ⟨isMax, -⟩
        · right
          rw [isMax] at isThrough
          rw [← isThrough]
          exact fenced.holdEnds earlier before
        · left
          rw [isMax] at isThrough
          exact ⟨rfl, isThrough⟩
  · rintro at' ⟨passed, isPassed, above⟩
    obtain ⟨released, high, member⟩ := fenced.reached at' ⟨passed, samePassed.symm.trans isPassed, above⟩
    exact ⟨released, high, mem_cons_of_mem _ member⟩
  · intro bodies writing body member
    simp only [sameDeleting]
    exact fenced.marked bodies writing body member
  · rintro at' releasing
    obtain ⟨passed, isPassed, above⟩ := fenced.releasing at' releasing
    exact ⟨passed, samePassed.trans isPassed, above⟩
  · intro at' others listed refusal member hash inHashes unlisted
    rcases mem_cons.mp member with same | earlier
    · cases same
      have unmarked : config.fingerprint hash ∉ (pinned.holdThrough height refused).deleting := by
        intro marked
        apply unlisted
        rw [mem_filter]
        exact ⟨inHashes, contains_iff_mem.mpr marked⟩
      rcases pins.sets (config.fingerprint hash) (mem_map_of_mem inHashes) with
        refusal | pinnedAt | reached
      · subst refusal
        exact .inr ⟨.inr ⟨_, rfl, le_max_right _ _⟩, unmarked⟩
      · obtain ⟨now, lookup, above⟩ := pinnedAt
        exact .inr ⟨.inl ⟨now, samePins ▸ lookup, above⟩, unmarked⟩
      · exact .inl (keeps.reached _ reached)
    · exact fenced.covered_keeps keeps earlier inHashes unlisted

theorem Fenced.releaseHold (fenced : Fenced config system) {height : Height}
    (reached : system.inner.Reached height) : Fenced config (system.releaseHold config height) := by
  have releases := @releaseChunk_releases system.inner height
    (max config.releaseChunk 1) fenced.agree
  rcases ran : system.inner.releaseChunk (max config.releaseChunk 1) height with ⟨inner, more⟩
  rw [ran] at releases
  simp only at releases
  have keeps := releases.keeps reached
  simp only [System.releaseHold, ran]
  refine ⟨⟨releases.agree, releases.capped.trans fenced.capped, ?_, fenced.staysFound, ?_, ?_⟩, ?_, ?_,
    ?_, ?_⟩
  · exact Highest.noteReleased fenced.highest releases
  · intro at' unpassed
    obtain ⟨through, isThrough, above⟩ := fenced.holds at' unpassed
    exact ⟨through, releases.overflow.trans isThrough, above⟩
  · intro through isThrough
    exact fenced.holdEnds through (releases.overflow.symm.trans isThrough)
  · rintro at' ⟨passed, isPassed, above⟩
    exact fenced.reached at' ⟨passed, releases.passed.symm.trans isPassed, above⟩
  · intro bodies writing
    cases more <;> cases writing
  · intro at' releasing
    cases more with
    | false => cases releasing
    | true =>
      cases releasing
      exact keeps.reached _ reached
  · intro at' hashes listed refused member hash inHashes unlisted
    exact fenced.covered_keeps keeps member inHashes unlisted

theorem Fenced.passThrough (fenced : Fenced config system) (height : Height)
    (idle : system.worker = .idle) :
    Fenced config { system with
      inner := system.inner.passThrough height
      history := .released height :: system.history } := by
  have keeps := @passThrough_keeps system.inner height
  refine ⟨⟨fenced.agree, fenced.capped, fenced.highest, fenced.staysFound.other (fun _ => nofun), ?_,
    ?_⟩, ?_, ?_, ?_, ?_⟩
  · rintro at' ⟨above, unpassed⟩
    obtain ⟨through, isThrough, high⟩ := fenced.holds at' unpassed
    have goesOn : ¬ through ≤ height := not_le.mpr (lt_of_lt_of_le above high)
    refine ⟨through, ?_, high⟩
    simp [FenceInner.passThrough, isThrough, goesOn]
  · intro through isThrough
    cases before : system.inner.overflowThrough with
    | none => simp [FenceInner.passThrough, before] at isThrough
    | some earlier =>
      by_cases ended : earlier ≤ height
      · simp [FenceInner.passThrough, before, ended] at isThrough
      · simp only [FenceInner.passThrough, before, ended, if_false, Option.some.injEq] at isThrough
        rw [← isThrough]
        exact ⟨not_le.mp ended, fenced.holdEnds earlier before⟩
  · rintro at' ⟨passed, isPassed, above⟩
    cases before : system.inner.passed with
    | none =>
      simp only [FenceInner.passThrough, before, Option.some.injEq] at isPassed
      exact ⟨height, isPassed ▸ above, mem_cons_self⟩
    | some earlier =>
      simp only [FenceInner.passThrough, before, Option.some.injEq] at isPassed
      rcases le_max_iff.mp (isPassed ▸ above) with below | below
      · obtain ⟨released, high, member⟩ := fenced.reached at' ⟨earlier, before, below⟩
        exact ⟨released, high, mem_cons_of_mem _ member⟩
      · exact ⟨height, below, mem_cons_self⟩
  · intro bodies writing
    rw [idle] at writing
    cases writing
  · intro at' releasing
    rw [idle] at releasing
    cases releasing
  · intro at' hashes listed refused member hash inHashes unlisted
    rcases mem_cons.mp member with same | earlier
    · cases same
    · exact fenced.covered_keeps keeps earlier inHashes unlisted

theorem Fenced.beginDelete (fenced : Fenced config system) (bodies : List (Hash × Nat)) :
    Fenced config { system with
      inner := (system.inner.beginDelete config.fingerprint bodies).1
      worker := .writing (system.inner.beginDelete config.fingerprint bodies).2 } := by
  have marks := @beginDelete_marks system.inner Hash config.fingerprint bodies
  rcases ran : system.inner.beginDelete config.fingerprint bodies with ⟨inner, kept⟩
  rw [ran] at marks
  simp only at marks
  refine ⟨⟨?_, ?_, ?_, fenced.staysFound, ?_, ?_⟩, ?_, ?_, ?_, ?_⟩
  · intro fp at'
    simp only [marks.pins, marks.byHeight]
    exact fenced.agree fp at'
  · simp only [FenceInner.pinned, marks.pins]
    exact fenced.capped
  · intro fp
    simp only [marks.pins]
    exact fenced.highest fp
  · intro at' unpassed
    obtain ⟨through, isThrough, above⟩ := fenced.holds at' unpassed
    exact ⟨through, marks.overflow.trans isThrough, above⟩
  · intro through isThrough
    exact fenced.holdEnds through (marks.overflow.symm.trans isThrough)
  · rintro at' ⟨passed, isPassed, above⟩
    exact fenced.reached at' ⟨passed, marks.passed.symm.trans isPassed, above⟩
  · intro others writing
    cases writing
    exact marks.kept
  · intro at' releasing
    cases releasing
  · intro at' hashes listed refused member hash inHashes unlisted
    exact marks.protects (fenced.covered at' hashes listed refused member hash inHashes unlisted)

theorem Fenced.batchLands (fenced : Fenced config system) {bodies : List (Hash × Nat)}
    (writing : system.worker = .writing bodies) {stored : Hash → Bool} :
    Fenced config { system with
      bodies := stored
      worker := .written
      history := .landed bodies :: system.history } := by
  refine ⟨⟨fenced.agree, fenced.capped, fenced.highest, fenced.staysFound.cons ?_, fenced.holds,
    fenced.holdEnds⟩, ?_, fun _ => nofun, fun _ => nofun, ?_⟩
  · rintro _ between before height hashes listed refused hash ⟨⟩ split inHashes unlisted deleted
    have member : .pinned height hashes listed refused ∈ system.history := by
      rw [split]
      simp
    obtain ⟨body, inBatch, rfl⟩ := mem_map.mp deleted
    have marked := fenced.marked bodies writing body inBatch
    rcases fenced.covered height hashes listed refused member body.1 inHashes unlisted with
      reached | ⟨-, unmarked⟩
    · exact fenced.reached height reached
    · exact absurd marked unmarked
  · intro at' reached
    obtain ⟨passed, above, released⟩ := fenced.reached at' reached
    exact ⟨passed, above, mem_cons_of_mem _ released⟩
  · intro at' hashes listed refused member hash inHashes unlisted
    rcases mem_cons.mp member with same | earlier
    · cases same
    · exact fenced.covered at' hashes listed refused earlier hash inHashes unlisted

theorem Fenced.endDelete (fenced : Fenced config system) :
    Fenced config { system with inner := system.inner.endDelete, worker := .idle } := by
  have keeps : FenceInner.Keeps system.inner system.inner.endDelete :=
    ⟨fun _ => id, fun _ _ => .inl, fun _ => .inl, by simp [FenceInner.endDelete]⟩
  refine ⟨⟨fenced.agree, fenced.capped, fenced.highest, fenced.staysFound, fenced.holds,
    fenced.holdEnds⟩, fenced.reached, fun _ => nofun, fun _ => nofun, ?_⟩
  intro at' hashes listed refused member hash inHashes unlisted
  exact fenced.covered_keeps keeps member inHashes unlisted

variable [DecidableEq Hash]

/-- Every action keeps the fence, whichever thread takes it. -/
theorem Fenced.step (fenced : Fenced config system) (action : Action Hash) :
    Fenced config (system.step config action) := by
  cases action with
  | pin thread height hashes =>
    simp only [System.step]
    split
    · exact fenced.pin thread height hashes
    · exact fenced
  | pinHold thread =>
    simp only [System.step]
    split
    · exact fenced
    · exact fenced.pinHold thread _ _
  | read hash =>
    exact fenced.note (fun _ => nofun) (fun _ => by simp [Unpassed]) (fun _ _ _ _ => nofun)
  | store hash => exact fenced.congr rfl rfl rfl rfl
  | noteCommitted height => exact fenced.congr rfl rfl rfl rfl
  | beginDelete bodies =>
    simp only [System.step]
    split
    · exact fenced.beginDelete bodies
    · exact fenced
  | batchLands =>
    simp only [System.step]
    split
    · rename_i bodies writing
      exact fenced.batchLands writing
    · exact fenced
  | batchFails =>
    simp only [System.step]
    split
    · refine ⟨⟨fenced.agree, fenced.capped, fenced.highest, fenced.staysFound, fenced.holds,
        fenced.holdEnds⟩, fenced.reached, fun _ => nofun, fun _ => nofun, fenced.covered⟩
    · exact fenced
  | endDelete =>
    simp only [System.step]
    split
    · exact fenced.endDelete
    · exact fenced
  | release height =>
    simp only [System.step]
    split
    · rename_i idle
      exact (fenced.passThrough height idle).releaseHold (system.inner.passThrough_reached height)
    · exact fenced
  | releaseNext =>
    simp only [System.step]
    split
    · rename_i height releasing
      exact fenced.releaseHold (fenced.releasing height releasing)
    · exact fenced

end Step

def System.start {Hash : Type} (committed : Height) (bodies : Hash → Bool) : System Hash where
  committed := committed
  bodies := bodies

theorem System.start_fenced {Hash : Type} (config : FenceConfig Hash) (committed : Height)
    (bodies : Hash → Bool) : Fenced config (System.start committed bodies) := by
  refine ⟨⟨?_, Nat.zero_le _, fun _ => rfl, ?_, fun _ => nofun, fun _ => nofun⟩, ?_, fun _ => nofun,
    fun _ => nofun, fun _ _ _ _ => nofun⟩
  · intro fp height
    constructor <;> exact nofun
  · intro later between before height hashes listed refused deleted hash split
    cases later <;> cases split
  · rintro height ⟨passed, isPassed, -⟩
    cases isPassed

/-- Whatever the threads and the worker do, in whatever order, a body found present after its pin
stays until the worker passed the pin's height, and the pins stay exact and bounded. -/
theorem System.run_fenceSafe {Hash : Type} [DecidableEq Hash] (config : FenceConfig Hash)
    (committed : Height) (bodies : Hash → Bool) (actions : List (Action Hash)) :
    FenceSafe config ((System.start committed bodies).run config actions) := by
  have fenced : ∀ system, Fenced config system → Fenced config (system.run config actions) := by
    induction actions with
    | nil => exact fun system fenced => fenced
    | cons action actions ih => exact fun system fenced => ih _ (fenced.step action)
  exact (fenced _ (System.start_fenced config committed bodies)).toFenceSafe

end TorusHyperBft.State
