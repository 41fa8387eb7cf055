import TorusHyperBft.State.Flat
import TorusHyperBft.RunningHash.Digest

namespace TorusHyperBft.State

open List OrderedMap
open RunningHash (Key Value ColumnFamily PendingState)

/-! The undo trail of the overlay: transaction scopes and call-frame checkpoints. -/

inductive AtomicWriteOp where
  | put (cf : ColumnFamily) (key : Key) (value : Value)
  | delete (cf : ColumnFamily) (key : Key)
deriving DecidableEq

namespace AtomicWriteOp

def cf : AtomicWriteOp → ColumnFamily
  | put cf _ _ => cf
  | delete cf _ => cf

def key : AtomicWriteOp → Key
  | put _ key _ => key
  | delete _ key => key

def apply (op : AtomicWriteOp) (cfs : PendingState) : PendingState :=
  match op with
  | put cf key value => Function.update cfs cf ((cfs cf).put key value)
  | delete cf key => Function.update cfs cf ((cfs cf).delete key)

end AtomicWriteOp

/-- A mutated key and what the pending set held for it before. -/
structure JournalEntry where
  cf : ColumnFamily
  key : Key
  prevWrite : Option Value
  prevDeleted : Bool

def restore {ν : Type} (key : Key) (previous : Option ν) (map : OrderedMap Key ν) : OrderedMap Key ν :=
  match previous with
  | some value => map.insert key value
  | none => map.erase key

def JournalEntry.undo (entry : JournalEntry) (cfs : PendingState) :
    PendingState :=
  Function.update cfs entry.cf
    { writes := restore entry.key entry.prevWrite (cfs entry.cf).writes
      deletes := if entry.prevDeleted then (cfs entry.cf).deletes.insert entry.key ()
        else (cfs entry.cf).deletes.erase entry.key }

/-- What a call answers: nothing, an error on a frozen overlay, or some keys. -/
inductive Answer where
  | done
  | frozen
  | keys (keys : List Key)
deriving DecidableEq

/-- The pending set with its undo trail.  The trail and the savepoints are stacks: the newest
entry stands first. -/
structure Journal where
  cfs : PendingState
  journalLog : List JournalEntry := []
  checkpoints : List Nat := []
  frozen : Bool := false

namespace Journal

def record (journal : Journal) (cf : ColumnFamily) (key : Key) : Journal :=
  if journal.checkpoints.isEmpty then journal
  else
    let entry : JournalEntry :=
      { cf, key
        prevWrite := (journal.cfs cf).writes.lookup key
        prevDeleted := ((journal.cfs cf).deletes.lookup key).isSome }
    { journal with journalLog := entry :: journal.journalLog }

def write (journal : Journal) (op : AtomicWriteOp) : Journal :=
  let recorded := journal.record op.cf op.key
  { recorded with cfs := op.apply recorded.cfs }

def atomicWrite (journal : Journal) (ops : List AtomicWriteOp) : Journal × Answer :=
  if journal.frozen then (journal, .frozen) else (ops.foldl write journal, .done)

def putCfRaw (journal : Journal) (cf : ColumnFamily) (key : Key) (value : Value) : Journal × Answer :=
  if journal.frozen then (journal, .frozen) else (journal.write (.put cf key value), .done)

def deleteCfRaw (journal : Journal) (cf : ColumnFamily) (key : Key) : Journal × Answer :=
  if journal.frozen then (journal, .frozen) else (journal.write (.delete cf key), .done)

def beginTx (journal : Journal) : Journal :=
  { journal with journalLog := [], checkpoints := [0] }

def keepTx (journal : Journal) : Journal :=
  { journal with journalLog := [], checkpoints := [] }

/-- The keys of a family in the trail, from the oldest entry on, that are pending writes. -/
def writtenKeys (journal : Journal) (cf : ColumnFamily) : List Key :=
  (journal.journalLog.reverse.filter fun entry => entry.cf = cf).foldl
    (fun keys entry =>
      if ((journal.cfs cf).writes.lookup entry.key).isSome && !keys.contains entry.key
      then keys ++ [entry.key] else keys) []

def keepTxWrittenKeys (journal : Journal) (cf : ColumnFamily) : Journal × Answer :=
  (journal.keepTx, .keys (journal.writtenKeys cf))

def checkpoint (journal : Journal) : Journal :=
  { journal with checkpoints := journal.journalLog.length :: journal.checkpoints }

def commitCheckpoint (journal : Journal) : Journal :=
  let checkpoints := journal.checkpoints.tail
  { journal with
    checkpoints
    journalLog := if checkpoints.isEmpty then [] else journal.journalLog }

/-- Entries are undone from the newest on while the trail is longer than the target. -/
def rollback (target : Nat) : List JournalEntry → PendingState →
    List JournalEntry × PendingState
  | [], cfs => ([], cfs)
  | entry :: log, cfs =>
    if target < log.length + 1 then rollback target log (entry.undo cfs) else (entry :: log, cfs)

def revertToCheckpoint (journal : Journal) : Journal :=
  match journal.checkpoints with
  | [] => journal
  | target :: checkpoints =>
    let rolled := rollback target journal.journalLog journal.cfs
    { journal with journalLog := rolled.1, cfs := rolled.2, checkpoints }

def revertTx (journal : Journal) : Journal :=
  revertToCheckpoint { journal with checkpoints := [0] }

end Journal

inductive FrameOp where
  | beginTx
  | keepTx
  | keepTxWrittenKeys (cf : ColumnFamily)
  | revertTx
  | checkpoint
  | commitCheckpoint
  | revertToCheckpoint
  | putCfRaw (cf : ColumnFamily) (key : Key) (value : Value)
  | deleteCfRaw (cf : ColumnFamily) (key : Key)
  | atomicWrite (ops : List AtomicWriteOp)

namespace Journal

def step (journal : Journal) : FrameOp → Journal × Answer
  | .beginTx => (journal.beginTx, .done)
  | .keepTx => (journal.keepTx, .done)
  | .keepTxWrittenKeys cf => journal.keepTxWrittenKeys cf
  | .revertTx => (journal.revertTx, .done)
  | .checkpoint => (journal.checkpoint, .done)
  | .commitCheckpoint => (journal.commitCheckpoint, .done)
  | .revertToCheckpoint => (journal.revertToCheckpoint, .done)
  | .putCfRaw cf key value => journal.putCfRaw cf key value
  | .deleteCfRaw cf key => journal.deleteCfRaw cf key
  | .atomicWrite ops => journal.atomicWrite ops

def run (journal : Journal) : List FrameOp → Journal × List Answer
  | [] => (journal, [])
  | op :: ops =>
    let (next, answer) := journal.step op
    let (final, answers) := next.run ops
    (final, answer :: answers)

end Journal

/-- An open scope: the pending set when it was opened and the mutations in it that were not rolled
back, oldest first. -/
structure Frame where
  opened : PendingState
  written : List AtomicWriteOp

/-- The meaning of the calls: a pending set and a stack of open scopes, the innermost first and the
transaction's own last.  Every scope remembers the whole set it was opened on. -/
structure Snapshots where
  pending : PendingState
  frames : List Frame := []
  frozen : Bool := false

namespace Snapshots

def survivors (frames : List Frame) : List AtomicWriteOp := frames.reverse.flatMap Frame.written

def IsPut (cf : ColumnFamily) (key : Key) (op : AtomicWriteOp) : Bool :=
  match op with
  | .put family written _ => family = cf && written = key
  | .delete _ _ => false

/-- The keys of a family that a surviving put has set and that are pending writes: each once, in
the order of the first surviving mutations. -/
def writtenKeys (snaps : Snapshots) (cf : ColumnFamily) : List Key :=
  let ops := survivors snaps.frames
  (((ops.filter fun op => op.cf = cf).map AtomicWriteOp.key).filter fun key =>
    ops.any (IsPut cf key) && ((snaps.pending cf).writes.lookup key).isSome).eraseDups

def note (ops : List AtomicWriteOp) : List Frame → List Frame
  | [] => []
  | frame :: frames => { frame with written := frame.written ++ ops } :: frames

def mutate (snaps : Snapshots) (ops : List AtomicWriteOp) : Snapshots × Answer :=
  if snaps.frozen then (snaps, .frozen)
  else
    ({ snaps with
        pending := ops.foldl (fun pending op => op.apply pending) snaps.pending
        frames := note ops snaps.frames }, .done)

def step (snaps : Snapshots) : FrameOp → Option (Snapshots × Answer)
  | .beginTx =>
    match snaps.frames with
    | [] => some ({ snaps with frames := [⟨snaps.pending, []⟩] }, .done)
    | _ :: _ => none
  | .keepTx =>
    match snaps.frames with
    | [] => none
    | _ :: _ => some ({ snaps with frames := [] }, .done)
  | .keepTxWrittenKeys cf =>
    match snaps.frames with
    | [] => none
    | _ :: _ => some ({ snaps with frames := [] }, .keys (snaps.writtenKeys cf))
  | .revertTx =>
    match snaps.frames.getLast? with
    | none => none
    | some transaction => some ({ snaps with pending := transaction.opened, frames := [] }, .done)
  | .checkpoint =>
    match snaps.frames with
    | [] => none
    | _ :: _ => some ({ snaps with frames := ⟨snaps.pending, []⟩ :: snaps.frames }, .done)
  | .commitCheckpoint =>
    match snaps.frames with
    | inner :: outer :: frames =>
      some ({ snaps with frames :=
        { outer with written := outer.written ++ inner.written } :: frames }, .done)
    | _ => none
  | .revertToCheckpoint =>
    match snaps.frames with
    | inner :: outer :: frames =>
      some ({ snaps with pending := inner.opened, frames := outer :: frames }, .done)
    | _ => none
  | .putCfRaw cf key value => some (snaps.mutate [.put cf key value])
  | .deleteCfRaw cf key => some (snaps.mutate [.delete cf key])
  | .atomicWrite ops => some (snaps.mutate ops)

def run (snaps : Snapshots) : List FrameOp → Option (Snapshots × List Answer)
  | [] => some (snaps, [])
  | op :: ops =>
    match snaps.step op with
    | none => none
    | some (next, answer) =>
      match next.run ops with
      | none => none
      | some (final, answers) => some (final, answer :: answers)

end Snapshots

section Undo

variable {cfs : PendingState} {journal : Journal}

def undoEntry (cfs : PendingState) (op : AtomicWriteOp) : JournalEntry where
  cf := op.cf
  key := op.key
  prevWrite := (cfs op.cf).writes.lookup op.key
  prevDeleted := ((cfs op.cf).deletes.lookup op.key).isSome

theorem restore_lookup {ν : Type} {map changed : OrderedMap Key ν} {key : Key}
    (elsewhere : ∀ other, other ≠ key → changed.lookup other = map.lookup other) :
    restore key (map.lookup key) changed = map := by
  apply ext_lookup
  intro other
  cases found : map.lookup key with
  | none =>
    simp only [restore, lookup_erase]
    by_cases same : other = key
    · rw [if_pos same, same, found]
    · rw [if_neg same, elsewhere other same]
  | some value =>
    simp only [restore, lookup_insert]
    by_cases same : other = key
    · rw [if_pos same, same, found]
    · rw [if_neg same, elsewhere other same]

theorem restore_isSome (key : Key) (previous : Option Unit) (map : OrderedMap Key Unit) :
    (if previous.isSome then map.insert key () else map.erase key) = restore key previous map := by
  cases previous <;> rfl

theorem undo_apply (cfs : PendingState) (op : AtomicWriteOp) :
    (undoEntry cfs op).undo (op.apply cfs) = cfs := by
  have family : ∀ changed : CfPending Key Value,
      (∀ other, other ≠ op.key → changed.writes.lookup other = (cfs op.cf).writes.lookup other) →
      (∀ other, other ≠ op.key → changed.deletes.lookup other = (cfs op.cf).deletes.lookup other) →
      (undoEntry cfs op).undo (Function.update cfs op.cf changed) = cfs := by
    intro changed writes deletes
    simp only [JournalEntry.undo, undoEntry, Function.update_self, Function.update_idem,
      restore_isSome, restore_lookup writes, restore_lookup deletes]
    exact Function.update_eq_self op.cf cfs
  cases op with
  | put cf key value =>
    apply family
    · intro other different
      exact lookup_insert.trans (if_neg different)
    · intro other different
      exact lookup_erase.trans (if_neg different)
  | delete cf key =>
    apply family
    · intro other different
      exact lookup_erase.trans (if_neg different)
    · intro other different
      exact lookup_insert.trans (if_neg different)

def undoAll (entries : List JournalEntry) (cfs : PendingState) : PendingState :=
  entries.foldl (fun cfs entry => entry.undo cfs) cfs

theorem rollback_append (inner outer : List JournalEntry) (cfs : PendingState) :
    Journal.rollback outer.length (inner ++ outer) cfs = (outer, undoAll inner cfs) := by
  induction inner generalizing cfs with
  | nil =>
    cases outer with
    | nil => rfl
    | cons entry outer => simp [Journal.rollback, undoAll]
  | cons entry inner ih =>
    have longer : outer.length < (inner ++ outer).length + 1 := by
      rw [length_append]
      omega
    rw [cons_append, Journal.rollback, if_pos longer]
    exact ih (entry.undo cfs)

theorem write_recorded {target : Nat} {targets : List Nat}
    (open' : journal.checkpoints = target :: targets)
    (op : AtomicWriteOp) : journal.write op =
      { journal with
        cfs := op.apply journal.cfs
        journalLog := undoEntry journal.cfs op :: journal.journalLog } := by
  simp [Journal.write, Journal.record, open', undoEntry]

theorem write_cfs (journal : Journal) (op : AtomicWriteOp) :
    (journal.write op).cfs = op.apply journal.cfs := by
  unfold Journal.write Journal.record
  split <;> rfl

theorem write_frozen (journal : Journal) (op : AtomicWriteOp) :
    (journal.write op).frozen = journal.frozen := by
  unfold Journal.write Journal.record
  split <;> rfl

end Undo

def AtomicWriteOp.place (op : AtomicWriteOp) : ColumnFamily × Key := (op.cf, op.key)

def JournalEntry.place (entry : JournalEntry) : ColumnFamily × Key := (entry.cf, entry.key)

/-- A trail and its savepoints stand for a stack of open scopes over the present pending set. -/
inductive Trails : PendingState → List JournalEntry → List Nat → List Frame → Prop where
  | bottom (pending : PendingState) : Trails pending [] [] []
  | frame {pending : PendingState} {inner outer : List JournalEntry}
      {checkpoints : List Nat} {frame : Frame} {frames : List Frame}
      (undone : undoAll inner pending = frame.opened)
      (replayed : frame.written.foldl (fun pending op => op.apply pending) frame.opened = pending)
      (places : inner.reverse.map JournalEntry.place = frame.written.map AtomicWriteOp.place)
      (below : Trails frame.opened outer checkpoints frames) :
      Trails pending (inner ++ outer) (outer.length :: checkpoints) (frame :: frames)

/-- The overlay keeps what the snapshots say; outside a transaction its trail does not count. -/
structure Mirrors (journal : Journal) (snaps : Snapshots) : Prop where
  pending : journal.cfs = snaps.pending
  frozen : journal.frozen = snaps.frozen
  trail : snaps.frames ≠ [] →
    Trails snaps.pending journal.journalLog journal.checkpoints snaps.frames

section Trails

variable {pending : PendingState} {log : List JournalEntry} {checkpoints : List Nat}
  {frames : List Frame} {inner outer : Frame}

theorem Trails.savepoint (trails : Trails pending log checkpoints (inner :: frames)) :
    ∃ target targets, checkpoints = target :: targets := by
  cases trails with
  | frame => exact ⟨_, _, rfl⟩

theorem Trails.write (trails : Trails pending log checkpoints (inner :: frames))
    (op : AtomicWriteOp) :
    Trails (op.apply pending) (undoEntry pending op :: log) checkpoints
      ({ inner with written := inner.written ++ [op] } :: frames) := by
  cases trails with
  | @frame _ entries rest targets _ _ undone replayed places below =>
    have extended : Trails (op.apply pending) ((undoEntry pending op :: entries) ++ rest)
        (rest.length :: targets) ({ inner with written := inner.written ++ [op] } :: frames) := by
      refine .frame ?_ ?_ ?_ below
      · simpa only [undoAll, foldl_cons, undo_apply] using undone
      · simp only [foldl_append, foldl_cons, foldl_nil, replayed]
      · rw [reverse_cons, map_append, places, map_append]
        rfl
    exact extended

theorem Trails.checkpoint (trails : Trails pending log checkpoints frames) :
    Trails pending log (log.length :: checkpoints) (⟨pending, []⟩ :: frames) :=
  @Trails.frame pending [] log checkpoints ⟨pending, []⟩ frames rfl rfl rfl trails

theorem Trails.commit {target : Nat}
    (trails : Trails pending log (target :: checkpoints) (inner :: outer :: frames)) :
    Trails pending log checkpoints ({ outer with written := outer.written ++ inner.written } :: frames) := by
  cases trails with
  | @frame _ entries _ _ _ _ undone replayed places below =>
    cases below with
    | @frame _ earlier rest targets _ _ undoneOuter replayedOuter placesOuter below =>
      have joined : Trails pending ((entries ++ earlier) ++ rest) (rest.length :: targets)
          ({ outer with written := outer.written ++ inner.written } :: frames) := by
        refine .frame ?_ ?_ ?_ below
        · simp only [undoAll, foldl_append] at undone undoneOuter ⊢
          rw [undone, undoneOuter]
        · simp only [foldl_append, replayedOuter, replayed]
        · simp only [reverse_append, map_append, places, placesOuter]
      rwa [append_assoc] at joined

theorem Trails.revert {target : Nat}
    (trails : Trails pending log (target :: checkpoints) (inner :: frames)) :
    (Journal.rollback target log pending).2 = inner.opened ∧
      Trails inner.opened (Journal.rollback target log pending).1 checkpoints frames := by
  cases trails with
  | frame undone replayed places below =>
    rw [rollback_append]
    exact ⟨undone, below⟩

theorem Trails.undone {transaction : Frame} (trails : Trails pending log checkpoints frames)
    (last : frames.getLast? = some transaction) : undoAll log pending = transaction.opened := by
  induction trails with
  | bottom pending => cases last
  | @frame pending entries rest _ frame frames undone _ _ below ih =>
    rw [undoAll, foldl_append]
    rw [undoAll] at undone
    rw [undone]
    cases frames with
    | nil =>
      cases below
      cases last
      rfl
    | cons next frames => exact ih (by simpa using last)

theorem survivors_cons (frame : Frame) (frames : List Frame) :
    Snapshots.survivors (frame :: frames) = Snapshots.survivors frames ++ frame.written := by
  simp [Snapshots.survivors]

theorem Trails.places (trails : Trails pending log checkpoints frames) :
    log.reverse.map JournalEntry.place =
      (Snapshots.survivors frames).map AtomicWriteOp.place := by
  induction trails with
  | bottom pending => rfl
  | frame _ _ places _ ih =>
    rw [reverse_append, map_append, ih, places, survivors_cons, map_append]

theorem Trails.replayed {transaction : Frame} (trails : Trails pending log checkpoints frames)
    (last : frames.getLast? = some transaction) :
    (Snapshots.survivors frames).foldl (fun pending op => op.apply pending) transaction.opened =
      pending := by
  induction trails with
  | bottom pending => cases last
  | @frame pending entries rest _ frame frames _ replayed _ below ih =>
    rw [survivors_cons, foldl_append]
    cases frames with
    | nil =>
      cases last
      exact replayed
    | cons next frames =>
      rw [ih (by simpa using last)]
      exact replayed

end Trails

section WrittenKeys

variable {pending : PendingState} {cf : ColumnFamily} {key : Key}

theorem foldl_collect (wanted : Key → Bool) (keys collected : List Key) :
    keys.foldl (fun found key => if wanted key && !found.contains key then found ++ [key] else found)
        collected =
      List.eraseDupsBy.loop (· == ·) (keys.filter wanted) collected.reverse := by
  induction keys generalizing collected with
  | nil => simp [List.eraseDupsBy.loop]
  | cons key keys ih =>
    rw [foldl_cons, ih]
    by_cases isWanted : wanted key = true
    · rw [filter_cons_of_pos isWanted, List.eraseDupsBy.loop]
      have contains : (collected.reverse.any fun other => key == other) = collected.contains key := by
        rw [any_reverse, contains_eq_any_beq]
      rw [contains]
      cases known : collected.contains key with
      | true => simp [isWanted]
      | false => simp [isWanted]
    · rw [filter_cons_of_neg isWanted]
      simp [isWanted]

theorem writes_apply_ne {op : AtomicWriteOp} (elsewhere : op.cf ≠ cf ∨ op.key ≠ key) :
    ((op.apply pending) cf).writes.lookup key = (pending cf).writes.lookup key := by
  cases op with
  | put family written value =>
    by_cases same : cf = family
    · subst same
      have different : key ≠ written := by
        rcases elsewhere with other | other
        · exact absurd rfl other
        · exact fun same => other same.symm
      simp only [AtomicWriteOp.apply, Function.update_self, CfPending.put]
      rw [lookup_insert, if_neg different]
    · simp only [AtomicWriteOp.apply, Function.update_of_ne same]
  | delete family written =>
    by_cases same : cf = family
    · subst same
      have different : key ≠ written := by
        rcases elsewhere with other | other
        · exact absurd rfl other
        · exact fun same => other same.symm
      simp only [AtomicWriteOp.apply, Function.update_self, CfPending.delete]
      rw [lookup_erase, if_neg different]
    · simp only [AtomicWriteOp.apply, Function.update_of_ne same]

theorem put_of_touched (ops : List AtomicWriteOp) (start : PendingState)
    (touched : ∃ op ∈ ops, op.cf = cf ∧ op.key = key)
    (written : ((ops.foldl (fun pending op => op.apply pending) start) cf).writes.lookup key ≠ none) :
    ops.any (Snapshots.IsPut cf key) = true := by
  induction ops using List.reverseRecOn with
  | nil => simp at touched
  | append_singleton ops last ih =>
    rw [foldl_append, foldl_cons, foldl_nil] at written
    rw [any_append, Bool.or_eq_true]
    by_cases here : last.cf = cf ∧ last.key = key
    · right
      cases last with
      | put family at' value => simpa [Snapshots.IsPut, AtomicWriteOp.cf, AtomicWriteOp.key] using here
      | delete family at' =>
        obtain ⟨rfl, rfl⟩ := here
        simp [AtomicWriteOp.apply, AtomicWriteOp.cf, AtomicWriteOp.key, CfPending.delete,
          lookup_erase] at written
    · left
      rw [writes_apply_ne (not_and_or.mp here)] at written
      refine ih ?_ written
      obtain ⟨op, member, sameCf, sameKey⟩ := touched
      rcases mem_append.mp member with earlier | isLast
      · exact ⟨op, earlier, sameCf, sameKey⟩
      · rw [mem_singleton.mp isLast] at sameCf sameKey
        exact absurd ⟨sameCf, sameKey⟩ here

theorem writtenKeys_eq {journal : Journal} {snaps : Snapshots} (mirrors : Mirrors journal snaps)
    (open' : snaps.frames ≠ []) (cf : ColumnFamily) :
    journal.writtenKeys cf = snaps.writtenKeys cf := by
  obtain ⟨transaction, last⟩ : ∃ transaction, snaps.frames.getLast? = some transaction :=
    ⟨_, List.getLast?_eq_getLast_of_ne_nil open'⟩
  have trails := mirrors.trail open'
  have keys : (journal.journalLog.reverse.filter fun entry => entry.cf = cf).map JournalEntry.key =
      ((Snapshots.survivors snaps.frames).filter fun op => op.cf = cf).map AtomicWriteOp.key := by
    have filtered := congrArg (fun places => (places.filter fun place => place.1 = cf).map Prod.snd)
      trails.places
    simp only [filter_map, map_map] at filtered
    exact filtered
  have collected := foldl_collect (fun key => ((journal.cfs cf).writes.lookup key).isSome)
    ((journal.journalLog.reverse.filter fun entry => entry.cf = cf).map JournalEntry.key) []
  rw [foldl_map] at collected
  rw [Journal.writtenKeys, collected, keys, mirrors.pending, Snapshots.writtenKeys]
  have wanted : ∀ key ∈ ((Snapshots.survivors snaps.frames).filter fun op => op.cf = cf).map
      AtomicWriteOp.key, ((snaps.pending cf).writes.lookup key).isSome =
        ((Snapshots.survivors snaps.frames).any (Snapshots.IsPut cf key) &&
          ((snaps.pending cf).writes.lookup key).isSome) := by
    intro key member
    obtain ⟨op, inFamily, rfl⟩ := mem_map.mp member
    obtain ⟨survives, family⟩ := mem_filter.mp inFamily
    cases found : (snaps.pending cf).writes.lookup op.key with
    | none => simp
    | some value =>
      have isPut := put_of_touched (Snapshots.survivors snaps.frames) transaction.opened
        ⟨op, survives, of_decide_eq_true family, rfl⟩ (by simp [trails.replayed last, found])
      simp [isPut]
  rw [filter_congr wanted]
  rfl

end WrittenKeys

section Step

variable {journal : Journal} {snaps next : Snapshots} {answer : Answer}

theorem foldl_write_cfs (ops : List AtomicWriteOp) (journal : Journal) :
    (ops.foldl Journal.write journal).cfs = ops.foldl
    (fun pending op => op.apply pending) journal.cfs := by
  induction ops generalizing journal with
  | nil => rfl
  | cons op ops ih => rw [foldl_cons, ih, write_cfs, foldl_cons]

theorem foldl_write_frozen (ops : List AtomicWriteOp) (journal : Journal) :
    (ops.foldl Journal.write journal).frozen = journal.frozen := by
  induction ops generalizing journal with
  | nil => rfl
  | cons op ops ih => rw [foldl_cons, ih, write_frozen]

theorem Trails.writes {frames : List Frame} {inner : Frame}
    (ops : List AtomicWriteOp)
    (trails : Trails journal.cfs journal.journalLog journal.checkpoints (inner :: frames)) :
    Trails (ops.foldl Journal.write journal).cfs (ops.foldl Journal.write journal).journalLog
      (ops.foldl Journal.write journal).checkpoints
      ({ inner with written := inner.written ++ ops } :: frames) := by
  induction ops generalizing journal inner with
  | nil => simpa using trails
  | cons op ops ih =>
    obtain ⟨target, targets, opened⟩ := trails.savepoint
    have written := trails.write op
    have recorded := write_recorded opened op
    have later := @ih (journal.write op) { inner with written := inner.written ++ [op] } (by
      rw [recorded]
      exact written)
    simpa using later

theorem Mirrors.mutate (mirrors : Mirrors journal snaps) (ops : List AtomicWriteOp) :
    Mirrors (journal.atomicWrite ops).1 (snaps.mutate ops).1 ∧
      (journal.atomicWrite ops).2 = (snaps.mutate ops).2 := by
  unfold Journal.atomicWrite Snapshots.mutate
  rw [mirrors.frozen]
  split
  · exact ⟨mirrors, rfl⟩
  · refine ⟨⟨?_, ?_, ?_⟩, rfl⟩
    · rw [foldl_write_cfs, mirrors.pending]
    · rw [foldl_write_frozen, mirrors.frozen]
    · intro open'
      cases frames : snaps.frames with
      | nil => simp [frames, Snapshots.note] at open'
      | cons inner outer =>
        have trails := mirrors.trail (by simp [frames])
        rw [frames, ← mirrors.pending] at trails
        have extended := trails.writes ops
        rw [foldl_write_cfs, mirrors.pending] at extended
        exact extended

/-- A call on the journal answers as it does on whole snapshots. -/
theorem Mirrors.step {op : FrameOp} (mirrors : Mirrors journal snaps)
    (stepped : snaps.step op = some (next, answer)) :
    Mirrors (journal.step op).1 next ∧ (journal.step op).2 = answer := by
  cases op with
  | beginTx =>
    simp only [Snapshots.step] at stepped
    split at stepped
    · cases stepped
      exact ⟨⟨mirrors.pending, mirrors.frozen, fun _ => (Trails.bottom snaps.pending).checkpoint⟩, rfl⟩
    · cases stepped
  | keepTx =>
    simp only [Snapshots.step] at stepped
    split at stepped
    · cases stepped
    · cases stepped
      exact ⟨⟨mirrors.pending, mirrors.frozen, fun open' => absurd rfl open'⟩, rfl⟩
  | keepTxWrittenKeys cf =>
    simp only [Snapshots.step] at stepped
    split at stepped
    · cases stepped
    · rename_i frames
      cases stepped
      refine ⟨⟨mirrors.pending, mirrors.frozen, fun open' => absurd rfl open'⟩, ?_⟩
      exact congrArg Answer.keys (writtenKeys_eq mirrors (by simp [frames]) cf)
  | revertTx =>
    simp only [Snapshots.step] at stepped
    split at stepped
    · cases stepped
    · rename_i transaction last
      cases stepped
      have nonempty : snaps.frames ≠ [] := by
        intro none'
        simp [none'] at last
      have undone := (mirrors.trail nonempty).undone last
      have rolled := rollback_append journal.journalLog [] journal.cfs
      rw [append_nil, mirrors.pending, undone] at rolled
      refine ⟨⟨?_, mirrors.frozen, fun open' => absurd rfl open'⟩, rfl⟩
      simp only [Journal.step, Journal.revertTx, Journal.revertToCheckpoint]
      rw [mirrors.pending]
      exact congrArg Prod.snd rolled
  | checkpoint =>
    simp only [Snapshots.step] at stepped
    split at stepped
    · cases stepped
    · rename_i frames
      cases stepped
      exact ⟨⟨mirrors.pending, mirrors.frozen, fun _ => (mirrors.trail (by simp [frames])).checkpoint⟩,
        rfl⟩
  | commitCheckpoint =>
    simp only [Snapshots.step] at stepped
    split at stepped
    · rename_i inner outer rest frames
      cases stepped
      have trails := mirrors.trail (by simp [frames])
      rw [frames] at trails
      obtain ⟨target, targets, opened⟩ := trails.savepoint
      rw [opened] at trails
      have merged := trails.commit
      obtain ⟨target', targets', openedBelow⟩ := merged.savepoint
      refine ⟨⟨mirrors.pending, mirrors.frozen, fun _ => ?_⟩, rfl⟩
      simpa [Journal.step, Journal.commitCheckpoint, opened, openedBelow] using merged
    · cases stepped
  | revertToCheckpoint =>
    simp only [Snapshots.step] at stepped
    split at stepped
    · rename_i inner outer rest frames
      cases stepped
      have trails := mirrors.trail (by simp [frames])
      rw [frames] at trails
      obtain ⟨target, targets, opened⟩ := trails.savepoint
      rw [opened] at trails
      have reverted := trails.revert
      refine ⟨⟨?_, ?_, fun _ => ?_⟩, rfl⟩
      · simp only [Journal.step, Journal.revertToCheckpoint, opened, mirrors.pending]
        exact reverted.1
      · simp only [Journal.step, Journal.revertToCheckpoint, opened]
        exact mirrors.frozen
      · simp only [Journal.step, Journal.revertToCheckpoint, opened, mirrors.pending]
        exact reverted.2
    · cases stepped
  | putCfRaw cf key value =>
    have mutated := mirrors.mutate [.put cf key value]
    rw [Option.some.inj stepped] at mutated
    exact mutated
  | deleteCfRaw cf key =>
    have mutated := mirrors.mutate [.delete cf key]
    rw [Option.some.inj stepped] at mutated
    exact mutated
  | atomicWrite ops =>
    have mutated := mirrors.mutate ops
    rw [Option.some.inj stepped] at mutated
    exact mutated

end Step

section Run

variable {journal : Journal} {snaps next final : Snapshots} {answer : Answer} {answers : List Answer}
  {pending : PendingState}

/-- No key is both written and deleted. -/
def Apart (pending : PendingState) : Prop := ∀ cf, (pending cf).Disjoint

theorem Apart.apply (apart : Apart pending) (op : AtomicWriteOp) : Apart (op.apply pending) := by
  intro cf key deleted
  cases op with
  | put family written value =>
    by_cases same : cf = family
    · subst same
      simp only [AtomicWriteOp.apply, Function.update_self, CfPending.put] at deleted ⊢
      rw [lookup_erase] at deleted
      by_cases here : key = written
      · simp [here] at deleted
      · rw [if_neg here] at deleted
        rw [lookup_insert, if_neg here]
        exact apart cf key deleted
    · simp only [AtomicWriteOp.apply, Function.update_of_ne same] at deleted ⊢
      exact apart cf key deleted
  | delete family written =>
    by_cases same : cf = family
    · subst same
      simp only [AtomicWriteOp.apply, Function.update_self, CfPending.delete] at deleted ⊢
      rw [lookup_insert] at deleted
      by_cases here : key = written
      · rw [lookup_erase, if_pos here]
      · rw [if_neg here] at deleted
        rw [lookup_erase, if_neg here]
        exact apart cf key deleted
    · simp only [AtomicWriteOp.apply, Function.update_of_ne same] at deleted ⊢
      exact apart cf key deleted

theorem Apart.foldl (apart : Apart pending) (ops : List AtomicWriteOp) :
    Apart (ops.foldl (fun pending op => op.apply pending) pending) := by
  induction ops generalizing pending with
  | nil => exact apart
  | cons op ops ih => exact ih (apart.apply op)

/-- The pending set and every remembered one keep writes and tombstones apart. -/
structure Snapshots.Apart (snaps : Snapshots) : Prop where
  pending : State.Apart snaps.pending
  opened : ∀ frame ∈ snaps.frames, State.Apart frame.opened

theorem Snapshots.Apart.mutate (apart : snaps.Apart) (ops : List AtomicWriteOp) :
    (snaps.mutate ops).1.Apart := by
  unfold Snapshots.mutate
  split
  · exact apart
  · refine ⟨apart.pending.foldl ops, ?_⟩
    cases frames : snaps.frames with
    | nil => simp [Snapshots.note]
    | cons inner outer =>
      have opened := apart.opened
      rw [frames] at opened
      simpa [Snapshots.note] using opened

theorem Snapshots.Apart.step {op : FrameOp} (apart : snaps.Apart)
    (stepped : snaps.step op = some (next, answer)) : next.Apart := by
  have kept := apart.opened
  cases op with
  | beginTx =>
    simp only [Snapshots.step] at stepped
    split at stepped
    · cases stepped
      exact ⟨apart.pending, by simpa using apart.pending⟩
    · cases stepped
  | keepTx =>
    simp only [Snapshots.step] at stepped
    split at stepped
    · cases stepped
    · cases stepped
      exact ⟨apart.pending, by simp⟩
  | keepTxWrittenKeys cf =>
    simp only [Snapshots.step] at stepped
    split at stepped
    · cases stepped
    · cases stepped
      exact ⟨apart.pending, by simp⟩
  | revertTx =>
    simp only [Snapshots.step] at stepped
    split at stepped
    · cases stepped
    · rename_i transaction last
      cases stepped
      exact ⟨kept transaction (mem_of_getLast? last), by simp⟩
  | checkpoint =>
    simp only [Snapshots.step] at stepped
    split at stepped
    · cases stepped
    · cases stepped
      refine ⟨apart.pending, ?_⟩
      intro frame member
      rcases mem_cons.mp member with rfl | member
      · exact apart.pending
      · exact kept frame member
  | commitCheckpoint =>
    simp only [Snapshots.step] at stepped
    split at stepped
    · rename_i inner outer rest frames
      cases stepped
      rw [frames] at kept
      refine ⟨apart.pending, ?_⟩
      intro frame member
      rcases mem_cons.mp member with rfl | member
      · exact kept outer (by simp)
      · exact kept frame (by simp [member])
    · cases stepped
  | revertToCheckpoint =>
    simp only [Snapshots.step] at stepped
    split at stepped
    · rename_i inner outer rest frames
      cases stepped
      rw [frames] at kept
      exact ⟨kept inner (by simp), fun frame member => kept frame (mem_cons_of_mem _ member)⟩
    · cases stepped
  | putCfRaw cf key value =>
    have mutated := apart.mutate [.put cf key value]
    rwa [Option.some.inj stepped] at mutated
  | deleteCfRaw cf key =>
    have mutated := apart.mutate [.delete cf key]
    rwa [Option.some.inj stepped] at mutated
  | atomicWrite ops =>
    have mutated := apart.mutate ops
    rwa [Option.some.inj stepped] at mutated

/-- The journal answers every nested run as whole snapshots do. -/
theorem Mirrors.run (mirrors : Mirrors journal snaps) (ops : List FrameOp)
    (nested : snaps.run ops = some (final, answers)) :
    Mirrors (journal.run ops).1 final ∧ (journal.run ops).2 = answers ∧
      (snaps.Apart → final.Apart) := by
  induction ops generalizing journal snaps final answers with
  | nil =>
    cases nested
    exact ⟨mirrors, rfl, id⟩
  | cons op ops ih =>
    simp only [Snapshots.run] at nested
    split at nested
    · cases nested
    · rename_i next answer stepped
      split at nested
      · cases nested
      · rename_i last later ran
        cases nested
        obtain ⟨mirrorsNext, sameAnswer⟩ := mirrors.step stepped
        obtain ⟨mirrorsFinal, sameAnswers, apart⟩ := ih mirrorsNext ran
        refine ⟨mirrorsFinal, ?_, fun apart' => apart (apart'.step stepped)⟩
        rw [Journal.run, ← sameAnswer, ← sameAnswers]

end Run

/-- Calls that are nested in transaction scopes have on the overlay the meaning they have on whole
snapshots of the pending set: a revert restores the set its scope was opened on, the other scope
calls leave the set alone, and the kept keys are those of the surviving mutations. -/
theorem run_exact {start : Journal} {ops : List FrameOp} {final : Snapshots} {answers : List Answer}
    (nested : Snapshots.run { pending := start.cfs, frozen := start.frozen } ops =
      some (final, answers)) :
    (start.run ops).1.cfs = final.pending ∧ (start.run ops).2 = answers ∧
      (Apart start.cfs → Apart (start.run ops).1.cfs) := by
  have begins : Mirrors start { pending := start.cfs, frozen := start.frozen } :=
    ⟨rfl, rfl, fun open' => absurd rfl open'⟩
  obtain ⟨mirrors, sameAnswers, apart⟩ := begins.run ops nested
  refine ⟨mirrors.pending, sameAnswers, ?_⟩
  intro startApart
  rw [mirrors.pending]
  exact (apart ⟨startApart, by simp⟩).pending

def caughtFrame : List FrameOp :=
  [.beginTx, .putCfRaw .nativeBbo [1] [7], .checkpoint, .putCfRaw .nativeBbo [2] [8],
    .deleteCfRaw .nativeBbo [1], .revertToCheckpoint, .keepTxWrittenKeys .nativeBbo]

theorem run_exact_caughtFrame :
    ∃ final answers,
      Snapshots.run { pending := fun _ => {} } caughtFrame = some (final, answers) ∧
        ((⟨fun _ => {}, [], [], false⟩ : Journal).run caughtFrame).1.cfs = final.pending ∧
        ((⟨fun _ => {}, [], [], false⟩ : Journal).run caughtFrame).2 = answers ∧
        answers.getLast? = some (.keys [[1]]) := by
  have exactly := @run_exact ⟨fun _ => {}, [], [], false⟩ caughtFrame _ _ rfl
  exact ⟨_, _, rfl, exactly.1, exactly.2.1, rfl⟩

end TorusHyperBft.State
