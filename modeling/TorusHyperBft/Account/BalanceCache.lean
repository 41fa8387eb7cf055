import TorusHyperBft.Account.Row

namespace TorusHyperBft.Account

open List
open OrderBook (Address)

/-! The write-back cache of balances, and the undo log of its streamed region.

The region may be rolled back and replayed.  Only the first write to an entry is logged; a flag on
the entry says that it is. -/

structure CachedBalance where
  balance : NativeBalance
  dirty : Bool
  logged : Bool
deriving DecidableEq

/-- The length of the dirty list when the region began, and what each entry was before the region
first set it. -/
structure BalanceUndo where
  dirtyLen : Nat
  prior : List (Address × Option (NativeBalance × Bool)) := []

structure BalanceCache (ε : Type) where
  map : Address → Option CachedBalance := fun _ => none
  dirty : List Address := []
  undo : Option BalanceUndo := none
  latched : Address → List ε := fun _ => []

namespace BalanceCache

variable {ε : Type}

def beginUndo (cache : BalanceCache ε) : BalanceCache ε :=
  { cache with undo := some { dirtyLen := cache.dirty.length } }

def restore (map : Address → Option CachedBalance)
    (logged : Address × Option (NativeBalance × Bool)) : Address → Option CachedBalance :=
  match logged.2 with
  | some (balance, dirty) =>
    match map logged.1 with
    | some _ => Function.update map logged.1 (some { balance, dirty, logged := false })
    | none => map
  | none => Function.update map logged.1 none

def rollbackUndo (cache : BalanceCache ε) : BalanceCache ε :=
  match cache.undo with
  | none => cache
  | some undo =>
    { cache with
      map := undo.prior.reverse.foldl restore cache.map
      dirty := cache.dirty.take undo.dirtyLen
      undo := none }

def noteReadFault (cache : BalanceCache ε) (addr : Address) (err : ε) : BalanceCache ε :=
  if cache.undo.isSome then
    { cache with latched := Function.update cache.latched addr (cache.latched addr ++ [err]) }
  else cache

def readThrough (cache : BalanceCache ε) (read : Except ε NativeBalance) (addr : Address) :
    Except ε NativeBalance × BalanceCache ε :=
  match cache.map addr with
  | some entry => (.ok entry.balance, cache)
  | none =>
    match read with
    | .error err => (.error err, cache)
    | .ok balance =>
      (.ok balance,
        { cache with
          map := Function.update cache.map addr
            (some { balance, dirty := false, logged := false }) })

def load (cache : BalanceCache ε) (read : Except ε NativeBalance) (addr : Address) :
    Except ε NativeBalance × BalanceCache ε :=
  match cache.undo, cache.latched addr with
  | none, err :: later =>
    (.error err, { cache with latched := Function.update cache.latched addr later })
  | _, _ => cache.readThrough read addr

/-- What a set adds to the log: the entry before it, unless it is there already. -/
def logged (entry : Option CachedBalance) (addr : Address) (undo : BalanceUndo) : BalanceUndo :=
  match entry with
  | some entry =>
    if entry.logged then undo
    else { undo with prior := undo.prior ++ [(addr, some (entry.balance, entry.dirty))] }
  | none => { undo with prior := undo.prior ++ [(addr, none)] }

def set (cache : BalanceCache ε) (addr : Address) (balance : NativeBalance) : BalanceCache ε :=
  let entry := cache.map addr
  { cache with
    map := Function.update cache.map addr
      (some
        { balance
          dirty := true
          logged := cache.undo.isSome || (entry.map CachedBalance.logged).getD false })
    dirty := if (entry.map CachedBalance.dirty).getD false then cache.dirty else cache.dirty ++ [addr]
    undo := cache.undo.map (logged entry addr) }

def mergeDisjoint (cache other : BalanceCache ε) : BalanceCache ε :=
  { cache with
    map := fun addr => (other.map addr).or (cache.map addr)
    dirty := cache.dirty ++ other.dirty }

def flushed (cache : BalanceCache ε) : List (Address × NativeBalance) :=
  (cache.dirty.mergeSort fun first second => first ≤ second).filterMap fun addr =>
    (cache.map addr).map fun entry => (addr, entry.balance)

def flushAll (cache : BalanceCache ε) : List (Address × NativeBalance) × BalanceCache ε :=
  (cache.flushed,
    { cache with
      map := fun addr =>
        (cache.map addr).map fun entry =>
          if addr ∈ cache.dirty then { entry with dirty := false } else entry
      dirty := [] })

/-- The caches of a call before the region begins, with what was set in them; the backend does not
change during the call, but a read of it may fail. -/
inductive Reached (backend : Address → NativeBalance) :
    BalanceCache ε → (Address → Option NativeBalance) → Prop where
  | new : Reached backend {} fun _ => none
  | load {cache : BalanceCache ε} {pending : Address → Option NativeBalance}
      (reached : Reached backend cache pending) (addr : Address) (read : Except ε NativeBalance)
      (frozen : ∀ balance, read = .ok balance → balance = backend addr) :
      Reached backend (cache.load read addr).2 pending
  | set {cache : BalanceCache ε} {pending : Address → Option NativeBalance}
      (reached : Reached backend cache pending) (addr : Address) (balance : NativeBalance) :
      Reached backend (cache.set addr balance) (Function.update pending addr (some balance))
  | merge {cache other : BalanceCache ε} {pending others : Address → Option NativeBalance}
      (reached : Reached backend cache pending) (worker : Reached backend other others)
      (disjoint : ∀ addr, cache.map addr = none ∨ other.map addr = none) :
      Reached backend (cache.mergeDisjoint other) fun addr => (others addr).or (pending addr)

def unsaved : Option CachedBalance → Option NativeBalance
  | some entry => if entry.dirty then some entry.balance else none
  | none => none

/-- Between regions, with these rows unsaved. -/
structure Ready (cache : BalanceCache ε) (pending : Address → Option NativeBalance) : Prop where
  undo : cache.undo = none
  latched : ∀ addr, cache.latched addr = []
  unlogged : ∀ addr entry, cache.map addr = some entry → entry.logged = false
  nodup : cache.dirty.Nodup
  unsaved : ∀ addr, unsaved (cache.map addr) = pending addr
  dirty : ∀ addr, addr ∈ cache.dirty ↔ (pending addr).isSome = true

section Ready

variable {cache other : BalanceCache ε} {pending others : Address → Option NativeBalance}

theorem Ready.new : Ready ({} : BalanceCache ε) fun _ => none where
  undo := rfl
  latched _ := rfl
  unlogged addr entry found := by cases found
  nodup := nodup_nil
  unsaved _ := rfl
  dirty addr := by simp

theorem Ready.load (ready : Ready cache pending) (addr : Address) (read : Except ε NativeBalance) :
    Ready (cache.load read addr).2 pending := by
  have isRead : cache.load read addr = cache.readThrough read addr := by
    simp [BalanceCache.load, ready.undo, ready.latched addr]
  rw [isRead]
  cases found : cache.map addr with
  | some entry =>
    simp only [readThrough, found]
    exact ready
  | none =>
    cases read with
    | error err =>
      simp only [readThrough, found]
      exact ready
    | ok balance =>
      simp only [readThrough, found]
      refine ⟨ready.undo, ready.latched, ?_, ready.nodup, ?_, ready.dirty⟩
      · intro key entry lookup
        dsimp only at lookup
        by_cases same : key = addr
        · subst same
          rw [Function.update_self] at lookup
          cases lookup
          rfl
        · rw [Function.update_of_ne same] at lookup
          exact ready.unlogged key entry lookup
      · intro key
        dsimp only
        by_cases same : key = addr
        · subst same
          have absent := ready.unsaved key
          rw [found] at absent
          rw [Function.update_self, ← absent]
          rfl
        · rw [Function.update_of_ne same]
          exact ready.unsaved key

theorem Ready.mem_dirty (ready : Ready cache pending) (addr : Address) :
    addr ∈ cache.dirty ↔ ((cache.map addr).map CachedBalance.dirty).getD false = true := by
  rw [ready.dirty addr, ← ready.unsaved addr]
  cases cache.map addr with
  | none => simp [BalanceCache.unsaved]
  | some entry => cases isDirty : entry.dirty <;> simp [BalanceCache.unsaved, isDirty]

theorem Ready.set (ready : Ready cache pending) (addr : Address) (balance : NativeBalance) :
    Ready (cache.set addr balance) (Function.update pending addr (some balance)) := by
  have listed := ready.mem_dirty addr
  refine ⟨?_, ready.latched, ?_, ?_, ?_, ?_⟩
  · simp [BalanceCache.set, ready.undo]
  · intro key entry lookup
    simp only [BalanceCache.set, ready.undo, Option.isSome_none, Bool.false_or] at lookup
    by_cases same : key = addr
    · subst same
      rw [Function.update_self] at lookup
      cases lookup
      cases found : cache.map key with
      | none => rfl
      | some entry => exact ready.unlogged key entry found
    · rw [Function.update_of_ne same] at lookup
      exact ready.unlogged key entry lookup
  · simp only [BalanceCache.set]
    split
    · exact ready.nodup
    · rename_i fresh
      rw [← listed] at fresh
      exact nodup_append.mpr ⟨ready.nodup, nodup_singleton addr,
        fun key member other isOther => by
          rw [mem_singleton.mp isOther]
          rintro rfl
          exact fresh member⟩
  · intro key
    simp only [BalanceCache.set]
    by_cases same : key = addr
    · subst same
      rw [Function.update_self, Function.update_self]
      rfl
    · rw [Function.update_of_ne same, Function.update_of_ne same]
      exact ready.unsaved key
  · intro key
    simp only [BalanceCache.set]
    by_cases same : key = addr
    · subst same
      rw [Function.update_self]
      split
      · rename_i isDirty
        simp [listed.mpr isDirty]
      · simp
    · rw [Function.update_of_ne same, ← ready.dirty key]
      split
      · rfl
      · simp [same]

theorem Ready.merge (ready : Ready cache pending) (worker : Ready other others)
    (disjoint : ∀ addr, cache.map addr = none ∨ other.map addr = none) :
    Ready (cache.mergeDisjoint other) fun addr => (others addr).or (pending addr) := by
  have absent : ∀ {entry : Option CachedBalance}, entry = none → BalanceCache.unsaved entry = none := by
    rintro _ rfl
    rfl
  refine ⟨ready.undo, ready.latched, ?_, ?_, ?_, ?_⟩
  · intro addr entry lookup
    simp only [mergeDisjoint] at lookup
    rcases Option.or_eq_some_iff.mp lookup with theirs | ⟨-, ours⟩
    · exact worker.unlogged addr entry theirs
    · exact ready.unlogged addr entry ours
  · refine nodup_append.mpr ⟨ready.nodup, worker.nodup, ?_⟩
    rintro addr ours _ theirs rfl
    rw [ready.dirty, ← ready.unsaved] at ours
    rw [worker.dirty, ← worker.unsaved] at theirs
    rcases disjoint addr with none_ | none_
    · simp [absent none_] at ours
    · simp [absent none_] at theirs
  · intro addr
    rw [← ready.unsaved addr, ← worker.unsaved addr]
    simp only [mergeDisjoint]
    rcases disjoint addr with none_ | none_
    · simp [none_, BalanceCache.unsaved]
    · simp [none_, BalanceCache.unsaved]
  · intro addr
    simp only [mergeDisjoint, mem_append, ready.dirty addr, worker.dirty addr]
    cases others addr with
    | none => simp
    | some balance => simp

theorem Reached.ready {backend : Address → NativeBalance}
    (reached : Reached backend cache pending) :
    Ready cache pending := by
  induction reached with
  | new => exact Ready.new
  | load _ addr read _ ih => exact ih.load addr read
  | set _ addr balance ih => exact ih.set addr balance
  | merge _ _ disjoint ours theirs => exact ours.merge theirs disjoint

theorem Ready.mem_flushed (ready : Ready cache pending) (addr : Address) (balance : NativeBalance) :
    (addr, balance) ∈ cache.flushed ↔ pending addr = some balance := by
  have isUnsaved := ready.unsaved addr
  have isDirty := ready.dirty addr
  simp only [flushed, mem_filterMap, mem_mergeSort, Option.map_eq_some_iff, Prod.mk.injEq]
  constructor
  · rintro ⟨key, member, entry, found, rfl, rfl⟩
    have isPending := isDirty.mp member
    rw [found, BalanceCache.unsaved] at isUnsaved
    split at isUnsaved
    · exact isUnsaved.symm
    · rw [← isUnsaved] at isPending
      cases isPending
  · intro isPending
    rw [isPending] at isDirty isUnsaved
    cases found : cache.map addr with
    | none =>
      rw [found] at isUnsaved
      cases isUnsaved
    | some entry =>
      rw [found, BalanceCache.unsaved] at isUnsaved
      split at isUnsaved
      · cases isUnsaved
        exact ⟨addr, isDirty.mpr rfl, entry, found, rfl, rfl⟩
      · cases isUnsaved

theorem Ready.flushed_nodup (ready : Ready cache pending) : (cache.flushed.map Prod.fst).Nodup := by
  have sorted : (cache.dirty.mergeSort fun first second => first ≤ second).Nodup :=
    (mergeSort_perm cache.dirty _).nodup_iff.mpr ready.nodup
  have isPart : (cache.flushed.map Prod.fst).Sublist
      (cache.dirty.mergeSort fun first second => first ≤ second) := by
    rw [flushed]
    generalize cache.dirty.mergeSort (fun first second => decide (first ≤ second)) = addrs
    induction addrs with
    | nil => exact List.Sublist.refl _
    | cons addr addrs ih =>
      cases found : cache.map addr with
      | none => simpa [found] using ih.cons addr
      | some entry => simpa [found] using ih.cons_cons addr
  exact isPart.nodup sorted

end Ready

inductive RegionCall (ε : Type) where
  | load (addr : Address) (fault : Option ε)
  | set (addr : Address) (balance : NativeBalance)
  | noteReadFault (addr : Address) (err : ε)

section Region

variable (backend : Address → NativeBalance)

def RegionCall.run (cache : BalanceCache ε) : RegionCall ε → BalanceCache ε
  | .load addr none => (cache.load (.ok (backend addr)) addr).2
  | .load addr (some err) => (cache.load (.error err) addr).2
  | .set addr balance => cache.set addr balance
  | .noteReadFault addr err => cache.noteReadFault addr err

def region (cache : BalanceCache ε) (calls : List (RegionCall ε)) : BalanceCache ε :=
  calls.foldl (RegionCall.run backend) cache

def faultsOf (addr : Address) (calls : List (RegionCall ε)) : List ε :=
  calls.filterMap fun
    | .noteReadFault noted err => if noted = addr then some err else none
    | _ => none

/-- A load of this address did not fault. -/
def loadedIn (addr : Address) (calls : List (RegionCall ε)) : Prop :=
  ∃ call ∈ calls, call = .load addr none

/-- What an address is rolled back to: its entry at the start, or the clean entry of a load. -/
def Back (start : BalanceCache ε) (calls : List (RegionCall ε)) (addr : Address)
    (entry : Option CachedBalance) : Prop :=
  entry = start.map addr ∨
    start.map addr = none ∧ loadedIn addr calls ∧
      entry = some { balance := backend addr, dirty := false, logged := false }

def asEntry : Option (NativeBalance × Bool) → Option CachedBalance
  | some (balance, dirty) => some { balance, dirty, logged := false }
  | none => none

/-- An open region can still be undone. -/
structure InRegion (start : BalanceCache ε) (calls : List (RegionCall ε)) (cache : BalanceCache ε)
    (undo : BalanceUndo) : Prop where
  open_ : cache.undo = some undo
  dirtyLen : undo.dirtyLen = start.dirty.length
  dirty : start.dirty <+: cache.dirty
  latched : ∀ addr, cache.latched addr = faultsOf addr calls
  once : (undo.prior.map Prod.fst).Nodup
  untouched : ∀ addr, addr ∉ undo.prior.map Prod.fst → Back backend start calls addr (cache.map addr)
  touched : ∀ logged ∈ undo.prior, Back backend start calls logged.1 (asEntry logged.2) ∧
    ∃ entry, cache.map logged.1 = some entry ∧ entry.logged = true

variable {backend} {start cache : BalanceCache ε} {calls : List (RegionCall ε)} {undo : BalanceUndo}
  {pending : Address → Option NativeBalance}

variable {addr : Address}

theorem Back.later {entry : Option CachedBalance}
    (back : Back backend start calls addr entry) (call : RegionCall ε) :
    Back backend start (calls ++ [call]) addr entry := by
  rcases back with same | ⟨absent, ⟨read, member, isLoad⟩, clean⟩
  · exact .inl same
  · exact .inr ⟨absent, ⟨read, mem_append_left _ member, isLoad⟩, clean⟩

theorem Back.unlogged {entry : CachedBalance} (ready : Ready start pending)
    (back : Back backend start calls addr (some entry)) : entry.logged = false := by
  rcases back with same | ⟨-, -, clean⟩
  · exact ready.unlogged addr entry same.symm
  · cases clean
    rfl

theorem Ready.begin (ready : Ready start pending) :
    InRegion backend start [] start.beginUndo { dirtyLen := start.dirty.length } where
  open_ := rfl
  dirtyLen := rfl
  dirty := prefix_rfl
  latched := ready.latched
  once := nodup_nil
  untouched _ _ := .inl rfl
  touched _ member := absurd member not_mem_nil

theorem faultsOf_append (addr : Address) (call : RegionCall ε) :
    faultsOf addr (calls ++ [call]) = faultsOf addr calls ++ faultsOf addr [call] :=
  filterMap_append

variable (inside : InRegion backend start calls cache undo)
include inside

theorem InRegion.look {call : RegionCall ε} (quiet : ∀ addr, faultsOf addr [call] = []) :
    InRegion backend start (calls ++ [call]) cache undo where
  open_ := inside.open_
  dirtyLen := inside.dirtyLen
  dirty := inside.dirty
  latched addr := by rw [faultsOf_append, quiet, append_nil, inside.latched]
  once := inside.once
  untouched addr absent := (inside.untouched addr absent).later call
  touched logged member :=
    ⟨(inside.touched logged member).1.later call, (inside.touched logged member).2⟩

theorem InRegion.load_eq (read : Except ε NativeBalance) (addr : Address) :
    cache.load read addr = cache.readThrough read addr := by
  simp only [BalanceCache.load, inside.open_]

theorem InRegion.load (addr : Address) : InRegion backend start (calls ++ [.load addr none])
      (cache.load (.ok (backend addr)) addr).2 undo := by
  have looked := @InRegion.look ε backend start cache calls undo inside (.load addr none)
    fun _ => rfl
  rw [inside.load_eq]
  cases found : cache.map addr with
  | some entry =>
    simp only [readThrough, found]
    exact looked
  | none =>
    simp only [readThrough, found]
    refine ⟨looked.open_, looked.dirtyLen, looked.dirty, looked.latched, looked.once, ?_, ?_⟩
    · intro key unlogged
      dsimp only
      by_cases same : key = addr
      · subst same
        rw [Function.update_self]
        rcases inside.untouched key unlogged with isStart | ⟨-, -, clean⟩
        · refine .inr ⟨?_, ⟨_, mem_append_right _ mem_cons_self, rfl⟩, rfl⟩
          rw [← isStart, found]
        · rw [found] at clean
          cases clean
      · rw [Function.update_of_ne same]
        exact looked.untouched key unlogged
    · intro logged member
      obtain ⟨back, entry, present, isLogged⟩ := looked.touched logged member
      refine ⟨back, entry, ?_, isLogged⟩
      have apart : logged.1 ≠ addr := by
        intro same
        rw [same, found] at present
        cases present
      dsimp only
      rwa [Function.update_of_ne apart]

theorem InRegion.fault (addr : Address) (err : ε) :
    InRegion backend start (calls ++ [.load addr (some err)]) (cache.load (.error err) addr).2
      undo := by
  have looked := @InRegion.look ε backend start cache calls undo inside (.load addr (some err))
    fun _ => rfl
  rw [inside.load_eq]
  cases found : cache.map addr with
  | some entry =>
    simp only [readThrough, found]
    exact looked
  | none =>
    simp only [readThrough, found]
    exact looked

theorem InRegion.note (addr : Address) (err : ε) :
    InRegion backend start (calls ++ [.noteReadFault addr err]) (cache.noteReadFault addr err)
      undo := by
  have isOpen : cache.undo.isSome = true := by rw [inside.open_]; rfl
  rw [noteReadFault, if_pos isOpen]
  refine ⟨inside.open_, inside.dirtyLen, inside.dirty, ?_, inside.once,
    fun key absent => (inside.untouched key absent).later _,
    fun logged member =>
      ⟨(inside.touched logged member).1.later _, (inside.touched logged member).2⟩⟩
  intro key
  dsimp only
  rw [faultsOf_append]
  by_cases same : key = addr
  · subst same
    rw [Function.update_self, inside.latched]
    simp [faultsOf]
  · have apart : ¬addr = key := fun other => same other.symm
    rw [Function.update_of_ne same, inside.latched]
    simp [faultsOf, apart]

omit inside

theorem set_front (cache : BalanceCache ε) (addr : Address) (balance : NativeBalance) :
    cache.dirty <+: (cache.set addr balance).dirty := by
  simp only [BalanceCache.set]
  split
  · exact prefix_rfl
  · exact prefix_append _ _

theorem InRegion.setAgain (inside : InRegion backend start calls cache undo)
    (member : addr ∈ undo.prior.map Prod.fst) (balance : NativeBalance) :
    InRegion backend start (calls ++ [.set addr balance]) (cache.set addr balance) undo := by
  have looked := @InRegion.look ε backend start cache calls undo inside (.set addr balance)
    fun _ => rfl
  obtain ⟨own, isOwn, rfl⟩ := mem_map.mp member
  obtain ⟨-, entry, present, isLogged⟩ := inside.touched own isOwn
  refine ⟨?_, looked.dirtyLen, looked.dirty.trans (set_front cache own.1 balance), looked.latched,
    looked.once, ?_, ?_⟩
  · simp [BalanceCache.set, inside.open_, present, logged, isLogged]
  · intro key unlogged
    have apart : key ≠ own.1 := by
      rintro rfl
      exact unlogged member
    simp only [BalanceCache.set]
    rw [Function.update_of_ne apart]
    exact looked.untouched key unlogged
  · intro other isOther
    obtain ⟨back, held, found, stays⟩ := looked.touched other isOther
    refine ⟨back, ?_⟩
    simp only [BalanceCache.set, inside.open_]
    by_cases same : other.1 = own.1
    · rw [same, Function.update_self]
      exact ⟨_, rfl, rfl⟩
    · rw [Function.update_of_ne same]
      exact ⟨held, found, stays⟩

theorem InRegion.setFirst (ready : Ready start pending)
    (inside : InRegion backend start calls cache undo)
    (first : addr ∉ undo.prior.map Prod.fst) (balance : NativeBalance) :
    ∃ later, InRegion backend start (calls ++ [.set addr balance]) (cache.set addr balance) later := by
  have looked := @InRegion.look ε backend start cache calls undo inside (.set addr balance)
    fun _ => rfl
  have back := looked.untouched addr first
  have logs : ∃ prior, asEntry prior = cache.map addr ∧
      logged (cache.map addr) addr undo = { undo with prior := undo.prior ++ [(addr, prior)] } := by
    cases found : cache.map addr with
    | none => exact ⟨none, rfl, rfl⟩
    | some entry =>
      rw [found] at back
      have unlogged := back.unlogged ready
      refine ⟨some (entry.balance, entry.dirty), ?_, ?_⟩
      · rw [asEntry, ← unlogged]
      · simp [logged, unlogged]
  obtain ⟨prior, isEntry, isLog⟩ := logs
  refine ⟨{ undo with prior := undo.prior ++ [(addr, prior)] }, ?_, looked.dirtyLen,
    looked.dirty.trans (set_front cache addr balance), looked.latched, ?_, ?_, ?_⟩
  · simp only [BalanceCache.set, inside.open_, Option.map_some, isLog]
  · rw [map_append]
    refine nodup_append.mpr ⟨looked.once, nodup_singleton _, ?_⟩
    rintro key member _ isAddr rfl
    rw [mem_singleton.mp isAddr] at member
    exact first member
  · intro key unlogged
    rw [map_append, mem_append, not_or] at unlogged
    have apart : key ≠ addr := by
      rintro rfl
      exact unlogged.2 mem_cons_self
    simp only [BalanceCache.set]
    rw [Function.update_of_ne apart]
    exact looked.untouched key unlogged.1
  · intro other isOther
    simp only [BalanceCache.set, inside.open_]
    rcases mem_append.mp isOther with earlier | isNew
    · obtain ⟨back, held, found, stays⟩ := looked.touched other earlier
      have apart : other.1 ≠ addr := by
        rintro rfl
        exact first (mem_map_of_mem earlier)
      rw [Function.update_of_ne apart]
      exact ⟨back, held, found, stays⟩
    · rw [mem_singleton.mp isNew, Function.update_self]
      refine ⟨?_, _, rfl, rfl⟩
      rw [isEntry]
      exact back

/-- Each further call leaves the cache within the region. -/
theorem InRegion.step (ready : Ready start pending)
    (inside : InRegion backend start calls cache undo) (call : RegionCall ε) :
    ∃ later, InRegion backend start (calls ++ [call]) (call.run backend cache) later := by
  cases call with
  | load addr fault =>
    cases fault with
    | none => exact ⟨undo, inside.load addr⟩
    | some err => exact ⟨undo, inside.fault addr err⟩
  | noteReadFault addr err => exact ⟨undo, inside.note addr err⟩
  | set addr balance =>
    rcases Decidable.em (addr ∈ undo.prior.map Prod.fst) with again | first
    · exact ⟨undo, inside.setAgain again balance⟩
    · exact inside.setFirst ready first balance

theorem InRegion.run (ready : Ready start pending)
    (inside : InRegion backend start calls cache undo) (more : List (RegionCall ε)) :
    ∃ later, InRegion backend start (calls ++ more) (region backend cache more) later := by
  induction more generalizing calls cache undo with
  | nil =>
    rw [append_nil]
    exact ⟨undo, inside⟩
  | cons call more ih =>
    obtain ⟨later, next⟩ := inside.step ready call
    have rest := ih next
    rw [append_assoc] at rest
    exact rest

variable {entry : Address × Option (NativeBalance × Bool)} {map : Address → Option CachedBalance}

theorem restore_other (apart : addr ≠ entry.1) : restore map entry addr = map addr := by
  obtain ⟨key, prior⟩ := entry
  cases prior with
  | none => exact Function.update_of_ne apart _ _
  | some prior =>
    cases found : map key with
    | none => simp [restore, found]
    | some held =>
      simp only [restore, found]
      exact Function.update_of_ne apart _ _

theorem restore_own (present : (map entry.1).isSome = true) :
    restore map entry entry.1 = asEntry entry.2 := by
  obtain ⟨held, found⟩ := Option.isSome_iff_exists.mp present
  obtain ⟨addr, prior⟩ := entry
  cases prior with
  | none => simp [restore, asEntry]
  | some prior => simp [restore, asEntry, show map addr = some held from found]

theorem foldl_restore (log : List (Address × Option (NativeBalance × Bool)))
    (map : Address → Option CachedBalance) (once : (log.map Prod.fst).Nodup)
    (present : ∀ entry ∈ log, (map entry.1).isSome = true) :
    (∀ entry ∈ log, log.foldl restore map entry.1 = asEntry entry.2) ∧
      ∀ addr, addr ∉ log.map Prod.fst → log.foldl restore map addr = map addr := by
  induction log generalizing map with
  | nil => exact ⟨fun _ member => absurd member not_mem_nil, fun _ _ => rfl⟩
  | cons first log ih =>
    obtain ⟨fresh, rest⟩ := nodup_cons.mp once
    have others : ∀ entry ∈ log, entry.1 ≠ first.1 := by
      intro entry member same
      apply fresh
      rw [← same]
      exact mem_map_of_mem member
    have step := ih (restore map first) rest fun entry member => by
      rw [restore_other (others entry member)]
      exact present entry (mem_cons_of_mem first member)
    constructor
    · intro entry member
      rcases mem_cons.mp member with rfl | later
      · rw [foldl_cons, step.2 entry.1 fresh]
        exact restore_own (present entry mem_cons_self)
      · exact step.1 entry later
    · intro addr absent
      rw [map_cons, mem_cons, not_or] at absent
      rw [foldl_cons, step.2 addr absent.2, restore_other absent.1]

theorem InRegion.rollback_map (inside : InRegion backend start calls cache undo) (addr : Address) :
    Back backend start calls addr (cache.rollbackUndo.map addr) := by
  have reversed := foldl_restore undo.prior.reverse cache.map
    (by rw [map_reverse]; exact nodup_reverse.mpr inside.once)
    (fun entry member => by
      obtain ⟨-, held, found, -⟩ := inside.touched entry (mem_reverse.mp member)
      rw [found]
      rfl)
  simp only [rollbackUndo, inside.open_]
  rcases Decidable.em (addr ∈ undo.prior.map Prod.fst) with member | absent
  · obtain ⟨entry, isLogged, rfl⟩ := mem_map.mp member
    rw [reversed.1 entry (mem_reverse.mpr isLogged)]
    exact (inside.touched entry isLogged).1
  · rw [reversed.2 addr (by rwa [map_reverse, mem_reverse])]
    exact inside.untouched addr absent

theorem InRegion.rollback_dirty (inside : InRegion backend start calls cache undo) :
    cache.rollbackUndo.dirty = start.dirty := by
  obtain ⟨added, isDirty⟩ := inside.dirty
  simp only [rollbackUndo, inside.open_, inside.dirtyLen, ← isDirty]
  exact take_left

def loads (backend : Address → NativeBalance) (cache : BalanceCache ε) :
    List Address → List (Except ε NativeBalance)
  | [] => []
  | addr :: addrs =>
    let (result, cache) := cache.load (.ok (backend addr)) addr
    result :: loads backend cache addrs

def replies (value : Address → NativeBalance) (faults : Address → List ε) :
    List Address → List (Except ε NativeBalance)
  | [] => []
  | addr :: addrs =>
    match faults addr with
    | err :: later => .error err :: replies value (Function.update faults addr later) addrs
    | [] => .ok (value addr) :: replies value faults addrs

def valueOf (backend : Address → NativeBalance) (cache : BalanceCache ε) (addr : Address) :
    NativeBalance :=
  ((cache.map addr).map CachedBalance.balance).getD (backend addr)

theorem valueOf_loaded {later : BalanceCache ε} (found : cache.map addr = none)
    (isLater : later.map = Function.update cache.map addr
      (some { balance := backend addr, dirty := false, logged := false })) :
    valueOf backend later = valueOf backend cache := by
  funext key
  rw [valueOf, isLater]
  by_cases same : key = addr
  · subst same
    simp [valueOf, found]
  · simp [valueOf, Function.update_of_ne same]

theorem loads_eq_replies (closed : cache.undo = none) (addrs : List Address) :
    loads backend cache addrs = replies (valueOf backend cache) cache.latched addrs := by
  induction addrs generalizing cache with
  | nil => rfl
  | cons addr addrs ih =>
    cases latched : cache.latched addr with
    | cons err later =>
      simp only [loads, replies, BalanceCache.load, closed, latched]
      rw [ih rfl]
      rfl
    | nil =>
      cases found : cache.map addr with
      | some entry =>
        simp only [loads, replies, BalanceCache.load, closed, latched, readThrough, found]
        rw [ih closed, valueOf, found]
        rfl
      | none =>
        simp only [loads, replies, BalanceCache.load, closed, latched, readThrough, found]
        rw [ih rfl, valueOf_loaded found rfl, valueOf, found]
        rfl

theorem Back.value {entry : Option CachedBalance} (back : Back backend start calls addr entry) :
    (entry.map CachedBalance.balance).getD (backend addr) = valueOf backend start addr := by
  rcases back with same | ⟨absent, -, clean⟩
  · rw [same, valueOf]
  · rw [clean, valueOf, absent]
    rfl

theorem InRegion.rollback_flushed (ready : Ready start pending)
    (inside : InRegion backend start calls cache undo) :
    cache.rollbackUndo.flushed = start.flushed := by
  rw [flushed, flushed, inside.rollback_dirty]
  apply filterMap_congr
  intro addr member
  rw [mem_mergeSort, ready.dirty, ← ready.unsaved] at member
  rcases inside.rollback_map addr with same | ⟨absent, -, -⟩
  · rw [same]
  · rw [absent] at member
    cases member

/-- A rollback brings back every entry and the dirty list; what the region loaded stays as clean
entries, the faults it hit come first when an address is loaded again, and a flush writes what was
set before the region. -/
theorem rollback_restores {start : BalanceCache ε} {pending : Address → Option NativeBalance}
    (reached : Reached backend start pending) (calls : List (RegionCall ε)) :
    let after := (region backend start.beginUndo calls).rollbackUndo
    (∀ addr, after.map addr = start.map addr ∨
      start.map addr = none ∧ loadedIn addr calls ∧
        after.map addr = some { balance := backend addr, dirty := false, logged := false }) ∧
    after.dirty = start.dirty ∧
    (∀ addrs, loads backend after addrs =
      replies (valueOf backend start) (fun addr => faultsOf addr calls) addrs) ∧
    (∀ addr balance, (addr, balance) ∈ after.flushAll.1 ↔ pending addr = some balance) ∧
    (after.flushAll.1.map Prod.fst).Nodup := by
  intro after
  have ready := reached.ready
  obtain ⟨undo, inside⟩ := (@Ready.begin ε backend start pending ready).run ready calls
  rw [nil_append] at inside
  have closed : after.undo = none := by
    simp only [after, rollbackUndo, inside.open_]
  have latched : after.latched = fun addr => faultsOf addr calls := by
    funext addr
    simp only [after, rollbackUndo, inside.open_]
    exact inside.latched addr
  have values : valueOf backend after = valueOf backend start := by
    funext addr
    exact (inside.rollback_map addr).value
  have flushes : after.flushAll.1 = start.flushed := inside.rollback_flushed ready
  refine ⟨inside.rollback_map, inside.rollback_dirty, ?_, ?_, ?_⟩
  · intro addrs
    rw [loads_eq_replies closed, values, latched]
  · intro addr balance
    rw [flushes]
    exact ready.mem_flushed addr balance
  · rw [flushes]
    exact ready.flushed_nodup

end Region

/-! A region that faults once on address 1, then loads and sets it -/

theorem Reached.one : Reached (fun _ => { available := 7 })
    (({} : BalanceCache Nat).set 2 { available := 5 })
    (Function.update (fun _ => none) 2 (some { available := 5 })) :=
  Reached.new.set 2 { available := 5 }

theorem rollback_restores_one :
    let start : BalanceCache Nat := ({} : BalanceCache Nat).set 2 { available := 5 }
    let after := (region (fun _ => { available := 7 }) start.beginUndo
      [.load 1 (some 9), .noteReadFault 1 9, .load 1 none, .set 1 { available := 8 },
        .set 2 { available := 6 }]).rollbackUndo
    loads (fun _ => { available := 7 }) after [1, 2, 1] =
      [.error 9, .ok { available := 5 }, .ok { available := 7 }] ∧
    (2, { available := 5 }) ∈ after.flushAll.1 := by
  intro start after
  have restores := rollback_restores Reached.one
    [.load 1 (some 9), .noteReadFault 1 9, .load 1 none, .set 1 { available := 8 },
      .set 2 { available := 6 }]
  obtain ⟨-, -, again, flushes, -⟩ := restores
  exact ⟨(again [1, 2, 1]).trans (by decide), (flushes 2 { available := 5 }).mpr (by decide)⟩

/-- An address that the region loads and then sets stays cached too. -/
theorem rollback_keeps_loaded_and_set :
    let start : BalanceCache Nat := {}
    let calls : List (RegionCall Nat) := [.load 1 none, .set 1 { available := 8 }]
    let after := (region (fun _ => { available := 7 }) start.beginUndo calls).rollbackUndo
    Reached (fun _ => { available := 7 }) start (fun _ => none) ∧
      (∃ call ∈ calls, call = .set 1 { available := 8 }) ∧
      start.map 1 = none ∧
      after.map 1 = some { balance := { available := 7 }, dirty := false, logged := false } := by
  refine ⟨Reached.new, ⟨_, mem_cons_of_mem _ mem_cons_self, rfl⟩, rfl, ?_⟩
  decide

end BalanceCache

end TorusHyperBft.Account
