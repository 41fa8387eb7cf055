import TorusHyperBft.Chain.Link
import TorusHyperBft.State.NonceWindow

namespace TorusHyperBft.Chain

open TorusHyperBft.State List

/-! The execution of committed blocks: the nonce rows a block deletes, its replay guard, and the
rows it writes, over a chain of linked blocks. -/

/-- A signed action as execution reads it: its nonce, and the rest as it came. -/
structure SignedNativeAction (α : Type) where
  action : α
  nonce : U64
  deriving DecidableEq

/-- The parts of a block that its execution reads. -/
structure TorusBlock (η ρ α : Type) where
  header : TorusBlockHeader η ρ
  nativeActions : List (SignedNativeAction α)

variable {η ρ ι α : Type}

abbrev Handed (α : Type) := List (Address × SignedNativeAction α)

def consumedNonces (handed : Handed α) : List (Address × U64) :=
  handed.map fun entry => (entry.1, entry.2.nonce)

structure ReplayGuard (α : Type) where
  handed : Handed α := []
  seenInBlock : List (Address × U64) := []

def guardAction (state : NonceRows) (blockMs : U64) (guard : ReplayGuard α)
    (signed : SignedNativeAction α) (resolved : Option Address) : ReplayGuard α :=
  match resolved with
  | none => guard
  | some sender =>
    match checkNonceWindow signed.nonce blockMs with
    | .error _ => guard
    | .ok () =>
      if (state.get (nativeNonceKey sender signed.nonce)).isSome then guard
      else if (sender, signed.nonce) ∈ guard.seenInBlock then guard
      else
        { handed := guard.handed ++ [(sender, signed)]
          seenInBlock := (sender, signed.nonce) :: guard.seenInBlock }

def replayGuard (state : NonceRows) (blockMs : U64) :
    List (SignedNativeAction α) → List (Option Address) → ReplayGuard α → ReplayGuard α
  | [], _, guard => guard
  | signed :: actions, resolvedSenders, guard =>
    replayGuard state blockMs actions resolvedSenders.tail
      (guardAction state blockMs guard signed resolvedSenders.head?.join)

/-- The parent's block time from its header row; height 1 starts the scan at 0. -/
def parentBlockMs (headers : U64 → Option (TorusBlockHeader η ρ)) (height : U64) : Option U64 :=
  if height ≤ 1 then some (blockTimestampMs 0)
  else (headers (height - 1)).map fun parent => blockTimestampMs parent.timestamp

/-- The nonce rows after a block and the actions it hands to execution; `none` is the fail-stop on
a missing parent header. -/
def executeCommittedBlock (headers : U64 → Option (TorusBlockHeader η ρ)) (state : NonceRows)
    (block : TorusBlock η ρ α) (resolvedSenders : List (Option Address)) :
    Option (NonceRows × Handed α) := do
  let blockMs := blockTimestampMs block.header.timestamp
  let parentMs ← parentBlockMs headers block.header.height
  let expired := expiredNonceKeys state parentMs blockMs
  let state := expired.keys.foldl Overlay.delete state
  let guard := replayGuard state blockMs block.nativeActions resolvedSenders {}
  let state := (consumedNonces guard.handed).foldl
    (fun state pair => state.put (nativeNonceKey pair.1 pair.2)
      (toBytes 8 block.header.height.val)) state
  some (state, guard.handed)

section Guard

variable {state : NonceRows} {blockMs : U64}

/-- What the guard has handed over so far is fresh, inside the window, and without repeats. -/
structure ReplayGuard.Fresh (state : NonceRows) (blockMs : U64) (guard : ReplayGuard α) : Prop where
  seen : ∀ pair, pair ∈ guard.seenInBlock ↔ pair ∈ consumedNonces guard.handed
  nodup : (consumedNonces guard.handed).Nodup
  inWindow : ∀ pair ∈ consumedNonces guard.handed, nonceCutoffMs blockMs ≤ pair.2
  noRow : ∀ pair ∈ consumedNonces guard.handed, state.get (nativeNonceKey pair.1 pair.2) = none

theorem ReplayGuard.Fresh.guardAction {guard : ReplayGuard α} (fresh : guard.Fresh state blockMs)
    (signed : SignedNativeAction α) (resolved : Option Address) :
    (guardAction state blockMs guard signed resolved).Fresh state blockMs := by
  unfold Chain.guardAction
  cases resolved with
  | none => exact fresh
  | some sender =>
    dsimp only
    cases checked : checkNonceWindow signed.nonce blockMs with
    | error => exact fresh
    | ok _ =>
      dsimp only
      split
      · exact fresh
      · rename_i noRow
        split
        · exact fresh
        · rename_i unseen
          have added : consumedNonces (guard.handed ++ [(sender, signed)]) =
              consumedNonces guard.handed ++ [(sender, signed.nonce)] := by
            simp [consumedNonces]
          rw [fresh.seen] at unseen
          constructor
          · intro pair
            rw [added, mem_cons, mem_append, mem_singleton, fresh.seen]
            exact or_comm
          · rw [added, nodup_append]
            refine ⟨fresh.nodup, nodup_singleton _, ?_⟩
            intro left inLeft right inRight same
            rw [mem_singleton.mp inRight] at same
            exact unseen (same ▸ inLeft)
          · intro pair member
            rw [added] at member
            rcases mem_append.mp member with earlier | new
            · exact fresh.inWindow pair earlier
            · rw [mem_singleton.mp new]
              exact cutoff_le_of_checked checked
          · intro pair member
            rw [added] at member
            rcases mem_append.mp member with earlier | new
            · exact fresh.noRow pair earlier
            · rw [mem_singleton.mp new]
              simpa using noRow

theorem ReplayGuard.Fresh.replayGuard {guard : ReplayGuard α} (fresh : guard.Fresh state blockMs)
    (actions : List (SignedNativeAction α)) (resolvedSenders : List (Option Address)) :
    (replayGuard state blockMs actions resolvedSenders guard).Fresh state blockMs := by
  induction actions generalizing guard resolvedSenders with
  | nil => exact fresh
  | cons signed actions ih => exact ih (fresh.guardAction signed _) _

theorem ReplayGuard.fresh_start : ({} : ReplayGuard α).Fresh state blockMs := by
  constructor
  · simp [consumedNonces]
  · exact nodup_nil
  · simp [consumedNonces]
  · simp [consumedNonces]

end Guard

section Rows

variable {state : NonceRows}

theorem get_foldl_delete (keys : List (List Byte)) (key : List Byte) :
    (keys.foldl Overlay.delete state).get key = if key ∈ keys then none else state.get key := by
  induction keys generalizing state with
  | nil => simp
  | cons first keys ih =>
    rw [foldl_cons, ih, Overlay.get_delete]
    by_cases later : key ∈ keys
    · simp [later]
    · by_cases same : key = first
      · simp [same]
      · simp [later, same]

theorem get_foldl_put (pairs : List (Address × U64)) (height key : List Byte) :
    ((pairs.foldl (fun state pair => state.put (nativeNonceKey pair.1 pair.2) height) state).get
      key).isSome ↔
      (∃ pair ∈ pairs, key = nativeNonceKey pair.1 pair.2) ∨ (state.get key).isSome := by
  induction pairs generalizing state with
  | nil => simp
  | cons first pairs ih =>
    rw [foldl_cons, ih, Overlay.get_put]
    by_cases same : key = nativeNonceKey first.1 first.2
    · simp [same]
    · simp [same]

end Rows

/-- The committed chain: its last header, the header rows, the nonce rows, and every action handed
to execution so far. -/
structure Committed (η ρ α : Type) where
  header : TorusBlockHeader η ρ
  headers : U64 → Option (TorusBlockHeader η ρ)
  nonces : NonceRows
  handed : Handed α

structure LinkRule (η ρ ι : Type) where
  headerHash : TorusBlockHeader η ρ → η
  genesis : TorusBlockHeader η ρ
  schedule : ActivationSchedule
  known : BitVec 128
  parent : ι → ParentHeader η ρ
  boundary : U64 → Except EpochPlanNotReady (Option PlanEvm)

section Chain

/-- The rows are the consumed nonces from the cutoff on. -/
def HoldsFrom (state : NonceRows) (cutoff : U64) (handed : Handed α) : Prop :=
  ∀ key, (state.get key).isSome ↔
    ∃ pair ∈ consumedNonces handed, cutoff ≤ pair.2 ∧ key = nativeNonceKey pair.1 pair.2

/-- No nonce ran twice, and the rows know every nonce of the window. -/
structure Committed.Guarded (chain : Committed η ρ α) : Prop where
  once : (consumedNonces chain.handed).Nodup
  rows : HoldsFrom chain.nonces (nonceCutoffMs (blockTimestampMs chain.header.timestamp)) chain.handed
  parentRow : ∀ header, chain.headers chain.header.height = some header →
    header.timestamp = chain.header.timestamp

theorem HoldsFrom.prune {state : NonceRows} {handed : Handed α} {parentMs blockMs lastMs : U64}
    (rows : HoldsFrom state (nonceCutoffMs lastMs) handed) (scans : parentMs ≤ lastMs)
    (later : lastMs ≤ blockMs) :
    HoldsFrom ((expiredNonceKeys state parentMs blockMs).keys.foldl Overlay.delete state)
      (nonceCutoffMs blockMs) handed := by
  intro key
  rw [get_foldl_delete]
  constructor
  · intro held
    split at held
    · cases held
    · rename_i kept
      obtain ⟨pair, member, above, rfl⟩ := (rows key).mp held
      refine ⟨pair, member, ?_, rfl⟩
      rw [mem_expiredNonceKeys] at kept
      by_contra below
      exact kept ⟨held, le_trans (nonceCutoffMs_mono scans) above, not_le.mp below⟩
  · rintro ⟨pair, member, above, rfl⟩
    have held := (rows _).mpr ⟨pair, member, le_trans (nonceCutoffMs_mono later) above, rfl⟩
    have kept : nativeNonceKey pair.1 pair.2 ∉ (expiredNonceKeys state parentMs blockMs).keys := by
      rw [mem_expiredNonceKeys]
      rintro ⟨_, _, below⟩
      exact absurd (lt_of_lt_of_le below above) (lt_irrefl _)
    rw [if_neg kept]
    exact held

variable {chain : Committed η ρ α}

theorem Committed.Guarded.parentMs_le (guarded : chain.Guarded)
    {height parentMs : U64} (next : height = chain.header.height + 1)
    (found : parentBlockMs chain.headers height = some parentMs) :
    parentMs ≤ blockTimestampMs chain.header.timestamp := by
  unfold parentBlockMs at found
  split at found
  · rw [← Option.some.inj found]
    exact blockTimestampMs_mono (Fin.zero_le _)
  · rw [next, add_sub_cancel_right] at found
    obtain ⟨header, row, rfl⟩ := Option.map_eq_some_iff.mp found
    rw [guarded.parentRow header row]

theorem consumedNonces_append (left right : Handed α) :
    consumedNonces (left ++ right) = consumedNonces left ++ consumedNonces right :=
  map_append

theorem Committed.Guarded.execute {before : Committed η ρ α} (guarded : before.Guarded)
    {block : TorusBlock η ρ α} (notOlder : before.header.timestamp ≤ block.header.timestamp)
    (next : block.header.height = before.header.height + 1) {layers : NonceRows}
    (sameView : ∀ key, layers.get key = before.nonces.get key)
    {resolvedSenders : List (Option Address)} {nonces : NonceRows} {handed : Handed α}
    (executes : executeCommittedBlock before.headers layers block resolvedSenders =
      some (nonces, handed)) :
    ({ header := block.header
       headers := Function.update before.headers block.header.height (some block.header)
       nonces := nonces
       handed := before.handed ++ handed } : Committed η ρ α).Guarded := by
  obtain ⟨parentMs, parentFound, rest⟩ := Option.bind_eq_some_iff.mp executes
  obtain ⟨rfl, rfl⟩ := Prod.mk.inj (Option.some.inj rest)
  have scans := guarded.parentMs_le next parentFound
  have later := blockTimestampMs_mono notOlder
  have viewed : HoldsFrom layers (nonceCutoffMs (blockTimestampMs before.header.timestamp))
      before.handed := by
    intro key
    rw [sameView]
    exact guarded.rows key
  have pruned := viewed.prune scans later
  generalize prunedEq : (expiredNonceKeys layers parentMs
    (blockTimestampMs block.header.timestamp)).keys.foldl Overlay.delete layers = state at pruned ⊢
  have fresh := (@ReplayGuard.fresh_start α state (blockTimestampMs block.header.timestamp)).replayGuard
    block.nativeActions resolvedSenders
  generalize replayGuard state (blockTimestampMs block.header.timestamp) block.nativeActions
    resolvedSenders {} = guard at fresh ⊢
  constructor
  · -- A pair handed over before is below the cutoff, or its row is still there.
    rw [consumedNonces_append, nodup_append]
    refine ⟨guarded.once, fresh.nodup, ?_⟩
    rintro pair executed _ inBlock rfl
    have row := (pruned _).mpr ⟨pair, executed, fresh.inWindow pair inBlock, rfl⟩
    rw [fresh.noRow pair inBlock] at row
    cases row
  · intro key
    rw [get_foldl_put, pruned, consumedNonces_append]
    constructor
    · rintro (⟨pair, inBlock, rfl⟩ | ⟨pair, executed, above, rfl⟩)
      · exact ⟨pair, mem_append_right _ inBlock, fresh.inWindow pair inBlock, rfl⟩
      · exact ⟨pair, mem_append_left _ executed, above, rfl⟩
    · rintro ⟨pair, member, above, rfl⟩
      rcases mem_append.mp member with executed | inBlock
      · exact .inr ⟨pair, executed, above, rfl⟩
      · exact .inl ⟨pair, inBlock, rfl⟩
  · intro header row
    dsimp only at row
    rw [Function.update_self] at row
    rw [← Option.some.inj row]

variable [DecidableEq η]

/-- The header passes the parent check on this parent. -/
structure LinkRule.Links (rule : LinkRule η ρ ι) (parent header : TorusBlockHeader η ρ) : Prop where
  held : ∃ justify : PhaseCertificate ι,
    parentHeader justify rule.genesis rule.parent = .header parent ∧
      checkParentLinkOrUpgrade rule.headerHash header justify rule.genesis rule.schedule rule.known
        rule.parent rule.boundary = .ok .held

/-- The chains of linked blocks. A block reads the rows through any layers that show what the last
block left; its senders are resolved by the state at its height. -/
inductive LinkRule.Reaches (rule : LinkRule η ρ ι) : Committed η ρ α → Prop where
  | genesis (nonces : NonceRows) (empty : ∀ key, nonces.get key = none) :
      rule.Reaches
        { header := rule.genesis, headers := fun _ => none, nonces := nonces, handed := [] }
  | block {before : Committed η ρ α} (reached : rule.Reaches before) (block : TorusBlock η ρ α)
      (links : rule.Links before.header block.header) (layers : NonceRows)
      (sameView : ∀ key, layers.get key = before.nonces.get key)
      (resolvedSenders : List (Option Address)) {nonces : NonceRows} {handed : Handed α}
      (executes : executeCommittedBlock before.headers layers block resolvedSenders =
        some (nonces, handed)) :
      rule.Reaches
        { header := block.header
          headers := Function.update before.headers block.header.height (some block.header)
          nonces := nonces
          handed := before.handed ++ handed }

/-- Every chain of linked blocks is guarded. -/
theorem LinkRule.Reaches.guarded {rule : LinkRule η ρ ι}
    (reached : rule.Reaches chain) : chain.Guarded := by
  induction reached with
  | genesis nonces empty =>
    constructor
    · exact nodup_nil
    · intro key
      simp [empty key, consumedNonces]
    · intro header row
      cases row
  | block reached block links layers sameView resolvedSenders executes guarded =>
    obtain ⟨justify, resolves, held⟩ := links.held
    obtain ⟨notOlder, next⟩ := checkParentLinkOrUpgrade_held resolves held
    exact guarded.execute notOlder next sameView executes

/-- Over a whole chain no pair of sender and nonce is handed to execution twice, and the nonce rows
are the executed pairs still inside the window. -/
theorem LinkRule.Reaches.nativeActions_once {rule : LinkRule η ρ ι} (reached : rule.Reaches chain) :
    (consumedNonces chain.handed).Nodup ∧
      ∀ key, (chain.nonces.get key).isSome ↔
        ∃ pair ∈ consumedNonces chain.handed,
          nonceCutoffMs (blockTimestampMs chain.header.timestamp) ≤ pair.2 ∧
            key = nativeNonceKey pair.1 pair.2 :=
  ⟨reached.guarded.once, reached.guarded.rows⟩

end Chain

def sampleRule : LinkRule Nat Unit Unit where
  headerHash := fun header => header.height.val + 9
  genesis := { height := 0, parentHash := 0, timestamp := 0, rest := () }
  schedule := {}
  known := 0
  parent := fun _ => .notInTree
  boundary := fun _ => .ok none

def sampleBlock : TorusBlock Nat Unit Nat where
  header := { height := 1, parentHash := 9, timestamp := 1000, rest := () }
  nativeActions := [⟨5, 950000⟩, ⟨5, 950000⟩, ⟨6, 1⟩]

theorem sampleBlock_links : sampleRule.Links sampleRule.genesis sampleBlock.header :=
  ⟨{ isGenesisPc := true, block := () }, rfl, by decide +kernel⟩

theorem nativeActions_once_repeated : ∃ nonces : NonceRows,
    (nonces.get (nativeNonceKey 7 950000)).isSome ∧
      (consumedNonces [((7 : Address), (⟨5, 950000⟩ : SignedNativeAction Nat))]).Nodup := by
  have handed : (executeCommittedBlock (fun _ => none) {} sampleBlock [some 7, some 7, some 7]).map
      Prod.snd = some [(7, ⟨5, 950000⟩)] := by decide +kernel
  obtain ⟨⟨nonces, _⟩, executes, rfl⟩ := Option.map_eq_some_iff.mp handed
  have start := @LinkRule.Reaches.genesis Nat Unit Unit Nat _ sampleRule {} fun _ => rfl
  have reached := start.block sampleBlock sampleBlock_links {} (fun _ => rfl) _ executes
  have once := reached.nativeActions_once
  have recent : nonceCutoffMs (blockTimestampMs sampleBlock.header.timestamp) ≤ 950000 := by
    decide +kernel
  exact ⟨nonces, (once.2 _).mpr ⟨(7, 950000), mem_singleton_self _, recent, rfl⟩, once.1⟩

end TorusHyperBft.Chain
