import TorusHyperBft.OrderBook.Load

namespace TorusHyperBft.OrderBook

/-! A book over its whole life with the journals and caches it keeps for its saves. -/

namespace Journals

variable {hash : StreamingHash}

def discardRowOps (journals : Journals hash) : Journals hash := { journals with rowJournal := ∅ }

def noteLoaded (journals : Journals hash) (row : OrderRow) : Journals hash :=
  { journals with
    rowExists := insert row.id journals.rowExists
    levelExists := insert row.levelKey journals.levelExists }.record
      (.chunk row.levelKey (some row.1))

def noteAllLoaded (journals : Journals hash) (rows : List OrderRow) : Journals hash :=
  rows.foldl noteLoaded journals

theorem noteAllLoaded_frame (journals : Journals hash) (rows : List OrderRow) :
    (journals.noteAllLoaded rows).rowJournal = journals.rowJournal ∧
      (journals.noteAllLoaded rows).levelJournal = journals.levelJournal ∧
      (journals.noteAllLoaded rows).levelHashCache = journals.levelHashCache ∧
      (journals.noteAllLoaded rows).levelHashChunked = journals.levelHashChunked ∧
      (journals.noteAllLoaded rows).levelChunks = journals.levelChunks := by
  induction rows generalizing journals with
  | nil => exact ⟨rfl, rfl, rfl, rfl, rfl⟩
  | cons row rows ih =>
    have noted : (journals.noteLoaded row).rowJournal = journals.rowJournal ∧
        (journals.noteLoaded row).levelJournal = journals.levelJournal ∧
        (journals.noteLoaded row).levelHashCache = journals.levelHashCache ∧
        (journals.noteLoaded row).levelHashChunked = journals.levelHashChunked ∧
        (journals.noteLoaded row).levelChunks = journals.levelChunks := by
      cases mode : journals.levelHashChunked <;> simp [noteLoaded, record, mode]
    obtain ⟨rowJournal, levelJournal, cache, mode, chunks⟩ := noted
    rw [← rowJournal, ← levelJournal, ← cache, ← mode, ← chunks]
    exact ih (journals.noteLoaded row)

theorem mem_noteAllLoaded (journals : Journals hash) (rows : List OrderRow) :
    (∀ id, id ∈ (journals.noteAllLoaded rows).rowExists ↔
        id ∈ journals.rowExists ∨ id ∈ rows.map OrderRow.id) ∧
      ∀ key, key ∈ (journals.noteAllLoaded rows).levelExists ↔
        key ∈ journals.levelExists ∨ key ∈ rows.map OrderRow.levelKey := by
  induction rows generalizing journals with
  | nil => simp [noteAllLoaded]
  | cons row rows ih =>
    have noted : (journals.noteLoaded row).rowExists = insert row.id journals.rowExists ∧
        (journals.noteLoaded row).levelExists = insert row.levelKey journals.levelExists := by
      cases mode : journals.levelHashChunked <;> simp [noteLoaded, record, mode]
    obtain ⟨ids, keys⟩ := ih (journals.noteLoaded row)
    rw [noted.1] at ids
    rw [noted.2] at keys
    constructor
    · intro id
      rw [noteAllLoaded, List.foldl_cons]
      refine (ids id).trans ?_
      rw [Finset.mem_insert, List.map_cons, List.mem_cons]
      exact or_assoc.trans or_left_comm
    · intro key
      rw [noteAllLoaded, List.foldl_cons]
      refine (keys key).trans ?_
      rw [Finset.mem_insert, List.map_cons, List.mem_cons]
      exact or_assoc.trans or_left_comm

end Journals

structure Saving (hash : StreamingHash) where
  desk : Desk
  journals : Journals hash := {}

namespace Saving

variable {hash : StreamingHash}

def book (saving : Saving hash) : Book := saving.desk.book

def loaded (hash : StreamingHash) (marketId : MarketId) (header : BookMeta) (rows : List OrderRow)
    (stops : List StopOrder) : Saving hash where
  desk := { book := Book.load marketId header rows stops }
  journals := ({} : Journals hash).noteAllLoaded rows

def operate (saving : Saving hash) (op : Op) : Saving hash where
  desk := saving.desk.step op
  journals := saving.journals.recordAll (saving.desk.marks op)

def takeRowOps (saving : Saving hash) : Saving hash × WriteBehind.Ops Nat (List Byte) :=
  let (journals, ops) := saving.book.takeRowOps saving.journals
  ({ saving with journals }, ops)

def takeLevelOps (saving : Saving hash) : Saving hash × WriteBehind.Ops LevelKey LevelRowData :=
  let (journals, ops) := saving.book.takeLevelOps saving.journals
  ({ saving with journals }, ops)

/-- What a node does to the journals besides draining them. -/
inductive Setting where
  | ensureLevelHashCache (budgetBytes : Nat)
  | disableLevelHashCache
  | setLevelHashChunked (on : Bool)
  | discardRowOps
  | discardLevelOps

def configure (saving : Saving hash) (setting : Setting) : Saving hash :=
  { saving with
    journals := match setting with
      | .ensureLevelHashCache budgetBytes => saving.journals.ensureLevelHashCache budgetBytes
      | .disableLevelHashCache => saving.journals.disableLevelHashCache
      | .setLevelHashChunked on => saving.journals.setLevelHashChunked on
      | .discardRowOps => saving.journals.discardRowOps
      | .discardLevelOps => saving.journals.discardLevelOps }

/-- A book that operations, saves and loads lead to. -/
inductive Reachable : Saving hash → Prop
  | new (marketId : MarketId) (tickSize lotSize : Int) (positive : 0 < lotSize) :
      Reachable { desk := { book := Book.new marketId tickSize lotSize } }
  | load (marketId : MarketId) {header : BookMeta} {rows : List OrderRow} {stops : List StopOrder}
      (loadable : Loadable header rows stops) : Reachable (loaded hash marketId header rows stops)
  | operate {saving : Saving hash} (op : Op) (reachable : Reachable saving)
      (allowed : saving.desk.Allowed op) : Reachable (saving.operate op)
  | takeRowOps {saving : Saving hash} (reachable : Reachable saving) : Reachable saving.takeRowOps.1
  | takeLevelOps {saving : Saving hash} (reachable : Reachable saving) :
      Reachable saving.takeLevelOps.1
  | configure {saving : Saving hash} (setting : Setting) (reachable : Reachable saving) :
      Reachable (saving.configure setting)

/-- The indexes are right, and so is everything the caches remember. -/
structure Inv (saving : Saving hash) : Prop where
  desk : saving.desk.Inv
  sound : saving.journals.Sound saving.book

variable {saving : Saving hash}

theorem Inv.configure (inv : saving.Inv) (setting : Setting) : (saving.configure setting).Inv := by
  refine ⟨inv.desk, ?_⟩
  have cached := inv.sound.cached
  have chunked := inv.sound.chunked
  cases setting with
  | ensureLevelHashCache budgetBytes =>
    simp only [Saving.configure, Journals.ensureLevelHashCache]
    split
    · exact ⟨by simp, chunked⟩
    · refine ⟨?_, chunked⟩
      intro cache present key entry found
      obtain rfl := Option.some.inj present
      cases held : saving.journals.levelHashCache with
      | none => simp [held] at found
      | some cache =>
        rw [held] at found
        exact cached cache held key entry found
  | disableLevelHashCache => exact ⟨by simp [Saving.configure, Journals.disableLevelHashCache], chunked⟩
  | setLevelHashChunked on =>
    simp only [Saving.configure, Journals.setLevelHashChunked]
    split
    · refine ⟨cached, fun key chunks present => ⟨rfl, (chunked key chunks present).2⟩⟩
    · exact ⟨cached, by simp⟩
  | discardRowOps => exact ⟨cached, chunked⟩
  | discardLevelOps => exact ⟨cached, by simp [Saving.configure, Journals.discardLevelOps]⟩

theorem loaded_inv (marketId : MarketId) {header : BookMeta} {rows : List OrderRow}
    {stops : List StopOrder} (loadable : Loadable header rows stops) :
    (loaded hash marketId header rows stops).Inv := by
  refine ⟨loadable.inv marketId, ?_⟩
  obtain ⟨_, _, noCache, _, noChunks⟩ := ({} : Journals hash).noteAllLoaded_frame rows
  exact ⟨by simp [loaded, noCache], by simp [loaded, noChunks]⟩

theorem Reachable.inv (reachable : saving.Reachable) : saving.Inv := by
  induction reachable with
  | new marketId tickSize lotSize positive =>
    exact ⟨.new marketId tickSize positive, by simp, by simp⟩
  | load marketId loadable => exact loaded_inv marketId loadable
  | operate op reachable allowed ih =>
    exact ⟨ih.desk.step allowed, ih.sound.recordAll (ih.desk.tracked allowed)⟩
  | takeRowOps reachable ih => exact ⟨ih.desk, ih.sound.cached, ih.sound.chunked⟩
  | takeLevelOps reachable ih =>
    exact ⟨ih.desk, (ih.desk.sound.valid.takeLevelOps_spec ih.sound).1⟩
  | configure setting reachable ih => exact ih.configure setting

/-- Whatever happened to the book and to its caches, a drain gives out the rows that are
computed from the whole levels. -/
theorem takeLevelOps_fresh (reachable : saving.Reachable) : ∀ op ∈ saving.takeLevelOps.2,
      op.2 = saving.book.freshLevelRow hash saving.journals.levelHashChunked op.1 :=
  have inv := reachable.inv
  (inv.desk.sound.valid.takeLevelOps_spec inv.sound).2.1

def transcript : StreamingHash where
  State := List Byte
  new := []
  update := (· ++ ·)
  finalize state := state
  update_update := by simp

/-- A cached level that grew by an append between two drains. -/
theorem takeLevelOps_fresh_appended :
    let first := ((({ desk := { book := Book.new 1 1 1 } } : Saving transcript).configure
      (.ensureLevelHashCache 1024)).operate (.place (Book.limitOrder 1 false 10 2))).takeLevelOps.1
    let second := (first.operate (.place (Book.limitOrder 2 false 10 3))).takeLevelOps.1
    let third := second.operate (.place (Book.limitOrder 1 false 10 4))
    ∀ op ∈ third.takeLevelOps.2,
      op.2 = third.book.freshLevelRow transcript third.journals.levelHashChunked op.1 :=
  takeLevelOps_fresh
    (.operate _ (.takeLevelOps (.operate _ (.takeLevelOps (.operate _ (.configure _
      (.new 1 1 1 (by decide))) (fun checked => absurd checked (by decide))))
      (fun checked => absurd checked (by decide)))) (fun checked => absurd checked (by decide)))

end Saving

end TorusHyperBft.OrderBook
