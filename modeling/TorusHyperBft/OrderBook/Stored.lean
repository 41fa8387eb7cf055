import TorusHyperBft.OrderBook.Saving

namespace TorusHyperBft.OrderBook

open List

/-! The rows that are stored for a book, from save to save. -/

namespace Book

/-- What is to be stored for an order: its sequence and itself, while it rests. -/
def orderRow (book : Book) (id : Nat) : Option (List Byte) :=
  (book.resting.find? fun order => order.id = id).map fun order =>
    encodeOrderRow (order.row book.indexes.orderSeq)

section Rows

variable {book after : Book} {id : Nat} {marks : List Mark}

theorem Valid.orderRow_of_resting (valid : book.Valid) {order : Order}
    (member : order ∈ book.resting) :
    book.orderRow order.id = some (encodeOrderRow (order.row book.indexes.orderSeq)) := by
  cases found : book.resting.find? fun other => other.id = order.id with
  | none => simpa using List.find?_eq_none.mp found order member
  | some other =>
    have sameId : other.id = order.id := by simpa using List.find?_some found
    rw [orderRow, found, valid.eq_of_id (mem_of_find?_eq_some found) member sameId]
    rfl

theorem orderRow_of_absent (absent : id ∉ book.resting.map Order.id) : book.orderRow id = none := by
  have nothing : book.resting.find? (fun order => order.id = id) = none := by
    rw [List.find?_eq_none]
    intro order member same
    exact absent (mem_map.mpr ⟨order, member, by simpa using same⟩)
  rw [orderRow, nothing]
  rfl

theorem Valid.liveRow (valid : book.Valid) (id : Nat) : book.liveRow id = book.orderRow id := by
  by_cases rests : id ∈ book.resting.map Order.id
  · obtain ⟨order, member, rfl⟩ := mem_map.mp rests
    obtain ⟨seq, sequenced⟩ := valid.seq_of_resting member
    have found : book.getOrder order.id = some order := valid.getOrder_iff.mpr ⟨member, rfl⟩
    rw [valid.orderRow_of_resting member]
    simp [Book.liveRow, valid.orderIndex member, rowOf, sequenced, found, Order.row]
  · rw [orderRow_of_absent rests]
    simp [Book.liveRow, valid.orderIndex_none rests]

theorem Valid.orderRow_iff (valid : book.Valid)
    {bytes : List Byte} : book.orderRow id = some bytes ↔
    ∃ key, ∃ row ∈ book.rowsAt key, row.id = id ∧ encodeOrderRow row = bytes := by
  constructor
  · intro stored
    by_cases rests : id ∈ book.resting.map Order.id
    · obtain ⟨order, member, rfl⟩ := mem_map.mp rests
      obtain ⟨seq, sequenced⟩ := valid.seq_of_resting member
      rw [valid.orderRow_of_resting member, Option.some.injEq] at stored
      refine ⟨order.levelKey, order.row book.indexes.orderSeq, ?_, rfl, stored⟩
      exact valid.mem_rowsAt.mpr ⟨member, rfl, by simp [Order.row, OrderRow.id, sequenced]⟩
    · rw [orderRow_of_absent rests] at stored
      contradiction
  · rintro ⟨key, row, member, rfl, rfl⟩
    obtain ⟨rests, _, sequenced⟩ := valid.mem_rowsAt.mp member
    have same : row.2.row book.indexes.orderSeq = row := by
      have sequence : book.indexes.orderSeq row.2.id = some row.1 := sequenced
      simp [Order.row, sequence]
    rw [OrderRow.id, valid.orderRow_of_resting rests, same]

theorem Valid.orderRow_tracked (valid : book.Valid) (afterValid : after.Valid)
    (tracked : Tracked book marks after) (unmarked : Mark.row id ∉ marks) :
    after.orderRow id = book.orderRow id := by
  have same : ∀ key (row : OrderRow), row.id = id →
      (row ∈ after.rowsAt key ↔ row ∈ book.rowsAt key) := by
    intro key row own
    have kept := (tracked key).rewrites.rows
    have inFilter : ∀ rows : List OrderRow,
        row ∈ rows.filter (fun row => decide (Mark.row row.id ∉ marks)) ↔ row ∈ rows := by
      intro rows
      simp [mem_filter, own, unmarked]
    rw [← inFilter, ← kept, inFilter]
  apply Option.ext
  intro bytes
  rw [afterValid.orderRow_iff, valid.orderRow_iff]
  constructor
  · rintro ⟨key, row, member, own, encoded⟩
    exact ⟨key, row, (same key row own).mp member, own, encoded⟩
  · rintro ⟨key, row, member, own, encoded⟩
    exact ⟨key, row, (same key row own).mpr member, own, encoded⟩

theorem Holds.orderRow {rows : List OrderRow} (holds : book.Holds rows)
    (nodup : (rows.map OrderRow.id).Nodup) (id : Nat) :
    book.orderRow id = (rows.find? fun row => row.id = id).map encodeOrderRow := by
  apply Option.ext
  intro bytes
  rw [holds.valid.orderRow_iff, Option.map_eq_some_iff]
  constructor
  · rintro ⟨key, row, member, rfl, rfl⟩
    rw [holds.byLevel, mem_filter] at member
    refine ⟨row, ?_, rfl⟩
    cases found : rows.find? fun other => other.id = row.id with
    | none => simpa using List.find?_eq_none.mp found row member.1
    | some other =>
      have sameId : other.id = row.id := by simpa using List.find?_some found
      rw [inj_on_of_nodup_map nodup (mem_of_find?_eq_some found) member.1 sameId]
  · rintro ⟨row, found, rfl⟩
    refine ⟨row.levelKey, row, ?_, by simpa using List.find?_some found, rfl⟩
    rw [holds.byLevel, mem_filter]
    exact ⟨mem_of_find?_eq_some found, by simp⟩

theorem Valid.takeRowOps_exact {hash : StreamingHash} {journals : Journals hash}
    (valid : book.Valid) {stored : Nat → Option (List Byte)}
    (known : WriteBehind.Mirrors journals.rowExists stored)
    (behind : ∀ id, id ∉ journals.rowJournal → stored id = book.orderRow id) :
    WriteBehind.applyOps stored (book.takeRowOps journals).2 = book.orderRow ∧
      WriteBehind.Mirrors (book.takeRowOps journals).1.rowExists book.orderRow := by
  have computes : ∀ (state : Unit) id, True →
      ((book.liveRow id, ()) : Option (List Byte) × Unit).1 = book.orderRow id ∧ True :=
    fun _ id _ => ⟨valid.liveRow id, trivial⟩
  exact WriteBehind.drain_exact computes trivial known fun id absent =>
    behind id fun journaled => absent ((Finset.mem_sort _).mpr journaled)

theorem takeLevelOps_frame {hash : StreamingHash} (book : Book) (journals : Journals hash) :
    (book.takeLevelOps journals).1.levelHashChunked = journals.levelHashChunked ∧
      (book.takeLevelOps journals).1.rowExists = journals.rowExists ∧
      (book.takeLevelOps journals).1.rowJournal = journals.rowJournal ∧
      (book.takeLevelOps journals).1.levelJournal = ∅ := by
  cases mode : journals.levelHashChunked <;> simp [takeLevelOps, mode]

theorem freshLevelRow_isSome (hash : StreamingHash) (chunked : Bool) (key : LevelKey) :
    (book.freshLevelRow hash chunked key).isSome ↔ book.rowsAt key ≠ [] := by
  cases chunked <;> cases rows : book.rowsAt key <;>
    simp [freshLevelRow, levelRowData, levelRowDataChunked, rows]

end Rows

end Book

inductive BookMode where
  | orderRows
  | levelAuthority
  | levelAuthorityChunked
deriving DecidableEq

namespace BookMode

def isLevelAuthority (mode : BookMode) : Bool := decide (mode ≠ .orderRows)

def levelHashChunked (mode : BookMode) : Bool := decide (mode = .levelAuthorityChunked)

end BookMode

/-- A book with its journals, and the rows stored for it. -/
structure Stored (hash : StreamingHash) where
  saving : Saving hash
  orderRows : Nat → Option (List Byte) := fun _ => none
  levelRows : LevelKey → Option LevelRowData := fun _ => none

namespace Stored

variable {hash : StreamingHash}

def book (stored : Stored hash) : Book := stored.saving.book

def operate (stored : Stored hash) (op : Op) : Stored hash :=
  { stored with saving := stored.saving.operate op }

def prepare (mode : BookMode) (levelCachePerBook : Nat) (saving : Saving hash) : Saving hash :=
  if mode.levelHashChunked then
    (saving.configure (.setLevelHashChunked true)).configure .disableLevelHashCache
  else if 0 < levelCachePerBook then saving.configure (.ensureLevelHashCache levelCachePerBook)
  else saving.configure .disableLevelHashCache

def save (mode : BookMode) (levelCachePerBook : Nat) (stored : Stored hash) : Stored hash :=
  if mode.isLevelAuthority then
    let (drained, rowOps) := (prepare mode levelCachePerBook stored.saving).takeRowOps
    let (saving, levelOps) := drained.takeLevelOps
    { saving
      orderRows := WriteBehind.applyOps stored.orderRows rowOps
      levelRows := WriteBehind.applyOps stored.levelRows levelOps }
  else
    let (drained, rowOps) := stored.saving.takeRowOps
    { stored with
      saving := drained.configure .discardLevelOps
      orderRows := WriteBehind.applyOps stored.orderRows rowOps }

def load (mode : BookMode) (marketId : MarketId) (header : BookMeta) (rows : List OrderRow)
    (stops : List StopOrder) (stored : Stored hash) : Stored hash :=
  let loaded := Saving.loaded hash marketId header rows stops
  { stored with
    saving := if mode.isLevelAuthority then
        loaded.configure (.setLevelHashChunked mode.levelHashChunked)
      else loaded }

/-- What a load finds: these order rows and, where levels are stored, the rows of the levels
they form. -/
structure Finds (mode : BookMode) (marketId : MarketId) (header : BookMeta) (rows : List OrderRow)
    (stops : List StopOrder) (stored : Stored hash) : Prop where
  loadable : Loadable header rows stops
  orderRows : ∀ id, stored.orderRows id =
    (rows.find? fun row => row.id = id).map encodeOrderRow
  levelRows : mode.isLevelAuthority → stored.levelRows =
    (Book.load marketId header rows stops).freshLevelRow hash mode.levelHashChunked

/-- A book and its rows on disk that operations, saves and loads lead to. -/
inductive Reachable (mode : BookMode) : Stored hash → Prop
  | new (marketId : MarketId) (tickSize lotSize : Int) (positive : 0 < lotSize) :
      Reachable mode { saving := { desk := { book := Book.new marketId tickSize lotSize } } }
  | operate {stored : Stored hash} (op : Op) (reachable : Reachable mode stored)
      (allowed : stored.saving.desk.Allowed op) : Reachable mode (stored.operate op)
  | save {stored : Stored hash} (levelCachePerBook : Nat) (reachable : Reachable mode stored) :
      Reachable mode (stored.save mode levelCachePerBook)
  | load {stored : Stored hash} (marketId : MarketId) {header : BookMeta} {rows : List OrderRow}
      {stops : List StopOrder} (reachable : Reachable mode stored)
      (finds : Finds mode marketId header rows stops stored) :
      Reachable mode (stored.load mode marketId header rows stops)

/-- What is stored is behind on journaled keys only. -/
structure InStep (mode : BookMode) (stored : Stored hash) : Prop where
  inv : stored.saving.Inv
  inMode : stored.saving.journals.levelHashChunked = true → mode.levelHashChunked = true
  rowsKnown : WriteBehind.Mirrors stored.saving.journals.rowExists stored.orderRows
  rowsBehind : ∀ id, id ∉ stored.saving.journals.rowJournal →
    stored.orderRows id = stored.book.orderRow id
  levelsKnown : mode.isLevelAuthority →
    WriteBehind.Mirrors stored.saving.journals.levelExists stored.levelRows
  levelsBehind : mode.isLevelAuthority → ∀ key, key ∉ stored.saving.journals.levelJournal →
    stored.levelRows key = stored.book.freshLevelRow hash mode.levelHashChunked key

section InStep

variable {mode : BookMode} {stored : Stored hash}

theorem InStep.operate (inStep : stored.InStep mode) {op : Op}
    (allowed : stored.saving.desk.Allowed op) : (stored.operate op).InStep mode := by
  have tracked := inStep.inv.desk.tracked allowed
  have frame := stored.saving.journals.recordAll_frame (stored.saving.desk.marks op)
  have inv : (stored.operate op).saving.Inv :=
    ⟨inStep.inv.desk.step allowed, inStep.inv.sound.recordAll tracked⟩
  have valid : stored.book.Valid := inStep.inv.desk.sound.valid
  refine ⟨inv, ?_, ?_, ?_, ?_, ?_⟩
  · intro chunked
    exact inStep.inMode (frame.levelHashChunked ▸ chunked)
  · change WriteBehind.Mirrors (stored.saving.journals.recordAll _).rowExists _
    rw [frame.rowExists]
    exact inStep.rowsKnown
  · intro id clean
    obtain ⟨old, unmarked⟩ := not_or.mp (mt Journals.mem_recordAll_rowJournal.mpr clean)
    refine (inStep.rowsBehind id old).trans ?_
    exact (valid.orderRow_tracked inv.desk.sound.valid tracked unmarked).symm
  · intro levels
    change WriteBehind.Mirrors (stored.saving.journals.recordAll _).levelExists _
    rw [frame.levelExists]
    exact inStep.levelsKnown levels
  · intro levels key clean
    obtain ⟨old, unmarked⟩ := not_or.mp (mt Journals.mem_recordAll_levelJournal.mpr clean)
    have same : (stored.operate op).book.rowsAt key = stored.book.rowsAt key :=
      (tracked key).levels unmarked
    refine (inStep.levelsBehind levels key old).trans ?_
    simp only [Book.freshLevelRow, same]

/-- Preparing a save sets the hashing mode and keeps what is to be written. -/
theorem prepare_spec (levelCachePerBook : Nat) {saving : Saving hash} (inv : saving.Inv)
    (inMode : saving.journals.levelHashChunked = true → mode.levelHashChunked = true) :
    (prepare mode levelCachePerBook saving).Inv ∧
      (prepare mode levelCachePerBook saving).desk = saving.desk ∧
      (prepare mode levelCachePerBook saving).journals.levelHashChunked = mode.levelHashChunked ∧
      (prepare mode levelCachePerBook saving).journals.rowExists = saving.journals.rowExists ∧
      (prepare mode levelCachePerBook saving).journals.rowJournal = saving.journals.rowJournal ∧
      (prepare mode levelCachePerBook saving).journals.levelExists = saving.journals.levelExists ∧
      (prepare mode levelCachePerBook saving).journals.levelJournal =
        saving.journals.levelJournal := by
  cases chunked : mode.levelHashChunked with
  | true =>
    simp only [prepare, chunked, if_true]
    exact ⟨(inv.configure _).configure _, rfl, rfl, rfl, rfl, rfl, rfl⟩
  | false =>
    have flat : saving.journals.levelHashChunked = false := by
      cases set : saving.journals.levelHashChunked with
      | false => rfl
      | true => exact absurd (inMode set) (by simp [chunked])
    simp only [prepare, chunked, Bool.false_eq_true, if_false]
    split
    · rename_i positive
      refine ⟨inv.configure _, rfl, ?_, ?_, ?_, ?_, ?_⟩ <;>
        simp [Saving.configure, Journals.ensureLevelHashCache, Nat.ne_of_gt positive, flat]
    · exact ⟨inv.configure _, rfl, flat, rfl, rfl, rfl, rfl⟩

theorem InStep.save_exact (inStep : stored.InStep mode) (levelCachePerBook : Nat) :
    (stored.save mode levelCachePerBook).orderRows = stored.book.orderRow ∧
      (mode.isLevelAuthority → (stored.save mode levelCachePerBook).levelRows =
        stored.book.freshLevelRow hash mode.levelHashChunked) ∧
      (stored.save mode levelCachePerBook).InStep mode := by
  have valid : stored.book.Valid := inStep.inv.desk.sound.valid
  cases levels : mode.isLevelAuthority with
  | false =>
    obtain ⟨exact, known⟩ := valid.takeRowOps_exact inStep.rowsKnown inStep.rowsBehind
    have drained : stored.saving.takeRowOps.1.Inv :=
      ⟨inStep.inv.desk, inStep.inv.sound.cached, inStep.inv.sound.chunked⟩
    simp only [save, levels, Bool.false_eq_true, if_false, false_implies, true_and]
    refine ⟨exact, drained.configure .discardLevelOps, inStep.inMode, ?_, fun id _ => ?_, ?_, ?_⟩
    · exact exact ▸ known
    · exact congrFun exact id
    · simp [levels]
    · simp [levels]
  | true =>
    obtain ⟨prepared, sameDesk, chunked, rowExists, rowJournal, levelExists, levelJournal⟩ :=
      prepare_spec levelCachePerBook inStep.inv inStep.inMode
    simp only [save, levels, if_true, true_implies]
    generalize prepare mode levelCachePerBook stored.saving = saving at *
    have sameBook : saving.book = stored.book := congrArg Desk.book sameDesk
    have drained : saving.takeRowOps.1.Inv :=
      ⟨prepared.desk, prepared.sound.cached, prepared.sound.chunked⟩
    rw [← sameBook] at valid ⊢
    obtain ⟨rowsExact, rowsKnown⟩ := @Book.Valid.takeRowOps_exact saving.book hash
      saving.journals valid stored.orderRows (rowExists ▸ inStep.rowsKnown)
      (by rw [rowJournal, sameBook]; exact inStep.rowsBehind)
    obtain ⟨sound, _, drains⟩ := valid.takeLevelOps_spec drained.sound
    have mode : saving.takeRowOps.1.journals.levelHashChunked = mode.levelHashChunked := chunked
    rw [mode] at drains
    obtain ⟨levelsExact, levelsKnown⟩ := drains stored.levelRows
      (by
        change WriteBehind.Mirrors saving.journals.levelExists _
        rw [levelExists]
        exact inStep.levelsKnown levels)
      (by
        change ∀ key, key ∉ saving.journals.levelJournal → _
        rw [levelJournal, sameBook]
        exact inStep.levelsBehind levels)
    obtain ⟨keptMode, keptExists, _, _⟩ :=
      saving.book.takeLevelOps_frame saving.takeRowOps.1.journals
    refine ⟨rowsExact, levelsExact, ⟨prepared.desk, sound⟩, ?_, ?_, ?_, ?_, ?_⟩
    · intro set
      exact mode.symm.trans (keptMode.symm.trans set)
    · change WriteBehind.Mirrors (saving.book.takeLevelOps _).1.rowExists
        (WriteBehind.applyOps stored.orderRows (saving.book.takeRowOps saving.journals).2)
      rw [keptExists, rowsExact]
      exact rowsKnown
    · intro id _
      exact congrFun rowsExact id
    · intro _
      change WriteBehind.Mirrors _ (WriteBehind.applyOps stored.levelRows
        (saving.book.takeLevelOps saving.takeRowOps.1.journals).2)
      rw [levelsExact]
      exact levelsKnown
    · intro _ key _
      exact congrFun levelsExact key

theorem InStep.load {marketId : MarketId} {header : BookMeta} {rows : List OrderRow}
    {stops : List StopOrder} (finds : Finds mode marketId header rows stops stored) :
    (stored.load mode marketId header rows stops).InStep mode := by
  have holds := finds.loadable.load_holds marketId
  obtain ⟨_, _, _, flat, _⟩ := ({} : Journals hash).noteAllLoaded_frame rows
  obtain ⟨rowExists, levelExists⟩ := ({} : Journals hash).mem_noteAllLoaded rows
  have loaded := @Saving.loaded_inv hash marketId header rows stops finds.loadable
  have orderRow : ∀ id, stored.orderRows id = (Book.load marketId header rows stops).orderRow id := by
    intro id
    rw [finds.orderRows id, holds.orderRow (nodup_append.mp finds.loadable.ids).1]
  have rowsKnown : WriteBehind.Mirrors (({} : Journals hash).noteAllLoaded rows).rowExists
      stored.orderRows := by
    intro id
    rw [rowExists id, finds.orderRows id, Option.isSome_map, List.find?_isSome]
    simp
  cases levels : mode.isLevelAuthority with
  | false =>
    simp only [Stored.load, levels, Bool.false_eq_true, if_false]
    refine ⟨loaded, ?_, rowsKnown, fun id _ => orderRow id, ?_, ?_⟩
    · simp [Saving.loaded, flat]
    · simp [levels]
    · simp [levels]
  | true =>
    simp only [Stored.load, levels, if_true]
    have stored_levels := finds.levelRows levels
    have configured := loaded.configure (.setLevelHashChunked mode.levelHashChunked)
    cases chunked : mode.levelHashChunked <;> rw [chunked] at configured stored_levels
    all_goals
      refine ⟨configured, ?_, rowsKnown, fun id _ => orderRow id, fun _ key => ?_,
        fun _ key _ => ?_⟩
      · simp [Saving.configure, Journals.setLevelHashChunked, chunked]
      · change key ∈ (({} : Journals hash).noteAllLoaded rows).levelExists ↔ _
        rw [levelExists key, stored_levels, Book.freshLevelRow_isSome, holds.byLevel]
        simp [filter_eq_nil_iff]
      · rw [chunked, stored_levels]
        rfl

theorem Reachable.inStep (reachable : stored.Reachable mode) : stored.InStep mode := by
  induction reachable with
  | new marketId tickSize lotSize positive =>
    refine ⟨⟨.new marketId tickSize positive, by simp, by simp⟩, by simp, ?_, ?_, ?_, ?_⟩
    · intro id
      simp
    · intro id _
      rfl
    · intro _ key
      simp
    · intro _ key _
      rw [eq_comm, ← Option.not_isSome_iff_eq_none, Book.freshLevelRow_isSome]
      cases side : key.side <;>
        simp [book, Saving.book, Book.new, Book.rowsAt, Book.ladder, side, Ladder.rowsAt,
          Ladder.get, Queue.rows]
  | operate op reachable allowed ih => exact ih.operate allowed
  | save levelCachePerBook reachable ih => exact (ih.save_exact levelCachePerBook).2.2
  | load marketId reachable finds ih => exact .load finds

end InStep

/-- After every save of every run exactly the resting orders are stored and, where levels are
stored, exactly the rows of the levels they form. -/
theorem save_stores_book {mode : BookMode} {stored : Stored hash}
    (reachable : stored.Reachable mode)
    (levelCachePerBook : Nat) :
    (stored.save mode levelCachePerBook).orderRows = stored.book.orderRow ∧
      (mode.isLevelAuthority → (stored.save mode levelCachePerBook).levelRows =
        stored.book.freshLevelRow hash mode.levelHashChunked) :=
  have saved := reachable.inStep.save_exact levelCachePerBook
  ⟨saved.1, saved.2.1⟩

/-- An ask is stored and cancelled, and its level goes with it. -/
theorem save_stores_book_cancelled :
    let stored := (((({ saving := { desk := { book := Book.new 1 1 1 } } } :
      Stored Saving.transcript).operate (.place (Book.limitOrder 1 false 10 2))).save
        .levelAuthorityChunked 0).operate (.cancelOrder 1))
    (stored.save .levelAuthorityChunked 0).orderRows = stored.book.orderRow ∧
      (BookMode.levelAuthorityChunked.isLevelAuthority →
        (stored.save .levelAuthorityChunked 0).levelRows =
          stored.book.freshLevelRow Saving.transcript
            BookMode.levelAuthorityChunked.levelHashChunked) :=
  save_stores_book
    (.operate (.cancelOrder 1) (.save 0 (.operate (.place (Book.limitOrder 1 false 10 2))
      (.new 1 1 1 (by decide)) (fun checked => absurd checked (by decide)))) trivial) 0

end Stored

end TorusHyperBft.OrderBook
