import TorusHyperBft.OrderBook.DepthOf

namespace TorusHyperBft.OrderBook

open List

/-! The rows of the levels of a book say what its orders come to, however they are hashed. -/

section Sums

variable {α κ β : Type} [DecidableEq κ] [AddCommMonoid β]

theorem sum_map_ite_add {keys : List κ} (nodup : keys.Nodup) {key : κ} (member : key ∈ keys)
    (weight : β) (value : κ → β) :
    (keys.map fun other => if key = other then weight + value other else value other).sum =
      weight + (keys.map value).sum := by
  induction keys with
  | nil => contradiction
  | cons first keys ih =>
    obtain ⟨fresh, rest⟩ := nodup_cons.mp nodup
    rw [map_cons, map_cons, sum_cons, sum_cons]
    by_cases same : key = first
    · have others : (keys.map fun other => if key = other then weight + value other else value other) =
          keys.map value := by
        apply map_congr_left
        intro other inKeys
        have different : key ≠ other := fun equal => fresh (by rw [← same, equal]; exact inKeys)
        rw [if_neg different]
      rw [if_pos same, others, add_assoc]
    · have later : key ∈ keys := (mem_cons.mp member).resolve_left same
      rw [if_neg same, ih rest later, add_left_comm]

theorem sum_by_group {keys : List κ} (nodup : keys.Nodup) (group : α → κ) (weight : α → β)
    {members : List α} (covered : ∀ member ∈ members, group member ∈ keys) :
    (keys.map fun key => ((members.filter fun member => decide (group member = key)).map weight).sum).sum =
      (members.map weight).sum := by
  induction members with
  | nil => simp
  | cons member members ih =>
    have rest := ih fun other later => covered other (mem_cons_of_mem _ later)
    have split : ∀ key, (((member :: members).filter fun member => decide (group member = key)).map
        weight).sum = if group member = key then
          weight member + ((members.filter fun member => decide (group member = key)).map weight).sum
        else ((members.filter fun member => decide (group member = key)).map weight).sum := by
      intro key
      by_cases own : group member = key <;> simp [own]
    rw [map_congr_left fun key _ => split key,
      sum_map_ite_add nodup (covered member mem_cons_self), rest, map_cons, sum_cons]

end Sums

section Levels

variable {hash : StreamingHash} {rows : List OrderRow} {book : Book} {key : LevelKey}

theorem chunkedTop_totals (ascends : SeqAscends rows) :
    (chunkedTop hash (rebuildAllChunks hash rows)).totalQtyRaw = totalQty rows ∧
      (chunkedTop hash (rebuildAllChunks hash rows)).orderCount = rows.length := by
  have lookup : ∀ chunk, (rebuildAllChunks hash rows).lookup chunk = chunkOf hash rows chunk :=
    rebuildAllChunks_lookup ascends
  generalize rebuildAllChunks hash rows = chunks at lookup ⊢
  have entry : ∀ entry ∈ chunks.entries,
      entry.2.qty = totalQty (rows.filter fun row => decide (row.chunk = entry.1)) ∧
        entry.2.count = (rows.filter fun row => decide (row.chunk = entry.1)).length := by
    intro entry member
    have found := lookup entry.1
    rw [OrderedMap.lookup_eq_some.mpr member] at found
    unfold chunkOf at found
    dsimp only at found
    split at found
    · contradiction
    · rw [Option.some.inj found]
      exact ⟨rfl, rfl⟩
  have nodup : (chunks.entries.map Prod.fst).Nodup :=
    pairwise_map.mpr (chunks.ascends.imp fun {_ _} below => ne_of_lt below)
  have covered : ∀ row ∈ rows, row.chunk ∈ chunks.entries.map Prod.fst := by
    intro row member
    have found := lookup row.chunk
    have inFilter : row ∈ rows.filter fun other => decide (other.chunk = row.chunk) :=
      mem_filter.mpr ⟨member, decide_eq_true rfl⟩
    have some : ¬ (rows.filter fun other => decide (other.chunk = row.chunk)).isEmpty = true :=
      fun empty => by
        rw [List.isEmpty_iff.mp empty] at inFilter
        exact absurd inFilter not_mem_nil
    unfold chunkOf at found
    dsimp only at found
    rw [if_neg some] at found
    exact mem_map.mpr ⟨_, OrderedMap.lookup_eq_some.mp found, rfl⟩
  have total := sum_by_group nodup OrderRow.chunk (fun row => row.2.remainingQty) covered
  have count := sum_by_group nodup OrderRow.chunk (fun _ => 1) covered
  rw [map_map] at total count
  constructor
  · change (chunks.entries.map fun entry => entry.2.qty).sum = _
    rw [map_congr_left fun row member => (entry row member).1]
    exact total
  · change (chunks.entries.map fun entry => entry.2.count).sum = _
    rw [map_congr_left fun row member => (entry row member).2]
    have ones : ∀ rows : List OrderRow, (rows.map fun _ => 1).sum = rows.length := by
      intro rows
      simp
    simp only [Function.comp_def, ones] at count
    exact count

theorem Book.Valid.queueAt_eq (valid : book.Valid) (key : LevelKey) :
    book.queueAt key = atPrice (book.ladder key.side).orders key.price := by
  have shaped := (valid.ladders key.side).shaped
  unfold Book.queueAt
  cases found : (book.ladder key.side).get key.price with
  | some queue =>
    obtain ⟨before, after, split, _⟩ := Ladder.get_split found
    have member : (key.price, queue) ∈ book.ladder key.side := by
      rw [split]
      exact mem_append_right _ mem_cons_self
    exact (shaped.atPrice_level member).symm
  | none =>
    by_cases empty : atPrice (book.ladder key.side).orders key.price = []
    · exact empty.symm
    · obtain ⟨queue, member⟩ := shaped.level_of_atPrice empty
      have absent := lookup_eq_none_iff.mp found (key.price, queue) member
      simp at absent

/-- A level's row has the size and the count of its orders. -/
theorem Book.Valid.freshLevelRow_spec (valid : book.Valid) (hash : StreamingHash) (chunked : Bool)
    (key : LevelKey) :
    ((book.freshLevelRow hash chunked key).isSome ↔
      atPrice (book.ladder key.side).orders key.price ≠ []) ∧
    ∀ data, book.freshLevelRow hash chunked key = some data →
      data.totalQtyRaw = totalAt (book.ladder key.side).orders key.price ∧
      data.orderCount = (atPrice (book.ladder key.side).orders key.price).length ∧
      ∃ state, data.levelHash = hash.finalize state := by
  have rows : book.rowsAt key = (atPrice (book.ladder key.side).orders key.price).map
      (Order.row book.indexes.orderSeq) := by
    rw [Book.rowsAt_eq, valid.queueAt_eq]
    rfl
  have total : totalQty (book.rowsAt key) = totalAt (book.ladder key.side).orders key.price := by
    unfold totalQty totalAt
    rw [rows, map_map]
    rfl
  have count : (book.rowsAt key).length =
      (atPrice (book.ladder key.side).orders key.price).length := by
    rw [rows, length_map]
  refine ⟨?_, fun data fresh => ?_⟩
  · have empty : book.rowsAt key = [] ↔ atPrice (book.ladder key.side).orders key.price = [] := by
      rw [rows, map_eq_nil_iff]
    cases chunked <;>
      simp [Book.freshLevelRow, levelRowData, levelRowDataChunked, ← empty]
  · cases chunked with
    | false =>
      simp only [Book.freshLevelRow, levelRowData, Bool.false_eq_true, if_false] at fresh
      split at fresh
      · contradiction
      · cases fresh
        exact ⟨total, count, _, rfl⟩
    | true =>
      simp only [Book.freshLevelRow, levelRowDataChunked, if_true] at fresh
      split at fresh
      · contradiction
      · obtain ⟨sum, length⟩ := @chunkedTop_totals hash _ (valid.seqAscends key)
        cases fresh
        exact ⟨sum.trans total, length.trans count, _, rfl⟩

end Levels

end TorusHyperBft.OrderBook
