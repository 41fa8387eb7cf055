import TorusHyperBft.State.StateDb

namespace TorusHyperBft.RunningHash

open List

/-! The rows of the running hash: what a flush reads and writes of them, and the rows that a window
of blocks keeps for its checkpoint. -/

open State

def metaRunningStateHash : Key := ascii "running_state_hash"

def metaRunningStateHashActivation : Key := ascii "running_state_hash_activation"

def metaStateHashConfiguredActivation : Key := ascii "state_hash_cfg_activation"

def metaStateHashBookWindow : Key := ascii "state_hash_book_window"

def metaRunningStateHashUnverified : Key := ascii "running_state_hash_unverified"

def metaStateHashCheckpointPrefix : Key := ascii "state_hash_ckpt:"

def stateHashCheckpointRetain : Nat := 64

abbrev Reads := Key → Option Value

def readU64 (rows : Reads) (key : Key) : Option Nat :=
  match rows key with
  | some value => if value.length = 8 then some (fromBytes value) else none
  | none => none

def readRunningHash (rows : Reads) : Option (Nat × Digest) :=
  match rows metaRunningStateHash with
  | some value =>
    if value.length = 40 then
      some (fromBytes (value.take 8), BitVec.ofNat 256 (fromBytes (value.drop 8)))
    else none
  | none => none

def readConfiguredActivation (rows : Reads) : Option Nat :=
  readU64 rows metaStateHashConfiguredActivation

def readActivationHeight (rows : Reads) : Option Nat := readU64 rows metaRunningStateHashActivation

def readUnverifiedSince (rows : Reads) : Option Nat := readU64 rows metaRunningStateHashUnverified

def readBookWindow (rows : Reads) : Option Nat := readU64 rows metaStateHashBookWindow

def chainStep (rows : Reads) (height : Nat) : ChainStep :=
  match readConfiguredActivation rows with
  | none => .off
  | some activation =>
    if height < activation then .off
    else if height = activation then .start
    else if (readUnverifiedSince rows).isSome then .unverified false
    else
      let start := readActivationHeight rows
      match readRunningHash rows with
      | some (stored, hash) =>
        if start = some activation ∧ stored + 1 = height then .next hash else .unverified true
      | none => .unverified true

def ChainMemo.load (rows : Reads) : ChainMemo where
  configured := readConfiguredActivation rows
  start := readActivationHeight rows
  unverified := readUnverifiedSince rows
  prev := readRunningHash rows
  bookWindow := readBookWindow rows

theorem chainStep_eq (rows : Reads) (height : Nat) :
    chainStep rows height = (ChainMemo.load rows).step height := rfl

def checkpointKey (height : Nat) : Key := metaStateHashCheckpointPrefix ++ toBytes 8 height

def checkpointHeight (key : Key) : Option Nat :=
  if startsWith metaStateHashCheckpointPrefix key then
    let rest := key.drop metaStateHashCheckpointPrefix.length
    if rest.length = 8 then some (fromBytes rest) else none
  else none

def checkpointHeights (rows : OrderedMap Key Value) : List Nat :=
  rows.entries.filterMap fun row => checkpointHeight row.1

def extendRows (height : Nat) (hash : Digest) : List (Key × Option Value) :=
  (metaRunningStateHash, some (toBytes 8 height ++ digestBytes hash)) ::
    if height % stateHashCheckpointInterval = 0 then
      (checkpointKey height, some (digestBytes hash)) ::
        if stateHashCheckpointInterval * stateHashCheckpointRetain ≤ height then
          [(checkpointKey (height - stateHashCheckpointInterval * stateHashCheckpointRetain), none)]
        else []
    else []

def chainRows (stored : List Nat) (height : Nat) (step : ChainStep) (hash : Option Digest) :
    List (Key × Option Value) :=
  match step, hash with
  | .unverified true, _ => [(metaRunningStateHashUnverified, some (toBytes 8 height))]
  | .start, some hash =>
    -- a fresh chain: nothing stored belongs to it
    stored.map (fun height => (checkpointKey height, none)) ++
      [(metaRunningStateHashUnverified, none),
        (metaRunningStateHashActivation, some (toBytes 8 height))] ++ extendRows height hash
  | .next _, some hash => extendRows height hash
  | _, _ => []

abbrev ChainRows := OrderedMap Key (Option Value)

namespace ChainRows

def kept (rows : ChainRows) : List Nat := rows.entries.filterMap fun row => checkpointHeight row.1

def record (rows : ChainRows) (db : OrderedMap Key Value) (height : Nat) (step : ChainStep)
    (hash : Option Digest) : ChainRows :=
  let stored := ((checkpointHeights db ++ rows.kept).insertionSort fun left right => left ≤ right).dedup
  (chainRows stored height step hash).foldl (fun rows row => rows.insert row.1 row.2) rows

end ChainRows

def putRow (rows : OrderedMap Key Value) (row : Key × Option Value) : OrderedMap Key Value :=
  match row.2 with
  | some value => rows.insert row.1 value
  | none => rows.erase row.1

def setRow (reads : Reads) (row : Key × Option Value) : Reads :=
  fun key => if key = row.1 then row.2 else reads key

theorem lookup_foldl_putRow (batch : List (Key × Option Value)) (rows : OrderedMap Key Value) :
    (batch.foldl putRow rows).lookup = batch.foldl setRow rows.lookup := by
  induction batch generalizing rows with
  | nil => rfl
  | cons row batch ih =>
    have first : (putRow rows row).lookup = setRow rows.lookup row := by
      funext key
      obtain ⟨at_, value⟩ := row
      cases value with
      | some value => simp [putRow, setRow, OrderedMap.lookup_insert]
      | none => simp [putRow, setRow, OrderedMap.lookup_erase]
    rw [foldl_cons, ih, first, foldl_cons]

def ChainRows.over (rows : ChainRows) (stored : Reads) : Reads :=
  fun key => (rows.lookup key).getD (stored key)

theorem over_foldl_insert (batch : List (Key × Option Value)) (rows : ChainRows) (stored : Reads) :
    (ChainRows.over (batch.foldl (fun rows row => rows.insert row.1 row.2) rows) stored) =
      batch.foldl setRow (rows.over stored) := by
  induction batch generalizing rows with
  | nil => rfl
  | cons row batch ih =>
    have first : ChainRows.over (rows.insert row.1 row.2) stored = setRow (rows.over stored) row := by
      funext key
      simp only [ChainRows.over, setRow, OrderedMap.lookup_insert]
      by_cases here : key = row.1
      · simp [here]
      · simp [here]
    rw [foldl_cons, ih, first, foldl_cons]

section Checkpoints

variable {height : Nat}

theorem checkpointHeight_checkpointKey (fits : height < 2 ^ 64) :
    checkpointHeight (checkpointKey height) = some height := by
  have starts : startsWith metaStateHashCheckpointPrefix (checkpointKey height) :=
    startsWith_iff.mpr ⟨_, rfl⟩
  have rest : (checkpointKey height).drop metaStateHashCheckpointPrefix.length = toBytes 8 height :=
    drop_left
  rw [checkpointHeight, if_pos starts]
  simp only [rest]
  rw [if_pos (toBytes_length 8 height), fromBytes_toBytes (by omega)]

theorem checkpointKey_of_checkpointHeight {key : Key}
    (found : checkpointHeight key = some height) : key = checkpointKey height ∧ height < 2 ^ 64 := by
  unfold checkpointHeight at found
  split at found
  · rename_i starts
    obtain ⟨rest, rfl⟩ := startsWith_iff.mp starts
    rw [drop_left] at found
    simp only at found
    split at found
    · rename_i long
      cases found
      have numeral := toBytes_fromBytes rest
      have bound := fromBytes_lt rest
      rw [long] at numeral bound
      exact ⟨by rw [checkpointKey, numeral], by omega⟩
    · cases found
  · cases found

/-- Every stored checkpoint is in the list. -/
def CoversCheckpoints (stored : List Nat) (reads : Reads) : Prop :=
  ∀ key height, checkpointHeight key = some height → (reads key).isSome → height ∈ stored

theorem checkpointHeights_covers (rows : OrderedMap Key Value) :
    CoversCheckpoints (checkpointHeights rows) rows.lookup := by
  intro key height is present
  obtain ⟨value, found⟩ := Option.isSome_iff_exists.mp present
  exact mem_filterMap.mpr ⟨(key, value), OrderedMap.lookup_eq_some.mp found, is⟩

theorem record_covers (rows : ChainRows) (db : OrderedMap Key Value) :
    CoversCheckpoints ((checkpointHeights db ++ rows.kept).insertionSort
      fun left right => left ≤ right).dedup (rows.over db.lookup) := by
  intro key height is present
  rw [mem_dedup, mem_insertionSort, mem_append]
  cases found : rows.lookup key with
  | some value =>
    right
    exact mem_filterMap.mpr ⟨(key, value), OrderedMap.lookup_eq_some.mp found, is⟩
  | none =>
    left
    rw [ChainRows.over, found, Option.getD_none] at present
    exact checkpointHeights_covers db key height is present

theorem checkpointHeights_lt {rows : OrderedMap Key Value}
    (member : height ∈ checkpointHeights rows) : height < 2 ^ 64 := by
  obtain ⟨row, -, is⟩ := mem_filterMap.mp member
  exact (checkpointKey_of_checkpointHeight is).2

theorem record_lt {rows : ChainRows} {db : OrderedMap Key Value}
    (member : height ∈ ((checkpointHeights db ++ rows.kept).insertionSort
      fun left right => left ≤ right).dedup) : height < 2 ^ 64 := by
  rw [mem_dedup, mem_insertionSort, mem_append] at member
  rcases member with member | member
  · exact checkpointHeights_lt member
  · obtain ⟨row, -, is⟩ := mem_filterMap.mp member
    exact (checkpointKey_of_checkpointHeight is).2

theorem foldl_delete_checkpoints {stored : List Nat} {reads : Reads}
    (covers : CoversCheckpoints stored reads) (bounded : ∀ height ∈ stored, height < 2 ^ 64) :
    (stored.map fun height => (checkpointKey height, (none : Option Value))).foldl setRow reads =
      fun key => if (checkpointHeight key).isSome then none else reads key := by
  have wiped : ∀ (stored : List Nat) (reads : Reads),
      (stored.map fun height => (checkpointKey height, (none : Option Value))).foldl setRow reads =
        fun key => if key ∈ stored.map checkpointKey then none else reads key := by
    intro stored
    induction stored with
    | nil => intro reads; simp
    | cons height stored ih =>
      intro reads
      rw [map_cons, foldl_cons, ih]
      funext key
      simp only [setRow, map_cons, mem_cons]
      by_cases later : key ∈ stored.map checkpointKey
      · simp [later]
      · simp [later]
  rw [wiped]
  funext key
  cases is : checkpointHeight key with
  | none =>
    have outside : key ∉ stored.map checkpointKey := by
      intro member
      obtain ⟨height, inside, same⟩ := mem_map.mp member
      rw [← same, checkpointHeight_checkpointKey (bounded height inside)] at is
      cases is
    simp [outside]
  | some height =>
    obtain ⟨same, -⟩ := checkpointKey_of_checkpointHeight is
    by_cases inside : key ∈ stored.map checkpointKey
    · simp [inside]
    · have absent : reads key = none := by
        by_contra present
        have member := covers key height is (Option.isSome_iff_ne_none.mpr present)
        exact inside (same ▸ mem_map_of_mem member)
      simp [inside, absent]

theorem foldl_chainRows {stored other : List Nat} {reads : Reads}
    (covers : CoversCheckpoints stored reads) (otherCovers : CoversCheckpoints other reads)
    (bounded : ∀ height ∈ stored, height < 2 ^ 64)
    (otherBounded : ∀ height ∈ other, height < 2 ^ 64)
    (height : Nat) (step : ChainStep) (hash : Option Digest) :
    (chainRows stored height step hash).foldl setRow reads =
      (chainRows other height step hash).foldl setRow reads := by
  cases step with
  | off => rfl
  | unverified first =>
    cases first with
    | true => rfl
    | false => rfl
  | next prev =>
    cases hash with
    | none => rfl
    | some hash => rfl
  | start =>
    cases hash with
    | none => rfl
    | some hash =>
      simp only [chainRows, foldl_append]
      rw [foldl_delete_checkpoints covers bounded, foldl_delete_checkpoints otherCovers otherBounded]

end Checkpoints

section Load

variable {reads : Reads} {height : Nat} {hash : Digest} {key : Key}

theorem checkpointKey_ne (other : checkpointHeight key = none) (height : Nat) :
    key ≠ checkpointKey height := by
  rintro rfl
  have starts : startsWith metaStateHashCheckpointPrefix (checkpointKey height) :=
    startsWith_iff.mpr ⟨_, rfl⟩
  have rest : (checkpointKey height).drop metaStateHashCheckpointPrefix.length = toBytes 8 height :=
    drop_left
  rw [checkpointHeight, if_pos starts] at other
  simp [rest] at other

theorem foldl_setRow_other {batch : List (Key × Option Value)}
    (absent : ∀ row ∈ batch, key ≠ row.1) :
    batch.foldl setRow reads key = reads key := by
  induction batch generalizing reads with
  | nil => rfl
  | cons row batch ih =>
    rw [foldl_cons, ih fun other member => absent other (mem_cons_of_mem _ member)]
    exact if_neg (absent row mem_cons_self)

variable {other : Reads}

theorem foldl_setRow_congr (batch : List (Key × Option Value))
    (same : reads key = other key) : batch.foldl setRow reads key = batch.foldl setRow other key := by
  induction batch generalizing reads other with
  | nil => exact same
  | cons row batch ih =>
    rw [foldl_cons, foldl_cons]
    apply ih
    simp only [setRow, same]

theorem extendRows_keys {row : Key × Option Value} (member : row ∈ extendRows height hash) :
    row.1 = metaRunningStateHash ∨ ∃ height, row.1 = checkpointKey height := by
  rcases mem_cons.mp member with rfl | member
  · exact .inl rfl
  · split at member
    · rcases mem_cons.mp member with rfl | member
      · exact .inr ⟨_, rfl⟩
      · split at member
        · rw [mem_singleton.mp member]
          exact .inr ⟨_, rfl⟩
        · cases member
    · cases member

theorem extendRows_other (other : checkpointHeight key = none)
    (different : key ≠ metaRunningStateHash) :
    (extendRows height hash).foldl setRow reads key = reads key := by
  apply foldl_setRow_other
  intro row member
  rcases extendRows_keys member with same | ⟨height, same⟩
  · rw [same]
    exact different
  · rw [same]
    exact checkpointKey_ne other height

theorem extendRows_hash : (extendRows height hash).foldl setRow reads metaRunningStateHash =
    some (toBytes 8 height ++ digestBytes hash) := by
  have other : checkpointHeight metaRunningStateHash = none := by decide +kernel
  rw [extendRows, foldl_cons, foldl_setRow_other]
  · simp [setRow]
  · intro row member
    split at member
    · rcases mem_cons.mp member with rfl | member
      · exact checkpointKey_ne other _
      · split at member
        · rw [mem_singleton.mp member]
          exact checkpointKey_ne other _
        · cases member
    · cases member

theorem readU64_eq {value : Nat} (held : reads key = some (toBytes 8 value))
    (fits : value < 2 ^ 64) :
    readU64 reads key = some value := by
  simp only [readU64, held, toBytes_length, if_true]
  rw [fromBytes_toBytes (by omega)]

theorem readU64_congr (same : reads key = other key) : readU64 reads key = readU64 other key := by
  simp only [readU64, same]

theorem readRunningHash_eq (held : reads metaRunningStateHash =
    some (toBytes 8 height ++ digestBytes hash)) (fits : height < 2 ^ 64) :
    readRunningHash reads = some (height, hash) := by
  have width : (digestBytes hash).length = 32 := toBytes_length 32 hash.toNat
  have long : (toBytes 8 height ++ digestBytes hash).length = 40 := by simp [width]
  have first : (toBytes 8 height ++ digestBytes hash).take 8 = toBytes 8 height :=
    List.take_left' (toBytes_length 8 height)
  have second : (toBytes 8 height ++ digestBytes hash).drop 8 = digestBytes hash :=
    List.drop_left' (toBytes_length 8 height)
  have number : fromBytes (digestBytes hash) = hash.toNat :=
    fromBytes_toBytes (show hash.toNat < 256 ^ 32 from hash.isLt)
  simp only [readRunningHash, held, long, if_true, first, second, number]
  rw [fromBytes_toBytes (by omega), BitVec.ofNat_toNat, BitVec.setWidth_eq]

theorem readRunningHash_congr (same : reads metaRunningStateHash = other metaRunningStateHash) :
    readRunningHash reads = readRunningHash other := by
  simp only [readRunningHash, same]

theorem load_congr (same : ∀ key ∈ [metaRunningStateHash, metaRunningStateHashActivation,
      metaStateHashConfiguredActivation, metaStateHashBookWindow, metaRunningStateHashUnverified],
      reads key = other key) : ChainMemo.load reads = ChainMemo.load other := by
  simp only [ChainMemo.load, readConfiguredActivation, readActivationHeight, readUnverifiedSince,
    readBookWindow]
  rw [readU64_congr (same _ (by simp)), readU64_congr (same _ (by simp)),
    readU64_congr (same _ (by simp)), readRunningHash_congr (same _ (by simp)),
    readU64_congr (same metaStateHashBookWindow (by simp))]

theorem load_chainRows (fits : height < 2 ^ 64) (stored : List Nat) (step : ChainStep)
    (hash : Option Digest) :
    ChainMemo.load ((chainRows stored height step hash).foldl setRow reads) =
      (ChainMemo.load reads).advance height step hash := by
  have configured : checkpointHeight metaStateHashConfiguredActivation = none := by decide +kernel
  have activation : checkpointHeight metaRunningStateHashActivation = none := by decide +kernel
  have unverified : checkpointHeight metaRunningStateHashUnverified = none := by decide +kernel
  have window : checkpointHeight metaStateHashBookWindow = none := by decide +kernel
  cases step with
  | off => rfl
  | unverified first =>
    cases first with
    | false => rfl
    | true =>
      have held : setRow reads (metaRunningStateHashUnverified, some (toBytes 8 height))
          metaRunningStateHashUnverified = some (toBytes 8 height) := if_pos rfl
      have others : ∀ key, key ≠ metaRunningStateHashUnverified →
          setRow reads (metaRunningStateHashUnverified, some (toBytes 8 height)) key = reads key :=
        fun key different => if_neg different
      simp only [chainRows, foldl_cons, foldl_nil, ChainMemo.load, ChainMemo.advance,
        readConfiguredActivation, readActivationHeight, readUnverifiedSince, readBookWindow]
      rw [readU64_congr (others _ (by decide)), readU64_congr (others _ (by decide)),
        readU64_eq held fits, readRunningHash_congr (others _ (by decide)),
        readU64_congr (others _ (by decide))]
  | next prev =>
    cases hash with
    | none => rfl
    | some hash =>
      simp only [chainRows, ChainMemo.load, ChainMemo.advance, readConfiguredActivation,
        readActivationHeight, readUnverifiedSince, readBookWindow]
      rw [readU64_congr (extendRows_other configured (by decide)),
        readU64_congr (extendRows_other activation (by decide)),
        readU64_congr (extendRows_other unverified (by decide)),
        readRunningHash_eq extendRows_hash fits,
        readU64_congr (extendRows_other window (by decide))]
  | start =>
    cases hash with
    | none => rfl
    | some hash =>
      -- the old checkpoint rows go, the activation is recorded, the height joins
      have wiped : ∀ key, checkpointHeight key = none →
          (stored.map fun height => (checkpointKey height, (none : Option Value))).foldl setRow
            reads key = reads key := by
        intro key other
        apply foldl_setRow_other
        intro row member
        obtain ⟨height, -, rfl⟩ := mem_map.mp member
        exact checkpointKey_ne other height
      simp only [chainRows, foldl_append, foldl_cons, foldl_nil, ChainMemo.load,
        ChainMemo.advance, readConfiguredActivation, readActivationHeight, readUnverifiedSince,
        readBookWindow]
      generalize (stored.map fun height => (checkpointKey height, (none : Option Value))).foldl
        setRow reads = start at wiped ⊢
      have others : ∀ key, checkpointHeight key = none → key ≠ metaRunningStateHashUnverified →
          key ≠ metaRunningStateHashActivation →
          setRow (setRow start (metaRunningStateHashUnverified, none))
            (metaRunningStateHashActivation, some (toBytes 8 height)) key = reads key := by
        intro key other notUnverified notActivation
        rw [setRow, if_neg notActivation, setRow, if_neg notUnverified, wiped key other]
      have held : (extendRows height hash).foldl setRow
          (setRow (setRow start (metaRunningStateHashUnverified, none))
            (metaRunningStateHashActivation, some (toBytes 8 height)))
          metaRunningStateHashActivation = some (toBytes 8 height) := by
        rw [extendRows_other activation (by decide)]
        exact if_pos rfl
      have gone : (extendRows height hash).foldl setRow
          (setRow (setRow start (metaRunningStateHashUnverified, none))
            (metaRunningStateHashActivation, some (toBytes 8 height)))
          metaRunningStateHashUnverified = none := by
        have different : metaRunningStateHashUnverified ≠ metaRunningStateHashActivation := by decide
        rw [extendRows_other unverified (by decide), setRow, if_neg different]
        exact if_pos rfl
      rw [readU64_congr ((extendRows_other configured (by decide)).trans
          (others _ configured (by decide) (by decide))),
        readU64_eq held fits, readRunningHash_eq extendRows_hash fits,
        readU64_congr ((extendRows_other window (by decide)).trans
          (others _ window (by decide) (by decide)))]
      simp only [readU64, gone]

end Load

end TorusHyperBft.RunningHash
