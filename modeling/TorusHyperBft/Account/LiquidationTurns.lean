import TorusHyperBft.Account.LiquidationPass
import TorusHyperBft.Program

namespace TorusHyperBft.Account

open List Program
open OrderBook (Address)

/-! Passes over all accounts: what a walk fetches, what a block classifies, and that a whole pass
comes by every account once. -/

/-- The trader has a row. -/
def HoldsPosition (rows : PositionCf) (trader : Address) : Prop :=
  ∃ row ∈ rows.entries, row.1.length = 28 ∧ traderOf row.1 = trader

/-- The trader has a row from this key on. -/
def HeldFrom (rows : PositionCf) (start : List Byte) (trader : Address) : Prop :=
  ∃ row ∈ rows.range start, row.1.length = 28 ∧ traderOf row.1 = trader

section Walk

variable {rows : PositionCf} {start key : List Byte} {trader : Address}

theorem traderOf_lt (key : List Byte) (length : key.length = 28) : traderOf key < 256 ^ 20 := by
  have bound := fromBytes_lt (key.take 20)
  rwa [length_take, length] at bound

theorem key_eq (length : key.length = 28) : key = toBytes 20 (traderOf key) ++ key.drop 20 := by
  have front := toBytes_fromBytes (key.take 20)
  rw [length_take, length] at front
  change toBytes 20 (traderOf key) = key.take 20 at front
  rw [front, take_append_drop]

theorem lt_replicate_zero (tail : List Byte) :
    tail < List.replicate tail.length 255 ++ [0] := by
  induction tail with
  | nil => simp
  | cons byte tail ih =>
    rw [length_cons, replicate_succ, cons_append, cons_lt_cons_iff]
    rcases lt_or_eq_of_le (Fin.le_last byte) with below | same
    · exact .inl below
    · exact .inr ⟨same, ih⟩

theorem pastTrader_le_iff (fits : trader < 256 ^ 20) (length : key.length = 28) :
    pastTrader trader ≤ key ↔ trader < traderOf key := by
  have tail : key.drop 20 < List.replicate 8 255 ++ [0] := by
    have below := lt_replicate_zero (key.drop 20)
    rwa [length_drop, length] at below
  rw [key_eq length, pastTrader, append_assoc, ← not_lt,
    toBytes_append_lt (traderOf_lt key length) fits, ← key_eq length]
  constructor
  · intro above
    rw [not_or, not_and] at above
    rcases Nat.lt_or_eq_of_le (Nat.not_lt.mp above.1) with below | same
    · exact below
    · exact absurd tail (above.2 same.symm)
  · rintro below (above | ⟨same, -⟩)
    · exact absurd below (Nat.lt_asymm above)
    · exact absurd same (Nat.ne_of_gt below)

theorem lt_pastTrader (length : key.length = 28) : key < pastTrader (traderOf key) := by
  rw [← not_le, pastTrader_le_iff (traderOf_lt key length) length]
  exact Nat.lt_irrefl _

theorem traderOf_le {other : List Byte} (length : key.length = 28) (otherLength : other.length = 28)
    (below : key ≤ other) : traderOf key ≤ traderOf other := by
  by_contra above
  have less : other < key := by
    rw [key_eq length, key_eq otherLength,
      toBytes_append_lt (traderOf_lt other otherLength) (traderOf_lt key length)]
    exact .inl (Nat.not_le.mp above)
  exact absurd below (not_le_of_gt less)

theorem length_range_lt {row : List Byte × List Byte} {tail : List (List Byte × List Byte)}
    {next : List Byte} (first : rows.range start = row :: tail) (passed : row.1 < next) :
    (rows.range next).length < (rows.range start).length := by
  have member : row ∈ rows.range start := by simp [first]
  have above := (OrderedMap.mem_range.mp member).1
  have inTail : rows.range next ⊆ tail := by
    intro other inNext
    obtain ⟨otherAbove, found⟩ := OrderedMap.mem_range.mp inNext
    have inStart : other ∈ rows.range start :=
      OrderedMap.mem_range.mpr ⟨(above.trans passed.le).trans otherAbove, found⟩
    rw [first, mem_cons] at inStart
    rcases inStart with rfl | later
    · exact absurd passed (not_lt_of_ge otherAbove)
    · exact later
  have distinct : (rows.range next).Nodup :=
    rows.range_ascends.imp fun less same => absurd (congrArg Prod.fst same) (ne_of_lt less)
  rw [first, length_cons]
  exact Nat.lt_succ_of_le (distinct.subperm inTail).length_le

theorem first_le {row other : List Byte × List Byte} {tail : List (List Byte × List Byte)}
    (first : rows.range start = row :: tail) (member : other ∈ rows.range start) :
    row.1 ≤ other.1 := by
  have ascends : Ascends (rows.range start) := OrderedMap.range_ascends
  rw [first] at member ascends
  rcases mem_cons.mp member with rfl | later
  · exact le_rfl
  · exact ((pairwise_cons.mp ascends).1 other later).le

/-- The traders of a run of rows, as far as a limit allows: ascending, each of them with a row,
and none left out below the last one. -/
structure Fetched (held : Address → Prop) (limit : Nat) (traders : List Address) : Prop where
  ascends : traders.Pairwise (· < ·)
  found : ∀ trader ∈ traders, held trader
  bounded : traders.length ≤ limit
  complete : ∀ trader, held trader →
    trader ∈ traders ∨ (traders.length = limit ∧ ∀ other ∈ traders, other < trader)

namespace Fetched

variable {held : Address → Prop} {limit : Nat} {traders : List Address}

theorem empty (none' : ∀ trader, ¬ held trader) : Fetched held limit [] where
  ascends := List.Pairwise.nil
  found := by simp
  bounded := by simp
  complete trader holds := absurd holds (none' trader)

theorem congr {other : Address → Prop} (fetched : Fetched held limit traders)
    (same : ∀ trader, other trader ↔ held trader) : Fetched other limit traders where
  ascends := fetched.ascends
  found trader member := (same trader).mpr (fetched.found trader member)
  bounded := fetched.bounded
  complete trader holds := fetched.complete trader ((same trader).mp holds)

theorem cons {least : Address} (holds : held least) (lower : ∀ trader, held trader → least ≤ trader)
    (fetched : Fetched (fun trader => held trader ∧ least < trader) limit traders) :
    Fetched held (limit + 1) (least :: traders) where
  ascends := pairwise_cons.mpr ⟨fun trader member => (fetched.found trader member).2,
    fetched.ascends⟩
  found := by
    intro trader member
    rcases mem_cons.mp member with rfl | later
    · exact holds
    · exact (fetched.found trader later).1
  bounded := Nat.succ_le_succ fetched.bounded
  complete := by
    intro trader isHeld
    rcases Nat.eq_or_lt_of_le (lower trader isHeld) with rfl | above
    · exact .inl mem_cons_self
    · rcases fetched.complete trader ⟨isHeld, above⟩ with member | ⟨full, below⟩
      · exact .inl (mem_cons_of_mem _ member)
      · refine .inr ⟨by simp [full], ?_⟩
        intro other member
        rcases mem_cons.mp member with rfl | later
        · exact above
        · exact below other later

end Fetched

section First

variable {row : List Byte × List Byte} {tail : List (List Byte × List Byte)}
  (first : rows.range start = row :: tail)

include first

theorem start_le_first : start ≤ row.1 := by
  have member : row ∈ rows.range start := by simp [first]
  exact (OrderedMap.mem_range.mp member).1

theorem heldFrom_skip (other : row.1.length ≠ 28) :
    HeldFrom rows start trader ↔ HeldFrom rows (row.1 ++ [0]) trader := by
  have passed : row.1 < row.1 ++ [0] := (append_zero_le_iff _ _).mp le_rfl
  constructor
  · rintro ⟨held, member, length, is⟩
    have strict : row.1 < held.1 := by
      apply lt_of_le_of_ne (first_le first member)
      intro same
      exact other (same ▸ length)
    obtain ⟨-, found⟩ := OrderedMap.mem_range.mp member
    exact ⟨held, OrderedMap.mem_range.mpr ⟨(append_zero_le_iff _ _).mpr strict, found⟩, length, is⟩
  · rintro ⟨held, member, length, is⟩
    obtain ⟨later, found⟩ := OrderedMap.mem_range.mp member
    have above := (start_le_first first).trans (passed.le.trans later)
    exact ⟨held, OrderedMap.mem_range.mpr ⟨above, found⟩, length, is⟩

theorem heldFrom_past (rowLength : row.1.length = 28) :
    HeldFrom rows start trader ∧ traderOf row.1 < trader ↔
      HeldFrom rows (pastTrader (traderOf row.1)) trader := by
  have fits := traderOf_lt row.1 rowLength
  constructor
  · rintro ⟨⟨held, member, length, rfl⟩, higher⟩
    obtain ⟨-, found⟩ := OrderedMap.mem_range.mp member
    exact ⟨held, OrderedMap.mem_range.mpr ⟨(pastTrader_le_iff fits length).mpr higher, found⟩,
      length, rfl⟩
  · rintro ⟨held, member, length, rfl⟩
    obtain ⟨later, found⟩ := OrderedMap.mem_range.mp member
    have above := (start_le_first first).trans ((lt_pastTrader rowLength).le.trans later)
    exact ⟨⟨held, OrderedMap.mem_range.mpr ⟨above, found⟩, length, rfl⟩,
      (pastTrader_le_iff fits length).mp later⟩

end First

theorem walkTraders_fetched {fuel limit : Nat} (enough : (rows.range start).length < fuel) :
    Fetched (HeldFrom rows start) limit (walkTraders rows fuel start limit) := by
  induction fuel generalizing start limit with
  | zero => omega
  | succ fuel ih =>
    cases limit with
    | zero =>
      rw [walkTraders.eq_def]
      exact ⟨List.Pairwise.nil, by simp, by simp, fun trader _ => .inr ⟨rfl, by simp⟩⟩
    | succ limit =>
      rw [walkTraders]
      cases first : rows.range start with
      | nil =>
        apply Fetched.empty
        rintro trader ⟨row, member, -⟩
        simp [first] at member
      | cons row tail =>
        simp only [List.head?_cons]
        split
        case isTrue other =>
          have passed : row.1 < row.1 ++ [0] := (append_zero_le_iff _ _).mp le_rfl
          have fewer := length_range_lt first passed
          exact (ih (by omega)).congr fun trader => heldFrom_skip first other
        case isFalse isKey =>
          have rowLength := not_not.mp isKey
          have fewer := length_range_lt first (lt_pastTrader rowLength)
          apply Fetched.cons ⟨row, by simp [first], rowLength, rfl⟩
          · rintro trader ⟨held, member, length, rfl⟩
            exact traderOf_le rowLength length (first_le first member)
          · exact (ih (by omega)).congr fun trader => heldFrom_past first rowLength

theorem tradersAfter_fetched {after : Option Address} {limit : Nat}
    (fits : ∀ place ∈ after, place < 256 ^ 20) :
    Fetched (fun trader => HoldsPosition rows trader ∧ ∀ place ∈ after, place < trader) limit
      (tradersAfter rows after limit) := by
  have enough : (rows.range (after.elim [] pastTrader)).length < rows.entries.length + 1 :=
    Nat.lt_succ_of_le (length_filter_le _ _)
  apply (walkTraders_fetched enough).congr
  intro trader
  constructor
  · rintro ⟨⟨row, member, length, rfl⟩, above⟩
    refine ⟨row, ?_, length, rfl⟩
    rw [OrderedMap.mem_range, OrderedMap.lookup_eq_some]
    refine ⟨?_, member⟩
    cases after with
    | none => exact not_lt.mp (not_lt_nil _)
    | some place => exact (pastTrader_le_iff (fits place rfl) length).mpr (above place rfl)
  · rintro ⟨row, member, length, rfl⟩
    obtain ⟨above, found⟩ := OrderedMap.mem_range.mp member
    refine ⟨⟨row, OrderedMap.lookup_eq_some.mp found, length, rfl⟩, ?_⟩
    rintro place ⟨⟩
    exact (pastTrader_le_iff (fits place rfl) length).mp above

end Walk

variable {trader : Address}

section Block

variable {σ ρ : Type} {calls : LiquidationCalls σ ρ} {scan act : Nat} {work : U64}

/-- The counters count the accounts, and the last of them is remembered. -/
structure Progress.Counted (progress : Progress σ ρ) : Prop where
  scanned : progress.scanned = progress.classified.length
  acted : progress.acted = progress.liquidated.length
  last : progress.last = progress.classified.getLast?
  among : progress.liquidated.Sublist progress.classified

variable {before after : Progress σ ρ}

theorem visitAccount_cases (ran : visitAccount calls before trader = .ok after) :
    after.scanned = before.scanned + 1 ∧ after.last = some trader ∧
      after.classified = before.classified ++ [trader] ∧
      ((after.acted = before.acted ∧ after.liquidated = before.liquidated) ∨
        (after.acted = before.acted + 1 ∧ after.liquidated = before.liquidated ++ [trader])) := by
  rw [visitAccount] at ran
  obtain ⟨view, -, ran⟩ := bind_eq_ok.mp ran
  split at ran
  · obtain ⟨state, -, ran⟩ := bind_eq_ok.mp ran
    cases ran
    exact ⟨rfl, rfl, rfl, .inl ⟨rfl, rfl⟩⟩
  · obtain ⟨state, -, ran⟩ := bind_eq_ok.mp ran
    obtain ⟨state, -, ran⟩ := bind_eq_ok.mp ran
    cases ran
    exact ⟨rfl, rfl, rfl, .inl ⟨rfl, rfl⟩⟩
  · obtain ⟨⟨orders, rows, state⟩, -, ran⟩ := bind_eq_ok.mp ran
    cases ran
    exact ⟨rfl, rfl, rfl, .inr ⟨rfl, rfl⟩⟩

theorem visitAccount_counted
    (counted : before.Counted) (ran : visitAccount calls before trader = .ok after) :
    after.Counted := by
  obtain ⟨scanned, last, classified, acted⟩ := visitAccount_cases ran
  constructor
  case scanned => simp [scanned, classified, counted.scanned]
  case acted =>
    rcases acted with ⟨same, kept⟩ | ⟨more, added⟩
    · rw [same, kept, counted.acted]
    · simp [more, added, counted.acted]
  case last => simp [last, classified]
  case among =>
    rw [classified]
    rcases acted with ⟨-, kept⟩ | ⟨-, added⟩
    · rw [kept]
      exact counted.among.trans (sublist_append_left _ _)
    · rw [added]
      exact counted.among.append (List.Sublist.refl _)

/-- A walk classifies a first part of the accounts that are not the protocol's; it is cut where
the others begin, and only by a budget. -/
theorem walkAccounts_spec {accounts : List Address} {cut : Bool}
    (counted : before.Counted) (scanRoom : before.scanned ≤ scan) (actRoom : before.acted ≤ act)
    (ran : walkAccounts calls scan act accounts before = .ok (after, cut)) :
    after.Counted ∧ after.scanned ≤ scan ∧ after.acted ≤ act ∧
      ∃ taken left, accounts.filter notProtocol = taken ++ left ∧
        after.classified = before.classified ++ taken ∧ (cut = true ↔ left ≠ []) ∧
        (cut = true → after.scanned = scan ∨ after.acted = act) := by
  induction accounts generalizing before with
  | nil =>
    cases ran
    exact ⟨counted, scanRoom, actRoom, [], [], by simp⟩
  | cons trader accounts ih =>
    rw [walkAccounts] at ran
    by_cases protocol : notProtocol trader = true
    case neg =>
      rw [if_pos (by simp [protocol])] at ran
      rw [filter_cons_of_neg protocol]
      exact ih counted scanRoom actRoom ran
    case pos =>
      rw [if_neg (by simp [protocol])] at ran
      rw [filter_cons_of_pos protocol]
      split at ran
      case isTrue spent =>
        cases ran
        refine ⟨⟨counted.scanned, counted.acted, counted.last, counted.among⟩, scanRoom, actRoom,
          [], trader :: accounts.filter notProtocol, rfl, ?_, ?_, fun _ => spent⟩
        · exact (append_nil _).symm
        · simp
      case isFalse room =>
        obtain ⟨middle, visited, ran⟩ := bind_eq_ok.mp ran
        obtain ⟨scanned, -, classified, acted⟩ := visitAccount_cases visited
        have actRoom' : middle.acted ≤ act := by omega
        obtain ⟨after', scanned', acted', taken, left, split, all, isCut, why⟩ :=
          ih (visitAccount_counted counted visited) (by omega) actRoom' ran
        refine ⟨after', scanned', acted', trader :: taken, left, by simp [split], ?_, isCut, why⟩
        rw [all, classified, append_assoc]
        rfl

theorem length_le_notProtocol {accounts : List Address} (distinct : accounts.Nodup) :
    accounts.length ≤ (accounts.filter notProtocol).length + 3 := by
  have protocol : accounts.filter (fun trader => !notProtocol trader) ⊆
      [liquidatorVault, adlEscrowLong, adlEscrowShort] := by
    intro trader member
    have is := (mem_filter.mp member).2
    simp only [notProtocol, isAdlEscrow, Bool.not_eq_true', Bool.and_eq_false_iff] at is
    simp only [mem_cons, not_mem_nil, or_false]
    rcases is with vault | escrow
    · exact .inl (by simpa using vault)
    · exact .inr (or_iff_not_imp_left.mpr (by simpa using escrow))
  have few := ((distinct.filter _).subperm protocol).length_le
  have whole := length_eq_length_filter_add (l := accounts) notProtocol
  simp only [length_cons, length_nil] at few
  omega

def storedCursor (state : LiquidationState σ) : Option Address := state.cursorRow.map fromBytes

theorem cursor_ok {state : LiquidationState σ} {place : Option Address}
    (read : cursor state = .ok place) :
    storedCursor state = place ∧ ∀ address ∈ place, address < 256 ^ 20 := by
  rw [cursor] at read
  split at read
  case h_1 none' =>
    cases read
    simp [storedCursor, none']
  case h_2 row found =>
    split at read
    case isTrue length =>
      cases read
      refine ⟨by simp [storedCursor, found], ?_⟩
      rintro address ⟨⟩
      exact length ▸ fromBytes_lt row
    case isFalse => cases read

theorem putCursor_ok {before after : LiquidationState σ} {place : Option Address}
    (fits : ∀ address ∈ place, address < 256 ^ 20) (put : putCursor before place = .ok after) :
    storedCursor after = place := by
  rw [putCursor] at put
  obtain ⟨read, isRead, put⟩ := bind_eq_ok.mp put
  split at put
  case isTrue same =>
    cases put
    rw [(cursor_ok isRead).1, same]
  case isFalse =>
    cases put
    cases place with
    | none => rfl
    | some address => exact congrArg some (fromBytes_toBytes (fits address rfl))

/-- An account that the block has to come by: it holds a position, is not the protocol's, and
stands behind the cursor. -/
def Due (start : LiquidationState σ) (trader : Address) : Prop :=
  HoldsPosition start.positions trader ∧ notProtocol trader = true ∧
    ∀ place ∈ storedCursor start, place < trader

/-- What one pass may do, and how far it got. -/
structure Turned (scan act : Nat) (start : LiquidationState σ) (done : Progress σ ρ) : Prop where
  ascends : done.classified.Pairwise (· < ·)
  due : ∀ trader ∈ done.classified, Due start trader
  scanned : done.classified.length ≤ scan
  acted : done.liquidated.length ≤ act
  among : done.liquidated.Sublist done.classified
  stored : ∀ place ∈ storedCursor done.state, done.classified.getLast? = some place
  complete : ∀ trader, Due start trader →
    trader ∈ done.classified ∨ ∃ place ∈ storedCursor done.state, place < trader

theorem HoldsPosition.fits {rows : PositionCf}
    (holds : HoldsPosition rows trader) : trader < 256 ^ 20 := by
  obtain ⟨row, -, length, rfl⟩ := holds
  exact traderOf_lt row.1 length

theorem le_last_of_pairwise {traders : List Address} {last trader : Address}
    (ascends : traders.Pairwise (· < ·)) (isLast : traders.getLast? = some last)
    (member : trader ∈ traders) : trader ≤ last := by
  obtain ⟨front, rfl⟩ := List.getLast?_eq_some_iff.mp isLast
  rcases mem_append.mp member with earlier | here
  · exact Nat.le_of_lt ((pairwise_append.mp ascends).2.2 trader earlier last (by simp))
  · exact Nat.le_of_eq (by simpa using here)

theorem liquidationPass_turned {start : LiquidationState σ} {done : Progress σ ρ}
    (scanSome : 1 ≤ scan) (actSome : 1 ≤ act)
    (ran : liquidationPass calls scan act work start = .ok done) :
    Turned scan act start done := by
  rw [liquidationPass] at ran
  obtain ⟨place, isPlace, ran⟩ := bind_eq_ok.mp ran
  obtain ⟨⟨progress, cut⟩, walked, ran⟩ := bind_eq_ok.mp ran
  obtain ⟨settled, -, ran⟩ := bind_eq_ok.mp ran
  obtain ⟨state, put, ran⟩ := bind_eq_ok.mp ran
  cases ran
  obtain ⟨cursorIs, fits⟩ := cursor_ok isPlace
  have fetched := @tradersAfter_fetched start.positions place (scan + 4) fits
  obtain ⟨counted, scanned, acted, taken, left, split, classified, isCut, spent⟩ :=
    walkAccounts_spec ⟨rfl, rfl, rfl, List.Sublist.refl _⟩ (Nat.zero_le _) (Nat.zero_le _) walked
  rw [nil_append] at classified
  subst classified
  have ascends : (progress.classified ++ left).Pairwise (· < ·) :=
    split ▸ fetched.ascends.filter notProtocol
  have due : ∀ trader ∈ progress.classified ++ left, Due start trader := by
    intro trader member
    rw [← split, mem_filter] at member
    obtain ⟨holds, above⟩ := fetched.found trader member.1
    exact ⟨holds, member.2, cursorIs ▸ above⟩
  have within : ∀ trader ∈ progress.classified, Due start trader := fun trader member =>
    due trader (mem_append_left _ member)
  have fitsLast : ∀ address ∈ (if cut then progress.last else none), address < 256 ^ 20 := by
    intro address member
    cases cut with
    | false => cases member
    | true =>
      rw [if_pos rfl, counted.last] at member
      exact (within address (mem_of_getLast? member)).1.fits
  have stored := putCursor_ok fitsLast put
  constructor
  case ascends => exact (pairwise_append.mp ascends).1
  case due => exact within
  case scanned => exact counted.scanned ▸ scanned
  case acted => exact counted.acted ▸ acted
  case among => exact counted.among
  case stored =>
    intro last isLast
    rw [stored] at isLast
    cases cut with
    | false => cases isLast
    | true =>
      rw [if_pos rfl, counted.last] at isLast
      exact isLast
  case complete =>
    intro trader isDue
    obtain ⟨holds, protocol, above⟩ := isDue
    rw [stored]
    cases cut with
    | false =>
      -- Without a cut the fetch was not full, so it reached the end.
      have nothing : left = [] := by
        by_contra more
        exact absurd (isCut.mpr more) (by simp)
      subst nothing
      rw [append_nil] at split
      have few := length_le_notProtocol
        (fetched.ascends.imp fun less => Nat.ne_of_lt less)
      rw [split, ← counted.scanned] at few
      rcases fetched.complete trader ⟨holds, cursorIs ▸ above⟩ with member | ⟨full, -⟩
      · left
        change trader ∈ progress.classified
        rw [← split, mem_filter]
        exact ⟨member, protocol⟩
      · omega
    | true =>
      have some' : progress.classified ≠ [] := by
        intro none'
        have noneScanned := counted.scanned
        have noneActed := counted.acted
        have sub := counted.among
        rw [none', sublist_nil] at sub
        rw [none', length_nil] at noneScanned
        rw [sub, length_nil] at noneActed
        rcases spent rfl with all | all <;> omega
      have isLast := List.getLast?_eq_some_getLast some'
      have lastIn : progress.classified.getLast some' ∈ progress.classified ++ left :=
        mem_append_left _ (getLast_mem some')
      rw [if_pos rfl, counted.last]
      rcases fetched.complete trader ⟨holds, cursorIs ▸ above⟩ with member | ⟨-, below⟩
      · have inWalk : trader ∈ progress.classified ++ left := by
          rw [← split, mem_filter]
          exact ⟨member, protocol⟩
        rcases mem_append.mp inWalk with here | later
        · exact .inl here
        · exact .inr ⟨_, isLast, (pairwise_append.mp ascends).2.2 _
            (getLast_mem some') trader later⟩
      · rw [← split, mem_filter] at lastIn
        exact .inr ⟨_, isLast, below _ lastIn.1⟩

end Block

section Run

variable {σ ρ : Type}

structure LiquidationBlock (σ ρ : Type) where
  calls : LiquidationCalls σ ρ
  scan : Nat
  act : Nat
  work : U64
  start : LiquidationState σ
  done : Progress σ ρ
  ran : liquidationPass calls scan act work start = .ok done

def classifiedIn (blocks : List (LiquidationBlock σ ρ)) : List Address :=
  blocks.flatMap fun block => block.done.classified

/-- Blocks one after another: only the step writes the cursor row, so a block finds it as the one
before has left it, while positions come and go. All but the last block store a cursor. -/
structure Consecutive (blocks : List (LiquidationBlock σ ρ)) : Prop where
  scanSome : ∀ block ∈ blocks, 1 ≤ block.scan
  actSome : ∀ block ∈ blocks, 1 ≤ block.act
  linked : blocks.IsChain fun before after =>
    after.start.cursorRow = before.done.state.cursorRow
  cut : ∀ block ∈ blocks.dropLast, block.done.state.cursorRow ≠ none

namespace Consecutive

variable {block : LiquidationBlock σ ρ} {blocks : List (LiquidationBlock σ ρ)}

theorem turned (consecutive : Consecutive blocks) (member : block ∈ blocks) :
    Turned block.scan block.act block.start block.done :=
  liquidationPass_turned (consecutive.scanSome block member) (consecutive.actSome block member)
    block.ran

theorem tail (consecutive : Consecutive (block :: blocks)) : Consecutive blocks where
  scanSome later member := consecutive.scanSome later (mem_cons_of_mem _ member)
  actSome later member := consecutive.actSome later (mem_cons_of_mem _ member)
  linked := consecutive.linked.tail
  cut := by
    intro later member
    cases blocks with
    | nil => cases member
    | cons next rest => exact consecutive.cut later (mem_cons_of_mem _ member)

theorem step {next : LiquidationBlock σ ρ}
    (consecutive : Consecutive (block :: next :: blocks)) :
    ∃ place, storedCursor next.start = some place ∧
      block.done.classified.getLast? = some place := by
  have stored := consecutive.cut block (by simp)
  obtain ⟨row, isRow⟩ := Option.ne_none_iff_exists'.mp stored
  have linked : next.start.cursorRow = block.done.state.cursorRow :=
    (isChain_cons_cons.mp consecutive.linked).1
  have found : storedCursor block.done.state = some (fromBytes row) := by
    simp [storedCursor, isRow]
  refine ⟨fromBytes row, by simp [storedCursor, linked, isRow], ?_⟩
  exact (consecutive.turned mem_cons_self).stored _ found

variable (consecutive : Consecutive blocks)
include consecutive

theorem ascends : (classifiedIn blocks).Pairwise (· < ·) ∧
      ∀ first ∈ blocks.head?, ∀ place ∈ storedCursor first.start,
        ∀ trader ∈ classifiedIn blocks, place < trader := by
  induction blocks with
  | nil => exact ⟨List.Pairwise.nil, by simp⟩
  | cons block blocks ih =>
    have turned := consecutive.turned mem_cons_self
    obtain ⟨later, behind⟩ := ih consecutive.tail
    have above : ∀ trader ∈ block.done.classified, ∀ other ∈ classifiedIn blocks,
        trader < other := by
      intro trader here other there
      cases blocks with
      | nil => cases there
      | cons next blocks =>
        obtain ⟨place, isPlace, isLast⟩ := consecutive.step
        exact Nat.lt_of_le_of_lt (le_last_of_pairwise turned.ascends isLast here)
          (behind next rfl place isPlace other there)
    have first : ∀ place ∈ storedCursor block.start, ∀ trader ∈ block.done.classified,
        place < trader := fun place isPlace trader here =>
      (turned.due trader here).2.2 place isPlace
    refine ⟨pairwise_append.mpr ⟨turned.ascends, later, above⟩, ?_⟩
    rintro _ ⟨⟩ place isPlace trader member
    rcases mem_append.mp member with here | there
    · exact first place isPlace trader here
    · cases blocks with
      | nil => cases there
      | cons next blocks =>
        obtain ⟨last, isCursor, isLast⟩ := consecutive.step
        have inside := mem_of_getLast? isLast
        exact (first place isPlace last inside).trans (behind next rfl last isCursor trader there)

/-- A pass that comes to its end reaches every trader that holds a position. -/
theorem reached (ends : ∀ last ∈ blocks.getLast?, last.done.state.cursorRow = none)
    (outside : notProtocol trader = true)
    (holds : ∀ block ∈ blocks, HoldsPosition block.start.positions trader)
    {first : LiquidationBlock σ ρ} (isFirst : blocks.head? = some first)
    (behind : ∀ place ∈ storedCursor first.start, place < trader) :
    trader ∈ classifiedIn blocks := by
  induction blocks generalizing first with
  | nil => cases isFirst
  | cons block blocks ih =>
    obtain rfl : block = first := by simpa using isFirst
    have turned := consecutive.turned mem_cons_self
    have here := turned.complete trader ⟨holds block mem_cons_self, outside, behind⟩
    cases blocks with
    | nil =>
      have none' : block.done.state.cursorRow = none := ends block (by simp)
      rcases here with classified | ⟨place, isPlace, -⟩
      · exact mem_append_left _ classified
      · simp [storedCursor, none'] at isPlace
    | cons next blocks =>
      rcases here with classified | ⟨place, isPlace, above⟩
      · exact mem_append_left _ classified
      · apply mem_append_right
        refine ih consecutive.tail ?_ ?_ rfl ?_
        · intro last isLast
          exact ends last (by simpa using isLast)
        · exact fun later member => holds later (mem_cons_of_mem _ member)
        · intro cursor isCursor
          obtain ⟨last, lastStored, isLast⟩ := consecutive.step
          have same := turned.stored place isPlace
          rw [isLast] at same
          rw [lastStored] at isCursor
          cases same
          cases isCursor
          exact above

theorem some_of_stored (member : block ∈ blocks)
    (stored : block.done.state.cursorRow ≠ none) : block.done.classified ≠ [] := by
  obtain ⟨row, isRow⟩ := Option.ne_none_iff_exists'.mp stored
  have found : storedCursor block.done.state = some (fromBytes row) := by
    simp [storedCursor, isRow]
  have isLast := (consecutive.turned member).stored _ found
  intro none'
  simp [none'] at isLast

theorem length_le_classified : blocks.length ≤ (classifiedIn blocks).length + 1 := by
  induction blocks with
  | nil => exact Nat.zero_le _
  | cons block blocks ih =>
    have rest := ih consecutive.tail
    rw [classifiedIn, flatMap_cons, length_append, length_cons]
    cases blocks with
    | nil => simp
    | cons next blocks =>
      have more := length_pos_of_ne_nil
        (consecutive.some_of_stored mem_cons_self (consecutive.cut block (by simp)))
      rw [classifiedIn] at rest
      omega

theorem classified_fits (member : trader ∈ classifiedIn blocks) : trader < 256 ^ 20 := by
  obtain ⟨block, inside, classified⟩ := mem_flatMap.mp member
  exact ((consecutive.turned inside).due trader classified).1.fits

end Consecutive

theorem length_le_of_lt {traders : List Address} {bound : Nat} (distinct : traders.Nodup)
    (below : ∀ trader ∈ traders, trader < bound) : traders.length ≤ bound := by
  have inside : traders ⊆ List.range bound := fun trader member =>
    List.mem_range.mpr (below trader member)
  simpa using (distinct.subperm inside).length_le

section Sample

def sampleCalls : LiquidationCalls Unit Unit where
  liqView _ trader := .ok (some ⟨100, 0, 0, if trader = 2 then 120 else 50⟩)
  setPending _ _ state := .ok state
  clearCooldown _ state := .ok state
  liquidate _ _ state := .ok ([], 0, state)
  settle _ _ state := .ok state

def sampleRows (traders : List Address) : PositionCf :=
  traders.foldl (fun rows trader => rows.insert (toBytes 20 trader ++ toBytes 8 7) []) {}

def sampleBlock : LiquidationBlock Unit Unit where
  calls := sampleCalls
  scan := 2
  act := 1
  work := 0
  start := ⟨sampleRows [1, 2, 3], none, ()⟩
  done :=
    { state := ⟨sampleRows [1, 2, 3], some (toBytes 20 2), ()⟩
      scanned := 2
      acted := 1
      last := some 2
      results := [.liquidated 3000]
      deferred := []
      classified := [1, 2]
      liquidated := [2] }
  ran := by rfl

def sampleNext : LiquidationBlock Unit Unit where
  calls := sampleCalls
  scan := 2
  act := 1
  work := 0
  start := ⟨sampleRows [1, 3], some (toBytes 20 2), ()⟩
  done :=
    { state := ⟨sampleRows [1, 3], none, ()⟩
      scanned := 1
      last := some 3
      classified := [3] }
  ran := by rfl

theorem sample_consecutive : Consecutive [sampleBlock, sampleNext] where
  scanSome := by decide
  actSome := by decide
  linked := isChain_pair.mpr rfl
  cut := by
    intro block member
    obtain rfl : block = sampleBlock := by simpa using member
    exact Option.some_ne_none _

theorem sample_holds : ∀ block ∈ [sampleBlock, sampleNext],
    HoldsPosition block.start.positions 3 := by
  intro block member
  refine ⟨(toBytes 20 3 ++ toBytes 8 7, []), ?_, by decide, by decide⟩
  simp only [mem_cons, not_mem_nil, or_false] at member
  rcases member with rfl | rfl <;> decide

end Sample

end Run

end TorusHyperBft.Account
