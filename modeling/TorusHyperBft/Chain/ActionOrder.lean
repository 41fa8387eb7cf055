import TorusHyperBft.Chain.Replay
import TorusHyperBft.Signing.Canonical

namespace TorusHyperBft.Chain

open TorusHyperBft.State List
open TorusHyperBft.Signing (NativeAction OrderType TimeInForce)

/-! The order in which a block's actions run: by category, sender and content hash, whatever
order the body has them in. -/

inductive ActionCategory where
  | cancellation
  | nonGtcOrder
  | gtcOrder
  | lockbox
  | oracle
  | governance
  | staking
  | other
deriving DecidableEq

def ActionCategory.rank : ActionCategory → Nat
  | .cancellation => 0
  | .nonGtcOrder => 1
  | .gtcOrder => 2
  | .lockbox => 3
  | .oracle => 4
  | .governance => 5
  | .staking => 6
  | .other => 7

def classifyAction : NativeAction → ActionCategory
  | .cancelOrder _ | .cancelAllOrders _ | .cancelByCloid .. => .cancellation
  | .placeOrder params =>
    match params.orderType with
    | .market | .stopMarket _ => .nonGtcOrder
    | _ =>
      match params.timeInForce with
      | .gtc | .postOnly => .gtcOrder
      | .ioc | .fok => .nonGtcOrder
  | .placeOrderBatch _ => .gtcOrder
  | .modifyOrder .. => .nonGtcOrder
  | .transferToPerp _ | .transferToSpot _ | .withdraw .. => .lockbox
  | .submitOraclePrices _ => .oracle
  | .submitProposal _ | .vote .. => .governance
  | .delegate .. | .undelegate .. | .permanentStake _ | .claimRewards | .claimUnbonded => .staking
  | _ => .other

abbrev B256 := BitVec 256

structure SortKey where
  category : ActionCategory
  sender : Address
  hash : B256
deriving DecidableEq

/-- By category, then sender, then hash. -/
def SortKey.Le (left right : SortKey) : Prop :=
  left.category.rank < right.category.rank ∨ left.category.rank = right.category.rank ∧
    (left.sender.val < right.sender.val ∨ left.sender.val = right.sender.val ∧
      left.hash.toNat ≤ right.hash.toNat)

instance : DecidableRel SortKey.Le := fun left right =>
  inferInstanceAs (Decidable (left.category.rank < right.category.rank ∨
    left.category.rank = right.category.rank ∧
      (left.sender.val < right.sender.val ∨ left.sender.val = right.sender.val ∧
        left.hash.toNat ≤ right.hash.toNat)))

/-- An action with its sort key and its position in the input. -/
structure KeyedAction where
  key : SortKey
  position : BitVec 32
  pair : Address × NativeAction
deriving DecidableEq

def KeyedAction.le (left right : KeyedAction) : Bool := left.key.Le right.key

abbrev IndexedActions := List (Address × NativeAction) × List (BitVec 32)

def sortDeterministic (keyed : List KeyedAction) : IndexedActions :=
  let sorted := keyed.mergeSort KeyedAction.le
  (sorted.map KeyedAction.pair, sorted.map KeyedAction.position)

def ActionCategory.preEvm : ActionCategory → Bool
  | .cancellation | .nonGtcOrder => true
  | _ => false

def sortKeyed (entries : List KeyedAction) : IndexedActions × IndexedActions :=
  (sortDeterministic (entries.filter fun entry => entry.key.category.preEvm),
    sortDeterministic (entries.filter fun entry => !entry.key.category.preEvm))

section Keys

variable (keccak : List Byte → B256)

def actionSortKey (sender : Address) (action : NativeAction) : SortKey where
  category := classifyAction action
  sender := sender
  hash := keccak action.canonicalBytes

def keyedActions (actions : List (Address × NativeAction)) : List KeyedAction :=
  actions.zipIdx.map fun entry =>
    { key := actionSortKey keccak entry.1.1 entry.1.2
      position := BitVec.ofNat 32 entry.2
      pair := entry.1 }

def sortNativeActionsIndexed (actions : List (Address × NativeAction)) :
    IndexedActions × IndexedActions :=
  sortKeyed (keyedActions keccak actions)

def sortNativeActions (actions : List (Address × NativeAction)) :
    List (Address × NativeAction) × List (Address × NativeAction) :=
  ((sortNativeActionsIndexed keccak actions).1.1, (sortNativeActionsIndexed keccak actions).2.1)

end Keys

/-- The hashes come with the actions; `none` is the panic on lists of different lengths. -/
def sortNativeActionsIndexedWithSortHashes (actions : List (Address × NativeAction))
    (sortHashes : List B256) : Option (IndexedActions × IndexedActions) :=
  if actions.length = sortHashes.length then
    some (sortKeyed ((actions.zip sortHashes).zipIdx.map fun entry =>
      { key := { category := classifyAction entry.1.1.2, sender := entry.1.1.1, hash := entry.1.2 }
        position := BitVec.ofNat 32 entry.2
        pair := entry.1.1 }))
  else none

section Order

theorem SortKey.Le.trans {left middle right : SortKey} (first : left.Le middle)
    (second : middle.Le right) : left.Le right := by
  unfold SortKey.Le at *
  omega

theorem SortKey.le_total (left right : SortKey) : left.Le right ∨ right.Le left := by
  unfold SortKey.Le
  omega

theorem SortKey.Le.antisymm {left right : SortKey} (first : left.Le right)
    (second : right.Le left) :
    left.sender = right.sender ∧ left.hash = right.hash := by
  unfold SortKey.Le at *
  exact ⟨Fin.ext (by omega), BitVec.eq_of_toNat_eq (by omega)⟩

theorem sorted_pairwise (keyed : List KeyedAction) :
    (keyed.mergeSort KeyedAction.le).Pairwise fun left right => left.key.Le right.key := by
  have sorted := @pairwise_mergeSort _ KeyedAction.le
    (fun left middle right first second => by
      simp only [KeyedAction.le, decide_eq_true_eq] at first second ⊢
      exact first.trans second)
    (fun left right => by
      simp only [KeyedAction.le, Bool.or_eq_true, decide_eq_true_eq]
      exact SortKey.le_total _ _)
    keyed
  exact sorted.imp fun below => of_decide_eq_true below

variable {keccak : List Byte → B256} {actions others : List (Address × NativeAction)}

theorem keyedActions_key {entry : KeyedAction} (member : entry ∈ keyedActions keccak actions) :
    entry.key = actionSortKey keccak entry.pair.1 entry.pair.2 := by
  obtain ⟨read, _, rfl⟩ := mem_map.mp member
  rfl

theorem keyedActions_pairs : (keyedActions keccak actions).map KeyedAction.pair = actions := by
  unfold keyedActions
  rw [map_map]
  exact zipIdx_map_fst 0 actions

theorem keyedActions_position {entry : KeyedAction} (few : actions.length ≤ 2 ^ 32)
    (member : entry ∈ keyedActions keccak actions) :
    actions[entry.position.toNat]? = some entry.pair := by
  obtain ⟨⟨pair, index⟩, inside, rfl⟩ := mem_map.mp member
  have found := mem_zipIdx_iff_getElem?.mp inside
  have below : index < actions.length := (List.getElem?_eq_some_iff.mp found).1
  rw [BitVec.toNat_ofNat, Nat.mod_eq_of_lt (by omega)]
  exact found

theorem keyedActions_filter (wanted : ActionCategory → Bool) :
    ((keyedActions keccak actions).filter fun entry => wanted entry.key.category).map
      KeyedAction.pair = actions.filter fun pair => wanted (classifyAction pair.2) := by
  have byPair : (keyedActions keccak actions).filter (fun entry => wanted entry.key.category) =
      (keyedActions keccak actions).filter
        ((fun pair : Address × NativeAction => wanted (classifyAction pair.2)) ∘ KeyedAction.pair) := by
    apply filter_congr
    intro entry member
    rw [keyedActions_key member]
    rfl
  rw [byPair, ← filter_map, keyedActions_pairs]

/-- Actions with one hash have the same encoding. -/
def CollisionFree (keccak : List Byte → B256) (actions : List (Address × NativeAction)) : Prop :=
  ∀ left ∈ actions, ∀ right ∈ actions, keccak left.2.canonicalBytes = keccak right.2.canonicalBytes →
    left.2.canonicalBytes = right.2.canonicalBytes

theorem eq_of_tie (free : CollisionFree keccak actions)
    (short : ∀ pair ∈ actions, pair.2.Short) {left right : Address × NativeAction}
    (inside : left ∈ actions) (otherInside : right ∈ actions)
    (first : (actionSortKey keccak left.1 left.2).Le (actionSortKey keccak right.1 right.2))
    (second : (actionSortKey keccak right.1 right.2).Le (actionSortKey keccak left.1 left.2)) :
    left = right := by
  obtain ⟨senders, hashes⟩ := first.antisymm second
  have bytes := free left inside right otherInside hashes
  exact Prod.ext senders (NativeAction.canonicalBytes_delimited.injective (short left inside)
    (short right otherInside) bytes)

theorem sortDeterministic_pairs (wanted : KeyedAction → Bool) :
    (sortDeterministic ((keyedActions keccak actions).filter wanted)).1.Pairwise fun left right =>
      (actionSortKey keccak left.1 left.2).Le (actionSortKey keccak right.1 right.2) := by
  apply pairwise_map.mpr
  apply (sorted_pairwise _).imp_of_mem
  intro left right inside otherInside below
  have member : ∀ entry ∈ ((keyedActions keccak actions).filter wanted).mergeSort KeyedAction.le,
      entry ∈ keyedActions keccak actions := by
    intro entry inside
    exact (mem_filter.mp (mem_mergeSort.mp inside)).1
  rw [← keyedActions_key (member left inside), ← keyedActions_key (member right otherInside)]
  exact below

theorem sortDeterministic_perm (keyed : List KeyedAction) :
    (sortDeterministic keyed).1.Perm (keyed.map KeyedAction.pair) :=
  (mergeSort_perm keyed _).map KeyedAction.pair

theorem sortDeterministic_congr (free : CollisionFree keccak actions)
    (short : ∀ pair ∈ actions, pair.2.Short) (same : actions.Perm others)
    (wanted : ActionCategory → Bool) :
    (sortDeterministic ((keyedActions keccak actions).filter fun entry =>
        wanted entry.key.category)).1 =
      (sortDeterministic ((keyedActions keccak others).filter fun entry =>
        wanted entry.key.category)).1 := by
  have perm : ∀ list, (sortDeterministic ((keyedActions keccak list).filter fun entry =>
      wanted entry.key.category)).1.Perm (list.filter fun pair => wanted (classifyAction pair.2)) := by
    intro list
    rw [← @keyedActions_filter keccak list wanted]
    exact sortDeterministic_perm _
  apply List.Perm.eq_of_pairwise _ (sortDeterministic_pairs _) (sortDeterministic_pairs _)
  · exact (perm actions).trans ((same.filter _).trans (perm others).symm)
  · intro left right inside otherInside
    have leftIn := (mem_filter.mp ((perm actions).mem_iff.mp inside)).1
    have rightIn := (mem_filter.mp ((perm others).mem_iff.mp otherInside)).1
    exact eq_of_tie free short leftIn (same.mem_iff.mpr rightIn)

theorem sortNativeActionsIndexedWithSortHashes_eq :
    sortNativeActionsIndexedWithSortHashes actions
      (actions.map fun pair => keccak pair.2.canonicalBytes) =
        some (sortNativeActionsIndexed keccak actions) := by
  unfold sortNativeActionsIndexedWithSortHashes
  rw [if_pos (by rw [length_map])]
  congr 2
  have zipped : actions.zip (actions.map fun pair => keccak pair.2.canonicalBytes) =
      actions.map fun pair => (pair, keccak pair.2.canonicalBytes) := by
    simpa using @List.zip_map' _ _ _ id
      (fun pair : Address × NativeAction => keccak pair.2.canonicalBytes) actions
  rw [zipped, zipIdx_map, map_map]
  rfl

theorem sortNativeActionsIndexed_perm :
    ((sortNativeActionsIndexed keccak actions).1.1 ++
      (sortNativeActionsIndexed keccak actions).2.1).Perm actions := by
  have before := sortDeterministic_perm ((keyedActions keccak actions).filter fun entry =>
    entry.key.category.preEvm)
  have after := sortDeterministic_perm ((keyedActions keccak actions).filter fun entry =>
    !entry.key.category.preEvm)
  rw [keyedActions_filter] at before
  rw [keyedActions_filter fun category => !category.preEvm] at after
  exact (before.append after).trans (filter_append_perm _ actions)

theorem sortDeterministic_categories (wanted : ActionCategory → Bool) :
    let pairs := (sortDeterministic ((keyedActions keccak actions).filter fun entry =>
      wanted entry.key.category)).1
    pairs.Pairwise (fun left right =>
      (classifyAction left.2).rank ≤ (classifyAction right.2).rank) ∧
      ∀ pair ∈ pairs, wanted (classifyAction pair.2) = true := by
  constructor
  · apply (sortDeterministic_pairs _).imp
    intro left right below
    unfold SortKey.Le actionSortKey at below
    dsimp only at below
    omega
  · intro pair member
    have perm := sortDeterministic_perm ((keyedActions keccak actions).filter fun entry =>
      wanted entry.key.category)
    rw [keyedActions_filter] at perm
    exact (mem_filter.mp (perm.mem_iff.mp member)).2

theorem sortDeterministic_positions (few : actions.length ≤ 2 ^ 32) (wanted : KeyedAction → Bool) :
    List.Forall₂ (fun pair (position : BitVec 32) => actions[position.toNat]? = some pair)
      (sortDeterministic ((keyedActions keccak actions).filter wanted)).1
      (sortDeterministic ((keyedActions keccak actions).filter wanted)).2 := by
  unfold sortDeterministic
  rw [forall₂_map_left_iff, forall₂_map_right_iff]
  apply forall₂_same.mpr
  intro entry member
  exact keyedActions_position few (mem_filter.mp (mem_mergeSort.mp member)).1

end Order

/-- The order depends on the actions alone and keeps every one. -/
structure OrderFixed (keccak : List Byte → B256) (actions others : List (Address × NativeAction)) :
    Prop where
  hashes : sortNativeActionsIndexedWithSortHashes actions
    (actions.map fun pair => keccak pair.2.canonicalBytes) =
      some (sortNativeActionsIndexed keccak actions)
  lists : sortNativeActions keccak actions = sortNativeActions keccak others
  complete : ((sortNativeActions keccak actions).1 ++ (sortNativeActions keccak actions).2).Perm actions
  prePositions : actions.length ≤ 2 ^ 32 →
    List.Forall₂ (fun pair (position : BitVec 32) => actions[position.toNat]? = some pair)
      (sortNativeActionsIndexed keccak actions).1.1 (sortNativeActionsIndexed keccak actions).1.2
  postPositions : actions.length ≤ 2 ^ 32 →
    List.Forall₂ (fun pair (position : BitVec 32) => actions[position.toNat]? = some pair)
      (sortNativeActionsIndexed keccak actions).2.1 (sortNativeActionsIndexed keccak actions).2.2
  categories : ((sortNativeActions keccak actions).1 ++ (sortNativeActions keccak actions).2).Pairwise
    fun left right => (classifyAction left.2).rank ≤ (classifyAction right.2).rank
  phases : (∀ pair ∈ (sortNativeActions keccak actions).1, (classifyAction pair.2).preEvm = true) ∧
    ∀ pair ∈ (sortNativeActions keccak actions).2, (classifyAction pair.2).preEvm = false

theorem orderFixed {keccak : List Byte → B256} {actions others : List (Address × NativeAction)}
    (free : CollisionFree keccak actions) (short : ∀ pair ∈ actions, pair.2.Short)
    (same : actions.Perm others) : OrderFixed keccak actions others := by
  have before := @sortDeterministic_categories keccak actions ActionCategory.preEvm
  have after := @sortDeterministic_categories keccak actions fun category => !category.preEvm
  have late : ∀ pair ∈ (sortNativeActions keccak actions).2, (classifyAction pair.2).preEvm = false := by
    intro pair member
    simpa using after.2 pair member
  refine ⟨sortNativeActionsIndexedWithSortHashes_eq, ?_, sortNativeActionsIndexed_perm,
    fun few => sortDeterministic_positions few _, fun few => sortDeterministic_positions few _, ?_,
    before.2, late⟩
  · exact Prod.ext (sortDeterministic_congr free short same ActionCategory.preEvm)
      (sortDeterministic_congr free short same fun category => !category.preEvm)
  · apply pairwise_append.mpr
    refine ⟨before.1, after.1, ?_⟩
    intro left inLeft right inRight
    have leftEarly := before.2 left inLeft
    have rightLate := late right inRight
    revert leftEarly rightLate
    cases classifyAction left.2 <;> cases classifyAction right.2 <;> decide

section Body

variable {η ρ α : Type}

abbrev Resolved (α : Type) := SignedNativeAction α × Option Address

/-- The nonce lies in the window of the block time, and no row has consumed it. -/
def admits (state : NonceRows) (blockMs : U64) (sender : Address) (nonce : U64) : Bool :=
  match checkNonceWindow nonce blockMs with
  | .error _ => false
  | .ok () => (state.get (nativeNonceKey sender nonce)).isNone

def admitted (allows : Address → U64 → Bool) (entry : Resolved α) :
    Option (Address × SignedNativeAction α) :=
  entry.2.bind fun sender => if allows sender entry.1.nonce then some (sender, entry.1) else none

theorem guardAction_some (state : NonceRows) (blockMs : U64) (guard : ReplayGuard α)
    (signed : SignedNativeAction α) (sender : Address)
    (unseen : (sender, signed.nonce) ∉ guard.seenInBlock) :
    guardAction state blockMs guard signed (some sender) =
      if admits state blockMs sender signed.nonce then
        { handed := guard.handed ++ [(sender, signed)]
          seenInBlock := (sender, signed.nonce) :: guard.seenInBlock }
      else guard := by
  rw [guardAction.eq_def, admits.eq_def]
  -- The window's arithmetic is kept out of what the kernel has to reduce.
  generalize checkNonceWindow signed.nonce blockMs = checked
  cases checked with
  | error error => rfl
  | ok _ =>
    dsimp only
    by_cases row : (state.get (nativeNonceKey sender signed.nonce)).isSome
    · have consumed : ¬ (state.get (nativeNonceKey sender signed.nonce)).isNone = true := by
        simpa using Option.isSome_iff_ne_none.mp row
      rw [if_pos row, if_neg consumed]
    · have fresh : (state.get (nativeNonceKey sender signed.nonce)).isNone = true := by
        simpa using row
      rw [if_neg row, if_neg unseen, if_pos fresh]

def resolvedNonces (body : List (Resolved α)) : List (Address × U64) :=
  body.filterMap fun entry => entry.2.map fun sender => (sender, entry.1.nonce)

theorem replayGuard_handed {state : NonceRows} {blockMs : U64} {allows : Address → U64 → Bool}
    (step : ∀ (guard : ReplayGuard α) signed sender, (sender, signed.nonce) ∉ guard.seenInBlock →
      guardAction state blockMs guard signed (some sender) =
        if allows sender signed.nonce then
          { handed := guard.handed ++ [(sender, signed)]
            seenInBlock := (sender, signed.nonce) :: guard.seenInBlock }
        else guard)
    (body : List (Resolved α)) (guard : ReplayGuard α) (distinct : (resolvedNonces body).Nodup)
    (unseen : ∀ pair ∈ resolvedNonces body, pair ∉ guard.seenInBlock) :
    (replayGuard state blockMs (body.map Prod.fst) (body.map Prod.snd) guard).handed =
      guard.handed ++ body.filterMap (admitted allows) := by
  induction body generalizing guard with
  | nil => simp [replayGuard]
  | cons entry body ih =>
    obtain ⟨signed, resolved⟩ := entry
    rw [map_cons, map_cons, replayGuard]
    simp only [tail_cons, List.head?_cons, Option.join_some]
    cases resolved with
    | none => exact ih guard distinct unseen
    | some sender =>
      have nonces : resolvedNonces ((signed, some sender) :: body) =
          (sender, signed.nonce) :: resolvedNonces body := rfl
      rw [nonces, nodup_cons] at distinct
      rw [nonces] at unseen
      have later : ∀ pair ∈ resolvedNonces body, pair ∉ guard.seenInBlock :=
        fun pair member => unseen pair (mem_cons_of_mem _ member)
      rw [step _ _ _ (unseen _ mem_cons_self), filterMap_cons]
      simp only [admitted, Option.bind_some]
      cases allows sender signed.nonce with
      | false => exact ih guard distinct.2 later
      | true =>
        simp only [if_true]
        rw [ih _ distinct.2, append_assoc, singleton_append]
        intro pair member seen
        rcases mem_cons.mp seen with same | earlier
        · exact distinct.1 (same ▸ member)
        · exact later pair member earlier

abbrev Hashed := NativeAction × B256

def committedLists (headers : U64 → Option (TorusBlockHeader η ρ)) (nonces : NonceRows)
    (block : TorusBlock η ρ Hashed) (resolvedSenders : List (Option Address)) :
    Option (IndexedActions × IndexedActions) := do
  let (_, handed) ← executeCommittedBlock headers nonces block resolvedSenders
  sortNativeActionsIndexedWithSortHashes (handed.map fun entry => (entry.1, entry.2.action.1))
    (handed.map fun entry => entry.2.action.2)

def hashed (keccak : List Byte → B256) (entry : Resolved NativeAction) : Resolved Hashed :=
  ({ action := (entry.1.action, keccak entry.1.action.canonicalBytes), nonce := entry.1.nonce }, entry.2)

def TorusBlock.ofBody (header : TorusBlockHeader η ρ) (body : List (Resolved α)) : TorusBlock η ρ α where
  header := header
  nativeActions := body.map Prod.fst

variable {keccak : List Byte → B256}

def resolvedActions (body : List (Resolved NativeAction)) : List (Address × NativeAction) :=
  body.filterMap fun entry => entry.2.map fun sender => (sender, entry.1.action)

def admittedActions (allows : Address → U64 → Bool) (body : List (Resolved NativeAction)) :
    List (Address × NativeAction) :=
  body.filterMap fun entry => (admitted allows entry).map fun handed => (handed.1, handed.2.action)

theorem mem_admittedActions {allows : Address → U64 → Bool} {body : List (Resolved NativeAction)}
    {pair : Address × NativeAction} (member : pair ∈ admittedActions allows body) :
    pair ∈ resolvedActions body := by
  obtain ⟨⟨signed, resolved⟩, inside, taken⟩ := mem_filterMap.mp member
  obtain ⟨handed, isHanded, rfl⟩ := Option.map_eq_some_iff.mp taken
  apply mem_filterMap.mpr
  refine ⟨(signed, resolved), inside, ?_⟩
  cases resolved with
  | none => cases isHanded
  | some sender =>
    simp only [admitted, Option.bind_some] at isHanded
    split at isHanded
    · cases isHanded
      rfl
    · cases isHanded

theorem admitted_hashed (allows : Address → U64 → Bool) (entry : Resolved NativeAction) :
    admitted allows (hashed keccak entry) =
      (admitted allows entry).map fun handed => (handed.1,
        { action := (handed.2.action, keccak handed.2.action.canonicalBytes), nonce := handed.2.nonce }) := by
  obtain ⟨signed, resolved⟩ := entry
  cases resolved with
  | none => rfl
  | some sender =>
    simp only [admitted, hashed, Option.bind_some]
    by_cases admitted : allows sender signed.nonce = true
    · simp [admitted]
    · simp [admitted]

theorem handed_actions (allows : Address → U64 → Bool) (body : List (Resolved NativeAction)) :
    ((body.map (hashed keccak)).filterMap (admitted allows)).map
        (fun entry => (entry.1, entry.2.action.1)) = admittedActions allows body ∧
      ((body.map (hashed keccak)).filterMap (admitted allows)).map
        (fun entry => entry.2.action.2) =
          (admittedActions allows body).map fun pair => keccak pair.2.canonicalBytes := by
  unfold admittedActions
  rw [filterMap_map, map_filterMap, map_filterMap, map_filterMap]
  simp only [Function.comp_def, admitted_hashed, Option.map_map]
  exact ⟨trivial, trivial⟩

theorem committedLists_eq (headers : U64 → Option (TorusBlockHeader η ρ)) (nonces : NonceRows)
    (header : TorusBlockHeader η ρ) (body : List (Resolved NativeAction))
    (distinct : (resolvedNonces body).Nodup) :
    committedLists headers nonces (.ofBody header (body.map (hashed keccak))) (body.map Prod.snd) =
      (parentBlockMs headers header.height).map fun parentMs =>
        sortNativeActionsIndexed keccak (admittedActions
          (admits ((expiredNonceKeys nonces parentMs (blockTimestampMs header.timestamp)).keys.foldl
            Overlay.delete nonces) (blockTimestampMs header.timestamp)) body) := by
  have senders : body.map Prod.snd = (body.map (hashed keccak)).map Prod.snd := by
    rw [map_map]
    rfl
  have hashedNonces : resolvedNonces (body.map (hashed keccak)) = resolvedNonces body := by
    unfold resolvedNonces
    rw [filterMap_map]
    rfl
  unfold committedLists executeCommittedBlock
  change Option.bind (Option.bind (parentBlockMs headers header.height) _) _ = _
  cases parentBlockMs headers header.height with
  | none => rfl
  | some parentMs =>
    simp only [Option.bind_some, Option.map_some, TorusBlock.ofBody]
    rw [senders, replayGuard_handed (guardAction_some _ _) _ {} (by rw [hashedNonces]; exact distinct)
      (fun _ _ => not_mem_nil), nil_append, (handed_actions _ body).1,
      (handed_actions _ body).2]
    exact sortNativeActionsIndexedWithSortHashes_eq

def executionLists (lists : IndexedActions × IndexedActions) :
    List (Address × NativeAction) × List (Address × NativeAction) :=
  (lists.1.1, lists.2.1)

theorem admittedActions_congr (allows : Address → U64 → Bool)
    {body others : List (Resolved NativeAction)}
    (free : CollisionFree keccak (resolvedActions body))
    (short : ∀ pair ∈ resolvedActions body, pair.2.Short) (same : body.Perm others) :
    executionLists (sortNativeActionsIndexed keccak (admittedActions allows body)) =
      executionLists (sortNativeActionsIndexed keccak (admittedActions allows others)) := by
  have fewer : ∀ pair ∈ admittedActions allows body, pair ∈ resolvedActions body :=
    fun pair member => mem_admittedActions member
  exact (orderFixed (fun left inLeft right inRight => free left (fewer left inLeft) right (fewer right inRight))
    (fun pair member => short pair (fewer pair member)) (same.filterMap _)).lists

theorem committedLists_congr (headers : U64 → Option (TorusBlockHeader η ρ)) (nonces : NonceRows)
    (header : TorusBlockHeader η ρ) {body others : List (Resolved NativeAction)}
    (free : CollisionFree keccak (resolvedActions body))
    (short : ∀ pair ∈ resolvedActions body, pair.2.Short) (same : body.Perm others)
    (distinct : (resolvedNonces body).Nodup) :
    (committedLists headers nonces (.ofBody header (body.map (hashed keccak)))
        (body.map Prod.snd)).map executionLists =
      (committedLists headers nonces (.ofBody header (others.map (hashed keccak)))
        (others.map Prod.snd)).map executionLists := by
  have othersDistinct : (resolvedNonces others).Nodup := (same.filterMap _).nodup_iff.mp distinct
  rw [committedLists_eq _ _ _ _ distinct, committedLists_eq _ _ _ _ othersDistinct, Option.map_map,
    Option.map_map]
  congr 1
  funext parentMs
  exact admittedActions_congr _ free short same

end Body

/-- The proposer does not choose the execution order, neither of a list nor of a block's body. -/
theorem executionOrder_fixed {η ρ : Type} {keccak : List Byte → B256}
    {actions others : List (Address × NativeAction)} (free : CollisionFree keccak actions)
    (short : ∀ pair ∈ actions, pair.2.Short) (same : actions.Perm others)
    {body otherBody : List (Resolved NativeAction)}
    (bodyFree : CollisionFree keccak (resolvedActions body))
    (bodyShort : ∀ pair ∈ resolvedActions body, pair.2.Short) (bodySame : body.Perm otherBody)
    (distinct : (resolvedNonces body).Nodup)
    (headers : U64 → Option (TorusBlockHeader η ρ)) (nonces : NonceRows)
    (header : TorusBlockHeader η ρ) :
    OrderFixed keccak actions others ∧
      (committedLists headers nonces (.ofBody header (body.map (hashed keccak)))
          (body.map Prod.snd)).map executionLists =
        (committedLists headers nonces (.ofBody header (otherBody.map (hashed keccak)))
          (otherBody.map Prod.snd)).map executionLists :=
  ⟨orderFixed free short same, committedLists_congr headers nonces header bodyFree bodyShort bodySame distinct⟩

def sampleBody : List (Resolved NativeAction) :=
  [(⟨.claimRewards, 950000⟩, some 2), (⟨.cancelOrder 7, 950000⟩, some 1)]

theorem sampleBody_collisionFree : CollisionFree keccak256 (resolvedActions sampleBody) := by
  have apart : keccak256 (NativeAction.canonicalBytes .claimRewards) ≠
      keccak256 (NativeAction.canonicalBytes (.cancelOrder 7)) := by
    decide +kernel
  intro left inLeft right inRight same
  rcases mem_pair.mp inLeft with rfl | rfl
  · rcases mem_pair.mp inRight with rfl | rfl
    · rfl
    · exact absurd same apart
  · rcases mem_pair.mp inRight with rfl | rfl
    · exact absurd same.symm apart
    · rfl

theorem sampleBody_short : ∀ pair ∈ resolvedActions sampleBody, pair.2.Short := by
  intro pair member
  rcases mem_pair.mp member with rfl | rfl
  · trivial
  · trivial

theorem executionOrder_fixed_sampleBody :
    OrderFixed keccak256 (resolvedActions sampleBody) (resolvedActions sampleBody).reverse ∧
      (committedLists (fun _ => none) {} (.ofBody sampleBlock.header (sampleBody.map (hashed keccak256)))
          (sampleBody.map Prod.snd)).map executionLists =
        (committedLists (fun _ => none) {} (.ofBody sampleBlock.header
          (sampleBody.reverse.map (hashed keccak256))) (sampleBody.reverse.map Prod.snd)).map
            executionLists :=
  executionOrder_fixed sampleBody_collisionFree sampleBody_short (reverse_perm _).symm
    sampleBody_collisionFree sampleBody_short (reverse_perm _).symm (by decide) (fun _ => none) {}
    sampleBlock.header

end TorusHyperBft.Chain
