import TorusHyperBft.OrderBook.Book

namespace TorusHyperBft.OrderBook

open List

/-! The indexes of a book against the orders that rest on it.

The indexes look at an order's identity only, so a partial fill does not touch them. -/

structure Key where
  id : Nat
  trader : Address
  side : Side
  price : Int
  cloid : Option Cloid
deriving DecidableEq

def Order.key (order : Order) : Key where
  id := order.id
  trader := order.trader
  side := order.side
  price := order.price
  cloid := order.clientOrderId

def Key.location (key : Key) : OrderLocation where
  side := key.side
  price := key.price

/-- Every index says exactly what rests (and, for client ids, what waits to trigger). -/
structure Covers (indexes : Indexes) (keys : List Key) (stops : List StopOrder) (nextSeq : Nat) :
    Prop where
  nodup : (keys.map Key.id).Nodup
  apart : ∀ stop ∈ stops, stop.id ∉ keys.map Key.id
  stopsNodup : (stops.map StopOrder.id).Nodup
  indexed : ∀ id location, indexes.orderIndex id = some location ↔
    ∃ key ∈ keys, key.id = id ∧ key.location = location
  sequenced : ∀ id, (indexes.orderSeq id).isSome ↔ id ∈ keys.map Key.id
  bounded : ∀ id seq, indexes.orderSeq id = some seq → seq < nextSeq
  listed : ∀ trader id, id ∈ indexes.traderOrders trader ↔
    ∃ key ∈ keys, key.id = id ∧ key.trader = trader
  listedOnce : ∀ trader, (indexes.traderOrders trader).Nodup
  cloids : ∀ trader cloid id, indexes.cloids trader cloid = some id ↔
    (∃ key ∈ keys, key.id = id ∧ key.trader = trader ∧ key.cloid = some cloid) ∨
      ∃ stop ∈ stops, stop.id = id ∧ stop.trader = trader ∧ stop.clientOrderId = some cloid

theorem Indexes.removeId_nodup {ids : List Nat} {id : Nat} (nodup : ids.Nodup) :
    (Indexes.removeId ids id).Nodup := by
  rw [Indexes.removeId, nodup_reverse]
  exact (nodup_reverse.mpr nodup).erase id

theorem Indexes.mem_removeId {ids : List Nat} {id other : Nat} (nodup : ids.Nodup) :
    other ∈ Indexes.removeId ids id ↔ other ≠ id ∧ other ∈ ids := by
  rw [Indexes.removeId, mem_reverse, (nodup_reverse.mpr nodup).mem_erase_iff,
    mem_reverse]

section Forget

variable (indexes : Indexes) (order : Order)

theorem forgetCloid_frame (trader : Address) (cloid : Option Cloid) (id : Nat) :
    (indexes.forgetCloid trader cloid id).orderIndex = indexes.orderIndex ∧
      (indexes.forgetCloid trader cloid id).traderOrders = indexes.traderOrders ∧
      (indexes.forgetCloid trader cloid id).orderSeq = indexes.orderSeq := by
  unfold Indexes.forgetCloid
  cases cloid with
  | none => exact ⟨rfl, rfl, rfl⟩
  | some cloid => dsimp only; split <;> exact ⟨rfl, rfl, rfl⟩

theorem forget_orderIndex : (indexes.forget order).orderIndex =
    Function.update indexes.orderIndex order.id none := by
  rw [Indexes.forget, (forgetCloid_frame indexes _ _ _).1]

theorem forget_orderSeq : (indexes.forget order).orderSeq =
    Function.update indexes.orderSeq order.id none := by
  rw [Indexes.forget, (forgetCloid_frame indexes _ _ _).2.2]

theorem forget_traderOrders : (indexes.forget order).traderOrders =
    Function.update indexes.traderOrders order.trader
      (Indexes.removeId (indexes.traderOrders order.trader) order.id) := by
  rw [Indexes.forget, (forgetCloid_frame indexes _ _ _).2.1]

theorem forget_cloids : (indexes.forget order).cloids =
    (indexes.forgetCloid order.trader order.clientOrderId order.id).cloids := rfl

end Forget

namespace Covers

variable {indexes : Indexes} {keys : List Key} {stops : List StopOrder} {nextSeq : Nat}
  {order : Order}

theorem perm {other : List Key} (covers : Covers indexes keys stops nextSeq)
    (same : keys.Perm other) : Covers indexes other stops nextSeq where
  nodup := (same.map Key.id).nodup_iff.mp covers.nodup
  apart stop member inKeys := covers.apart stop member ((same.map Key.id).mem_iff.mpr inKeys)
  stopsNodup := covers.stopsNodup
  indexed := by simpa only [same.mem_iff] using covers.indexed
  sequenced id := by rw [covers.sequenced, (same.map Key.id).mem_iff]
  bounded := covers.bounded
  listed := by simpa only [same.mem_iff] using covers.listed
  listedOnce := covers.listedOnce
  cloids := by simpa only [same.mem_iff] using covers.cloids

theorem key_unique (covers : Covers indexes keys stops nextSeq) {first second : Key}
    (firstMember : first ∈ keys) (secondMember : second ∈ keys) (same : first.id = second.id) :
    first = second :=
  inj_on_of_nodup_map covers.nodup firstMember secondMember same

theorem cloid_owner (covers : Covers indexes (order.key :: keys) stops nextSeq) {cloid : Cloid}
    (named : order.clientOrderId = some cloid) :
    indexes.cloids order.trader cloid = some order.id :=
  (covers.cloids order.trader cloid order.id).mpr
    (Or.inl ⟨order.key, mem_cons_self, rfl, rfl, named⟩)

theorem forgetCloid_cloids {owner : Address} {name : Option Cloid} {gone : Nat}
    (carried : ∀ cloid, name = some cloid → indexes.cloids owner cloid = some gone)
    (only : ∀ trader cloid, indexes.cloids trader cloid = some gone →
      trader = owner ∧ name = some cloid)
    (trader : Address) (cloid : Cloid) (id : Nat) :
    (indexes.forgetCloid owner name gone).cloids trader cloid = some id ↔
      indexes.cloids trader cloid = some id ∧ id ≠ gone := by
  have others : ∀ trader cloid id, indexes.cloids trader cloid = some id →
      ¬ (trader = owner ∧ name = some cloid) → id ≠ gone := fun trader cloid id found other same =>
    other (only trader cloid (same ▸ found))
  unfold Indexes.forgetCloid
  cases name with
  | none => exact ⟨fun found => ⟨found, others trader cloid id found (by simp)⟩, And.left⟩
  | some own =>
    dsimp only
    rw [if_pos (carried own rfl)]
    by_cases same : trader = owner ∧ cloid = own
    · obtain ⟨rfl, rfl⟩ := same
      rw [carried cloid rfl]
      simp only [Function.update_self, Option.some.injEq, reduceCtorEq, false_iff, not_and,
        not_not]
      exact fun same => same.symm
    · have kept : Function.update indexes.cloids owner
          (Function.update (indexes.cloids owner) own none) trader cloid =
          indexes.cloids trader cloid := by
        by_cases sameTrader : trader = owner
        · subst sameTrader
          rw [Function.update_self, Function.update_of_ne (fun equal => same ⟨rfl, equal⟩)]
        · rw [Function.update_of_ne sameTrader]
      change Function.update indexes.cloids owner
        (Function.update (indexes.cloids owner) own none) trader cloid = some id ↔ _
      rw [kept]
      exact ⟨fun found => ⟨found, others trader cloid id found fun equal =>
        same ⟨equal.1, (Option.some.inj equal.2).symm⟩⟩, And.left⟩

theorem cloid_only (covers : Covers indexes (order.key :: keys) stops nextSeq) {trader : Address}
    {cloid : Cloid} (found : indexes.cloids trader cloid = some order.id) :
    trader = order.trader ∧ order.clientOrderId = some cloid := by
  rcases (covers.cloids trader cloid order.id).mp found with
    ⟨key, member, sameId, sameTrader, hasCloid⟩ | ⟨stop, member, sameId, _⟩
  · have := covers.key_unique member mem_cons_self sameId
    subst this
    exact ⟨sameTrader.symm, hasCloid⟩
  · exact absurd (sameId ▸ by simp [Order.key]) (covers.apart stop member)

theorem forget (covers : Covers indexes (order.key :: keys) stops nextSeq) :
    Covers (indexes.forget order) keys stops nextSeq := by
  have nodup := covers.nodup
  rw [map_cons, nodup_cons] at nodup
  have notLeft : ∀ key ∈ keys, key.id ≠ order.id := fun key member same =>
    nodup.1 (mem_map.mpr ⟨key, member, same⟩)
  -- Of the keys, only the leaving order has its id.
  have remains : ∀ (id : Nat) (property : Key → Prop), id ≠ order.id →
      ((∃ key ∈ order.key :: keys, key.id = id ∧ property key) ↔
        ∃ key ∈ keys, key.id = id ∧ property key) := by
    intro id property other
    constructor
    · rintro ⟨key, member, sameId, holds⟩
      rcases mem_cons.mp member with rfl | member
      · exact absurd sameId.symm other
      · exact ⟨key, member, sameId, holds⟩
    · rintro ⟨key, member, properties⟩
      exact ⟨key, mem_cons_of_mem _ member, properties⟩
  refine ⟨nodup.2, ?_, covers.stopsNodup, ?_, ?_, ?_, ?_, ?_, ?_⟩
  · intro stop member inKeys
    exact covers.apart stop member (mem_cons_of_mem _ inKeys)
  · intro id location
    rw [forget_orderIndex]
    by_cases same : id = order.id
    · subst same
      rw [Function.update_self]
      refine ⟨fun absurd => by contradiction, fun ⟨key, member, sameId, _⟩ => ?_⟩
      exact absurd sameId (notLeft key member)
    · rw [Function.update_of_ne same, covers.indexed, remains id _ same]
  · intro id
    rw [forget_orderSeq]
    by_cases same : id = order.id
    · subst same
      rw [Function.update_self]
      simpa using notLeft
    · rw [Function.update_of_ne same, covers.sequenced, map_cons, mem_cons]
      exact ⟨fun member => member.resolve_left same, Or.inr⟩
  · intro id seq
    rw [forget_orderSeq]
    by_cases same : id = order.id
    · subst same
      rw [Function.update_self]
      intro absurd
      contradiction
    · rw [Function.update_of_ne same]
      exact covers.bounded id seq
  · intro trader id
    rw [forget_traderOrders]
    by_cases same : id = order.id
    · subst same
      have gone : ¬ ∃ key ∈ keys, key.id = order.id ∧ key.trader = trader :=
        fun ⟨key, member, sameId, _⟩ => notLeft key member sameId
      refine ⟨fun member => absurd ?_ gone, fun found => absurd found gone⟩
      by_cases own : trader = order.trader
      · subst own
        rw [Function.update_self, Indexes.mem_removeId (covers.listedOnce _)] at member
        exact absurd rfl member.1
      · rw [Function.update_of_ne own, covers.listed] at member
        obtain ⟨key, inKeys, sameId, sameTrader⟩ := member
        have := covers.key_unique inKeys mem_cons_self sameId
        exact absurd (sameTrader.symm.trans (congrArg Key.trader this)) own
    · rw [← remains id _ same, ← covers.listed]
      by_cases own : trader = order.trader
      · subst own
        rw [Function.update_self, Indexes.mem_removeId (covers.listedOnce _)]
        exact ⟨fun member => member.2, fun member => ⟨same, member⟩⟩
      · rw [Function.update_of_ne own]
  · intro trader
    rw [forget_traderOrders]
    by_cases own : trader = order.trader
    · subst own
      rw [Function.update_self]
      exact Indexes.removeId_nodup (covers.listedOnce _)
    · rw [Function.update_of_ne own]
      exact covers.listedOnce trader
  · intro trader cloid id
    rw [forget_cloids, forgetCloid_cloids (fun cloid => covers.cloid_owner)
      (fun trader cloid => covers.cloid_only), covers.cloids]
    by_cases same : id = order.id
    · subst same
      refine ⟨fun absurd => by simp at absurd, ?_⟩
      rintro (⟨key, member, sameId, _⟩ | ⟨stop, member, sameId, _⟩)
      · exact absurd sameId (notLeft key member)
      · exact absurd (sameId ▸ by simp [Order.key]) (covers.apart stop member)
    · rw [remains id _ same]
      exact and_iff_left same

/-- The trader has no order of that name. -/
def CloidFree (indexes : Indexes) (trader : Address) (cloid : Option Cloid) : Prop :=
  ∀ name, cloid = some name → indexes.cloids trader name = none

theorem indexCloid_frame (indexes : Indexes) (trader : Address) (cloid : Option Cloid) (id : Nat) :
    (indexes.indexCloid trader cloid id).orderIndex = indexes.orderIndex ∧
      (indexes.indexCloid trader cloid id).traderOrders = indexes.traderOrders ∧
      (indexes.indexCloid trader cloid id).orderSeq = indexes.orderSeq := by
  cases cloid <;> exact ⟨rfl, rfl, rfl⟩

theorem indexCloid_cloids {trader : Address} {cloid : Option Cloid} {id : Nat}
    (free : CloidFree indexes trader cloid) (other : Address) (name : Cloid) (found : Nat) :
    (indexes.indexCloid trader cloid id).cloids other name = some found ↔
      indexes.cloids other name = some found ∨
        (id = found ∧ trader = other ∧ cloid = some name) := by
  cases cloid with
  | none => simp [Indexes.indexCloid]
  | some own =>
    have unused := free own rfl
    change Function.update indexes.cloids trader
      (Function.update (indexes.cloids trader) own (some id)) other name = some found ↔ _
    by_cases sameTrader : other = trader
    · subst sameTrader
      rw [Function.update_self]
      by_cases sameName : name = own
      · subst sameName
        rw [Function.update_self, unused]
        simp
      · rw [Function.update_of_ne sameName]
        simp [Ne.symm sameName]
    · rw [Function.update_of_ne sameTrader]
      simp [Ne.symm sameTrader]

theorem insert {seq bound : Nat} (covers : Covers indexes keys stops nextSeq)
    (unused : order.id ∉ keys.map Key.id) (notStop : order.id ∉ stops.map StopOrder.id)
    (free : CloidFree indexes order.trader order.clientOrderId) (grown : nextSeq ≤ bound)
    (below : seq < bound) :
    let named := indexes.indexCloid order.trader order.clientOrderId order.id
    Covers { named with
      orderIndex := Function.update named.orderIndex order.id
        (some { side := order.side, price := order.price })
      traderOrders := Function.update named.traderOrders order.trader
        (named.traderOrders order.trader ++ [order.id])
      orderSeq := Function.update named.orderSeq order.id (some seq) }
      (order.key :: keys) stops bound := by
  obtain ⟨indexFrame, traderFrame, seqFrame⟩ :=
    indexCloid_frame indexes order.trader order.clientOrderId order.id
  have named := @indexCloid_cloids indexes order.trader order.clientOrderId order.id free
  have notKey : ∀ key ∈ keys, key.id ≠ order.id := fun key member same =>
    unused (mem_map.mpr ⟨key, member, same⟩)
  dsimp only
  rw [indexFrame, traderFrame, seqFrame]
  refine ⟨?_, ?_, covers.stopsNodup, ?_, ?_, ?_, ?_, ?_, ?_⟩
  · rw [map_cons, nodup_cons]
    exact ⟨unused, covers.nodup⟩
  · intro stop member inKeys
    rcases mem_cons.mp inKeys with same | inKeys
    · exact notStop (mem_map.mpr ⟨stop, member, same⟩)
    · exact covers.apart stop member inKeys
  · intro id location
    by_cases same : id = order.id
    · subst same
      simp only [Function.update_self, Option.some.injEq, mem_cons, exists_eq_or_imp]
      refine ⟨fun located => Or.inl ⟨rfl, located⟩, ?_⟩
      rintro (⟨_, located⟩ | ⟨key, member, sameId, _⟩)
      · exact located
      · exact absurd sameId (notKey key member)
    · simp only [Function.update_of_ne same, covers.indexed, mem_cons, exists_eq_or_imp]
      refine ⟨Or.inr, fun found => found.resolve_left fun own => same own.1.symm⟩
  · intro id
    by_cases same : id = order.id
    · subst same
      simp [Order.key]
    · simp only [Function.update_of_ne same, covers.sequenced, map_cons, mem_cons]
      exact ⟨Or.inr, fun found => found.resolve_left same⟩
  · intro id other
    dsimp only
    by_cases same : id = order.id
    · subst same
      rw [Function.update_self, Option.some.injEq]
      omega
    · rw [Function.update_of_ne same]
      intro found
      have := covers.bounded id other found
      omega
  · intro trader id
    have before := covers.listed trader id
    by_cases own : trader = order.trader
    · subst own
      simp only [Function.update_self, mem_append, before, mem_cons, not_mem_nil,
        or_false, exists_eq_or_imp]
      rw [or_comm]
      exact or_congr_left ⟨fun same => ⟨same.symm, rfl⟩, fun own => own.1.symm⟩
    · simp only [Function.update_of_ne own, before, mem_cons, exists_eq_or_imp]
      exact ⟨Or.inr, fun found => found.resolve_left fun inserted => own inserted.2.symm⟩
  · intro trader
    dsimp only
    by_cases own : trader = order.trader
    · subst own
      rw [Function.update_self, nodup_append]
      refine ⟨covers.listedOnce _, by simp, fun id member other single same => ?_⟩
      rw [mem_singleton] at single
      obtain ⟨key, inKeys, sameId, _⟩ := (covers.listed _ _).mp member
      exact notKey key inKeys (sameId.trans (same.trans single))
    · rw [Function.update_of_ne own]
      exact covers.listedOnce trader
  · intro trader cloid id
    dsimp only
    rw [named, covers.cloids]
    simp only [mem_cons, exists_eq_or_imp]
    constructor
    · rintro ((inKeys | inStops) | own)
      · exact Or.inl (Or.inr inKeys)
      · exact Or.inr inStops
      · exact Or.inl (Or.inl own)
    · rintro ((own | inKeys) | inStops)
      · exact Or.inr own
      · exact Or.inl (Or.inl inKeys)
      · exact Or.inl (Or.inr inStops)

section Stops

variable {stop : StopOrder}

theorem perm_stops {other : List StopOrder} (covers : Covers indexes keys stops nextSeq)
    (same : stops.Perm other) : Covers indexes keys other nextSeq where
  nodup := covers.nodup
  apart stop member := covers.apart stop (same.mem_iff.mpr member)
  stopsNodup := (same.map StopOrder.id).nodup_iff.mp covers.stopsNodup
  indexed := covers.indexed
  sequenced := covers.sequenced
  bounded := covers.bounded
  listed := covers.listed
  listedOnce := covers.listedOnce
  cloids := by simpa only [same.mem_iff] using covers.cloids

theorem addStop (covers : Covers indexes keys stops nextSeq)
    (unused : stop.id ∉ keys.map Key.id) (notStop : stop.id ∉ stops.map StopOrder.id)
    (free : CloidFree indexes stop.trader stop.clientOrderId) :
    Covers (indexes.indexCloid stop.trader stop.clientOrderId stop.id) keys (stop :: stops)
      nextSeq := by
  obtain ⟨indexFrame, traderFrame, seqFrame⟩ :=
    indexCloid_frame indexes stop.trader stop.clientOrderId stop.id
  have named := @indexCloid_cloids indexes stop.trader stop.clientOrderId stop.id free
  refine ⟨covers.nodup, ?_, ?_, indexFrame ▸ covers.indexed, seqFrame ▸ covers.sequenced,
    seqFrame ▸ covers.bounded, traderFrame ▸ covers.listed, traderFrame ▸ covers.listedOnce, ?_⟩
  · intro other member
    rcases mem_cons.mp member with rfl | member
    · exact unused
    · exact covers.apart other member
  · rw [map_cons, nodup_cons]
    exact ⟨notStop, covers.stopsNodup⟩
  · intro trader cloid id
    rw [named, covers.cloids]
    simp only [mem_cons, exists_eq_or_imp, or_assoc]
    exact or_congr_right or_comm

theorem dropStop (covers : Covers indexes keys (stop :: stops) nextSeq) :
    Covers (indexes.forgetCloid stop.trader stop.clientOrderId stop.id) keys stops nextSeq := by
  obtain ⟨indexFrame, traderFrame, seqFrame⟩ :=
    forgetCloid_frame indexes stop.trader stop.clientOrderId stop.id
  have nodup := covers.stopsNodup
  rw [map_cons, nodup_cons] at nodup
  have notLeft : ∀ other ∈ stops, other.id ≠ stop.id := fun other member same =>
    nodup.1 (same ▸ mem_map_of_mem member)
  have notKey : ∀ key ∈ keys, key.id ≠ stop.id := fun key member same =>
    covers.apart stop mem_cons_self (same ▸ mem_map_of_mem member)
  have carried : ∀ cloid, stop.clientOrderId = some cloid →
      indexes.cloids stop.trader cloid = some stop.id := fun cloid named =>
    (covers.cloids _ _ _).mpr (Or.inr ⟨stop, mem_cons_self, rfl, rfl, named⟩)
  have only : ∀ trader cloid, indexes.cloids trader cloid = some stop.id →
      trader = stop.trader ∧ stop.clientOrderId = some cloid := by
    intro trader cloid found
    rcases (covers.cloids _ _ _).mp found with
      ⟨key, member, sameId, _⟩ | ⟨other, member, sameId, sameTrader, named⟩
    · exact absurd sameId (notKey key member)
    · rcases mem_cons.mp member with rfl | member
      · exact ⟨sameTrader.symm, named⟩
      · exact absurd sameId (notLeft other member)
  refine ⟨covers.nodup, fun other member => covers.apart other (mem_cons_of_mem _ member),
    nodup.2, indexFrame ▸ covers.indexed, seqFrame ▸ covers.sequenced, seqFrame ▸ covers.bounded,
    traderFrame ▸ covers.listed, traderFrame ▸ covers.listedOnce, ?_⟩
  intro trader cloid id
  rw [forgetCloid_cloids carried only, covers.cloids]
  simp only [mem_cons, exists_eq_or_imp]
  constructor
  · rintro ⟨inKeys | own | inStops, other⟩
    · exact Or.inl inKeys
    · exact absurd own.1.symm other
    · exact Or.inr inStops
  · rintro (⟨key, member, rfl, rest⟩ | ⟨other, member, rfl, rest⟩)
    · exact ⟨Or.inl ⟨key, member, rfl, rest⟩, notKey key member⟩
    · exact ⟨Or.inr (Or.inr ⟨other, member, rfl, rest⟩), notLeft other member⟩

theorem dropStops {gone : List StopOrder} (covers : Covers indexes keys (gone ++ stops) nextSeq) :
    Covers (gone.foldl
      (fun indexes stop => indexes.forgetCloid stop.trader stop.clientOrderId stop.id) indexes)
      keys stops nextSeq := by
  induction gone generalizing indexes with
  | nil => exact covers
  | cons stop gone ih => exact ih covers.dropStop

end Stops

end Covers

end TorusHyperBft.OrderBook
