import Mathlib

namespace TorusHyperBft.Mempool

open List

/-! A bounded map that forgets the keys that were inserted longest ago. A repeated insert leaves
the key's earlier slots in the queue, and the eviction passes over them. -/

/-- `map` holds with each value the number of the key's slots in the queue `order`, 32 bits wide. -/
structure FifoCache (κ ν : Type) where
  map : AList fun _ : κ => ν × BitVec 32
  order : List κ
  cap : Nat

namespace FifoCache

variable {κ ν : Type} [DecidableEq κ]

def new (cap : Nat) : FifoCache κ ν := ⟨∅, [], max cap 1⟩

/-- Take slots off the front while the map is too large. `none` stands for an `expect` that
fails: the queue is empty, or a slot names a key that is not in the map. -/
def evict (cap : Nat) : List κ → (AList fun _ : κ => ν × BitVec 32) →
    Option ((AList fun _ : κ => ν × BitVec 32) × List κ × Nat)
  | [], map => if map.keys.length ≤ cap then some (map, [], 0) else none
  | cand :: order, map =>
    if map.keys.length ≤ cap then some (map, cand :: order, 0)
    else
      match map.lookup cand with
      | none => none
      | some (value, slots) =>
        if slots - 1 = 0 then
          (evict cap order (map.erase cand)).map fun (map, order, evicted) =>
            (map, order, evicted + 1)
        else evict cap order (map.insert cand (value, slots - 1))

def insert (cache : FifoCache κ ν) (key : κ) (value : ν) : Option (FifoCache κ ν × Nat) :=
  let slots := ((cache.map.lookup key).map Prod.snd).getD 0
  (evict cache.cap (cache.order ++ [key]) (cache.map.insert key (value, slots + 1))).map
    fun (map, order, evicted) => ({ cache with map, order }, evicted)

def get (cache : FifoCache κ ν) (key : κ) : Option ν := (cache.map.lookup key).map Prod.fst

inductive Call (κ ν : Type) where
  | insert (key : κ) (value : ν)
  | get (key : κ)

def step (cache : FifoCache κ ν) : Call κ ν → Option (FifoCache κ ν)
  | .insert key value => (cache.insert key value).map Prod.fst
  | .get _ => some cache

def run (cache : FifoCache κ ν) : List (Call κ ν) → Option (FifoCache κ ν) :=
  List.foldlM step cache

end FifoCache

section

variable {κ ν : Type} [DecidableEq κ]

def inserts : List (FifoCache.Call κ ν) → List (κ × ν) :=
  List.filterMap fun call =>
    match call with
    | .insert key value => some (key, value)
    | .get _ => none

omit [DecidableEq κ] in
theorem inserts_append (calls : List (FifoCache.Call κ ν)) (key : κ) (value : ν)
    (later : List (FifoCache.Call κ ν)) :
    inserts (calls ++ .insert key value :: later) =
      inserts calls ++ (key, value) :: inserts later := by
  simp [inserts]

def mostRecent (cap : Nat) (keys : List κ) : List κ := keys.dedup.drop (keys.dedup.length - cap)

def latest (entries : List (κ × ν)) (key : κ) : Option ν :=
  (entries.filter fun entry => entry.1 = key).getLast?.map Prod.snd

theorem latest_append (entries : List (κ × ν)) (entry : κ × ν) (key : κ) :
    latest (entries ++ [entry]) key = if entry.1 = key then some entry.2 else latest entries key := by
  by_cases same : entry.1 = key <;> simp [latest, same]

theorem dedup_isSuffix {recent keys : List κ} (suffix : recent <:+ keys) :
    recent.dedup <:+ keys.dedup := by
  obtain ⟨earlier, rfl⟩ := suffix
  rw [dedup_append]
  exact suffix_union_right _ _

theorem mostRecent_eq {cap : Nat} {recent keys : List κ} (suffix : recent <:+ keys)
    (within : recent.dedup.length ≤ cap)
    (full : recent.dedup.length = cap ∨ keys ⊆ recent) :
    mostRecent cap keys = recent.dedup := by
  rw [mostRecent]
  obtain ⟨earlier, same⟩ := dedup_isSuffix suffix
  rcases full with full | all
  · rw [← same, length_append, full, Nat.add_sub_cancel, drop_left]
  · have longer : keys.dedup.length ≤ recent.dedup.length := by
      apply (subperm_of_subset keys.nodup_dedup _).length_le
      intro key member
      exact mem_dedup.mpr (all (mem_dedup.mp member))
    have equal := (dedup_isSuffix suffix).eq_of_length_le longer
    rw [← equal, Nat.sub_eq_zero_of_le within, drop_zero]

end

namespace FifoCache

variable {κ ν : Type} [DecidableEq κ] {map after : AList fun _ : κ => ν × BitVec 32}
  {order rest : List κ} {cap : Nat}

/-- A key has as many slots in the queue as the map says, and is live if it has one. -/
def Counted (map : AList fun _ : κ => ν × BitVec 32) (order : List κ) : Prop :=
  ∀ key, ((map.lookup key).elim 0 fun entry => entry.2.toNat) = order.count key ∧
    ((map.lookup key).isSome ↔ key ∈ order)

theorem Counted.keys_length (counted : Counted map order) :
    map.keys.length = order.dedup.length := by
  apply List.Perm.length_eq
  apply (perm_ext_iff_of_nodup map.keys_nodup order.nodup_dedup).mpr
  intro key
  rw [mem_dedup, ← (counted key).2, AList.lookup_isSome, AList.mem_keys]

/-- What is left of a key once a slot is off the front. -/
theorem Counted.pop {cand : κ} {value : ν} {slots : BitVec 32}
    (counted : Counted map (cand :: order))
    (found : map.lookup cand = some (value, slots)) :
    Counted (if slots - 1 = 0 then map.erase cand else map.insert cand (value, slots - 1)) order ∧
      (slots - 1 = 0 ↔ cand ∉ order) := by
  have own := (counted cand).1
  rw [found, count_cons_self] at own
  change slots.toNat = order.count cand + 1 at own
  have last : slots - 1 = 0 ↔ cand ∉ order := by
    rw [← count_eq_zero]
    constructor
    · intro zero
      bv_omega
    · intro zero
      bv_omega
  refine ⟨?_, last⟩
  intro key
  by_cases same : key = cand
  · subst same
    split
    next zero => simp [AList.lookup_erase, last.mp zero, count_eq_zero.mpr (last.mp zero)]
    next more =>
        have inside : key ∈ order := by
          by_contra gone
          exact more (last.mpr gone)
        have less : (slots - 1).toNat = order.count key := by bv_omega
        rw [AList.lookup_insert]
        exact ⟨less, by simp [inside]⟩
  · have other := counted key
    rw [count_cons_of_ne (Ne.symm same), mem_cons, or_iff_right same] at other
    split
    next => rwa [AList.lookup_erase_ne same]
    next => rwa [AList.lookup_insert_ne same]

/-- What an eviction leaves: the queue's end, with its keys, their counts and values. -/
structure Evicted (cap : Nat) (map : AList fun _ : κ => ν × BitVec 32) (order : List κ)
    (after : AList fun _ : κ => ν × BitVec 32) (rest : List κ) (evicted : Nat) : Prop where
  counted : Counted after rest
  suffix : rest <:+ order
  values : ∀ key ∈ rest, (after.lookup key).map Prod.fst = (map.lookup key).map Prod.fst
  size : after.keys.length + evicted = map.keys.length
  within : after.keys.length ≤ cap
  full : evicted = 0 ∧ rest = order ∨ after.keys.length = cap

theorem evict_of_le (within : map.keys.length ≤ cap) (order : List κ) :
    evict cap order map = some (map, order, 0) := by
  cases order <;> rw [evict, if_pos within]

theorem Evicted.nothing (counted : Counted map order) (within : map.keys.length ≤ cap) :
    Evicted cap map order map order 0 :=
  ⟨counted, suffix_refl _, fun _ _ => rfl, rfl, within, Or.inl ⟨rfl, rfl⟩⟩

theorem evict_evicted (counted : Counted map order) (one : map.keys.length ≤ cap + 1) :
    ∃ after rest evicted, evict cap order map = some (after, rest, evicted) ∧
      Evicted cap map order after rest evicted := by
  induction order generalizing map with
  | nil =>
    have empty : map.keys.length = 0 := by simpa using counted.keys_length
    exact ⟨map, [], 0, evict_of_le (by omega) [], .nothing counted (by omega)⟩
  | cons cand order ih =>
    by_cases within : map.keys.length ≤ cap
    · exact ⟨map, cand :: order, 0, evict_of_le within _, .nothing counted within⟩
    have live := (counted cand).2.mpr mem_cons_self
    obtain ⟨⟨value, slots⟩, found⟩ := Option.isSome_iff_exists.mp live
    obtain ⟨popped, last⟩ := counted.pop found
    rw [evict, if_neg within, found]
    dsimp only
    split
    next zero =>
        rw [if_pos zero] at popped
        have gone := last.mp zero
        have fewer : (map.erase cand).keys.length + 1 = map.keys.length := by
          rw [popped.keys_length, counted.keys_length, dedup_cons_of_notMem gone,
            length_cons]
        have exact : (map.erase cand).keys.length = cap := by omega
        rw [evict_of_le exact.le]
        refine ⟨_, _, _, rfl, popped, suffix_cons _ _, ?_, fewer, exact.le, Or.inr exact⟩
        intro key member
        rw [AList.lookup_erase_ne (ne_of_mem_of_not_mem member gone)]
    next more =>
        rw [if_neg more] at popped
        have inside : cand ∈ order := by
          by_contra gone
          exact more (last.mpr gone)
        have same : (map.insert cand (value, slots - 1)).keys.length = map.keys.length := by
          rw [popped.keys_length, counted.keys_length, dedup_cons_of_mem inside]
        obtain ⟨after, rest, evicted, left, spec⟩ := ih popped (by omega)
        have full : after.keys.length = cap := by
          rcases spec.full with ⟨none, _⟩ | full
          · have := spec.size
            have := spec.within
            omega
          · exact full
        refine ⟨after, rest, evicted, left, spec.counted, spec.suffix.trans (suffix_cons _ _),
          ?_, spec.size.trans same, spec.within, Or.inr full⟩
        intro key member
        rw [spec.values key member]
        by_cases own : key = cand
        · rw [own, AList.lookup_insert, found]
          rfl
        · rw [AList.lookup_insert_ne own]

/-- Whatever the slots say, an eviction makes no entry. -/
theorem evict_lookup {evicted : Nat} (left : evict cap order map = some (after, rest, evicted))
    {key : κ}
    {value : ν} (found : (after.lookup key).map Prod.fst = some value) :
    (map.lookup key).map Prod.fst = some value := by
  induction order generalizing map evicted with
  | nil =>
    rw [evict] at left
    split at left
    · cases left
      exact found
    · cases left
  | cons cand order ih =>
    rw [evict] at left
    split at left
    · cases left
      exact found
    cases present : map.lookup cand with
    | none => simp [present] at left
    | some entry =>
      simp only [present] at left
      split at left
      · obtain ⟨⟨_, _, _⟩, step, equal⟩ := Option.map_eq_some_iff.mp left
        cases equal
        have earlier := ih step
        by_cases same : key = cand
        · rw [same, AList.lookup_erase] at earlier
          cases earlier
        · rwa [AList.lookup_erase_ne same] at earlier
      · have earlier := ih left
        by_cases same : key = cand
        · rw [same, AList.lookup_insert] at earlier
          rw [same, present]
          exact earlier
        · rwa [AList.lookup_insert_ne same] at earlier

theorem get_insert {cache next : FifoCache κ ν} {key other : κ} {value found : ν} {evicted : Nat}
    (inserted : cache.insert key value = some (next, evicted))
    (live : next.get other = some found) :
    other = key ∧ found = value ∨ cache.get other = some found := by
  obtain ⟨⟨_, _, _⟩, step, equal⟩ := Option.map_eq_some_iff.mp inserted
  cases equal
  have earlier := evict_lookup step live
  by_cases same : other = key
  · rw [same, AList.lookup_insert] at earlier
    exact Or.inl ⟨same, (Option.some.inj earlier).symm⟩
  · rw [AList.lookup_insert_ne same] at earlier
    exact Or.inr earlier

/-- A cache after some inserts: its queue is the end of the inserted keys, and it holds their
latest values. -/
structure Holds (entries : List (κ × ν)) (cache : FifoCache κ ν) : Prop where
  counted : Counted cache.map cache.order
  suffix : cache.order <:+ entries.map Prod.fst
  within : cache.order.dedup.length ≤ cache.cap
  full : cache.order.dedup.length = cache.cap ∨ entries.map Prod.fst ⊆ cache.order
  values : ∀ key ∈ cache.order, cache.get key = latest entries key

/-- One insert finds its slots, evicts at most one entry, and that only for a new key. -/
theorem Holds.insert {entries : List (κ × ν)} {cache : FifoCache κ ν} (holds : Holds entries cache)
    (key : κ) (value : ν) (few : (entries.map Prod.fst).count key < 2 ^ 32 - 1) :
    ∃ after evicted, cache.insert key value = some (after, evicted) ∧ after.cap = cache.cap ∧
      evicted ≤ 1 ∧ (evicted ≠ 0 → cache.get key = none) ∧
      Holds (entries ++ [(key, value)]) after := by
  obtain ⟨counted, suffix, within, full, values⟩ := holds
  have size := counted.keys_length
  generalize slotsEq : ((cache.map.lookup key).map Prod.snd).getD 0 = slots
  generalize mapEq : cache.map.insert key (value, slots + 1) = map
  have slotsCount : slots.toNat = cache.order.count key := by
    rw [← (counted key).1, ← slotsEq]
    cases cache.map.lookup key <;> rfl
  have fits : cache.order.count key < 2 ^ 32 - 1 :=
    (suffix.sublist.count_le key).trans_lt few
  have pushed : Counted map (cache.order ++ [key]) := by
    intro other
    rw [← mapEq]
    by_cases same : other = key
    · rw [same, AList.lookup_insert, List.count_append, count_singleton_self, ← slotsCount]
      exact ⟨by change (slots + 1).toNat = _; bv_omega, by simp⟩
    · rw [AList.lookup_insert_ne same, List.count_append, count_singleton, mem_append,
        mem_singleton, or_iff_left same]
      simpa [Ne.symm same] using counted other
  have grown : map.keys.length = cache.map.keys.length + if key ∈ cache.map then 0 else 1 := by
    rw [← mapEq, AList.keys_insert, length_cons]
    split
    next member =>
        rw [length_erase_of_mem member]
        have := length_pos_of_mem member
        omega
    next absent => rw [erase_of_not_mem absent]
  obtain ⟨after, rest, evicted, left, spec⟩ := @evict_evicted _ _ _ _ _ cache.cap pushed (by
    split at grown <;> omega)
  have inserted : cache.insert key value = some ({ cache with map := after, order := rest }, evicted) := by
    rw [FifoCache.insert, slotsEq, mapEq]
    simp only [left, Option.map_some]
  refine ⟨_, _, inserted, rfl, ?_, ?_, spec.counted, ?_, ?_, ?_, ?_⟩
  · have := spec.size
    rcases spec.full with ⟨none, _⟩ | exact <;> split at grown <;> omega
  · intro some
    have absent : key ∉ cache.map := by
      intro member
      rw [if_pos member] at grown
      have := spec.size
      rcases spec.full with ⟨none, _⟩ | exact <;> omega
    rw [get, AList.lookup_eq_none.mpr absent, Option.map_none]
  · rw [map_append]
    exact spec.suffix.trans ((suffix_append_inj_of_length_eq rfl).mpr ⟨suffix, rfl⟩)
  · exact spec.counted.keys_length ▸ spec.within
  · rcases spec.full with ⟨none, same⟩ | exact
    · rcases full with full | all
      · left
        have := spec.counted.keys_length
        have := spec.size
        have := spec.within
        dsimp only
        split at grown <;> omega
      · right
        rw [map_append, same]
        exact append_subset.mpr ⟨subset_append_of_subset_left _ all,
          subset_append_right _ _⟩
    · exact Or.inl (spec.counted.keys_length.symm.trans exact)
  · intro other member
    rw [get, spec.values other member, ← mapEq, latest_append]
    by_cases same : other = key
    · rw [same, AList.lookup_insert, if_pos rfl]
      rfl
    · rw [AList.lookup_insert_ne same, if_neg (Ne.symm same)]
      rcases mem_append.mp (spec.suffix.subset member) with earlier | last
      · exact values other earlier
      · exact absurd (mem_singleton.mp last) same

theorem Holds.slots {entries : List (κ × ν)} {cache : FifoCache κ ν} (holds : Holds entries cache) :
    cache.order.length ≤ cache.cap * (2 ^ 32 - 1) := by
  have each : ∀ count ∈ cache.order.dedup.map (cache.order.count ·), count ≤ 2 ^ 32 - 1 := by
    intro count member
    obtain ⟨key, _, rfl⟩ := mem_map.mp member
    rw [← (holds.counted key).1]
    cases cache.map.lookup key with
    | none => exact Nat.zero_le _
    | some entry => exact Nat.le_pred_of_lt entry.2.isLt
  have sum := sum_le_card_nsmul _ _ each
  rw [sum_map_count_dedup_eq_length, length_map] at sum
  change _ ≤ cache.order.dedup.length * _ at sum
  exact sum.trans (Nat.mul_le_mul_right _ holds.within)

theorem Holds.live {entries : List (κ × ν)} {cache : FifoCache κ ν} (holds : Holds entries cache)
    (key : κ) (value : ν) : cache.get key = some value ↔
      key ∈ mostRecent cache.cap (entries.map Prod.fst) ∧ latest entries key = some value := by
  rw [mostRecent_eq holds.suffix holds.within holds.full, mem_dedup]
  by_cases member : key ∈ cache.order
  · rw [holds.values key member, and_iff_right member]
  · have absent : cache.map.lookup key = none := by
      simpa using (holds.counted key).2.not.mpr member
    simp [get, absent, member]

theorem run_append (cache : FifoCache κ ν) (calls : List (Call κ ν)) (call : Call κ ν) :
    cache.run (calls ++ [call]) = (cache.run calls).bind (·.step call) := by
  simp [run, foldlM_append]

/-- Under few enough inserts a key, every run ends in a cache that holds. -/
theorem run_holds (cap : Nat) (calls : List (Call κ ν))
    (few : ∀ key, ((inserts calls).map Prod.fst).count key < 2 ^ 32) :
    ∃ cache : FifoCache κ ν, (new cap).run calls = some cache ∧ cache.cap = max cap 1 ∧
      Holds (inserts calls) cache := by
  induction calls using List.reverseRecOn with
  | nil =>
    refine ⟨new cap, rfl, rfl, ?_, suffix_refl _, Nat.zero_le _, Or.inr (List.Subset.refl _), nofun⟩
    intro key
    simp [new]
  | append_singleton calls call ih =>
    cases call with
    | get key =>
      have same : inserts (calls ++ [.get key]) = inserts calls := by simp [inserts]
      rw [same] at few ⊢
      obtain ⟨cache, ran, spec⟩ := ih few
      exact ⟨cache, by rw [run_append, ran]; rfl, spec⟩
    | insert key value =>
      rw [inserts_append] at few ⊢
      simp only [map_append, map_cons, List.count_append] at few
      obtain ⟨cache, ran, capped, holds⟩ := ih fun other =>
        (Nat.le_add_right _ _).trans_lt (few other)
      have room := few key
      rw [count_cons_self] at room
      obtain ⟨after, evicted, inserted, same, _, _, kept⟩ := holds.insert key value (by omega)
      refine ⟨after, ?_, same.trans capped, kept⟩
      rw [run_append, ran, Option.bind_some, step, inserted, Option.map_some]

/-- The cache holds the latest values of the keys inserted most recently. -/
structure KeepsRecent (cap : Nat) (calls : List (Call κ ν)) (cache : FifoCache κ ν) : Prop where
  live : ∀ key value, cache.get key = some value ↔
    key ∈ mostRecent cap ((inserts calls).map Prod.fst) ∧ latest (inserts calls) key = some value
  slots : cache.order.length ≤ cap * (2 ^ 32 - 1)
  evictions : ∀ earlier key value later, calls = earlier ++ .insert key value :: later →
    ∃ before after evicted, (new cap).run earlier = some before ∧
      before.insert key value = some (after, evicted) ∧ evicted ≤ 1 ∧
        (evicted ≠ 0 → before.get key = none)

/-- A fresh cache keeps the most recent keys through every run of calls. -/
theorem run_keepsRecent (cap : Nat) (positive : 1 ≤ cap) (calls : List (Call κ ν))
    (few : ∀ key, ((inserts calls).map Prod.fst).count key < 2 ^ 32) :
    ∃ cache, (new cap).run calls = some cache ∧ KeepsRecent cap calls cache := by
  obtain ⟨cache, ran, capped, holds⟩ := run_holds cap calls few
  rw [Nat.max_eq_left positive] at capped
  refine ⟨cache, ran, capped ▸ holds.live, capped ▸ holds.slots, ?_⟩
  rintro earlier key value later rfl
  rw [inserts_append] at few
  simp only [map_append, map_cons, List.count_append] at few
  obtain ⟨before, ran, _, holds⟩ := run_holds cap earlier fun other =>
    (Nat.le_add_right _ _).trans_lt (few other)
  have room := few key
  rw [count_cons_self] at room
  obtain ⟨after, evicted, inserted, _, one, fresh, _⟩ := holds.insert key value (by omega)
  exact ⟨before, after, evicted, ran, inserted, one, fresh⟩

theorem run_keepsRecent_refreshed :
    ∃ cache, (new 2).run [.insert 1 10, .insert 2 20, .insert 1 11, .get 2, .insert 3 30] =
        some cache ∧
      KeepsRecent 2 [.insert 1 10, .insert 2 20, .insert 1 11, .get 2, .insert 3 30] cache ∧
      cache.get 1 = some 11 := by
  obtain ⟨cache, ran, keeps⟩ := run_keepsRecent 2 (by decide)
    [Call.insert 1 10, .insert 2 20, .insert 1 11, .get 2, .insert 3 30] (by
      intro key
      exact (count_le_length).trans_lt (by decide))
  exact ⟨cache, ran, keeps, (keeps.live 1 11).mpr (by decide)⟩

end FifoCache

end TorusHyperBft.Mempool
