import TorusHyperBft.State.Merge

namespace TorusHyperBft.State

open OrderedMap

/-! Layers of writes and tombstones for one column family, and the streams they are read as. -/

universe u v

variable {κ : Type u} {ν : Type v} [LinearOrder κ]

/-- The pending writes and the tombstones of one column family, each by ascending key. -/
structure CfPending (κ : Type u) (ν : Type v) [LinearOrder κ] where
  writes : OrderedMap κ ν := .empty
  deletes : OrderedMap κ Unit := .empty

namespace CfPending

def isEmpty (cf : CfPending κ ν) : Bool := cf.writes.entries.isEmpty && cf.deletes.entries.isEmpty

def put (cf : CfPending κ ν) (key : κ) (value : ν) : CfPending κ ν where
  writes := cf.writes.insert key value
  deletes := cf.deletes.erase key

def delete (cf : CfPending κ ν) (key : κ) : CfPending κ ν where
  writes := cf.writes.erase key
  deletes := cf.deletes.insert key ()

def entry (cf : CfPending κ ν) (key : κ) : Option (Option ν) :=
  if (cf.deletes.lookup key).isSome then some none else (cf.writes.lookup key).map some

theorem entry_put (cf : CfPending κ ν) (key other : κ) (value : ν) :
    (cf.put key value).entry other = if other = key then some (some value) else cf.entry other := by
  by_cases same : other = key
  · simp [entry, put, lookup_insert, lookup_erase, same]
  · simp [entry, put, lookup_insert, lookup_erase, same]

theorem entry_delete (cf : CfPending κ ν) (key other : κ) :
    (cf.delete key).entry other = if other = key then some none else cf.entry other := by
  by_cases same : other = key
  · simp [entry, delete, lookup_insert, same]
  · simp [entry, delete, lookup_insert, lookup_erase, same]

/-- No deleted key is also written. -/
def Disjoint (cf : CfPending κ ν) : Prop :=
  ∀ key, (cf.deletes.lookup key).isSome → cf.writes.lookup key = none

end CfPending

/-- The merge of writes and tombstones into one stream; of a key in both the tombstone is reported. -/
def cfStream : List (κ × ν) → List (κ × Unit) → List (κ × Option ν)
  | [], deletes => deletes.map fun delete => (delete.1, none)
  | writes, [] => writes.map fun write => (write.1, some write.2)
  | write :: writes, delete :: deletes =>
    if write.1 < delete.1 then (write.1, some write.2) :: cfStream writes (delete :: deletes)
    else if write.1 = delete.1 then (delete.1, none) :: cfStream writes deletes
    else (delete.1, none) :: cfStream (write :: writes) deletes
termination_by writes deletes => writes.length + deletes.length

def CfPending.stream (cf : CfPending κ ν) : List (κ × Option ν) :=
  cfStream cf.writes.entries cf.deletes.entries

variable {key : κ}

section Stream

variable {writes : List (κ × ν)} {deletes : List (κ × Unit)}

theorem mem_cfStream (writesAscend : Ascends writes) (deletesAscend : Ascends deletes)
    {value : Option ν} : (key, value) ∈ cfStream writes deletes ↔
      (value = none ∧ (key, ()) ∈ deletes) ∨
        ∃ written, value = some written ∧ (key, written) ∈ writes ∧ (key, ()) ∉ deletes := by
  fun_induction cfStream writes deletes with
  | case1 deletes =>
    simp only [List.mem_map, Prod.mk.injEq, List.not_mem_nil]
    constructor
    · rintro ⟨⟨key, mark⟩, inside, rfl, rfl⟩
      exact .inl ⟨rfl, inside⟩
    · rintro (⟨rfl, inside⟩ | ⟨written, _, absurdity, _⟩)
      · exact ⟨_, inside, rfl, rfl⟩
      · exact absurdity.elim
  | case2 writes nonempty =>
    simp only [List.mem_map, Prod.mk.injEq, List.not_mem_nil]
    constructor
    · rintro ⟨⟨key, written⟩, inside, rfl, rfl⟩
      exact .inr ⟨written, rfl, inside, not_false⟩
    · rintro (⟨_, absurdity⟩ | ⟨written, rfl, inside, _⟩)
      · exact absurdity.elim
      · exact ⟨_, inside, rfl, rfl⟩
  | case3 write writes delete deletes before ih =>
    have laterWrites := List.pairwise_cons.mp writesAscend
    have laterDeletes := List.pairwise_cons.mp deletesAscend
    have notDeleted : (write.1, ()) ∉ delete :: deletes := by
      intro inside
      rcases List.mem_cons.mp inside with same | later
      · exact absurd before (same ▸ lt_irrefl _)
      · exact lt_asymm before (laterDeletes.1 _ later)
    rw [List.mem_cons, ih laterWrites.2 deletesAscend]
    constructor
    · rintro (same | deleted | ⟨written, rfl, inside, kept⟩)
      · cases same
        exact .inr ⟨write.2, rfl, List.mem_cons_self, notDeleted⟩
      · exact .inl deleted
      · exact .inr ⟨written, rfl, List.mem_cons_of_mem _ inside, kept⟩
    · rintro (deleted | ⟨written, rfl, inside, kept⟩)
      · exact .inr (.inl deleted)
      · rcases List.mem_cons.mp inside with rfl | later
        · exact .inl rfl
        · exact .inr (.inr ⟨written, rfl, later, kept⟩)
  | case4 write writes delete deletes notBefore same ih =>
    have laterWrites := List.pairwise_cons.mp writesAscend
    have laterDeletes := List.pairwise_cons.mp deletesAscend
    rw [List.mem_cons, ih laterWrites.2 laterDeletes.2]
    constructor
    · rintro (here | ⟨rfl, deleted⟩ | ⟨written, rfl, inside, kept⟩)
      · cases here
        exact .inl ⟨rfl, List.mem_cons_self⟩
      · exact .inl ⟨rfl, List.mem_cons_of_mem _ deleted⟩
      · refine .inr ⟨written, rfl, List.mem_cons_of_mem _ inside, ?_⟩
        intro deleted
        rcases List.mem_cons.mp deleted with here | later
        · exact absurd (laterWrites.1 _ inside) (by rw [same, ← here]; exact lt_irrefl _)
        · exact kept later
    · rintro (⟨rfl, deleted⟩ | ⟨written, rfl, inside, kept⟩)
      · rcases List.mem_cons.mp deleted with here | later
        · exact .inl (by rw [← here])
        · exact .inr (.inl ⟨rfl, later⟩)
      · rw [List.mem_cons, not_or] at kept
        rcases List.mem_cons.mp inside with rfl | later
        · exact (kept.1 (Prod.ext same rfl)).elim
        · exact .inr (.inr ⟨written, rfl, later, kept.2⟩)
  | case5 write writes delete deletes notBefore different ih =>
    have laterWrites := List.pairwise_cons.mp writesAscend
    have laterDeletes := List.pairwise_cons.mp deletesAscend
    have above : delete.1 < write.1 := lt_of_le_of_ne (not_lt.mp notBefore) (Ne.symm different)
    rw [List.mem_cons, ih writesAscend laterDeletes.2]
    constructor
    · rintro (here | ⟨rfl, deleted⟩ | ⟨written, rfl, inside, kept⟩)
      · cases here
        exact .inl ⟨rfl, List.mem_cons_self⟩
      · exact .inl ⟨rfl, List.mem_cons_of_mem _ deleted⟩
      · refine .inr ⟨written, rfl, inside, ?_⟩
        intro deleted
        rcases List.mem_cons.mp deleted with here | later
        · have least := Ascends.head_le writesAscend _ inside
          rw [show key = delete.1 from congrArg Prod.fst here] at least
          exact absurd above (not_lt.mpr least)
        · exact kept later
    · rintro (⟨rfl, deleted⟩ | ⟨written, rfl, inside, kept⟩)
      · rcases List.mem_cons.mp deleted with here | later
        · exact .inl (by rw [← here])
        · exact .inr (.inl ⟨rfl, later⟩)
      · rw [List.mem_cons, not_or] at kept
        exact .inr (.inr ⟨written, rfl, inside, kept.2⟩)

theorem cfStream_ascends (writesAscend : Ascends writes) (deletesAscend : Ascends deletes) :
    Ascends (cfStream writes deletes) := by
  have keys : ∀ {writes : List (κ × ν)} {deletes : List (κ × Unit)}, Ascends writes → Ascends deletes →
      ∀ item ∈ cfStream writes deletes,
        (∃ write ∈ writes, write.1 = item.1) ∨ ∃ delete ∈ deletes, delete.1 = item.1 := by
    rintro writes deletes writesAscend deletesAscend ⟨key, value⟩ inside
    rcases (mem_cfStream writesAscend deletesAscend).mp inside with ⟨_, deleted⟩ | ⟨written, _, inWrites, _⟩
    · exact .inr ⟨_, deleted, rfl⟩
    · exact .inl ⟨_, inWrites, rfl⟩
  fun_induction cfStream writes deletes with
  | case1 deletes => exact List.pairwise_map.mpr deletesAscend
  | case2 writes nonempty => exact List.pairwise_map.mpr writesAscend
  | case3 write writes delete deletes before ih =>
    have laterWrites := List.pairwise_cons.mp writesAscend
    refine List.pairwise_cons.mpr ⟨?_, ih laterWrites.2 deletesAscend⟩
    intro item inside
    rcases keys laterWrites.2 deletesAscend item inside with ⟨other, later, same⟩ | ⟨other, later, same⟩
    · exact same ▸ laterWrites.1 other later
    · exact same ▸ lt_of_lt_of_le before (Ascends.head_le deletesAscend other later)
  | case4 write writes delete deletes notBefore same ih =>
    have laterWrites := List.pairwise_cons.mp writesAscend
    have laterDeletes := List.pairwise_cons.mp deletesAscend
    refine List.pairwise_cons.mpr ⟨?_, ih laterWrites.2 laterDeletes.2⟩
    intro item inside
    rcases keys laterWrites.2 laterDeletes.2 item inside with ⟨other, later, key⟩ | ⟨other, later, key⟩
    · exact key ▸ same ▸ laterWrites.1 other later
    · exact key ▸ laterDeletes.1 other later
  | case5 write writes delete deletes notBefore different ih =>
    have laterDeletes := List.pairwise_cons.mp deletesAscend
    have above : delete.1 < write.1 := lt_of_le_of_ne (not_lt.mp notBefore) (Ne.symm different)
    refine List.pairwise_cons.mpr ⟨?_, ih writesAscend laterDeletes.2⟩
    intro item inside
    rcases keys writesAscend laterDeletes.2 item inside with ⟨other, later, key⟩ | ⟨other, later, key⟩
    · exact key ▸ lt_of_lt_of_le above (Ascends.head_le writesAscend other later)
    · exact key ▸ laterDeletes.1 other later

namespace CfPending

theorem mem_stream {cf : CfPending κ ν} {value : Option ν} :
    (key, value) ∈ cf.stream ↔ cf.entry key = some value := by
  unfold stream entry
  rw [mem_cfStream cf.writes.ascends cf.deletes.ascends, ← lookup_eq_some]
  cases deleted : cf.deletes.lookup key with
  | some mark =>
    simp [eq_comm]
  | none =>
    simp only [reduceCtorEq, and_false, not_false_eq_true, and_true, false_or, Option.isSome_none,
      Bool.false_eq_true, if_false, Option.map_eq_some_iff, lookup_eq_some]
    constructor
    · rintro ⟨written, rfl, inside⟩
      exact ⟨written, inside, rfl⟩
    · rintro ⟨written, inside, rfl⟩
      exact ⟨written, rfl, inside⟩

theorem stream_ascends (cf : CfPending κ ν) : Ascends cf.stream :=
  cfStream_ascends cf.writes.ascends cf.deletes.ascends

theorem find_stream (cf : CfPending κ ν) (key : κ) :
    (cf.stream.find? fun item => item.1 = key).map Prod.snd = cf.entry key := by
  apply Option.ext
  intro value
  rw [← mem_stream, Option.map_eq_some_iff]
  constructor
  · rintro ⟨item, found, rfl⟩
    have same := List.find?_some found
    rw [decide_eq_true_eq] at same
    rw [← same]
    exact List.mem_of_find?_eq_some found
  · intro inside
    have some : (cf.stream.find? fun item => item.1 = key).isSome :=
      List.find?_isSome.mpr ⟨_, inside, decide_eq_true rfl⟩
    obtain ⟨item, found⟩ := Option.isSome_iff_exists.mp some
    have same := List.find?_some found
    rw [decide_eq_true_eq] at same
    refine ⟨item, found, ?_⟩
    rw [cf.stream_ascends.key_unique (List.mem_of_find?_eq_some found) inside same]

theorem entry_of_isEmpty {cf : CfPending κ ν} (empty : cf.isEmpty) (key : κ) :
    cf.entry key = none := by
  unfold isEmpty at empty
  rw [Bool.and_eq_true, List.isEmpty_iff, List.isEmpty_iff] at empty
  simp [entry, OrderedMap.lookup, empty.1, empty.2]

end CfPending

end Stream

def bestHead (streams : List (List (κ × ν))) : Option (κ × ν) :=
  streams.foldl (fun best stream =>
    match stream.head? with
    | none => best
    | some head =>
      match best with
      | none => some head
      | some other => if head.1 ≤ other.1 then some head else some other) none

/-- The streams merged: every key once, in ascending order, with the entry of the last stream that
has it. -/
def mergeStreams : Nat → List (List (κ × ν)) → List (κ × ν)
  | 0, _ => []
  | fuel + 1, streams =>
    match bestHead streams with
    | none => []
    | some best => best :: mergeStreams fuel (streams.map (advance best.1))

def lastEntry (streams : List (List (κ × ν))) (key : κ) : Option ν :=
  streams.foldl (fun found stream => ((stream.find? fun item => item.1 = key).map Prod.snd).or found)
    none

section Heads

variable {streams : List (List (κ × ν))} {best : κ × ν}

theorem bestHead_append (streams : List (List (κ × ν))) (last : List (κ × ν)) :
    bestHead (streams ++ [last]) = match last.head? with
      | none => bestHead streams
      | some head =>
        match bestHead streams with
        | none => some head
        | some other => if head.1 ≤ other.1 then some head else some other := by
  unfold bestHead
  rw [List.foldl_append]
  rfl

theorem lastEntry_append (streams : List (List (κ × ν))) (last : List (κ × ν)) (key : κ) :
    lastEntry (streams ++ [last]) key =
      ((last.find? fun item => item.1 = key).map Prod.snd).or (lastEntry streams key) := by
  unfold lastEntry
  rw [List.foldl_append]
  rfl

theorem bestHead_none (none : bestHead streams = none) : ∀ stream ∈ streams, stream = [] := by
  induction streams using List.reverseRecOn with
  | nil => simp
  | append_singleton streams last ih =>
    rw [bestHead_append] at none
    cases last with
    | nil =>
      intro stream member
      rcases List.mem_append.mp member with before | here
      · exact ih none stream before
      · exact List.mem_singleton.mp here
    | cons head rest =>
      dsimp only [List.head?_cons] at none
      cases least : bestHead streams with
      | none => simp [least] at none
      | some other =>
        simp only [least] at none
        split at none <;> cases none

theorem bestHead_le (ascend : ∀ stream ∈ streams, Ascends stream)
    (found : bestHead streams = some best) :
    ∀ stream ∈ streams, ∀ item ∈ stream, best.1 ≤ item.1 := by
  induction streams using List.reverseRecOn generalizing best with
  | nil => simp
  | append_singleton streams last ih =>
    have before : ∀ stream ∈ streams, Ascends stream :=
      fun stream member => ascend stream (List.mem_append_left _ member)
    have here := ascend last (List.mem_append_right _ (List.mem_singleton.mpr rfl))
    rw [bestHead_append] at found
    intro stream member item inside
    cases last with
    | nil =>
      rcases List.mem_append.mp member with held | held
      · exact ih before found stream held item inside
      · rw [List.mem_singleton.mp held] at inside
        cases inside
    | cons head rest =>
      have least := Ascends.head_le here
      dsimp only [List.head?_cons] at found
      cases lower : bestHead streams with
      | none =>
        simp only [lower, Option.some.injEq] at found
        subst found
        rcases List.mem_append.mp member with held | held
        · rw [bestHead_none lower stream held] at inside
          cases inside
        · rw [List.mem_singleton.mp held] at inside
          exact least item inside
      | some other =>
        have below := ih before lower
        simp only [lower] at found
        split at found
        · rename_i first
          cases found
          rcases List.mem_append.mp member with held | held
          · exact first.trans (below stream held item inside)
          · rw [List.mem_singleton.mp held] at inside
            exact least item inside
        · rename_i later
          cases found
          rcases List.mem_append.mp member with held | held
          · exact below stream held item inside
          · rw [List.mem_singleton.mp held] at inside
            exact (le_of_lt (not_le.mp later)).trans (least item inside)

theorem bestHead_lastEntry (ascend : ∀ stream ∈ streams, Ascends stream)
    (found : bestHead streams = some best) : lastEntry streams best.1 = some best.2 := by
  induction streams using List.reverseRecOn generalizing best with
  | nil => cases found
  | append_singleton streams last ih =>
    have before : ∀ stream ∈ streams, Ascends stream :=
      fun stream member => ascend stream (List.mem_append_left _ member)
    have here := ascend last (List.mem_append_right _ (List.mem_singleton.mpr rfl))
    rw [bestHead_append] at found
    rw [lastEntry_append]
    cases last with
    | nil =>
      rw [ih before found]
      rfl
    | cons head rest =>
      dsimp only [List.head?_cons] at found
      cases lower : bestHead streams with
      | none =>
        simp only [lower, Option.some.injEq] at found
        subst found
        simp
      | some other =>
        simp only [lower] at found
        split at found
        · cases found
          simp
        · rename_i later
          cases found
          have absent : (head :: rest).find? (fun item => item.1 = best.1) = none := by
            rw [List.find?_eq_none]
            intro item inside same
            have least := Ascends.head_le here item inside
            rw [of_decide_eq_true same] at least
            exact later least
          rw [absent]
          exact ih before lower

theorem find_advance {stream : List (κ × ν)} {key other : κ} (different : other ≠ key) :
    (advance key stream).find? (fun item => item.1 = other) =
      stream.find? fun item => item.1 = other := by
  cases stream with
  | nil => rfl
  | cons head rest =>
    by_cases same : head.1 = key
    · simp [advance, same, Ne.symm different]
    · simp [advance, same]

theorem lastEntry_advance {key other : κ} (different : other ≠ key) :
    lastEntry (streams.map (advance key)) other = lastEntry streams other := by
  unfold lastEntry
  rw [List.foldl_map]
  simp only [find_advance different]

theorem lastEntry_absent (absent : ∀ stream ∈ streams, ∀ item ∈ stream, item.1 ≠ key) :
    lastEntry streams key = none := by
  induction streams using List.reverseRecOn with
  | nil => rfl
  | append_singleton streams last ih =>
    have missing : last.find? (fun item => item.1 = key) = none := by
      rw [List.find?_eq_none]
      intro item inside same
      exact absent last (List.mem_append_right _ (List.mem_singleton.mpr rfl)) item inside
        (of_decide_eq_true same)
    rw [lastEntry_append, missing]
    exact ih fun stream member => absent stream (List.mem_append_left _ member)

theorem bestHead_head (found : bestHead streams = some best) :
    ∃ stream ∈ streams, stream.head? = some best := by
  induction streams using List.reverseRecOn generalizing best with
  | nil => cases found
  | append_singleton streams last ih =>
    have lower : ∀ {best : κ × ν}, bestHead streams = some best →
        ∃ stream ∈ streams ++ [last], stream.head? = some best := by
      intro best found
      obtain ⟨stream, member, head⟩ := ih found
      exact ⟨stream, List.mem_append_left _ member, head⟩
    have here : ∀ {best : κ × ν}, last.head? = some best →
        ∃ stream ∈ streams ++ [last], stream.head? = some best :=
      fun head => ⟨last, List.mem_append_right _ (List.mem_singleton.mpr rfl), head⟩
    rw [bestHead_append] at found
    cases first : last.head? with
    | none =>
      simp only [first] at found
      exact lower found
    | some head =>
      cases least : bestHead streams with
      | none =>
        simp only [first, least] at found
        exact here (first.trans found)
      | some other =>
        simp only [first, least] at found
        split at found
        · exact here (first.trans found)
        · exact lower (least.trans found)

theorem remaining_best (found : bestHead streams = some best) :
    remaining (streams.map (advance best.1)) < remaining streams := by
  obtain ⟨stream, member, head⟩ := bestHead_head found
  have shorter : (advance best.1 stream).length < stream.length := by
    cases stream with
    | nil => cases head
    | cons first rest =>
      cases head
      simp [advance]
  obtain ⟨before, after, rfl⟩ := List.append_of_mem member
  have beforeLe := @remaining_advance_le _ _ _ before best.1
  have afterLe := @remaining_advance_le _ _ _ after best.1
  simp only [remaining, List.map_append, List.map_cons, List.sum_append, List.sum_cons] at *
  omega

theorem lastEntry_mem {value : ν} (found : lastEntry streams key = some value) :
    ∃ stream ∈ streams, (key, value) ∈ stream := by
  induction streams using List.reverseRecOn with
  | nil => cases found
  | append_singleton streams last ih =>
    rw [lastEntry_append] at found
    cases here : last.find? fun item => item.1 = key with
    | none =>
      rw [here] at found
      obtain ⟨stream, member, inside⟩ := ih found
      exact ⟨stream, List.mem_append_left _ member, inside⟩
    | some item =>
      rw [here] at found
      cases found
      have same := List.find?_some here
      rw [decide_eq_true_eq] at same
      refine ⟨last, List.mem_append_right _ (List.mem_singleton.mpr rfl), ?_⟩
      rw [← same]
      exact List.mem_of_find?_eq_some here

end Heads

section Merged

variable {streams : List (List (κ × ν))} {fuel : Nat}

theorem mem_mergeStreams (ascend : ∀ stream ∈ streams, Ascends stream)
    (enough : remaining streams ≤ fuel) {value : ν} :
    (key, value) ∈ mergeStreams fuel streams ↔ lastEntry streams key = some value := by
  induction fuel generalizing streams with
  | zero =>
    have empty : ∀ stream ∈ streams, stream = [] := by
      intro stream member
      have least := List.single_le_sum (fun _ _ => Nat.zero_le _) _
        (List.mem_map_of_mem (f := List.length) member)
      exact List.length_eq_zero_iff.mp (Nat.le_zero.mp (least.trans enough))
    rw [lastEntry_absent fun stream member item inside => by
      rw [empty stream member] at inside
      cases inside]
    simp [mergeStreams]
  | succ fuel ih =>
    unfold mergeStreams
    cases found : bestHead streams with
    | none =>
      rw [lastEntry_absent fun stream member item inside => by
        rw [bestHead_none found stream member] at inside
        cases inside]
      simp
    | some best =>
      have less := remaining_best found
      have rest := ih (@advance_ascends _ _ _ _ best.1 ascend)
        (Nat.le_of_lt_succ (lt_of_lt_of_le less enough))
      have first := bestHead_lastEntry ascend found
      dsimp only
      rw [List.mem_cons, rest]
      by_cases same : key = best.1
      · subst same
        have gone : lastEntry (streams.map (advance best.1)) best.1 = none := by
          apply lastEntry_absent
          intro stream member item inside
          obtain ⟨before, held, rfl⟩ := List.mem_map.mp member
          exact ((mem_advance (ascend before held) (bestHead_le ascend found before held)).mp
            inside).2
        rw [gone, first]
        simp [Prod.ext_iff, eq_comm]
      · rw [lastEntry_advance same]
        simp [Prod.ext_iff, same]

theorem mergeStreams_ascends (ascend : ∀ stream ∈ streams, Ascends stream)
    (enough : remaining streams ≤ fuel) : Ascends (mergeStreams fuel streams) := by
  induction fuel generalizing streams with
  | zero => exact List.Pairwise.nil
  | succ fuel ih =>
    unfold mergeStreams
    cases found : bestHead streams with
    | none => exact List.Pairwise.nil
    | some best =>
      have stepped := @advance_ascends _ _ _ _ best.1 ascend
      have fits := Nat.le_of_lt_succ (lt_of_lt_of_le (remaining_best found) enough)
      refine List.pairwise_cons.mpr ⟨?_, ih stepped fits⟩
      rintro ⟨key, value⟩ inside
      obtain ⟨stream, member, held⟩ := lastEntry_mem ((mem_mergeStreams stepped fits).mp inside)
      obtain ⟨before, was, rfl⟩ := List.mem_map.mp member
      have kept := (mem_advance (ascend before was) (bestHead_le ascend found before was)).mp held
      exact lt_of_le_of_ne (bestHead_le ascend found before was _ kept.1) (Ne.symm kept.2)

end Merged

end TorusHyperBft.State
