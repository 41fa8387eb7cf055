import Mathlib

namespace TorusHyperBft

open List

/-! Keeping a stored map in step with a live one through a journal of touched keys.

The writer remembers which keys it has stored.  A drain looks at every touched key: a live
one is put, one that is gone is deleted if it had been stored, and one that came and went
between two drains is passed over. -/

universe u v w

variable {κ : Type u} {ν : Type v} {σ : Type w} [DecidableEq κ]

namespace WriteBehind

abbrev Ops (κ : Type u) (ν : Type v) := List (κ × Option ν)

def applyOps (stored : κ → Option ν) (ops : Ops κ ν) : κ → Option ν :=
  ops.foldl (fun stored op => Function.update stored op.1 op.2) stored

/-- What a drain carries along: the state the values are computed with, the keys known to be
stored, and the operations so far. -/
structure Drain (κ : Type u) (ν : Type v) (σ : Type w) where
  state : σ
  present : Finset κ
  ops : Ops κ ν := []

def Drain.visit (value : σ → κ → Option ν × σ) (drain : Drain κ ν σ) (key : κ) : Drain κ ν σ :=
  match value drain.state key with
  | (some found, state) =>
    { state, present := insert key drain.present, ops := drain.ops ++ [(key, some found)] }
  | (none, state) =>
    if key ∈ drain.present then
      { state, present := drain.present.erase key, ops := drain.ops ++ [(key, none)] }
    else { drain with state }

/-- The keys noted as present are those that are stored. -/
def Mirrors (present : Finset κ) (stored : κ → Option ν) : Prop :=
  ∀ key, key ∈ present ↔ (stored key).isSome

theorem applyOps_append (stored : κ → Option ν) (first second : Ops κ ν) :
    applyOps stored (first ++ second) = applyOps (applyOps stored first) second :=
  foldl_append

/-- The computed values are the live ones, and computing keeps the invariant. -/
def Computes (value : σ → κ → Option ν × σ) (live : κ → Option ν) (Inv : σ → Prop) : Prop :=
  ∀ state key, Inv state → (value state key).1 = live key ∧ Inv (value state key).2

section Visit

variable {value : σ → κ → Option ν × σ} {live : κ → Option ν} {Inv : σ → Prop}
  {stored : κ → Option ν} {drain : Drain κ ν σ}

variable (computes : Computes value live Inv)
include computes

theorem visit_inv (inv : Inv drain.state) (key : κ) : Inv (drain.visit value key).state := by
  have next := (computes drain.state key inv).2
  unfold Drain.visit
  generalize value drain.state key = outcome at next ⊢
  obtain ⟨found, state⟩ := outcome
  cases found with
  | some => exact next
  | none =>
    dsimp only
    split <;> exact next

theorem visit_ops (inv : Inv drain.state) (right : ∀ op ∈ drain.ops, op.2 = live op.1) (key : κ) :
    ∀ op ∈ (drain.visit value key).ops, op.2 = live op.1 := by
  have computed := (computes drain.state key inv).1
  unfold Drain.visit
  generalize value drain.state key = outcome at computed ⊢
  obtain ⟨found, state⟩ := outcome
  dsimp only at computed
  have added : ∀ op ∈ drain.ops ++ [(key, found)], op.2 = live op.1 := by
    intro op member
    rcases mem_append.mp member with old | new
    · exact right op old
    · rw [mem_singleton.mp new]
      exact computed
  cases found with
  | some => exact added
  | none =>
    dsimp only
    split
    · exact added
    · exact right

theorem visit_spec (inv : Inv drain.state)
    (mirrors : Mirrors drain.present (applyOps stored drain.ops))
    (key : κ) :
    applyOps stored (drain.visit value key).ops =
        Function.update (applyOps stored drain.ops) key (live key) ∧
      Mirrors (drain.visit value key).present (applyOps stored (drain.visit value key).ops) := by
  have computed := (computes drain.state key inv).1
  unfold Drain.visit
  generalize value drain.state key = outcome at computed ⊢
  obtain ⟨found, state⟩ := outcome
  dsimp only at computed
  subst computed
  cases now : live key with
  | some value =>
    refine ⟨applyOps_append _ _ _, fun other => ?_⟩
    dsimp only
    rw [applyOps_append, Finset.mem_insert]
    change _ ↔ (Function.update (applyOps stored drain.ops) key (some value) other).isSome
    by_cases same : other = key
    · subst same
      simp
    · rw [Function.update_of_ne same, ← mirrors other]
      simp [same]
  | none =>
    dsimp only
    by_cases known : key ∈ drain.present
    · rw [if_pos known]
      refine ⟨applyOps_append _ _ _, fun other => ?_⟩
      dsimp only
      rw [applyOps_append, Finset.mem_erase]
      change _ ↔ (Function.update (applyOps stored drain.ops) key none other).isSome
      by_cases same : other = key
      · subst same
        simp
      · rw [Function.update_of_ne same, ← mirrors other]
        simp [same]
    · rw [if_neg known]
      have absent : applyOps stored drain.ops key = none := by
        rw [← Option.not_isSome_iff_eq_none, ← mirrors key]
        exact known
      refine ⟨?_, mirrors⟩
      rw [← absent, Function.update_eq_self]

/-- Draining writes the live values of its keys and no other. -/
theorem drain_spec (inv : Inv drain.state)
    (mirrors : Mirrors drain.present (applyOps stored drain.ops))
    (keys : List κ) :
    (∀ key, applyOps stored (keys.foldl (Drain.visit value) drain).ops key =
        if key ∈ keys then live key else applyOps stored drain.ops key) ∧
      Mirrors (keys.foldl (Drain.visit value) drain).present
        (applyOps stored (keys.foldl (Drain.visit value) drain).ops) := by
  induction keys generalizing drain with
  | nil => exact ⟨fun _ => rfl, mirrors⟩
  | cons key keys ih =>
    obtain ⟨updated, nextMirrors⟩ := visit_spec computes inv mirrors key
    obtain ⟨applied, lastMirrors⟩ := ih (visit_inv computes inv key) nextMirrors
    refine ⟨fun other => ?_, lastMirrors⟩
    rw [foldl_cons, applied other, updated]
    by_cases later : other ∈ keys
    · simp [later]
    · by_cases same : other = key
      · simp [same]
      · simp [later, same]

theorem drain_ops (inv : Inv drain.state)
    (right : ∀ op ∈ drain.ops, op.2 = live op.1) (keys : List κ) :
    ∀ op ∈ (keys.foldl (Drain.visit value) drain).ops, op.2 = live op.1 := by
  induction keys generalizing drain with
  | nil => exact right
  | cons key keys ih => exact ih (visit_inv computes inv key) (visit_ops computes inv right key)

theorem drain_inv (inv : Inv drain.state) (keys : List κ) :
    Inv (keys.foldl (Drain.visit value) drain).state := by
  induction keys generalizing drain with
  | nil => exact inv
  | cons key keys ih => exact ih (visit_inv computes inv key)

theorem drain_exact {state : σ} (inv : Inv state)
    {present : Finset κ} (mirrors : Mirrors present stored)
    {keys : List κ} (behind : ∀ key, key ∉ keys → stored key = live key) :
    applyOps stored (keys.foldl (Drain.visit value) { state, present }).ops = live ∧
      Mirrors (keys.foldl (Drain.visit value) { state, present }).present live := by
  obtain ⟨applied, after⟩ := @drain_spec κ ν σ _ value live Inv stored { state, present }
    computes inv mirrors keys
  have exact : applyOps stored (keys.foldl (Drain.visit value) { state, present }).ops = live := by
    funext key
    rw [applied key]
    by_cases touched : key ∈ keys
    · rw [if_pos touched]
    · rw [if_neg touched]
      exact behind key touched
  rw [exact] at after
  exact ⟨exact, after⟩

omit computes

theorem drain_keys (value : σ → κ → Option ν × σ) (drain : Drain κ ν σ) (keys : List κ) :
    drain.ops ⊆ (keys.foldl (Drain.visit value) drain).ops ∧
      ∀ op ∈ (keys.foldl (Drain.visit value) drain).ops, op ∈ drain.ops ∨ op.1 ∈ drain.present ∨
        ∃ found, (op.1, some found) ∈ (keys.foldl (Drain.visit value) drain).ops := by
  induction keys generalizing drain with
  | nil => exact ⟨fun _ member => member, fun op member => Or.inl member⟩
  | cons key keys ih =>
    -- what is known to be stored after a visit was known before it, or has just been put
    have step : drain.ops ⊆ (drain.visit value key).ops ∧
        (∀ op ∈ (drain.visit value key).ops, op ∈ drain.ops ∨ op.1 ∈ drain.present ∨
          ∃ found, (op.1, some found) ∈ (drain.visit value key).ops) ∧
        ∀ other ∈ (drain.visit value key).present, other ∈ drain.present ∨
          ∃ found, (other, some found) ∈ (drain.visit value key).ops := by
      unfold Drain.visit
      generalize value drain.state key = outcome
      obtain ⟨found, state⟩ := outcome
      cases found with
      | some found =>
        refine ⟨subset_append_left _ _, fun op member => ?_, fun other member => ?_⟩
        · rcases mem_append.mp member with old | new
          · exact Or.inl old
          · rw [mem_singleton.mp new]
            exact Or.inr (Or.inr ⟨found, mem_append_right _ (mem_singleton.mpr rfl)⟩)
        · rcases Finset.mem_insert.mp member with rfl | old
          · exact Or.inr ⟨found, mem_append_right _ (mem_singleton.mpr rfl)⟩
          · exact Or.inl old
      | none =>
        dsimp only
        split
        · rename_i known
          refine ⟨subset_append_left _ _, fun op member => ?_, fun other member =>
            Or.inl (Finset.mem_of_mem_erase member)⟩
          rcases mem_append.mp member with old | new
          · exact Or.inl old
          · rw [mem_singleton.mp new]
            exact Or.inr (Or.inl known)
        · exact ⟨fun _ member => member, fun op member => Or.inl member,
            fun other member => Or.inl member⟩
    obtain ⟨kept, named, known⟩ := step
    obtain ⟨keptLater, namedLater⟩ := ih (drain.visit value key)
    refine ⟨fun op member => keptLater (kept member), fun op member => ?_⟩
    rcases namedLater op member with early | stored | put
    · rcases named op early with old | stored | ⟨found, put⟩
      · exact Or.inl old
      · exact Or.inr (Or.inl stored)
      · exact Or.inr (Or.inr ⟨found, keptLater put⟩)
    · rcases known op.1 stored with old | ⟨found, put⟩
      · exact Or.inr (Or.inl old)
      · exact Or.inr (Or.inr ⟨found, keptLater put⟩)
    · exact Or.inr (Or.inr put)

end Visit

theorem applyOps_absent {stored : κ → Option ν} {ops : Ops κ ν} {key : κ}
    (absent : ∀ op ∈ ops, op.1 ≠ key) : applyOps stored ops key = stored key := by
  induction ops generalizing stored with
  | nil => rfl
  | cons op ops ih =>
    refine (ih fun later member => absent later (mem_cons_of_mem _ member)).trans ?_
    exact Function.update_of_ne (absent op mem_cons_self).symm _ _

section Embed

variable {ι : Type u} {μ : Type v} [DecidableEq ι]

theorem applyOps_embed {embed : κ → ι} (injective : Function.Injective embed) (encode : ν → μ)
    {stored : κ → Option ν} {whole : ι → Option μ}
    (part : ∀ key, whole (embed key) = (stored key).map encode) (ops : Ops κ ν) :
    (∀ key, applyOps whole (ops.map fun op => (embed op.1, op.2.map encode)) (embed key) =
        (applyOps stored ops key).map encode) ∧
      ∀ other, (∀ key, other ≠ embed key) →
        applyOps whole (ops.map fun op => (embed op.1, op.2.map encode)) other = whole other := by
  induction ops generalizing stored whole with
  | nil => exact ⟨part, fun _ _ => rfl⟩
  | cons op ops ih =>
    have next : ∀ key, Function.update whole (embed op.1) (op.2.map encode) (embed key) =
        (Function.update stored op.1 op.2 key).map encode := by
      intro key
      by_cases same : key = op.1
      · subst same
        rw [Function.update_self, Function.update_self]
      · rw [Function.update_of_ne same, Function.update_of_ne (injective.ne same), part]
    obtain ⟨inside, outside⟩ := ih next
    refine ⟨inside, fun other apart => ?_⟩
    refine (outside other apart).trans ?_
    exact Function.update_of_ne (apart op.1) _ _

end Embed

end WriteBehind

end TorusHyperBft
