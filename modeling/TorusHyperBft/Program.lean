import Mathlib
namespace TorusHyperBft.Program

/-! Runs of stateful programs that may fail and keep their writes.

A program is taken apart along its binds: each part of a successful run succeeds. -/

universe u v w

theorem bind_eq_ok {ε α β : Type} {step : Except ε α} {next : α → Except ε β} {value : β} :
    (step >>= next) = .ok value ↔ ∃ middle, step = .ok middle ∧ next middle = .ok value := by
  cases step with
  | error reason => simp [bind, Except.bind]
  | ok middle => simp [bind, Except.bind]

theorem guard_eq_ok {ε α : Type} {bad : Prop} [Decidable bad] {reason : ε} {rest : Except ε α}
    {value : α} : (if bad then .error reason else rest) = .ok value ↔ ¬ bad ∧ rest = .ok value := by
  split
  · simp [*]
  · simp [*]

variable {ε σ α β : Type u} {before after : σ} {value : β} {second : α → EStateM ε σ β}

variable {first : EStateM ε σ α}

theorem bind_ok (ran : (first >>= second) before = .ok value after) :
    ∃ part middle, first before = .ok part middle ∧ second part middle = .ok value after := by
  change EStateM.bind first second before = _ at ran
  unfold EStateM.bind at ran
  split at ran
  · rename_i part middle done
    exact ⟨part, middle, done, ran⟩
  · cases ran

theorem bind_eq {part : α} {middle : σ}
    (done : first before = .ok part middle) : (first >>= second) before = second part middle := by
  change EStateM.bind first second before = _
  simp [EStateM.bind, done]

theorem bind_error {error : ε} {middle : σ} (failed : first before = .error error middle) :
    (first >>= second) before = .error error middle := by
  change EStateM.bind first second before = _
  simp [EStateM.bind, failed]

theorem get_bind (next : σ → EStateM ε σ β) :
    ((get : EStateM ε σ σ) >>= next) before = next before before := rfl

theorem modify_bind (change : σ → σ) (next : PUnit → EStateM ε σ β) :
    ((modify change : EStateM ε σ PUnit) >>= next) before = next ⟨⟩ (change before) := rfl

theorem modify_eq (change : σ → σ) :
    (modify change : EStateM ε σ PUnit) before = .ok ⟨⟩ (change before) := rfl

theorem pure_eq : (pure value : EStateM ε σ β) before = .ok value before := rfl

/-- The program fails and writes nothing, or ends as said. -/
def Settles (program : EStateM ε σ α) (before : σ) (ends : α → σ → Prop) : Prop :=
  (∃ error, program before = .error error before) ∨
    ∃ value after, program before = .ok value after ∧ ends value after

variable {condition : Prop}

section Settles

variable {program other : EStateM ε σ α} {ends : α → σ → Prop}

theorem settles_throw (error : ε) : Settles (throw error : EStateM ε σ α) before ends :=
  .inl ⟨error, rfl⟩

theorem settles_of_ok {value : α} {after : σ} (ran : program before = .ok value after)
    (reached : ends value after) : Settles program before ends :=
  .inr ⟨value, after, ran, reached⟩

theorem settles_ite [Decidable condition] (yes : condition → Settles program before ends)
    (no : ¬ condition → Settles other before ends) :
    Settles (if condition then program else other) before ends := by
  by_cases is : condition
  · rw [if_pos is]
    exact yes is
  · rw [if_neg is]
    exact no is

theorem settles_guard [Decidable condition] {error : ε}
    (no : ¬ condition → Settles other before ends) :
    Settles (if condition then throw error else other) before ends :=
  settles_ite (fun _ => settles_throw error) no

theorem settles_get {next : σ → EStateM ε σ α} (rest : Settles (next before) before ends) :
    Settles (get >>= next) before ends := rest

theorem settles_bind {β : Type u} {first : EStateM ε σ β} {next : β → EStateM ε σ α}
    {between : β → σ → Prop} (settles : Settles first before between)
    (rest : ∀ part middle, between part middle →
      ∃ value after, next part middle = .ok value after ∧ ends value after) :
    Settles (first >>= next) before ends := by
  rcases settles with ⟨error, failed⟩ | ⟨part, middle, done, holds⟩
  · exact .inl ⟨error, bind_error failed⟩
  · obtain ⟨value, after, ran, reached⟩ := rest part middle holds
    exact .inr ⟨value, after, (bind_eq done).trans ran, reached⟩

theorem settles_bind_read {β : Type u} {first : EStateM ε σ β} {next : β → EStateM ε σ α}
    {reads : β → Prop} (settles : Settles first before fun part middle => middle = before ∧ reads part)
    (rest : ∀ part, reads part → Settles (next part) before ends) :
    Settles (first >>= next) before ends := by
  rcases settles with ⟨error, failed⟩ | ⟨part, middle, done, rfl, holds⟩
  · exact .inl ⟨error, bind_error failed⟩
  · unfold Settles
    rw [bind_eq done]
    exact rest part holds

theorem Settles.imp {stronger : α → σ → Prop} (settles : Settles program before stronger)
    (weaken : ∀ value after, stronger value after → ends value after) :
    Settles program before ends := by
  rcases settles with failed | ⟨value, after, ran, holds⟩
  · exact .inl failed
  · exact .inr ⟨value, after, ran, weaken value after holds⟩

end Settles

def final (program : EStateM ε σ α) (before : σ) : σ :=
  match program before with
  | .ok _ after => after
  | .error _ after => after

theorem final_discard (program : EStateM ε σ α) :
    final (do let _ ← program) before = final program before := by
  unfold final
  cases ran : program before with
  | ok value after => rw [bind_eq ran]; rfl
  | error error after => rw [bind_error ran]

/-- The predicate survives the program, also where it fails. -/
def Keeps (holds : σ → Prop) (program : EStateM ε σ α) : Prop :=
  ∀ before, holds before → holds (final program before)

section Keeps

variable {holds : σ → Prop} {program other : EStateM ε σ α}

theorem keeps_pure (value : α) : Keeps holds (pure value : EStateM ε σ α) := fun _ held => held

theorem keeps_throw (error : ε) : Keeps holds (throw error : EStateM ε σ α) := fun _ held => held

theorem keeps_modify {change : σ → σ} (kept : ∀ before, holds before → holds (change before)) :
    Keeps holds (modify change : EStateM ε σ PUnit) := kept

theorem keeps_set {after : σ} (held : holds after) :
    Keeps holds (set after : EStateM ε σ PUnit) := fun _ _ => held

theorem keeps_get {next : σ → EStateM ε σ α}
    (rest : ∀ state, holds state → Keeps holds (next state)) : Keeps holds (get >>= next) :=
  fun before held => rest before held before held

theorem keeps_bind {β : Type u} {first : EStateM ε σ β} {next : β → EStateM ε σ α}
    (begins : Keeps holds first) (rest : ∀ part, Keeps holds (next part)) :
    Keeps holds (first >>= next) := by
  intro before held
  have begun := begins before held
  unfold final at begun ⊢
  cases ran : first before with
  | ok part middle =>
    rw [ran] at begun
    rw [bind_eq ran]
    exact rest part middle begun
  | error error middle =>
    rw [ran] at begun
    rw [bind_error ran]
    exact begun

theorem keeps_ite [Decidable condition] (yes : condition → Keeps holds program)
    (no : ¬ condition → Keeps holds other) :
    Keeps holds (if condition then program else other) := by
  by_cases is : condition
  · rw [if_pos is]
    exact yes is
  · rw [if_neg is]
    exact no is

theorem keeps_guard [Decidable condition] {error : ε} (no : ¬ condition → Keeps holds other) :
    Keeps holds (if condition then throw error else other) :=
  keeps_ite (fun _ => keeps_throw error) no

end Keeps

theorem foldl_keeps {item : Type v} {view : Type w} (read : σ → view) (turn : σ → item → σ)
    (keeps : ∀ state next, read (turn state next) = read state) (items : List item) (state : σ) :
    read (items.foldl turn state) = read state := by
  induction items generalizing state with
  | nil => rfl
  | cons next rest ih => exact (ih _).trans (keeps state next)

end TorusHyperBft.Program
