import Mathlib

namespace TorusHyperBft

open List

/-! Computations that call a hash function, with the inputs they call it on. -/

@[ext] structure Hashed (ι α : Type) where
  value : α
  inputs : List ι

namespace Hashed

variable {ι δ α β : Type}

instance : Monad (Hashed ι) where
  pure value := ⟨value, []⟩
  bind first next := ⟨(next first.value).value, first.inputs ++ (next first.value).inputs⟩

def call (hash : ι → δ) (input : ι) : Hashed ι δ := ⟨hash input, [input]⟩

@[simp] theorem pure_value (value : α) : (pure value : Hashed ι α).value = value := rfl

@[simp] theorem pure_inputs (value : α) : (pure value : Hashed ι α).inputs = [] := rfl

@[simp] theorem bind_value (first : Hashed ι α) (next : α → Hashed ι β) :
    (first >>= next).value = (next first.value).value := rfl

@[simp] theorem bind_inputs (first : Hashed ι α) (next : α → Hashed ι β) :
    (first >>= next).inputs = first.inputs ++ (next first.value).inputs := rfl

@[simp] theorem call_value (hash : ι → δ) (input : ι) : (call hash input).value = hash input := rfl

@[simp] theorem call_inputs (hash : ι → δ) (input : ι) : (call hash input).inputs = [input] := rfl

theorem map_id (first : Hashed ι α) : id <$> first = first :=
  Hashed.ext rfl (append_nil _)

theorem bind_assoc {γ : Type} (first : Hashed ι α) (next : α → Hashed ι β)
    (last : β → Hashed ι γ) : first >>= next >>= last = first >>= fun value => next value >>= last :=
  Hashed.ext rfl (append_assoc _ _ _)

instance : LawfulMonad (Hashed ι) := LawfulMonad.mk' _ map_id (fun _ _ => rfl) bind_assoc

/-- The hash keeps the inputs of two computations apart, and takes none to the digest that
stands for a missing value. -/
structure Apart (hash : ι → δ) (missing : δ) (left right : List ι) : Prop where
  injective : ∀ input ∈ left, ∀ other ∈ right, hash input = hash other → input = other
  presentLeft : ∀ input ∈ left, hash input ≠ missing
  presentRight : ∀ input ∈ right, hash input ≠ missing

namespace Apart

variable {hash : ι → δ} {missing : δ}

theorem call {input other : ι}
    (apart : Apart hash missing (Hashed.call hash input).inputs (Hashed.call hash other).inputs)
    (same : (Hashed.call hash input).value = (Hashed.call hash other).value) : input = other :=
  apart.injective input (by simp) other (by simp) same

theorem mono {left right fewerLeft fewerRight : List ι} (apart : Apart hash missing left right)
    (subsetLeft : fewerLeft ⊆ left) (subsetRight : fewerRight ⊆ right) :
    Apart hash missing fewerLeft fewerRight where
  injective input member other found :=
    apart.injective input (subsetLeft member) other (subsetRight found)
  presentLeft input member := apart.presentLeft input (subsetLeft member)
  presentRight input member := apart.presentRight input (subsetRight member)

theorem append {first second third fourth : List ι}
    (apart : Apart hash missing (first ++ second) (third ++ fourth)) :
    Apart hash missing first third ∧ Apart hash missing second fourth :=
  ⟨apart.mono (subset_append_left _ _) (subset_append_left _ _),
    apart.mono (subset_append_right _ _) (subset_append_right _ _)⟩

theorem bind {first second : Hashed ι α} {next after : α → Hashed ι β}
    (apart : Apart hash missing (first >>= next).inputs (second >>= after).inputs) :
    Apart hash missing first.inputs second.inputs ∧
      Apart hash missing (next first.value).inputs (after second.value).inputs :=
  apart.append

end Apart

/-- No two of the inputs share a digest, and none has the digest of a missing value. -/
structure CollisionFree (hash : ι → δ) (missing : δ) (inputs : List ι) : Prop where
  injective : ∀ input ∈ inputs, ∀ other ∈ inputs, hash input = hash other → input = other
  present : ∀ input ∈ inputs, hash input ≠ missing

namespace CollisionFree

variable {hash : ι → δ} {missing : δ}

theorem apart {left right : List ι} (free : CollisionFree hash missing (left ++ right)) :
    Apart hash missing left right where
  injective input member other found :=
    free.injective input (mem_append_left _ member) other (mem_append_right _ found)
  presentLeft input member := free.present input (mem_append_left _ member)
  presentRight input member := free.present input (mem_append_right _ member)

theorem twice {inputs : List ι} (free : CollisionFree hash missing inputs) :
    CollisionFree hash missing (inputs ++ inputs) where
  injective input member other found :=
    free.injective input (by simpa using member) other (by simpa using found)
  present input member := free.present input (by simpa using member)

theorem of_nodup {inputs : List ι} (distinct : (missing :: inputs.map hash).Nodup) :
    CollisionFree hash missing inputs where
  injective _ member _ found same :=
    inj_on_of_nodup_map (nodup_cons.mp distinct).2 member found same
  present _ member same :=
    (nodup_cons.mp distinct).1 (same ▸ mem_map_of_mem member)

end CollisionFree

end Hashed

end TorusHyperBft
