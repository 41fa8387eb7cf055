import Mathlib

namespace TorusHyperBft

open List

/-! Encodings that end where their own symbols say. -/

variable {α σ : Type}

/-- No text after it can make one value's encoding read as another's. -/
def Delimited (admits : α → Prop) (encode : α → List σ) : Prop :=
  ∀ value other, admits value → admits other → ∀ rest otherRest,
    encode value ++ rest = encode other ++ otherRest → value = other ∧ rest = otherRest

namespace Delimited

variable {admits : α → Prop} {encode : α → List σ}

theorem injective (delimited : Delimited admits encode) {value other : α} (admitted : admits value)
    (otherAdmitted : admits other) (same : encode value = encode other) : value = other :=
  (delimited value other admitted otherAdmitted [] [] (by rw [same])).1

theorem eq_of_isPrefix (delimited : Delimited admits encode) {value other : α}
    (admitted : admits value)
    (otherAdmitted : admits other) (begins : encode value <+: encode other) : value = other := by
  obtain ⟨rest, same⟩ := begins
  exact (delimited value other admitted otherAdmitted rest [] (by rw [same, append_nil])).1

theorem flatMap (delimited : Delimited admits encode) {values others : List α}
    (admitted : ∀ value ∈ values, admits value) (othersAdmitted : ∀ other ∈ others, admits other)
    (lengths : values.length = others.length) {rest otherRest : List σ}
    (same : values.flatMap encode ++ rest = others.flatMap encode ++ otherRest) :
    values = others ∧ rest = otherRest := by
  induction values generalizing others with
  | nil =>
    cases others with
    | nil => exact ⟨rfl, same⟩
    | cons other others => cases lengths
  | cons value values ih =>
    cases others with
    | nil => cases lengths
    | cons other others =>
      rw [flatMap_cons, flatMap_cons, append_assoc, append_assoc] at same
      obtain ⟨heads, tails⟩ := delimited value other (admitted value mem_cons_self)
        (othersAdmitted other mem_cons_self) _ _ same
      obtain ⟨values, rests⟩ := ih (fun value member => admitted value (mem_cons_of_mem _ member))
        (fun other member => othersAdmitted other (mem_cons_of_mem _ member))
        (Nat.succ.inj lengths) tails
      exact ⟨by rw [heads, values], rests⟩

end Delimited

end TorusHyperBft
