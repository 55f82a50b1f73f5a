import Mathlib.Computability.Language

/-!
# Prefixes and substrings that belong to a language

A matcher that consumes its input from the left decides `HasPrefix L s`: some prefix of `s` is in
`L`.  The rules below follow the operations of a language, so that the matcher can be verified along
its pattern.

* `hasPrefix_mul`, `hasPrefix_kstar_mul`: sequences and repetitions.
* `hasSubstring_cons`: a substring begins here or further on.
-/

namespace SystemProgramming.Lang

open Computability

variable {α : Type} {L A B : Language α} {s : List α}

/-- Some prefix of `s` belongs to `L`. -/
def HasPrefix (L : Language α) (s : List α) : Prop := ∃ w v, s = w ++ v ∧ w ∈ L

/-- Some contiguous substring of `s`, possibly empty, belongs to `L`. -/
def HasSubstring (L : Language α) (s : List α) : Prop := ∃ u w v, s = u ++ w ++ v ∧ w ∈ L

theorem hasPrefix_one : HasPrefix 1 s := ⟨[], s, rfl, Language.nil_mem_one⟩

theorem hasPrefix_nil : HasPrefix L [] ↔ [] ∈ L := by
  constructor
  · intro h
    obtain ⟨w, v, hs, hw⟩ := h
    obtain ⟨rfl, -⟩ := List.append_eq_nil_iff.mp hs.symm
    exact hw
  · exact fun h => ⟨[], [], rfl, h⟩

/-- A concatenation is matched by a split of the input. -/
theorem hasPrefix_mul : HasPrefix (A * B) s ↔ ∃ u v, s = u ++ v ∧ u ∈ A ∧ HasPrefix B v := by
  constructor
  · intro h
    obtain ⟨w, v, rfl, hw⟩ := h
    obtain ⟨a, ha, b, hb, rfl⟩ := Language.mem_mul.mp hw
    exact ⟨a, b ++ v, List.append_assoc a b v, ha, b, v, rfl, hb⟩
  · intro h
    obtain ⟨u, v, rfl, hu, b, v', rfl, hb⟩ := h
    exact ⟨u ++ b, v', (List.append_assoc u b v').symm, Language.append_mem_mul hu hb⟩

/-- A star is left at once, or goes round once more. -/
theorem hasPrefix_kstar_mul :
    HasPrefix (A∗ * B) s ↔
      HasPrefix B s ∨ ∃ u v, s = u ++ v ∧ u ∈ A ∧ HasPrefix (A∗ * B) v := by
  have hstar : A∗ * B = B + A * (A∗ * B) := by
    rw [← mul_assoc, ← one_add_mul, Language.one_add_self_mul_kstar_eq_kstar]
  constructor
  · intro h
    obtain ⟨w, v, rfl, hw⟩ := h
    rw [hstar, Language.mem_add] at hw
    cases hw with
    | inl hw => exact Or.inl ⟨w, v, rfl, hw⟩
    | inr hw => exact Or.inr (hasPrefix_mul.mp ⟨w, v, rfl, hw⟩)
  · intro h
    cases h with
    | inl h =>
      obtain ⟨w, v, rfl, hw⟩ := h
      exact ⟨w, v, rfl, by rw [hstar]; exact Or.inl hw⟩
    | inr h =>
      obtain ⟨w, v, rfl, hw⟩ := hasPrefix_mul.mpr h
      exact ⟨w, v, rfl, by rw [hstar]; exact Or.inr hw⟩

/-- At the end of the input a star is left at once. -/
theorem hasPrefix_kstar_mul_nil : HasPrefix (A∗ * B) [] ↔ HasPrefix B [] := by
  rw [hasPrefix_mul]
  constructor
  · intro h
    obtain ⟨u, v, hs, -, hv⟩ := h
    obtain ⟨-, rfl⟩ := List.append_eq_nil_iff.mp hs.symm
    exact hv
  · exact fun h => ⟨[], [], rfl, Language.nil_mem_kstar A, h⟩

/-- A substring starts here or further on. -/
theorem hasSubstring_cons {c : α} :
    HasSubstring L (c :: s) ↔ HasPrefix L (c :: s) ∨ HasSubstring L s := by
  constructor
  · intro h
    obtain ⟨u, w, v, hs, hw⟩ := h
    cases u with
    | nil => exact Or.inl ⟨w, v, hs, hw⟩
    | cons d u =>
      cases hs
      exact Or.inr ⟨u, w, v, rfl, hw⟩
  · intro h
    cases h with
    | inl h =>
      obtain ⟨w, v, hs, hw⟩ := h
      exact ⟨[], w, v, hs, hw⟩
    | inr h =>
      obtain ⟨u, w, v, rfl, hw⟩ := h
      exact ⟨c :: u, w, v, rfl, hw⟩

theorem hasSubstring_nil : HasSubstring L [] ↔ HasPrefix L [] := by
  rw [hasPrefix_nil]
  constructor
  · intro h
    obtain ⟨u, w, v, hs, hw⟩ := h
    obtain ⟨huw, -⟩ := List.append_eq_nil_iff.mp hs.symm
    obtain ⟨-, rfl⟩ := List.append_eq_nil_iff.mp huw
    exact hw
  · exact fun h => ⟨[], [], [], rfl, h⟩

end SystemProgramming.Lang
