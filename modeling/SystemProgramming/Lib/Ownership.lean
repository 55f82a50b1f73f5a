import Mathlib.Tactic.Common
import Mathlib.Logic.Function.Basic

/-!
# Things with one owner each

`Owns own owned` says that the things `owned` are those that some `t` has, each of them one `t` only,
where a `t` has at most one thing.  It is kept when a `t` that has nothing acquires a thing that
nobody has, and when a `t` releases what it has.

* `Owns.acquire`, `Owns.release`: the two steps.
-/

namespace SystemProgramming

open Function

variable {Θ α : Type} {own : Θ → Option α} {owned : α → Prop} {t : Θ} {x : α}

/-- Every owned thing has exactly one owner. -/
structure Owns (own : Θ → Option α) (owned : α → Prop) : Prop where
  owned_iff : ∀ x, owned x ↔ ∃ t, own t = some x
  unique : ∀ t u x, own t = some x → own u = some x → t = u

theorem Owns.of_none (hown : ∀ t, own t = none) (howned : ∀ x, ¬ owned x) : Owns own owned where
  owned_iff x := by
    refine iff_of_false (howned x) ?_
    rintro ⟨t, ht⟩
    rw [hown t] at ht
    cases ht
  unique t u x ht _ := by
    rw [hown t] at ht
    cases ht

theorem Owns.congr {owned' : α → Prop} (h : Owns own owned) (heq : ∀ x, owned' x ↔ owned x) :
    Owns own owned' where
  owned_iff x := (heq x).trans (h.owned_iff x)
  unique := h.unique

variable [DecidableEq Θ]

/-- `t` takes a thing that nobody has. -/
theorem Owns.acquire (h : Owns own owned) (ht : own t = none) (hx : ¬ owned x) :
    Owns (update own t (some x)) fun y => y = x ∨ owned y where
  owned_iff y := by
    constructor
    · rintro (rfl | hy)
      · exact ⟨t, update_self _ _ _⟩
      · obtain ⟨u, hu⟩ := (h.owned_iff y).mp hy
        refine ⟨u, ?_⟩
        rw [update_of_ne, hu]
        rintro rfl
        rw [ht] at hu
        cases hu
    · rintro ⟨u, hu⟩
      by_cases hut : u = t
      · rw [hut, update_self] at hu
        exact Or.inl (Option.some.inj hu).symm
      · rw [update_of_ne hut] at hu
        exact Or.inr ((h.owned_iff y).mpr ⟨u, hu⟩)
  unique u v y hu hv := by
    by_cases hut : u = t
    · by_cases hvt : v = t
      · exact hut.trans hvt.symm
      · rw [hut, update_self] at hu
        rw [update_of_ne hvt] at hv
        obtain rfl := Option.some.inj hu
        exact absurd ((h.owned_iff x).mpr ⟨v, hv⟩) hx
    · rw [update_of_ne hut] at hu
      by_cases hvt : v = t
      · rw [hvt, update_self] at hv
        obtain rfl := Option.some.inj hv
        exact absurd ((h.owned_iff x).mpr ⟨u, hu⟩) hx
      · rw [update_of_ne hvt] at hv
        exact h.unique u v y hu hv

/-- `t` gives up what it has. -/
theorem Owns.release (h : Owns own owned) (ht : own t = some x) :
    Owns (update own t none) fun y => y ≠ x ∧ owned y where
  owned_iff y := by
    constructor
    · rintro ⟨hne, hy⟩
      obtain ⟨u, hu⟩ := (h.owned_iff y).mp hy
      refine ⟨u, ?_⟩
      rw [update_of_ne, hu]
      rintro rfl
      rw [ht] at hu
      exact hne (Option.some.inj hu).symm
    · rintro ⟨u, hu⟩
      by_cases hut : u = t
      · rw [hut, update_self] at hu
        cases hu
      · rw [update_of_ne hut] at hu
        refine ⟨?_, (h.owned_iff y).mpr ⟨u, hu⟩⟩
        rintro rfl
        exact hut (h.unique u t y hu ht)
  unique u v y hu hv := by
    by_cases hut : u = t
    · rw [hut, update_self] at hu
      cases hu
    · by_cases hvt : v = t
      · rw [hvt, update_self] at hv
        cases hv
      · rw [update_of_ne hut] at hu
        rw [update_of_ne hvt] at hv
        exact h.unique u v y hu hv

end SystemProgramming
