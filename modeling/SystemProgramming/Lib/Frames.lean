import SystemProgramming.Lib.Exec
import Mathlib.Order.Defs.Unbundled

/-!
# What every run of a function leaves as it was

`Frames R x` says that the states before and after every run of `x` that returns are related by `R`.
For a preorder `R` this follows from the parts of `x`, construct by construct, so it is a class: the
instances walk through the text of a function, and only what touches the state needs a proof.

* `Frames.of_wp`: from a specification; `Frames.bind`: through a sequence of statements.
-/

namespace SystemProgramming.Exec

variable {σ τ α β : Type} {R : σ → σ → Prop}

/-- Whenever `x` returns, the states before and after are related. -/
class Frames (R : σ → σ → Prop) (x : Exec σ α) : Prop where
  frames : ∀ s a s', x s = .ok a s' → R s s'

theorem Frames.of_wp {x : Exec σ α} (h : ∀ s, wp x (fun _ s' => R s s') s) : Frames R x where
  frames s _ _ hx := (wp_iff_of_ok hx).mp (h s)

section Constructs

variable [IsPreorder σ R]

instance (a : α) : Frames R (pure a : Exec σ α) := .of_wp fun s => (wp_pure a).mpr (refl s)

instance (f : σ → α) : Frames R (reads f) := .of_wp fun s => (wp_reads f).mpr (refl s)

instance : Frames R (timeout : Exec σ α) where
  frames s a s' hx := by cases hx

instance (on : Bool) (p : Prop) [Decidable p] : Frames R (assert on p : Exec σ Unit) where
  frames s a s' hx := by
    unfold assert at hx
    split at hx
    · cases hx
    · cases hx
      exact refl s

theorem Frames.bind {x : Exec σ α} {f : α → Exec σ β} (hx : Frames R x)
    (hf : ∀ a, Frames R (f a)) : Frames R (x >>= f) where
  frames s b s'' h := by
    obtain ⟨a, s', hrun, hrest⟩ := exists_of_bind_ok h
    exact IsTrans.trans _ _ _ (hx.frames s a s' hrun) ((hf a).frames s' b s'' hrest)

instance {x : Exec σ α} {f : α → Exec σ β} [hx : Frames R x] [hf : ∀ a, Frames R (f a)] :
    Frames R (x >>= f) := hx.bind hf

instance {x : Exec σ α} {f : α → β} [Frames R x] : Frames R (f <$> x) :=
  inferInstanceAs (Frames R (x >>= fun a => pure (f a)))

instance {c : Prop} [Decidable c] {x y : Exec σ α} [hx : Frames R x] [hy : Frames R y] :
    Frames R (if c then x else y) := by
  split
  · exact hx
  · exact hy

instance {c : Prop} [Decidable c] {x : Exec σ Unit} [Frames R x] : Frames R (when c x) := by
  unfold when
  infer_instance

instance {on : Bool} {x : Exec σ Bool} [hx : Frames R x] : Frames R (assertM on x) where
  frames s a s' h := by
    unfold assertM at h
    split at h
    · cases hrun : x s with
      | ok b s₁ =>
        rw [hrun] at h
        cases b with
        | false => cases h
        | true =>
          cases h
          exact hx.frames s true _ hrun
      | abort => rw [hrun] at h; cases h
      | exit c => rw [hrun] at h; cases h
      | timeout => rw [hrun] at h; cases h
    · cases h
      exact refl s

end Constructs

/-- A function on a part of the state. -/
theorem Frames.zoom {S : τ → τ → Prop} {get : τ → σ} {set : τ → σ → τ} {x : Exec σ α}
    [hx : Frames R x] (h : ∀ t s', R (get t) s' → S t (set t s')) : Frames S (zoom get set x) where
  frames t a t' ht := by
    unfold Exec.zoom at ht
    cases hrun : x (get t) with
    | ok b s' =>
      rw [hrun] at ht
      cases ht
      exact h t s' (hx.frames _ _ _ hrun)
    | abort => rw [hrun] at ht; cases ht
    | exit c => rw [hrun] at ht; cases ht
    | timeout => rw [hrun] at ht; cases ht

theorem Frames.modify {f : σ → σ} (h : ∀ s, R s (f s)) : Frames R (modify f) :=
  .of_wp fun s => (wp_modify f).mpr (h s)

end SystemProgramming.Exec
