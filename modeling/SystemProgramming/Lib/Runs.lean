import Mathlib.Tactic.Common
import Mathlib.Data.List.Induction
import Mathlib.Logic.Function.Basic

/-!
# Labelled transition systems and their runs

`Sys σ ε` is a set of initial states and a step relation labelled with events; `Reach S tr s` says
that some run of `S` shows the events `tr`, oldest first, and ends in `s`.  A property of runs is
proved from what one step preserves (`Reach.invariant`), where the property may look at the events
so far.  `Sys.restrict` keeps the steps that meet a condition.  Where a state is a family of local
states, one for each thread, a step moves one of them (`update_cases`).

* `Reach.invariant`: **what holds initially and is preserved by every step holds along every run**.
* `Reach.at_event`: a fact about every step that shows a certain event.
* `Reach.restrict`: a run whose steps meet a condition is a run of the restricted system.
-/

namespace SystemProgramming

/-- A labelled transition system. -/
structure Sys (σ ε : Type) where
  init : σ → Prop
  step : σ → ε → σ → Prop

/-- The runs of a system: the events seen and the state reached. -/
inductive Reach {σ ε : Type} (S : Sys σ ε) : List ε → σ → Prop where
  | init {s : σ} (h : S.init s) : Reach S [] s
  | step {tr : List ε} {s s' : σ} {e : ε} (h : Reach S tr s) (hs : S.step s e s') :
      Reach S (tr ++ [e]) s'

variable {σ ε : Type} {S : Sys σ ε} {tr : List ε} {s : σ}

/-- **Invariants.**  What holds initially and is preserved by every step holds along every run. -/
theorem Reach.invariant {I : List ε → σ → Prop} (hinit : ∀ s, S.init s → I [] s)
    (hstep : ∀ tr s e s', I tr s → S.step s e s' → I (tr ++ [e]) s') (h : Reach S tr s) :
    I tr s := by
  induction h with
  | init h => exact hinit _ h
  | step _ hs ih => exact hstep _ _ _ _ ih hs

/-- An invariant of the states alone. -/
theorem Reach.state_invariant {I : σ → Prop} (hinit : ∀ s, S.init s → I s)
    (hstep : ∀ s e s', I s → S.step s e s' → I s') (h : Reach S tr s) : I s :=
  h.invariant (I := fun _ s => I s) hinit fun _ s e s' hs => hstep s e s' hs

/-- The last step of a run. -/
theorem Reach.last {e : ε} {s' : σ} (h : Reach S (tr ++ [e]) s') :
    ∃ s, Reach S tr s ∧ S.step s e s' := by
  generalize hl : tr ++ [e] = l at h
  cases h with
  | init _ => exact absurd hl (List.append_ne_nil_of_right_ne_nil _ (List.cons_ne_nil _ _))
  | step hr hs =>
    obtain ⟨rfl, he⟩ := List.append_inj' hl rfl
    cases he
    exact ⟨_, hr, hs⟩

/-- The states in which a run shows its first events. -/
theorem Reach.upTo {tr' : List ε} (h : Reach S (tr ++ tr') s) : ∃ s₁, Reach S tr s₁ := by
  induction tr' using List.reverseRecOn generalizing s with
  | nil =>
    rw [List.append_nil] at h
    exact ⟨s, h⟩
  | append_singleton tr' e ih =>
    rw [← List.append_assoc] at h
    obtain ⟨s₁, h₁, -⟩ := h.last
    exact ih h₁

/-- A step within a run. -/
theorem Reach.at_event {e : ε} {tr' : List ε} (h : Reach S (tr ++ e :: tr') s) :
    ∃ s₁ s₂, Reach S tr s₁ ∧ S.step s₁ e s₂ := by
  rw [← List.singleton_append, ← List.append_assoc] at h
  obtain ⟨s₂, h₂⟩ := h.upTo
  obtain ⟨s₁, h₁, hs⟩ := h₂.last
  exact ⟨s₁, s₂, h₁, hs⟩

/-- The events determine the state where they determine the start and every step. -/
theorem Reach.unique {s' : σ} (hinit : ∀ s s', S.init s → S.init s' → s = s')
    (hstep : ∀ s e s₁ s₂, S.step s e s₁ → S.step s e s₂ → s₁ = s₂) (h : Reach S tr s)
    (h' : Reach S tr s') : s = s' := by
  induction h generalizing s' with
  | init hi =>
    generalize hl : ([] : List ε) = l at h'
    cases h' with
    | init hi' => exact hinit _ _ hi hi'
    | step _ _ => exact absurd hl.symm (List.append_ne_nil_of_right_ne_nil _ (List.cons_ne_nil _ _))
  | step _ hs ih =>
    obtain ⟨t, ht, hs'⟩ := h'.last
    obtain rfl := ih ht
    exact hstep _ _ _ _ hs hs'

/-- The steps of `S` that meet the condition `P`. -/
def Sys.restrict (S : Sys σ ε) (P : σ → ε → σ → Prop) : Sys σ ε where
  init := S.init
  step s e s' := S.step s e s' ∧ P s e s'

/-- A run all of whose steps meet the condition anyway is a run of the restricted system. -/
theorem Reach.restrict {P : σ → ε → σ → Prop} (h : Reach S tr s)
    (hP : ∀ s e s', S.step s e s' → P s e s') : Reach (S.restrict P) tr s := by
  induction h with
  | init h => exact Reach.init h
  | step _ hs ih => exact Reach.step ih ⟨hs, hP _ _ _ hs⟩

/-- A run of the restricted system is a run of the system. -/
theorem Reach.unrestrict {P : σ → ε → σ → Prop} (h : Reach (S.restrict P) tr s) : Reach S tr s := by
  induction h with
  | init h => exact Reach.init h
  | step _ hs ih => exact Reach.step ih hs.1

/-- A weaker condition on the steps allows at least the same runs. -/
theorem Reach.weaken {P Q : σ → ε → σ → Prop} (h : Reach (S.restrict P) tr s)
    (hPQ : ∀ s e s', P s e s' → Q s e s') : Reach (S.restrict Q) tr s := by
  induction h with
  | init h => exact Reach.init h
  | step _ hs ih => exact Reach.step ih ⟨hs.1, hPQ _ _ _ hs.2⟩

/-! ### Families of local states -/

/-- After a move of `t`: a thread is `t`, in the new local state, or another one, where it was. -/
theorem update_cases {Θ α : Type} [DecidableEq Θ] {f : Θ → α} {t u : Θ} {a b : α}
    (h : Function.update f t a u = b) : u = t ∧ a = b ∨ u ≠ t ∧ f u = b := by
  by_cases hut : u = t
  · rw [hut, Function.update_self] at h
    exact Or.inl ⟨hut, h⟩
  · rw [Function.update_of_ne hut] at h
    exact Or.inr ⟨hut, h⟩

/-- A thread in a local state that `t` was not in stays there. -/
theorem update_stays {Θ α : Type} [DecidableEq Θ] {f : Θ → α} {t u : Θ} {a b : α} (hu : f u = b)
    (ht : f t ≠ b) : Function.update f t a u = b := by
  rw [Function.update_of_ne, hu]
  rintro rfl
  exact ht hu

end SystemProgramming
