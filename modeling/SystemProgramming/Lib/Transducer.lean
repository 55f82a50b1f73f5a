import Mathlib.Tactic.Common
import Mathlib.Data.List.Induction

/-!
# Machines that read letters and write words

A `Transducer` reads its input from the left and writes a word at each letter.  Both the state that is
reached and the output are determined prefix by prefix; the rules below turn what one letter does into
what a whole run does: a simulation (`state_rel`), an account of the letters that are lost between input
and output (`countP_output`), and the case that a second run over the output writes it once more
(`output_output`).
-/

namespace SystemProgramming

/-- What a letter does to the state, and the word that is written. -/
structure Transducer (σ α β : Type) where
  step : σ → α → σ × List β

namespace Transducer

variable {σ τ α β : Type} (M : Transducer σ α β) {s t : σ} {a : α} {w u v : List α}

/-- The state after a word. -/
def state (s : σ) (w : List α) : σ := w.foldl (fun s a => (M.step s a).1) s

/-- What is written on a word. -/
def output : σ → List α → List β
  | _, [] => []
  | s, a :: w => (M.step s a).2 ++ output (M.step s a).1 w

@[simp] theorem state_nil : M.state s [] = s := rfl

theorem state_cons : M.state s (a :: w) = M.state (M.step s a).1 w := rfl

theorem state_append : M.state s (u ++ v) = M.state (M.state s u) v := List.foldl_append

theorem state_concat : M.state s (u ++ [a]) = (M.step (M.state s u) a).1 := by
  rw [state_append]
  rfl

@[simp] theorem output_nil : M.output s [] = [] := rfl

theorem output_cons : M.output s (a :: w) = (M.step s a).2 ++ M.output (M.step s a).1 w := rfl

theorem output_append : M.output s (u ++ v) = M.output s u ++ M.output (M.state s u) v := by
  induction u generalizing s with
  | nil => rfl
  | cons a u ih =>
    rw [List.cons_append, output_cons, output_cons, ih, List.append_assoc]
    rfl

/-- **Simulation.**  A relation to the states of another machine that each letter preserves holds after
every word. -/
theorem state_rel {next : τ → α → τ} {R : σ → τ → Prop}
    (hstep : ∀ s k a, R s k → R (M.step s a).1 (next k a)) {k : τ} (h : R s k) (w : List α) :
    R (M.state s w) (w.foldl next k) := by
  induction w generalizing s k with
  | nil => exact h
  | cons a w ih => exact ih (hstep s k a h)

/-- **Simulation with outputs.**  A machine that is kept in step and writes the same words writes the same
output. -/
theorem output_rel {N : Transducer τ α β} {R : σ → τ → Prop}
    (hstep : ∀ s t a, R s t → R (M.step s a).1 (N.step t a).1 ∧ (M.step s a).2 = (N.step t a).2)
    {t : τ} (h : R s t) (w : List α) : M.output s w = N.output t w := by
  induction w generalizing s t with
  | nil => rfl
  | cons a w ih =>
    obtain ⟨hnext, hsame⟩ := hstep s t a h
    rw [output_cons, output_cons, hsame, ih hnext]

/-- What the letters lose, added up over a run. -/
def lost (f : σ → α → ℕ) : σ → List α → ℕ
  | _, [] => 0
  | s, a :: w => f s a + lost f (M.step s a).1 w

theorem lost_eq_zero {f : σ → α → ℕ} :
    M.lost f s w = 0 ↔ ∀ u a v, w = u ++ a :: v → f (M.state s u) a = 0 := by
  induction w generalizing s with
  | nil =>
    refine iff_of_true rfl fun u a v h => ?_
    exact absurd (congrArg List.length h) (by simp)
  | cons b w ih =>
    rw [lost, Nat.add_eq_zero_iff, ih]
    constructor
    · intro h u a v hw
      obtain ⟨hb, hrest⟩ := h
      cases u with
      | nil =>
        obtain ⟨rfl, -⟩ := List.cons.inj hw
        exact hb
      | cons c u =>
        obtain ⟨rfl, htail⟩ := List.cons.inj hw
        exact hrest u a v htail
    · intro h
      exact ⟨h [] b w rfl, fun u a v hw => h (b :: u) a v (by rw [hw]; rfl)⟩

/-- **The account of a run**: the letters that satisfy `p` are those that are written and those that are
lost. -/
theorem countP_output {p : α → Bool} {q : β → Bool} {f : σ → α → ℕ}
    (hstep : ∀ s a, (M.step s a).2.countP q + f s a = [a].countP p) (s : σ) (w : List α) :
    (M.output s w).countP q + M.lost f s w = w.countP p := by
  induction w generalizing s with
  | nil => rfl
  | cons a w ih =>
    have ha := hstep s a
    have hw := ih (M.step s a).1
    have hcons : (a :: w).countP p = [a].countP p + w.countP p := by
      rw [← List.countP_append]
      rfl
    rw [output_cons, lost, List.countP_append, hcons]
    omega

/-- **A second run in step.**  When what is written on a letter takes the second run to a related state
and is written once more, the second run writes what the first one wrote. -/
theorem output_output {M : Transducer σ α α} {R : σ → σ → Prop}
    (hstep : ∀ s t a, R s t →
      R (M.step s a).1 (M.state t (M.step s a).2) ∧ M.output t (M.step s a).2 = (M.step s a).2)
    (h : R s t) (w : List α) : M.output t (M.output s w) = M.output s w := by
  induction w generalizing s t with
  | nil => rfl
  | cons a w ih =>
    obtain ⟨hnext, hsame⟩ := hstep s t a h
    rw [output_cons, output_append, hsame, ih hnext]

end Transducer

end SystemProgramming
