import SystemProgramming.Lib.Runs
import Mathlib.Data.List.Basic
import Mathlib.Algebra.BigOperators.Group.Finset.Basic

/-!
# Counting the events of a run

How often an event occurs is read off a number that the state carries: a number that each occurrence
uses up bounds the occurrences (`Reach.budget`), and a level that one event raises and another lowers
balances the two (`Reach.balance`).  Either may concern the end of a run only: `Sys.startAt` has the
runs that begin in a given state, and `Reach.split` cuts a run there.
-/

namespace SystemProgramming

variable {σ ε : Type} {S : Sys σ ε} {tr tr' : List ε} {s s' : σ} {p q : ε → Bool}

/-- The system, started in `s`. -/
def Sys.startAt (S : Sys σ ε) (s : σ) : Sys σ ε := ⟨fun s' => s' = s, S.step⟩

/-- Every run is a run up to some state and one from there. -/
theorem Reach.split (h : Reach S (tr ++ tr') s') : ∃ s, Reach S tr s ∧ Reach (S.startAt s) tr' s' := by
  induction tr' using List.reverseRecOn generalizing s' with
  | nil =>
    rw [List.append_nil] at h
    exact ⟨s', h, .init rfl⟩
  | append_singleton tr' e ih =>
    rw [← List.append_assoc] at h
    obtain ⟨s₁, h₁, hs⟩ := h.last
    obtain ⟨s, hs₀, hrun⟩ := ih h₁
    exact ⟨s, hs₀, hrun.step hs⟩

/-- A run with a given event goes up to it, takes the step, and goes on from there. -/
theorem Reach.split_cons {e : ε} (h : Reach S (tr ++ e :: tr') s') :
    ∃ s₁ s₂, Reach S tr s₁ ∧ S.step s₁ e s₂ ∧ Reach (S.startAt s₂) tr' s' := by
  rw [← List.singleton_append, ← List.append_assoc] at h
  obtain ⟨s₂, h₂, hrun⟩ := h.split
  obtain ⟨s₁, h₁, hs⟩ := h₂.last
  exact ⟨s₁, s₂, h₁, hs, hrun⟩

/-- There is no run from a state without steps. -/
theorem Reach.stays (h : Reach (S.startAt s) tr s') (hfinal : ∀ e t, ¬ S.step s e t) :
    tr = [] ∧ s' = s := by
  induction h with
  | init hs => exact ⟨rfl, hs⟩
  | step _ hs ih =>
    obtain ⟨-, rfl⟩ := ih
    exact absurd hs (hfinal _ _)

/-- A run all of whose events meet a condition is one of the system restricted to them. -/
theorem Reach.restrict_events {P : ε → Prop} (h : Reach S tr s) (hP : ∀ e ∈ tr, P e) :
    Reach (S.restrict fun _ e _ => P e) tr s := by
  induction h with
  | init hs => exact .init hs
  | step _ hs ih =>
    have hlast := hP _ (List.mem_append_right _ List.mem_cons_self)
    exact (ih fun e he => hP e (List.mem_append_left _ he)).step ⟨hs, hlast⟩

/-- **Budgets.**  Where every occurrence of `p` uses up one of what is left and no step adds to it,
there are at most as many occurrences as there is left at the start. -/
theorem Reach.budget {I : σ → Prop} (left : σ → ℕ) (h : Reach (S.startAt s) tr s') (hI : I s)
    (hpres : ∀ s e s', I s → S.step s e s' → I s')
    (hcost : ∀ s e s', I s → S.step s e s' → (if p e then 1 else 0) + left s' ≤ left s) :
    I s' ∧ tr.countP p + left s' ≤ left s := by
  induction h with
  | init hs =>
    obtain rfl := hs
    exact ⟨hI, Nat.le_of_eq (Nat.zero_add _)⟩
  | step _ hs ih =>
    obtain ⟨hI', hle⟩ := ih
    refine ⟨hpres _ _ _ hI' hs, ?_⟩
    have hone := hcost _ _ _ hI' hs
    rw [List.countP_append, List.countP_singleton]
    omega

/-- **Balances.**  Where `p` raises a level by one, `q` lowers it by one and nothing else moves it,
there are as many occurrences of `p` as of `q`, and the level more. -/
theorem Reach.balance {I : σ → Prop} (level : σ → ℕ) (h : Reach S tr s)
    (hI : ∀ tr s, Reach S tr s → I s) (hinit : ∀ s, S.init s → level s = 0)
    (hstep : ∀ s e s', I s → S.step s e s' →
      level s' + (if q e then 1 else 0) = level s + if p e then 1 else 0) :
    tr.countP p = tr.countP q + level s := by
  induction h with
  | init hs =>
    rw [hinit _ hs]
    rfl
  | step hr hs ih =>
    have hone := hstep _ _ _ (hI _ _ hr) hs
    rw [List.countP_append, List.countP_append, List.countP_singleton, List.countP_singleton]
    omega

/-- A sum over the local states of some threads, after one of them has moved. -/
theorem sum_update_add {Θ α : Type} [DecidableEq Θ] (f : α → ℕ) (local_states : Θ → α) {t : Θ}
    {ts : Finset Θ} (ht : t ∈ ts) (a : α) :
    (∑ u ∈ ts, f (Function.update local_states t a u)) + f (local_states t)
      = (∑ u ∈ ts, f (local_states u)) + f a := by
  have h₁ := Finset.add_sum_erase ts (fun u => f (Function.update local_states t a u)) ht
  have h₂ := Finset.add_sum_erase ts (fun u => f (local_states u)) ht
  have h₃ : ∑ u ∈ ts.erase t, f (Function.update local_states t a u)
      = ∑ u ∈ ts.erase t, f (local_states u) := by
    apply Finset.sum_congr rfl
    intro u hu
    rw [Function.update_of_ne (Finset.ne_of_mem_erase hu)]
  simp only [Function.update_self] at h₁
  omega

end SystemProgramming
