import SystemProgramming.Lib.Exec

/-!
# Counting loops

`forUp` and `forDown` run a body for the numbers below a bound, upwards and downwards, and `repeatWith` runs a body
a number of times that hands a value on.  The rule of each asks for an invariant that one pass of the body keeps.

* `wp_forUp`, `wp_forDown`, `wp_repeatWith`: the rules.
-/

namespace SystemProgramming.Exec

variable {σ α : Type} {s : σ} {n : ℕ}

/-- `for (i = 0; i < n; i++)` -/
def forUp (body : ℕ → Exec σ Unit) : ℕ → Exec σ Unit
  | 0 => pure ()
  | n + 1 => do
    forUp body n
    body n

/-- `for (i = n - 1; i >= 0; i--)` -/
def forDown (body : ℕ → Exec σ Unit) : ℕ → Exec σ Unit
  | 0 => pure ()
  | n + 1 => do
    body n
    forDown body n

/-- `n` passes of a body that hands a value on. -/
def repeatWith (body : α → Exec σ α) : ℕ → α → Exec σ α
  | 0, a => pure a
  | n + 1, a => do
    let a ← repeatWith body n a
    body a

theorem wp_forUp {x : ℕ → Exec σ Unit} {I : ℕ → σ → Prop} (hstart : I 0 s)
    (hbody : ∀ i < n, ∀ s, I i s → wp (x i) (fun _ s' => I (i + 1) s') s) :
    wp (forUp x n) (fun _ s' => I n s') s := by
  induction n with
  | zero => exact (wp_pure ()).mpr hstart
  | succ n ih =>
    show wp (do forUp x n; x n) _ s
    rw [wp_bind]
    exact (ih fun i hi => hbody i (Nat.lt_succ_of_lt hi)).mono fun _ s' hs' => hbody n (Nat.lt_succ_self n) s' hs'

theorem wp_forDown {x : ℕ → Exec σ Unit} {I : ℕ → σ → Prop} (hstart : I n s)
    (hbody : ∀ i < n, ∀ s, I (i + 1) s → wp (x i) (fun _ s' => I i s') s) :
    wp (forDown x n) (fun _ s' => I 0 s') s := by
  induction n generalizing s with
  | zero => exact (wp_pure ()).mpr hstart
  | succ n ih =>
    show wp (do x n; forDown x n) _ s
    rw [wp_bind]
    exact (hbody n (Nat.lt_succ_self n) s hstart).mono fun _ s' hs' =>
      ih hs' fun i hi => hbody i (Nat.lt_succ_of_lt hi)

theorem wp_repeatWith {x : α → Exec σ α} {I : ℕ → α → σ → Prop} {a : α} (hstart : I 0 a s)
    (hbody : ∀ i < n, ∀ a s, I i a s → wp (x a) (fun a' s' => I (i + 1) a' s') s) :
    wp (repeatWith x n a) (fun a' s' => I n a' s') s := by
  induction n with
  | zero => exact (wp_pure a).mpr hstart
  | succ n ih =>
    show wp (do let a ← repeatWith x n a; x a) _ s
    rw [wp_bind]
    exact (ih fun i hi => hbody i (Nat.lt_succ_of_lt hi)).mono fun a' s' hs' =>
      hbody n (Nat.lt_succ_self n) a' s' hs'

end SystemProgramming.Exec
