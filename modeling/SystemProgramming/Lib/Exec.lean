import Mathlib.Tactic.Common

/-!
# Executions that may abort, exit or run out of fuel

A C function is a state transformer with four outcomes: it returns, an assertion fails, the process
exits, or a loop has used up the iterations that the evaluation allows.  `Exec σ α` is that
transformer and `wp` its weakest precondition for total correctness:

* `wp x Q s` holds when `x`, started in `s`, returns and the result satisfies `Q`;
* the rules below compute `wp` through every construct, so that a function is verified by walking
  through its text once.
-/

namespace SystemProgramming

/-- How a run of a function ends. -/
inductive Outcome (σ α : Type) where
  | ok (a : α) (s : σ)
  | abort
  | exit (code : Int)
  | timeout
  deriving DecidableEq

/-- The value of a normal return. -/
def Outcome.value {σ α : Type} : Outcome σ α → Option α
  | .ok a _ => some a
  | .abort => none
  | .exit _ => none
  | .timeout => none

/-- A state transformer with an outcome. -/
def Exec (σ α : Type) : Type := σ → Outcome σ α

namespace Exec

variable {σ α β : Type}

/-- Continue with `f` after a normal return; every other outcome ends the run. -/
def andThen (x : Exec σ α) (f : α → Exec σ β) : Exec σ β := fun s =>
  match x s with
  | .ok a s' => f a s'
  | .abort => .abort
  | .exit c => .exit c
  | .timeout => .timeout

instance : Monad (Exec σ) where
  pure a := fun s => .ok a s
  bind := andThen

/-- Read a value off the state. -/
def reads (f : σ → α) : Exec σ α := fun s => .ok (f s) s

/-- Change the state. -/
def modify (f : σ → σ) : Exec σ Unit := fun s => .ok () (f s)

/-- The process exits. -/
def exit (code : Int) : Exec σ α := fun _ => .exit code

/-- The iterations allowed to a loop are used up. -/
def timeout : Exec σ α := fun _ => .timeout

/-- `if (c) x;` -/
def when (c : Prop) [Decidable c] (x : Exec σ Unit) : Exec σ Unit := if c then x else pure ()

/-- `assert(p)` for a plain condition; with assertions compiled out it does nothing. -/
def assert (on : Bool) (p : Prop) [Decidable p] : Exec σ Unit := fun s =>
  if on = true ∧ ¬ p then .abort else .ok () s

/-- `assert(x)` for a condition that is itself a call: it is evaluated only when assertions are on. -/
def assertM (on : Bool) (x : Exec σ Bool) : Exec σ Unit := fun s =>
  if on = true then
    match x s with
    | .ok true s' => .ok () s'
    | .ok false _ => .abort
    | .abort => .abort
    | .exit c => .exit c
    | .timeout => .timeout
  else .ok () s

/-- Run `x` on a part of a larger state. -/
def zoom {τ : Type} (get : τ → σ) (set : τ → σ → τ) (x : Exec σ α) : Exec τ α := fun t =>
  match x (get t) with
  | .ok a s => .ok a (set t s)
  | .abort => .abort
  | .exit c => .exit c
  | .timeout => .timeout

/-- Weakest precondition: `x` returns, in a state and with a value that satisfy `Q`. -/
def wp (x : Exec σ α) (Q : α → σ → Prop) (s : σ) : Prop := ∃ a s', x s = .ok a s' ∧ Q a s'

variable {Q : α → σ → Prop} {s : σ}

theorem wp_iff_of_ok {x : Exec σ α} {a : α} {s' : σ} (h : x s = .ok a s') : wp x Q s ↔ Q a s' := by
  constructor
  · rintro ⟨b, t, hb, hQ⟩
    rw [h] at hb
    cases hb
    exact hQ
  · exact fun hQ => ⟨a, s', h, hQ⟩

/-- Two programs that run alike from `s` satisfy the same postconditions there. -/
theorem wp_congr {x y : Exec σ α} (h : x s = y s) : wp x Q s ↔ wp y Q s := by
  unfold wp
  rw [h]

theorem wp.mono {x : Exec σ α} {Q' : α → σ → Prop} (h : wp x Q s)
    (himp : ∀ a s', Q a s' → Q' a s') : wp x Q' s := by
  obtain ⟨a, s', hx, hQ⟩ := h
  exact ⟨a, s', hx, himp a s' hQ⟩

theorem wp.and {x : Exec σ α} {Q' : α → σ → Prop} (h : wp x Q s) (h' : wp x Q' s) :
    wp x (fun a s' => Q a s' ∧ Q' a s') s := by
  obtain ⟨a, s', hrun, hQ⟩ := h
  exact ⟨a, s', hrun, hQ, (wp_iff_of_ok hrun).mp h'⟩

@[simp] theorem wp_pure (a : α) : wp (pure a : Exec σ α) Q s ↔ Q a s := wp_iff_of_ok rfl

theorem bind_of_ok {x : Exec σ α} {f : α → Exec σ β} {a : α} {s' : σ} (h : x s = .ok a s') :
    (x >>= f) s = f a s' := by
  change andThen x f s = _
  unfold andThen
  rw [h]

/-- A sequence started in two states runs alike when its first part does. -/
theorem bind_congr_start {x : Exec σ α} {f : α → Exec σ β} {s' : σ} (h : x s = x s') :
    (x >>= f) s = (x >>= f) s' := by
  change andThen x f s = andThen x f s'
  unfold andThen
  rw [h]

theorem bind_of_exit {x : Exec σ α} {f : α → Exec σ β} {c : Int} (h : x s = .exit c) :
    (x >>= f) s = .exit c := by
  change andThen x f s = _
  unfold andThen
  rw [h]

theorem bind_of_timeout {x : Exec σ α} {f : α → Exec σ β} (h : x s = .timeout) :
    (x >>= f) s = .timeout := by
  change andThen x f s = _
  unfold andThen
  rw [h]

@[simp] theorem wp_bind {x : Exec σ α} {f : α → Exec σ β} {R : β → σ → Prop} :
    wp (x >>= f) R s ↔ wp x (fun a s' => wp (f a) R s') s := by
  constructor
  · rintro ⟨b, t, hb, hR⟩
    change andThen x f s = _ at hb
    unfold andThen at hb
    cases hx : x s with
    | ok a s' =>
      rw [hx] at hb
      exact ⟨a, s', hx, b, t, hb, hR⟩
    | abort => rw [hx] at hb; cases hb
    | exit c => rw [hx] at hb; cases hb
    | timeout => rw [hx] at hb; cases hb
  · rintro ⟨a, s', hx, b, t, hb, hR⟩
    refine ⟨b, t, ?_, hR⟩
    change andThen x f s = _
    unfold andThen
    rw [hx]
    exact hb

/-- A sequence that returns went through its first part. -/
theorem exists_of_bind_ok {x : Exec σ α} {f : α → Exec σ β} {b : β} {t : σ}
    (h : (x >>= f) s = .ok b t) : ∃ a s', x s = .ok a s' ∧ f a s' = .ok b t := by
  have hwp : wp (x >>= f) (fun b' t' => b' = b ∧ t' = t) s := ⟨b, t, h, rfl, rfl⟩
  rw [wp_bind] at hwp
  obtain ⟨a, s', hx, _, _, hf, rfl, rfl⟩ := hwp
  exact ⟨a, s', hx, hf⟩

/-- A call that returns a value. -/
theorem exists_of_value {x : Exec σ α} {v : α} (h : (x s).value = some v) :
    ∃ s', x s = .ok v s' := by
  cases hx : x s with
  | ok a s' =>
    rw [hx] at h
    obtain rfl : a = v := Option.some.inj h
    exact ⟨s', rfl⟩
  | abort => rw [hx] at h; cases h
  | exit c => rw [hx] at h; cases h
  | timeout => rw [hx] at h; cases h

/-- A sequence that returns a value went through its first part. -/
theorem exists_of_bind_value {x : Exec σ α} {f : α → Exec σ β} {v : β}
    (h : ((x >>= f) s).value = some v) : ∃ a s', x s = .ok a s' ∧ (f a s').value = some v := by
  obtain ⟨t, ht⟩ := exists_of_value h
  obtain ⟨a, s', hx, hf⟩ := exists_of_bind_ok ht
  refine ⟨a, s', hx, ?_⟩
  rw [hf]
  rfl

@[simp] theorem wp_map {x : Exec σ α} {f : α → β} {R : β → σ → Prop} :
    wp (f <$> x) R s ↔ wp x (fun a s' => R (f a) s') s := by
  change wp (x >>= fun a => pure (f a)) R s ↔ _
  simp

@[simp] theorem wp_reads (f : σ → α) : wp (reads f) Q s ↔ Q (f s) s := wp_iff_of_ok rfl

@[simp] theorem wp_modify {Q : Unit → σ → Prop} (f : σ → σ) :
    wp (modify f) Q s ↔ Q () (f s) := wp_iff_of_ok rfl

@[simp] theorem wp_when {Q : Unit → σ → Prop} {c : Prop} [Decidable c] {x : Exec σ Unit} :
    wp (when c x) Q s ↔ (c → wp x Q s) ∧ (¬ c → Q () s) := by
  unfold when
  by_cases hc : c <;> simp [hc]

theorem wp_ite {c : Prop} [Decidable c] {x y : Exec σ α} :
    wp (if c then x else y) Q s ↔ (c → wp x Q s) ∧ (¬ c → wp y Q s) := by
  by_cases hc : c <;> simp [hc]

@[simp] theorem wp_assert {Q : Unit → σ → Prop} {on : Bool} {p : Prop} [Decidable p] :
    wp (assert on p) Q s ↔ (on = true → p) ∧ Q () s := by
  by_cases hp : on = true ∧ ¬ p
  · have hs : (assert on p : Exec σ Unit) s = .abort := by simp [assert, hp]
    constructor
    · rintro ⟨a, s', h, _⟩
      rw [hs] at h
      cases h
    · rintro ⟨h, _⟩
      exact absurd (h hp.1) hp.2
  · have hs : (assert on p : Exec σ Unit) s = .ok () s := by simp only [assert, if_neg hp]
    rw [wp_iff_of_ok hs]
    have : on = true → p := fun hon => by_contra fun hnp => hp ⟨hon, hnp⟩
    tauto

/-- An assertion on a call holds when the call returns `true`; the state it leaves is kept. -/
theorem wp_assertM {Q : Unit → σ → Prop} {on : Bool} {x : Exec σ Bool}
    (hon : on = true → wp x (fun b s' => b = true ∧ Q () s') s)
    (hoff : on = false → Q () s) : wp (assertM on x) Q s := by
  cases on with
  | false => exact ⟨(), s, rfl, hoff rfl⟩
  | true =>
    obtain ⟨b, s', hx, hb, hQ⟩ := hon rfl
    subst hb
    exact ⟨(), s', by simp [assertM, hx], hQ⟩

theorem wp_zoom {τ : Type} {get : τ → σ} {set : τ → σ → τ} {x : Exec σ α} {R : α → τ → Prop}
    {t : τ} : wp (zoom get set x) R t ↔ wp x (fun a s => R a (set t s)) (get t) := by
  unfold wp zoom
  cases x (get t) with
  | ok a s =>
    constructor
    · rintro ⟨b, u, hb, hR⟩
      cases hb
      exact ⟨a, s, rfl, hR⟩
    · rintro ⟨b, u, hb, hR⟩
      cases hb
      exact ⟨a, set t s, rfl, hR⟩
  | abort => simp
  | exit c => simp
  | timeout => simp

/-- `x` returns `v` without touching the state. -/
def Gives (x : Exec σ α) (s : σ) (v : α) : Prop := x s = .ok v s

theorem Gives.wp_iff {x : Exec σ α} {v : α} (h : Gives x s v) : wp x Q s ↔ Q v s :=
  wp_iff_of_ok h

theorem gives_of_wp {x : Exec σ α} {v : α} (h : wp x (fun a s' => a = v ∧ s' = s) s) :
    Gives x s v := by
  obtain ⟨a, s', hx, rfl, rfl⟩ := h
  exact hx

theorem gives_pure (a : α) : Gives (pure a : Exec σ α) s a := rfl

theorem Gives.bind {x : Exec σ α} {f : α → Exec σ β} {v : α} {w : β} (h : Gives x s v)
    (hf : Gives (f v) s w) : Gives (x >>= f) s w :=
  gives_of_wp (by rw [wp_bind, h.wp_iff, hf.wp_iff]; exact ⟨rfl, rfl⟩)

theorem Gives.map {x : Exec σ α} {v : α} (h : Gives x s v) (f : α → β) : Gives (f <$> x) s (f v) :=
  gives_of_wp (by rw [wp_map, h.wp_iff]; exact ⟨rfl, rfl⟩)

/-- Comparing the result of a call with the value it returns. -/
theorem Gives.beq [BEq α] [LawfulBEq α] {x : Exec σ α} {v : α} (h : Gives x s v) :
    Gives ((· == v) <$> x) s true := by
  have := h.map (· == v)
  rwa [beq_self_eq_true] at this

/-- An assertion on a call that only looks at the state. -/
theorem wp_assertM_gives {Q : Unit → σ → Prop} {on : Bool} {x : Exec σ Bool}
    (h : on = true → Gives x s true) (hQ : Q () s) : wp (assertM on x) Q s :=
  wp_assertM (fun hon => (h hon).wp_iff.mpr ⟨rfl, hQ⟩) (fun _ => hQ)

theorem gives_assert {on : Bool} {p : Prop} [Decidable p] (h : on = true → p) :
    Gives (assert on p) s () :=
  gives_of_wp (by rw [wp_assert]; exact ⟨h, rfl, rfl⟩)

theorem gives_assertM {on : Bool} {x : Exec σ Bool} (h : on = true → Gives x s true) :
    Gives (assertM on x) s () :=
  gives_of_wp (wp_assertM_gives h ⟨rfl, rfl⟩)

/-- A conditional statement that only looks at the state. -/
theorem wp_when_gives {Q : Unit → σ → Prop} {c : Prop} [Decidable c] {x : Exec σ Unit}
    (h : c → Gives x s ()) (hQ : Q () s) : wp (when c x) Q s := by
  rw [wp_when]
  exact ⟨fun hc => (h hc).wp_iff.mpr hQ, fun _ => hQ⟩

/-- `x` returns, without touching the state, whether `P` holds. -/
def Decides (x : Exec σ Bool) (s : σ) (P : Prop) : Prop := ∃ b, Gives x s b ∧ (b = true ↔ P)

theorem Decides.congr {x : Exec σ Bool} {P P' : Prop} (h : Decides x s P) (hP : P ↔ P') :
    Decides x s P' := by
  obtain ⟨b, hb, hiff⟩ := h
  exact ⟨b, hb, hiff.trans hP⟩

theorem decides_true {P : Prop} (h : P) : Decides (pure true : Exec σ Bool) s P :=
  ⟨true, gives_pure true, iff_of_true rfl h⟩

theorem decides_false {P : Prop} (h : ¬ P) : Decides (pure false : Exec σ Bool) s P :=
  ⟨false, gives_pure false, iff_of_false Bool.false_ne_true h⟩

theorem Gives.decides {x : Exec σ α} {f : α → Exec σ Bool} {v : α} {P : Prop} (h : Gives x s v)
    (hf : Decides (f v) s P) : Decides (x >>= f) s P := by
  obtain ⟨b, hb, hiff⟩ := hf
  exact ⟨b, h.bind hb, hiff⟩

/-- `if (c) return FALSE; …` -/
theorem Decides.unless {c : Prop} [Decidable c] {y : Exec σ Bool} {P : Prop}
    (h : ¬ c → Decides y s P) : Decides (if c then pure false else y) s (¬ c ∧ P) := by
  by_cases hc : c
  · rw [if_pos hc]
    exact decides_false fun hand => hand.1 hc
  · rw [if_neg hc]
    exact (h hc).congr ⟨fun hP => ⟨hc, hP⟩, And.right⟩

/-- `if (x()) return 1; …` -/
theorem Decides.or {x y : Exec σ Bool} {P P' : Prop} (hx : Decides x s P) (hy : Decides y s P') :
    Decides (x >>= fun b => if b = true then pure true else y) s (P ∨ P') := by
  obtain ⟨b, hb, hP⟩ := hx
  obtain ⟨c, hc, hP'⟩ := hy
  cases b with
  | true => exact ⟨true, hb.bind (gives_pure true), iff_of_true rfl (Or.inl (hP.mp rfl))⟩
  | false =>
    have hno : ¬ P := fun h => Bool.false_ne_true (hP.mpr h)
    refine ⟨c, hb.bind hc, hP'.trans ?_⟩
    exact ⟨Or.inr, fun h => h.resolve_left hno⟩

end Exec

end SystemProgramming
