import SystemProgramming.Rwlock.Alone

/-!
# What a step does to what the threads hold

For a user of the lock a step is one of four things: a lock call that waits, is granted or fails, or an
unlock.  Nobody else holds more or less after it, and the counters go on covering what is out.

* `Step.outcome`: what a step of a lock call does; `Step.released`: what an unlock does.
* `Covered.step`: every correct step keeps the counters above what is out.
-/

namespace SystemProgramming.Rwlock

open Function

variable {Θ : Type} [DecidableEq Θ] {ring : Ring} {s s' : State Θ} {t u : Θ} {c : LockCall}
  {a : Action} {r : Option ℤ} {e : Event Θ}

/-- **The first section of a call** counts what it grants. -/
theorem enter_counted (ring : Ring) (u : Lock) (c : LockCall) : Counted u c (c.enter ring u) := by
  by_cases hfast : c = .quick ∧ u.currentWriters = 0
  · obtain ⟨rfl, hw⟩ := hfast
    show Counted u .quick (rwlockReadLockQuick u)
    rw [rwlockReadLockQuick, if_pos hw]
    exact .reads rfl (by decide) (by omega) rfl rfl
  · rw [enter_eq_body hfast]
    have hcounts := join_counts ring u c
    have hbody := body_counted ring (c.join ring u) (c.waiter u)
    have hcall : (c.waiter u).call = c := by cases c <;> rfl
    rw [hcall] at hbody
    cases hbody with
    | waits hexit hr hw => exact .waits hexit (hr.trans hcounts.1) (hw.trans hcounts.2)
    | reads hexit hc hfree hr hw =>
      exact .reads hexit hc (by omega) (by omega) (by omega)
    | writes hexit hc hreaders hfree hr hw =>
      exact .writes hexit hc (by omega) (by omega) (by omega) hw
    | fails hexit hr hw => exact .fails hexit (by omega) (by omega)

/-- A lock call is granted, or the thread holds what it held. -/
theorem Counted.outcome {l : Lock} {w : Waiter} {sec : Section} (h : Counted l w.call sec)
    (th : Thread) :
    (sec.exit.result = some 0 ∧ (th.after w sec.exit).reads = th.reads + w.call.reads ∧
      (th.after w sec.exit).writes = th.writes + w.call.writes) ∨
    ((sec.exit.result = none ∨ sec.exit.result = some (-1)) ∧
      (th.after w sec.exit).reads = th.reads ∧ (th.after w sec.exit).writes = th.writes) := by
  have hgranted : sec.exit = .ret 0 → (th.after w sec.exit).reads = th.reads + w.call.reads ∧
      (th.after w sec.exit).writes = th.writes + w.call.writes := by
    intro hexit
    rw [hexit]
    cases w <;> exact ⟨rfl, rfl⟩
  have hkept : ∀ x, sec.exit = x → x ≠ .ret 0 →
      (th.after w sec.exit).reads = th.reads ∧ (th.after w sec.exit).writes = th.writes := by
    intro x hexit hx
    rw [hexit]
    exact th.after_not_granted w hx
  cases h with
  | waits hexit _ _ => exact Or.inr ⟨Or.inl (by rw [hexit]; rfl), hkept _ hexit nofun⟩
  | reads hexit _ _ _ _ => exact Or.inl ⟨by rw [hexit]; rfl, hgranted hexit⟩
  | writes hexit _ _ _ _ _ => exact Or.inl ⟨by rw [hexit]; rfl, hgranted hexit⟩
  | fails hexit _ _ =>
    rcases hexit with hexit | hexit
    · exact Or.inr ⟨Or.inr (by rw [hexit]; rfl), hkept _ hexit (by decide)⟩
    · exact Or.inr ⟨Or.inr (by rw [hexit]; rfl), hkept _ hexit nofun⟩

/-- **A step of a lock call.** -/
theorem Step.outcome (h : Step ring s ⟨t, a, r⟩ s') (ha : a = .call c ∨ a = .wake c) :
    (r = some 0 ∧ (s'.threads t).reads = (s.threads t).reads + c.reads ∧
      (s'.threads t).writes = (s.threads t).writes + c.writes) ∨
    ((r = none ∨ r = some (-1)) ∧ (s'.threads t).reads = (s.threads t).reads ∧
      (s'.threads t).writes = (s.threads t).writes) := by
  cases h with
  | call hfree hpc =>
    rename_i c'
    obtain rfl : c' = c := by
      rcases ha with ha | ha
      · injection ha
      · cases ha
    have hcall : (c'.waiter s.lock).call = c' := by cases c' <;> rfl
    have hcounted := enter_counted ring s.lock c'
    rw [← hcall] at hcounted
    have houtcome := hcounted.outcome (s.threads t)
    rw [hcall] at houtcome
    rw [finish_thread]
    exact houtcome
  | wake hfree hpc =>
    rename_i w woken
    obtain rfl : w.call = c := by
      rcases ha with ha | ha
      · cases ha
      · injection ha
    rw [finish_thread]
    exact (body_counted ring s.lock w).outcome (s.threads t)
  | readUnlock _ _ => rcases ha with ha | ha <;> cases ha
  | writeUnlock _ _ => rcases ha with ha | ha <;> cases ha

/-- **A step of an unlock.** -/
theorem Step.released (h : Step ring s ⟨t, c.release, r⟩ s') :
    (s'.threads t).reads = (s.threads t).reads - c.reads ∧
      (s'.threads t).writes = (s.threads t).writes - c.writes := by
  generalize ha : c.release = a at h
  cases h with
  | call _ _ => cases c <;> cases ha
  | wake _ _ => cases c <;> cases ha
  | readUnlock _ _ =>
    rw [finish_thread]
    cases c with
    | quick => exact ⟨rfl, rfl⟩
    | read => exact ⟨rfl, rfl⟩
    | write => cases ha
  | writeUnlock _ _ =>
    rw [finish_thread]
    cases c with
    | quick => cases ha
    | read => cases ha
    | write => exact ⟨rfl, rfl⟩

/-- The other threads hold what they held. -/
theorem Step.others (h : Step ring s e s') (hu : u ≠ e.thread) :
    (s'.threads u).reads = (s.threads u).reads ∧ (s'.threads u).writes = (s.threads u).writes := by
  have hfinish : ∀ t th sec, u ≠ t → ((s.finish t th sec).threads u).reads = (s.threads u).reads ∧
      ((s.finish t th sec).threads u).writes = (s.threads u).writes := by
    intro t th sec hut
    show (update (if sec.broadcast then fun u => (s.threads u).wake else s.threads) t th u).reads = _ ∧
      (update (if sec.broadcast then fun u => (s.threads u).wake else s.threads) t th u).writes = _
    rw [update_of_ne hut]
    split
    · exact ⟨Thread.wake_reads _, Thread.wake_writes _⟩
    · exact ⟨rfl, rfl⟩
  cases h with
  | call _ _ => exact hfinish _ _ _ hu
  | wake _ _ => exact hfinish _ _ _ hu
  | readUnlock _ _ => exact hfinish _ _ _ hu
  | writeUnlock _ _ => exact hfinish _ _ _ hu

variable [Fintype Θ]

/-- **Every correct step** keeps the counters above what is out. -/
theorem Covered.step (h : Covered s) (hstep : Step ring s e s') (hcorrect : Correct s e s') :
    Covered s' := by
  cases hstep with
  | call hfree hpc =>
    rename_i t c
    have hcall : (c.waiter s.lock).call = c := by cases c <;> rfl
    apply h.lockSection
    rw [hcall]
    exact enter_counted ring s.lock c
  | wake _ _ => exact h.run _
  | readUnlock _ _ => exact h.releaseRead hcorrect
  | writeUnlock _ _ => exact h.releaseWrite hcorrect

end SystemProgramming.Rwlock
