import SystemProgramming.Rwlock.Turns

/-!
# A lock that one thread uses

A thread that is alone with a lock is never kept waiting: when it calls, no lock is out and the FIFO is
empty, so its own ticket is the head.  Each pair of a call and an unlock leads back to where it began.

* `call`: a call is granted at once; `release`: an unlock leads back.
-/

namespace SystemProgramming.Rwlock

open Function

/-- The only thread is outside the lock functions and holds `r` read locks and `w` write locks, and
that is what the lock counts. -/
structure Alone (ring : Ring) (r w : ℕ) (s : State Unit) : Prop where
  orderly : Orderly ring s
  thread : s.threads () = ⟨.idle, r, w⟩
  readers : s.lock.currentReaders = r
  writers : s.lock.currentWriters = w

/-- How many read locks a call is for. -/
def LockCall.reads : LockCall → ℕ
  | .quick => 1
  | .read => 1
  | .write => 0

/-- How many write locks a call is for. -/
def LockCall.writes : LockCall → ℕ
  | .quick => 0
  | .read => 0
  | .write => 1

/-- The function that gives back what a call has granted. -/
def LockCall.release : LockCall → Action
  | .quick => .readUnlock
  | .read => .readUnlock
  | .write => .writeUnlock

/-- What gives a lock back does not look at tickets. -/
theorem next_release {Θ : Type} [DecidableEq Θ] (ring ring' : Ring) (s : State Θ) (t : Θ)
    (c : LockCall) : s.next ring t c.release = s.next ring' t c.release := by
  cases c <;> cases hpc : (s.threads t).pc <;> simp only [State.next, LockCall.release, hpc]

theorem finish_thread {Θ : Type} [DecidableEq Θ] (s : State Θ) (t : Θ) (th : Thread)
    (sec : Section) : (s.finish t th sec).threads t = th := update_self _ _ _

theorem join_thread {Θ : Type} [DecidableEq Θ] (ring : Ring) (s : State Θ) (t : Θ) (c : LockCall) :
    (s.join ring t c).threads t = (s.threads t).joined (c.waiter s.lock) := update_self _ _ _

namespace Alone

variable {R : ℕ} {p : 0 < R} {s : State Unit} {r w : ℕ}

theorem init : Alone (Ring.plain R p) 0 0 State.init where
  orderly := by
    refine ⟨rfl, ?_, ?_, Fifo.init⟩
    · exact Covered.of_reach (Reach.init (S := correctSys (Ring.plain R p) Unit) rfl)
    · simp [State.quickWaiters, Thread.quick, State.init, Thread.waiter, Lock.init]
  thread := rfl
  readers := rfl
  writers := rfl

/-- Nobody is in the FIFO. -/
theorem empty (h : Alone (Ring.plain R p) r w s) : s.lock.oldestElement = s.lock.nextElement := by
  by_contra hne
  have hle := h.orderly.fifo.le
  obtain ⟨-, t, v, hv, -, -⟩ := h.orderly.fifo.slot s.lock.oldestElement (Int.le_refl _) (by omega)
  have hidle : s.waiters t = none := by
    show (s.threads ()).waiter = none
    rw [h.thread]
    rfl
  rw [hidle] at hv
  cases hv

/-- **Joining and running the loop body** gets the lock. -/
theorem joined (h : Alone (Ring.plain R p) 0 0 s) {c : LockCall} (hc : c ≠ .quick) :
    ∃ sec, (c.waiter s.lock).body (Ring.plain R p) (c.join (Ring.plain R p) s.lock) = sec ∧
      sec.exit = .ret 0 ∧ sec.lock.currentReaders = c.reads ∧ sec.lock.currentWriters = c.writes := by
  have hidle : (s.threads ()).waiter = none := by
    rw [h.thread]
    rfl
  have hjoin := h.orderly.join p hidle c
  have hturn := hjoin.turn (t := ()) (w := c.waiter s.lock) (by simp [State.join, Thread.joined,
    Thread.waiter])
  have hempty := h.empty
  have hbatch := h.orderly.fifo.batch
  have hr := h.readers
  have hw := h.writers
  have hq : s.lock.qrWaiters = 0 := by
    rw [h.orderly.quick]
    simp [State.quickWaiters, Thread.quick, hidle]
  refine ⟨_, rfl, ?_⟩
  have hlock : (s.join (Ring.plain R p) () c).lock = c.join (Ring.plain R p) s.lock := rfl
  rw [hlock] at hturn
  generalize (c.waiter s.lock).body (Ring.plain R p) (c.join (Ring.plain R p) s.lock) = sec at hturn ⊢
  cases c with
  | quick => exact absurd rfl hc
  | read =>
    change Turn _ _ (.read s.lock.nextElement) sec at hturn
    have hu : (LockCall.read.join (Ring.plain R p) s.lock).currentWriters = s.lock.currentWriters ∧
        (LockCall.read.join (Ring.plain R p) s.lock).currentReaders = s.lock.currentReaders ∧
        (LockCall.read.join (Ring.plain R p) s.lock).readBatchEnd = s.lock.readBatchEnd ∧
        (LockCall.read.join (Ring.plain R p) s.lock).oldestElement = s.lock.oldestElement :=
      ⟨rfl, rfl, rfl, rfl⟩
    obtain ⟨hcw, hcr, hend, hold⟩ := hu
    generalize LockCall.read.join (Ring.plain R p) s.lock = u at hturn hcw hcr hend hold
    cases hturn with
    | blocked hblocked =>
      rcases hblocked with hblocked | ⟨-, hblocked⟩ <;> omega
    | member _ hb _ => omega
    | missed _ hb _ => omega
    | leader _ _ _ _ _ _ _ =>
      refine ⟨rfl, ?_, ?_⟩
      · show u.currentReaders + 1 = 1
        omega
      · show u.currentWriters = 0
        omega
  | write =>
    change Turn _ _ (.write s.lock.nextElement) sec at hturn
    have hu : (LockCall.write.join (Ring.plain R p) s.lock).currentWriters = s.lock.currentWriters ∧
        (LockCall.write.join (Ring.plain R p) s.lock).currentReaders = s.lock.currentReaders ∧
        (LockCall.write.join (Ring.plain R p) s.lock).qrWaiters = s.lock.qrWaiters ∧
        (LockCall.write.join (Ring.plain R p) s.lock).oldestElement = s.lock.oldestElement :=
      ⟨rfl, rfl, rfl, rfl⟩
    obtain ⟨hcw, hcr, hqr, hold⟩ := hu
    generalize LockCall.write.join (Ring.plain R p) s.lock = u at hturn hcw hcr hqr hold
    cases hturn with
    | blocked hblocked =>
      rcases hblocked with hblocked | hblocked | hblocked | hblocked <;> omega
    | writer _ _ _ _ _ =>
      refine ⟨rfl, ?_, rfl⟩
      show u.currentReaders = 0
      omega

theorem next_call {ring : Ring} {c : LockCall} (hfree : s.stuck = false)
    (hpc : (s.threads ()).pc = .idle) :
    s.next ring () (.call c) = some (⟨(), .call c, (c.enter ring s.lock).exit.result⟩,
      s.finish () ((s.threads ()).after (c.waiter s.lock) (c.enter ring s.lock).exit)
        (c.enter ring s.lock)) := by
  unfold State.next
  rw [if_neg (by simp [hfree]), hpc]

/-- **A call is granted at once.** -/
theorem call (h : Alone (Ring.plain R p) 0 0 s) (c : LockCall) :
    ∃ s', s.next (Ring.plain R p) () (.call c) = some (⟨(), .call c, some 0⟩, s') ∧
      Alone (Ring.plain R p) c.reads c.writes s' := by
  have hpc : (s.threads ()).pc = .idle := by rw [h.thread]
  have hidle : (s.threads ()).waiter = none := by rw [h.thread]; rfl
  rw [next_call h.orderly.free hpc]
  have hr := h.readers
  have hw : s.lock.currentWriters = 0 := h.writers
  by_cases hc : c = .quick
  · subst hc
    have hfast := @finish_fast Unit _ (Ring.plain R p) s () hw
    have hexit : (LockCall.quick.enter (Ring.plain R p) s.lock).exit = .ret 0 := by
      show (rwlockReadLockQuick s.lock).exit = .ret 0
      rw [rwlockReadLockQuick, if_pos hw]
    refine ⟨s.fast (), ?_, h.orderly.fast hidle hw, ?_, ?_, hw⟩
    · rw [← hfast, hexit]
      rfl
    · rw [State.fast_eq, finish_thread, h.thread]
      rfl
    · show s.lock.currentReaders + 1 = 1
      omega
  · have hquick : ¬ QuickFast s c := fun hquick => hc hquick.1
    obtain ⟨sec, hsec, hexit, hreaders, hwriters⟩ := h.joined hc
    have henter : c.enter (Ring.plain R p) s.lock = sec := by rw [enter_eq_body hquick, hsec]
    have hjoin := h.orderly.join p hidle c
    have hrun := hjoin.run (t := ()) (w := c.waiter s.lock) (by simp [State.join, Thread.joined,
      Thread.waiter])
    refine ⟨(s.join (Ring.plain R p) () c).run (Ring.plain R p) () (c.waiter s.lock), ?_, hrun, ?_, ?_,
      ?_⟩
    · rw [finish_enter hquick, henter, hexit]
      rfl
    · have hlock : (s.join (Ring.plain R p) () c).lock = c.join (Ring.plain R p) s.lock := rfl
      rw [State.run, hlock, hsec, hexit, finish_thread, join_thread, h.thread]
      cases c <;> rfl
    · rw [← hreaders, ← hsec]
      rfl
    · rw [← hwriters, ← hsec]
      rfl

/-- **An unlock leads back.** -/
theorem release (c : LockCall) (h : Alone (Ring.plain R p) c.reads c.writes s) :
    ∃ e s', s.next (Ring.plain R p) () c.release = some (e, s') ∧ Alone (Ring.plain R p) 0 0 s' := by
  have hpc : (s.threads ()).pc = .idle := by rw [h.thread]
  have hr := h.readers
  have hw := h.writers
  have hfree : ¬ s.stuck = true := by simp [h.orderly.free]
  have hread : c.reads = 1 ∧ c.writes = 0 → 0 < (s.threads ()).reads ∧
      Alone (Ring.plain R p) 0 0 (s.releaseRead ()) := by
    rintro ⟨hc₁, hc₂⟩
    have hheld : 0 < (s.threads ()).reads := by
      rw [h.thread, hc₁]
      exact Nat.one_pos
    have hcounts := readUnlock_counts s.lock
    refine ⟨hheld, h.orderly.releaseRead hheld, ?_, ?_, ?_⟩
    · rw [State.releaseRead, finish_thread, h.thread, hc₁, hc₂]
      rfl
    · show (rwlockReadUnlock s.lock).lock.currentReaders = 0
      omega
    · show (rwlockReadUnlock s.lock).lock.currentWriters = 0
      omega
  have hwrite : c.reads = 0 ∧ c.writes = 1 → 0 < (s.threads ()).writes ∧
      Alone (Ring.plain R p) 0 0 (s.releaseWrite ()) := by
    rintro ⟨hc₁, hc₂⟩
    have hheld : 0 < (s.threads ()).writes := by
      rw [h.thread, hc₂]
      exact Nat.one_pos
    have hcounts := writeUnlock_counts s.lock
    refine ⟨hheld, h.orderly.releaseWrite hheld, ?_, ?_, ?_⟩
    · rw [State.releaseWrite, finish_thread, h.thread, hc₁, hc₂]
      rfl
    · show (rwlockWriteUnlock s.lock).lock.currentReaders = 0
      omega
    · show (rwlockWriteUnlock s.lock).lock.currentWriters = 0
      omega
  unfold State.next
  rw [if_neg hfree, hpc]
  cases c with
  | quick =>
    obtain ⟨hheld, halone⟩ := hread ⟨rfl, rfl⟩
    exact ⟨_, _, if_pos hheld, halone⟩
  | read =>
    obtain ⟨hheld, halone⟩ := hread ⟨rfl, rfl⟩
    exact ⟨_, _, if_pos hheld, halone⟩
  | write =>
    obtain ⟨hheld, halone⟩ := hwrite ⟨rfl, rfl⟩
    exact ⟨_, _, if_pos hheld, halone⟩

end Alone

end SystemProgramming.Rwlock
