import SystemProgramming.Rwlock.Lock
import SystemProgramming.Lib.Runs

/-!
# Threads that share a lock

Every section is one atomic step.  A thread is outside the functions of the lock, or it waits on the
condition variable and may wake up at any time, broadcast or not.  `woken` records whether there has
been a broadcast since it went to sleep; no step looks at it.  Where a function returns without
releasing `rw->lock`, the mutex stays locked and nobody runs another section.

* `Step`, `lockSys`, `correctSys`: the threads and their steps, and those of correct threads.
* `invariant_of_events`: the rule for invariants of runs.
* `State.next`, `play`: the run that a list of actions determines; `reach_of_play` says that it is one.
-/

namespace SystemProgramming.Rwlock

open Function

/-- The calls that take the lock: `rwlock_read_lock(rw, 1)`, `rwlock_read_lock(rw, 0)` and
`rwlock_write_lock(rw)`. -/
inductive LockCall where
  | quick
  | read
  | write
  deriving DecidableEq

/-- What a thread that waits in a lock call remembers: its kind, and `my_turn` if it has one. -/
inductive Waiter where
  | quick
  | read (myTurn : ℤ)
  | write (myTurn : ℤ)
  deriving DecidableEq

def Waiter.call : Waiter → LockCall
  | .quick => .quick
  | .read _ => .read
  | .write _ => .write

/-- The section of a thread that wakes up. -/
def Waiter.body (ring : Ring) (u : Lock) : Waiter → Section
  | .quick => quickBody u
  | .read myTurn => readBody ring u myTurn
  | .write myTurn => writeBody ring u myTurn

/-- The first section of a lock call. -/
def LockCall.enter (ring : Ring) (u : Lock) : LockCall → Section
  | .quick => rwlockReadLockQuick u
  | .read => rwlockReadLock ring u
  | .write => rwlockWriteLock ring u

/-- What the thread remembers if that section ends in waiting. -/
def LockCall.waiter (u : Lock) : LockCall → Waiter
  | .quick => .quick
  | .read => .read u.nextElement
  | .write => .write u.nextElement

/-- Where a thread is. -/
inductive Pc where
  | idle
  | waiting (w : Waiter) (woken : Bool)
  deriving DecidableEq

/-- A thread, with the number of read and write locks it has been granted and has not released. -/
structure Thread where
  pc : Pc
  reads : ℕ
  writes : ℕ
  deriving DecidableEq

/-- What the thread waits for, if it waits. -/
def Thread.waiter (th : Thread) : Option Waiter :=
  match th.pc with
  | .idle => none
  | .waiting w _ => some w

/-- A broadcast reaches the thread. -/
def Thread.wake (th : Thread) : Thread :=
  match th.pc with
  | .idle => th
  | .waiting w _ => { th with pc := .waiting w true }

/-- The thread has been granted the lock. -/
def Thread.grant (th : Thread) : LockCall → Thread
  | .quick => { th with pc := .idle, reads := th.reads + 1 }
  | .read => { th with pc := .idle, reads := th.reads + 1 }
  | .write => { th with pc := .idle, writes := th.writes + 1 }

/-- The thread after a section of a lock call. -/
def Thread.after (th : Thread) (w : Waiter) : Exit → Thread
  | .wait => { th with pc := .waiting w false }
  | .ret code => if code = 0 then th.grant w.call else { th with pc := .idle }
  | .retLocked _ => { th with pc := .idle }

/-- The thread waits, without having been sent to sleep. -/
def Thread.joined (th : Thread) (w : Waiter) : Thread := { th with pc := .waiting w true }

/-- The thread gives back a read lock. -/
def Thread.dropRead (th : Thread) : Thread := { th with reads := th.reads - 1 }

/-- The thread gives back a write lock. -/
def Thread.dropWrite (th : Thread) : Thread := { th with writes := th.writes - 1 }

@[simp] theorem Thread.joined_reads (th : Thread) (w : Waiter) : (th.joined w).reads = th.reads := rfl

@[simp] theorem Thread.joined_writes (th : Thread) (w : Waiter) :
    (th.joined w).writes = th.writes := rfl

@[simp] theorem Thread.dropRead_reads (th : Thread) : th.dropRead.reads = th.reads - 1 := rfl

@[simp] theorem Thread.dropRead_writes (th : Thread) : th.dropRead.writes = th.writes := rfl

@[simp] theorem Thread.dropWrite_reads (th : Thread) : th.dropWrite.reads = th.reads := rfl

@[simp] theorem Thread.dropWrite_writes (th : Thread) : th.dropWrite.writes = th.writes - 1 := rfl

/-- The lock and its threads; `stuck` when a thread has returned with the mutex locked. -/
structure State (Θ : Type) where
  lock : Lock
  stuck : Bool
  threads : Θ → Thread

/-- What a thread does. -/
inductive Action where
  | call (c : LockCall)
  | wake (c : LockCall)
  | readUnlock
  | writeUnlock
  deriving DecidableEq

/-- A step as it shows from outside: who did what, and the value returned if a call returned. -/
structure Event (Θ : Type) where
  thread : Θ
  action : Action
  result : Option ℤ

def Exit.result : Exit → Option ℤ
  | .wait => none
  | .ret code => some code
  | .retLocked code => some code

def Exit.locked : Exit → Bool
  | .wait => false
  | .ret _ => false
  | .retLocked _ => true

variable {Θ : Type}

/-- All threads before anyone has called a function of the lock. -/
def State.init : State Θ := ⟨Lock.init, false, fun _ => ⟨.idle, 0, 0⟩⟩

variable [DecidableEq Θ]

/-- The state after a section that leaves the thread `t` as `th`. -/
def State.finish (s : State Θ) (t : Θ) (th : Thread) (sec : Section) : State Θ where
  lock := sec.lock
  stuck := sec.exit.locked
  threads := update (if sec.broadcast then fun u => (s.threads u).wake else s.threads) t th

/-- One section is run. -/
inductive Step (ring : Ring) (s : State Θ) : Event Θ → State Θ → Prop where
  | call {t : Θ} {c : LockCall} (hfree : s.stuck = false) (hpc : (s.threads t).pc = .idle) :
      Step ring s ⟨t, .call c, (c.enter ring s.lock).exit.result⟩
        (s.finish t ((s.threads t).after (c.waiter s.lock) (c.enter ring s.lock).exit)
          (c.enter ring s.lock))
  | wake {t : Θ} {w : Waiter} {woken : Bool} (hfree : s.stuck = false)
      (hpc : (s.threads t).pc = .waiting w woken) :
      Step ring s ⟨t, .wake w.call, (w.body ring s.lock).exit.result⟩
        (s.finish t ((s.threads t).after w (w.body ring s.lock).exit) (w.body ring s.lock))
  | readUnlock {t : Θ} (hfree : s.stuck = false) (hpc : (s.threads t).pc = .idle) :
      Step ring s ⟨t, .readUnlock, (rwlockReadUnlock s.lock).exit.result⟩
        (s.finish t (s.threads t).dropRead (rwlockReadUnlock s.lock))
  | writeUnlock {t : Θ} (hfree : s.stuck = false) (hpc : (s.threads t).pc = .idle) :
      Step ring s ⟨t, .writeUnlock, (rwlockWriteUnlock s.lock).exit.result⟩
        (s.finish t (s.threads t).dropWrite
          (rwlockWriteUnlock s.lock))

/-- Threads that share a lock. -/
def lockSys (ring : Ring) (Θ : Type) [DecidableEq Θ] : Sys (State Θ) (Event Θ) where
  init s := s = State.init
  step := Step ring

/-- A thread unlocks only what it has been granted. -/
def Correct (s : State Θ) (e : Event Θ) (_ : State Θ) : Prop :=
  match e.action with
  | .readUnlock => 0 < (s.threads e.thread).reads
  | .writeUnlock => 0 < (s.threads e.thread).writes
  | .call _ => True
  | .wake _ => True

/-- Threads that use the lock correctly. -/
def correctSys (ring : Ring) (Θ : Type) [DecidableEq Θ] : Sys (State Θ) (Event Θ) :=
  (lockSys ring Θ).restrict Correct

/-! ### A lock call as joining and then running the loop body -/

/-- The lock once a waiter has been counted or has joined the FIFO. -/
def LockCall.join (ring : Ring) (u : Lock) : LockCall → Lock
  | .quick => { u with qrWaiters := u.qrWaiters + 1 }
  | .read => (joinFifo ring u u.nextElement .read).2
  | .write => (joinFifo ring u u.nextElement .write).2

/-- The state in which the thread has joined and has not looked at the lock yet. -/
def State.join (ring : Ring) (s : State Θ) (t : Θ) (c : LockCall) : State Θ where
  lock := c.join ring s.lock
  stuck := false
  threads := update s.threads t ((s.threads t).joined (c.waiter s.lock))

/-- The thread runs its loop body. -/
def State.run (ring : Ring) (s : State Θ) (t : Θ) (w : Waiter) : State Θ :=
  s.finish t ((s.threads t).after w (w.body ring s.lock).exit) (w.body ring s.lock)

theorem Thread.after_joined (th : Thread) (w w' : Waiter) (x : Exit) :
    (th.joined w').after w x = th.after w x := by
  cases x with
  | wait => rfl
  | ret code =>
    by_cases hcode : code = 0
    · cases w <;> simp [Thread.after, Thread.grant, Thread.joined, Waiter.call, hcode]
    · simp [Thread.after, Thread.joined, hcode]
  | retLocked code => rfl

/-- A quick reader that finds no writer does not join. -/
def QuickFast (s : State Θ) (c : LockCall) : Prop := c = .quick ∧ s.lock.currentWriters = 0

theorem enter_eq_body {ring : Ring} {u : Lock} {c : LockCall}
    (h : ¬ (c = .quick ∧ u.currentWriters = 0)) :
    c.enter ring u = (c.waiter u).body ring (c.join ring u) := by
  cases c with
  | quick =>
    have hw : u.currentWriters ≠ 0 := fun hw => h ⟨rfl, hw⟩
    show rwlockReadLockQuick u = _
    unfold rwlockReadLockQuick
    rw [if_neg hw]
    rfl
  | read => rfl
  | write => rfl

/-- **A call is joining and running**, unless it is the fast path of a quick reader. -/
theorem finish_enter {ring : Ring} {s : State Θ} {t : Θ} {c : LockCall} (h : ¬ QuickFast s c) :
    s.finish t ((s.threads t).after (c.waiter s.lock) (c.enter ring s.lock).exit)
      (c.enter ring s.lock) = (s.join ring t c).run ring t (c.waiter s.lock) := by
  have hbody := @enter_eq_body ring s.lock c h
  unfold State.run
  rw [hbody]
  show State.finish s t _ _ = State.finish (s.join ring t c) t _ _
  unfold State.finish State.join
  simp only [update_self, Thread.after_joined]
  congr 1
  funext v
  by_cases hv : v = t
  · subst hv
    rw [update_self, update_self]
  · rw [update_of_ne hv, update_of_ne hv]
    split
    · show (s.threads v).wake = (update s.threads t _ v).wake
      rw [update_of_ne hv]
    · rw [update_of_ne hv]

/-- The state after the fast path of a quick reader. -/
def State.fast (s : State Θ) (t : Θ) : State Θ where
  lock := { s.lock with currentReaders := s.lock.currentReaders + 1 }
  stuck := false
  threads := update s.threads t ((s.threads t).grant .quick)

theorem finish_fast {ring : Ring} {s : State Θ} {t : Θ} (h : s.lock.currentWriters = 0) :
    s.finish t ((s.threads t).after .quick (LockCall.quick.enter ring s.lock).exit)
      (LockCall.quick.enter ring s.lock) = s.fast t := by
  have henter : LockCall.quick.enter ring s.lock =
      ⟨{ s.lock with currentReaders := s.lock.currentReaders + 1 }, .ret 0, false⟩ := by
    show rwlockReadLockQuick s.lock = _
    unfold rwlockReadLockQuick
    rw [if_pos h]
  rw [henter]
  rfl

/-- The state after `rwlock_read_unlock` by a thread that holds a read lock. -/
def State.releaseRead (s : State Θ) (t : Θ) : State Θ :=
  s.finish t (s.threads t).dropRead (rwlockReadUnlock s.lock)

/-- The state after `rwlock_write_unlock` by a thread that holds the write lock. -/
def State.releaseWrite (s : State Θ) (t : Θ) : State Θ :=
  s.finish t (s.threads t).dropWrite (rwlockWriteUnlock s.lock)

/-! ### Invariants -/

/-- The event of a call that joins, or of a waiter that wakes up, and runs its loop body. -/
def runEvent (ring : Ring) (u : Lock) (t : Θ) (a : Action) (w : Waiter) : Event Θ :=
  ⟨t, a, (w.body ring u).exit.result⟩

/-- **Invariants of runs.**  A step is a quick reader's fast path, a call that joins and runs its
loop body, a waiter that runs its loop body, or an unlock by a holder. -/
theorem invariant_of_events {ring : Ring} {P : State Θ → Event Θ → State Θ → Prop}
    {I : List (Event Θ) → State Θ → Prop} {tr : List (Event Θ)} {s : State Θ}
    (hinit : I [] State.init)
    (hfast : ∀ tr s t, I tr s → s.stuck = false → (s.threads t).waiter = none →
      s.lock.currentWriters = 0 → I (tr ++ [⟨t, .call .quick, some 0⟩]) (s.fast t))
    (hcall : ∀ tr s t c, I tr s → s.stuck = false → (s.threads t).waiter = none → ¬ QuickFast s c →
      I (tr ++ [runEvent ring (c.join ring s.lock) t (.call c) (c.waiter s.lock)])
        ((s.join ring t c).run ring t (c.waiter s.lock)))
    (hwake : ∀ tr s t w s', I tr s → s.stuck = false → (s.threads t).waiter = some w →
      P s (runEvent ring s.lock t (.wake w.call) w) s' →
      I (tr ++ [runEvent ring s.lock t (.wake w.call) w]) (s.run ring t w))
    (hread : ∀ tr s t r s', I tr s → s.stuck = false → (s.threads t).waiter = none →
      0 < (s.threads t).reads → P s ⟨t, .readUnlock, r⟩ s' →
      I (tr ++ [⟨t, .readUnlock, r⟩]) (s.releaseRead t))
    (hwrite : ∀ tr s t r, I tr s → s.stuck = false → (s.threads t).waiter = none →
      0 < (s.threads t).writes → I (tr ++ [⟨t, .writeUnlock, r⟩]) (s.releaseWrite t))
    (h : Reach ((correctSys ring Θ).restrict P) tr s) : I tr s := by
  refine h.invariant (fun s hs => ?_) fun tr s e s' hI hstep => ?_
  · rw [show s = State.init from hs]
    exact hinit
  · obtain ⟨⟨hstep, hcorrect⟩, hP⟩ := hstep
    cases hstep with
    | call hfree hpc =>
      rename_i t c
      have hidle : (s.threads t).waiter = none := by simp [Thread.waiter, hpc]
      by_cases hquick : QuickFast s c
      · obtain ⟨rfl, hw⟩ := hquick
        have hexit : (LockCall.quick.enter ring s.lock).exit = .ret 0 := by
          show (rwlockReadLockQuick s.lock).exit = .ret 0
          unfold rwlockReadLockQuick
          rw [if_pos hw]
        have hfin := @finish_fast Θ _ ring s t hw
        show I (tr ++ [⟨t, .call .quick, (LockCall.quick.enter ring s.lock).exit.result⟩])
          (s.finish t ((s.threads t).after .quick (LockCall.quick.enter ring s.lock).exit)
            (LockCall.quick.enter ring s.lock))
        rw [hfin, hexit]
        exact hfast tr s t hI hfree hidle hw
      · rw [finish_enter hquick, enter_eq_body hquick]
        exact hcall tr s t c hI hfree hidle hquick
    | wake hfree hpc =>
      exact hwake tr s _ _ _ hI hfree (by simp [Thread.waiter, hpc]) hP
    | readUnlock hfree hpc =>
      exact hread tr s _ _ _ hI hfree (by simp [Thread.waiter, hpc]) hcorrect hP
    | writeUnlock hfree hpc =>
      exact hwrite tr s _ _ hI hfree (by simp [Thread.waiter, hpc]) hcorrect

/-- Invariants of the states alone. -/
theorem invariant_of_steps {ring : Ring} {P : State Θ → Event Θ → State Θ → Prop}
    {I : State Θ → Prop} {tr : List (Event Θ)} {s : State Θ} (hinit : I State.init)
    (hfast : ∀ s t, I s → s.stuck = false → (s.threads t).waiter = none →
      s.lock.currentWriters = 0 → I (s.fast t))
    (hcall : ∀ s t c, I s → s.stuck = false → (s.threads t).waiter = none → ¬ QuickFast s c →
      I ((s.join ring t c).run ring t (c.waiter s.lock)))
    (hwake : ∀ s t w s', I s → s.stuck = false → (s.threads t).waiter = some w →
      P s (runEvent ring s.lock t (.wake w.call) w) s' → I (s.run ring t w))
    (hread : ∀ s t r s', I s → s.stuck = false → (s.threads t).waiter = none →
      0 < (s.threads t).reads → P s ⟨t, .readUnlock, r⟩ s' → I (s.releaseRead t))
    (hwrite : ∀ s t, I s → s.stuck = false → (s.threads t).waiter = none →
      0 < (s.threads t).writes → I (s.releaseWrite t))
    (h : Reach ((correctSys ring Θ).restrict P) tr s) : I s :=
  invariant_of_events (I := fun _ s => I s) hinit (fun _ => hfast) (fun _ => hcall)
    (fun _ => hwake) (fun _ => hread) (fun _ s t _ => hwrite s t) h

/-! ### Runs, computed -/

/-- One step of correct threads: `t` does `a`, if it can. -/
def State.next (ring : Ring) (s : State Θ) (t : Θ) (a : Action) : Option (Event Θ × State Θ) :=
  if s.stuck = true then none
  else
    match a, (s.threads t).pc with
    | .call c, .idle =>
      some (⟨t, .call c, (c.enter ring s.lock).exit.result⟩,
        s.finish t ((s.threads t).after (c.waiter s.lock) (c.enter ring s.lock).exit)
          (c.enter ring s.lock))
    | .wake c, .waiting w _ =>
      if w.call = c then
        some (⟨t, .wake w.call, (w.body ring s.lock).exit.result⟩,
          s.finish t ((s.threads t).after w (w.body ring s.lock).exit) (w.body ring s.lock))
      else none
    | .readUnlock, .idle =>
      if 0 < (s.threads t).reads then
        some (⟨t, .readUnlock, (rwlockReadUnlock s.lock).exit.result⟩, s.releaseRead t)
      else none
    | .writeUnlock, .idle =>
      if 0 < (s.threads t).writes then
        some (⟨t, .writeUnlock, (rwlockWriteUnlock s.lock).exit.result⟩, s.releaseWrite t)
      else none
    | .call _, .waiting _ _ => none
    | .wake _, .idle => none
    | .readUnlock, .waiting _ _ => none
    | .writeUnlock, .waiting _ _ => none

/-- The run in which the threads do the given things in the given order, if each step meets the
condition `P`. -/
def playIn (P : State Θ → Event Θ → State Θ → Prop) [∀ s e s', Decidable (P s e s')] (ring : Ring)
    (tr : List (Event Θ)) (s : State Θ) : List (Θ × Action) → Option (List (Event Θ) × State Θ)
  | [] => some (tr, s)
  | (t, a) :: acts =>
    match s.next ring t a with
    | none => none
    | some (e, s') => if P s e s' then playIn P ring (tr ++ [e]) s' acts else none

/-- The run in which the threads do the given things in the given order. -/
def play (ring : Ring) (tr : List (Event Θ)) (s : State Θ) :
    List (Θ × Action) → Option (List (Event Θ) × State Θ) := playIn (fun _ _ _ => True) ring tr s

theorem step_of_next {ring : Ring} {s s' : State Θ} {t : Θ} {a : Action} {e : Event Θ}
    (h : s.next ring t a = some (e, s')) : (correctSys ring Θ).step s e s' := by
  unfold State.next at h
  split at h
  · cases h
  · rename_i hstuck
    have hfree : s.stuck = false := Bool.not_eq_true _ ▸ hstuck
    split at h
    · rename_i hpc
      cases h
      exact ⟨.call hfree hpc, trivial⟩
    · rename_i hpc
      split at h
      · cases h
        exact ⟨.wake hfree hpc, trivial⟩
      · cases h
    · rename_i hpc
      split at h
      · rename_i hheld
        cases h
        exact ⟨.readUnlock hfree hpc, hheld⟩
      · cases h
    · rename_i hpc
      split at h
      · rename_i hheld
        cases h
        exact ⟨.writeUnlock hfree hpc, hheld⟩
      · cases h
    all_goals cases h

theorem event_of_next {ring : Ring} {s s' : State Θ} {t : Θ} {a : Action} {e : Event Θ}
    (h : s.next ring t a = some (e, s')) : e = ⟨t, a, e.result⟩ := by
  unfold State.next at h
  split at h
  · cases h
  · split at h
    · cases h
      rfl
    · split at h
      · rename_i hc
        cases h
        rw [← hc]
      · cases h
    · split at h <;> cases h
      rfl
    · split at h <;> cases h
      rfl
    all_goals cases h

theorem action_of_next {ring : Ring} {s s' : State Θ} {t : Θ} {a : Action} {e : Event Θ}
    (h : s.next ring t a = some (e, s')) : e.action = a := congrArg Event.action (event_of_next h)

/-- A run that can be played is one of every system that has the steps of correct threads under the
condition. -/
theorem reach_of_playIn {ring : Ring} {P : State Θ → Event Θ → State Θ → Prop}
    [∀ s e s', Decidable (P s e s')] {S : Sys (State Θ) (Event Θ)}
    (hS : ∀ s e s', ((correctSys ring Θ).restrict P).step s e s' → S.step s e s')
    {acts : List (Θ × Action)} {tr tr' : List (Event Θ)} {s s' : State Θ} (h : Reach S tr s)
    (hplay : playIn P ring tr s acts = some (tr', s')) : Reach S tr' s' := by
  induction acts generalizing tr s with
  | nil =>
    cases hplay
    exact h
  | cons ta acts ih =>
    unfold playIn at hplay
    split at hplay
    · cases hplay
    · rename_i e s₁ hnext
      split at hplay
      · rename_i hP
        exact ih (h.step (hS _ _ _ ⟨step_of_next hnext, hP⟩)) hplay
      · cases hplay

/-- A run can be played in every system that has the steps of correct threads. -/
theorem reach_of_play_in {ring : Ring} {S : Sys (State Θ) (Event Θ)}
    (hS : ∀ s e s', (correctSys ring Θ).step s e s' → S.step s e s') {acts : List (Θ × Action)}
    {tr tr' : List (Event Θ)} {s s' : State Θ} (h : Reach S tr s)
    (hplay : play ring tr s acts = some (tr', s')) : Reach S tr' s' :=
  reach_of_playIn (fun _ _ _ hs => hS _ _ _ hs.1) h hplay

theorem reach_of_play {ring : Ring} {acts : List (Θ × Action)} {tr tr' : List (Event Θ)}
    {s s' : State Θ} (h : Reach (correctSys ring Θ) tr s)
    (hplay : play ring tr s acts = some (tr', s')) :
    Reach (correctSys ring Θ) tr' s' :=
  reach_of_play_in (fun _ _ _ hs => hs) h hplay

/-- What has happened before does not matter. -/
theorem playIn_append {ring : Ring} {P : State Θ → Event Θ → State Θ → Prop}
    [∀ s e s', Decidable (P s e s')] (tr tr' : List (Event Θ)) (s : State Θ)
    (acts : List (Θ × Action)) : playIn P ring (tr ++ tr') s acts
      = (playIn P ring tr' s acts).map fun q => (tr ++ q.1, q.2) := by
  induction acts generalizing tr' s with
  | nil => rfl
  | cons ta acts ih =>
    simp only [playIn, List.append_assoc]
    cases hnext : s.next ring ta.1 ta.2 with
    | none => rfl
    | some q =>
      simp only []
      split
      · exact ih _ _
      · rfl

/-- A run goes on with one that is played from where it is. -/
theorem reach_of_play_from {ring : Ring} {acts : List (Θ × Action)} {tr tr' : List (Event Θ)}
    {s s' : State Θ} (h : Reach (correctSys ring Θ) tr s)
    (hplay : play ring [] s acts = some (tr', s')) : Reach (correctSys ring Θ) (tr ++ tr') s' := by
  have happend : play ring (tr ++ []) s acts = (play ring [] s acts).map fun q => (tr ++ q.1, q.2) :=
    playIn_append tr [] s acts
  rw [List.append_nil, hplay] at happend
  exact reach_of_play h happend

/-- What a run under a condition that can be played shows and ends with is reached. -/
theorem exists_reachIn (P : State Θ → Event Θ → State Θ → Prop) [∀ s e s', Decidable (P s e s')]
    (ring : Ring) (acts : List (Θ × Action)) {α : Type} {f : List (Event Θ) × State Θ → α} {v : α}
    (h : (playIn P ring [] State.init acts).map f = some v) :
    ∃ tr s, Reach ((correctSys ring Θ).restrict P) tr s ∧ f (tr, s) = v := by
  obtain ⟨⟨tr, s⟩, hplay, hv⟩ := Option.map_eq_some_iff.mp h
  have hinit : Reach ((correctSys ring Θ).restrict P) [] (State.init : State Θ) := Reach.init rfl
  exact ⟨tr, s, reach_of_playIn (fun _ _ _ hs => hs) hinit hplay, hv⟩

/-- What a run that can be played ends with is reached. -/
theorem exists_reach (ring : Ring) (acts : List (Θ × Action)) {α : Type} {f : State Θ → α} {v : α}
    (h : (play ring [] State.init acts).map (fun p => f p.2) = some v) :
    ∃ tr s, Reach (correctSys ring Θ) tr s ∧ f s = v := by
  obtain ⟨tr, s, hreach, hv⟩ := exists_reachIn (fun _ _ _ => True) ring acts h
  exact ⟨tr, s, hreach.unrestrict, hv⟩

end SystemProgramming.Rwlock
