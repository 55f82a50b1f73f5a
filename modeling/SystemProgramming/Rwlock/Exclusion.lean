import SystemProgramming.Rwlock.Threads
import Mathlib.Algebra.Order.BigOperators.Group.Finset

/-!
# Mutual exclusion

`current_readers` and `current_writers` never fall below the number of locks that are granted and not
released (`Covered`): each grant is counted, and an unlock gives back what was granted.  They may
exceed it, where a lock call fails after it has counted itself.  A grant looks at these counters
first, so two grants that exclude each other are never out at the same time, for any ring size, also
when slots of the ring are overwritten or tickets overflow.

* `Covered.of_reach`: the counters cover what is out in every state.
* `rwlock_exclusive`: mutual exclusion, for any number of threads and any ring.
-/

namespace SystemProgramming.Rwlock

open Function

variable {Θ : Type} [DecidableEq Θ] {ring : Ring} {s s' : State Θ} {e : Event Θ} {t : Θ}
  {tr : List (Event Θ)}

/-! ### What a section does to the two counters -/

theorem join_counts (ring : Ring) (u : Lock) (c : LockCall) :
    (c.join ring u).currentReaders = u.currentReaders ∧
      (c.join ring u).currentWriters = u.currentWriters := by
  cases c <;> exact ⟨rfl, rfl⟩

/-- A section of a lock call on the lock `u`: the thread waits, or it is counted and granted, or the
call fails and leaves the counters at least as they were. -/
inductive Counted (u : Lock) (c : LockCall) (sec : Section) : Prop where
  | waits (hexit : sec.exit = .wait) (hr : sec.lock.currentReaders = u.currentReaders)
      (hw : sec.lock.currentWriters = u.currentWriters)
  | reads (hexit : sec.exit = .ret 0) (hc : c ≠ .write) (hfree : u.currentWriters ≤ 0)
      (hr : sec.lock.currentReaders = u.currentReaders + 1)
      (hw : sec.lock.currentWriters = u.currentWriters)
  | writes (hexit : sec.exit = .ret 0) (hc : c = .write) (hreaders : u.currentReaders ≤ 0)
      (hfree : u.currentWriters ≤ 0) (hr : sec.lock.currentReaders = u.currentReaders)
      (hw : sec.lock.currentWriters = 1)
  | fails (hexit : sec.exit = .ret (-1) ∨ sec.exit = .retLocked (-1))
      (hr : u.currentReaders ≤ sec.lock.currentReaders)
      (hw : u.currentWriters ≤ sec.lock.currentWriters)

/-- **Every loop body** counts what it grants. -/
theorem body_counted (ring : Ring) (u : Lock) (w : Waiter) : Counted u w.call (w.body ring u) := by
  cases w with
  | quick =>
    show Counted u .quick (quickBody u)
    unfold quickBody
    split
    · exact .waits rfl rfl rfl
    · exact .reads rfl (by decide) (by omega) rfl rfl
  | read n =>
    show Counted u .read (readBody ring u n)
    rcases readBody_cases ring u n with
      ⟨-, h⟩ | ⟨hfree, -, h⟩ | ⟨hfree, -, ⟨-, h⟩ | ⟨-, -, -, h⟩ | ⟨-, -, h⟩⟩
    · rw [h]
      exact .waits rfl rfl rfl
    · rw [h]
      cases hm : slotMatches ring { u with currentReaders := u.currentReaders + 1 } n none with
      | true =>
        rw [finishGrant_of_match hm]
        exact .reads rfl (by decide) (by omega) rfl rfl
      | false =>
        rw [finishGrant_of_miss hm]
        exact .fails (Or.inl rfl) (Int.le_add_one (Int.le_refl _)) (Int.le_refl _)
    · rw [h]
      exact .waits rfl rfl rfl
    · rw [h]
      cases hm : slotMatches ring (Lock.lead ring { u with oldestElement := n } n n) n none with
      | true =>
        rw [finishGrant_of_match hm]
        exact .reads rfl (by decide) hfree rfl rfl
      | false =>
        rw [finishGrant_of_miss hm]
        exact .fails (Or.inl rfl) (Int.le_add_one (Int.le_refl _)) (Int.le_refl _)
    · rw [h]
      exact .waits rfl rfl rfl
  | write n =>
    show Counted u .write (writeBody ring u n)
    rcases writeBody_cases ring u n with
      ⟨-, h⟩ | ⟨hreaders, hfree, -, ⟨-, h⟩ | ⟨-, -, -, h⟩ | ⟨-, -, h⟩⟩
    · rw [h]
      exact .waits rfl rfl rfl
    · rw [h]
      exact .fails (Or.inr rfl) (Int.le_refl _) (Int.le_refl _)
    · rw [h]
      cases hm : slotMatches ring { u with oldestElement := n, currentWriters := 1 } n none with
      | true =>
        rw [finishGrant_of_match hm]
        exact .writes rfl rfl hreaders hfree rfl rfl
      | false =>
        rw [finishGrant_of_miss hm]
        exact .fails (Or.inl rfl) (Int.le_refl _) (show u.currentWriters ≤ 1 by omega)
    · rw [h]
      exact .waits rfl rfl rfl

/-- Joining holds nothing and counts nothing. -/
theorem State.join_eq (ring : Ring) (s : State Θ) (t : Θ) (c : LockCall) :
    s.join ring t c = s.finish t ((s.threads t).joined (c.waiter s.lock))
      ⟨c.join ring s.lock, .wait, false⟩ := rfl

theorem State.fast_eq (s : State Θ) (t : Θ) :
    s.fast t = s.finish t ((s.threads t).after .quick (.ret 0))
      ⟨{ s.lock with currentReaders := s.lock.currentReaders + 1 }, .ret 0, false⟩ := rfl

/-! ### Sums over the threads -/

section Sums

variable [Fintype Θ]

/-- The read locks that are granted and not released. -/
def State.reads (s : State Θ) : ℕ := ∑ t, (s.threads t).reads

/-- The write locks that are granted and not released. -/
def State.writes (s : State Θ) : ℕ := ∑ t, (s.threads t).writes

theorem sum_update (f : Thread → ℕ) (ths : Θ → Thread) (t : Θ) (th : Thread) :
    (∑ v, f (update ths t th v)) + f (ths t) = (∑ v, f (ths v)) + f th := by
  have h₁ := Finset.add_sum_erase Finset.univ (fun v => f (update ths t th v)) (Finset.mem_univ t)
  have h₂ := Finset.add_sum_erase Finset.univ (fun v => f (ths v)) (Finset.mem_univ t)
  have h₃ : ∑ v ∈ Finset.univ.erase t, f (update ths t th v) = ∑ v ∈ Finset.univ.erase t, f (ths v) :=
    Finset.sum_congr rfl fun v hv => by rw [update_of_ne (Finset.ne_of_mem_erase hv)]
  simp only [update_self] at h₁
  omega

/-- A number that a broadcast does not change is summed up over the threads after a section. -/
theorem sum_finish (f : Thread → ℕ) (hwake : ∀ th : Thread, f th.wake = f th) (s : State Θ) (t : Θ)
    (th : Thread) (sec : Section) :
    (∑ v, f ((s.finish t th sec).threads v)) + f (s.threads t) = (∑ v, f (s.threads v)) + f th := by
  have hsum := sum_update f (if sec.broadcast then fun u => (s.threads u).wake else s.threads) t th
  cases hb : sec.broadcast with
  | false =>
    rw [hb] at hsum
    simpa [State.finish, hb] using hsum
  | true =>
    rw [hb] at hsum
    simp only [if_true, hwake] at hsum
    simpa [State.finish, hb] using hsum

theorem Thread.wake_reads (th : Thread) : th.wake.reads = th.reads := by
  unfold Thread.wake
  split <;> rfl

theorem Thread.wake_writes (th : Thread) : th.wake.writes = th.writes := by
  unfold Thread.wake
  split <;> rfl

theorem finish_reads (s : State Θ) (t : Θ) (th : Thread) (sec : Section) :
    (s.finish t th sec).reads + (s.threads t).reads = s.reads + th.reads :=
  sum_finish Thread.reads Thread.wake_reads s t th sec

theorem finish_writes (s : State Θ) (t : Θ) (th : Thread) (sec : Section) :
    (s.finish t th sec).writes + (s.threads t).writes = s.writes + th.writes :=
  sum_finish Thread.writes Thread.wake_writes s t th sec

omit [DecidableEq Θ] in
theorem reads_le (s : State Θ) (t : Θ) : (s.threads t).reads ≤ s.reads :=
  Finset.single_le_sum (f := fun v => (s.threads v).reads) (fun _ _ => Nat.zero_le _)
    (Finset.mem_univ t)

omit [DecidableEq Θ] in
theorem writes_le (s : State Θ) (t : Θ) : (s.threads t).writes ≤ s.writes :=
  Finset.single_le_sum (f := fun v => (s.threads v).writes) (fun _ _ => Nat.zero_le _)
    (Finset.mem_univ t)

/-! ### The invariant -/

/-- The counters cover the locks that are out, and what is out may be out together. -/
structure Covered (s : State Θ) : Prop where
  readers : (s.reads : ℤ) ≤ s.lock.currentReaders
  writers : (s.writes : ℤ) ≤ s.lock.currentWriters
  exclusive : s.writes = 0 ∨ s.reads = 0
  one : s.writes ≤ 1

theorem Thread.after_ret_reads (th : Thread) {w : Waiter} (hc : w.call ≠ .write) :
    (th.after w (.ret 0)).reads = th.reads + 1 ∧ (th.after w (.ret 0)).writes = th.writes := by
  cases w with
  | quick => exact ⟨rfl, rfl⟩
  | read n => exact ⟨rfl, rfl⟩
  | write n => exact absurd rfl hc

theorem Thread.after_ret_writes (th : Thread) {w : Waiter} (hc : w.call = .write) :
    (th.after w (.ret 0)).reads = th.reads ∧ (th.after w (.ret 0)).writes = th.writes + 1 := by
  cases w with
  | quick => cases hc
  | read n => cases hc
  | write n => exact ⟨rfl, rfl⟩

/-- A thread that is not granted the lock holds what it held. -/
theorem Thread.after_not_granted (th : Thread) (w : Waiter) {x : Exit} (hx : x ≠ .ret 0) :
    (th.after w x).reads = th.reads ∧ (th.after w x).writes = th.writes := by
  cases x with
  | wait => exact ⟨rfl, rfl⟩
  | ret code =>
    have hcode : code ≠ 0 := fun hcode => hx (by rw [hcode])
    simp [Thread.after, hcode]
  | retLocked code => exact ⟨rfl, rfl⟩

/-- The counters and what the thread holds move together. -/
theorem Counted.moves {u : Lock} {w : Waiter} {sec : Section} (h : Counted u w.call sec)
    (th : Thread) :
    ((th.after w sec.exit).reads = th.reads ∧ (th.after w sec.exit).writes = th.writes ∧
      (sec.exit = .wait ∧ sec.lock.currentReaders = u.currentReaders ∧
          sec.lock.currentWriters = u.currentWriters ∨
        (sec.exit = .ret (-1) ∨ sec.exit = .retLocked (-1)) ∧
          u.currentReaders ≤ sec.lock.currentReaders ∧
          u.currentWriters ≤ sec.lock.currentWriters)) ∨
    ((th.after w sec.exit).reads = th.reads + 1 ∧ (th.after w sec.exit).writes = th.writes ∧
      u.currentWriters ≤ 0 ∧ sec.lock.currentReaders = u.currentReaders + 1 ∧
      sec.lock.currentWriters = u.currentWriters) ∨
    ((th.after w sec.exit).reads = th.reads ∧ (th.after w sec.exit).writes = th.writes + 1 ∧
      u.currentReaders ≤ 0 ∧ u.currentWriters ≤ 0 ∧
      sec.lock.currentReaders = u.currentReaders ∧ sec.lock.currentWriters = 1) := by
  cases h with
  | waits hexit hr hw =>
    obtain ⟨h₁, h₂⟩ := Thread.after_not_granted th w (x := sec.exit)
      (by rw [hexit]; decide)
    exact Or.inl ⟨h₁, h₂, Or.inl ⟨hexit, hr, hw⟩⟩
  | reads hexit hc hfree hr hw =>
    rw [hexit]
    obtain ⟨h₁, h₂⟩ := Thread.after_ret_reads th hc
    exact Or.inr (Or.inl ⟨h₁, h₂, hfree, hr, hw⟩)
  | writes hexit hc hreaders hfree hr hw =>
    rw [hexit]
    obtain ⟨h₁, h₂⟩ := Thread.after_ret_writes th hc
    exact Or.inr (Or.inr ⟨h₁, h₂, hreaders, hfree, hr, hw⟩)
  | fails hexit hr hw =>
    obtain ⟨h₁, h₂⟩ := Thread.after_not_granted th w (x := sec.exit)
      (by rcases hexit with hexit | hexit <;> rw [hexit] <;> decide)
    exact Or.inl ⟨h₁, h₂, Or.inr ⟨hexit, hr, hw⟩⟩

theorem readUnlock_counts (u : Lock) :
    (rwlockReadUnlock u).lock.currentReaders = u.currentReaders - 1 ∧
      (rwlockReadUnlock u).lock.currentWriters = u.currentWriters := by
  simp only [rwlockReadUnlock]
  split_ifs <;> exact ⟨rfl, rfl⟩

theorem writeUnlock_counts (u : Lock) :
    (rwlockWriteUnlock u).lock.currentReaders = u.currentReaders ∧
      (rwlockWriteUnlock u).lock.currentWriters = u.currentWriters - 1 := by
  simp only [rwlockWriteUnlock]
  split_ifs <;> exact ⟨rfl, rfl⟩

/-- `r` more read locks and `w` more write locks are out, and are counted. -/
structure Shifted (s s' : State Θ) (r w : ℤ) : Prop where
  reads : (s'.reads : ℤ) = s.reads + r
  writes : (s'.writes : ℤ) = s.writes + w
  readers : s'.lock.currentReaders = s.lock.currentReaders + r
  writers : s'.lock.currentWriters = s.lock.currentWriters + w

namespace Shifted

/-- Joining the line grants nothing. -/
theorem join (ring : Ring) (s : State Θ) (t : Θ) (c : LockCall) : Shifted s (s.join ring t c) 0 0 := by
  rw [State.join_eq]
  have hreads := finish_reads s t ((s.threads t).joined (c.waiter s.lock))
    ⟨c.join ring s.lock, .wait, false⟩
  have hwrites := finish_writes s t ((s.threads t).joined (c.waiter s.lock))
    ⟨c.join ring s.lock, .wait, false⟩
  have hcounts := join_counts ring s.lock c
  simp only [Thread.joined_reads, Thread.joined_writes] at hreads hwrites
  constructor
  · omega
  · omega
  · show (c.join ring s.lock).currentReaders = _
    omega
  · show (c.join ring s.lock).currentWriters = _
    omega

theorem releaseRead (hheld : 0 < (s.threads t).reads) : Shifted s (s.releaseRead t) (-1) 0 := by
  have hreads := finish_reads s t (s.threads t).dropRead (rwlockReadUnlock s.lock)
  have hwrites := finish_writes s t (s.threads t).dropRead (rwlockReadUnlock s.lock)
  have hcounts := readUnlock_counts s.lock
  have hle := reads_le s t
  simp only [Thread.dropRead_reads, Thread.dropRead_writes] at hreads hwrites
  unfold State.releaseRead
  constructor
  · omega
  · omega
  · show (rwlockReadUnlock s.lock).lock.currentReaders = _
    omega
  · show (rwlockReadUnlock s.lock).lock.currentWriters = _
    omega

theorem releaseWrite (hheld : 0 < (s.threads t).writes) : Shifted s (s.releaseWrite t) 0 (-1) := by
  have hreads := finish_reads s t (s.threads t).dropWrite (rwlockWriteUnlock s.lock)
  have hwrites := finish_writes s t (s.threads t).dropWrite (rwlockWriteUnlock s.lock)
  have hcounts := writeUnlock_counts s.lock
  have hle := writes_le s t
  simp only [Thread.dropWrite_reads, Thread.dropWrite_writes] at hreads hwrites
  unfold State.releaseWrite
  constructor
  · omega
  · omega
  · show (rwlockWriteUnlock s.lock).lock.currentReaders = _
    omega
  · show (rwlockWriteUnlock s.lock).lock.currentWriters = _
    omega

end Shifted

namespace Covered

/-- **A section of a lock call** keeps the counters above what is out. -/
theorem lockSection (h : Covered s) {w : Waiter} {sec : Section}
    (hsec : Counted s.lock w.call sec) :
    Covered (s.finish t ((s.threads t).after w sec.exit) sec) := by
  have hreads := finish_reads s t ((s.threads t).after w sec.exit) sec
  have hwrites := finish_writes s t ((s.threads t).after w sec.exit) sec
  have hmoves := hsec.moves (s.threads t)
  have hlock : (s.finish t ((s.threads t).after w sec.exit) sec).lock = sec.lock := rfl
  obtain ⟨hreaders, hwriters, hexcl, hone⟩ := h
  constructor
  all_goals
    rw [hlock] at *
    omega

omit [DecidableEq Θ] in
/-- Locks that are given back, or nothing, keep the counters above what is out. -/
theorem shifted {s' : State Θ} {r w : ℤ} (h : Covered s) (hs : Shifted s s' r w) (hr : r ≤ 0)
    (hw : w ≤ 0) : Covered s' := by
  obtain ⟨hreaders, hwriters, hexcl, hone⟩ := h
  obtain ⟨hreads, hwrites, hreaders', hwriters'⟩ := hs
  constructor
  all_goals omega

theorem join (h : Covered s) (c : LockCall) : Covered (s.join ring t c) :=
  h.shifted (.join ring s t c) le_rfl le_rfl

theorem fast (h : Covered s) (hw : s.lock.currentWriters = 0) : Covered (s.fast t) := by
  rw [State.fast_eq]
  exact h.lockSection (w := .quick)
    (.reads rfl (by decide) (by omega) rfl rfl)

theorem run (h : Covered s) (w : Waiter) : Covered (s.run ring t w) :=
  h.lockSection (body_counted ring s.lock w)

theorem releaseRead (h : Covered s) (hheld : 0 < (s.threads t).reads) :
    Covered (s.releaseRead t) :=
  h.shifted (.releaseRead hheld) (by decide) le_rfl

theorem releaseWrite (h : Covered s) (hheld : 0 < (s.threads t).writes) :
    Covered (s.releaseWrite t) :=
  h.shifted (.releaseWrite hheld) le_rfl (by decide)

/-- **The counters cover what is out** in every state of correct threads. -/
theorem of_reach (h : Reach (correctSys ring Θ) tr s) : Covered s := by
  have h' := h.restrict (P := fun _ _ _ => True) fun _ _ _ _ => trivial
  refine invariant_of_steps ?_ ?_ ?_ ?_ ?_ ?_ h'
  · constructor <;> simp [State.reads, State.writes, State.init, Lock.init]
  · intro s t hI _ _ hw
    exact hI.fast hw
  · intro s t c hI _ _ _
    exact (hI.join c).run _
  · intro s t w _ hI _ _ _
    exact hI.run w
  · intro s t _ _ hI _ _ hheld _
    exact hI.releaseRead hheld
  · intro s t hI _ _ hheld
    exact hI.releaseWrite hheld

omit [DecidableEq Θ] in
/-- While a write lock is out, no read lock is. -/
theorem no_reader (h : Covered s) (ht : 0 < (s.threads t).writes) (t' : Θ) :
    (s.threads t').reads = 0 := by
  have hw := writes_le s t
  have hr := reads_le s t'
  have hexcl := h.exclusive
  omega

/-- While a write lock is out, no other one is. -/
theorem alone (h : Covered s) (ht : 0 < (s.threads t).writes) {t' : Θ} (hne : t' ≠ t) :
    (s.threads t').writes = 0 := by
  have hone := h.one
  have hpair : ∑ v ∈ ({t, t'} : Finset Θ), (s.threads v).writes ≤ s.writes :=
    Finset.sum_le_sum_of_subset (Finset.subset_univ _)
  rw [Finset.sum_pair (Ne.symm hne)] at hpair
  omega

end Covered

/-- **Mutual exclusion**, for any number of threads and any ring: at most one write lock is out, and
while one is, no read lock is. -/
theorem rwlock_exclusive (h : Reach (correctSys ring Θ) tr s) :
    (∀ t, (s.threads t).writes ≤ 1) ∧
    (∀ t t', 0 < (s.threads t).writes → 0 < (s.threads t').writes → t = t') ∧
    ∀ t, 0 < (s.threads t).writes → ∀ t', (s.threads t').reads = 0 := by
  have hc := Covered.of_reach h
  refine ⟨fun t => (writes_le s t).trans hc.one, fun t t' ht ht' => ?_, fun t ht t' => ?_⟩
  · by_contra hne
    have hwrites := hc.alone ht (Ne.symm hne)
    omega
  · exact hc.no_reader ht t'

/-- A writer holds the lock while a reader waits for it. -/
theorem rwlock_exclusive_writer : ∃ s : State (Fin 2), (s.threads 0).writes = 1 ∧
    (∀ t', 0 < (s.threads t').writes → 0 = t') ∧ ∀ t', (s.threads t').reads = 0 := by
  obtain ⟨tr, s, hreach, hs⟩ := exists_reach (Ring.plain 2 (by decide))
    [(0, .call .write), (1, .call .read), (1, .wake .read)]
    (f := fun s : State (Fin 2) => (s.threads 0).writes) (v := 1) (by decide +kernel)
  have hpos : 0 < (s.threads 0).writes := by omega
  obtain ⟨-, hone, hnone⟩ := rwlock_exclusive hreach
  exact ⟨s, hs, fun t' ht' => hone 0 t' hpos ht', hnone 0 hpos⟩

end Sums

end SystemProgramming.Rwlock
