import SystemProgramming.Rwlock.Stranded

/-!
# Destroying a lock

`rwlock_destroy` refuses while the lock is in use, and tells this from the counters and from the two
ends of the FIFO.  A batch member that `oldest_element` has passed is in neither; it is covered by the
active readers of its batch, unless they leave before it has woken up.

* `rwlock_destroy_exact`: in a careful run, `rwlock_destroy` knows whether the lock is in use;
* `rwlock_destroy_fails`: a run after which it frees a lock under a waiter.
-/

namespace SystemProgramming.Rwlock

open Function

/-- The values of `errno` that `rwlock_destroy` sets. -/
inductive Errno where
  | EBUSY
  deriving DecidableEq

/-- What a call of `rwlock_destroy` returns and leaves: `lock` is `none` once it has been freed. -/
structure Destroyed where
  code : ℤ
  errno : Option Errno
  lock : Option Lock

/-- `rwlock_destroy(rw)` -/
def rwlockDestroy (u : Lock) : Destroyed :=
  if u.currentReaders > 0 ∨ u.currentWriters > 0 ∨ u.qrWaiters > 0 ∨
      u.oldestElement ≠ u.nextElement then ⟨-1, some .EBUSY, some u⟩
  else ⟨0, none, none⟩

theorem rwlockDestroy_code (u : Lock) : (rwlockDestroy u).code = 0 ↔
    u.currentReaders ≤ 0 ∧ u.currentWriters ≤ 0 ∧ u.qrWaiters ≤ 0 ∧
      u.oldestElement = u.nextElement := by
  unfold rwlockDestroy
  split_ifs with hbusy
  · constructor
    · intro h
      cases h
    · omega
  · refine iff_of_true rfl ?_
    omega

/-- A refusal says why and touches nothing. -/
theorem rwlockDestroy_busy {u : Lock} (h : (rwlockDestroy u).code ≠ 0) :
    rwlockDestroy u = ⟨-1, some .EBUSY, some u⟩ := by
  unfold rwlockDestroy at h ⊢
  split_ifs at h ⊢ with hbusy
  · rfl
  · exact absurd rfl h

variable {Θ : Type} [DecidableEq Θ] [Fintype Θ] {R : ℕ} {p : 0 < R} {s : State Θ}
  {tr : List (Event Θ)}

/-- Nobody holds the lock and nobody waits in a lock call. -/
def Unused (s : State Θ) : Prop :=
  ∀ t, (s.threads t).reads = 0 ∧ (s.threads t).writes = 0 ∧ (s.threads t).waiter = none

omit [DecidableEq Θ] in
theorem reads_eq_zero : s.reads = 0 ↔ ∀ t, (s.threads t).reads = 0 := by
  unfold State.reads
  rw [Finset.sum_eq_zero_iff]
  exact ⟨fun h t => h t (Finset.mem_univ t), fun h t _ => h t⟩

omit [DecidableEq Θ] in
theorem writes_eq_zero : s.writes = 0 ↔ ∀ t, (s.threads t).writes = 0 := by
  unfold State.writes
  rw [Finset.sum_eq_zero_iff]
  exact ⟨fun h t => h t (Finset.mem_univ t), fun h t _ => h t⟩

omit [DecidableEq Θ] in
theorem quickWaiters_eq_zero :
    s.quickWaiters = 0 ↔ ∀ t, (s.threads t).waiter ≠ some .quick := by
  unfold State.quickWaiters
  rw [Finset.sum_eq_zero_iff]
  constructor
  · intro h t hq
    have hone : (s.threads t).quick = 1 := if_pos hq
    have := h t (Finset.mem_univ t)
    omega
  · exact fun h t _ => if_neg (h t)

omit [DecidableEq Θ] in
/-- A waiter is counted, or its ticket is in the FIFO, or it is a batch member. -/
theorem not_empty_of_waiter (horder : Orderly (Ring.plain R p) s) (hbatched : Batched s.lock s.waiters)
    {t : Θ} {w : Waiter} (ht : s.waiters t = some w) :
    0 < s.lock.currentReaders ∨ 0 < s.lock.qrWaiters ∨ s.lock.oldestElement ≠ s.lock.nextElement := by
  by_contra hnone
  obtain ⟨hr, hrest⟩ := not_or.mp hnone
  obtain ⟨hq, hempty⟩ := not_or.mp hrest
  cases w with
  | quick =>
    have hquick := horder.quick
    have hzero := quickWaiters_eq_zero.mp (show s.quickWaiters = 0 by omega) t
    exact hzero ht
  | read n =>
    have hissued := horder.fifo.issued t _ n ht rfl
    have hmember := hbatched.member t n ht (by omega)
    have hclosed := hbatched.closed (Or.inr (by omega))
    omega
  | write n =>
    have hissued := horder.fifo.issued t _ n ht rfl
    have hahead := horder.fifo.writer t n ht
    omega

/-- **`rwlock_destroy` knows** whether the lock is in use, in every run with at most as many threads as
the ring has slots, in which no ticket overflows, no batch member is left behind when the last active
reader leaves, and none misses its slot. -/
theorem rwlock_destroy_exact (hcard : Fintype.card Θ ≤ R)
    (h : Reach ((correctSys (Ring.wrapping R p) Θ).restrict (Careful (Ring.wrapping R p))) tr s) :
    ((rwlockDestroy s.lock).code = 0 ↔ Unused s) ∧
    ((rwlockDestroy s.lock).code ≠ 0 → rwlockDestroy s.lock = ⟨-1, some .EBUSY, some s.lock⟩) := by
  obtain ⟨hbatched, horder, hexact, -⟩ := Batched.of_careful hcard h
  refine ⟨?_, rwlockDestroy_busy⟩
  have hreaders := hexact.readers
  have hwriters := hexact.writers
  have hquick := horder.quick
  rw [rwlockDestroy_code]
  constructor
  · intro ⟨hr, hw, hq, hempty⟩
    have hreads := reads_eq_zero.mp (show s.reads = 0 by omega)
    have hwrites := writes_eq_zero.mp (show s.writes = 0 by omega)
    intro t
    refine ⟨hreads t, hwrites t, ?_⟩
    cases ht : (s.threads t).waiter with
    | none => rfl
    | some w =>
      have hbusy := not_empty_of_waiter horder hbatched (t := t) ht
      omega
  · intro hunused
    have hreads := reads_eq_zero.mpr fun t => (hunused t).1
    have hwrites := writes_eq_zero.mpr fun t => (hunused t).2.1
    have hnowaiter : ∀ t, s.waiters t = none := fun t => (hunused t).2.2
    have hquicks := quickWaiters_eq_zero.mpr fun t hq => by
      rw [show (s.threads t).waiter = none from hnowaiter t] at hq
      cases hq
    refine ⟨by omega, by omega, by omega, ?_⟩
    -- a ticket in the FIFO has an owner
    by_contra hne
    have hle := horder.fifo.le
    obtain ⟨-, t, w, ht, -⟩ := horder.fifo.slot s.lock.oldestElement (Int.le_refl _) (by omega)
    rw [hnowaiter t] at ht
    cases ht

/-- The theorem where it refuses: two readers have come and gone, and a writer waits. -/
theorem rwlock_destroy_exact_writer : ∃ s : State (Fin 3),
    (s.threads 0).waiter = some (.write 3) ∧
    (((rwlockDestroy s.lock).code = 0 ↔ Unused s) ∧
      ((rwlockDestroy s.lock).code ≠ 0 →
        rwlockDestroy s.lock = ⟨-1, some .EBUSY, some s.lock⟩)) := by
  obtain ⟨tr, s, hreach, hwaiter, -⟩ := exists_reach_waiting_writer
  exact ⟨s, hwaiter, rwlock_destroy_exact (by decide) hreach⟩

/-- **A lock destroyed under a waiter.**  Two readers queue behind a writer.  The leader of their
batch is granted and leaves before the other has woken up; now the lock can be destroyed. -/
theorem rwlock_destroy_fails : ∃ tr, ∃ s : State (Fin 2),
    Reach (correctSys (Ring.wrapping 2 (by decide)) (Fin 2)) tr s ∧
      (s.threads 1).waiter = some (.read 2) ∧ (rwlockDestroy s.lock).code = 0 := by
  obtain ⟨tr, s, hreach, hs⟩ := exists_reach (Ring.wrapping 2 (by decide))
    [(1, .call .write), (0, .call .read), (1, .writeUnlock), (1, .call .read), (0, .wake .read),
      (0, .readUnlock)]
    (f := fun s : State (Fin 2) => ((s.threads 1).waiter, (rwlockDestroy s.lock).code))
    (v := (some (.read 2), 0)) (by decide +kernel)
  exact ⟨tr, s, hreach, congrArg Prod.fst hs, congrArg Prod.snd hs⟩

end SystemProgramming.Rwlock
