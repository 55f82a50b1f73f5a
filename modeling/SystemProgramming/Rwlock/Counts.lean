import SystemProgramming.Rwlock.Exclusion
import SystemProgramming.Rwlock.Wrapping

/-!
# When the counters are exact

A member of a reader batch counts itself before it looks for its slot, and a writer that finds the
FIFO empty returns without releasing the mutex.  Both happen only when more threads share the ring
than it has slots, or tickets have gone round it, so that a slot was given to a later ticket.

* `rwlock_counts`: as long as no waiter misses its slot in this way and no ticket overflows, no lock
  call fails and the counters are exact; a waiter that misses breaks this at once;
* `rwlock_counts_fail`: runs with a wrong counter and with a locked mutex.
-/

namespace SystemProgramming.Rwlock

open Function

/-- The waiter misses: it is a member of the batch whose slot holds another ticket, or a writer with
nothing in its way that finds no ticket in its slot from `oldest_element` on. -/
def Missed (ring : Ring) (u : Lock) : Waiter → Prop
  | .quick => False
  | .read myTurn =>
    u.currentWriters = 0 ∧ myTurn ≤ u.readBatchEnd ∧ slotMatches ring u myTurn none = false
  | .write _ => u.currentReaders ≤ 0 ∧ u.currentWriters ≤ 0 ∧ u.qrWaiters ≤ 0 ∧
      findValidHead ring u u.oldestElement = u.nextElement

instance (ring : Ring) (u : Lock) (w : Waiter) : Decidable (Missed ring u w) :=
  match w with
  | .quick => inferInstanceAs (Decidable False)
  | .read _ => inferInstanceAs (Decidable (_ ∧ _))
  | .write _ => inferInstanceAs (Decidable (_ ∧ _))

variable {Θ : Type} [DecidableEq Θ] {R : ℕ} {p : 0 < R} {u : Lock} {w : Waiter}

/-- No waiter that wakes up in this step misses. -/
def NoMiss (ring : Ring) (s : State Θ) (e : Event Θ) (_ : State Θ) : Prop :=
  ∀ w, (s.threads e.thread).waiter = some w → ¬ Missed ring s.lock w

instance (ring : Ring) (s : State Θ) (e : Event Θ) (s' : State Θ) : Decidable (NoMiss ring s e s') :=
  decidable_of_iff (∀ w ∈ (s.threads e.thread).waiter, ¬ Missed ring s.lock w) (Iff.of_eq rfl)

theorem missed_wrapping (h : Early u) (w : Waiter) :
    Missed (Ring.wrapping R p) u w ↔ Missed (Ring.plain R p) u w := by
  cases w with
  | quick => exact Iff.rfl
  | read n => exact Iff.rfl
  | write n =>
    show _ ∧ _ ∧ _ ∧ _ ↔ _ ∧ _ ∧ _ ∧ _
    rw [findValidHead_wrapping h.oldest h.max]

/-! ### A waiter that does not miss does not fail -/

theorem body_of_not_missed (h : Tickets u) (hmiss : ¬ Missed (Ring.plain R p) u w) :
    (w.body (Ring.plain R p) u).exit = .wait ∨ (w.body (Ring.plain R p) u).exit = .ret 0 := by
  cases w with
  | quick =>
    show (quickBody u).exit = .wait ∨ (quickBody u).exit = .ret 0
    unfold quickBody
    split
    · exact Or.inl rfl
    · exact Or.inr rfl
  | read n =>
    show (readBody (Ring.plain R p) u n).exit = .wait ∨ (readBody (Ring.plain R p) u n).exit = .ret 0
    rcases readBody_cases (Ring.plain R p) u n with
      ⟨-, hb⟩ | ⟨hw, hbatch, hb⟩ | ⟨-, -, ⟨-, hb⟩ | ⟨hne, hn, -, hb⟩ | ⟨-, -, hb⟩⟩
    · rw [hb]
      exact Or.inl rfl
    · rw [hb]
      have hm : slotMatches (Ring.plain R p) { u with currentReaders := u.currentReaders + 1 } n none
          = true := by
        cases hm : slotMatches (Ring.plain R p) u n none with
        | true => exact hm
        | false => exact absurd ⟨hw, hbatch, hm⟩ hmiss
      rw [finishGrant_of_match hm]
      exact Or.inr rfl
    · rw [hb]
      exact Or.inl rfl
    · rw [hb]
      -- the leader has just been found in its slot
      obtain ⟨-, hle, hhead, -⟩ := findValidHead_spec (p := p) u u.oldestElement
      rw [← hn] at hle hhead hne
      have hm : slotMatches (Ring.plain R p)
          (Lock.lead (Ring.plain R p) { u with oldestElement := n } n n) n none = true :=
        hhead (by have := hle h.oldest; omega)
      rw [finishGrant_of_match hm]
      exact Or.inr rfl
    · rw [hb]
      exact Or.inl rfl
  | write n =>
    show (writeBody (Ring.plain R p) u n).exit = .wait ∨
      (writeBody (Ring.plain R p) u n).exit = .ret 0
    rcases writeBody_cases (Ring.plain R p) u n with
      ⟨-, hb⟩ | ⟨hr, hw, hq, ⟨hend, hb⟩ | ⟨-, -, hm, hb⟩ | ⟨-, -, hb⟩⟩
    · rw [hb]
      exact Or.inl rfl
    · exact absurd ⟨hr, hw, hq, hend⟩ hmiss
    · rw [hb]
      have hm' : slotMatches (Ring.plain R p) { u with oldestElement := n, currentWriters := 1 } n none
          = true := slotMatches_none.mpr (slotMatches_some.mp hm).1
      rw [finishGrant_of_match hm']
      exact Or.inr rfl
    · rw [hb]
      exact Or.inl rfl

/-- A thread that has just joined does not miss. -/
theorem not_missed_join (h : Tickets u) (c : LockCall) :
    ¬ Missed (Ring.plain R p) (c.join (Ring.plain R p) u) (c.waiter u) := by
  cases c with
  | quick => exact id
  | read =>
    rintro ⟨-, hbatch, -⟩
    have hlt := h.batch
    have hle : u.nextElement ≤ u.readBatchEnd := hbatch
    omega
  | write =>
    rintro ⟨-, -, -, hend⟩
    have hold := h.oldest
    -- the search cannot pass the ticket that has just been put into its slot
    have hspec := (findValidHead_spec (p := p) (LockCall.write.join (Ring.plain R p) u)
      u.oldestElement).2.2.2 u.nextElement hold (by
        have hnext : (LockCall.write.join (Ring.plain R p) u).nextElement = u.nextElement + 1 := rfl
        have hold' : (LockCall.write.join (Ring.plain R p) u).oldestElement = u.oldestElement := rfl
        rw [hnext, hold'] at hend
        omega)
    have hm : slotMatches (Ring.plain R p) (LockCall.write.join (Ring.plain R p) u) u.nextElement
        none = true := slotMatches_none.mpr (update_self _ _ _)
    rw [hm] at hspec
    cases hspec

/-! ### Exact counters -/

section Exact

variable [Fintype Θ] {s : State Θ} {t : Θ} {tr : List (Event Θ)}

/-- The mutex is free, and the counters count what is out. -/
structure Exact (s : State Θ) : Prop where
  free : s.stuck = false
  readers : s.lock.currentReaders = s.reads
  writers : s.lock.currentWriters = s.writes

namespace Exact

/-- A section of a lock call that does not fail keeps the counters exact. -/
theorem lockSection (h : Exact s) {sec : Section} (hsec : Counted s.lock w.call sec)
    (hok : sec.exit = .wait ∨ sec.exit = .ret 0) :
    Exact (s.finish t ((s.threads t).after w sec.exit) sec) := by
  have hreads := finish_reads s t ((s.threads t).after w sec.exit) sec
  have hwrites := finish_writes s t ((s.threads t).after w sec.exit) sec
  have hnot : ¬ (sec.exit = .ret (-1) ∨ sec.exit = .retLocked (-1)) := by
    rcases hok with hok | hok <;> rw [hok] <;> decide
  have hfree : sec.exit.locked = false := by
    rcases hok with hok | hok <;> rw [hok] <;> rfl
  obtain ⟨-, hreaders, hwriters⟩ := h
  rcases hsec.moves (s.threads t) with ⟨h₁, h₂, ⟨-, h₃, h₄⟩ | ⟨hfail, -⟩⟩ | hread | hwrite
  · exact ⟨hfree, show sec.lock.currentReaders = _ by omega,
      show sec.lock.currentWriters = _ by omega⟩
  · exact absurd hfail hnot
  · exact ⟨hfree, show sec.lock.currentReaders = _ by omega,
      show sec.lock.currentWriters = _ by omega⟩
  · exact ⟨hfree, show sec.lock.currentReaders = _ by omega,
      show sec.lock.currentWriters = _ by omega⟩

omit [DecidableEq Θ] in
/-- Counters that move with what is out stay exact. -/
theorem shifted {s' : State Θ} {r w : ℤ} (h : Exact s) (hs : Shifted s s' r w)
    (hfree : s'.stuck = false) : Exact s' := by
  obtain ⟨-, hreaders, hwriters⟩ := h
  obtain ⟨hreads, hwrites, hreaders', hwriters'⟩ := hs
  refine ⟨hfree, ?_, ?_⟩
  · omega
  · omega

theorem join (h : Exact s) {ring : Ring} (c : LockCall) : Exact (s.join ring t c) := by
  refine h.shifted (.join ring s t c) ?_
  rw [State.join_eq]
  rfl

theorem fast (h : Exact s) (hw : s.lock.currentWriters = 0) : Exact (s.fast t) := by
  rw [State.fast_eq]
  exact h.lockSection (w := .quick) (.reads rfl (by decide) (by omega) rfl rfl) (Or.inr rfl)

theorem releaseRead (h : Exact s) (hheld : 0 < (s.threads t).reads) : Exact (s.releaseRead t) := by
  refine h.shifted (.releaseRead hheld) ?_
  show (rwlockReadUnlock s.lock).exit.locked = false
  simp only [rwlockReadUnlock]
  split_ifs <;> rfl

theorem releaseWrite (h : Exact s) (hheld : 0 < (s.threads t).writes) :
    Exact (s.releaseWrite t) := by
  refine h.shifted (.releaseWrite hheld) ?_
  show (rwlockWriteUnlock s.lock).exit.locked = false
  simp only [rwlockWriteUnlock]
  split_ifs <;> rfl

/-- **Exact counters along a run** in which nobody misses. -/
theorem of_reach (h : Reach ((correctSys (Ring.plain R p) Θ).restrict (NoMiss (Ring.plain R p))) tr s) :
    Exact s ∧ Tickets s.lock := by
  refine invariant_of_steps (I := fun s => Exact s ∧ Tickets s.lock) ?_ ?_ ?_ ?_ ?_ ?_ h
  · refine ⟨⟨rfl, ?_, ?_⟩, Tickets.init⟩ <;> simp [State.reads, State.writes, State.init, Lock.init]
  · intro s t hI _ _ hw
    exact ⟨hI.1.fast hw, hI.2.recount _ s.lock.currentWriters s.lock.qrWaiters⟩
  · intro s t c hI _ _ _
    have hj := hI.2.join (p := p) c
    exact ⟨(hI.1.join c).lockSection (body_counted _ _ _)
      (body_of_not_missed hj (not_missed_join hI.2 c)), hj.body _⟩
  · intro s t w _ hI _ hw hP
    exact ⟨hI.1.lockSection (body_counted _ _ _) (body_of_not_missed hI.2 (hP w hw)), hI.2.body w⟩
  · intro s t _ _ hI _ _ hheld _
    exact ⟨hI.1.releaseRead hheld, hI.2.readUnlock⟩
  · intro s t hI _ _ hheld
    exact ⟨hI.1.releaseWrite hheld, hI.2.writeUnlock⟩

end Exact

omit [DecidableEq Θ] in
/-- Holders unlock without failing. -/
theorem Exact.readUnlock_exit (h : Exact s) (hheld : 0 < (s.threads t).reads) :
    (rwlockReadUnlock s.lock).exit = .ret 0 := by
  have hle := reads_le s t
  have hreaders := h.readers
  simp only [rwlockReadUnlock]
  rw [if_neg (show ¬ s.lock.currentReaders - 1 < 0 by omega)]
  split <;> rfl

omit [DecidableEq Θ] in
theorem Exact.writeUnlock_exit (h : Exact s) (hone : s.writes ≤ 1)
    (hheld : 0 < (s.threads t).writes) : (rwlockWriteUnlock s.lock).exit = .ret 0 := by
  have hle := writes_le s t
  have hwriters := h.writers
  simp only [rwlockWriteUnlock]
  rw [if_neg (show ¬ (s.lock.currentWriters - 1 > 0 ∨ s.lock.currentWriters - 1 < 0) by omega)]

/-- A waiter that misses leaves a wrong counter behind, or a locked mutex. -/
theorem missed_not_exact (h : Exact s) {ring : Ring} (hmiss : Missed ring s.lock w) :
    ¬ Exact (s.run ring t w) := by
  intro hafter
  cases w with
  | quick => exact hmiss
  | read n =>
    obtain ⟨hw, hbatch, hm⟩ := hmiss
    have hbody : readBody ring s.lock n =
        ⟨{ s.lock with currentReaders := s.lock.currentReaders + 1 }, .ret (-1), false⟩ := by
      rcases readBody_cases ring s.lock n with ⟨hw', -⟩ | ⟨-, -, hb⟩ | ⟨-, hout, -⟩
      · omega
      · rw [hb]
        exact finishGrant_of_miss hm
      · have := hout hw
        omega
    have hsum := finish_reads s t ((s.threads t).after (.read n) (readBody ring s.lock n).exit)
      (readBody ring s.lock n)
    have hreaders : (readBody ring s.lock n).lock.currentReaders = _ := hafter.readers
    have hreaders' := h.readers
    have hsame : ((s.threads t).after (.read n) (readBody ring s.lock n).exit).reads
        = (s.threads t).reads := by
      rw [hbody]
      rfl
    have hcount : (readBody ring s.lock n).lock.currentReaders = s.lock.currentReaders + 1 := by
      rw [hbody]
    have hrun : (s.run ring t (.read n)).reads = (s.finish t ((s.threads t).after (.read n)
      (readBody ring s.lock n).exit) (readBody ring s.lock n)).reads := rfl
    omega
  | write n =>
    obtain ⟨hr, hw, hq, hend⟩ := hmiss
    have hfree : (writeBody ring s.lock n).exit.locked = false := hafter.free
    rcases writeBody_cases ring s.lock n with ⟨hbusy, -⟩ | ⟨-, -, -, ⟨-, hb⟩ | ⟨hne, -⟩ | ⟨hne, -⟩⟩
    · omega
    · rw [hb] at hfree
      cases hfree
    · exact hne hend
    · exact hne hend

/-- No lock call and no unlock fails on a plain ring, where the counters are exact and nobody misses. -/
theorem Exact.result (h : Exact s) (htickets : Tickets s.lock) (hone : s.writes ≤ 1) {e : Event Θ}
    {s' : State Θ} (hstep : (correctSys (Ring.plain R p) Θ).step s e s')
    (hP : NoMiss (Ring.plain R p) s e s') : e.result ≠ some (-1) := by
  have hok : ∀ x : Exit, x = .wait ∨ x = .ret 0 → x.result ≠ some (-1) := by
    rintro x (rfl | rfl) <;> decide
  obtain ⟨hstep, hcorrect⟩ := hstep
  cases hstep with
  | call hfree hpc =>
    rename_i t c
    refine hok _ ?_
    by_cases hquick : QuickFast s c
    · obtain ⟨rfl, hw⟩ := hquick
      right
      show (rwlockReadLockQuick s.lock).exit = .ret 0
      unfold rwlockReadLockQuick
      rw [if_pos hw]
    · rw [enter_eq_body hquick]
      exact body_of_not_missed (htickets.join c) (not_missed_join htickets c)
  | wake hfree hpc =>
    exact hok _ (body_of_not_missed htickets (hP _ (by simp [Thread.waiter, hpc])))
  | readUnlock hfree hpc => exact hok _ (Or.inr (h.readUnlock_exit hcorrect))
  | writeUnlock hfree hpc => exact hok _ (Or.inr (h.writeUnlock_exit hone hcorrect))

omit [DecidableEq Θ] [Fintype Θ] in
/-- The condition on the steps is the same on the two rings. -/
theorem noMiss_plain {e : Event Θ} {s' : State Θ} (h : Early s.lock)
    (hP : NoMiss (Ring.wrapping R p) s e s') : NoMiss (Ring.plain R p) s e s' :=
  fun w hw hmiss => hP w hw ((missed_wrapping h w).mpr hmiss)

/-- **The counters are exact**, and no lock call or unlock fails, in every run in which no ticket
overflows and no waiter misses its slot; a waiter that misses breaks this at once. -/
theorem rwlock_counts
    (h : Reach ((correctSys (Ring.wrapping R p) Θ).restrict fun s e s' =>
      NoOverflow s e s' ∧ NoMiss (Ring.wrapping R p) s e s') tr s) :
    Exact s ∧
    (∀ e s', (correctSys (Ring.wrapping R p) Θ).step s e s' → NoOverflow s e s' →
      NoMiss (Ring.wrapping R p) s e s' → e.result ≠ some (-1)) ∧
    ∀ t w, (s.threads t).waiter = some w → Missed (Ring.wrapping R p) s.lock w →
      ¬ Exact (s.run (Ring.wrapping R p) t w) := by
  obtain ⟨hplain, hearly⟩ := reach_plain (fun _ _ _ hP => hP.1)
    (fun _ _ _ hearly hP => noMiss_plain hearly hP.2) h
  obtain ⟨hexact, htickets⟩ := Exact.of_reach hplain
  have hone := (Covered.of_reach hplain.unrestrict).one
  refine ⟨hexact, fun e s' hstep hno hP => ?_, fun t w _ hmiss => missed_not_exact hexact hmiss⟩
  exact hexact.result htickets hone ⟨hstep.1.plain hearly hno, hstep.2⟩ (noMiss_plain hearly hP)

/-- Two readers queue behind a writer; the second enters as a member of the batch of the first, and
the writer has come back and waits. -/
theorem rwlock_counts_batch : ∃ s : State (Fin 3),
    s.reads = 2 ∧ (s.threads 0).waiter = some (.write 3) ∧ Exact s ∧
    (∀ e s', (correctSys (Ring.wrapping 3 (by decide)) (Fin 3)).step s e s' → NoOverflow s e s' →
      NoMiss (Ring.wrapping 3 (by decide)) s e s' → e.result ≠ some (-1)) ∧
    ∀ t w, (s.threads t).waiter = some w → Missed (Ring.wrapping 3 (by decide)) s.lock w →
      ¬ Exact (s.run (Ring.wrapping 3 (by decide)) t w) := by
  obtain ⟨tr, s, hreach, hs⟩ := exists_reachIn
    (fun s e s' => NoOverflow s e s' ∧ NoMiss (Ring.wrapping 3 (by decide)) s e s')
    (Ring.wrapping 3 (by decide))
    [(0, .call .write), (1, .call .read), (2, .call .read), (0, .writeUnlock), (1, .wake .read),
      (0, .call .write), (2, .wake .read)]
    (f := fun q : _ × State (Fin 3) => (q.2.reads, (q.2.threads 0).waiter))
    (v := (2, some (.write 3))) (by decide +kernel)
  exact ⟨s, congrArg Prod.fst hs, congrArg Prod.snd hs, rwlock_counts hreach⟩

/-- **A wrong counter, and a locked mutex.**  On a ring with one slot two threads queue behind a
writer; the ticket of the second takes the slot of the first.  After the writer has left, the second,
a reader, leads a batch.  The first, if it is a reader, is covered by the batch, counts itself and
does not find its slot; if it is a writer, it finds the FIFO empty once the batch has gone. -/
theorem rwlock_counts_fail :
    (∃ tr, ∃ s : State (Fin 3), Reach (correctSys (Ring.wrapping 1 (by decide)) (Fin 3)) tr s ∧
      s.lock.currentReaders = 2 ∧ s.reads = 1) ∧
    ∃ tr, ∃ s : State (Fin 3), Reach (correctSys (Ring.wrapping 1 (by decide)) (Fin 3)) tr s ∧
      s.stuck = true := by
  obtain ⟨tr, s, hreach, hs⟩ := exists_reach (Ring.wrapping 1 (by decide))
    [(0, .call .write), (1, .call .read), (2, .call .read), (0, .writeUnlock),
      (2, .wake .read), (1, .wake .read)]
    (f := fun s : State (Fin 3) => (s.lock.currentReaders, s.reads)) (v := (2, 1)) (by decide +kernel)
  obtain ⟨tr', s', hreach', hs'⟩ := exists_reach (Ring.wrapping 1 (by decide))
    [(0, .call .write), (1, .call .write), (2, .call .read), (0, .writeUnlock),
      (2, .wake .read), (2, .readUnlock), (1, .wake .write)]
    (f := fun s : State (Fin 3) => s.stuck) (v := true) (by decide +kernel)
  exact ⟨⟨tr, s, hreach, congrArg Prod.fst hs, congrArg Prod.snd hs⟩, tr', s', hreach', hs'⟩

end Exact

end SystemProgramming.Rwlock
