import SystemProgramming.Rwlock.Fifo

/-!
# The turns of a loop body

While the FIFO is in order the loop bodies have few ways to go (`Turn`), and a waiter waits again
exactly if it is `Blocked`.  Each turn keeps the FIFO in order, so with at most as many threads as the
ring has slots it is in order for ever, and every further invariant may rely on it
(`invariant_of_orderly`).

* `body_turn`: every loop body takes a turn; `Turn.fifo`: a turn keeps the FIFO in order.
* `invariant_of_orderly`: the rule for invariants of runs that stay in order.
-/

namespace SystemProgramming.Rwlock

open Function

/-- What keeps a waiter waiting. -/
def Blocked (u : Lock) : Waiter → Prop
  | .quick => 0 < u.currentWriters
  | .read myTurn =>
    0 < u.currentWriters ∨ u.readBatchEnd < myTurn ∧ myTurn ≠ u.oldestElement
  | .write myTurn =>
    0 < u.currentReaders ∨ 0 < u.currentWriters ∨ 0 < u.qrWaiters ∨ myTurn ≠ u.oldestElement

/-- The lock after the head `num` has been served; `oldest_element` moves on to `m`. -/
def Lock.served (ring : Ring) (u : Lock) (num m batchEnd : ℤ) : Lock :=
  { u.consumed ring num with oldestElement := m, readBatchEnd := batchEnd }

/-- **The ways a loop body goes** on the lock `u` while the FIFO is in order. -/
inductive Turn (ring : Ring) (u : Lock) : Waiter → Section → Prop where
  | blocked {w : Waiter} (h : Blocked u w) : Turn ring u w ⟨u, .wait, false⟩
  | quick (hw : u.currentWriters = 0) :
      Turn ring u .quick ⟨{ u with qrWaiters := u.qrWaiters - 1
                                   currentReaders := u.currentReaders + 1 }, .ret 0, true⟩
  | member {n : ℤ} (hw : u.currentWriters = 0) (hb : n ≤ u.readBatchEnd)
      (hn : u.slotTable (slotIndex ring n) = n) :
      Turn ring u (.read n)
        ⟨Lock.consumed ring { u with currentReaders := u.currentReaders + 1 } n, .ret 0, false⟩
  | missed {n : ℤ} (hw : u.currentWriters = 0) (hb : n ≤ u.readBatchEnd)
      (hn : u.slotTable (slotIndex ring n) ≠ n) :
      Turn ring u (.read n) ⟨{ u with currentReaders := u.currentReaders + 1 }, .ret (-1), false⟩
  | leader {n m : ℤ} (hw : u.currentWriters = 0) (hb : u.readBatchEnd < n) (hn : n = u.oldestElement)
      (hm : n < m) (hend : m ≤ u.nextElement)
      (hreaders : ∀ k, n ≤ k → k < m → slotMatches ring u k (some .read) = true)
      (hstop : slotMatches ring u m (some .read) = false) :
      Turn ring u (.read n)
        ⟨Lock.served ring { u with currentReaders := u.currentReaders + 1 } n m (m - 1), .ret 0, true⟩
  | writer {n : ℤ} (hr : u.currentReaders ≤ 0) (hw : u.currentWriters = 0) (hq : u.qrWaiters ≤ 0)
      (hn : n = u.oldestElement) (hend : n < u.nextElement) :
      Turn ring u (.write n)
        ⟨Lock.served ring { u with currentWriters := 1 } n (n + 1) (-1), .ret 0, false⟩

variable {Θ : Type} {R : ℕ} {p : 0 < R} {u : Lock} {ws : Θ → Option Waiter} {t t' : Θ}
  {w : Waiter} {n k : ℤ}

theorem Turn.wait_iff {ring : Ring} {sec : Section} (h : Turn ring u w sec) :
    sec.exit = .wait ↔ Blocked u w := by
  cases h with
  | blocked h => exact ⟨fun _ => h, fun _ => rfl⟩
  | quick hw => exact ⟨nofun, fun hb => absurd hb (by rw [Blocked, hw]; exact Int.lt_irrefl 0)⟩
  | member hw hb hn =>
    refine ⟨nofun, fun hblocked => ?_⟩
    rcases hblocked with hblocked | ⟨hblocked, -⟩ <;> omega
  | missed hw hb hn =>
    refine ⟨nofun, fun hblocked => ?_⟩
    rcases hblocked with hblocked | ⟨hblocked, -⟩ <;> omega
  | leader hw hb hn hm hend hreaders hstop =>
    refine ⟨nofun, fun hblocked => ?_⟩
    rcases hblocked with hblocked | ⟨-, hblocked⟩
    · omega
    · exact absurd hn hblocked
  | writer hr hw hq hn hend =>
    refine ⟨nofun, fun hblocked => ?_⟩
    rcases hblocked with hblocked | hblocked | hblocked | hblocked <;> omega

theorem Turn.qrWaiters {ring : Ring} {sec : Section} (h : Turn ring u w sec) :
    sec.lock.qrWaiters =
      u.qrWaiters - if w = .quick ∧ sec.exit ≠ .wait then 1 else 0 := by
  cases h with
  | quick hw => rfl
  | blocked h => simp
  | member hw hb hn => exact (Int.sub_zero _).symm
  | missed hw hb hn => exact (Int.sub_zero _).symm
  | leader hw hb hn hm hend hreaders hstop => exact (Int.sub_zero _).symm
  | writer hr hw hq hn hend => exact (Int.sub_zero _).symm

/-! ### Every loop body takes a turn -/

theorem quickBody_turn {ring : Ring} (h₀ : 0 ≤ u.currentWriters) :
    Turn ring u .quick (quickBody u) := by
  unfold quickBody
  split
  · rename_i hw
    exact .blocked hw
  · exact .quick (by omega)

theorem readBody_turn (h : Fifo (Ring.plain R p) u ws) (ht : ws t = some (.read n))
    (h₀ : 0 ≤ u.currentWriters) :
    Turn (Ring.plain R p) u (.read n) (readBody (Ring.plain R p) u n) := by
  have hissued := h.issued t _ n ht rfl
  have hhead := h.head
  rcases readBody_cases (Ring.plain R p) u n with
    ⟨hw, hb⟩ | ⟨hw, hbatch, hb⟩ | ⟨hw, hbatch, ⟨hend, hb⟩ | ⟨hend, hn, htype, hb⟩ | ⟨hend, hn, hb⟩⟩
  · rw [hb]
    exact .blocked (Or.inl hw)
  · rw [hb]
    by_cases hm : u.slotTable (slotIndex (Ring.plain R p) n) = n
    · rw [finishGrant_of_match (u := { u with currentReaders := u.currentReaders + 1 })
        (slotMatches_none.mpr hm)]
      exact .member hw hbatch hm
    · rw [finishGrant_of_miss (u := { u with currentReaders := u.currentReaders + 1 })
        (Bool.eq_false_iff.mpr fun hm' => hm (slotMatches_none.mp hm'))]
      exact .missed hw hbatch hm
  · rw [hb]
    rw [hhead] at hend
    exact .blocked (Or.inr ⟨hbatch (by omega), by omega⟩)
  · rw [hb]
    rw [hhead] at hend hn
    subst hn
    have hslot := (h.slot_owner ht rfl (Int.le_refl _)).1
    have hread : slotMatches (Ring.plain R p) u u.oldestElement (some .read) = true :=
      slotMatches_some.mpr ⟨hslot, htype⟩
    rw [finishGrant_of_match (u := Lock.lead _ { u with oldestElement := u.oldestElement } _ _)
      (slotMatches_none.mpr hslot)]
    obtain ⟨-, hreaders, -, hlast⟩ :=
      scanBatch_spec (p := p) (u := u) R u.oldestElement u.oldestElement
    have hlt := scanBatch_lt (p := p) u.oldestElement hread
    have hstop := scanBatch_stops (p := p) (u := u) u.oldestElement h.nonneg
    have hbound := (h.tickets.lead (p := p) (n := u.oldestElement) hissued.2).oldest
    have hb₁ := hlast hlt
    have hturn := Turn.leader (show u.currentWriters = 0 by omega) (hbatch (by omega)) rfl hlt
      hbound hreaders hstop
    have heq : (scanBatch (Ring.plain R p) u R u.oldestElement u.oldestElement).1 - 1 =
      (scanBatch (Ring.plain R p) u R u.oldestElement u.oldestElement).2 := by omega
    rw [heq] at hturn
    exact hturn
  · rw [hb]
    rw [hhead] at hn ⊢
    refine .blocked (Or.inr ⟨hbatch (by omega), ?_⟩)
    rintro rfl
    exact hn ⟨rfl, (h.slot_owner ht rfl (Int.le_refl _)).2⟩

theorem writeBody_turn (h : Fifo (Ring.plain R p) u ws) (ht : ws t = some (.write n))
    (h₀ : 0 ≤ u.currentWriters) :
    Turn (Ring.plain R p) u (.write n) (writeBody (Ring.plain R p) u n) := by
  have hissued := h.issued t _ n ht rfl
  have hahead := h.writer t n ht
  have hhead := h.head
  rcases writeBody_cases (Ring.plain R p) u n with
    ⟨hbusy, hb⟩ | ⟨hr, hw, hq, ⟨hend, hb⟩ | ⟨hend, hn, htype, hb⟩ | ⟨hend, hn, hb⟩⟩
  · rw [hb]
    refine .blocked ?_
    rcases hbusy with hbusy | hbusy | hbusy
    · exact Or.inl hbusy
    · exact Or.inr (Or.inl hbusy)
    · exact Or.inr (Or.inr (Or.inl hbusy))
  · rw [hhead] at hend
    omega
  · rw [hb]
    rw [hhead] at hend hn
    subst hn
    have hslot := (h.slot_owner ht rfl (Int.le_refl _)).1
    rw [finishGrant_of_match (u := { u with oldestElement := u.oldestElement, currentWriters := 1 })
      (slotMatches_none.mpr hslot)]
    have hpass : Lock.pass (Ring.plain R p)
        (Lock.consumed (Ring.plain R p) { u with currentWriters := 1 } u.oldestElement) =
        Lock.served (Ring.plain R p) { u with currentWriters := 1 } u.oldestElement
          (u.oldestElement + 1) (-1) := by
      unfold Lock.pass Lock.served
      have hstay : findValidHead (Ring.plain R p)
          { Lock.consumed (Ring.plain R p) { u with currentWriters := 1 } u.oldestElement with
            oldestElement := u.oldestElement + 1 } (u.oldestElement + 1) = u.oldestElement + 1 := by
        refine findValidHead_stay (show u.oldestElement + 1 ≤ u.nextElement by omega) fun hlt => ?_
        have hlt' : u.oldestElement + 1 < u.nextElement := hlt
        have hne := h.consumed_slot hslot (k := u.oldestElement + 1) (by omega) hlt' (by omega)
        refine slotMatches_none.mpr ?_
        show update u.slotTable _ (-1) _ = _
        rw [update_of_ne hne]
        exact (h.slot _ (by omega) hlt').1
      exact congrArg (fun m => { Lock.consumed (Ring.plain R p) { u with currentWriters := 1 }
        u.oldestElement with oldestElement := m, readBatchEnd := -1 }) hstay
    rw [hpass]
    exact .writer hr (by omega) hq rfl hissued.2
  · rw [hb]
    rw [hhead] at hn ⊢
    refine .blocked (Or.inr (Or.inr (Or.inr ?_)))
    rintro rfl
    obtain ⟨hslot, htype⟩ := h.slot_owner ht rfl (Int.le_refl _)
    exact hn ⟨rfl, slotMatches_some.mpr ⟨hslot, htype⟩⟩

/-- **Every loop body takes a turn.** -/
theorem body_turn (h : Fifo (Ring.plain R p) u ws) (ht : ws t = some w)
    (h₀ : 0 ≤ u.currentWriters) :
    Turn (Ring.plain R p) u w (w.body (Ring.plain R p) u) := by
  cases w with
  | quick => exact quickBody_turn h₀
  | read n => exact readBody_turn h ht h₀
  | write n => exact writeBody_turn h ht h₀

/-! ### Every turn keeps the FIFO in order -/

variable [DecidableEq Θ]

/-- **A turn keeps the FIFO in order**; the thread leaves it unless it waits. -/
theorem Turn.fifo {ring : Ring} {sec : Section} (hturn : Turn ring u w sec) (h : Fifo ring u ws)
    (ht : ws t = some w) :
    Fifo ring sec.lock (update ws t (if sec.exit = .wait then some w else none)) := by
  have hbatch := h.batch
  cases hturn with
  | blocked hblocked =>
    rw [if_pos rfl, ← ht, update_eq_self]
    exact h
  | quick hw =>
    exact (h.recount _ u.currentWriters _).leave ht fun n hn => by cases hn
  | member hw hb hn =>
    rename_i n
    have hold : n < u.oldestElement := by omega
    refine ((h.recount (u.currentReaders + 1) u.currentWriters u.qrWaiters).consumed hn hold).leave ht
      fun k hk => ?_
    cases hk
    exact hold
  | missed hw hb hn =>
    refine (h.recount (u.currentReaders + 1) u.currentWriters u.qrWaiters).leave ht fun k hk => ?_
    cases hk
    show _ < u.oldestElement
    omega
  | leader hw hb hn hm hend hreaders hstop =>
    rename_i n m
    subst hn
    have hserve := (h.recount (u.currentReaders + 1) u.currentWriters u.qrWaiters).serve ht rfl hm
      hend (show m - 1 < m by omega)
    refine hserve fun v k _ hv => ?_
    have hk := h.writer v k hv
    by_contra hlt
    have hread := (slotMatches_some.mp (hreaders k hk (by omega))).2
    rw [(h.slot_owner hv rfl hk).2] at hread
    cases hread
  | writer hr hw hq hn hend =>
    subst hn
    have h₀ := h.nonneg
    have hserve := (h.recount u.currentReaders 1 u.qrWaiters).serve ht rfl
      (show u.oldestElement < u.oldestElement + 1 by omega)
      (show u.oldestElement + 1 ≤ u.nextElement by omega)
      (show (-1 : ℤ) < u.oldestElement + 1 by omega)
    refine hserve fun v k hvt hv => ?_
    have hk := h.writer v k hv
    have hne : k ≠ u.oldestElement := by
      rintro rfl
      exact hvt (h.unique v t _ _ _ hv ht rfl rfl)
    omega

/-! ### The FIFO along a run -/

/-- The waiters among the threads. -/
def State.waiters (s : State Θ) : Θ → Option Waiter := fun t => (s.threads t).waiter

theorem Thread.wake_waiter (th : Thread) : th.wake.waiter = th.waiter := by
  unfold Thread.wake
  split
  · rfl
  · rename_i w woken hpc
    simp [Thread.waiter, hpc]

theorem Thread.after_waiter (th : Thread) (w : Waiter) (x : Exit) :
    (th.after w x).waiter = if x = .wait then some w else none := by
  cases x with
  | wait => rfl
  | ret code =>
    show (if code = 0 then th.grant w.call else { th with pc := .idle }).waiter = _
    rw [if_neg (show ¬ Exit.ret code = .wait from nofun)]
    split
    · cases w <;> rfl
    · rfl
  | retLocked code => rfl

theorem finish_waiters (s : State Θ) (t : Θ) (th : Thread) (sec : Section) :
    (s.finish t th sec).waiters = update s.waiters t th.waiter := by
  funext v
  by_cases hv : v = t
  · subst hv
    simp [State.waiters, State.finish]
  · rw [update_of_ne hv]
    show Thread.waiter
      (update (if sec.broadcast then fun u => (s.threads u).wake else s.threads) t th v) = _
    rw [update_of_ne hv]
    split
    · exact (s.threads v).wake_waiter
    · rfl

theorem join_waiters (ring : Ring) (s : State Θ) (t : Θ) (c : LockCall) :
    (s.join ring t c).waiters = update s.waiters t (some (c.waiter s.lock)) := by
  rw [State.join_eq, finish_waiters]
  rfl

theorem run_waiters (ring : Ring) (s : State Θ) (t : Θ) (w : Waiter) :
    (s.run ring t w).waiters =
      update s.waiters t (if (w.body ring s.lock).exit = .wait then some w else none) := by
  rw [State.run, finish_waiters, Thread.after_waiter]

theorem fast_waiters {s : State Θ} (ht : (s.threads t).waiter = none) :
    (s.fast t).waiters = s.waiters := by
  rw [State.fast_eq, finish_waiters]
  show update s.waiters t none = s.waiters
  rw [← ht]
  exact update_eq_self t s.waiters

theorem releaseRead_waiters (s : State Θ) (t : Θ) : (s.releaseRead t).waiters = s.waiters := by
  rw [State.releaseRead, finish_waiters]
  exact update_eq_self t s.waiters

theorem releaseWrite_waiters (s : State Θ) (t : Θ) : (s.releaseWrite t).waiters = s.waiters := by
  rw [State.releaseWrite, finish_waiters]
  exact update_eq_self t s.waiters

variable [Fintype Θ]

/-- A waiting quick reader counts one. -/
def Thread.quick (th : Thread) : ℕ := if th.waiter = some .quick then 1 else 0

/-- The quick readers that wait. -/
def State.quickWaiters (s : State Θ) : ℕ := ∑ t, (s.threads t).quick

/-- The mutex is free, the counters cover what is out and count the quick readers that wait, and the
FIFO is in order. -/
structure Orderly (ring : Ring) (s : State Θ) : Prop where
  free : s.stuck = false
  covered : Covered s
  quick : s.lock.qrWaiters = s.quickWaiters
  fifo : Fifo ring s.lock s.waiters

theorem finish_quick (s : State Θ) (t : Θ) (th : Thread) (sec : Section) :
    (s.finish t th sec).quickWaiters + (s.threads t).quick = s.quickWaiters + th.quick := by
  refine sum_finish Thread.quick (fun th => ?_) s t th sec
  show (if th.wake.waiter = _ then 1 else 0) = _
  rw [th.wake_waiter]
  rfl

variable {s : State Θ} {tr : List (Event Θ)}

theorem run_quick (ring : Ring) (ht : (s.threads t).waiter = some w) :
    (s.run ring t w).quickWaiters +
      (if w = .quick ∧ (w.body ring s.lock).exit ≠ .wait then 1 else 0) = s.quickWaiters := by
  have hquick := finish_quick s t ((s.threads t).after w (w.body ring s.lock).exit)
    (w.body ring s.lock)
  rw [Thread.quick, Thread.quick, Thread.after_waiter, ht] at hquick
  show (s.finish t ((s.threads t).after w (w.body ring s.lock).exit) _).quickWaiters + _ = _
  generalize w.body ring s.lock = sec at hquick ⊢
  by_cases hx : sec.exit = .wait
  · rw [if_pos hx] at hquick
    rw [if_neg fun h => h.2 hx]
    omega
  · rw [if_neg hx] at hquick
    by_cases hw : w = .quick
    · rw [if_pos ⟨hw, hx⟩]
      simpa [hw] using hquick
    · rw [if_neg fun h => hw h.1]
      simpa [hw] using hquick

namespace Orderly

omit [DecidableEq Θ] in
theorem nonneg {ring : Ring} (h : Orderly ring s) : 0 ≤ s.lock.currentWriters :=
  (Int.natCast_nonneg _).trans h.covered.writers

omit [DecidableEq Θ] in
theorem turn (h : Orderly (Ring.plain R p) s) (ht : (s.threads t).waiter = some w) :
    Turn (Ring.plain R p) s.lock w (w.body (Ring.plain R p) s.lock) :=
  body_turn h.fifo ht h.nonneg

theorem fast {ring : Ring} (h : Orderly ring s) (ht : (s.threads t).waiter = none)
    (hw : s.lock.currentWriters = 0) : Orderly ring (s.fast t) := by
  rw [State.fast_eq]
  have hquick := finish_quick s t ((s.threads t).after .quick (.ret 0))
    ⟨{ s.lock with currentReaders := s.lock.currentReaders + 1 }, .ret 0, false⟩
  have hbefore : (s.threads t).quick = 0 := by rw [Thread.quick, ht]; rfl
  have hafter : ((s.threads t).after .quick (.ret 0)).quick = 0 := rfl
  have hq := h.quick
  refine ⟨rfl, h.covered.fast hw, ?_, ?_⟩
  · show s.lock.qrWaiters = _
    omega
  · rw [← State.fast_eq, fast_waiters ht]
    exact h.fifo.recount _ s.lock.currentWriters s.lock.qrWaiters

/-- **Joining**: a thread that has not been waiting finds a free slot. -/
theorem join (h : Orderly (Ring.plain R p) s) (hcard : Fintype.card Θ ≤ R)
    (ht : (s.threads t).waiter = none) (c : LockCall) :
    Orderly (Ring.plain R p) (s.join (Ring.plain R p) t c) := by
  have hquick := finish_quick s t ((s.threads t).joined (c.waiter s.lock))
    ⟨c.join (Ring.plain R p) s.lock, .wait, false⟩
  have hroom := h.fifo.size_lt hcard ht
  have hq := h.quick
  rw [State.join_eq]
  have hbefore : (s.threads t).quick = 0 := by rw [Thread.quick, ht]; rfl
  refine ⟨rfl, h.covered.join c, ?_, ?_⟩
  · cases c with
    | quick =>
      have hafter : ((s.threads t).joined (LockCall.quick.waiter s.lock)).quick = 1 := rfl
      show s.lock.qrWaiters + 1 = _
      omega
    | read =>
      have hafter : ((s.threads t).joined (LockCall.read.waiter s.lock)).quick = 0 := rfl
      show s.lock.qrWaiters = _
      omega
    | write =>
      have hafter : ((s.threads t).joined (LockCall.write.waiter s.lock)).quick = 0 := rfl
      show s.lock.qrWaiters = _
      omega
  · rw [← State.join_eq, join_waiters]
    cases c with
    | quick =>
      exact (h.fifo.recount s.lock.currentReaders s.lock.currentWriters _).joinQuick ht
    | read => exact h.fifo.joinFifo (w := .read s.lock.nextElement) ht hroom rfl
    | write => exact h.fifo.joinFifo (w := .write s.lock.nextElement) ht hroom rfl

/-- **Running the loop body.** -/
theorem run (h : Orderly (Ring.plain R p) s) (ht : (s.threads t).waiter = some w) :
    Orderly (Ring.plain R p) (s.run (Ring.plain R p) t w) := by
  have hturn := h.turn ht
  have hquick := run_quick (Ring.plain R p) ht
  have hq := h.quick
  refine ⟨?_, h.covered.run w, ?_, ?_⟩
  · show (w.body (Ring.plain R p) s.lock).exit.locked = false
    generalize w.body (Ring.plain R p) s.lock = sec at hturn
    cases hturn <;> rfl
  · show (w.body (Ring.plain R p) s.lock).lock.qrWaiters = _
    rw [hturn.qrWaiters]
    split_ifs at hquick ⊢ <;> omega
  · rw [run_waiters]
    exact hturn.fifo h.fifo ht

theorem releaseRead {ring : Ring} (h : Orderly ring s)
    (hheld : 0 < (s.threads t).reads) : Orderly ring (s.releaseRead t) := by
  have hquick := finish_quick s t (s.threads t).dropRead (rwlockReadUnlock s.lock)
  have hcount := h.fifo.recount (s.lock.currentReaders - 1) s.lock.currentWriters s.lock.qrWaiters
  have hq := h.quick
  have hsame : (s.threads t).dropRead.waiter = (s.threads t).waiter := rfl
  rw [Thread.quick, Thread.quick, hsame] at hquick
  refine ⟨?_, h.covered.releaseRead hheld, ?_, ?_⟩
  · show (rwlockReadUnlock s.lock).exit.locked = false
    simp only [rwlockReadUnlock]
    split_ifs <;> rfl
  · have hlock : (rwlockReadUnlock s.lock).lock.qrWaiters = s.lock.qrWaiters := by
      simp only [rwlockReadUnlock]
      split_ifs <;> rfl
    show (rwlockReadUnlock s.lock).lock.qrWaiters = (s.finish t _ _).quickWaiters
    omega
  · rw [releaseRead_waiters]
    show Fifo ring (rwlockReadUnlock s.lock).lock s.waiters
    simp only [rwlockReadUnlock]
    split_ifs
    · exact hcount
    · exact hcount
    · exact hcount.unbatch

theorem releaseWrite {ring : Ring} (h : Orderly ring s)
    (hheld : 0 < (s.threads t).writes) : Orderly ring (s.releaseWrite t) := by
  have hquick := finish_quick s t (s.threads t).dropWrite (rwlockWriteUnlock s.lock)
  have hcount := h.fifo.recount s.lock.currentReaders (s.lock.currentWriters - 1) s.lock.qrWaiters
  have hq := h.quick
  have hsame : (s.threads t).dropWrite.waiter = (s.threads t).waiter := rfl
  rw [Thread.quick, Thread.quick, hsame] at hquick
  refine ⟨?_, h.covered.releaseWrite hheld, ?_, ?_⟩
  · show (rwlockWriteUnlock s.lock).exit.locked = false
    simp only [rwlockWriteUnlock]
    split_ifs <;> rfl
  · have hlock : (rwlockWriteUnlock s.lock).lock.qrWaiters = s.lock.qrWaiters := by
      simp only [rwlockWriteUnlock]
      split_ifs <;> rfl
    show (rwlockWriteUnlock s.lock).lock.qrWaiters = (s.finish t _ _).quickWaiters
    omega
  · rw [releaseWrite_waiters]
    show Fifo ring (rwlockWriteUnlock s.lock).lock s.waiters
    simp only [rwlockWriteUnlock]
    split_ifs
    · exact hcount.unbatch
    · exact hcount.unbatch

end Orderly

/-- **Invariants of runs that stay in order**: with at most as many threads as the ring has slots, every
step may use that the FIFO is in order, also after a thread has joined it. -/
theorem invariant_of_orderly {P : State Θ → Event Θ → State Θ → Prop}
    {I : List (Event Θ) → State Θ → Prop} (hcard : Fintype.card Θ ≤ R) (hinit : I [] State.init)
    (hfast : ∀ tr s t, I tr s → Orderly (Ring.plain R p) s → (s.threads t).waiter = none →
      s.lock.currentWriters = 0 →
      I (tr ++ [⟨t, .call .quick, some 0⟩]) (s.fast t))
    (hcall : ∀ tr s t c, I tr s → Orderly (Ring.plain R p) s → (s.threads t).waiter = none →
      ¬ QuickFast s c → Orderly (Ring.plain R p) (s.join (Ring.plain R p) t c) →
      I (tr ++ [runEvent (Ring.plain R p) (c.join (Ring.plain R p) s.lock) t (.call c)
        (c.waiter s.lock)]) ((s.join (Ring.plain R p) t c).run (Ring.plain R p) t (c.waiter s.lock)))
    (hwake : ∀ tr s t w s', I tr s → Orderly (Ring.plain R p) s → (s.threads t).waiter = some w →
      P s (runEvent (Ring.plain R p) s.lock t (.wake w.call) w) s' →
      I (tr ++ [runEvent (Ring.plain R p) s.lock t (.wake w.call) w]) (s.run (Ring.plain R p) t w))
    (hread : ∀ tr s t r s', I tr s → Orderly (Ring.plain R p) s → (s.threads t).waiter = none →
      0 < (s.threads t).reads → P s ⟨t, .readUnlock, r⟩ s' →
      I (tr ++ [⟨t, .readUnlock, r⟩]) (s.releaseRead t))
    (hwrite : ∀ tr s t r, I tr s → Orderly (Ring.plain R p) s → (s.threads t).waiter = none →
      0 < (s.threads t).writes → I (tr ++ [⟨t, .writeUnlock, r⟩]) (s.releaseWrite t))
    (h : Reach ((correctSys (Ring.plain R p) Θ).restrict P) tr s) :
    I tr s ∧ Orderly (Ring.plain R p) s := by
  refine invariant_of_events (I := fun tr s => I tr s ∧ Orderly (Ring.plain R p) s)
    ⟨hinit, rfl, ?_, ?_, Fifo.init⟩ ?_ ?_ ?_ ?_ ?_ h
  · exact Covered.of_reach (Reach.init (S := correctSys (Ring.plain R p) Θ) rfl)
  · simp [State.quickWaiters, Thread.quick, State.init, Thread.waiter, Lock.init]
  · intro tr s t hI _ ht hw
    exact ⟨hfast tr s t hI.1 hI.2 ht hw, hI.2.fast ht hw⟩
  · intro tr s t c hI _ ht hquick
    have hjoin := hI.2.join hcard ht c
    exact ⟨hcall tr s t c hI.1 hI.2 ht hquick hjoin,
      hjoin.run (by simp [State.join, Thread.joined, Thread.waiter])⟩
  · intro tr s t w s' hI _ ht hP
    exact ⟨hwake tr s t w s' hI.1 hI.2 ht hP, hI.2.run ht⟩
  · intro tr s t r s' hI _ ht hheld hP
    exact ⟨hread tr s t r s' hI.1 hI.2 ht hheld hP, hI.2.releaseRead hheld⟩
  · intro tr s t r hI _ ht hheld
    exact ⟨hwrite tr s t r hI.1 hI.2 ht hheld, hI.2.releaseWrite hheld⟩

end SystemProgramming.Rwlock
