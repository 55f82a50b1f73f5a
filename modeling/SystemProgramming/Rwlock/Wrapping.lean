import SystemProgramming.Rwlock.Threads
import SystemProgramming.Rwlock.Tickets
import SystemProgramming.Lib.CInt
import Mathlib.Algebra.Order.Group.Int

/-!
# Tickets as C has them

`next_element` is an `int`, and `++` wraps at the largest one.  While no call has drawn that ticket
(`NoOverflow`), every section does on the wrapping ring what it does on a ring whose tickets never
overflow, where the order of tickets is the order in which they were drawn:

* `Tickets.body` and its neighbours: the bounds on tickets that every section keeps;
* `enter_wrapping`, `body_wrapping`, `next_wrapping`: the sections run as on the plain ring;
* `reach_plain`: **a run without overflow is a run on the plain ring**, event by event and state by
  state, so that what is proved of the plain ring holds of it;
* `reach_cycles`: any number of tickets is drawn by a thread that takes the lock for writing and gives
  it back, over and over, and this leaves the lock as it was but for the two ends of the FIFO.
-/

namespace SystemProgramming.Rwlock

open Function CInt

/-- A ring with `int` tickets. -/
def Ring.wrapping (size : ℕ) (pos : 0 < size) : Ring := ⟨size, pos, fun n => addInt n 1⟩

variable {Θ : Type} [DecidableEq Θ] {R : ℕ} {p : 0 < R} {u : Lock} {w : Waiter} {n k : ℤ} {m : ℕ}

/-- The event is a call that draws a ticket. -/
def Event.Draws (e : Event Θ) : Prop := e.action = .call .read ∨ e.action = .call .write

instance (e : Event Θ) : Decidable e.Draws := inferInstanceAs (Decidable (_ ∨ _))

/-- No call joins the FIFO with the largest `int` as its ticket. -/
def NoOverflow (s : State Θ) (e : Event Θ) (_ : State Θ) : Prop :=
  e.Draws → s.lock.nextElement < 2 ^ 31 - 1

instance (s : State Θ) (e : Event Θ) (s' : State Θ) : Decidable (NoOverflow s e s') :=
  inferInstanceAs (Decidable (_ → _))

/-! ### The bounds on tickets along a run -/

theorem Tickets.recount (h : Tickets u) (a b c : ℤ) :
    Tickets { u with currentReaders := a, currentWriters := b, qrWaiters := c } :=
  ⟨h.nonneg, h.oldest, h.batch, h.fresh⟩

/-- A section that ends in `finish_grant` keeps the bounds. -/
theorem Tickets.finishGrant {ring : Ring} {v : Lock} {n : ℤ} {granted : Lock → Section}
    (h : Tickets v) (hgranted : Tickets (granted (v.consumed ring n)).lock) :
    Tickets (Rwlock.finishGrant ring v n granted).lock := by
  cases hm : slotMatches ring v n none with
  | true =>
    rw [finishGrant_of_match hm]
    exact hgranted
  | false =>
    rw [finishGrant_of_miss hm]
    exact h

theorem Tickets.body (h : Tickets u) (w : Waiter) : Tickets (w.body (Ring.plain R p) u).lock := by
  have hrep := h.repaired (p := p)
  cases w with
  | quick =>
    show Tickets (quickBody u).lock
    unfold quickBody
    split
    · exact h
    · exact h.recount _ u.currentWriters _
  | read n =>
    show Tickets (readBody (Ring.plain R p) u n).lock
    rcases readBody_cases (Ring.plain R p) u n with
      ⟨-, hb⟩ | ⟨-, -, hb⟩ | ⟨-, -, ⟨-, hb⟩ | ⟨hne, hn, -, hb⟩ | ⟨-, -, hb⟩⟩
    · rw [hb]
      exact h
    · rw [hb]
      have hcount := h.recount (u.currentReaders + 1) u.currentWriters u.qrWaiters
      exact hcount.finishGrant hcount.consumed
    · rw [hb]
      exact h
    · rw [hb]
      have hle := (findValidHead_spec (p := p) u u.oldestElement).2.1 h.oldest
      rw [← hn] at hrep hle hne
      have hlead := hrep.lead (p := p) (n := n) (show n < u.nextElement by omega)
      exact hlead.finishGrant hlead.consumed
    · rw [hb]
      exact hrep
  | write n =>
    show Tickets (writeBody (Ring.plain R p) u n).lock
    rcases writeBody_cases (Ring.plain R p) u n with
      ⟨-, hb⟩ | ⟨-, -, -, ⟨-, hb⟩ | ⟨hne, hn, -, hb⟩ | ⟨-, -, hb⟩⟩
    · rw [hb]
      exact h
    · rw [hb]
      exact hrep
    · rw [hb]
      have hle := (findValidHead_spec (p := p) u u.oldestElement).2.1 h.oldest
      rw [← hn] at hrep hle hne
      have hcount := hrep.recount u.currentReaders 1 u.qrWaiters
      exact hcount.finishGrant (hcount.consumed.pass (show n < u.nextElement by omega))
    · rw [hb]
      exact hrep

theorem Tickets.join (h : Tickets u) (c : LockCall) : Tickets (c.join (Ring.plain R p) u) := by
  cases c with
  | quick => exact h.recount u.currentReaders u.currentWriters (u.qrWaiters + 1)
  | read => exact h.joined
  | write => exact h.joined

theorem Tickets.readUnlock (h : Tickets u) : Tickets (rwlockReadUnlock u).lock := by
  have hcount := h.recount (u.currentReaders - 1) u.currentWriters u.qrWaiters
  have hnext := h.nonneg
  simp only [rwlockReadUnlock]
  split_ifs
  · exact hcount
  · exact hcount
  · exact { hcount with batch := show (-1 : ℤ) < u.nextElement by omega }

theorem Tickets.writeUnlock (h : Tickets u) : Tickets (rwlockWriteUnlock u).lock := by
  have hcount := h.recount u.currentReaders (u.currentWriters - 1) u.qrWaiters
  have hnext := h.nonneg
  simp only [rwlockWriteUnlock]
  split_ifs
  · exact { hcount with batch := show (-1 : ℤ) < u.nextElement by omega }
  · exact { hcount with batch := show (-1 : ℤ) < u.nextElement by omega }

/-! ### Below the largest `int` -/

theorem addInt_one (h₀ : 0 ≤ n) (hlt : n < 2 ^ 31 - 1) : addInt n 1 = n + 1 := by
  unfold addInt
  exact toInt_of_bounds (by omega) (by omega)

theorem skipHead_wrapping (h₀ : 0 ≤ k) (hmax : u.nextElement < 2 ^ 31) :
    skipHead (Ring.wrapping R p) u m k = skipHead (Ring.plain R p) u m k := by
  induction m generalizing k with
  | zero => rfl
  | succ m ih =>
    unfold skipHead
    by_cases hlt : k < u.nextElement
    · have hsucc : (Ring.wrapping R p).succ k = k + 1 := addInt_one h₀ (by omega)
      rw [hsucc, ih (by omega)]
      rfl
    · rw [if_neg fun h => hlt h.1, if_neg fun h => hlt h.1]

theorem findValidHead_wrapping (h₀ : 0 ≤ k) (hmax : u.nextElement < 2 ^ 31) :
    findValidHead (Ring.wrapping R p) u k = findValidHead (Ring.plain R p) u k :=
  skipHead_wrapping h₀ hmax

theorem scanBatch_wrapping (h : Tickets u) (h₀ : 0 ≤ k) (hmax : u.nextElement < 2 ^ 31) {b : ℤ} :
    scanBatch (Ring.wrapping R p) u m k b = scanBatch (Ring.plain R p) u m k b := by
  induction m generalizing k b with
  | zero => rfl
  | succ m ih =>
    unfold scanBatch
    by_cases hm : slotMatches (Ring.plain R p) u k (some .read) = true
    · have hlt := h.lt_of_match (p := p) (slotMatches_none.mpr (slotMatches_some.mp hm).1)
      have hsucc : (Ring.wrapping R p).succ k = k + 1 := addInt_one h₀ (by omega)
      have hm' : slotMatches (Ring.wrapping R p) u k (some .read) = true := hm
      rw [if_pos hm, if_pos hm', hsucc, ih (by omega)]
      rfl
    · have hm' : ¬ slotMatches (Ring.wrapping R p) u k (some .read) = true := hm
      rw [if_neg hm, if_neg hm']

/-- **The loop bodies run as on the plain ring** as long as no ticket has overflowed. -/
theorem body_wrapping (h : Tickets u) (h₀ : 0 ≤ u.oldestElement) (hmax : u.nextElement < 2 ^ 31)
    (w : Waiter) : w.body (Ring.wrapping R p) u = w.body (Ring.plain R p) u := by
  have hhead := findValidHead_wrapping (R := R) (p := p) h₀ hmax
  have hle := (findValidHead_spec (p := p) u u.oldestElement).1
  cases w with
  | quick => rfl
  | read n =>
    have hscan := scanBatch_wrapping (p := p) (m := R) (b := n) (h.repaired (p := p))
      (h₀.trans hle) hmax
    show readBody (Ring.wrapping R p) u n = readBody (Ring.plain R p) u n
    have hsize : (Ring.wrapping R p).size = R := rfl
    have hsize' : (Ring.plain R p).size = R := rfl
    simp only [readBody, hhead, hsize, hsize', hscan]
    rfl
  | write n =>
    show writeBody (Ring.wrapping R p) u n = writeBody (Ring.plain R p) u n
    have hbound := (findValidHead_spec (p := p) u u.oldestElement).2.1 h.oldest
    by_cases hend : findValidHead (Ring.plain R p) u u.oldestElement = u.nextElement
    · simp only [writeBody, hhead, hend, if_true]
    · -- the head is not the last ticket yet
      have hpass : ∀ v : Lock, v.oldestElement = findValidHead (Ring.plain R p) u u.oldestElement →
          v.nextElement = u.nextElement → v.pass (Ring.wrapping R p) = v.pass (Ring.plain R p) := by
        intro v hv hnext
        have hsucc : (Ring.wrapping R p).succ v.oldestElement = v.oldestElement + 1 :=
          addInt_one (by omega) (by omega)
        unfold Lock.pass
        rw [hsucc]
        have hskip := findValidHead_wrapping (R := R) (p := p) (k := v.oldestElement + 1)
          (u := { v with oldestElement := v.oldestElement + 1 }) (by omega)
          (show v.nextElement < 2 ^ 31 by omega)
        simp only [hskip]
        rfl
      have hmatch : ∀ (v : Lock) (r : Option ReqType),
          slotMatches (Ring.wrapping R p) v n r = slotMatches (Ring.plain R p) v n r :=
        fun _ _ => rfl
      have hgrant : ∀ v : Lock, v.oldestElement = findValidHead (Ring.plain R p) u u.oldestElement →
          v.nextElement = u.nextElement →
          finishGrant (Ring.wrapping R p) v n
            (fun u => ⟨u.pass (Ring.wrapping R p), .ret 0, false⟩) =
          finishGrant (Ring.plain R p) v n (fun u => ⟨u.pass (Ring.plain R p), .ret 0, false⟩) := by
        intro v hv hnext
        cases hm : slotMatches (Ring.plain R p) v n none with
        | true =>
          rw [finishGrant_of_match hm, finishGrant_of_match (hmatch v none ▸ hm)]
          exact congrArg (fun u => (⟨u, .ret 0, false⟩ : Section)) (hpass _ hv hnext)
        | false => rw [finishGrant_of_miss hm, finishGrant_of_miss (hmatch v none ▸ hm)]
      rcases writeBody_cases (Ring.plain R p) u n with
        ⟨hbusy, hb⟩ | ⟨hr, hw, hq, ⟨hend', -⟩ | ⟨-, hn, htype, hb⟩ | ⟨-, hn, hb⟩⟩
      · rw [hb, writeBody, if_pos hbusy]
      · exact absurd hend' hend
      · have hidle : ¬ (u.currentReaders > 0 ∨ u.currentWriters > 0 ∨ u.qrWaiters > 0) := by omega
        rw [hb]
        simp only [writeBody, hhead, hmatch]
        rw [if_neg hidle, if_neg hend, if_pos ⟨hn, htype⟩]
        have := hgrant { u with oldestElement := n, currentWriters := 1 } hn rfl
        rw [← this, hn]
        rfl
      · have hidle : ¬ (u.currentReaders > 0 ∨ u.currentWriters > 0 ∨ u.qrWaiters > 0) := by omega
        have hn' : ¬ (n = findValidHead (Ring.plain R p) u u.oldestElement ∧
            slotMatches (Ring.plain R p)
              { u with oldestElement := findValidHead (Ring.plain R p) u u.oldestElement } n
              (some .write) = true) := hn
        rw [hb]
        simp only [writeBody, hhead, hmatch]
        rw [if_neg hidle, if_neg hend, if_neg hn']

/-- A loop body issues no ticket and does not move `oldest_element` back. -/
theorem body_ring (u : Lock) (w : Waiter) :
    u.oldestElement ≤ (w.body (Ring.plain R p) u).lock.oldestElement ∧
      (w.body (Ring.plain R p) u).lock.nextElement = u.nextElement := by
  have hle := (findValidHead_spec (p := p) u u.oldestElement).1
  cases w with
  | quick =>
    show u.oldestElement ≤ (quickBody u).lock.oldestElement ∧ (quickBody u).lock.nextElement = _
    unfold quickBody
    split <;> exact ⟨Int.le_refl _, rfl⟩
  | read n =>
    show u.oldestElement ≤ (readBody (Ring.plain R p) u n).lock.oldestElement ∧
      (readBody (Ring.plain R p) u n).lock.nextElement = _
    rcases readBody_cases (Ring.plain R p) u n with
      ⟨-, hb⟩ | ⟨-, -, hb⟩ | ⟨-, -, ⟨-, hb⟩ | ⟨-, hn, -, hb⟩ | ⟨-, -, hb⟩⟩
    · rw [hb]
      exact ⟨Int.le_refl _, rfl⟩
    · rw [hb]
      unfold finishGrant consumeEntry
      split_ifs <;> exact ⟨Int.le_refl _, rfl⟩
    · rw [hb]
      exact ⟨Int.le_refl _, rfl⟩
    · rw [hb]
      have hscan := (scanBatch_spec (p := p) (u := { u with oldestElement := n }) R n n).1
      unfold finishGrant consumeEntry
      split_ifs <;> exact ⟨(hn ▸ hle).trans hscan, rfl⟩
    · rw [hb]
      exact ⟨hle, rfl⟩
  | write n =>
    show u.oldestElement ≤ (writeBody (Ring.plain R p) u n).lock.oldestElement ∧
      (writeBody (Ring.plain R p) u n).lock.nextElement = _
    rcases writeBody_cases (Ring.plain R p) u n with
      ⟨-, hb⟩ | ⟨-, -, -, ⟨-, hb⟩ | ⟨-, hn, -, hb⟩ | ⟨-, -, hb⟩⟩
    · rw [hb]
      exact ⟨Int.le_refl _, rfl⟩
    · rw [hb]
      exact ⟨hle, rfl⟩
    · rw [hb]
      rw [← hn] at hle
      cases hm : slotMatches (Ring.plain R p) { u with oldestElement := n, currentWriters := 1 } n
          none with
      | true =>
        rw [finishGrant_of_match hm]
        have hskip := (findValidHead_spec (p := p)
          { Lock.consumed (Ring.plain R p) { u with oldestElement := n, currentWriters := 1 } n with
            oldestElement := n + 1 } (n + 1)).1
        exact ⟨(hle.trans (Int.le_add_one (Int.le_refl n))).trans hskip, rfl⟩
      | false =>
        rw [finishGrant_of_miss hm]
        exact ⟨hle, rfl⟩
    · rw [hb]
      exact ⟨hle, rfl⟩

/-! ### Locks whose tickets have not overflowed -/

/-- The bounds on tickets hold, and none of them has overflowed. -/
structure Early (u : Lock) : Prop where
  tickets : Tickets u
  oldest : 0 ≤ u.oldestElement
  max : u.nextElement < 2 ^ 31

namespace Early

theorem init : Early Lock.init where
  tickets := Tickets.init
  oldest := Int.le_refl 0
  max := show (0 : ℤ) < 2 ^ 31 by decide

theorem recount (h : Early u) (a b c : ℤ) :
    Early { u with currentReaders := a, currentWriters := b, qrWaiters := c } :=
  ⟨h.tickets.recount a b c, h.oldest, h.max⟩

theorem body (h : Early u) (w : Waiter) : Early (w.body (Ring.plain R p) u).lock := by
  obtain ⟨hold, hnext⟩ := body_ring (p := p) u w
  refine ⟨h.tickets.body w, h.oldest.trans hold, ?_⟩
  rw [hnext]
  exact h.max

theorem join (h : Early u) (c : LockCall)
    (hmax : c = .read ∨ c = .write → u.nextElement < 2 ^ 31 - 1) :
    Early (c.join (Ring.plain R p) u) := by
  have hdraw : u.nextElement < 2 ^ 31 - 1 → u.nextElement + 1 < 2 ^ 31 := fun hlt => by omega
  refine ⟨h.tickets.join c, ?_, ?_⟩
  · cases c <;> exact h.oldest
  · cases c with
    | quick => exact h.max
    | read => exact hdraw (hmax (Or.inl rfl))
    | write => exact hdraw (hmax (Or.inr rfl))

theorem enter (h : Early u) (c : LockCall)
    (hmax : c = .read ∨ c = .write → u.nextElement < 2 ^ 31 - 1) :
    Early (c.enter (Ring.plain R p) u).lock := by
  by_cases hquick : c = .quick ∧ u.currentWriters = 0
  · obtain ⟨rfl, hw⟩ := hquick
    show Early (rwlockReadLockQuick u).lock
    rw [rwlockReadLockQuick, if_pos hw]
    exact h.recount (u.currentReaders + 1) u.currentWriters u.qrWaiters
  · rw [enter_eq_body hquick]
    exact (h.join c hmax).body _

theorem readUnlock (h : Early u) : Early (rwlockReadUnlock u).lock := by
  refine ⟨h.tickets.readUnlock, ?_, ?_⟩
  · simp only [rwlockReadUnlock]
    split_ifs <;> exact h.oldest
  · simp only [rwlockReadUnlock]
    split_ifs <;> exact h.max

theorem writeUnlock (h : Early u) : Early (rwlockWriteUnlock u).lock := by
  refine ⟨h.tickets.writeUnlock, ?_, ?_⟩
  · simp only [rwlockWriteUnlock]
    split_ifs <;> exact h.oldest
  · simp only [rwlockWriteUnlock]
    split_ifs <;> exact h.max

/-- **No step without overflow** makes a ticket overflow. -/
theorem step {s s' : State Θ} {e : Event Θ} (h : Early s.lock) (hstep : Step (Ring.plain R p) s e s')
    (hno : NoOverflow s e s') : Early s'.lock := by
  cases hstep with
  | call hfree hpc =>
    refine h.enter _ fun hc => hno ?_
    rcases hc with rfl | rfl
    · exact Or.inl rfl
    · exact Or.inr rfl
  | wake hfree hpc => exact h.body _
  | readUnlock hfree hpc => exact h.readUnlock
  | writeUnlock hfree hpc => exact h.writeUnlock

end Early

/-! ### Sections, steps and runs on the two rings -/

theorem join_wrapping (h : Early u) {c : LockCall}
    (hmax : c = .read ∨ c = .write → u.nextElement < 2 ^ 31 - 1) :
    c.join (Ring.wrapping R p) u = c.join (Ring.plain R p) u := by
  have hsucc : u.nextElement < 2 ^ 31 - 1 →
      (Ring.wrapping R p).succ u.nextElement = (Ring.plain R p).succ u.nextElement :=
    addInt_one h.tickets.nonneg
  cases c with
  | quick => rfl
  | read =>
    show (joinFifo _ u u.nextElement .read).2 = (joinFifo _ u u.nextElement .read).2
    simp only [joinFifo, hsucc (hmax (Or.inl rfl))]
    rfl
  | write =>
    show (joinFifo _ u u.nextElement .write).2 = (joinFifo _ u u.nextElement .write).2
    simp only [joinFifo, hsucc (hmax (Or.inr rfl))]
    rfl

/-- **The loop bodies run as on the plain ring.** -/
theorem Early.body_wrapping (h : Early u) (w : Waiter) :
    w.body (Ring.wrapping R p) u = w.body (Ring.plain R p) u :=
  Rwlock.body_wrapping h.tickets h.oldest h.max w

/-- **The calls run as on the plain ring.** -/
theorem enter_wrapping (h : Early u) {c : LockCall}
    (hmax : c = .read ∨ c = .write → u.nextElement < 2 ^ 31 - 1) :
    c.enter (Ring.wrapping R p) u = c.enter (Ring.plain R p) u := by
  by_cases hquick : c = .quick ∧ u.currentWriters = 0
  · rw [hquick.1]
    rfl
  · rw [enter_eq_body hquick, enter_eq_body hquick, join_wrapping h hmax]
    exact (h.join c hmax).body_wrapping _

/-- What a thread that uses the lock alone or correctly does, it does as on the plain ring. -/
theorem next_wrapping {s : State Θ} {t : Θ} {a : Action} (h : Early s.lock)
    (hmax : a = .call .read ∨ a = .call .write → s.lock.nextElement < 2 ^ 31 - 1) :
    s.next (Ring.wrapping R p) t a = s.next (Ring.plain R p) t a := by
  cases a with
  | call c =>
    have henter : c.enter (Ring.wrapping R p) s.lock = c.enter (Ring.plain R p) s.lock :=
      enter_wrapping h fun hc => hmax (hc.imp (congrArg _) (congrArg _))
    cases hpc : (s.threads t).pc <;> simp only [State.next, hpc, henter]
  | wake c => cases hpc : (s.threads t).pc <;> simp only [State.next, hpc, h.body_wrapping]
  | readUnlock => cases hpc : (s.threads t).pc <;> simp only [State.next, hpc]
  | writeUnlock => cases hpc : (s.threads t).pc <;> simp only [State.next, hpc]

theorem Early.next {s s' : State Θ} {t : Θ} {a : Action} {e : Event Θ} (h : Early s.lock)
    (hmax : a = .call .read ∨ a = .call .write → s.lock.nextElement < 2 ^ 31 - 1)
    (hnext : s.next (Ring.plain R p) t a = some (e, s')) : Early s'.lock := by
  refine h.step (step_of_next hnext).1 fun hdraws => hmax ?_
  rwa [Event.Draws, action_of_next hnext] at hdraws

theorem Step.plain {s s' : State Θ} {e : Event Θ} (h : Early s.lock)
    (hstep : Step (Ring.wrapping R p) s e s') (hno : NoOverflow s e s') :
    Step (Ring.plain R p) s e s' := by
  cases hstep with
  | call hfree hpc =>
    rename_i t c
    have henter : c.enter (Ring.wrapping R p) s.lock = c.enter (Ring.plain R p) s.lock := by
      refine enter_wrapping h fun hc => hno ?_
      rcases hc with rfl | rfl
      · exact Or.inl rfl
      · exact Or.inr rfl
    rw [henter]
    exact .call hfree hpc
  | wake hfree hpc =>
    rw [h.body_wrapping]
    exact .wake hfree hpc
  | readUnlock hfree hpc => exact .readUnlock hfree hpc
  | writeUnlock hfree hpc => exact .writeUnlock hfree hpc

/-- **A run without overflow is a run on the plain ring.**  Conditions on its steps may change with
the ring. -/
theorem reach_plain {P Q : State Θ → Event Θ → State Θ → Prop} {tr : List (Event Θ)} {s : State Θ}
    (hno : ∀ s e s', P s e s' → NoOverflow s e s')
    (hPQ : ∀ s e s', Early s.lock → P s e s' → Q s e s')
    (h : Reach ((correctSys (Ring.wrapping R p) Θ).restrict P) tr s) :
    Reach ((correctSys (Ring.plain R p) Θ).restrict Q) tr s ∧ Early s.lock := by
  refine h.invariant
    (I := fun tr s => Reach ((correctSys (Ring.plain R p) Θ).restrict Q) tr s ∧ Early s.lock)
    (fun s hs => ?_) fun tr s e s' hI hstep => ?_
  · obtain rfl : s = State.init := hs
    exact ⟨Reach.init rfl, Early.init⟩
  · obtain ⟨hreach, hearly⟩ := hI
    obtain ⟨⟨hstep, hcorrect⟩, hP⟩ := hstep
    have hstep' := hstep.plain hearly (hno _ _ _ hP)
    exact ⟨hreach.step ⟨⟨hstep', hcorrect⟩, hPQ _ _ _ hearly hP⟩,
      hearly.step hstep' (hno _ _ _ hP)⟩

/-- The same without a further condition. -/
theorem reach_plain_of_noOverflow {tr : List (Event Θ)} {s : State Θ}
    (h : Reach ((correctSys (Ring.wrapping R p) Θ).restrict NoOverflow) tr s) :
    Reach (correctSys (Ring.plain R p) Θ) tr s ∧ Early s.lock := by
  obtain ⟨hreach, hearly⟩ := reach_plain (Q := fun _ _ _ => True) (fun _ _ _ hP => hP)
    (fun _ _ _ _ _ => trivial) h
  exact ⟨hreach.unrestrict, hearly⟩

/-! ### Any number of tickets -/

/-- A free lock with an empty FIFO and an empty ring, whose next ticket is `n`. -/
def Lock.quiet (n : ℤ) : Lock := { Lock.init with nextElement := n, oldestElement := n }

/-- All threads are outside, and the lock is quiet. -/
def State.quiet (n : ℤ) : State Θ := ⟨Lock.quiet n, false, fun _ => ⟨.idle, 0, 0⟩⟩

/-- The thread `t` holds the write lock, and nobody waits. -/
def State.writing (t : Θ) (n : ℤ) : State Θ where
  lock := { Lock.quiet n with currentWriters := 1 }
  stuck := false
  threads := update (fun _ => ⟨.idle, 0, 0⟩) t ⟨.idle, 0, 1⟩

/-- A ticket in its slot is where the search for the head stops. -/
theorem skipHead_of_match {ring : Ring} (hm : slotMatches ring u k none = true) :
    skipHead ring u m k = k := by
  cases m with
  | zero => rfl
  | succ m =>
    unfold skipHead
    rw [hm]
    rw [if_neg fun h => by cases h.2]

/-- A writer that joins the FIFO of a quiet lock is granted at once. -/
theorem writeLock_quiet {ring : Ring} (hsucc : ring.succ n ≠ n) : rwlockWriteLock ring (Lock.quiet n)
    = ⟨{ Lock.quiet (ring.succ n) with currentWriters := 1 }, .ret 0, false⟩ := by
  have hm : slotMatches ring (joinFifo ring (Lock.quiet n) n .write).2 n (some .write) = true :=
    slotMatches_some.mpr ⟨update_self _ _ _, update_self _ _ _⟩
  have hhead : findValidHead ring (joinFifo ring (Lock.quiet n) n .write).2 n = n :=
    skipHead_of_match (slotMatches_none.mpr (slotMatches_some.mp hm).1)
  show writeBody ring (joinFifo ring (Lock.quiet n) n .write).2 n = _
  rcases writeBody_cases ring (joinFifo ring (Lock.quiet n) n .write).2 n with
    ⟨hbusy, -⟩ | ⟨-, -, -, ⟨hend, -⟩ | ⟨-, -, -, hb⟩ | ⟨-, hn, -⟩⟩
  · have hbusy' : (0 : ℤ) > 0 ∨ (0 : ℤ) > 0 ∨ (0 : ℤ) > 0 := hbusy
    omega
  · exact absurd (hend.symm.trans hhead) hsucc
  · have hm' : slotMatches ring { (joinFifo ring (Lock.quiet n) n .write).2 with
        oldestElement := n, currentWriters := 1 } n none = true :=
      slotMatches_none.mpr (slotMatches_some.mp hm).1
    rw [hb, finishGrant_of_match hm']
    -- the slot is empty again, and nothing is left to skip
    have hslots : update (update (Lock.quiet n).slotTable (slotIndex ring n) n) (slotIndex ring n) (-1)
        = (Lock.quiet (ring.succ n)).slotTable := by
      rw [update_idem]
      exact update_eq_self (slotIndex ring n) fun _ => (-1 : ℤ)
    have htypes : update (update (Lock.quiet n).requestType (slotIndex ring n) .write)
        (slotIndex ring n) .none = (Lock.quiet (ring.succ n)).requestType := by
      rw [update_idem]
      exact update_eq_self (slotIndex ring n) fun _ => ReqType.none
    have hskip : ∀ v : Lock, v.nextElement = ring.succ n →
        findValidHead ring v (ring.succ n) = ring.succ n := by
      intro v hv
      rw [findValidHead, hv, Int.sub_self]
      rfl
    simp only [Lock.pass, Lock.consumed, joinFifo]
    rw [hskip _ rfl, hslots, htypes]
    rfl
  · exact absurd ⟨hhead.symm, hm⟩ hn

/-- The thread takes the lock for writing, and gives it back. -/
def cycle (t : Θ) : List (Event Θ) := [⟨t, .call .write, some 0⟩, ⟨t, .writeUnlock, some 0⟩]

/-- It does so `m` times. -/
def cycles (t : Θ) : ℕ → List (Event Θ)
  | 0 => []
  | m + 1 => cycles t m ++ cycle t

theorem State.writing_self (t : Θ) (n : ℤ) : (State.writing t n).threads t = ⟨.idle, 0, 1⟩ := by
  simp [State.writing]

theorem State.writing_of_ne {t v : Θ} (hv : v ≠ t) (n : ℤ) :
    (State.writing t n).threads v = ⟨.idle, 0, 0⟩ := by
  simp [State.writing, hv]

theorem State.writing_unlock (t : Θ) (n : ℤ) : (State.writing t n).releaseWrite t = State.quiet n := by
  unfold State.releaseWrite State.finish
  rw [State.writing_self]
  unfold State.quiet
  congr 1
  funext v
  by_cases hv : v = t
  · rw [hv, update_self]
    rfl
  · rw [update_of_ne hv]
    show ((State.writing t n).threads v).wake = _
    rw [State.writing_of_ne hv]
    rfl

theorem quiet_next {ring : Ring} (t : Θ) (hsucc : ring.succ n ≠ n) :
    (State.quiet n : State Θ).next ring t (.call .write)
      = some (⟨t, .call .write, some 0⟩, State.writing t (ring.succ n)) := by
  have henter : LockCall.write.enter ring (State.quiet n : State Θ).lock
      = ⟨{ Lock.quiet (ring.succ n) with currentWriters := 1 }, .ret 0, false⟩ := writeLock_quiet hsucc
  have hpc : ((State.quiet n : State Θ).threads t).pc = .idle := rfl
  simp only [State.next, hpc, henter]
  rfl

theorem writing_next (ring : Ring) (t : Θ) (n : ℤ) : (State.writing t n).next ring t .writeUnlock
    = some (⟨t, .writeUnlock, some 0⟩, State.quiet n) := by
  simp only [State.next, State.writing_self, State.writing_unlock]
  rfl

theorem play_cycle {ring : Ring} (t : Θ) (hsucc : ring.succ n ≠ n) :
    play ring [] (State.quiet n) [(t, .call .write), (t, .writeUnlock)]
      = some (cycle t, State.quiet (ring.succ n)) := by
  simp only [play, playIn, quiet_next t hsucc, writing_next, if_true]
  rfl

/-- **Any number of tickets** can be drawn. -/
theorem reach_cycles {ring : Ring} (t : Θ) (hsucc : ∀ n, ring.succ n ≠ n) (m : ℕ) :
    Reach (correctSys ring Θ) (cycles t m) (State.quiet (ring.succ^[m] 0)) := by
  induction m with
  | zero => exact Reach.init rfl
  | succ m ih =>
    rw [iterate_succ_apply']
    exact reach_of_play_from ih (play_cycle t (hsucc _))

/-- The ticket of the `m`-th call. -/
def ticketOf (m : ℕ) : ℤ := toInt m

theorem addInt_ticketOf (m : ℕ) : addInt (ticketOf m) 1 = ticketOf (m + 1) := by
  unfold addInt ticketOf toInt
  push_cast
  omega

theorem wrapping_succ_ne (n : ℤ) : (Ring.wrapping R p).succ n ≠ n := by
  show addInt n 1 ≠ n
  unfold addInt toInt
  omega

theorem wrapping_iterate (m : ℕ) : (Ring.wrapping R p).succ^[m] 0 = ticketOf m := by
  induction m with
  | zero => exact (toInt_of_lt (show 0 < 2 ^ 31 by decide)).symm
  | succ m ih =>
    rw [iterate_succ_apply', ih]
    exact addInt_ticketOf m

/-- The tickets of a wrapping ring come round. -/
theorem reach_quiet (p : 0 < R) (t : Θ) (m : ℕ) :
    Reach (correctSys (Ring.wrapping R p) Θ) (cycles t m) (State.quiet (ticketOf m)) := by
  rw [← wrapping_iterate (p := p)]
  exact reach_cycles t wrapping_succ_ne m

/-- A run that is played after `m` tickets have been drawn. -/
theorem exists_reach_quiet (p : 0 < R) (t : Θ) {m : ℕ} (hm : ticketOf m = n)
    (acts : List (Θ × Action)) {α : Type} {f : List (Event Θ) × State Θ → α} {v : α}
    (h : (play (Ring.wrapping R p) [] (State.quiet n) acts).map f = some v) :
    ∃ tr s, Reach (correctSys (Ring.wrapping R p) Θ) (cycles t m ++ tr) s ∧ f (tr, s) = v := by
  obtain ⟨⟨tr, s⟩, hplay, hv⟩ := Option.map_eq_some_iff.mp h
  subst hm
  exact ⟨tr, s, reach_of_play_from (reach_quiet p t m) hplay, hv⟩

end SystemProgramming.Rwlock
