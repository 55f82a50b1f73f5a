import SystemProgramming.Rwlock.Wrapping
import SystemProgramming.Rwlock.Turns
import Mathlib.Data.List.Nodup

/-!
# Ticket numbers that overflow

With `int` tickets, `++` wraps.  A ghost log keeps what a run has done with tickets: the numbers that
`join_fifo` has issued, and the ring indices that `slot_matches`, `get_request_type`, `consume_entry`
and `join_fifo` have used.

* `tickets_survive`: as long as no ticket overflows, all indices are inside the ring, and no ticket is
  issued twice;
* `tickets_overflow`: every run that issues two tickets more than there are `int`s from 0 on uses an
  index below the ring, as the remainder of a negative number is negative.
-/

namespace SystemProgramming.Rwlock

open Function CInt

/-! ### The tickets whose slots a section looks at -/

section Uses

variable (ring : Ring) (u : Lock)

/-- Tickets that the loop of `find_valid_head` looks at. -/
def skipHeadUses : ℕ → ℤ → List ℤ
  | 0, _ => []
  | fuel + 1, head =>
    if head < u.nextElement then
      head :: if slotMatches ring u head none = false then skipHeadUses fuel (ring.succ head) else []
    else []

def findValidHeadUses (head : ℤ) : List ℤ := skipHeadUses ring u (u.nextElement - head).toNat head

/-- Tickets that the scan for a reader batch looks at, the one it stops at included. -/
def scanBatchUses : ℕ → ℤ → List ℤ
  | 0, head => [head]
  | fuel + 1, head =>
    head :: if slotMatches ring u head (some .read) = true then scanBatchUses fuel (ring.succ head)
      else []

/-- Tickets that the loop body of a normal reader looks at. -/
def readBodyUses (myTurn : ℤ) : List ℤ :=
  if u.currentWriters > 0 then []
  else if myTurn ≤ u.readBatchEnd ∧ u.currentWriters = 0 then [myTurn]
  else
    let head := findValidHead ring u u.oldestElement
    findValidHeadUses ring u u.oldestElement ++
      if head = u.nextElement then []
      else if myTurn = head then
        head :: if getRequestType ring u head = .read then
          scanBatchUses ring u ring.size head ++ [myTurn] else []
      else []

/-- Tickets that the loop body of a writer looks at. -/
def writeBodyUses (myTurn : ℤ) : List ℤ :=
  if u.currentReaders > 0 ∨ u.currentWriters > 0 ∨ u.qrWaiters > 0 then []
  else
    let head := findValidHead ring u u.oldestElement
    findValidHeadUses ring u u.oldestElement ++
      if head = u.nextElement then []
      else if myTurn = head then
        myTurn :: if slotMatches ring u myTurn (some .write) = true then
          findValidHeadUses ring (u.consumed ring myTurn) (ring.succ head) else []
      else []

def Waiter.uses : Waiter → List ℤ
  | .quick => []
  | .read myTurn => readBodyUses ring u myTurn
  | .write myTurn => writeBodyUses ring u myTurn

/-- Tickets that the first section of a call looks at, the one it draws first. -/
def LockCall.uses : LockCall → List ℤ
  | .quick => []
  | .read => u.nextElement :: (Waiter.read u.nextElement).uses ring (LockCall.read.join ring u)
  | .write => u.nextElement :: (Waiter.write u.nextElement).uses ring (LockCall.write.join ring u)

end Uses

/-- The tickets issued and the ring indices used. -/
structure Log where
  issued : List ℤ
  used : List ℤ

variable {Θ : Type} [DecidableEq Θ]

/-- The ticket that the call draws. -/
def LockCall.draws (u : Lock) : LockCall → List ℤ
  | .quick => []
  | .read => [u.nextElement]
  | .write => [u.nextElement]

/-- What the step adds to the log. -/
def Log.add (ring : Ring) (l : Log) (s : State Θ) (e : Event Θ) : Log :=
  match e.action with
  | .call c => ⟨l.issued ++ c.draws s.lock, l.used ++ (c.uses ring s.lock).map (slotIndex ring)⟩
  | .wake _ =>
    match (s.threads e.thread).waiter with
    | some w => ⟨l.issued, l.used ++ (w.uses ring s.lock).map (slotIndex ring)⟩
    | none => l
  | .readUnlock => l
  | .writeUnlock => l

/-- Threads that share a lock, with the log. -/
def loggedSys (ring : Ring) (Θ : Type) [DecidableEq Θ] : Sys (State Θ × Log) (Event Θ) where
  init x := x = (State.init, ⟨[], []⟩)
  step x e y := Step ring x.1 e y.1 ∧ y.2 = x.2.add ring x.1 e

theorem logged_step {ring : Ring} {s s' : State Θ} {l : Log} {e : Event Θ} (h : Step ring s e s') :
    (loggedSys ring Θ).step (s, l) e (s', l.add ring s e) := ⟨h, rfl⟩

/-! ### Below the largest `int` -/

variable {R : ℕ} {p : 0 < R} {u : Lock} {n k : ℤ} {m : ℕ} {w : Waiter}

theorem skipHeadUses_nonneg (h₀ : 0 ≤ k) (hmax : u.nextElement < 2 ^ 31) :
    ∀ n ∈ skipHeadUses (Ring.wrapping R p) u m k, 0 ≤ n := by
  induction m generalizing k with
  | zero => simp [skipHeadUses]
  | succ m ih =>
    unfold skipHeadUses
    split
    · rename_i hlt
      have hsucc : (Ring.wrapping R p).succ k = k + 1 := addInt_one h₀ (by omega)
      intro n hn
      rcases List.mem_cons.mp hn with rfl | hn
      · exact h₀
      · split at hn
        · rw [hsucc] at hn
          exact ih (by omega) n hn
        · cases hn
    · simp

theorem scanBatchUses_nonneg (h : Tickets u) (h₀ : 0 ≤ k) (hmax : u.nextElement < 2 ^ 31) :
    ∀ n ∈ scanBatchUses (Ring.wrapping R p) u m k, 0 ≤ n := by
  induction m generalizing k with
  | zero =>
    intro n hn
    rw [List.mem_singleton.mp hn]
    exact h₀
  | succ m ih =>
    unfold scanBatchUses
    intro n hn
    rcases List.mem_cons.mp hn with rfl | hn
    · exact h₀
    · split at hn
      · rename_i hm
        have hlt := h.lt_of_match (p := p) (slotMatches_none.mpr (slotMatches_some.mp hm).1)
        have hsucc : (Ring.wrapping R p).succ k = k + 1 := addInt_one h₀ (by omega)
        rw [hsucc] at hn
        exact ih (by omega) n hn
      · cases hn

/-- Nothing that a loop body looks at is negative. -/
theorem uses_nonneg (h : Tickets u) (h₀ : 0 ≤ u.oldestElement) (hmax : u.nextElement < 2 ^ 31)
    (hn : ∀ n, w.ticket = some n → 0 ≤ n) : ∀ k ∈ w.uses (Ring.wrapping R p) u, 0 ≤ k := by
  have hhead := findValidHead_wrapping (R := R) (p := p) h₀ hmax
  obtain ⟨hle, hbound, -, -⟩ := findValidHead_spec (p := p) u u.oldestElement
  have hbound := hbound h.oldest
  intro k hk
  cases w with
  | quick => cases hk
  | read n =>
    have hn₀ : 0 ≤ n := hn n rfl
    have hk' : k ∈ readBodyUses (Ring.wrapping R p) u n := hk
    simp only [readBodyUses, hhead] at hk'
    split_ifs at hk' with hw hb hend hturn htype
    · cases hk'
    · rw [List.mem_singleton.mp hk']
      exact hn₀
    · rcases List.mem_append.mp hk' with hk' | hk'
      · exact skipHeadUses_nonneg h₀ hmax k hk'
      · cases hk'
    · rcases List.mem_append.mp hk' with hk' | hk'
      · exact skipHeadUses_nonneg h₀ hmax k hk'
      · rcases List.mem_cons.mp hk' with rfl | hk'
        · exact h₀.trans hle
        · rcases List.mem_append.mp hk' with hk' | hk'
          · exact scanBatchUses_nonneg h (h₀.trans hle) hmax k hk'
          · rw [List.mem_singleton.mp hk']
            exact hn₀
    · rcases List.mem_append.mp hk' with hk' | hk'
      · exact skipHeadUses_nonneg h₀ hmax k hk'
      · rw [List.mem_singleton.mp hk']
        exact h₀.trans hle
    · rcases List.mem_append.mp hk' with hk' | hk'
      · exact skipHeadUses_nonneg h₀ hmax k hk'
      · cases hk'
  | write n =>
    have hn₀ : 0 ≤ n := hn n rfl
    have hk' : k ∈ writeBodyUses (Ring.wrapping R p) u n := hk
    simp only [writeBodyUses, hhead] at hk'
    split_ifs at hk' with hbusy hend hturn htype
    · cases hk'
    · rcases List.mem_append.mp hk' with hk' | hk'
      · exact skipHeadUses_nonneg h₀ hmax k hk'
      · cases hk'
    · rcases List.mem_append.mp hk' with hk' | hk'
      · exact skipHeadUses_nonneg h₀ hmax k hk'
      · rcases List.mem_cons.mp hk' with rfl | hk'
        · exact hn₀
        · have hsucc : (Ring.wrapping R p).succ (findValidHead (Ring.plain R p) u u.oldestElement) =
              findValidHead (Ring.plain R p) u u.oldestElement + 1 :=
            addInt_one (h₀.trans hle) (by omega)
          rw [hsucc] at hk'
          refine skipHeadUses_nonneg ?_ ?_ k hk'
          · omega
          · exact hmax
    · rcases List.mem_append.mp hk' with hk' | hk'
      · exact skipHeadUses_nonneg h₀ hmax k hk'
      · rw [List.mem_singleton.mp hk']
        exact hn₀
    · rcases List.mem_append.mp hk' with hk' | hk'
      · exact skipHeadUses_nonneg h₀ hmax k hk'
      · cases hk'

/-! ### Runs without overflow -/

variable {s : State Θ} {l : Log} {t : Θ} {tr : List (Event Θ)}

/-- No ticket has overflowed yet. -/
structure Young (R : ℕ) (s : State Θ) (l : Log) : Prop where
  early : Early s.lock
  waiting : ∀ t w n, (s.threads t).waiter = some w → w.ticket = some n → 0 ≤ n
  used : ∀ i ∈ l.used, 0 ≤ i ∧ i < R
  issued : ∀ n ∈ l.issued, n < s.lock.nextElement
  once : l.issued.Nodup

/-- The ring index of a ticket that is not negative. -/
theorem slotIndex_bounds (h₀ : 0 ≤ n) :
    0 ≤ slotIndex (Ring.wrapping R p) n ∧ slotIndex (Ring.wrapping R p) n < R :=
  ⟨Int.tmod_nonneg _ h₀, Int.tmod_lt_of_pos _ (Int.natCast_pos.mpr p)⟩

namespace Young

omit [DecidableEq Θ] in
theorem log (h : Young R s l) {ns : List ℤ} (hns : ∀ n ∈ ns, 0 ≤ n) :
    Young R s ⟨l.issued, l.used ++ ns.map (slotIndex (Ring.wrapping R p))⟩ := by
  refine { h with used := fun i hi => ?_ }
  rcases List.mem_append.mp hi with hi | hi
  · exact h.used i hi
  · obtain ⟨n, hn, rfl⟩ := List.mem_map.mp hi
    exact slotIndex_bounds (hns n hn)

/-- A section that issues no ticket, and after which its thread waits for what it waited for or not at
all. -/
theorem finish (h : Young R s l) {th : Thread} {sec : Section} (hearly : Early sec.lock)
    (hnext : sec.lock.nextElement = s.lock.nextElement)
    (hth : ∀ w n, th.waiter = some w → w.ticket = some n → 0 ≤ n) :
    Young R (s.finish t th sec) l := by
  refine
    { early := hearly
      waiting := fun v w n hv hn => ?_
      used := h.used
      issued := fun n hn => show n < sec.lock.nextElement by rw [hnext]; exact h.issued n hn
      once := h.once }
  have hwaiters := congrFun (finish_waiters s t th sec) v
  have hv' : (s.finish t th sec).waiters v = some w := hv
  rw [hwaiters] at hv'
  rcases update_cases hv' with ⟨-, hnew⟩ | ⟨-, hold⟩
  · exact hth w n hnew hn
  · exact h.waiting v w n hold hn

theorem run (h : Young R s l) (ht : (s.threads t).waiter = some w) :
    Young R (s.run (Ring.wrapping R p) t w)
      ⟨l.issued, l.used ++ (w.uses (Ring.wrapping R p) s.lock).map (slotIndex (Ring.wrapping R p))⟩ := by
  have hnext := (body_ring (p := p) s.lock w).2
  have huses := uses_nonneg (p := p) h.early.tickets h.early.oldest h.early.max
    fun n hn => h.waiting t w n ht hn
  unfold State.run
  rw [h.early.body_wrapping]
  refine (h.log huses).finish (h.early.body w) hnext fun w' n hw' hn => ?_
  rw [Thread.after_waiter] at hw'
  split_ifs at hw' with hx
  cases hw'
  exact h.waiting t w n ht hn

theorem fast (h : Young R s l) : Young R (s.fast t) l := by
  rw [State.fast_eq]
  exact h.finish (h.early.recount _ s.lock.currentWriters s.lock.qrWaiters) rfl nofun

/-- A thread draws the next ticket. -/
theorem draw (h : Young R s l) (hmax : s.lock.nextElement < 2 ^ 31 - 1)
    (hn : w.ticket = some s.lock.nextElement) {th : Thread} (hth : th.waiter = some w) :
    Young R
      (s.finish t th
        ⟨(joinFifo (Ring.wrapping R p) s.lock s.lock.nextElement w.reqType).2, .wait, false⟩)
      ⟨l.issued ++ [s.lock.nextElement],
        l.used ++ [slotIndex (Ring.wrapping R p) s.lock.nextElement]⟩ := by
  have h₀ := h.early.tickets.nonneg
  have hjoin : (joinFifo (Ring.wrapping R p) s.lock s.lock.nextElement w.reqType).2 =
      (joinFifo (Ring.plain R p) s.lock s.lock.nextElement w.reqType).2 := by
    have hsucc : (Ring.wrapping R p).succ s.lock.nextElement = s.lock.nextElement + 1 :=
      addInt_one h₀ hmax
    unfold joinFifo
    rw [hsucc]
    rfl
  obtain ⟨hnext, hold, -, -, -⟩ := joinFifo_reqType (p := p) (u := s.lock) hn
  rw [hjoin]
  refine
    { early := ⟨h.early.tickets.joined, hold.symm ▸ h.early.oldest, ?_⟩
      waiting := fun v w' n hv hn' => ?_
      used := fun i hi => ?_
      issued := fun n hn' => ?_
      once := ?_ }
  · show (joinFifo _ _ _ _).2.nextElement < 2 ^ 31
    rw [hnext]
    omega
  · have hwaiters := congrFun (finish_waiters s t th
      ⟨(joinFifo (Ring.plain R p) s.lock s.lock.nextElement w.reqType).2, .wait, false⟩) v
    have hv' : (s.finish t th _).waiters v = some w' := hv
    rw [hwaiters] at hv'
    rcases update_cases hv' with ⟨-, hnew⟩ | ⟨-, hold⟩
    · rw [hth] at hnew
      cases hnew
      rw [hn] at hn'
      cases hn'
      exact h₀
    · exact h.waiting v w' n hold hn'
  · rcases List.mem_append.mp hi with hi | hi
    · exact h.used i hi
    · rw [List.mem_singleton.mp hi]
      exact slotIndex_bounds h₀
  · show n < (joinFifo _ _ _ _).2.nextElement
    rw [hnext]
    rcases List.mem_append.mp hn' with hn' | hn'
    · have := h.issued n hn'
      omega
    · rw [List.mem_singleton.mp hn']
      omega
  · refine List.nodup_append.mpr ⟨h.once, List.nodup_singleton _, fun a ha b hb => ?_⟩
    rw [List.mem_singleton.mp hb]
    have := h.issued a ha
    omega

/-- Joining draws a new ticket, unless the reader is quick. -/
theorem join (h : Young R s l) (c : LockCall)
    (hmax : c = .read ∨ c = .write → s.lock.nextElement < 2 ^ 31 - 1) :
    Young R (s.join (Ring.wrapping R p) t c)
      ⟨l.issued ++ c.draws s.lock, l.used ++ (c.draws s.lock).map (slotIndex (Ring.wrapping R p))⟩ := by
  rw [State.join_eq]
  cases c with
  | quick =>
    rw [LockCall.draws, List.map_nil, List.append_nil, List.append_nil]
    refine h.finish (h.early.join (p := p) .quick hmax) rfl fun w n hw hn => ?_
    cases hw
    cases hn
  | read => exact h.draw (w := .read s.lock.nextElement) (hmax (Or.inl rfl)) rfl rfl
  | write => exact h.draw (w := .write s.lock.nextElement) (hmax (Or.inr rfl)) rfl rfl

theorem unlock (h : Young R s l) {th : Thread} {sec : Section} (hth : th.waiter = (s.threads t).waiter)
    (hearly : Early sec.lock) (hnext : sec.lock.nextElement = s.lock.nextElement) :
    Young R (s.finish t th sec) l :=
  h.finish hearly hnext fun w n hw hn => h.waiting t w n (hth ▸ hw) hn

/-- **Up to the largest `int`** nothing goes wrong. -/
theorem of_reach {x : State Θ × Log}
    (h : Reach ((loggedSys (Ring.wrapping R p) Θ).restrict fun x e y => NoOverflow x.1 e y.1) tr x) :
    Young R x.1 x.2 := by
  refine h.state_invariant (I := fun x => Young R x.1 x.2) ?_ ?_
  · rintro x rfl
    exact ⟨Early.init, nofun, nofun, nofun, List.nodup_nil⟩
  · rintro ⟨s, l⟩ e ⟨s', l'⟩ hI ⟨⟨hstep, hlog⟩, hmax⟩
    have hlog' : l' = l.add (Ring.wrapping R p) s e := hlog
    subst hlog'
    have hstep' : Step (Ring.wrapping R p) s e s' := hstep
    cases hstep' with
    | call hfree hpc =>
      rename_i t c
      have hmax' : c = .read ∨ c = .write → s.lock.nextElement < 2 ^ 31 - 1 := fun hc =>
        hmax (hc.imp (congrArg Action.call) (congrArg Action.call))
      by_cases hquick : QuickFast s c
      · obtain ⟨rfl, hw⟩ := hquick
        show Young R (s.finish t ((s.threads t).after .quick
            (LockCall.quick.enter (Ring.wrapping R p) s.lock).exit)
          (LockCall.quick.enter (Ring.wrapping R p) s.lock)) ⟨l.issued ++ [], l.used ++ []⟩
        rw [finish_fast hw, List.append_nil, List.append_nil]
        exact hI.fast
      · have hjoin := hI.join (p := p) (t := t) c hmax'
        have hrun := hjoin.run (p := p) (t := t) (w := c.waiter s.lock)
          (by simp [State.join, Thread.joined, Thread.waiter])
        show Young R (s.finish t _ _) ⟨_, l.used ++ (c.uses (Ring.wrapping R p) s.lock).map _⟩
        rw [finish_enter hquick]
        have huses : (c.uses (Ring.wrapping R p) s.lock) = c.draws s.lock ++
            (c.waiter s.lock).uses (Ring.wrapping R p) (s.join (Ring.wrapping R p) t c).lock := by
          cases c <;> rfl
        rw [huses, List.map_append, ← List.append_assoc]
        exact hrun
    | wake hfree hpc =>
      rename_i t w woken
      have hwaiter : (s.threads t).waiter = some w := by simp [Thread.waiter, hpc]
      have hrun := hI.run (p := p) hwaiter
      have hadd : l.add (Ring.wrapping R p) s ⟨t, .wake w.call,
          (w.body (Ring.wrapping R p) s.lock).exit.result⟩ = ⟨l.issued,
            l.used ++ (w.uses (Ring.wrapping R p) s.lock).map (slotIndex (Ring.wrapping R p))⟩ := by
        simp [Log.add, hwaiter]
      show Young R (s.run (Ring.wrapping R p) t w) (l.add (Ring.wrapping R p) s
        ⟨t, .wake w.call, (w.body (Ring.wrapping R p) s.lock).exit.result⟩)
      rw [hadd]
      exact hrun
    | readUnlock hfree hpc =>
      refine hI.unlock rfl hI.early.readUnlock ?_
      simp only [rwlockReadUnlock]
      split_ifs <;> rfl
    | writeUnlock hfree hpc =>
      refine hI.unlock rfl hI.early.writeUnlock ?_
      simp only [rwlockWriteUnlock]
      split_ifs <;> rfl

end Young

/-- **Tickets survive** every run in which no call joins with the largest `int` as its ticket: all ring
indices are inside the ring, and no ticket is issued twice. -/
theorem tickets_survive {x : State Θ × Log}
    (h : Reach ((loggedSys (Ring.wrapping R p) Θ).restrict fun x e y => NoOverflow x.1 e y.1) tr x) :
    (∀ i ∈ x.2.used, 0 ≤ i ∧ i < R) ∧ x.2.issued.Nodup :=
  ⟨(Young.of_reach h).used, (Young.of_reach h).once⟩

/-- Every run of correct threads can be logged, and the log has an entry for each ticket drawn. -/
theorem exists_log {ring : Ring} {P : State Θ → Event Θ → State Θ → Prop}
    (h : Reach ((correctSys ring Θ).restrict P) tr s) : ∃ l : Log,
    Reach ((loggedSys ring Θ).restrict fun x e y => P x.1 e y.1) tr (s, l) ∧
      l.issued.length = tr.countP fun e => e.Draws := by
  refine h.invariant
    (I := fun tr s => ∃ l : Log,
      Reach ((loggedSys ring Θ).restrict fun x e y => P x.1 e y.1) tr (s, l) ∧
        l.issued.length = tr.countP fun e => e.Draws)
    (fun s hs => ⟨⟨[], []⟩, Reach.init (congrArg (·, Log.mk [] []) hs), rfl⟩) ?_
  rintro tr s e s' ⟨l, hreach, hlength⟩ ⟨⟨hs, -⟩, hP⟩
  refine ⟨l.add ring s e, hreach.step ⟨logged_step hs, hP⟩, ?_⟩
  rw [List.countP_append, List.countP_singleton, ← hlength]
  cases hs with
  | call hfree hpc =>
    rename_i t c
    cases c <;> simp [Log.add, LockCall.draws, Event.Draws]
  | wake hfree hpc => simp [Log.add, Thread.waiter, hpc, Event.Draws]
  | readUnlock hfree hpc => simp [Log.add, Event.Draws]
  | writeUnlock hfree hpc => simp [Log.add, Event.Draws]

/-- Two threads draw five tickets on a ring with two slots; at the end a writer waits for a reader. -/
theorem tickets_survive_round : ∃ x : State (Fin 2) × Log, x.2.issued.length = 5 ∧
    (x.1.threads 1).waiter = some (.write 4) ∧ (∀ i ∈ x.2.used, 0 ≤ i ∧ i < 2) ∧ x.2.issued.Nodup := by
  obtain ⟨tr, s, hreach, hs⟩ := exists_reachIn NoOverflow (Ring.wrapping 2 (by decide))
    [(0, .call .write), (1, .call .read), (0, .writeUnlock), (0, .call .write), (1, .wake .read),
      (1, .readUnlock), (0, .wake .write), (0, .writeUnlock), (0, .call .read), (1, .call .write)]
    (f := fun q : List (Event (Fin 2)) × State (Fin 2) =>
      (q.1.countP fun e => e.Draws, (q.2.threads 1).waiter))
    (v := (5, some (.write 4))) (by decide +kernel)
  obtain ⟨hcount, hwaiter⟩ := Prod.mk.inj hs
  obtain ⟨l, hlogged, hlength⟩ := exists_log hreach
  exact ⟨(s, l), hlength.trans hcount, hwaiter, tickets_survive hlogged⟩

/-! ### Runs that overflow -/

/-- The second ticket after the largest `int` has a negative remainder, or the first one has. -/
theorem slotIndex_neg (hR : 2 ≤ R) : slotIndex (Ring.wrapping R p) (ticketOf (2 ^ 31)) < 0 ∨
    slotIndex (Ring.wrapping R p) (ticketOf (2 ^ 31 + 1)) < 0 := by
  have hfirst : ticketOf (2 ^ 31) = -(2 ^ 31 : ℕ) := by
    unfold ticketOf toInt
    decide
  have hsecond : ticketOf (2 ^ 31 + 1) = -(2 ^ 31 - 1 : ℕ) := by
    unfold ticketOf toInt
    decide
  have hneg : ∀ m : ℕ, m % R ≠ 0 → slotIndex (Ring.wrapping R p) (-(m : ℤ)) < 0 := by
    intro m hm
    show Int.tmod (-(m : ℤ)) R < 0
    rw [Int.neg_tmod]
    have hmod : Int.tmod (m : ℤ) R = ((m % R : ℕ) : ℤ) := rfl
    rw [hmod]
    omega
  rw [hfirst, hsecond]
  by_cases h₁ : 2 ^ 31 % R = 0
  · -- a ring size divides at most one of two neighbours
    refine Or.inr (hneg _ fun h₂ => ?_)
    have hdvd := (Nat.dvd_sub (Nat.dvd_of_mod_eq_zero h₁) (Nat.dvd_of_mod_eq_zero h₂))
    have hone : 2 ^ 31 - (2 ^ 31 - 1) = 1 := by decide
    rw [hone] at hdvd
    have := Nat.le_of_dvd Nat.one_pos hdvd
    omega
  · exact Or.inl (hneg _ h₁)

/-- The tickets are issued one after the other, and the slot of each is used. -/
structure Issuing (R : ℕ) (p : 0 < R) (s : State Θ) (l : Log) : Prop where
  next : s.lock.nextElement = ticketOf l.issued.length
  used : ∀ n < l.issued.length, slotIndex (Ring.wrapping R p) (ticketOf n) ∈ l.used

namespace Issuing

omit [DecidableEq Θ] in
/-- A step that draws nothing. -/
theorem keep (h : Issuing R p s l) {s' : State Θ} (hnext : s'.lock.nextElement = s.lock.nextElement)
    (js : List ℤ) : Issuing R p s' ⟨l.issued, l.used ++ js⟩ where
  next := hnext.trans h.next
  used n hn := List.mem_append_left _ (h.used n hn)

omit [DecidableEq Θ] in
theorem draw (h : Issuing R p s l) {s' : State Θ}
    (hnext : s'.lock.nextElement = addInt s.lock.nextElement 1) {js : List ℤ}
    (hjs : slotIndex (Ring.wrapping R p) s.lock.nextElement ∈ js) :
    Issuing R p s' ⟨l.issued ++ [s.lock.nextElement], l.used ++ js⟩ where
  next := by
    rw [hnext, h.next, addInt_ticketOf, List.length_append, List.length_singleton]
  used n hn := by
    rw [List.length_append, List.length_singleton] at hn
    by_cases hlast : n = l.issued.length
    · rw [hlast, ← h.next]
      exact List.mem_append_right _ hjs
    · exact List.mem_append_left _ (h.used n (by omega))

end Issuing

/-- A loop body issues no ticket, on any ring. -/
theorem body_next (ring : Ring) (u : Lock) (w : Waiter) :
    (w.body ring u).lock.nextElement = u.nextElement := by
  cases w with
  | quick =>
    show (quickBody u).lock.nextElement = _
    unfold quickBody
    split <;> rfl
  | read n =>
    show (readBody ring u n).lock.nextElement = _
    simp only [readBody, finishGrant, consumeEntry]
    split_ifs <;> rfl
  | write n =>
    show (writeBody ring u n).lock.nextElement = _
    simp only [writeBody, finishGrant, consumeEntry]
    split_ifs <;> rfl

theorem Issuing.of_reach {x : State Θ × Log} (h : Reach (loggedSys (Ring.wrapping R p) Θ) tr x) :
    Issuing R p x.1 x.2 := by
  refine h.state_invariant (I := fun x => Issuing R p x.1 x.2) ?_ ?_
  · rintro x rfl
    exact ⟨(toInt_of_lt (show 0 < 2 ^ 31 by decide)).symm, nofun⟩
  · rintro ⟨s, l⟩ e ⟨s', l'⟩ hI ⟨hstep, hlog⟩
    have hlog' : l' = l.add (Ring.wrapping R p) s e := hlog
    subst hlog'
    have hstep' : Step (Ring.wrapping R p) s e s' := hstep
    have hsame : s'.lock.nextElement = s.lock.nextElement → Issuing R p s' l := fun hnext => by
      have hkept := hI.keep hnext []
      rwa [List.append_nil] at hkept
    cases hstep' with
    | call hfree hpc =>
      rename_i t c
      have hbody := body_next (Ring.wrapping R p) (c.join (Ring.wrapping R p) s.lock) (c.waiter s.lock)
      cases c with
      | quick =>
        show Issuing R p (s.finish t _ _) ⟨l.issued ++ [], l.used ++ []⟩
        rw [List.append_nil, List.append_nil]
        refine hsame ?_
        show (rwlockReadLockQuick s.lock).lock.nextElement = _
        unfold rwlockReadLockQuick
        split
        · rfl
        · exact body_next (Ring.wrapping R p) { s.lock with qrWaiters := s.lock.qrWaiters + 1 } .quick
      | read => exact hI.draw hbody (List.mem_cons_self ..)
      | write => exact hI.draw hbody (List.mem_cons_self ..)
    | wake hfree hpc =>
      rename_i t w woken
      have hwaiter : (s.threads t).waiter = some w := by simp [Thread.waiter, hpc]
      have hrun : Issuing R p (s.run (Ring.wrapping R p) t w) _ :=
        hI.keep (body_next (Ring.wrapping R p) s.lock w)
          ((w.uses (Ring.wrapping R p) s.lock).map (slotIndex (Ring.wrapping R p)))
      have hadd : l.add (Ring.wrapping R p) s ⟨t, .wake w.call,
          (w.body (Ring.wrapping R p) s.lock).exit.result⟩ = ⟨l.issued,
            l.used ++ (w.uses (Ring.wrapping R p) s.lock).map (slotIndex (Ring.wrapping R p))⟩ := by
        simp [Log.add, hwaiter]
      show Issuing R p (s.run (Ring.wrapping R p) t w) (l.add (Ring.wrapping R p) s
        ⟨t, .wake w.call, (w.body (Ring.wrapping R p) s.lock).exit.result⟩)
      rw [hadd]
      exact hrun
    | readUnlock hfree hpc =>
      refine hsame ?_
      show (rwlockReadUnlock s.lock).lock.nextElement = _
      simp only [rwlockReadUnlock]
      split_ifs <;> rfl
    | writeUnlock hfree hpc =>
      refine hsame ?_
      show (rwlockWriteUnlock s.lock).lock.nextElement = _
      simp only [rwlockWriteUnlock]
      split_ifs <;> rfl

/-- **Beyond the largest `int`**: every run in which two more tickets are issued uses an index below
the ring. -/
theorem tickets_overflow {x : State Θ × Log} (hR : 2 ≤ R)
    (h : Reach (loggedSys (Ring.wrapping R p) Θ) tr x) (hlong : 2 ^ 31 + 2 ≤ x.2.issued.length) :
    ∃ i ∈ x.2.used, i < 0 := by
  have hissuing := Issuing.of_reach h
  rcases slotIndex_neg (p := p) hR with hneg | hneg
  · exact ⟨_, hissuing.used (2 ^ 31) (by omega), hneg⟩
  · exact ⟨_, hissuing.used (2 ^ 31 + 1) (by omega), hneg⟩

omit [DecidableEq Θ] in
theorem countP_cycles (t : Θ) (m : ℕ) : (cycles t m).countP (fun e => e.Draws) = m := by
  induction m with
  | zero => rfl
  | succ m ih =>
    rw [cycles, List.countP_append, ih]
    rfl

/-- **Overflow.**  One thread that takes the lock for writing often enough reaches a negative index. -/
theorem tickets_fail : ∃ tr, ∃ x : State (Fin 1) × Log,
    Reach (loggedSys (Ring.wrapping 3 (by decide)) (Fin 1)) tr x ∧ ∃ i ∈ x.2.used, i < 0 := by
  have hreach := reach_quiet (R := 3) (by decide) (0 : Fin 1) (2 ^ 31 + 2)
  obtain ⟨l, hlogged, hlength⟩ := exists_log
    (hreach.restrict (P := fun _ _ _ => True) fun _ _ _ _ => trivial)
  rw [countP_cycles] at hlength
  exact ⟨_, _, hlogged.unrestrict, tickets_overflow (by decide) hlogged.unrestrict hlength.ge⟩

end SystemProgramming.Rwlock
