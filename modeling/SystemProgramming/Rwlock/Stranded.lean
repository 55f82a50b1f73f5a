import SystemProgramming.Rwlock.Turns
import SystemProgramming.Rwlock.Counts

/-!
# Readers that are left behind

When a leader is granted, `oldest_element` moves past its whole batch, and the other members rely on
`read_batch_end` to get in.  If the last active reader leaves before they have woken up, the bound is
reset, their tickets are behind `oldest_element`, and nothing ever grants them.

* `rwlock_not_stranded`: as long as that does not happen, no member misses its slot and no ticket
  overflows, no state strands its waiters;
* `rwlock_stranded`: a run that leaves a reader behind, for ever.
-/

namespace SystemProgramming.Rwlock

open Function

variable {Θ : Type}

/-- Nobody holds the lock, no quick reader waits, somebody waits, and everybody who waits would wait
again. -/
structure Stranded (ring : Ring) (s : State Θ) : Prop where
  free : ∀ t, (s.threads t).reads = 0 ∧ (s.threads t).writes = 0
  noQuick : ∀ t, (s.threads t).waiter ≠ some .quick
  someone : ∃ t w, (s.threads t).waiter = some w
  blocked : ∀ t w, (s.threads t).waiter = some w → (w.body ring s.lock).exit = .wait

/-- In this step the last active reader does not leave while a member of the batch waits. -/
def NoneLeftBehind (s : State Θ) (e : Event Θ) (_ : State Θ) : Prop :=
  e.action = .readUnlock → s.lock.currentReaders = 1 →
    ∀ t n, (s.threads t).waiter = some (.read n) → s.lock.readBatchEnd < n

/-- The ticket of a normal reader. -/
def Waiter.readTicket : Waiter → Option ℤ
  | .quick => none
  | .read myTurn => some myTurn
  | .write _ => none

instance [Fintype Θ] (s : State Θ) (e : Event Θ) (s' : State Θ) : Decidable (NoneLeftBehind s e s') :=
  decidable_of_iff (e.action = .readUnlock → s.lock.currentReaders = 1 →
      ∀ t, ∀ w ∈ (s.threads t).waiter, ∀ n ∈ w.readTicket, s.lock.readBatchEnd < n) <| by
    refine imp_congr_right fun _ => imp_congr_right fun _ => forall_congr' fun t => ?_
    constructor
    · exact fun h n hn => h (.read n) hn n rfl
    · intro h w hw n hn
      cases w with
      | quick => cases hn
      | read k =>
        cases hn
        exact h n hw
      | write k => cases hn

variable {R : ℕ} {p : 0 < R} {u : Lock} {ws : Θ → Option Waiter} {t : Θ} {w : Waiter}

/-- The three conditions on the steps of a run: no overflow, nobody left behind, nobody who misses. -/
def Careful (ring : Ring) (s : State Θ) (e : Event Θ) (s' : State Θ) : Prop :=
  NoOverflow s e s' ∧ NoneLeftBehind s e s' ∧ NoMiss ring s e s'

instance [Fintype Θ] (ring : Ring) (s : State Θ) (e : Event Θ) (s' : State Θ) :
    Decidable (Careful ring s e s') := inferInstanceAs (Decidable (_ ∧ _ ∧ _))

/-- Readers behind `oldest_element` are in the batch, and there is a batch only while readers are
active. -/
structure Batched (u : Lock) (ws : Θ → Option Waiter) : Prop where
  member : ∀ t n, ws t = some (.read n) → n < u.oldestElement → n ≤ u.readBatchEnd
  closed : 0 < u.currentWriters ∨ u.currentReaders ≤ 0 → u.readBatchEnd = -1

namespace Batched

/-- A reader enters, and the ends of the batch stay where they are. -/
theorem enter {u' : Lock} {ws' : Θ → Option Waiter} (h : Batched u ws) (hr : 0 ≤ u.currentReaders)
    (hold : u'.oldestElement = u.oldestElement) (hend : u'.readBatchEnd = u.readBatchEnd)
    (hwriters : u'.currentWriters = u.currentWriters)
    (hreaders : u'.currentReaders = u.currentReaders + 1)
    (hws : ∀ v n, ws' v = some (.read n) → ws v = some (.read n)) : Batched u' ws' := by
  refine ⟨fun v n hv hlt => ?_, fun hnone => ?_⟩
  · rw [hend]
    exact h.member v n (hws v n hv) (hold ▸ hlt)
  · rw [hwriters, hreaders] at hnone
    rcases hnone with hnone | hnone
    · rw [hend]
      exact h.closed (Or.inl hnone)
    · omega

variable [DecidableEq Θ]

/-- **A turn keeps readers batched.** -/
theorem turn {ring : Ring} {sec : Section} (h : Batched u ws) (hturn : Turn ring u w sec)
    (hfifo : Fifo ring u ws) (ht : ws t = some w) (hr : 0 ≤ u.currentReaders) :
    Batched sec.lock (update ws t (if sec.exit = .wait then some w else none)) := by
  have hother : ∀ v n, update ws t none v = some (.read n) → v ≠ t ∧ ws v = some (.read n) := by
    intro v n hv
    rcases update_cases hv with ⟨-, hnone⟩ | hv
    · cases hnone
    · exact hv
  cases hturn with
  | blocked hblocked =>
    rw [if_pos rfl, ← ht, update_eq_self]
    exact h
  | quick hw => exact h.enter hr rfl rfl rfl rfl fun v n hv => (hother v n hv).2
  | member hw hb hn => exact h.enter hr rfl rfl rfl rfl fun v n hv => (hother v n hv).2
  | missed hw hb hn => exact h.enter hr rfl rfl rfl rfl fun v n hv => (hother v n hv).2
  | leader hw hb hn hm hend hreaders hstop =>
    rename_i k m
    refine ⟨fun v n _ hlt => ?_, fun hnone => ?_⟩
    · show n ≤ m - 1
      have hlt' : n < m := hlt
      omega
    · have hnone' : 0 < u.currentWriters ∨ u.currentReaders + 1 ≤ 0 := hnone
      omega
  | writer hr' hw hq hn hend =>
    rename_i k
    refine ⟨fun v n hv hlt => ?_, fun _ => rfl⟩
    -- no reader is behind the writer: there is no batch
    obtain ⟨hvt, hv'⟩ := hother v n hv
    have hissued := hfifo.issued v _ n hv' rfl
    have hlt' : n < k + 1 := hlt
    have hbatch := h.closed (Or.inr hr')
    have hne : n ≠ k := by
      rintro rfl
      exact hvt (hfifo.unique v t _ _ _ hv' ht rfl rfl)
    have := h.member v n hv' (by omega)
    omega

theorem join (h : Batched u ws) (hle : u.oldestElement ≤ u.nextElement) (c : LockCall)
    {ring : Ring} : Batched (c.join ring u) (update ws t (some (c.waiter u))) := by
  have hcounts := join_counts ring u c
  have hring : (c.join ring u).oldestElement = u.oldestElement ∧
      (c.join ring u).readBatchEnd = u.readBatchEnd := by
    cases c <;> exact ⟨rfl, rfl⟩
  refine ⟨fun v n hv hlt => ?_, fun hnone => ?_⟩
  · rw [hring.1] at hlt
    rw [hring.2]
    rcases update_cases hv with ⟨-, hnew⟩ | ⟨-, hv⟩
    · cases c with
      | quick => cases hnew
      | read =>
        cases hnew
        omega
      | write => cases hnew
    · exact h.member v n hv hlt
  · rw [hcounts.1, hcounts.2] at hnone
    rw [hring.2]
    exact h.closed hnone

omit [DecidableEq Θ] in
theorem fast (h : Batched u ws) (hr : 0 ≤ u.currentReaders) (hw : u.currentWriters = 0) :
    Batched { u with currentReaders := u.currentReaders + 1 } ws := by
  refine ⟨h.member, fun hnone => ?_⟩
  have hnone' : 0 < u.currentWriters ∨ u.currentReaders + 1 ≤ 0 := hnone
  omega

omit [DecidableEq Θ] in
theorem readUnlock (h : Batched u ws) (hr : 0 < u.currentReaders)
    (hlast : u.currentReaders = 1 → ∀ t n, ws t = some (.read n) → u.readBatchEnd < n) :
    Batched (rwlockReadUnlock u).lock ws := by
  simp only [rwlockReadUnlock]
  split_ifs with hneg hpos
  · omega
  · refine ⟨h.member, fun hnone => ?_⟩
    rcases hnone with hnone | hnone
    · exact h.closed (Or.inl hnone)
    · have : u.currentReaders - 1 ≤ 0 := hnone
      omega
  · refine ⟨fun v n hv hlt => ?_, fun _ => rfl⟩
    -- whoever is behind `oldest_element` would have been a member
    have hmember := h.member v n hv hlt
    have := hlast (by omega) v n hv
    omega

omit [DecidableEq Θ] in
theorem writeUnlock (h : Batched u ws) (hw : 0 < u.currentWriters) :
    Batched (rwlockWriteUnlock u).lock ws := by
  have hclosed := h.closed (Or.inl hw)
  have hmember : ∀ v n, ws v = some (.read n) → n < u.oldestElement → n ≤ -1 := by
    intro v n hv hlt
    rw [← hclosed]
    exact h.member v n hv hlt
  simp only [rwlockWriteUnlock]
  split_ifs
  · exact ⟨hmember, fun _ => rfl⟩
  · exact ⟨hmember, fun _ => rfl⟩

end Batched

variable [DecidableEq Θ] [Fintype Θ] {s : State Θ} {tr : List (Event Θ)}

/-- Readers stay batched along a run in which none is left behind. -/
theorem Batched.of_reach (hcard : Fintype.card Θ ≤ R)
    (h : Reach ((correctSys (Ring.plain R p) Θ).restrict NoneLeftBehind) tr s) :
    Batched s.lock s.waiters ∧ Orderly (Ring.plain R p) s := by
  have hheld : ∀ {s : State Θ}, Orderly (Ring.plain R p) s → 0 ≤ s.lock.currentReaders :=
    fun horder => (Int.natCast_nonneg _).trans horder.covered.readers
  refine invariant_of_orderly (I := fun _ s => Batched s.lock s.waiters) hcard
    ⟨nofun, fun _ => rfl⟩ ?_ ?_ ?_ ?_ ?_ h
  · intro tr s t hI horder ht hw
    rw [fast_waiters ht]
    exact hI.fast (hheld horder) hw
  · intro tr s t c hI horder ht _ hjoin
    have hwaiter : (s.join (Ring.plain R p) t c).waiters t = some (c.waiter s.lock) := by
      rw [join_waiters, update_self]
    have hj : Batched (c.join (Ring.plain R p) s.lock)
        (update s.waiters t (some (c.waiter s.lock))) := hI.join horder.fifo.le c
    rw [← join_waiters (Ring.plain R p)] at hj
    rw [run_waiters]
    exact hj.turn (hjoin.turn hwaiter) hjoin.fifo hwaiter (hheld hjoin)
  · intro tr s t w s' hI horder ht _
    rw [run_waiters]
    exact hI.turn (horder.turn ht) horder.fifo ht (hheld horder)
  · intro tr s t r s' hI horder ht hpos hlast
    rw [releaseRead_waiters]
    have hcovered := horder.covered.readers
    have hle := reads_le s t
    exact hI.readUnlock (by omega) (hlast rfl)
  · intro tr s t r hI horder ht hpos
    rw [releaseWrite_waiters]
    have hcovered := horder.covered.writers
    have hle := writes_le s t
    exact hI.writeUnlock (by omega)

omit [DecidableEq Θ] in
/-- Where readers are batched and the counters are exact, nobody is stranded. -/
theorem Batched.not_stranded (hbatched : Batched s.lock s.waiters)
    (horder : Orderly (Ring.plain R p) s) (hexact : Exact s) : ¬ Stranded (Ring.plain R p) s := by
  intro hstranded
  -- the counters are all zero
  have hreads : s.reads = 0 := Finset.sum_eq_zero fun t _ => (hstranded.free t).1
  have hwrites : s.writes = 0 := Finset.sum_eq_zero fun t _ => (hstranded.free t).2
  have hquicks : s.quickWaiters = 0 := Finset.sum_eq_zero fun t _ => if_neg (hstranded.noQuick t)
  have hr := hexact.readers
  have hw := hexact.writers
  have hq := horder.quick
  have hblocked : ∀ t w, s.waiters t = some w → Blocked s.lock w := fun t w ht =>
    (horder.turn ht).wait_iff.mp (hstranded.blocked t w ht)
  -- the head would be granted, so the FIFO is empty
  have hempty : s.lock.oldestElement = s.lock.nextElement := by
    by_contra hne
    have hle := horder.fifo.le
    obtain ⟨-, t, w, ht, hticket, -⟩ :=
      horder.fifo.slot s.lock.oldestElement (Int.le_refl _) (by omega)
    have hb := hblocked t w ht
    cases w with
    | quick => cases hticket
    | read n =>
      cases hticket
      rcases hb with hb | ⟨-, hb⟩ <;> omega
    | write n =>
      cases hticket
      rcases hb with hb | hb | hb | hb <;> omega
  -- whoever waits is behind it, so it is a reader of the batch
  obtain ⟨t, w, ht⟩ := hstranded.someone
  have hb := hblocked t w ht
  cases w with
  | quick => exact hstranded.noQuick t ht
  | read n =>
    have hissued := horder.fifo.issued t _ n ht rfl
    have hmember := hbatched.member t n ht (by omega)
    rcases hb with hb | ⟨hb, -⟩ <;> omega
  | write n =>
    have hissued := horder.fifo.issued t _ n ht rfl
    have hahead := horder.fifo.writer t n ht
    omega

/-- What holds along a careful run with at most as many threads as the ring has slots. -/
theorem Batched.of_careful (hcard : Fintype.card Θ ≤ R)
    (h : Reach ((correctSys (Ring.wrapping R p) Θ).restrict (Careful (Ring.wrapping R p))) tr s) :
    Batched s.lock s.waiters ∧ Orderly (Ring.plain R p) s ∧ Exact s ∧ Early s.lock := by
  obtain ⟨hplain, hearly⟩ := reach_plain
    (Q := fun s e s' => NoneLeftBehind s e s' ∧ NoMiss (Ring.plain R p) s e s')
    (fun _ _ _ hP => hP.1) (fun _ _ _ hearly hP => ⟨hP.2.1, noMiss_plain hearly hP.2.2⟩) h
  obtain ⟨hbatched, horder⟩ := Batched.of_reach hcard (hplain.weaken fun _ _ _ hP => hP.1)
  exact ⟨hbatched, horder, (Exact.of_reach (hplain.weaken fun _ _ _ hP => hP.2)).1, hearly⟩

omit [DecidableEq Θ] [Fintype Θ] in
theorem Stranded.plain (h : Stranded (Ring.wrapping R p) s) (hearly : Early s.lock) :
    Stranded (Ring.plain R p) s where
  free := h.free
  noQuick := h.noQuick
  someone := h.someone
  blocked t w ht := by
    rw [← hearly.body_wrapping]
    exact h.blocked t w ht

/-- **Nobody is stranded** in a run with at most as many threads as the ring has slots, in which no
ticket overflows, no batch member is left behind when the last active reader leaves, and none misses
its slot. -/
theorem rwlock_not_stranded (hcard : Fintype.card Θ ≤ R)
    (h : Reach ((correctSys (Ring.wrapping R p) Θ).restrict (Careful (Ring.wrapping R p))) tr s) :
    ¬ Stranded (Ring.wrapping R p) s := by
  obtain ⟨hbatched, horder, hexact, hearly⟩ := Batched.of_careful hcard h
  exact fun hstranded => hbatched.not_stranded horder hexact (hstranded.plain hearly)

/-- A careful run: two readers queue behind a writer, the second enters after the first, and the writer
has come back and waits. -/
theorem exists_reach_waiting_writer : ∃ tr, ∃ s : State (Fin 3),
    Reach ((correctSys (Ring.wrapping 3 (by decide)) (Fin 3)).restrict
      (Careful (Ring.wrapping 3 (by decide)))) tr s ∧
    (s.threads 0).waiter = some (.write 3) ∧ s.reads = 0 := by
  obtain ⟨tr, s, hreach, hs⟩ := exists_reachIn (Careful (Ring.wrapping 3 (by decide)))
    (Ring.wrapping 3 (by decide))
    [(0, .call .write), (1, .call .read), (2, .call .read), (0, .writeUnlock), (1, .wake .read),
      (0, .call .write), (2, .wake .read), (1, .readUnlock), (2, .readUnlock)]
    (f := fun q : _ × State (Fin 3) => ((q.2.threads 0).waiter, q.2.reads))
    (v := (some (.write 3), 0)) (by decide +kernel)
  exact ⟨tr, s, hreach, congrArg Prod.fst hs, congrArg Prod.snd hs⟩

/-- The two readers have left, and the writer waits. -/
theorem rwlock_not_stranded_writer : ∃ s : State (Fin 3),
    (s.threads 0).waiter = some (.write 3) ∧ s.reads = 0 ∧
      ¬ Stranded (Ring.wrapping 3 (by decide)) s := by
  obtain ⟨tr, s, hreach, hwaiter, hreads⟩ := exists_reach_waiting_writer
  exact ⟨s, hwaiter, hreads, rwlock_not_stranded (by decide) hreach⟩

/-- **A stranded reader.**  Two readers queue behind a writer.  The leader of their batch is granted
and leaves before the other has woken up, and the lock stays free while the other waits for ever. -/
theorem rwlock_stranded : ∃ tr, ∃ s : State (Fin 2),
    Reach (correctSys (Ring.wrapping 2 (by decide)) (Fin 2)) tr s ∧
      Stranded (Ring.wrapping 2 (by decide)) s := by
  obtain ⟨tr, s, hreach, hs⟩ := exists_reach (Ring.wrapping 2 (by decide))
    [(1, .call .write), (0, .call .read), (1, .writeUnlock), (1, .call .read), (0, .wake .read),
      (0, .readUnlock), (1, .wake .read)]
    (f := fun s : State (Fin 2) => (s.threads 0, s.threads 1,
      ((Waiter.read 2).body (Ring.wrapping 2 (by decide)) s.lock).exit))
    (v := (⟨.idle, 0, 0⟩, ⟨.waiting (.read 2) false, 0, 0⟩, .wait)) (by decide +kernel)
  obtain ⟨h₀, hrest⟩ := Prod.mk.inj hs
  obtain ⟨h₁, hexit⟩ := Prod.mk.inj hrest
  have hidle : (s.threads 0).waiter = none := by rw [h₀]; rfl
  have hwaits : (s.threads 1).waiter = some (.read 2) := by rw [h₁]; rfl
  refine ⟨tr, s, hreach, ?_, ?_, ⟨1, .read 2, hwaits⟩, ?_⟩
  · exact Fin.forall_fin_two.mpr ⟨⟨congrArg Thread.reads h₀, congrArg Thread.writes h₀⟩,
      congrArg Thread.reads h₁, congrArg Thread.writes h₁⟩
  · refine Fin.forall_fin_two.mpr ⟨?_, ?_⟩
    · rw [hidle]
      exact nofun
    · rw [hwaits]
      decide
  · refine Fin.forall_fin_two.mpr ⟨fun w hw => ?_, fun w hw => ?_⟩
    · rw [hidle] at hw
      cases hw
    · rw [hwaits] at hw
      cases hw
      exact hexit

end SystemProgramming.Rwlock
