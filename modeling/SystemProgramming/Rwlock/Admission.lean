import SystemProgramming.Rwlock.Turns
import SystemProgramming.Rwlock.Wrapping

/-!
# The order of admission

What the events of a run say about the FIFO: `queue` lists the calls that have joined it and have not
been granted, in the order in which they joined.  While the FIFO of the lock is in order, the queue
lists its waiters by their tickets (`Lined`), and only a waiter with no writer before it is granted.

* `rwlock_admission`: in a run in which no ticket overflows, writers are granted in the order of the
  FIFO, no reader overtakes a writer, and no writer is granted while a quick reader waits;
* `rwlock_admission_fails`: a run in which tickets have overflowed, and a reader overtakes a writer.
-/

namespace SystemProgramming.Rwlock

open Function

variable {Θ : Type} [DecidableEq Θ]

/-! ### Reading the order off the events -/

/-- The lock call that the thread is in. -/
def Event.lockCall (e : Event Θ) : Option LockCall :=
  match e.action with
  | .call c => some c
  | .wake c => some c
  | .readUnlock => none
  | .writeUnlock => none

/-- The event grants the lock to a call of the kind `c`. -/
def Event.Grants (e : Event Θ) (c : LockCall) : Prop := e.lockCall = some c ∧ e.result = some 0

instance (e : Event Θ) (c : LockCall) : Decidable (e.Grants c) := inferInstanceAs (Decidable (_ ∧ _))

/-- A call joins at the end. -/
def Event.join (q : List (Θ × LockCall)) (e : Event Θ) : List (Θ × LockCall) :=
  match e.action with
  | .call .read => q ++ [(e.thread, .read)]
  | .call .write => q ++ [(e.thread, .write)]
  | _ => q

/-- A call leaves when it is granted, and a reader also when it fails. -/
def Event.leave (q : List (Θ × LockCall)) (e : Event Θ) : List (Θ × LockCall) :=
  if e.Grants .write ∨ e.lockCall = some .read ∧ e.result ≠ none then
    q.filter fun x => x.1 ≠ e.thread
  else q

/-- The calls that have joined the FIFO and have not been granted, in the order of joining. -/
def queue (tr : List (Event Θ)) : List (Θ × LockCall) :=
  tr.foldl (fun q e => e.leave (e.join q)) []

/-- The writers in the order in which they joined the FIFO. -/
def writeJoins (tr : List (Event Θ)) : List Θ :=
  (tr.filter fun e => e.action = .call .write).map Event.thread

/-- The writers in the order in which they were granted the lock. -/
def writeGrants (tr : List (Event Θ)) : List Θ :=
  (tr.filter fun e => e.Grants .write).map Event.thread

omit [DecidableEq Θ] in
@[simp] theorem writeJoins_append (tr : List (Event Θ)) (e : Event Θ) :
    writeJoins (tr ++ [e]) =
      writeJoins tr ++ if e.action = .call .write then [e.thread] else [] := by
  by_cases h : e.action = .call .write <;> simp [writeJoins, h]

omit [DecidableEq Θ] in
@[simp] theorem writeGrants_append (tr : List (Event Θ)) (e : Event Θ) :
    writeGrants (tr ++ [e]) = writeGrants tr ++ if e.Grants .write then [e.thread] else [] := by
  by_cases h : e.Grants .write <;> simp [writeGrants, h]

@[simp] theorem queue_append (tr : List (Event Θ)) (e : Event Θ) :
    queue (tr ++ [e]) = e.leave (e.join (queue tr)) := by
  simp [queue, List.foldl_append]

/-! ### The queue of the waiters -/

variable {ws : Θ → Option Waiter} {L : List (Θ × Waiter)} {t : Θ} {w : Waiter} {n : ℤ}

/-- `L` lists the waiters that have a ticket, by their tickets. -/
structure Lined (ws : Θ → Option Waiter) (L : List (Θ × Waiter)) : Prop where
  mem_iff : ∀ t w, (t, w) ∈ L ↔ ws t = some w ∧ w.ticket ≠ none
  sorted : L.Pairwise fun x y => ∀ n m, x.2.ticket = some n → y.2.ticket = some m → n < m

/-- The calls that the waiters are in. -/
def calls (L : List (Θ × Waiter)) : List (Θ × LockCall) := L.map fun x => (x.1, x.2.call)

/-- The writers among them. -/
def writers (L : List (Θ × Waiter)) : List Θ := (L.filter fun x => x.2.call = .write).map Prod.fst

namespace Lined

omit [DecidableEq Θ] in
theorem nil : Lined (fun _ : Θ => none) [] where
  mem_iff t w := by simp
  sorted := List.Pairwise.nil

/-- The next ticket is lined up at the end. -/
theorem join (h : Lined ws L) (ht : ws t = none) (hn : w.ticket = some n)
    (hlast : ∀ t' w' k, ws t' = some w' → w'.ticket = some k → k < n) :
    Lined (update ws t (some w)) (L ++ [(t, w)]) where
  mem_iff v w' := by
    rw [List.mem_append, List.mem_singleton, h.mem_iff]
    by_cases hv : v = t
    · subst hv
      rw [update_self, ht]
      constructor
      · rintro (⟨hnone, -⟩ | heq)
        · cases hnone
        · cases heq
          exact ⟨rfl, by rw [hn]; exact Option.some_ne_none n⟩
      · rintro ⟨heq, -⟩
        cases heq
        exact Or.inr rfl
    · rw [update_of_ne hv]
      constructor
      · rintro (hmem | heq)
        · exact hmem
        · exact absurd (congrArg Prod.fst heq) hv
      · exact Or.inl
  sorted := by
    rw [List.pairwise_append]
    refine ⟨h.sorted, List.pairwise_singleton _ _, fun x hx y hy k m hk hm => ?_⟩
    rw [List.mem_singleton] at hy
    subst hy
    rw [hn] at hm
    cases hm
    exact hlast x.1 x.2 k ((h.mem_iff x.1 x.2).mp hx).1 hk

/-- A waiter without a ticket does not show. -/
theorem joinQuick (h : Lined ws L) (ht : ws t = none) : Lined (update ws t (some .quick)) L where
  mem_iff v w' := by
    rw [h.mem_iff]
    by_cases hv : v = t
    · subst hv
      rw [update_self, ht]
      constructor
      · rintro ⟨hnone, -⟩
        cases hnone
      · rintro ⟨heq, hticket⟩
        cases heq
        exact absurd rfl hticket
    · rw [update_of_ne hv]
  sorted := h.sorted

/-- A waiter leaves. -/
theorem leave (h : Lined ws L) : Lined (update ws t none) (L.filter fun x => x.1 ≠ t) where
  mem_iff v w' := by
    rw [List.mem_filter, h.mem_iff]
    by_cases hv : v = t
    · subst hv
      simp
    · rw [update_of_ne hv]
      simp [hv]
  sorted := h.sorted.filter _

theorem leaveQuick (h : Lined ws L) (ht : ws t = some .quick) : Lined (update ws t none) L := by
  have hleave := h.leave (t := t)
  rwa [List.filter_eq_self.mpr] at hleave
  intro x hx
  refine decide_eq_true fun heq => ?_
  obtain ⟨hx₁, hx₂⟩ := (h.mem_iff x.1 x.2).mp hx
  rw [heq, ht] at hx₁
  rw [← Option.some.inj hx₁] at hx₂
  exact hx₂ rfl

/-- **The front**: where all writers have later tickets, no writer is before the waiter, and taking it
out leaves the rest as it is. -/
theorem front (h : Lined ws L) (ht : ws t = some w) (hn : w.ticket = some n)
    (hwriters : ∀ v k, v ≠ t → ws v = some (.write k) → n < k) :
    ∃ xs ys, L = xs ++ (t, w) :: ys ∧ (L.filter fun x => x.1 ≠ t) = xs ++ ys ∧
      ∀ x ∈ xs, x.2.call ≠ .write := by
  have hmem := (h.mem_iff t w).mpr ⟨ht, by rw [hn]; exact Option.some_ne_none n⟩
  obtain ⟨xs, ys, rfl⟩ := List.append_of_mem hmem
  obtain ⟨-, hys, hxs⟩ := List.pairwise_append.mp h.sorted
  have hother : ∀ x ∈ xs ++ ys, x.1 ≠ t := by
    intro x hx heq
    have hx' : x ∈ xs ++ (t, w) :: ys := by
      rcases List.mem_append.mp hx with hx | hx
      · exact List.mem_append_left _ hx
      · exact List.mem_append_right _ (List.mem_cons_of_mem _ hx)
    have hxw := ((h.mem_iff x.1 x.2).mp hx').1
    rw [heq, ht] at hxw
    have hxn : x.2.ticket = some n := by rw [← Option.some.inj hxw, hn]
    rcases List.mem_append.mp hx with hx | hx
    · exact Int.lt_irrefl n (hxs x hx (t, w) (List.mem_cons_self ..) n n hxn hn)
    · exact Int.lt_irrefl n ((List.pairwise_cons.mp hys).1 x hx n n hn hxn)
  refine ⟨xs, ys, rfl, ?_, fun x hx hcall => ?_⟩
  · rw [List.filter_append, List.filter_cons_of_neg (by simp), List.filter_eq_self.mpr,
      List.filter_eq_self.mpr]
    · exact fun x hx => decide_eq_true (hother x (List.mem_append_right _ hx))
    · exact fun x hx => decide_eq_true (hother x (List.mem_append_left _ hx))
  · have hxw := ((h.mem_iff x.1 x.2).mp (List.mem_append_left _ hx)).1
    obtain ⟨v, w'⟩ := x
    cases w' with
    | quick => cases hcall
    | read k => cases hcall
    | write k =>
      have hlt := hxs _ hx (t, w) (List.mem_cons_self ..) k n rfl hn
      have hgt := hwriters v k (hother _ (List.mem_append_left _ hx)) hxw
      omega

end Lined

/-! ### The queue along a run -/

/-- The calls `q`, the joins `js` and the grants `gs` fit the waiters. -/
def Fits (ws : Θ → Option Waiter) (q : List (Θ × LockCall)) (js gs : List Θ) : Prop :=
  ∃ L, Lined ws L ∧ q = calls L ∧ js = gs ++ writers L

variable {q : List (Θ × LockCall)} {js gs : List Θ} {u : Lock} {ring : Ring} {sec : Section}
  {e : Event Θ}

theorem Turn.exit_cases (h : Turn ring u w sec) :
    sec.exit = .wait ∨ sec.exit = .ret 0 ∨ sec.exit = .ret (-1) ∧ w.call = .read := by
  cases h with
  | blocked h => exact Or.inl rfl
  | quick hw => exact Or.inr (Or.inl rfl)
  | member hw hb hn => exact Or.inr (Or.inl rfl)
  | missed hw hb hn => exact Or.inr (Or.inr ⟨rfl, rfl⟩)
  | leader hw hb hn hm hend hreaders hstop => exact Or.inr (Or.inl rfl)
  | writer hr hw hq hn hend => exact Or.inr (Or.inl rfl)

omit [DecidableEq Θ] in
theorem Turn.exit_of_zero (h : Turn ring u w sec) (hresult : sec.exit.result = some 0) :
    sec.exit = .ret 0 := by
  rcases h.exit_cases with hx | hx | ⟨hx, -⟩
  · rw [hx] at hresult
    cases hresult
  · exact hx
  · rw [hx] at hresult
    cases hresult

omit [DecidableEq Θ] in
/-- **Who is granted** has an earlier ticket than every other writer that waits. -/
theorem Turn.earlier (h : Turn ring u w sec) (hfifo : Fifo ring u ws) (ht : ws t = some w)
    (hx : sec.exit = .ret 0) (hn : w.ticket = some n) :
    ∀ v k, v ≠ t → ws v = some (.write k) → n < k := by
  intro v k hvt hv
  have hle := hfifo.writer v k hv
  have hbatch := hfifo.batch
  have hne : k ≠ n := by
    rintro rfl
    exact hvt (hfifo.unique v t _ _ _ hv ht rfl hn)
  cases h with
  | blocked h => cases hx
  | quick hw => cases hn
  | member hw hb hm =>
    cases hn
    omega
  | missed hw hb hm => cases hx
  | leader hw hb hold hm hend hreaders hstop =>
    cases hn
    omega
  | writer hr hw hq hold hend =>
    cases hn
    omega

namespace Fits

theorem join (h : Fits ws q js gs) (hfifo : Fifo ring u ws) (ht : ws t = none) (c : LockCall)
    (r : Option ℤ) :
    Fits (update ws t (some (c.waiter u))) (Event.join q ⟨t, .call c, r⟩)
      (js ++ if c = .write then [t] else []) gs := by
  obtain ⟨L, hlined, rfl, rfl⟩ := h
  have hlast : ∀ t' w' k, ws t' = some w' → w'.ticket = some k → k < u.nextElement :=
    fun t' w' k ht' hk => (hfifo.issued t' w' k ht' hk).2
  cases c with
  | quick =>
    refine ⟨L, hlined.joinQuick ht, rfl, ?_⟩
    rw [if_neg (by decide), List.append_nil]
  | read =>
    refine ⟨L ++ [(t, .read u.nextElement)], hlined.join ht rfl hlast, ?_, ?_⟩
    · simp [Event.join, calls, Waiter.call]
    · simp [writers, Waiter.call]
  | write =>
    refine ⟨L ++ [(t, .write u.nextElement)], hlined.join ht rfl hlast, ?_, ?_⟩
    · simp [Event.join, calls, Waiter.call]
    · simp [writers, Waiter.call]

/-- A waiter in the FIFO that is granted has only readers before it. -/
theorem front (h : Fits ws q js gs) (hfifo : Fifo ring u ws) (ht : ws t = some w)
    (hturn : Turn ring u w sec) (hx : sec.exit = .ret 0) (hn : w.ticket = some n) :
    ∃ xs ys, q = xs ++ (t, w.call) :: ys ∧ ∀ x ∈ xs, x.2 ≠ .write := by
  obtain ⟨L, hlined, rfl, rfl⟩ := h
  obtain ⟨xs, ys, rfl, -, hxs⟩ := hlined.front ht hn (hturn.earlier hfifo ht hx hn)
  refine ⟨calls xs, calls ys, by simp [calls], fun x hx => ?_⟩
  obtain ⟨y, hy, rfl⟩ := List.mem_map.mp hx
  exact hxs y hy

theorem leaveQuick (h : Fits ws q js gs) (ht : ws t = some .quick) :
    Fits (update ws t none) q js gs := by
  obtain ⟨L, hlined, hq, hjs⟩ := h
  exact ⟨L, hlined.leaveQuick ht, hq, hjs⟩

theorem leaveRead (h : Fits ws q js gs) (ht : ws t = some (.read n)) :
    Fits (update ws t none) (q.filter fun x => x.1 ≠ t) js gs := by
  obtain ⟨L, hlined, rfl, rfl⟩ := h
  refine ⟨L.filter fun x => x.1 ≠ t, hlined.leave, ?_, ?_⟩
  · rw [calls, calls, List.filter_map]
    rfl
  · -- what leaves is not a writer
    rw [writers, writers, List.filter_filter]
    congr 2
    refine List.filter_congr fun x hx => ?_
    by_cases hxt : x.1 = t
    · have hxw := ((hlined.mem_iff x.1 x.2).mp hx).1
      rw [hxt, ht] at hxw
      simp [← Option.some.inj hxw, Waiter.call]
    · simp [hxt]

theorem leaveWrite (h : Fits ws q js gs) (ht : ws t = some (.write n))
    (hwriters : ∀ v k, v ≠ t → ws v = some (.write k) → n < k) :
    Fits (update ws t none) (q.filter fun x => x.1 ≠ t) js (gs ++ [t]) := by
  obtain ⟨L, hlined, rfl, rfl⟩ := h
  obtain ⟨xs, ys, rfl, hrest, hxs⟩ := hlined.front ht rfl hwriters
  refine ⟨_, hlined.leave, ?_, ?_⟩
  · rw [calls, calls, List.filter_map]
    rfl
  · have hnone : xs.filter (fun x => x.2.call = .write) = [] :=
      List.filter_eq_nil_iff.mpr fun x hx => by simpa using hxs x hx
    rw [hrest, writers, writers, List.filter_append, List.filter_append, hnone]
    simp [Waiter.call]

theorem run (h : Fits ws q js gs) (hfifo : Fifo ring u ws) (ht : ws t = some w)
    (hturn : Turn ring u w sec) (he : e.thread = t) (hcall : e.lockCall = some w.call)
    (hresult : e.result = sec.exit.result) :
    Fits (update ws t (if sec.exit = .wait then some w else none)) (e.leave q) js
      (gs ++ if e.Grants .write then [e.thread] else []) := by
  simp only [Event.leave, Event.Grants, hcall, hresult, he]
  rcases hturn.exit_cases with hx | hx | ⟨hx, hread⟩
  · rw [hx, if_pos rfl, ← ht, update_eq_self]
    simpa [Exit.result] using h
  · rw [hx, if_neg (by decide)]
    cases w with
    | quick => simpa [Exit.result, Waiter.call] using h.leaveQuick ht
    | read k => simpa [Exit.result, Waiter.call] using h.leaveRead ht
    | write k =>
      simpa [Exit.result, Waiter.call] using h.leaveWrite ht (hturn.earlier hfifo ht hx rfl)
  · rw [hx, if_neg (by decide)]
    cases w with
    | quick => cases hread
    | read k => simpa [Exit.result, Waiter.call] using h.leaveRead ht
    | write k => cases hread

end Fits

variable [Fintype Θ] {R : ℕ} {p : 0 < R} {s : State Θ} {tr : List (Event Θ)}

/-- The queue of the events fits the waiters of the state. -/
def Queued (tr : List (Event Θ)) (s : State Θ) : Prop :=
  Fits s.waiters (queue tr) (writeJoins tr) (writeGrants tr)

omit [Fintype Θ] in
/-- A step that nobody joins or leaves in. -/
theorem Queued.idle {s' : State Θ} (h : Queued tr s) (hws : s'.waiters = s.waiters)
    (hjoin : e.join (queue tr) = queue tr) (hleave : e.leave (queue tr) = queue tr)
    (hcall : e.action ≠ .call .write) (hgrants : ¬ e.Grants .write) : Queued (tr ++ [e]) s' := by
  rw [Queued, queue_append, writeJoins_append, writeGrants_append, hjoin, hleave, hws, if_neg hcall,
    if_neg hgrants, List.append_nil, List.append_nil]
  exact h

theorem Queued.of_reach (hcard : Fintype.card Θ ≤ R)
    (h : Reach (correctSys (Ring.plain R p) Θ) tr s) :
    Queued tr s ∧ Orderly (Ring.plain R p) s := by
  have h' := h.restrict (P := fun _ _ _ => True) fun _ _ _ _ => trivial
  refine invariant_of_orderly hcard ⟨[], Lined.nil, rfl, rfl⟩ ?_ ?_ ?_ ?_ ?_ h'
  · intro tr s t hI _ ht _
    exact hI.idle (fast_waiters ht) rfl rfl (by simp) (by simp [Event.Grants, Event.lockCall])
  · intro tr s t c hI horder ht _ hjoin
    have hj := hI.join horder.fifo ht c
      ((c.waiter s.lock).body (Ring.plain R p) (c.join (Ring.plain R p) s.lock)).exit.result
    rw [← join_waiters (Ring.plain R p)] at hj
    have hwaiter : (s.join (Ring.plain R p) t c).waiters t = some (c.waiter s.lock) := by
      rw [join_waiters, update_self]
    have hrun := hj.run (e := runEvent (Ring.plain R p) (c.join (Ring.plain R p) s.lock) t (.call c)
      (c.waiter s.lock)) hjoin.fifo hwaiter (hjoin.turn hwaiter) rfl (by cases c <;> rfl) rfl
    rw [Queued, queue_append, writeJoins_append, writeGrants_append, run_waiters]
    simpa [runEvent] using hrun
  · intro tr s t w s' hI horder ht _
    have hrun := hI.run (e := runEvent (Ring.plain R p) s.lock t (.wake w.call) w) horder.fifo ht
      (horder.turn ht) rfl rfl rfl
    rw [Queued, queue_append, writeJoins_append, writeGrants_append, run_waiters]
    simpa [runEvent, Event.join] using hrun
  · intro tr s t r s' hI _ ht _ _
    exact hI.idle (releaseRead_waiters s t) rfl rfl (by simp) (by simp [Event.Grants, Event.lockCall])
  · intro tr s t r hI _ ht _
    exact hI.idle (releaseWrite_waiters s t) rfl rfl (by simp) (by simp [Event.Grants, Event.lockCall])

/-! ### Admission -/

omit [DecidableEq Θ] in
/-- A writer passes no quick reader. -/
theorem Orderly.no_quick (h : Orderly ring s) (hq : s.lock.qrWaiters ≤ 0) (v : Θ) :
    (s.threads v).waiter ≠ some .quick := by
  intro hv
  have hle : (s.threads v).quick ≤ s.quickWaiters :=
    Finset.single_le_sum (f := fun v => (s.threads v).quick) (fun _ _ => Nat.zero_le _)
      (Finset.mem_univ v)
  have hone : (s.threads v).quick = 1 := by rw [Thread.quick, if_pos hv]
  have hcount := h.quick
  omega

/-- What a waiter that is granted the lock finds. -/
theorem Orderly.granted (h : Orderly (Ring.plain R p) s) (hfits : Fits s.waiters q js gs)
    (ht : (s.threads t).waiter = some w)
    (hresult : (w.body (Ring.plain R p) s.lock).exit.result = some 0) :
    (w.call ≠ .quick → ∃ xs ys, q = xs ++ (t, w.call) :: ys ∧ ∀ x ∈ xs, x.2 ≠ .write) ∧
      (w.call = .write → ∀ v, (s.threads v).waiter ≠ some .quick) := by
  have hturn := h.turn ht
  have hx := hturn.exit_of_zero hresult
  refine ⟨fun hcall => ?_, fun hcall => ?_⟩
  · cases w with
    | quick => exact absurd rfl hcall
    | read n => exact hfits.front h.fifo ht hturn hx rfl
    | write n => exact hfits.front h.fifo ht hturn hx rfl
  · generalize w.body (Ring.plain R p) s.lock = sec at hturn hx
    cases hturn with
    | blocked _ => cases hx
    | quick _ => cases hcall
    | member _ _ _ => cases hcall
    | missed _ _ _ => cases hcall
    | leader _ _ _ _ _ _ _ => cases hcall
    | writer _ _ hq _ _ => exact h.no_quick hq

/-- What a call of the kind `c` that is granted in the event `e` passes: no writer, if it has joined the
FIFO, and no quick reader that waits, if it is a writer. -/
def Admitted (tr : List (Event Θ)) (s : State Θ) (e : Event Θ) (c : LockCall) : Prop :=
  (c ≠ .quick →
    ∃ xs ys, e.join (queue tr) = xs ++ (e.thread, c) :: ys ∧ ∀ x ∈ xs, x.2 ≠ .write) ∧
  (c = .write → ∀ v, (s.threads v).waiter ≠ some .quick)

/-- On a plain ring, whoever is granted passes nobody. -/
theorem Queued.admitted (hcard : Fintype.card Θ ≤ R) (hqueued : Queued tr s)
    (horder : Orderly (Ring.plain R p) s) {s' : State Θ} {c : LockCall}
    (hstep : (correctSys (Ring.plain R p) Θ).step s e s') (hgrants : e.Grants c) :
    Admitted tr s e c := by
  obtain ⟨hcall, hresult⟩ := hgrants
  obtain ⟨hstep, -⟩ := hstep
  cases hstep with
  | call hfree hpc =>
    rename_i t c'
    cases hcall
    have hidle : (s.threads t).waiter = none := by simp [Thread.waiter, hpc]
    by_cases hquick : QuickFast s c
    · rw [hquick.1]
      exact ⟨fun hne => absurd rfl hne, by simp⟩
    · rw [enter_eq_body hquick] at hresult ⊢
      have hjoin := horder.join hcard hidle c
      have hfits := hqueued.join horder.fifo hidle c
        ((c.waiter s.lock).body (Ring.plain R p) (c.join (Ring.plain R p) s.lock)).exit.result
      rw [← join_waiters (Ring.plain R p)] at hfits
      have hwaiter : ((s.join (Ring.plain R p) t c).threads t).waiter = some (c.waiter s.lock) := by
        simp [State.join, Thread.joined, Thread.waiter]
      have hcall' : (c.waiter s.lock).call = c := by cases c <;> rfl
      have hgranted := hjoin.granted hfits hwaiter hresult
      rw [hcall'] at hgranted
      refine ⟨hgranted.1, fun hc v => ?_⟩
      have hv := hgranted.2 hc v
      by_cases hvt : v = t
      · rw [hvt, hidle]
        simp
      · have hsame : ((s.join (Ring.plain R p) t c).threads v) = s.threads v := update_of_ne hvt _ _
        rwa [hsame] at hv
  | wake hfree hpc =>
    cases hcall
    exact horder.granted hqueued (by simp [Thread.waiter, hpc]) hresult
  | readUnlock hfree hpc => cases hcall
  | writeUnlock hfree hpc => cases hcall

/-- **Admission.**  With at most as many threads as the ring has slots and as long as no ticket
overflows, writers are granted the lock in the order in which they joined the FIFO; whoever in the FIFO
is granted has no writer before it, so no reader overtakes a writer; and no writer is granted while a
quick reader waits. -/
theorem rwlock_admission (hcard : Fintype.card Θ ≤ R)
    (h : Reach ((correctSys (Ring.wrapping R p) Θ).restrict NoOverflow) tr s) :
    List.IsPrefix (writeGrants tr) (writeJoins tr) ∧
    ∀ e s', (correctSys (Ring.wrapping R p) Θ).step s e s' → NoOverflow s e s' → ∀ c, e.Grants c →
      Admitted tr s e c := by
  obtain ⟨hplain, hearly⟩ := reach_plain_of_noOverflow h
  obtain ⟨hqueued, horder⟩ := Queued.of_reach hcard hplain
  refine ⟨?_, fun e s' hstep hno c hgrants =>
    hqueued.admitted hcard horder ⟨hstep.1.plain hearly hno, hstep.2⟩ hgrants⟩
  obtain ⟨L, -, -, hjoins⟩ := hqueued
  exact ⟨writers L, hjoins.symm⟩

/-- A writer and a reader wait behind a writer that has left; the writer is granted first. -/
theorem rwlock_admission_writer : ∃ tr, ∃ s : State (Fin 3),
    writeGrants tr = [0, 1] ∧ queue tr = [(2, .read)] ∧
    List.IsPrefix (writeGrants tr) (writeJoins tr) ∧
    ∀ e s', (correctSys (Ring.wrapping 3 (by decide)) (Fin 3)).step s e s' → NoOverflow s e s' →
      ∀ c, e.Grants c → Admitted tr s e c := by
  obtain ⟨tr, s, hreach, hs⟩ := exists_reachIn NoOverflow (Ring.wrapping 3 (by decide))
    [(0, .call .write), (1, .call .write), (2, .call .read), (0, .writeUnlock), (1, .wake .write),
      (2, .wake .read)]
    (f := fun q : _ × State (Fin 3) => (writeGrants q.1, queue q.1)) (v := ([0, 1], [(2, .read)]))
    (by decide +kernel)
  exact ⟨tr, s, congrArg Prod.fst hs, congrArg Prod.snd hs, rwlock_admission (by decide) hreach⟩

omit [Fintype Θ] in
/-- A writer that finds the lock free is in the queue only while it is in the call. -/
theorem queue_cycles (t : Θ) (m : ℕ) : queue (cycles t m) = [] := by
  induction m with
  | zero => rfl
  | succ m ih =>
    rw [cycles, cycle, ← List.singleton_append, ← List.append_assoc, queue_append, queue_append, ih]
    simp [Event.join, Event.leave, Event.Grants, Event.lockCall]

omit [Fintype Θ] in
theorem queue_cycles_append (t : Θ) (m : ℕ) (tr : List (Event Θ)) :
    queue (cycles t m ++ tr) = queue tr := by
  rw [queue, List.foldl_append, ← queue, queue_cycles]
  rfl

/-- **Overtaken.**  A quick reader holds the lock when a writer draws the largest `int` and waits.  The
next ticket is the smallest one, below every batch bound: the reader that draws it is granted at once,
before the writer. -/
theorem rwlock_admission_fails : ∃ tr, ∃ s : State (Fin 2),
    Reach (correctSys (Ring.wrapping 2 (by decide)) (Fin 2)) tr s ∧ queue tr = [(1, .write)] ∧
    ∃ e s', (correctSys (Ring.wrapping 2 (by decide)) (Fin 2)).step s e s' ∧ e.Grants .read ∧
      ¬ Admitted tr s e .read := by
  obtain ⟨tr, s, hreach, hs⟩ := exists_reach_quiet (m := 2 ^ 31 - 1) (n := 2 ^ 31 - 1)
    (show 0 < 2 by decide) (0 : Fin 2) (by decide +kernel) [(0, .call .quick), (1, .call .write)]
    (f := fun q : List (Event (Fin 2)) × State (Fin 2) => (queue q.1,
      (q.2.next (Ring.wrapping 2 (by decide)) 0 (.call .read)).map fun r =>
        (r.1.thread, r.1.action, r.1.result)))
    (v := ([(1, .write)], some (0, .call .read, some 0))) (by decide +kernel)
  obtain ⟨hqueue, hnext⟩ := Prod.mk.inj hs
  obtain ⟨⟨⟨t, a, r⟩, s'⟩, hstep, hevent⟩ := Option.map_eq_some_iff.mp hnext
  obtain ⟨rfl, hevent⟩ := Prod.mk.inj hevent
  obtain ⟨rfl, rfl⟩ := Prod.mk.inj hevent
  have hqueue' := (queue_cycles_append 0 (2 ^ 31 - 1) tr).trans hqueue
  refine ⟨_, s, hreach, hqueue', _, s', step_of_next hstep, ⟨rfl, rfl⟩, fun hadmitted => ?_⟩
  -- the writer is first in the queue, and the reader behind it
  obtain ⟨xs, ys, hsplit, hxs⟩ := hadmitted.1 (by decide)
  have hjoin : [((1 : Fin 2), LockCall.write), (0, .read)] = xs ++ (0, .read) :: ys := by
    rw [← hsplit, hqueue']
    rfl
  cases xs with
  | nil => cases hjoin
  | cons x xs =>
    have hx : (1, .write) = x := (List.cons.inj hjoin).1
    exact hxs x (List.mem_cons_self ..) (congrArg Prod.snd hx.symm)

end SystemProgramming.Rwlock
