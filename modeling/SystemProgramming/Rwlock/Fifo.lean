import SystemProgramming.Rwlock.Exclusion
import SystemProgramming.Rwlock.Tickets
import Mathlib.Data.Fintype.Card
import Mathlib.Data.Fin.Tuple.Basic

/-!
# The FIFO of a lock that is not overcrowded

While no more threads use a lock than its ring has slots, the tickets from `oldest_element` up to
`next_element` are exactly in their slots, each held by a waiting thread of the kind that the slot
says (`Fifo`).  A thread draws one ticket at a time, so there is always a free slot for the next one.

* `Fifo.size_lt`: there is room for the next ticket.
* `Fifo.joinFifo`, `Fifo.serve`: a ticket comes in, and the head leaves.
-/

namespace SystemProgramming.Rwlock

open Function

/-- The ticket of a waiter in the FIFO. -/
def Waiter.ticket : Waiter → Option ℤ
  | .quick => none
  | .read myTurn => some myTurn
  | .write myTurn => some myTurn

/-- The request type in the slot of its ticket. -/
def Waiter.reqType : Waiter → ReqType
  | .quick => .none
  | .read _ => .read
  | .write _ => .write

/-- What a waiter with the next ticket changes in the ring when it joins. -/
theorem joinFifo_reqType {R : ℕ} {p : 0 < R} {u : Lock} {w : Waiter} {n : ℤ}
    (hn : w.ticket = some n) :
    (Rwlock.joinFifo (Ring.plain R p) u n w.reqType).2.nextElement = u.nextElement + 1 ∧
    (Rwlock.joinFifo (Ring.plain R p) u n w.reqType).2.oldestElement = u.oldestElement ∧
    (Rwlock.joinFifo (Ring.plain R p) u n w.reqType).2.readBatchEnd = u.readBatchEnd ∧
    (Rwlock.joinFifo (Ring.plain R p) u n w.reqType).2.slotTable =
      update u.slotTable (slotIndex (Ring.plain R p) n) n ∧
    (Rwlock.joinFifo (Ring.plain R p) u n w.reqType).2.requestType =
      update u.requestType (slotIndex (Ring.plain R p) n) w.reqType := by
  cases w with
  | quick => cases hn
  | read k => exact ⟨rfl, rfl, rfl, rfl, rfl⟩
  | write k => exact ⟨rfl, rfl, rfl, rfl, rfl⟩

variable {Θ : Type} {R : ℕ} {p : 0 < R} {u : Lock} {ws : Θ → Option Waiter} {t t' : Θ}
  {w : Waiter} {n k : ℤ}

/-- The waiters `ws` and the ring agree: the tickets from `oldest_element` on are in their slots and
have owners, every ticket of a waiter has been issued, no two waiters have the same one, and the
writers' tickets are still ahead. -/
structure Fifo (ring : Ring) (u : Lock) (ws : Θ → Option Waiter) : Prop where
  nonneg : 0 ≤ u.oldestElement
  le : u.oldestElement ≤ u.nextElement
  batch : u.readBatchEnd < u.oldestElement
  fresh : ∀ i, u.slotTable i < u.nextElement
  slot : ∀ k, u.oldestElement ≤ k → k < u.nextElement → u.slotTable (slotIndex ring k) = k ∧
    ∃ t w, ws t = some w ∧ w.ticket = some k ∧ u.requestType (slotIndex ring k) = w.reqType
  issued : ∀ t w k, ws t = some w → w.ticket = some k → 0 ≤ k ∧ k < u.nextElement
  writer : ∀ t k, ws t = some (.write k) → u.oldestElement ≤ k
  unique : ∀ t t' w w' k, ws t = some w → ws t' = some w' → w.ticket = some k →
    w'.ticket = some k → t = t'

namespace Fifo

theorem init {ring : Ring} : Fifo ring Lock.init (fun _ : Θ => none) where
  nonneg := Int.le_refl 0
  le := Int.le_refl 0
  batch := by decide
  fresh _ := show (-1 : ℤ) < 0 by decide
  slot k h₁ h₂ := absurd (Int.lt_of_le_of_lt h₁ h₂) (Int.lt_irrefl 0)
  issued t w k h _ := by cases h
  writer t k h := by cases h
  unique t t' w w' k h _ _ _ := by cases h

theorem tickets {ring : Ring} (h : Fifo ring u ws) : Tickets u where
  nonneg := h.nonneg.trans h.le
  oldest := h.le
  batch := Int.lt_of_lt_of_le h.batch h.le
  fresh := h.fresh

/-- The head needs no repair. -/
theorem head (h : Fifo (Ring.plain R p) u ws) :
    findValidHead (Ring.plain R p) u u.oldestElement = u.oldestElement :=
  findValidHead_stay h.le fun hlt =>
    slotMatches_none.mpr (h.slot u.oldestElement (Int.le_refl _) hlt).1

/-- The slot of a ticket ahead names the kind of the waiter that holds it. -/
theorem slot_owner {ring : Ring} (h : Fifo ring u ws) (ht : ws t = some w) (hn : w.ticket = some n)
    (hle : u.oldestElement ≤ n) :
    u.slotTable (slotIndex ring n) = n ∧ u.requestType (slotIndex ring n) = w.reqType := by
  obtain ⟨hslot, t', w', ht', hn', htype⟩ := h.slot n hle (h.issued t w n ht hn).2
  obtain rfl := h.unique t t' w w' n ht ht' hn hn'
  rw [ht] at ht'
  cases ht'
  exact ⟨hslot, htype⟩

/-- **There is room**: a thread that does not wait finds a free slot for its ticket. -/
theorem size_lt [Fintype Θ] {ring : Ring} (h : Fifo ring u ws) (hcard : Fintype.card Θ ≤ R)
    (ht : ws t = none) : u.nextElement < u.oldestElement + R := by
  have hown : ∀ i : Fin (u.nextElement - u.oldestElement).toNat, ∃ t w, ws t = some w ∧
      w.ticket = some (u.oldestElement + (i : ℕ)) := by
    intro i
    have hi := i.isLt
    obtain ⟨-, t, w, ht, hw, -⟩ := h.slot (u.oldestElement + (i : ℕ)) (by omega) (by omega)
    exact ⟨t, w, ht, hw⟩
  choose owner waiter howner hticket using hown
  have hinj : Injective owner := by
    intro i j hij
    have hi := howner i
    rw [hij, howner j] at hi
    have hti := hticket i
    rw [← Option.some.inj hi, hticket j] at hti
    have heq := Option.some.inj hti
    exact Fin.ext (by omega)
  have hnot : t ∉ Set.range owner := by
    rintro ⟨i, hi⟩
    rw [← hi, howner i] at ht
    cases ht
  have hle := Fintype.card_le_of_injective (Fin.cons t owner : Fin _ → Θ)
    (Fin.cons_injective_iff.mpr ⟨hnot, hinj⟩)
  rw [Fintype.card_fin] at hle
  omega

/-! ### What the sections do to it -/

theorem recount {ring : Ring} (h : Fifo ring u ws) (a b c : ℤ) :
    Fifo ring { u with currentReaders := a, currentWriters := b, qrWaiters := c } ws :=
  ⟨h.nonneg, h.le, h.batch, h.fresh, h.slot, h.issued, h.writer, h.unique⟩

/-- The batch bound is taken back. -/
theorem unbatch {ring : Ring} (h : Fifo ring u ws) : Fifo ring { u with readBatchEnd := -1 } ws :=
  { h with batch := show (-1 : ℤ) < u.oldestElement by have := h.nonneg; omega }

/-- Emptying the slot of a ticket leaves the slots of the tickets ahead alone. -/
theorem consumed_slot {ring : Ring} (h : Fifo ring u ws) (hn : u.slotTable (slotIndex ring n) = n)
    (h₁ : u.oldestElement ≤ k) (h₂ : k < u.nextElement) (hkn : k ≠ n) :
    slotIndex ring k ≠ slotIndex ring n := by
  intro heq
  have hk := (h.slot k h₁ h₂).1
  rw [heq, hn] at hk
  exact hkn hk.symm

/-- A member of the batch takes its ticket out of the ring. -/
theorem consumed {ring : Ring} (h : Fifo ring u ws) (hn : u.slotTable (slotIndex ring n) = n)
    (hold : n < u.oldestElement) : Fifo ring (u.consumed ring n) ws := by
  refine { h with fresh := h.tickets.consumed.fresh, slot := fun k h₁ h₂ => ?_ }
  obtain ⟨hslot, v, w', hv, hk, htype⟩ := h.slot k h₁ h₂
  have hne := h.consumed_slot hn h₁ h₂ (show k ≠ n by have : u.oldestElement ≤ k := h₁; omega)
  refine ⟨?_, v, w', hv, hk, ?_⟩
  · show update u.slotTable _ (-1) _ = k
    rw [update_of_ne hne, hslot]
  · show update u.requestType _ .none _ = _
    rw [update_of_ne hne, htype]

variable [DecidableEq Θ]

/-- A waiter without a ticket ahead leaves. -/
theorem leave {ring : Ring} (h : Fifo ring u ws) (ht : ws t = some w)
    (hold : ∀ n, w.ticket = some n → n < u.oldestElement) : Fifo ring u (update ws t none) := by
  have hsub : ∀ v w', update ws t none v = some w' → ws v = some w' := by
    intro v w' hv
    rcases update_cases hv with ⟨-, hnone⟩ | ⟨-, hv⟩
    · cases hnone
    · exact hv
  refine { h with slot := fun k h₁ h₂ => ?_, issued := fun v w' k hv => ?_, writer := fun v k hv => ?_
                  unique := fun v v' w' w'' k hv hv' => ?_ }
  · obtain ⟨hslot, v, w', hv, hk, htype⟩ := h.slot k h₁ h₂
    refine ⟨hslot, v, w', update_stays hv fun hw => ?_, hk, htype⟩
    rw [ht] at hw
    cases hw
    have := hold k hk
    omega
  · exact h.issued v w' k (hsub v w' hv)
  · exact h.writer v k (hsub v _ hv)
  · exact h.unique v v' w' w'' k (hsub v w' hv) (hsub v' w'' hv')

/-- **The head is served**: its ticket leaves the ring, and `oldest_element` moves on to `m`, past
tickets of readers only. -/
theorem serve {ring : Ring} (h : Fifo ring u ws) (ht : ws t = some w)
    (hn : w.ticket = some u.oldestElement) {m b : ℤ} (hm : u.oldestElement < m)
    (hend : m ≤ u.nextElement) (hb : b < m)
    (hwriters : ∀ v k, v ≠ t → ws v = some (.write k) → m ≤ k) :
    Fifo ring { u.consumed ring u.oldestElement with oldestElement := m, readBatchEnd := b }
      (update ws t none) := by
  have h₀ := h.nonneg
  have hlt : u.oldestElement < u.nextElement := by omega
  have hslot₀ := (h.slot_owner ht hn (Int.le_refl _)).1
  have hsub : ∀ v w', update ws t none v = some w' → v ≠ t ∧ ws v = some w' := by
    intro v w' hv
    rcases update_cases hv with ⟨-, hnone⟩ | hv
    · cases hnone
    · exact hv
  refine
    { nonneg := by show 0 ≤ m; omega
      le := hend
      batch := hb
      fresh := h.tickets.consumed.fresh
      slot := fun k h₁ h₂ => ?_
      issued := fun v w' k hv => h.issued v w' k (hsub v w' hv).2
      writer := fun v k hv => hwriters v k (hsub v _ hv).1 (hsub v _ hv).2
      unique := fun v v' w' w'' k hv hv' =>
        h.unique v v' w' w'' k (hsub v w' hv).2 (hsub v' w'' hv').2 }
  have hk₁ : m ≤ k := h₁
  have hk₂ : k < u.nextElement := h₂
  obtain ⟨hslot, v, w', hv, hk, htype⟩ := h.slot k (by omega) hk₂
  have hne := h.consumed_slot hslot₀ (show u.oldestElement ≤ k by omega) hk₂ (by omega)
  refine ⟨?_, v, w', update_stays hv fun hw => ?_, hk, ?_⟩
  · show update u.slotTable _ (-1) _ = k
    rw [update_of_ne hne, hslot]
  · rw [ht] at hw
    cases hw
    rw [hn] at hk
    have := Option.some.inj hk
    omega
  · show update u.requestType _ .none _ = _
    rw [update_of_ne hne, htype]

/-- A quick reader begins to wait. -/
theorem joinQuick {ring : Ring} (h : Fifo ring u ws) (ht : ws t = none) :
    Fifo ring u (update ws t (some .quick)) := by
  have hsub : ∀ v w' k, update ws t (some .quick) v = some w' → w'.ticket = some k →
      ws v = some w' := by
    intro v w' k hv hk
    rcases update_cases hv with ⟨-, hnew⟩ | ⟨-, hv⟩
    · cases hnew
      cases hk
    · exact hv
  refine { h with slot := fun k h₁ h₂ => ?_
                  issued := fun v w' k hv hk => h.issued v w' k (hsub v w' k hv hk) hk
                  writer := fun v k hv => h.writer v k (hsub v _ k hv rfl)
                  unique := fun v v' w' w'' k hv hv' hk hk' =>
                    h.unique v v' w' w'' k (hsub v w' k hv hk) (hsub v' w'' k hv' hk') hk hk' }
  obtain ⟨hslot, v, w', hv, hk, htype⟩ := h.slot k h₁ h₂
  refine ⟨hslot, v, w', update_stays hv ?_, hk, htype⟩
  rw [ht]
  exact (Option.some_ne_none w').symm

/-- **Joining the FIFO**: the next ticket is put into a free slot. -/
theorem joinFifo (h : Fifo (Ring.plain R p) u ws) (ht : ws t = none)
    (hroom : u.nextElement < u.oldestElement + R) (hn : w.ticket = some u.nextElement) :
    Fifo (Ring.plain R p) (Rwlock.joinFifo (Ring.plain R p) u u.nextElement w.reqType).2
      (update ws t (some w)) := by
  have h₀ := h.nonneg
  have hle := h.le
  obtain ⟨hnext, hold, hbatch, hslots, htypes⟩ := joinFifo_reqType (p := p) hn
  have hcases : ∀ {v w' k}, update ws t (some w) v = some w' → w'.ticket = some k →
      v = t ∧ k = u.nextElement ∨ ws v = some w' ∧ 0 ≤ k ∧ k < u.nextElement := by
    intro v w' k hv hk
    rcases update_cases hv with ⟨hvt, hnew⟩ | ⟨-, hv⟩
    · cases hnew
      rw [hn] at hk
      exact Or.inl ⟨hvt, (Option.some.inj hk).symm⟩
    · exact Or.inr ⟨hv, h.issued v w' k hv hk⟩
  constructor
  · rwa [hold]
  · rw [hold, hnext]
    omega
  · rw [hbatch, hold]
    exact h.batch
  · exact h.tickets.joined.fresh
  · intro k h₁ h₂
    rw [hold] at h₁
    rw [hnext] at h₂
    rw [hslots, htypes]
    by_cases hk : k = u.nextElement
    · rw [hk, update_self, update_self]
      exact ⟨rfl, t, w, update_self _ _ _, hn, rfl⟩
    · -- the new ticket is less than a ring ahead of the others
      have hne := slotIndex_ne (R := R) (p := p) (k := k) (n := u.nextElement) (by omega) (by omega)
        (by omega)
      rw [update_of_ne hne, update_of_ne hne]
      obtain ⟨hslot, v, w', hv, hkw, htype⟩ := h.slot k h₁ (by omega)
      refine ⟨hslot, v, w', update_stays hv ?_, hkw, htype⟩
      rw [ht]
      exact (Option.some_ne_none w').symm
  · intro v w' k hv hk
    rw [hnext]
    rcases hcases hv hk with ⟨-, hk⟩ | ⟨-, h₁, h₂⟩
    · omega
    · omega
  · intro v k hv
    rw [hold]
    rcases hcases hv rfl with ⟨-, hk⟩ | ⟨hv, -⟩
    · omega
    · exact h.writer v k hv
  · intro v v' w' w'' k hv hv' hk hk'
    rcases hcases hv hk with ⟨hvt, hnew⟩ | ⟨hv, -, hlt⟩
    · rcases hcases hv' hk' with ⟨hvt', -⟩ | ⟨-, -, hlt'⟩
      · rw [hvt, hvt']
      · omega
    · rcases hcases hv' hk' with ⟨-, hnew'⟩ | ⟨hv', -⟩
      · omega
      · exact h.unique v v' w' w'' k hv hv' hk hk'

end Fifo

end SystemProgramming.Rwlock
