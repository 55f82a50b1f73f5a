import SystemProgramming.Rwlock.Lock

/-!
# Tickets, slots and the two loops over them

For a ring whose tickets do not overflow: what `find_valid_head` and the scan for a reader batch find,
and which bounds on tickets every section keeps (`Tickets`), however many threads share the ring.

* `findValidHead_spec`: `find_valid_head` finds the first ticket that is in its slot, or the end.
* `scanBatch_stops`: the scan for a batch ends at a slot without a reader.
* `Tickets.lead`, `Tickets.pass`, `Tickets.joined`: the parts of the sections keep the bounds.
-/

namespace SystemProgramming.Rwlock

open Function

variable {R : ℕ} {p : 0 < R} {u : Lock} {n k head batchEnd : ℤ} {fuel : ℕ}

theorem slotMatches_none {ring : Ring} :
    slotMatches ring u n none = true ↔ u.slotTable (slotIndex ring n) = n := decide_eq_true_iff

theorem slotMatches_some {ring : Ring} {r : ReqType} :
    slotMatches ring u n (some r) = true ↔
      u.slotTable (slotIndex ring n) = n ∧ u.requestType (slotIndex ring n) = r := decide_eq_true_iff

/-- Two tickets less than a ring apart have different slots. -/
theorem slotIndex_ne (h₀ : 0 ≤ k) (hlt : k < n) (hn : n < k + R) :
    slotIndex (Ring.plain R p) k ≠ slotIndex (Ring.plain R p) n := by
  intro heq
  have hk : k % R = n % R := by
    have hk' := Int.tmod_eq_emod_of_nonneg (b := (R : ℤ)) h₀
    have hn' := Int.tmod_eq_emod_of_nonneg (a := n) (b := (R : ℤ)) (by omega)
    rw [← hk', ← hn']
    exact heq
  have hdvd : (R : ℤ) ∣ n - k :=
    Int.dvd_of_emod_eq_zero (Int.emod_eq_emod_iff_emod_sub_eq_zero.mp hk.symm)
  have hle := Int.le_of_dvd (by omega) hdvd
  omega

/-! ### `find_valid_head` -/

theorem skipHead_spec (hfuel : u.nextElement - head ≤ fuel) :
    head ≤ skipHead (Ring.plain R p) u fuel head ∧
    (head ≤ u.nextElement → skipHead (Ring.plain R p) u fuel head ≤ u.nextElement) ∧
    (skipHead (Ring.plain R p) u fuel head < u.nextElement →
      slotMatches (Ring.plain R p) u (skipHead (Ring.plain R p) u fuel head) none = true) ∧
    ∀ k, head ≤ k → k < skipHead (Ring.plain R p) u fuel head →
      slotMatches (Ring.plain R p) u k none = false := by
  induction fuel generalizing head with
  | zero =>
    have hend : u.nextElement ≤ head := by omega
    show head ≤ head ∧ (_ → head ≤ _) ∧ (head < _ → _) ∧ ∀ k, head ≤ k → k < head → _
    exact ⟨Int.le_refl _, id, fun hlt => by omega, fun k h₁ h₂ => by omega⟩
  | succ fuel ih =>
    unfold skipHead
    split
    · rename_i hskip
      have hnext : u.nextElement - (head + 1) ≤ fuel := by omega
      obtain ⟨h₁, h₂, h₃, h₄⟩ := ih hnext
      have hsucc : (Ring.plain R p).succ head = head + 1 := rfl
      rw [hsucc]
      refine ⟨by omega, fun _ => h₂ (by omega), h₃, fun k hk hlt => ?_⟩
      by_cases heq : k = head
      · rw [heq]
        exact hskip.2
      · exact h₄ k (by omega) hlt
    · rename_i hstop
      refine ⟨Int.le_refl _, id, fun hlt => ?_, fun k h₁ h₂ => by omega⟩
      cases hm : slotMatches (Ring.plain R p) u head none with
      | true => rfl
      | false => exact absurd ⟨hlt, hm⟩ hstop

/-- **`find_valid_head`** finds the first ticket from `head` on that is in its slot, or the end. -/
theorem findValidHead_spec (u : Lock) (head : ℤ) :
    head ≤ findValidHead (Ring.plain R p) u head ∧
    (head ≤ u.nextElement → findValidHead (Ring.plain R p) u head ≤ u.nextElement) ∧
    (findValidHead (Ring.plain R p) u head < u.nextElement →
      slotMatches (Ring.plain R p) u (findValidHead (Ring.plain R p) u head) none = true) ∧
    ∀ k, head ≤ k → k < findValidHead (Ring.plain R p) u head →
      slotMatches (Ring.plain R p) u k none = false :=
  skipHead_spec (by omega)

/-- It stays where it is when the ticket there is in its slot, or at the end. -/
theorem findValidHead_stay (h : head ≤ u.nextElement)
    (hm : head < u.nextElement → slotMatches (Ring.plain R p) u head none = true) :
    findValidHead (Ring.plain R p) u head = head := by
  obtain ⟨h₁, h₂, -, h₄⟩ := findValidHead_spec (p := p) u head
  by_contra hne
  have hlt : head < findValidHead (Ring.plain R p) u head := by omega
  have hmiss := h₄ head (Int.le_refl _) hlt
  rw [hm (by have := h₂ h; omega)] at hmiss
  cases hmiss

/-! ### The scan for a reader batch -/

theorem scanBatch_spec (fuel : ℕ) (head batchEnd : ℤ) :
    head ≤ (scanBatch (Ring.plain R p) u fuel head batchEnd).1 ∧
    (∀ k, head ≤ k → k < (scanBatch (Ring.plain R p) u fuel head batchEnd).1 →
      slotMatches (Ring.plain R p) u k (some .read) = true) ∧
    ((scanBatch (Ring.plain R p) u fuel head batchEnd).1 = head →
      (scanBatch (Ring.plain R p) u fuel head batchEnd).2 = batchEnd) ∧
    (head < (scanBatch (Ring.plain R p) u fuel head batchEnd).1 →
      (scanBatch (Ring.plain R p) u fuel head batchEnd).2 + 1 =
        (scanBatch (Ring.plain R p) u fuel head batchEnd).1) := by
  induction fuel generalizing head batchEnd with
  | zero =>
    show head ≤ head ∧ (∀ k, head ≤ k → k < head → _) ∧ (head = head → batchEnd = batchEnd) ∧
      (head < head → batchEnd + 1 = head)
    exact ⟨Int.le_refl _, fun k h₁ h₂ => by omega, fun _ => rfl, fun hlt => by omega⟩
  | succ fuel ih =>
    unfold scanBatch
    split
    · rename_i hm
      obtain ⟨h₁, h₂, h₃, h₄⟩ := ih (head + 1) head
      have hsucc : (Ring.plain R p).succ head = head + 1 := rfl
      rw [hsucc]
      refine ⟨by omega, fun k hk hlt => ?_, fun heq => by omega, fun _ => ?_⟩
      · by_cases heq : k = head
        · rw [heq]
          exact hm
        · exact h₂ k (by omega) hlt
      · by_cases heq : (scanBatch (Ring.plain R p) u fuel (head + 1) head).1 = head + 1
        · rw [h₃ heq, heq]
        · exact h₄ (by omega)
    · exact ⟨Int.le_refl _, fun k h₁ h₂ => by omega, fun _ => rfl, fun hlt => by omega⟩

/-- A scan that starts at a reader in its slot gets past it. -/
theorem scanBatch_lt (batchEnd : ℤ)
    (hm : slotMatches (Ring.plain R p) u head (some .read) = true) :
    head < (scanBatch (Ring.plain R p) u R head batchEnd).1 := by
  obtain ⟨n, rfl⟩ := Nat.exists_eq_succ_of_ne_zero (Nat.ne_of_gt p)
  unfold scanBatch
  rw [if_pos hm]
  have hsucc : (Ring.plain (n + 1) p).succ head = head + 1 := rfl
  have h := (scanBatch_spec (p := p) (u := u) n (head + 1) head).1
  rw [hsucc]
  omega

/-- A scan stops where there is no reader in its slot, unless it has used up its steps. -/
theorem scanBatch_end (fuel : ℕ) (head batchEnd : ℤ) :
    slotMatches (Ring.plain R p) u (scanBatch (Ring.plain R p) u fuel head batchEnd).1 (some .read)
      = false ∨ (scanBatch (Ring.plain R p) u fuel head batchEnd).1 = head + fuel := by
  induction fuel generalizing head batchEnd with
  | zero => exact Or.inr (Int.add_zero head).symm
  | succ fuel ih =>
    unfold scanBatch
    split
    · have hsucc : (Ring.plain R p).succ head = head + 1 := rfl
      rw [hsucc]
      refine (ih (head + 1) head).imp_right fun heq => ?_
      rw [heq]
      push_cast
      omega
    · rename_i hm
      exact Or.inl (Bool.not_eq_true _ ▸ hm)

/-- As many steps as the ring has slots are enough: where the scan stops, there is no reader in its
slot. -/
theorem scanBatch_stops (batchEnd : ℤ) (h₀ : 0 ≤ head) :
    slotMatches (Ring.plain R p) u (scanBatch (Ring.plain R p) u R head batchEnd).1 (some .read)
      = false := by
  rcases scanBatch_end (p := p) (u := u) R head batchEnd with hstop | hfull
  · exact hstop
  · -- a full round ends at the slot where it began, which holds the first ticket
    obtain ⟨-, hall, -, -⟩ := scanBatch_spec (p := p) (u := u) R head batchEnd
    have hfirst := (slotMatches_some.mp (hall head (Int.le_refl _) (by omega))).1
    have hsame : slotIndex (Ring.plain R p) (head + R) = slotIndex (Ring.plain R p) head := by
      show (head + R).tmod R = head.tmod R
      rw [Int.tmod_eq_emod_of_nonneg (by omega), Int.tmod_eq_emod_of_nonneg h₀,
        Int.add_emod_right]
    rw [hfull]
    cases hm : slotMatches (Ring.plain R p) u (head + R) (some .read) with
    | false => rfl
    | true =>
      have hlast := (slotMatches_some.mp hm).1
      rw [hsame, hfirst] at hlast
      omega

/-! ### Bounds that every section keeps -/

/-- Every ticket in the ring, at the head and in the batch has been issued. -/
structure Tickets (u : Lock) : Prop where
  nonneg : 0 ≤ u.nextElement
  oldest : u.oldestElement ≤ u.nextElement
  batch : u.readBatchEnd < u.nextElement
  fresh : ∀ i, u.slotTable i < u.nextElement

namespace Tickets

theorem init : Tickets Lock.init where
  nonneg := Int.le_refl 0
  oldest := Int.le_refl 0
  batch := by decide
  fresh _ := show (-1 : ℤ) < 0 by decide

theorem lt_of_match (h : Tickets u) (hm : slotMatches (Ring.plain R p) u n none = true) :
    n < u.nextElement := by
  have hfresh := h.fresh (slotIndex (Ring.plain R p) n)
  rwa [slotMatches_none.mp hm] at hfresh

theorem consumed (h : Tickets u) {ring : Ring} : Tickets (u.consumed ring n) where
  nonneg := h.nonneg
  oldest := h.oldest
  batch := h.batch
  fresh i := by
    show update u.slotTable (slotIndex ring n) (-1) i < u.nextElement
    by_cases hi : i = slotIndex ring n
    · rw [hi, update_self]
      have := h.nonneg
      omega
    · rw [update_of_ne hi]
      exact h.fresh i

theorem repaired (h : Tickets u) :
    Tickets { u with oldestElement := findValidHead (Ring.plain R p) u u.oldestElement } :=
  { h with oldest := (findValidHead_spec (p := p) u u.oldestElement).2.1 h.oldest }

theorem lead (h : Tickets u) (hn : n < u.nextElement) :
    Tickets (u.lead (Ring.plain R p) n n) := by
  obtain ⟨h₁, h₂, h₃, h₄⟩ := scanBatch_spec (p := p) (u := u) R n n
  -- the last ticket of the batch is in its slot
  have hlast : (scanBatch (Ring.plain R p) u R n n).1 ≤ u.nextElement := by
    by_contra hgt
    have hm := slotMatches_some.mp (h₂ ((scanBatch (Ring.plain R p) u R n n).1 - 1) (by omega)
      (by omega))
    have hlt := h.lt_of_match (p := p) (slotMatches_none.mpr hm.1)
    omega
  refine { h with oldest := hlast, batch := ?_ }
  show (scanBatch (Ring.plain R p) u R n n).2 < u.nextElement
  by_cases heq : (scanBatch (Ring.plain R p) u R n n).1 = n
  · rw [h₃ heq]
    exact hn
  · have := h₄ (by omega)
    omega

theorem pass (h : Tickets u) (hlt : u.oldestElement < u.nextElement) :
    Tickets (u.pass (Ring.plain R p)) where
  nonneg := h.nonneg
  oldest := (findValidHead_spec (p := p) _ _).2.1 (show u.oldestElement + 1 ≤ u.nextElement by omega)
  batch := show (-1 : ℤ) < u.nextElement by have := h.nonneg; omega
  fresh := h.fresh

/-- Joining the FIFO issues the next ticket and puts it into its slot. -/
theorem joined (h : Tickets u) {r : ReqType} :
    Tickets (joinFifo (Ring.plain R p) u u.nextElement r).2 := by
  have hnext : (joinFifo (Ring.plain R p) u u.nextElement r).2.nextElement = u.nextElement + 1 := by
    cases r <;> rfl
  have hslots : (joinFifo (Ring.plain R p) u u.nextElement r).2.slotTable =
      update u.slotTable (slotIndex (Ring.plain R p) u.nextElement) u.nextElement := by
    cases r <;> rfl
  have hold : (joinFifo (Ring.plain R p) u u.nextElement r).2.oldestElement = u.oldestElement ∧
      (joinFifo (Ring.plain R p) u u.nextElement r).2.readBatchEnd = u.readBatchEnd := by
    cases r <;> exact ⟨rfl, rfl⟩
  have h₁ := h.nonneg
  have h₂ := h.oldest
  have h₃ := h.batch
  refine ⟨by omega, by omega, by omega, fun i => ?_⟩
  rw [hnext, hslots]
  by_cases hi : i = slotIndex (Ring.plain R p) u.nextElement
  · rw [hi, update_self]
    omega
  · rw [update_of_ne hi]
    have := h.fresh i
    omega

end Tickets

end SystemProgramming.Rwlock
