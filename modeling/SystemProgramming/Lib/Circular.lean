import SystemProgramming.Lib.Singly
import Mathlib.Data.List.Rotate

/-!
# Circularly linked lists over a link function

`Circular nx l` says that the nodes of `l` are linked in order and the last one to the first, so that the list may
begin at any of its nodes.  `turn l a` are the nodes that a walk from `a` meets until it is back at `a`.

* `Circular.rotate`: the list may begin at the next node.
* `turn_last`, `Circular.turn_eq`: a turn ends where it began, and begins with the next node.
-/

namespace SystemProgramming

variable {α : Type} {nx : α → α} {q a b : α} {l l₁ l₂ : List α}

/-- The nodes of `l` are linked in order, and the last one to the first. -/
def Circular (nx : α → α) (l : List α) : Prop := l.map nx = l.rotate 1

theorem leads_cons_iff : Leads nx q (a :: l) ↔ (a :: l).map nx = l ++ [q] := by
  induction l generalizing a with
  | nil =>
    show nx a = q ∧ True ↔ [nx a] = [q]
    rw [and_true, List.singleton_inj]
  | cons b l ih =>
    show nx a = b ∧ Leads nx q (b :: l) ↔ nx a :: (b :: l).map nx = b :: (l ++ [q])
    rw [ih, List.cons.injEq]

theorem circular_cons : Circular nx (a :: l) ↔ Leads nx a (a :: l) := by
  unfold Circular
  rw [leads_cons_iff, List.rotate_cons_succ, List.rotate_zero]

/-- The list may begin anywhere. -/
theorem Circular.rotate (h : Circular nx l) (k : ℕ) : Circular nx (l.rotate k) := by
  unfold Circular at h ⊢
  rw [List.map_rotate, h, List.rotate_rotate, List.rotate_rotate, Nat.add_comm]

theorem Circular.next_eq (h : Circular nx (l₁ ++ a :: b :: l₂)) : nx a = b := by
  cases l₁ with
  | nil => exact (circular_cons.mp h).1
  | cons c l₁ =>
    have hleads : Leads nx c ((c :: l₁) ++ a :: b :: l₂) := circular_cons.mp h
    exact hleads.next_eq

theorem Circular.next_last (h : Circular nx (a :: l ++ [b])) : nx b = a := by
  have hleads : Leads nx a ((a :: l) ++ b :: []) := circular_cons.mp h
  exact hleads.next_eq

/-- Different nodes are linked to different nodes. -/
theorem Circular.inj (h : Circular nx l) (hnodup : l.Nodup) (ha : a ∈ l) (hb : b ∈ l) (heq : nx a = nx b) : a = b := by
  have hmap : (l.map nx).Nodup := by
    rw [h]
    exact List.nodup_rotate.mpr hnodup
  exact List.inj_on_of_nodup_map hmap ha hb heq

variable [DecidableEq α]

/-- The nodes behind `a`, and `a` at the end. -/
def turn (l : List α) (a : α) : List α := l.rotate (l.idxOf a + 1)

theorem turn_append (ha : a ∉ l₁) : turn (l₁ ++ a :: l₂) a = l₂ ++ (l₁ ++ [a]) := by
  have hindex : (l₁ ++ a :: l₂).idxOf a + 1 = (l₁ ++ [a]).length := by
    rw [List.idxOf_append_of_notMem ha, List.idxOf_cons_self, List.length_append, List.length_singleton]
  have hsplit : l₁ ++ a :: l₂ = (l₁ ++ [a]) ++ l₂ := by rw [List.append_assoc]; rfl
  unfold turn
  rw [hindex, hsplit, List.rotate_append_length_eq]

theorem turn_last (ha : a ∈ l) : ∃ l', turn l a = l' ++ [a] := by
  obtain ⟨l₁, l₂, rfl, hout⟩ := List.eq_append_cons_of_mem ha
  rw [turn_append hout, ← List.append_assoc]
  exact ⟨_, rfl⟩

/-- The turn is over at `a`. -/
theorem eq_of_turn (ha : a ∈ l) (h : turn l a = l₁ ++ [b]) : b = a := by
  obtain ⟨l', hl'⟩ := turn_last ha
  exact List.singleton_inj.mp (List.append_inj' (h.symm.trans hl') rfl).2

/-- It is not over before. -/
theorem ne_of_turn (hnodup : l.Nodup) (ha : a ∈ l) (h : turn l a = l₁ ++ b :: c :: l₂) : b ≠ a := by
  obtain ⟨l', hl'⟩ := turn_last ha
  have hlast : a ∈ c :: l₂ := by
    have hend := congrArg List.getLast? (h.symm.trans hl')
    rw [List.getLast?_concat, List.getLast?_append, List.getLast?_cons_cons] at hend
    exact List.mem_of_getLast? (by simpa using hend)
  have hturn : (turn l a).Nodup := List.nodup_rotate.mpr hnodup
  rw [h] at hturn
  exact fun hba => (List.nodup_cons.mp (List.nodup_append.mp hturn).2.1).1 (hba ▸ hlast)

theorem mem_turn : b ∈ turn l a ↔ b ∈ l := List.mem_rotate

theorem length_turn : (turn l a).length = l.length := List.length_rotate _ _

theorem Circular.turned (h : Circular nx l) (a : α) : Circular nx (turn l a) := h.rotate _

/-- A turn from `a` begins with the node behind `a`. -/
theorem Circular.turn_eq (h : Circular nx l) (ha : a ∈ l) : ∃ l', turn l a = nx a :: l' := by
  obtain ⟨l₁, l₂, rfl, hout⟩ := List.eq_append_cons_of_mem ha
  have hturn := h.turned a
  rw [turn_append hout, ← List.append_assoc] at hturn ⊢
  cases hl : l₂ ++ l₁ with
  | nil =>
    rw [hl] at hturn
    exact ⟨[], by rw [show nx a = a from (circular_cons.mp hturn).1]; rfl⟩
  | cons b l =>
    rw [hl] at hturn
    exact ⟨l ++ [a], by rw [hturn.next_last]; rfl⟩

end SystemProgramming
