import Mathlib.Logic.Function.Basic
import Mathlib.Data.List.Nodup
import Mathlib.Tactic.Common

/-!
# Singly linked lists over a link function

`Leads nx q l` says that every node of `l` is linked to the one behind it, and the last one to `q`.  A node is
linked in behind another one (`Leads.insert`) or in front of all (`Leads.push`), and unlinked by the node
before it (`Leads.remove`).
-/

namespace SystemProgramming

variable {α : Type} {nx nx' : α → α} {q : α} {l l₁ l₂ : List α} {a e c : α}

/-- The nodes of `l` are linked in order, and the last one to `q`. -/
def Leads (nx : α → α) (q : α) : List α → Prop
  | [] => True
  | a :: l => nx a = l.headD q ∧ Leads nx q l

theorem Leads.congr (h : Leads nx q l) (hnx : ∀ a ∈ l, nx' a = nx a) : Leads nx' q l := by
  induction l with
  | nil => trivial
  | cons a l ih =>
    obtain ⟨hnext, hrest⟩ := List.forall_mem_cons.mp hnx
    exact ⟨hnext.trans h.1, ih h.2 hrest⟩

theorem leads_append : Leads nx q (l₁ ++ l₂) ↔ Leads nx (l₂.headD q) l₁ ∧ Leads nx q l₂ := by
  induction l₁ with
  | nil => exact (and_iff_right trivial).symm
  | cons a l₁ ih =>
    have hhead : (l₁ ++ l₂).headD q = l₁.headD (l₂.headD q) := by cases l₁ <;> rfl
    show nx a = (l₁ ++ l₂).headD q ∧ Leads nx q (l₁ ++ l₂) ↔ _
    rw [hhead, ih, ← and_assoc]
    rfl

theorem Leads.next_eq (h : Leads nx q (l₁ ++ a :: l₂)) : nx a = l₂.headD q := (leads_append.mp h).2.1

variable [DecidableEq α]

/-- Other links do not matter. -/
theorem Leads.update (h : Leads nx q l) (hc : c ∉ l) (v : α) : Leads (Function.update nx c v) q l :=
  h.congr fun a ha => Function.update_of_ne (fun hac : a = c => hc (hac ▸ ha)) _ _

/-- A node in front. -/
theorem Leads.push (h : Leads nx q l) (hc : c ∉ l) : Leads (Function.update nx c (l.headD q)) q (c :: l) :=
  ⟨Function.update_self .., h.update hc _⟩

/-- The last link is redirected. -/
theorem Leads.redirect (h : Leads nx q (l ++ [e])) (hnodup : (l ++ [e]).Nodup) (v : α) :
    Leads (Function.update nx e v) v (l ++ [e]) := by
  obtain ⟨hl, -⟩ := leads_append.mp h
  have hout : e ∉ l := fun he => (List.nodup_append.mp hnodup).2.2 e he e (List.mem_singleton_self e) rfl
  exact leads_append.mpr ⟨hl.update hout v, Function.update_self .., trivial⟩

/-- The node `c` is linked in behind `e`. -/
theorem Leads.insert (h : Leads nx q (l₁ ++ e :: l₂)) (hnodup : (l₁ ++ e :: l₂).Nodup)
    (hc : c ∉ l₁ ++ e :: l₂) :
    Leads (Function.update (Function.update nx c (nx e)) e c) q (l₁ ++ e :: c :: l₂) := by
  have hsplit : l₁ ++ e :: l₂ = (l₁ ++ [e]) ++ l₂ := by rw [List.append_assoc]; rfl
  rw [hsplit] at h hnodup hc
  obtain ⟨hfront, hback⟩ := leads_append.mp h
  obtain ⟨hfrontNodup, hbackNodup, happart⟩ := List.nodup_append.mp hnodup
  have he : e ∉ c :: l₂ := by
    rintro (_ | ⟨_, he⟩)
    · exact hc (by simp)
    · exact happart e (by simp) e he rfl
  have hnext : nx e = l₂.headD q := (leads_append.mp hfront).2.1
  have hfront' : Leads (Function.update (Function.update nx c (nx e)) e c) c (l₁ ++ [e]) :=
    (hfront.update (fun hmem => hc (List.mem_append_left _ hmem)) _).redirect hfrontNodup c
  have hback' : Leads (Function.update (Function.update nx c (nx e)) e c) q (c :: l₂) := by
    rw [hnext]
    exact (hback.push fun hmem => hc (List.mem_append_right _ hmem)).update he c
  have hwhole : l₁ ++ e :: c :: l₂ = (l₁ ++ [e]) ++ c :: l₂ := by rw [List.append_assoc]; rfl
  rw [hwhole]
  exact leads_append.mpr ⟨hfront', hback'⟩

/-- The node `c` is unlinked by the node `e` before it. -/
theorem Leads.remove (h : Leads nx q (l₁ ++ e :: c :: l₂)) (hnodup : (l₁ ++ e :: c :: l₂).Nodup) :
    Leads (Function.update nx e (nx c)) q (l₁ ++ e :: l₂) := by
  have hsplit : l₁ ++ e :: c :: l₂ = (l₁ ++ [e]) ++ c :: l₂ := by rw [List.append_assoc]; rfl
  rw [hsplit] at h hnodup
  obtain ⟨hfront, hnext, hback⟩ := leads_append.mp h
  obtain ⟨hfrontNodup, -, happart⟩ := List.nodup_append.mp hnodup
  have he : e ∉ l₂ := fun he => happart e (by simp) e (List.mem_cons_of_mem c he) rfl
  have hwhole : l₁ ++ e :: l₂ = (l₁ ++ [e]) ++ l₂ := by rw [List.append_assoc]; rfl
  rw [hwhole, hnext]
  exact leads_append.mpr ⟨hfront.redirect hfrontNodup _, hback.update he _⟩

end SystemProgramming
