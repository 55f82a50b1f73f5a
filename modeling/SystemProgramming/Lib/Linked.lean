import Mathlib.Logic.Function.Basic
import Mathlib.Data.List.Basic
import Mathlib.Data.List.Nodup
import Mathlib.Tactic.Common

/-!
# Doubly linked lists over two link functions

The links of a family of nodes are two functions `nx` and `pv` into the nodes with a distinguished
`null`.  `Links nx pv p l q` says that the nodes of `l`, in this order, are linked to each other in
both directions, that the first one points back to `p` and the last one forward to `q`; a whole list
is `Links nx pv null l null` with head `l.headD null`.

* `Links.congr` — only the links of the members matter;
* `links_append` — a list splits at any point;
* `Walk` — what following the forward links alone passes; a walk that ends passes no node twice;
* `Links.push` — linking a node in front;
* `Links.detach` — unlinking a node, wherever it stands.
-/

namespace SystemProgramming

section Linked

variable {α : Type} {nx pv nx' pv' : α → α} {p q : α}

/-- The nodes of `l` are linked in order, between `p` and `q`. -/
def Links (nx pv : α → α) : α → List α → α → Prop
  | _, [], _ => True
  | p, a :: l, q => pv a = p ∧ nx a = l.headD q ∧ Links nx pv a l q

@[simp] theorem links_nil : Links nx pv p [] q := trivial

theorem Links.congr {l : List α} (h : Links nx pv p l q)
    (hnx : ∀ a ∈ l, nx' a = nx a) (hpv : ∀ a ∈ l, pv' a = pv a) : Links nx' pv' p l q := by
  induction l generalizing p with
  | nil => trivial
  | cons a l ih =>
    obtain ⟨h₁, h₂, h₃⟩ := h
    refine ⟨(hpv a (by simp)).trans h₁, (hnx a (by simp)).trans h₂, ih h₃ ?_ ?_⟩
    · exact fun b hb => hnx b (by simp [hb])
    · exact fun b hb => hpv b (by simp [hb])

theorem headD_append (l₁ l₂ : List α) (q : α) :
    (l₁ ++ l₂).headD q = l₁.headD (l₂.headD q) := by
  cases l₁ <;> rfl

/-- A linked list splits at any point; the two parts point at each other. -/
theorem links_append {l₁ l₂ : List α} :
    Links nx pv p (l₁ ++ l₂) q ↔
      Links nx pv p l₁ (l₂.headD q) ∧ Links nx pv (l₁.getLastD p) l₂ q := by
  induction l₁ generalizing p with
  | nil => simp
  | cons a l ih =>
    simp only [List.cons_append, Links, ih, headD_append, List.getLastD_cons]
    tauto

theorem Links.next_eq {l₁ l₂ : List α} {c : α} (h : Links nx pv p (l₁ ++ c :: l₂) q) :
    nx c = l₂.headD q := (links_append.mp h).2.2.1

theorem Links.prev_eq {l₁ l₂ : List α} {c : α} (h : Links nx pv p (l₁ ++ c :: l₂) q) :
    pv c = l₁.getLastD p := (links_append.mp h).2.1

/-! ### Walks along the forward links -/

/-- From `p` the forward links run through the nodes of `l` and then reach `q`. -/
def Walk (nx : α → α) (q : α) : α → List α → Prop
  | p, [] => p = q
  | p, a :: l => p = a ∧ a ≠ q ∧ Walk nx q (nx a) l

instance Walk.decidable [DecidableEq α] (nx : α → α) (q : α) : (p : α) → (l : List α) → Decidable (Walk nx q p l)
  | p, [] => inferInstanceAs (Decidable (p = q))
  | p, a :: l =>
    have := Walk.decidable nx q (nx a) l
    inferInstanceAs (Decidable (p = a ∧ a ≠ q ∧ Walk nx q (nx a) l))

theorem Walk.start {l : List α} (h : Walk nx q p l) : l.headD q = p := by
  cases l with
  | nil => exact h.symm
  | cons a l => exact h.1.symm

/-- There is at most one walk from a node. -/
theorem Walk.unique {l l' : List α} (h : Walk nx q p l) (h' : Walk nx q p l') : l = l' := by
  induction l generalizing p l' with
  | nil =>
    cases l' with
    | nil => rfl
    | cons a l' => exact absurd (h'.1.symm.trans h) h'.2.1
  | cons a l ih =>
    cases l' with
    | nil => exact absurd (h.1.symm.trans h') h.2.1
    | cons b l' =>
      obtain rfl : a = b := h.1.symm.trans h'.1
      rw [ih h.2.2 h'.2.2]

/-- Part of a walk is a walk. -/
theorem Walk.suffix {l₁ l₂ : List α} (h : Walk nx q p (l₁ ++ l₂)) :
    Walk nx q (l₂.headD q) l₂ := by
  induction l₁ generalizing p with
  | nil =>
    have hstart : l₂.headD q = p := Walk.start h
    rw [hstart]
    exact h
  | cons a l ih => exact ih h.2.2

theorem Walk.next_eq {l₁ l₂ : List α} {c : α} (h : Walk nx q p (l₁ ++ c :: l₂)) :
    nx c = l₂.headD q := by
  obtain ⟨-, -, hrest⟩ := h.suffix
  exact hrest.start.symm

/-- A walk that ends passes no node twice. -/
theorem Walk.nodup {l : List α} (h : Walk nx q p l) : l.Nodup := by
  induction l generalizing p with
  | nil => exact List.nodup_nil
  | cons a l ih =>
    refine List.nodup_cons.mpr ⟨fun ha => ?_, ih h.2.2⟩
    -- passing `a` again, the walk would go round for ever
    obtain ⟨l₁, l₂, rfl⟩ := List.append_of_mem ha
    have hagain : Walk nx q a (a :: l₂) := h.2.2.suffix
    have hlen := congrArg List.length (h.2.2.unique hagain.2.2)
    simp only [List.length_append, List.length_cons] at hlen
    omega

theorem Links.walk {l : List α} (h : Links nx pv p l q) (hq : q ∉ l) : Walk nx q (l.headD q) l := by
  induction l generalizing p with
  | nil => rfl
  | cons a l ih =>
    refine ⟨rfl, fun ha => hq (by simp [ha]), ?_⟩
    rw [h.2.1]
    exact ih h.2.2 fun hm => hq (by simp [hm])

/-! ### The neighbours of a member -/

/-- Every forward link of a member is a member or the end. -/
theorem Links.next_mem {l : List α} (h : Links nx pv p l q) {c : α} (hc : c ∈ l) :
    nx c ∈ l ∨ nx c = q := by
  obtain ⟨l₁, l₂, rfl⟩ := List.append_of_mem hc
  rw [h.next_eq]
  cases l₂ with
  | nil => exact Or.inr rfl
  | cons a l => exact Or.inl (by simp)

/-- Every backward link of a member is a member or the start. -/
theorem Links.prev_mem {l : List α} (h : Links nx pv p l q) {c : α} (hc : c ∈ l) :
    pv c ∈ l ∨ pv c = p := by
  obtain ⟨l₁, l₂, rfl⟩ := List.append_of_mem hc
  rw [h.prev_eq]
  rcases List.eq_nil_or_concat l₁ with rfl | ⟨l, a, rfl⟩
  · exact Or.inr rfl
  · exact Or.inl (by simp)

/-- A member without a backward link is the head. -/
theorem Links.head_of_prev_null {l : List α} {c : α} (h : Links nx pv p l q) (hp : p ∉ l)
    (hc : c ∈ l) (hprev : pv c = p) : l.headD q = c := by
  obtain ⟨l₁, l₂, rfl⟩ := List.append_of_mem hc
  rw [h.prev_eq] at hprev
  rcases List.eq_nil_or_concat l₁ with rfl | ⟨l, a, rfl⟩
  · rfl
  · refine absurd ?_ hp
    rw [← hprev]
    simp

/-- Links are symmetric: `b` follows `a` exactly when `a` precedes `b`. -/
theorem Links.next_eq_iff {l : List α} {n a b : α} (h : Links nx pv n l n) (hn : n ∉ l)
    (ha : a ∈ l) (hb : b ∈ l) : nx a = b ↔ pv b = a := by
  have hbn : b ≠ n := fun he => hn (he ▸ hb)
  have han : a ≠ n := fun he => hn (he ▸ ha)
  constructor
  · intro hnext
    obtain ⟨l₁, l₂, rfl⟩ := List.append_of_mem ha
    rw [h.next_eq] at hnext
    cases l₂ with
    | nil => exact absurd hnext.symm hbn
    | cons c l =>
      obtain rfl : c = b := hnext
      have h' : Links nx pv n ((l₁ ++ [a]) ++ c :: l) n := by simpa using h
      rw [h'.prev_eq, List.getLastD_concat]
  · intro hprev
    obtain ⟨l₁, l₂, rfl⟩ := List.append_of_mem hb
    rw [h.prev_eq] at hprev
    rcases List.eq_nil_or_concat l₁ with rfl | ⟨l, c, rfl⟩
    · exact absurd hprev.symm han
    · rw [List.concat_eq_append, List.getLastD_concat] at hprev
      subst hprev
      have h' : Links nx pv n (l ++ c :: b :: l₂) n := by simpa using h
      rw [h'.next_eq, List.headD_cons]

variable [DecidableEq α] {null : α}

/-- Set a link of the node `a`, unless `a` is null. -/
def setLink (null : α) (f : α → α) (a v : α) : α → α := if a = null then f else Function.update f a v

@[simp] theorem setLink_null (f : α → α) (v : α) : setLink null f null v = f := if_pos rfl

theorem setLink_of_ne {f : α → α} {a v : α} (h : a ≠ null) :
    setLink null f a v = Function.update f a v := if_neg h

theorem setLink_apply_ne {f : α → α} {a v b : α} (h : b ≠ a) : setLink null f a v b = f b := by
  unfold setLink
  split
  · rfl
  · exact Function.update_of_ne h _ _

/-- Change the forward link of the last node of a list. -/
theorem Links.setLast {l : List α} (h : Links nx pv null l q) (hnd : l.Nodup) (hnull : null ∉ l)
    (r : α) : Links (setLink null nx (l.getLastD null) r) pv null l r := by
  rcases List.eq_nil_or_concat l with rfl | ⟨l, a, rfl⟩
  · trivial
  · rw [List.concat_eq_append] at *
    have hlast : (l ++ [a]).getLastD null = a := by simp
    have ha : a ≠ null := fun h => hnull (by simp [h])
    have hal : a ∉ l := by
      rw [List.nodup_append] at hnd
      exact fun h => hnd.2.2 a h a (by simp) rfl
    rw [links_append] at h
    obtain ⟨h₁, h₂, -⟩ := h
    rw [hlast, setLink_of_ne ha, links_append]
    refine ⟨h₁.congr (fun b hb => ?_) (fun _ _ => rfl), h₂, by simp, trivial⟩
    exact Function.update_of_ne (ne_of_mem_of_not_mem hb hal) _ _

/-- Change the backward link of the first node of a list. -/
theorem Links.setFirst {l : List α} (h : Links nx pv p l null) (hnd : l.Nodup) (hnull : null ∉ l)
    (r : α) : Links nx (setLink null pv (l.headD null) r) r l null := by
  cases l with
  | nil => trivial
  | cons a l =>
    obtain ⟨-, h₂, h₃⟩ := h
    have ha : a ≠ null := fun h => hnull (by simp [h])
    have hal : a ∉ l := (List.nodup_cons.mp hnd).1
    rw [List.headD_cons, setLink_of_ne ha]
    refine ⟨Function.update_self _ _ _, h₂, h₃.congr (fun _ _ => rfl) (fun b hb => ?_)⟩
    exact Function.update_of_ne (ne_of_mem_of_not_mem hb hal) _ _

/-- **Push.**  A fresh node linked before the head becomes the head. -/
theorem Links.push {l : List α} {c : α} (h : Links nx pv null l null) (hnd : l.Nodup)
    (hnull : null ∉ l) (hc : c ∉ l) :
    Links (Function.update nx c (l.headD null))
      (setLink null (Function.update pv c null) (l.headD null) c) null (c :: l) null := by
  have hbody : Links nx (setLink null pv (l.headD null) c) c l null := h.setFirst hnd hnull c
  have hhead : l.headD null ≠ c ∨ l.headD null = null := by
    cases l with
    | nil => exact Or.inr rfl
    | cons a l => exact Or.inl fun h => hc (by simp [← h])
  refine ⟨?_, Function.update_self _ _ _, hbody.congr (fun b hb => ?_) (fun b hb => ?_)⟩
  · rcases hhead with h | h
    · rw [setLink_apply_ne (Ne.symm h), Function.update_self]
    · rw [h, setLink_null, Function.update_self]
  · exact Function.update_of_ne (ne_of_mem_of_not_mem hb hc) _ _
  · have hbc : b ≠ c := ne_of_mem_of_not_mem hb hc
    unfold setLink
    split
    · exact Function.update_of_ne hbc _ _
    · simp only [Function.update_apply, if_neg hbc]

/-- **Detach.**  Making the two neighbours of a node point at each other unlinks it. -/
theorem Links.detach {l₁ l₂ : List α} {c : α} (h : Links nx pv null (l₁ ++ c :: l₂) null)
    (hnd : (l₁ ++ c :: l₂).Nodup) (hnull : null ∉ l₁ ++ c :: l₂) :
    Links (setLink null nx (pv c) (nx c)) (setLink null pv (nx c) (pv c)) null (l₁ ++ l₂) null := by
  have hnext := h.next_eq
  have hprev := h.prev_eq
  rw [links_append] at h
  obtain ⟨hl₁, -, -, hl₂⟩ := h
  rw [List.nodup_append] at hnd
  obtain ⟨hnd₁, hnd₂, hdisj⟩ := hnd
  have hnd₂' : l₂.Nodup := (List.nodup_cons.mp hnd₂).2
  have hnull₁ : null ∉ l₁ := fun h => hnull (by simp [h])
  have hnull₂ : null ∉ l₂ := fun h => hnull (by simp [h])
  have hl₁' := hl₁.setLast hnd₁ hnull₁ (l₂.headD null)
  have hl₂' := hl₂.setFirst hnd₂' hnull₂ (l₁.getLastD null)
  have hne : ∀ a ∈ l₁, ∀ b ∈ l₂, a ≠ b := fun a ha b hb => hdisj a ha b (by simp [hb])
  have hhead : l₂.headD null ∈ l₂ ∨ l₂.headD null = null := by cases l₂ <;> simp
  have hlast : l₁.getLastD null ∈ l₁ ∨ l₁.getLastD null = null := by
    rcases List.eq_nil_or_concat l₁ with rfl | ⟨l, a, rfl⟩ <;> simp
  rw [hnext, hprev, links_append]
  refine ⟨hl₁'.congr (fun _ _ => rfl) (fun a ha => ?_), hl₂'.congr (fun b hb => ?_) (fun _ _ => rfl)⟩
  · rcases hhead with hm | he
    · exact setLink_apply_ne (hne a ha _ hm)
    · rw [he, setLink_null]
  · rcases hlast with hm | he
    · exact setLink_apply_ne (Ne.symm (hne _ hm b hb))
    · rw [he, setLink_null]

/-- The head after a detach. -/
theorem Links.detach_head {l₁ l₂ : List α} {c : α} (h : Links nx pv null (l₁ ++ c :: l₂) null)
    (hnull : null ∉ l₁ ++ c :: l₂) :
    (l₁ ++ l₂).headD null = if pv c = null then nx c else (l₁ ++ c :: l₂).headD null := by
  rw [h.next_eq, h.prev_eq]
  cases l₁ with
  | nil => simp
  | cons a l =>
    have hlast : (a :: l).getLastD null ≠ null := by
      intro he
      have : (a :: l).getLastD null ∈ a :: l := by
        rw [List.getLastD_eq_getLast?, List.getLast?_eq_getLast_of_ne_nil (by simp)]
        exact List.getLast_mem _
      exact hnull (by rw [← he]; exact List.mem_append_left _ this)
    rw [if_neg hlast]
    rfl

/-- A node that writes its own links back, and itself behind its successor, changes nothing. -/
theorem Links.restore {l : List α} {c v : α} (h : Links nx pv null l null) (hnull : null ∉ l)
    (hc : c ∈ l) :
    Function.update (setLink null (Function.update pv c v) (nx c) c) c (pv c) = pv := by
  funext b
  by_cases hbc : b = c
  · rw [hbc, Function.update_self]
  · rw [Function.update_of_ne hbc]
    by_cases hbn : b = nx c
    · rcases h.next_mem hc with hm | hn
      · have hnn : nx c ≠ null := fun he => hnull (he ▸ hm)
        rw [hbn, setLink_of_ne hnn, Function.update_self]
        exact ((h.next_eq_iff hnull hc hm).mp rfl).symm
      · rw [hn, setLink_null, Function.update_of_ne hbc]
    · rw [setLink_apply_ne hbn, Function.update_of_ne hbc]

/-- A node that is detached has no links left; the others do not notice. -/
theorem Links.clear {l : List α} {c v w : α} (h : Links nx pv p l q) (hc : c ∉ l) :
    Links (Function.update nx c v) (Function.update pv c w) p l q :=
  h.congr (fun _ ha => Function.update_of_ne (ne_of_mem_of_not_mem ha hc) _ _)
    (fun _ ha => Function.update_of_ne (ne_of_mem_of_not_mem ha hc) _ _)

end Linked

end SystemProgramming
