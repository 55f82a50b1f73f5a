import SystemProgramming.HeapMgr.Reshape
import SystemProgramming.HeapMgr.Layout
import Mathlib.Data.List.Perm.Subperm
import Mathlib.Data.Set.Insert
import Mathlib.Order.BooleanAlgebra.Set

/-!
# The free lists of a table

`Listed heads cls T out bl` says that for every class `i` the list `bl i` of block addresses is
doubly linked in the table `T` with head `heads i`, and that the lists hold exactly the free blocks,
each in the list of its class, except for the blocks in `out`, which are being worked on.  One class
is the single list of `heapmgr1.c`; the ten size classes are the bins of `heapmgr2.c`.

* `Listed.detach`, `Listed.push`: a block leaves its list, or is linked in front of the one of its class.
* `Listed.reshape`: blocks in no list are replaced by others.
* `Managed`: a heap whose free blocks are listed; the same operations keep it.
-/

namespace SystemProgramming.HeapMgr

open Exec

/-- Link the nodes `p` and `n` to each other, as far as they are not null. -/
def Table.join (T : Table) (p n : ℕ) : Table :=
  { T with next := setLink null T.next p n, prev := setLink null T.prev n p }

/-- Set the backward link of `n`, unless `n` is null. -/
def Table.setPrevOpt (T : Table) (n p : ℕ) : Table := { T with prev := setLink null T.prev n p }

@[simp] theorem Table.join_blocks (T : Table) (p n : ℕ) : (T.join p n).blocks = T.blocks := rfl

@[simp] theorem Table.setPrevOpt_blocks (T : Table) (n p : ℕ) :
    (T.setPrevOpt n p).blocks = T.blocks := rfl

@[simp] theorem Table.linkOk_setPrevOpt {T : Table} {n p v : ℕ} :
    (T.setPrevOpt n p).LinkOk v ↔ T.LinkOk v := Iff.rfl

@[simp] theorem Table.linkOk_join {T : Table} {n p v : ℕ} :
    (T.join n p).LinkOk v ↔ T.LinkOk v := Iff.rfl

theorem Table.join_null (T : Table) (n : ℕ) : T.join null n = T.setPrevOpt n null := by
  unfold Table.join Table.setPrevOpt
  rw [setLink_null]

theorem Table.setPrevOpt_twice (T : Table) (n p q : ℕ) :
    (T.setPrevOpt n p).setPrevOpt n q = T.setPrevOpt n q := by
  unfold Table.setPrevOpt setLink
  split
  · rfl
  · rw [Function.update_idem]

section Listed

variable {ι : Type} {heads heads' : ι → ℕ} {cls : ℕ → ι} {T T' : Table}
  {out out' : Set ℕ} {bl : ι → List ℕ} {keep : Set ℕ} {m₀ m : Mem} {lo hi : ℕ} {b : Block}
  {i j : ι} {a : ℕ}

/-- The lists `bl`, headed by `heads`, are linked in `T` and hold the free blocks outside `out`. -/
structure Listed (heads : ι → ℕ) (cls : ℕ → ι) (T : Table) (out : Set ℕ) (bl : ι → List ℕ) :
    Prop where
  head : ∀ i, heads i = (bl i).headD null
  links : ∀ i, Links T.next T.prev null (bl i) null
  nodup : ∀ i, (bl i).Nodup
  mem : ∀ i a, a ∈ bl i ↔ a ∉ out ∧ ∃ b ∈ T.blocks, b.addr = a ∧ b.used = false ∧ cls b.span = i

namespace Listed

theorem block (h : Listed heads cls T out bl) (ha : a ∈ bl i) :
    ∃ b ∈ T.blocks, b.addr = a ∧ b.used = false ∧ cls b.span = i := ((h.mem i a).mp ha).2

theorem freeAt (h : Listed heads cls T out bl) (ha : a ∈ bl i) : T.FreeAt a := by
  obtain ⟨b, hb, hab, hfree, -⟩ := h.block ha
  exact ⟨b, hb, hab, hfree⟩

theorem null_not_mem (h : Listed heads cls T out bl) (hr : Rep keep m₀ m lo hi T) :
    null ∉ bl i := by
  intro hn
  obtain ⟨b, hb, hab, -⟩ := h.block hn
  exact hr.addr_ne_null hb hab

theorem linkOk_next (h : Listed heads cls T out bl) (ha : a ∈ bl i) : T.LinkOk (T.next a) := by
  rcases (h.links i).next_mem ha with hm | hn
  · exact Or.inr (h.freeAt hm)
  · exact Or.inl hn

theorem linkOk_prev (h : Listed heads cls T out bl) (ha : a ∈ bl i) : T.LinkOk (T.prev a) := by
  rcases (h.links i).prev_mem ha with hm | hn
  · exact Or.inr (h.freeAt hm)
  · exact Or.inl hn

theorem linkOk_head (h : Listed heads cls T out bl) (i : ι) : T.LinkOk (heads i) := by
  rw [h.head i]
  cases hb : bl i with
  | nil => exact Or.inl rfl
  | cons a l => exact Or.inr (h.freeAt (i := i) (by simp [hb]))

/-- A block is in one list only. -/
theorem class_unique (h : Listed heads cls T out bl) (hr : Rep keep m₀ m lo hi T) (hi : a ∈ bl i)
    (hj : a ∈ bl j) : i = j := by
  obtain ⟨b, hb, hab, -, hbi⟩ := h.block hi
  obtain ⟨c, hc, hac, -, hcj⟩ := h.block hj
  obtain rfl := hr.eq_of_addr hb hc (by rw [hab, hac])
  rw [← hbi, ← hcj]

/-- A list has no more members than the heap has blocks, so a loop over it ends. -/
theorem length_le (h : Listed heads cls T out bl) (i : ι) : (bl i).length ≤ T.blocks.length := by
  have hsub : bl i ⊆ T.blocks.map Block.addr := by
    intro a ha
    obtain ⟨b, hb, hba, -⟩ := h.block ha
    exact List.mem_map.mpr ⟨b, hb, hba⟩
  have hle := ((h.nodup i).subperm hsub).length_le
  rwa [List.length_map] at hle

/-- Only the free blocks count in `out`. -/
theorem congr_out (h : Listed heads cls T out bl)
    (hout : ∀ b ∈ T.blocks, b.used = false → (b.addr ∈ out ↔ b.addr ∈ out')) :
    Listed heads cls T out' bl where
  head := h.head
  links := h.links
  nodup := h.nodup
  mem i a := by
    rw [h.mem]
    constructor
    · rintro ⟨ha, b, hb, hba, hfree, hcls⟩
      exact ⟨by rw [← hba, ← hout b hb hfree, hba]; exact ha, b, hb, hba, hfree, hcls⟩
    · rintro ⟨ha, b, hb, hba, hfree, hcls⟩
      exact ⟨by rw [← hba, hout b hb hfree, hba]; exact ha, b, hb, hba, hfree, hcls⟩

/-- The lists do not notice a change of the table that keeps the listed blocks and their links. -/
theorem congr_table (h : Listed heads cls T out bl)
    (hnext : ∀ i, ∀ a ∈ bl i, T'.next a = T.next a) (hprev : ∀ i, ∀ a ∈ bl i, T'.prev a = T.prev a)
    (hblocks : ∀ i a, a ∉ out →
      ((∃ b ∈ T'.blocks, b.addr = a ∧ b.used = false ∧ cls b.span = i) ↔
        ∃ b ∈ T.blocks, b.addr = a ∧ b.used = false ∧ cls b.span = i)) :
    Listed heads cls T' out bl where
  head := h.head
  links i := (h.links i).congr (hnext i) (hprev i)
  nodup := h.nodup
  mem i a := by
    rw [h.mem]
    constructor
    · rintro ⟨ha, hb⟩
      exact ⟨ha, (hblocks i a ha).mpr hb⟩
    · rintro ⟨ha, hb⟩
      exact ⟨ha, (hblocks i a ha).mp hb⟩

theorem not_mem_of_out (h : Listed heads cls T out bl) (ha : a ∈ out) : a ∉ bl i :=
  fun hm => ((h.mem i a).mp hm).1 ha

/-- **Reshaping.**  Blocks in no list are replaced by blocks in no list. -/
theorem reshape (h : Listed heads cls T out bl) (xs ws zs ys : List Block)
    (hT : T.blocks = xs ++ ws ++ ys) (hT' : T'.blocks = xs ++ zs ++ ys)
    (hws : ∀ w ∈ ws, w.used = true ∨ w.addr ∈ out) (hzs : ∀ z ∈ zs, z.used = true ∨ z.addr ∈ out')
    (hsame : ∀ c, c ∈ xs ∨ c ∈ ys → T'.next c.addr = T.next c.addr ∧
      T'.prev c.addr = T.prev c.addr ∧ (c.addr ∈ out' ↔ c.addr ∈ out)) :
    Listed heads cls T' out' bl := by
  have hold : ∀ c, c ∈ T.blocks ↔ c ∈ ws ∨ (c ∈ xs ∨ c ∈ ys) := by
    intro c
    rw [hT]
    simp only [List.mem_append]
    tauto
  have hnew : ∀ c, c ∈ T'.blocks ↔ c ∈ zs ∨ (c ∈ xs ∨ c ∈ ys) := by
    intro c
    rw [hT']
    simp only [List.mem_append]
    tauto
  -- a listed block stands outside the stretch
  have hlisted : ∀ i a, a ∈ bl i → a ∉ out ∧ ∃ c, (c ∈ xs ∨ c ∈ ys) ∧ c.addr = a ∧
      c.used = false ∧ cls c.span = i := by
    intro i a ha
    obtain ⟨hout, c, hc, hca, hfree, hcls⟩ := (h.mem i a).mp ha
    refine ⟨hout, c, ?_, hca, hfree, hcls⟩
    rcases (hold c).mp hc with hw | ho
    · rcases hws c hw with hu | hin
      · rw [hfree] at hu
        cases hu
      · rw [hca] at hin
        exact absurd hin hout
    · exact ho
  refine
    { head := h.head
      links := fun i => (h.links i).congr (fun a ha => ?_) (fun a ha => ?_)
      nodup := h.nodup
      mem := fun i a => ⟨fun ha => ?_, ?_⟩ }
  · obtain ⟨-, c, hc, rfl, -⟩ := hlisted i a ha
    exact (hsame c hc).1
  · obtain ⟨-, c, hc, rfl, -⟩ := hlisted i a ha
    exact (hsame c hc).2.1
  · obtain ⟨hout, c, hc, rfl, hfree, hcls⟩ := hlisted i a ha
    exact ⟨fun hin => hout ((hsame c hc).2.2.mp hin), c, (hnew c).mpr (Or.inr hc), rfl, hfree, hcls⟩
  · rintro ⟨hout, c, hc, rfl, hfree, hcls⟩
    rcases (hnew c).mp hc with hz | ho
    · rcases hzs c hz with hu | hin
      · rw [hfree] at hu
        cases hu
      · exact absurd hin hout
    · exact (h.mem i c.addr).mpr
        ⟨fun hin => hout ((hsame c ho).2.2.mpr hin), c, (hold c).mpr (Or.inr ho), rfl, hfree, hcls⟩

/-- A used block may be taken in hand. -/
theorem hold (h : Listed heads cls T ∅ bl) (hr : Rep keep m₀ m lo hi T) (hb : b ∈ T.blocks)
    (hused : b.used = true) : Listed heads cls T {b.addr} bl := by
  refine h.congr_out fun c hc hfree => ?_
  have hne : c.addr ≠ b.addr := by
    intro hcb
    rw [hr.eq_of_addr hc hb hcb, hused] at hfree
    cases hfree
  simp [hne]

/-- The status of a block in hand may change. -/
theorem withStatus (h : Listed heads cls T {b.addr} bl) {xs ys : List Block} (u : Bool)
    (hT : T.blocks = xs ++ b :: ys) :
    Listed heads cls (T.setBlocks (xs ++ { b with used := u } :: ys)) {b.addr} bl := by
  refine h.reshape xs [b] [{ b with used := u }] ys (by simp [hT]) (by simp) (by simp) (by simp)
    fun c _ => ⟨rfl, rfl, Iff.rfl⟩

/-- A block in hand becomes a used block. -/
theorem withUsed (h : Listed heads cls T {b.addr} bl) (hr : Rep keep m₀ m lo hi T)
    {xs ys : List Block} (hT : T.blocks = xs ++ b :: ys) :
    Listed heads cls (T.setBlocks (xs ++ { b with used := true } :: ys)) ∅ bl := by
  refine h.reshape xs [b] [{ b with used := true }] ys (by simp [hT]) (by simp) (by simp) (by simp)
    fun c hc => ⟨rfl, rfl, ?_⟩
  simp [hr.ne_of_split hT hc]

/-- A block added at the end of the heap is in hand. -/
theorem grown {n : ℕ} (h : Listed heads cls T ∅ bl) (hr : Rep keep m₀ m lo hi T) :
    Listed heads cls (((T.setBlocks (T.blocks ++ [⟨hi, n, false⟩])).setNext hi null).setPrev hi
      null) {hi} bl := by
  refine h.reshape T.blocks [] [⟨hi, n, false⟩] [] (by simp) (by simp) (by simp) (by simp)
    fun c hc => ?_
  have hc' : c ∈ T.blocks := by simpa using hc
  have hb := hr.bounds hc'
  have hne : c.addr ≠ hi := by omega
  simp [hne]

variable [DecidableEq ι]

/-- **Detach.**  A listed block whose neighbours are joined and whose links are cleared is out of
the lists; if it was a head, the next block is the new head. -/
theorem detach (h : Listed heads cls T out bl) (hr : Rep keep m₀ m lo hi T)
    (hmem : b.addr ∈ bl i) :
    Listed (if T.prev b.addr = null then Function.update heads i (T.next b.addr) else heads) cls
      (((T.join (T.prev b.addr) (T.next b.addr)).setNext b.addr null).setPrev b.addr null)
      (insert b.addr out) (Function.update bl i ((bl i).erase b.addr)) := by
  obtain ⟨l₁, l₂, hsplit⟩ := List.append_of_mem hmem
  have hnull : null ∉ bl i := h.null_not_mem hr
  have hnd := h.nodup i
  have hlinks := h.links i
  have hmi := hnd
  have hni := hnull
  rw [hsplit] at hlinks hnd hnull
  have hnotin : b.addr ∉ l₁ ++ l₂ := by
    have hp : (l₁ ++ b.addr :: l₂).Perm (b.addr :: (l₁ ++ l₂)) := List.perm_middle
    exact (List.nodup_cons.mp (hp.nodup_iff.mp hnd)).1
  have herase : (bl i).erase b.addr = l₁ ++ l₂ := by
    rw [hsplit, List.erase_append_right _ (fun hm => hnotin (by simp [hm])), List.erase_cons_head]
  have hother : ∀ j, j ≠ i → ∀ a ∈ bl j,
      a ≠ b.addr ∧ a ≠ T.prev b.addr ∧ a ≠ T.next b.addr := by
    intro j hj a ha
    have hne : ∀ c ∈ bl i, a ≠ c := fun c hc hac => hj (h.class_unique hr (hac ▸ ha) hc)
    have hnn : a ≠ null := fun hn => h.null_not_mem hr (hn ▸ ha)
    refine ⟨hne _ hmem, ?_, ?_⟩
    · rcases (h.links i).prev_mem hmem with hm | hn
      · exact hne _ hm
      · rw [hn]
        exact hnn
    · rcases (h.links i).next_mem hmem with hm | hn
      · exact hne _ hm
      · rw [hn]
        exact hnn
  refine { head := fun j => ?_, links := fun j => ?_, nodup := fun j => ?_, mem := fun j a => ?_ }
  · by_cases hj : j = i
    · subst hj
      rw [Function.update_self, herase, hlinks.detach_head hnull]
      split
      · rw [Function.update_self]
      · rw [h.head, hsplit]
    · rw [Function.update_of_ne hj, ← h.head j]
      split
      · rw [Function.update_of_ne hj]
      · rfl
  · by_cases hj : j = i
    · subst hj
      rw [Function.update_self, herase]
      exact (hlinks.detach hnd hnull).clear hnotin
    · rw [Function.update_of_ne hj]
      refine (h.links j).congr (fun a ha => ?_) (fun a ha => ?_)
      · obtain ⟨h₁, h₂, -⟩ := hother j hj a ha
        show Function.update (setLink null T.next (T.prev b.addr) (T.next b.addr)) b.addr null a
          = T.next a
        rw [Function.update_of_ne h₁, setLink_apply_ne h₂]
      · obtain ⟨h₁, -, h₃⟩ := hother j hj a ha
        show Function.update (setLink null T.prev (T.next b.addr) (T.prev b.addr)) b.addr null a
          = T.prev a
        rw [Function.update_of_ne h₁, setLink_apply_ne h₃]
  · by_cases hj : j = i
    · subst hj
      rw [Function.update_self]
      exact (h.nodup j).erase _
    · rw [Function.update_of_ne hj]
      exact h.nodup j
  · simp only [Set.mem_insert_iff, not_or, and_assoc]
    by_cases hj : j = i
    · subst hj
      rw [Function.update_self, hmi.mem_erase_iff, h.mem]
      exact Iff.rfl
    · rw [Function.update_of_ne hj]
      constructor
      · intro ha
        exact ⟨(hother j hj a ha).1, (h.mem j a).mp ha⟩
      · rintro ⟨-, ha⟩
        exact (h.mem j a).mpr ha

/-- **Push.**  A free block that is out of the lists is linked in front of the list of its class. -/
theorem push (h : Listed heads cls T out bl) (hr : Rep keep m₀ m lo hi T) (hb : b ∈ T.blocks)
    (hfree : b.used = false) (hout : b.addr ∈ out) :
    Listed (Function.update heads (cls b.span) b.addr) cls
      (((T.setPrev b.addr null).setNext b.addr (heads (cls b.span))).setPrevOpt
        (heads (cls b.span)) b.addr)
      (out \ {b.addr})
      (Function.update bl (cls b.span) (b.addr :: bl (cls b.span))) := by
  have hfresh : ∀ j, b.addr ∉ bl j := fun j => h.not_mem_of_out hout
  have hhead := h.head (cls b.span)
  have hother : ∀ j, j ≠ cls b.span → ∀ a ∈ bl j, a ≠ b.addr ∧ a ≠ heads (cls b.span) := by
    intro j hj a ha
    refine ⟨ne_of_mem_of_not_mem ha (hfresh j), fun hah => ?_⟩
    rw [hah, hhead] at ha
    cases hl : bl (cls b.span) with
    | nil =>
      rw [hl] at ha
      exact h.null_not_mem hr ha
    | cons c l =>
      rw [hl] at ha
      exact hj (h.class_unique hr ha (by simp [hl]))
  refine { head := fun j => ?_, links := fun j => ?_, nodup := fun j => ?_, mem := fun j a => ?_ }
  · by_cases hj : j = cls b.span
    · subst hj
      simp
    · rw [Function.update_of_ne hj, Function.update_of_ne hj]
      exact h.head j
  · by_cases hj : j = cls b.span
    · subst hj
      rw [Function.update_self, hhead]
      exact (h.links _).push (h.nodup _) (h.null_not_mem hr) (hfresh _)
    · rw [Function.update_of_ne hj]
      refine (h.links j).congr (fun a ha => ?_) (fun a ha => ?_)
      · exact Function.update_of_ne (hother j hj a ha).1 _ _
      · show setLink null (Function.update T.prev b.addr null) _ b.addr a = T.prev a
        rw [setLink_apply_ne (hother j hj a ha).2]
        exact Function.update_of_ne (hother j hj a ha).1 _ _
  · by_cases hj : j = cls b.span
    · subst hj
      rw [Function.update_self]
      exact List.nodup_cons.mpr ⟨hfresh _, h.nodup _⟩
    · rw [Function.update_of_ne hj]
      exact h.nodup j
  · have hself : ∀ c ∈ T.blocks, c.addr = b.addr → c = b := fun c hc hcb => hr.eq_of_addr hc hb hcb
    by_cases hab : a = b.addr
    · subst hab
      simp only [Set.mem_sdiff, Set.mem_singleton_iff, not_true, and_false, not_false_eq_true,
        true_and]
      constructor
      · intro ha
        by_cases hj : j = cls b.span
        · exact ⟨b, hb, rfl, hfree, hj.symm⟩
        · rw [Function.update_of_ne hj] at ha
          exact absurd ha (hfresh j)
      · rintro ⟨c, hc, hcb, -, hcls⟩
        obtain rfl := hself c hc hcb
        rw [← hcls, Function.update_self]
        simp
    · have hlist : a ∈ Function.update bl (cls b.span) (b.addr :: bl (cls b.span)) j ↔ a ∈ bl j := by
        by_cases hj : j = cls b.span
        · subst hj
          simp [hab]
        · rw [Function.update_of_ne hj]
      rw [hlist, h.mem]
      simp [hab]

end Listed

/-! ### Used blocks without links -/

/-- The links of the used blocks are null. -/
def Idle (T : Table) : Prop :=
  ∀ b ∈ T.blocks, b.used = true → T.next b.addr = null ∧ T.prev b.addr = null

theorem Idle.congr (h : Idle T) (hsame : ∀ b ∈ T'.blocks, b.used = true →
    b ∈ T.blocks ∧ T'.next b.addr = T.next b.addr ∧ T'.prev b.addr = T.prev b.addr) : Idle T' := by
  intro b hb hused
  obtain ⟨hold, hnext, hprev⟩ := hsame b hb hused
  rw [hnext, hprev]
  exact h b hold hused

/-- No link leads to a used block. -/
theorem Rep.ne_of_linkOk (hr : Rep keep m₀ m lo hi T) {p : ℕ} (hb : b ∈ T.blocks)
    (hused : b.used = true) (hp : T.LinkOk p) : b.addr ≠ p := by
  intro hbp
  rcases hp with hnull | ⟨c, hc, hcp, hfree⟩
  · exact hr.addr_ne_null hb (hbp.trans hnull)
  · rw [hr.eq_of_addr hc hb (hcp.trans hbp.symm), hused] at hfree
    cases hfree

/-! ### Blocks outside the lists have no links -/

/-- The lists hold the free blocks outside `out`, and every block in no list has null links. -/
structure Managed (heads : ι → ℕ) (cls : ℕ → ι) (T : Table) (out : Set ℕ) (bl : ι → List ℕ) :
    Prop extends Listed heads cls T out bl where
  idle : ∀ b ∈ T.blocks, (∀ i, b.addr ∉ bl i) → T.next b.addr = null ∧ T.prev b.addr = null

namespace Managed

theorem idle_out (h : Managed heads cls T out bl) (hb : b ∈ T.blocks) (hout : b.addr ∈ out) :
    T.next b.addr = null ∧ T.prev b.addr = null :=
  h.idle b hb fun _ => h.not_mem_of_out hout

theorem idle_used (h : Managed heads cls T out bl) (hr : Rep keep m₀ m lo hi T)
    (hb : b ∈ T.blocks) (hused : b.used = true) : T.next b.addr = null ∧ T.prev b.addr = null := by
  refine h.idle b hb fun i hm => ?_
  obtain ⟨c, hc, hcb, hfree⟩ := h.freeAt hm
  rw [hr.eq_of_addr hc hb hcb, hused] at hfree
  cases hfree

theorem hold (h : Managed heads cls T ∅ bl) (hr : Rep keep m₀ m lo hi T) (hb : b ∈ T.blocks)
    (hused : b.used = true) : Managed heads cls T {b.addr} bl :=
  { h.toListed.hold hr hb hused with idle := h.idle }

/-- **Reshaping.**  Blocks in no list are replaced by blocks in no list whose links are null. -/
theorem reshape (h : Managed heads cls T out bl) (xs ws zs ys : List Block)
    (hT : T.blocks = xs ++ ws ++ ys) (hT' : T'.blocks = xs ++ zs ++ ys)
    (hws : ∀ w ∈ ws, w.used = true ∨ w.addr ∈ out)
    (hzs : ∀ z ∈ zs, (z.used = true ∨ z.addr ∈ out') ∧ T'.next z.addr = null ∧
      T'.prev z.addr = null)
    (hsame : ∀ c, c ∈ xs ∨ c ∈ ys → T'.next c.addr = T.next c.addr ∧
      T'.prev c.addr = T.prev c.addr ∧ (c.addr ∈ out' ↔ c.addr ∈ out)) :
    Managed heads cls T' out' bl := by
  refine { h.toListed.reshape xs ws zs ys hT hT' hws (fun z hz => (hzs z hz).1) hsame with
    idle := fun c hc hcl => ?_ }
  rw [hT', List.append_assoc, List.mem_append, List.mem_append] at hc
  have hout : c ∈ xs ∨ c ∈ ys → T'.next c.addr = null ∧ T'.prev c.addr = null := by
    intro ho
    rw [(hsame c ho).1, (hsame c ho).2.1]
    refine h.idle c ?_ hcl
    rw [hT]
    simp only [List.mem_append]
    tauto
  rcases hc with hx | hz | hy
  · exact hout (Or.inl hx)
  · exact (hzs c hz).2
  · exact hout (Or.inr hy)

/-- A block in hand becomes a used block. -/
theorem withUsed (h : Managed heads cls T {b.addr} bl) (hr : Rep keep m₀ m lo hi T)
    {xs ys : List Block} (hT : T.blocks = xs ++ b :: ys) :
    Managed heads cls (T.setBlocks (xs ++ { b with used := true } :: ys)) ∅ bl := by
  have hidle := h.idle_out (Rep.mem_of_split hT) (Set.mem_singleton _)
  refine h.reshape xs [b] [{ b with used := true }] ys (by simp [hT]) (by simp) (by simp)
    (fun z hz => ?_) fun c hc => ⟨rfl, rfl, ?_⟩
  · obtain rfl := List.mem_singleton.mp hz
    exact ⟨Or.inl rfl, hidle⟩
  · simp [hr.ne_of_split hT hc]

/-- A block added at the end of the heap is in hand. -/
theorem grown {n : ℕ} (h : Managed heads cls T ∅ bl) (hr : Rep keep m₀ m lo hi T) :
    Managed heads cls (((T.setBlocks (T.blocks ++ [⟨hi, n, false⟩])).setNext hi null).setPrev hi
      null) {hi} bl := by
  refine h.reshape T.blocks [] [⟨hi, n, false⟩] [] (by simp) (by simp) (by simp) ?_ fun c hc => ?_
  · simp
  · have hc' : c ∈ T.blocks := by simpa using hc
    have hb := hr.bounds hc'
    have hne : c.addr ≠ hi := by omega
    simp [hne]

variable [DecidableEq ι]

theorem detach (h : Managed heads cls T out bl) (hr : Rep keep m₀ m lo hi T)
    (hmem : b.addr ∈ bl i) :
    Managed (if T.prev b.addr = null then Function.update heads i (T.next b.addr) else heads) cls
      (((T.join (T.prev b.addr) (T.next b.addr)).setNext b.addr null).setPrev b.addr null)
      (insert b.addr out) (Function.update bl i ((bl i).erase b.addr)) := by
  refine { h.toListed.detach hr hmem with idle := fun c hc hcl => ?_ }
  show Function.update (setLink null T.next (T.prev b.addr) (T.next b.addr)) b.addr null c.addr
      = null ∧
    Function.update (setLink null T.prev (T.next b.addr) (T.prev b.addr)) b.addr null c.addr = null
  by_cases hcb : c.addr = b.addr
  · rw [hcb, Function.update_self, Function.update_self]
    exact ⟨rfl, rfl⟩
  · have hout : ∀ j, c.addr ∉ bl j := by
      intro j hj
      refine hcl j ?_
      by_cases hji : j = i
      · subst hji
        rw [Function.update_self]
        exact (List.mem_erase_of_ne hcb).mpr hj
      · rwa [Function.update_of_ne hji]
    have hcn : c.addr ≠ null := hr.addr_ne_null hc
    have hne : ∀ v, v ∈ bl i ∨ v = null → c.addr ≠ v := by
      rintro v (hv | hv) hcv
      · exact hout i (hcv ▸ hv)
      · exact hcn (hcv.trans hv)
    rw [Function.update_of_ne hcb, Function.update_of_ne hcb,
      setLink_apply_ne (hne _ ((h.links i).prev_mem hmem)),
      setLink_apply_ne (hne _ ((h.links i).next_mem hmem))]
    exact h.idle c hc hout

theorem push (h : Managed heads cls T out bl) (hr : Rep keep m₀ m lo hi T) (hb : b ∈ T.blocks)
    (hfree : b.used = false) (hout : b.addr ∈ out) :
    Managed (Function.update heads (cls b.span) b.addr) cls
      (((T.setPrev b.addr null).setNext b.addr (heads (cls b.span))).setPrevOpt
        (heads (cls b.span)) b.addr)
      (out \ {b.addr})
      (Function.update bl (cls b.span) (b.addr :: bl (cls b.span))) := by
  refine { h.toListed.push hr hb hfree hout with idle := fun c hc hcl => ?_ }
  show Function.update T.next b.addr (heads (cls b.span)) c.addr = null ∧
    setLink null (Function.update T.prev b.addr null) (heads (cls b.span)) b.addr c.addr = null
  have hcb : c.addr ≠ b.addr := by
    intro hcb
    refine hcl (cls b.span) ?_
    rw [Function.update_self, hcb]
    simp
  have hold : ∀ j, c.addr ∉ bl j := by
    intro j hj
    refine hcl j ?_
    by_cases hji : j = cls b.span
    · subst hji
      rw [Function.update_self]
      exact List.mem_cons_of_mem _ hj
    · rwa [Function.update_of_ne hji]
  have hhead : c.addr ≠ heads (cls b.span) := by
    intro hch
    rw [h.head] at hch
    cases hl : bl (cls b.span) with
    | nil =>
      rw [hl] at hch
      exact hr.addr_ne_null hc hch
    | cons a l =>
      rw [hl] at hch
      refine hold (cls b.span) ?_
      rw [hl, hch]
      simp
  rw [Function.update_of_ne hcb, setLink_apply_ne hhead, Function.update_of_ne hcb]
  exact h.idle c hc hold

end Managed

end Listed

/-! ### The setters on links that may be null -/

namespace Rep

variable {cfg : Cfg} {keep : Set ℕ} {m₀ m : Mem} {lo hi : ℕ} {T : Table}

/-- `if (n) chunk_set_prev_free(n, p);` -/
theorem wp_setPrevOpt {Q : Unit → Mem → Prop} (h : Rep keep m₀ m lo hi T) {n p : ℕ}
    (hn : T.LinkOk n) (hp : T.LinkOk p)
    (hQ : ∀ m', Rep keep m₀ m' lo hi (T.setPrevOpt n p) →
      (∀ u, (∀ b ∈ T.blocks, u ≠ b.foot) → m' u = m u) → Q () m') :
    (n ≠ null → wp (chunkSetPrevFree cfg n p) Q m) ∧ (¬ n ≠ null → Q () m) := by
  constructor
  · intro hnull
    obtain ⟨b, hb, rfl, -⟩ := hn.resolve_left hnull
    apply h.wp_setPrev hb hp
    intro m' hm' hframe
    refine hQ m' ?_ fun u hu => hframe u (hu b hb)
    unfold Table.setPrevOpt
    rwa [setLink_of_ne hnull]
  · intro hnull
    rw [not_not] at hnull
    subst hnull
    refine hQ m ?_ fun u _ => rfl
    unfold Table.setPrevOpt
    rwa [setLink_null]

end Rep

/-! ### Reading a list -/

section Reading

variable {cfg : Cfg} {ι : Type} {heads : ι → ℕ} {cls : ℕ → ι} {keep : Set ℕ} {m₀ m : Mem}
  {lo hi : ℕ} {T : Table} {out : Set ℕ} {bl : ι → List ℕ} {i : ι} {p : ℕ} {l₁ l₂ : List ℕ}

namespace Listed

theorem gives_next (h : Listed heads cls T out bl) (hr : Rep keep m₀ m lo hi T)
    (hl : bl i = l₁ ++ p :: l₂) : Gives (chunkGetNextFree cfg p) m (l₂.headD null) := by
  have hp : p ∈ bl i := by simp [hl]
  obtain ⟨b, hb, rfl, -⟩ := h.block hp
  have hlinks := h.links i
  rw [hl] at hlinks
  rw [← hlinks.next_eq]
  exact hr.gives_getNext hb (h.linkOk_next hp)

theorem gives_prev (h : Listed heads cls T out bl) (hr : Rep keep m₀ m lo hi T)
    (hl : bl i = l₁ ++ p :: l₂) : Gives (chunkGetPrevFree cfg p) m (l₁.getLastD null) := by
  have hp : p ∈ bl i := by simp [hl]
  obtain ⟨b, hb, rfl, -⟩ := h.block hp
  have hlinks := h.links i
  rw [hl] at hlinks
  rw [← hlinks.prev_eq]
  exact hr.gives_getPrev hb (h.linkOk_prev hp)

/-- The forward neighbour of a member leads back to it. -/
theorem gives_back (h : Listed heads cls T out bl) (hr : Rep keep m₀ m lo hi T)
    (hl : bl i = l₁ ++ p :: l₂) :
    Gives (if l₂.headD null ≠ null then chunkGetPrevFree cfg (l₂.headD null) else pure p) m p := by
  cases l₂ with
  | nil => exact gives_pure p
  | cons a l =>
    have hl₂ : bl i = (l₁ ++ [p]) ++ a :: l := by simp [hl]
    have hback : Gives (chunkGetPrevFree cfg a) m _ := h.gives_prev hr hl₂
    rw [List.getLastD_concat] at hback
    rw [List.headD_cons]
    split
    · exact hback
    · exact gives_pure p

/-- The backward neighbour of a member leads forth to it. -/
theorem gives_forth (h : Listed heads cls T out bl) (hr : Rep keep m₀ m lo hi T)
    (hl : bl i = l₁ ++ p :: l₂) :
    Gives (if l₁.getLastD null ≠ null then chunkGetNextFree cfg (l₁.getLastD null) else pure p)
      m p := by
  rcases List.eq_nil_or_concat l₁ with rfl | ⟨l, a, rfl⟩
  · exact gives_pure p
  · rw [List.concat_eq_append] at *
    have hl₂ : bl i = l ++ a :: (p :: l₂) := by simp [hl]
    have hforth : Gives (chunkGetNextFree cfg a) m _ := h.gives_next hr hl₂
    rw [List.getLastD_concat]
    split
    · exact hforth
    · exact gives_pure p

/-- A member is the head of its list if and only if it has no backward link. -/
theorem head_iff (h : Listed heads cls T out bl) (hr : Rep keep m₀ m lo hi T)
    (hl : bl i = l₁ ++ p :: l₂) : p = heads i ↔ l₁.getLastD null = null := by
  have hp : p ∈ bl i := by simp [hl]
  have hnull : null ∉ bl i := h.null_not_mem hr
  have hlinks := h.links i
  constructor
  · intro hhead
    cases l₁ with
    | nil => rfl
    | cons a l =>
      -- the head stands at one place only
      have hnd := h.nodup i
      rw [h.head i, hl, List.cons_append, List.headD_cons] at hhead
      rw [hl, List.cons_append, List.nodup_cons] at hnd
      exact absurd (by simp [hhead]) hnd.1
  · intro hlast
    have hprev : T.prev p = null := by
      rw [hl] at hlinks
      rw [hlinks.prev_eq, hlast]
    rw [h.head, hlinks.head_of_prev_null hnull hp hprev]

end Listed

/-- The status of the upper neighbour of a free block, as the validity checks ask for it. -/
theorem Rep.gives_nextStatus {b : Block} {xs ys : List Block} (hr : Rep keep m₀ m lo hi T)
    (hc : Coalesced T.blocks) (hT : T.blocks = xs ++ b :: ys) (hfree : b.used = false) :
    Gives (if (ys.map Block.addr).headD null ≠ null then
      chunkGetStatus cfg ((ys.map Block.addr).headD null) else pure chunkUsed) m chunkUsed := by
  cases ys with
  | nil => exact gives_pure chunkUsed
  | cons y zs =>
    have hT₂ : T.blocks = (xs ++ [b]) ++ y :: zs := by simp [hT]
    have hy : y ∈ T.blocks := Rep.mem_of_split hT₂
    have hused : y.used = true := by
      rw [hT] at hc
      exact hc.next_used hfree y rfl
    have hstatus : Gives (chunkGetStatus cfg y.addr) m _ := (hr.tagged hy).gives_getStatus
    rw [hused] at hstatus
    rwa [List.map_cons, List.headD_cons, if_pos (hr.addr_ne_null hy)]

/-- The address from which a walk over the blocks starts. -/
theorem Rep.headD_addr (hr : Rep keep m₀ m lo hi T) (hne : T.blocks ≠ []) :
    (T.blocks.map Block.addr).headD null = lo := by
  have ht := hr.tiles
  cases hT : T.blocks with
  | nil => exact absurd hT hne
  | cons b bs =>
    rw [hT] at ht
    exact ht.1

/-- A heap has blocks unless its two ends meet. -/
theorem Rep.blocks_eq_nil_iff (hr : Rep keep m₀ m lo hi T) : T.blocks = [] ↔ lo = hi := by
  have ht := hr.tiles
  cases hT : T.blocks with
  | nil =>
    rw [hT] at ht
    exact ⟨fun _ => ht, fun _ => rfl⟩
  | cons b bs =>
    have hb := hr.bounds (b := b) (by simp [hT])
    refine ⟨fun hcons => ?_, fun he => ?_⟩
    · cases hcons
    · omega

/-- An empty heap has empty lists. -/
theorem Listed.head_null (h : Listed heads cls T out bl) (hnil : T.blocks = []) (i : ι) :
    heads i = null := by
  rw [h.head i]
  cases hl : bl i with
  | nil => rfl
  | cons a l =>
    obtain ⟨b, hb, -⟩ := h.block (i := i) (a := a) (by simp [hl])
    rw [hnil] at hb
    cases hb

end Reading

end SystemProgramming.HeapMgr
