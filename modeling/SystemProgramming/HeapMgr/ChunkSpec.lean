import SystemProgramming.HeapMgr.Blocks

/-!
# The getters and setters of `chunk.c` on a table of blocks

For a memory that shows a table, each getter applied to a block of the table returns the entry of
the table, and each setter changes that entry and nothing else.  The side conditions are exactly
what the assertions ask for: a link that is stored or followed is null or the address of a free
block.
-/

namespace SystemProgramming.HeapMgr

open Exec CInt

theorem ptrAdd_of_lt {p n : ℕ} (h : p + n < 2 ^ 60) : ptrAdd p (n : ℤ) = p + n := by
  unfold ptrAdd
  omega

theorem ptrAdd_neg {p n : ℕ} (hn : n ≤ p) (hp : p < 2 ^ 60) : ptrAdd p (-(n : ℤ)) = p - n := by
  unfold ptrAdd
  omega

namespace Tagged

variable {cfg : Cfg} {m : Mem} {lo hi : ℕ} {b : Block}

theorem foot_eq (h : Tagged m lo hi b) : b.foot + 1 = b.addr + b.span := by
  have h₁ := h.two_le
  unfold Block.foot
  omega

theorem addr_ne_null (h : Tagged m lo hi b) : b.addr ≠ null := by
  have h₁ := h.lo_pos
  have h₂ := h.lo_le
  unfold null
  omega

theorem two_le_int (h : Tagged m lo hi b) : (b.span : ℤ) ≥ 2 := by exact_mod_cast h.two_le

theorem ptrAdd_span (h : Tagged m lo hi b) : ptrAdd b.addr (b.span : ℤ) = b.addr + b.span := by
  have h₁ := h.le_hi
  have h₂ := h.hi_lt
  exact ptrAdd_of_lt (by omega)

theorem span_sub_one (h : Tagged m lo hi b) : subInt b.span 1 = ((b.span - 1 : ℕ) : ℤ) := by
  have h₁ := h.two_le
  exact_mod_cast subInt_of_le (b := 1) (by omega) h.small

theorem ptrAdd_foot (h : Tagged m lo hi b) : ptrAdd b.addr (subInt b.span 1) = b.foot := by
  have h₁ := h.le_hi
  have h₂ := h.hi_lt
  have h₃ := h.foot_eq
  have h₄ := h.two_le
  rw [h.span_sub_one, ptrAdd_of_lt (by omega)]
  omega

theorem ends_ne_null (h : Tagged m lo hi b) : lo ≠ null ∧ hi ≠ null := by
  have h₁ := h.lo_pos
  have h₂ := h.lo_le
  have h₃ := h.le_hi
  unfold null
  omega

theorem gives_getFooter (h : Tagged m lo hi b) :
    Gives (getFooterFromHeader cfg b.addr) m b.foot := by
  apply gives_of_wp
  simp [getFooterFromHeader, cell, h.span, h.addr_ne_null, h.two_le_int, h.ptrAdd_foot]

theorem gives_getHeader (h : Tagged m lo hi b) :
    Gives (getHeaderFromFooter cfg b.foot) m b.addr := by
  apply gives_of_wp
  have h₁ := h.le_hi
  have h₂ := h.hi_lt
  have h₃ := h.foot_eq
  have h₄ := h.two_le
  have hnull : b.foot ≠ null := by
    unfold null
    omega
  have haddr : ptrAdd b.foot (-subInt b.span 1) = b.addr := by
    rw [h.span_sub_one, ptrAdd_neg (by omega) (by omega)]
    omega
  simp [getHeaderFromFooter, cell, h.footSpan, hnull, h.two_le_int, haddr]

theorem gives_getStatus (h : Tagged m lo hi b) :
    Gives (chunkGetStatus cfg b.addr) m (statusOf b.used) := by
  apply gives_of_wp
  simp [chunkGetStatus, cell, h.status, h.addr_ne_null]

theorem gives_getSpan (h : Tagged m lo hi b) :
    Gives (chunkGetSpanUnits cfg b.addr) m (b.span : ℤ) := by
  apply gives_of_wp
  simp [chunkGetSpanUnits, cell, h.span, h.addr_ne_null, h.two_le_int]

theorem gives_adjacent (h : Tagged m lo hi b) :
    Gives (chunkGetAdjacent cfg b.addr lo hi) m
      (if b.addr + b.span = hi then null else b.addr + b.span) := by
  apply gives_of_wp
  have h₁ := h.le_hi
  by_cases hend : b.addr + b.span = hi
  · simp [chunkGetAdjacent, cell, h.addr_ne_null, h.ends_ne_null, h.lo_le, h.span, h.two_le_int,
      h.ptrAdd_span, hend]
  · have hlt : ¬ hi ≤ b.addr + b.span := by omega
    simp [chunkGetAdjacent, cell, h.addr_ne_null, h.ends_ne_null, h.lo_le, h.span, h.two_le_int,
      h.ptrAdd_span, hend, hlt]

/-- Below the end of the heap there is a block behind. -/
theorem gives_adjacent_of_lt (h : Tagged m lo hi b) (hlt : b.addr + b.span < hi) :
    Gives (chunkGetAdjacent cfg b.addr lo hi) m (b.addr + b.span) := by
  have hg : Gives (chunkGetAdjacent cfg b.addr lo hi) m _ := h.gives_adjacent
  rwa [if_neg (Nat.ne_of_lt hlt)] at hg

theorem gives_isValid (h : Tagged m lo hi b) :
    Gives (chunkIsValid cfg b.addr lo hi) m true := by
  apply gives_of_wp
  have h₁ := h.lo_le
  have h₂ := h.le_hi
  have h₃ := h.two_le_int
  have h₄ := h.foot_eq
  have hstatus : ¬ (statusOf b.used ≠ chunkFree ∧ statusOf b.used ≠ chunkUsed) := by
    cases b.used <;> decide
  have halign : ∀ p, ¬ byteOffset p lo % chunkUnit ≠ 0 :=
    fun p => not_not.mpr (Nat.mul_mod_right _ _)
  simp only [chunkIsValid, cell, wp_bind, wp_assert, wp_reads, h.span, h.status]
  refine ⟨fun _ => h.addr_ne_null, fun _ => h.ends_ne_null.1, fun _ => h.ends_ne_null.2, ?_⟩
  rw [if_neg (by omega), if_neg (by omega), if_neg (by omega), if_neg (by omega), if_neg hstatus]
  simp only [wp_bind]
  rw [h.gives_getFooter.wp_iff]
  simp only [wp_reads, h.footSpan, h.ptrAdd_span]
  rw [if_neg (by omega), if_neg (by omega), if_neg (halign _), if_neg (halign _), if_neg (by omega),
    if_neg (by omega), if_neg (not_not.mpr rfl), if_neg (by omega), wp_pure]
  exact ⟨rfl, rfl⟩

/-- Below the first block there is none. -/
theorem gives_prevAdjacent_first (h : Tagged m lo hi b) (hstart : b.addr = lo) :
    Gives (chunkGetPrevAdjacent cfg b.addr lo hi) m null := by
  apply gives_of_wp
  have h₁ := h.le_hi
  have h₂ := h.two_le
  have hlt : lo < hi := by omega
  simp [chunkGetPrevAdjacent, h.ends_ne_null, hlt, hstart]

/-- The block that ends where `c` starts is found through the footer below `c`. -/
theorem gives_prevAdjacent {c : Block} (h : Tagged m lo hi b) (hc : Tagged m lo hi c)
    (hnext : b.addr + b.span = c.addr) : Gives (chunkGetPrevAdjacent cfg c.addr lo hi) m b.addr := by
  apply gives_of_wp
  have h₁ := h.lo_le
  have h₂ := h.foot_eq
  have h₃ := h.two_le
  have h₄ := hc.le_hi
  have h₅ := hc.two_le
  have h₆ := h.hi_lt
  have hlt : c.addr < hi := by omega
  have hfoot : ptrAdd c.addr (-1) = b.foot := by
    have := ptrAdd_neg (p := c.addr) (n := 1) (by omega) (by omega)
    rw [show (-1 : ℤ) = -((1 : ℕ) : ℤ) from rfl, this]
    omega
  have hfnull : b.foot ≠ null := by
    unfold null
    omega
  simp only [chunkGetPrevAdjacent, wp_bind, wp_assert, ne_eq, hc.addr_ne_null, h.ends_ne_null.1,
    h.ends_ne_null.2, hlt, not_false_eq_true, implies_true, true_and, show ¬ c.addr ≤ lo by omega,
    if_false, hfoot, hfnull, show ¬ b.foot < lo by omega, cell, wp_reads, h.footSpan, h.two_le_int,
    h.gives_getHeader.wp_iff, show ¬ b.addr < lo by omega]
  apply wp_assertM_gives (fun _ => h.gives_isValid)
  simp

end Tagged

namespace Rep

variable {cfg : Cfg} {keep : Set ℕ} {m₀ m : Mem} {lo hi : ℕ} {T : Table}
  {b c : Block} {xs ys : List Block}

/-! ### Getters -/

/-- The status word found through a link that may be stored is that of a free block. -/
theorem status_of_linkOk {p : ℕ} (h : Rep keep m₀ m lo hi T) (hp : T.LinkOk p)
    (hnull : p ≠ null) : (m p).status = chunkFree := by
  obtain ⟨b, hb, rfl, hfree⟩ := hp.resolve_left hnull
  rw [h.header b hb, hfree]
  rfl

theorem gives_getNext (h : Rep keep m₀ m lo hi T) (hb : b ∈ T.blocks)
    (hlink : T.LinkOk (T.next b.addr)) :
    Gives (chunkGetNextFree cfg b.addr) m (T.next b.addr) := by
  apply gives_of_wp
  by_cases hnull : T.next b.addr = null
  · simp [chunkGetNextFree, cell, h.header b hb, h.addr_ne_null hb, hnull]
  · have hfree := h.status_of_linkOk hlink hnull
    simp [chunkGetNextFree, cell, h.header b hb, h.addr_ne_null hb, hnull, hfree]

theorem gives_getPrev (h : Rep keep m₀ m lo hi T) (hb : b ∈ T.blocks)
    (hlink : T.LinkOk (T.prev b.addr)) :
    Gives (chunkGetPrevFree cfg b.addr) m (T.prev b.addr) := by
  apply gives_of_wp
  have hspan : (b.span : ℤ) ≥ 2 := by exact_mod_cast h.two_le b hb
  by_cases hnull : T.prev b.addr = null
  · simp [chunkGetPrevFree, cell, h.header b hb, h.addr_ne_null hb, hspan,
      (h.tagged hb).gives_getFooter.wp_iff, h.footPrev b hb, hnull]
  · have hfree := h.status_of_linkOk hlink hnull
    simp [chunkGetPrevFree, cell, h.header b hb, h.addr_ne_null hb, hspan,
      (h.tagged hb).gives_getFooter.wp_iff, h.footPrev b hb, hnull, hfree]

/-! ### Setters -/

theorem wp_setNext {Q : Unit → Mem → Prop} (h : Rep keep m₀ m lo hi T)
    (hb : b ∈ T.blocks) {n : ℕ} (hn : T.LinkOk n)
    (hQ : ∀ m', Rep keep m₀ m' lo hi (T.setNext b.addr n) → (∀ u, u ≠ b.addr → m' u = m u) →
      Q () m') :
    wp (chunkSetNextFree cfg b.addr n) Q m := by
  have hwrite := hQ _ (h.setNext hb n) fun u hu => Function.update_of_ne hu _ _
  by_cases hnull : n = null
  · subst hnull
    simpa [chunkSetNextFree, h.addr_ne_null hb, setCell] using hwrite
  · have hfree := h.status_of_linkOk hn hnull
    simpa [chunkSetNextFree, h.addr_ne_null hb, setCell, hnull, cell, hfree] using hwrite

theorem wp_setPrev {Q : Unit → Mem → Prop} (h : Rep keep m₀ m lo hi T)
    (hb : b ∈ T.blocks) {p : ℕ} (hp : T.LinkOk p)
    (hQ : ∀ m', Rep keep m₀ m' lo hi (T.setPrev b.addr p) → (∀ u, u ≠ b.foot → m' u = m u) →
      Q () m') :
    wp (chunkSetPrevFree cfg b.addr p) Q m := by
  have hwrite := hQ _ (h.setPrev hb p) fun u hu => Function.update_of_ne hu _ _
  have hspan : (b.span : ℤ) ≥ 2 := by exact_mod_cast h.two_le b hb
  by_cases hnull : p = null
  · subst hnull
    simpa [chunkSetPrevFree, h.addr_ne_null hb, setCell, cell, h.header b hb, hspan,
      (h.tagged hb).gives_getFooter.wp_iff] using hwrite
  · have hfree := h.status_of_linkOk hp hnull
    simpa [chunkSetPrevFree, h.addr_ne_null hb, setCell, cell, h.header b hb, hspan,
      (h.tagged hb).gives_getFooter.wp_iff, hnull, hfree] using hwrite

theorem wp_setStatus {Q : Unit → Mem → Prop} (h : Rep keep m₀ m lo hi T)
    (hT : T.blocks = xs ++ b :: ys) {u : Bool}
    (hkeep : u = false → ∀ v ∈ keep, v < b.addr ∨ b.foot < v)
    (hQ : ∀ m', Rep keep m₀ m' lo hi (T.setBlocks (xs ++ { b with used := u } :: ys)) →
      Q () m') :
    wp (chunkSetStatus cfg b.addr (statusOf u)) Q m := by
  have hb : b ∈ T.blocks := mem_of_split hT
  simpa [chunkSetStatus, h.addr_ne_null hb, setCell, statusOf_cases u]
    using hQ _ (h.setStatus hT u hkeep)

/-! ### Physical neighbours -/

/-- The block after `b` in the table is the one found behind it in memory. -/
theorem gives_adjacent_split (h : Rep keep m₀ m lo hi T) (hT : T.blocks = xs ++ b :: ys) :
    Gives (chunkGetAdjacent cfg b.addr lo hi) m ((ys.map Block.addr).headD null) := by
  have hb : b ∈ T.blocks := mem_of_split hT
  have hg : Gives (chunkGetAdjacent cfg b.addr lo hi) m _ := (h.tagged hb).gives_adjacent
  have ht := h.tiles
  rw [hT] at ht
  rcases ht.next with ⟨rfl, hend⟩ | ⟨c, zs, rfl, hc, hlt⟩
  · rw [if_pos hend] at hg
    exact hg
  · rw [if_neg (by omega), ← hc] at hg
    exact hg

/-- The block before `b` in the table is the one found in memory through the footer below it. -/
theorem gives_prevAdjacent (h : Rep keep m₀ m lo hi T) (hT : T.blocks = xs ++ b :: ys) :
    Gives (chunkGetPrevAdjacent cfg b.addr lo hi) m ((xs.map Block.addr).getLastD null) := by
  have hb : b ∈ T.blocks := mem_of_split hT
  have ht := h.tiles
  rw [hT] at ht
  rcases ht.prev with ⟨rfl, hstart⟩ | ⟨zs, c, rfl, hc, -⟩
  · exact (h.tagged hb).gives_prevAdjacent_first hstart
  · have hcm : c ∈ T.blocks := by
      rw [hT]
      simp
    simpa using (h.tagged hcm).gives_prevAdjacent (h.tagged hb) hc

theorem gives_prevAdjacent_cons {c : Block} (h : Rep keep m₀ m lo hi T)
    (hT : T.blocks = xs ++ c :: b :: ys) :
    Gives (chunkGetPrevAdjacent cfg b.addr lo hi) m c.addr := by
  have hT₂ : T.blocks = (xs ++ [c]) ++ b :: ys := by simp [hT]
  have hg : Gives (chunkGetPrevAdjacent cfg b.addr lo hi) m _ := h.gives_prevAdjacent hT₂
  simpa using hg

theorem neighbours {c : Block} (h : Rep keep m₀ m lo hi T) (hT : T.blocks = xs ++ c :: b :: ys) :
    c.addr < b.addr ∧ b.addr = c.addr + c.span := by
  have ht := h.tiles
  rw [hT] at ht
  have hnext := ht.neighbours
  omega

/-- The blocks around two neighbours lie elsewhere. -/
theorem neighbours_apart {c d : Block} (h : Rep keep m₀ m lo hi T)
    (hT : T.blocks = xs ++ c :: b :: ys) (hd : d ∈ xs ∨ d ∈ ys) :
    d.addr ≠ c.addr ∧ d.addr ≠ b.addr := by
  have ht := h.tiles
  rw [hT] at ht
  obtain ⟨hnext, hpos⟩ := ht.neighbours
  have ht₂ : Tiles Block.addr Block.span lo hi ((xs ++ [c]) ++ b :: ys) := by simpa using ht
  have hc := ht.around_apart (hd.imp_right (List.mem_cons_of_mem b))
  have hb := ht₂.around_apart (hd.imp_left (List.mem_append_left [c]))
  have hposb := (tiles_around.mp ht₂).2.1
  omega

end Rep

end SystemProgramming.HeapMgr
