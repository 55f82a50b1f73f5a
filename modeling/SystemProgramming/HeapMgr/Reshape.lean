import SystemProgramming.HeapMgr.ChunkSpec

/-!
# Cutting, merging and adding blocks

The operations that change spans write several boundary tags before the heap is tiled again.  Each
is described by the memory it leaves: `withSpan` for one call of `chunk_set_span_units` and `Carved`
for the four writes that make a new block.  `Rep.rebuild` is the one argument behind all of them: a
stretch of free blocks may be replaced by any blocks that tile the same stretch, provided their tags
are in place and nothing outside the stretch was written.

* `Rep.rebuild`: a stretch of free blocks is replaced.
* `Rep.merge`, `Rep.cut`, `Rep.grow`: two blocks become one, one becomes two, and one is added at the end.
-/

namespace SystemProgramming.HeapMgr

open Exec CInt

variable {cfg : Cfg} {m : Mem}

/-- Memory after `chunk_set_span_units(c, n)`. -/
def withSpan (m : Mem) (c n : ℕ) : Mem :=
  Function.update (Function.update m c { m c with hi32 := n }) (c + n - 1)
    { m (c + n - 1) with lo32 := n }

/-- `m'` is `m` with a new block of span `n` at `a`, its links null. -/
structure Carved (m m' : Mem) (a n : ℕ) (used : Bool) : Prop where
  header : m' a = ⟨statusOf used, n, null⟩
  footSpan : (m' (a + n - 1)).footSpan = n
  footPrev : (m' (a + n - 1)).prev = null
  other : ∀ u, u ≠ a → u ≠ a + n - 1 → m' u = m u

theorem withSpan_header {m : Mem} {c n : ℕ} (hn : 2 ≤ n) :
    withSpan m c n c = { m c with hi32 := n } := by
  unfold withSpan
  rw [Function.update_of_ne (by omega), Function.update_self]

theorem withSpan_foot {m : Mem} {c n : ℕ} :
    withSpan m c n (c + n - 1) = { m (c + n - 1) with lo32 := n } := by
  unfold withSpan
  rw [Function.update_self]

theorem withSpan_other {m : Mem} {c n u : ℕ} (h₁ : u ≠ c) (h₂ : u ≠ c + n - 1) :
    withSpan m c n u = m u := by
  unfold withSpan
  rw [Function.update_of_ne h₂, Function.update_of_ne h₁]

theorem ptrAdd_last {c n : ℕ} (h₂ : 2 ≤ n) (hn : n < 2 ^ 31) (hc : c + n < 2 ^ 60) :
    ptrAdd c (subInt n 1) = c + n - 1 := by
  have hsub : subInt n 1 = ((n - 1 : ℕ) : ℤ) := by
    exact_mod_cast subInt_of_le (b := 1) (by omega) hn
  rw [hsub, ptrAdd_of_lt (by omega)]
  omega

theorem wp_setSpan {Q : Unit → Mem → Prop} {c n : ℕ} (hc : c ≠ null) (h₂ : 2 ≤ n)
    (hn : n < 2 ^ 31) (hlt : c + n < 2 ^ 60) :
    wp (chunkSetSpanUnits cfg c n) Q m ↔ Q () (withSpan m c n) := by
  have hint : (n : ℤ) ≥ 2 := by exact_mod_cast h₂
  have hne : c + n - 1 ≠ c := by omega
  simp [chunkSetSpanUnits, hc, hint, setCell, getFooterFromHeader, cell,
    ptrAdd_last h₂ hn hlt, withSpan, Function.update_of_ne hne]

/-- The writes of `split_for_alloc` to the new block, in its order. -/
theorem wp_carve {Q : Unit → Mem → Prop} {a n : ℕ} {u : Bool} (ha : a ≠ null) (h₂ : 2 ≤ n)
    (hn : n < 2 ^ 31) (hlt : a + n < 2 ^ 60)
    (hQ : ∀ m', Carved m m' a n u → Q () m') :
    wp (chunkSetSpanUnits cfg a n) (fun _ m₁ => wp (chunkSetStatus cfg a (statusOf u))
      (fun _ m₂ => wp (chunkSetNextFree cfg a null)
        (fun _ m₃ => wp (chunkSetPrevFree cfg a null) Q m₃) m₂) m₁) m := by
  have hint : (n : ℤ) ≥ 2 := by exact_mod_cast h₂
  have hne : a + n - 1 ≠ a := by omega
  rw [wp_setSpan ha h₂ hn hlt]
  simp only [chunkSetStatus, chunkSetNextFree, chunkSetPrevFree, getFooterFromHeader, cell, setCell,
    wp_bind, wp_assert, wp_reads, wp_modify, wp_pure, ne_eq, ha, not_false_eq_true, implies_true,
    true_and, statusOf_cases u, if_true, Function.update_self, withSpan_header h₂, hint,
    ptrAdd_last h₂ hn hlt]
  apply hQ
  refine ⟨by simp [Function.update_of_ne hne.symm], ?_, by simp, ?_⟩
  · simp [Function.update_of_ne hne, withSpan_foot]
  · intro v hva hvf
    simp [Function.update_of_ne hva, Function.update_of_ne hvf, withSpan_other hva hvf]

/-- The writes of `sys_grow_and_link` to the new block, in its order. -/
theorem wp_carve_grown {Q : Unit → Mem → Prop} {a n : ℕ} {u : Bool} (ha : a ≠ null)
    (h₂ : 2 ≤ n) (hn : n < 2 ^ 31) (hlt : a + n < 2 ^ 60)
    (hQ : ∀ m', Carved m m' a n u → Q () m') :
    wp (chunkSetSpanUnits cfg a n) (fun _ m₁ => wp (chunkSetNextFree cfg a null)
      (fun _ m₂ => wp (chunkSetPrevFree cfg a null)
        (fun _ m₃ => wp (chunkSetStatus cfg a (statusOf u)) Q m₃) m₂) m₁) m := by
  have hint : (n : ℤ) ≥ 2 := by exact_mod_cast h₂
  have hne : a + n - 1 ≠ a := by omega
  rw [wp_setSpan ha h₂ hn hlt]
  simp only [chunkSetStatus, chunkSetNextFree, chunkSetPrevFree, getFooterFromHeader, cell, setCell,
    wp_bind, wp_assert, wp_reads, wp_modify, wp_pure, ne_eq, ha, not_false_eq_true, implies_true,
    true_and, statusOf_cases u, if_true, Function.update_self, withSpan_header h₂, hint,
    ptrAdd_last h₂ hn hlt]
  apply hQ
  refine ⟨by simp [Function.update_of_ne hne.symm], ?_, ?_, ?_⟩
  · simp [Function.update_of_ne hne, withSpan_foot]
  · simp [Function.update_of_ne hne]
  · intro v hva hvf
    simp [Function.update_of_ne hva, Function.update_of_ne hvf, withSpan_other hva hvf]

/-- A block whose span has been shrunk is tagged with the shorter span. -/
theorem Tagged.shrink {lo hi r : ℕ} {b : Block} (h : Tagged m lo hi b) (hr : 2 ≤ r)
    (hle : r ≤ b.span) : Tagged (withSpan m b.addr r) lo hi ⟨b.addr, r, b.used⟩ where
  lo_pos := h.lo_pos
  hi_lt := h.hi_lt
  lo_le := h.lo_le
  le_hi := by
    have := h.le_hi
    show b.addr + r ≤ hi
    omega
  two_le := hr
  small := Nat.lt_of_le_of_lt hle h.small
  status := by
    show (withSpan m b.addr r b.addr).status = statusOf b.used
    rw [withSpan_header hr]
    exact h.status
  span := by
    show (withSpan m b.addr r b.addr).span = r
    rw [withSpan_header hr]
  footSpan := by
    show (withSpan m b.addr r (b.addr + r - 1)).footSpan = r
    rw [withSpan_foot]

namespace Rep

variable {keep : Set ℕ} {m₀ m' : Mem} {lo hi p q : ℕ} {T : Table} {a b : Block}
  {xs ys ws zs : List Block} {nx pv : ℕ → ℕ}

/-- **Rebuilding a stretch.**  Free blocks that tile `[p, q)` are replaced by other blocks that
tile it; memory changed only there, and the tags and links of the new blocks are in place. -/
theorem rebuild (h : Rep keep m₀ m lo hi T) (xs ws zs ys : List Block) (m' : Mem) (nx pv : ℕ → ℕ)
    (hT : T.blocks = xs ++ ws ++ ys)
    (hfree : ∀ w ∈ ws, w.used = false)
    (hxs : Tiles Block.addr Block.span lo p xs) (hys : Tiles Block.addr Block.span q hi ys)
    (hzs : Tiles Block.addr Block.span p q zs) (htwo : ∀ z ∈ zs, 2 ≤ z.span ∧ z.span < 2 ^ 31)
    (hm : ∀ u, u < p ∨ q ≤ u → m' u = m u)
    (hhead : ∀ z ∈ zs, m' z.addr = ⟨statusOf z.used, z.span, nx z.addr⟩)
    (hfoot : ∀ z ∈ zs, (m' z.foot).footSpan = z.span)
    (hprev : ∀ z ∈ zs, (m' z.foot).prev = pv z.addr)
    (hnx : ∀ c, c ∈ xs ∨ c ∈ ys → nx c.addr = T.next c.addr)
    (hpv : ∀ c, c ∈ xs ∨ c ∈ ys → pv c.addr = T.prev c.addr) :
    Rep keep m₀ m' lo hi ⟨xs ++ zs ++ ys, nx, pv⟩ := by
  have hsplit : ∀ c, c ∈ xs ++ zs ++ ys → c ∈ zs ∨ (c ∈ xs ∨ c ∈ ys) := by
    intro c hc
    simp only [List.mem_append] at hc
    tauto
  have hmem : ∀ c, c ∈ xs ∨ c ∈ ys → c ∈ T.blocks := by
    intro c hc
    rw [hT]
    simp only [List.mem_append]
    tauto
  -- a block outside the stretch keeps both of its tags
  have hout : ∀ c, c ∈ xs ∨ c ∈ ys → m' c.addr = m c.addr ∧ m' c.foot = m c.foot := by
    intro c hc
    have hb := h.bounds (hmem c hc)
    rcases hc with hx | hy
    · have := hxs.bounds hx
      exact ⟨hm _ (Or.inl (by omega)), hm _ (Or.inl (by omega))⟩
    · have := hys.bounds hy
      exact ⟨hm _ (Or.inr (by omega)), hm _ (Or.inr (by omega))⟩
  have hkeep : ∀ u ∈ keep, u < p ∨ q ≤ u := by
    intro u hu
    obtain ⟨c, hc, hused, h₁, h₂⟩ := h.keep_used u hu
    have hb := h.bounds hc
    rw [hT] at hc
    simp only [List.mem_append] at hc
    rcases hc with (hx | hw) | hy
    · have := hxs.bounds hx
      omega
    · rw [hfree c hw] at hused
      cases hused
    · have := hys.bounds hy
      omega
  refine
    { lo_pos := h.lo_pos
      hi_lt := h.hi_lt
      tiles := ?_
      two_le := fun c hc => ?_
      small := fun c hc => ?_
      header := fun c hc => ?_
      footSpan := fun c hc => ?_
      footPrev := fun c hc => ?_
      kept := fun u hu => ?_
      keep_used := fun u hu => ?_ }
  · show Tiles Block.addr Block.span lo hi (xs ++ zs ++ ys)
    rw [List.append_assoc]
    exact tiles_append.mpr ⟨p, hxs, tiles_append.mpr ⟨q, hzs, hys⟩⟩
  · rcases hsplit c hc with hz | ho
    · exact (htwo c hz).1
    · exact h.two_le c (hmem c ho)
  · rcases hsplit c hc with hz | ho
    · exact (htwo c hz).2
    · exact h.small c (hmem c ho)
  · rcases hsplit c hc with hz | ho
    · exact hhead c hz
    · rw [(hout c ho).1, h.header c (hmem c ho), ← hnx c ho]
  · rcases hsplit c hc with hz | ho
    · exact hfoot c hz
    · rw [(hout c ho).2]
      exact h.footSpan c (hmem c ho)
  · rcases hsplit c hc with hz | ho
    · exact hprev c hz
    · show (m' c.foot).prev = pv c.addr
      rw [(hout c ho).2, hpv c ho]
      exact h.footPrev c (hmem c ho)
  · rw [hm u (hkeep u hu)]
    exact h.kept u hu
  · obtain ⟨c, hc, hused, h₁, h₂⟩ := h.keep_used u hu
    refine ⟨c, ?_, hused, h₁, h₂⟩
    rw [hT] at hc
    simp only [List.mem_append] at hc ⊢
    rcases hc with (hx | hw) | hy
    · exact Or.inl (Or.inl hx)
    · rw [hfree c hw] at hused
      cases hused
    · exact Or.inr hy

/-- **Merging.**  Giving `a` the span of `a` and the free block after it makes them one block; its
backward link is the one in the footer of the second block. -/
theorem merge (h : Rep keep m₀ m lo hi T) (hT : T.blocks = xs ++ a :: b :: ys)
    (ha : a.used = false) (hb : b.used = false) (hsmall : a.span + b.span < 2 ^ 31) :
    Rep keep m₀ (withSpan m a.addr (a.span + b.span)) lo hi
      ((T.setBlocks (xs ++ ⟨a.addr, a.span + b.span, false⟩ :: ys)).setPrev a.addr
        (T.prev b.addr)) := by
  have hma : a ∈ T.blocks := by simp [hT]
  have hmb : b ∈ T.blocks := by simp [hT]
  have hba := h.bounds hma
  have hbb := h.bounds hmb
  have ht := h.tiles
  rw [hT] at ht
  obtain ⟨hxs, -, hrest⟩ := tiles_around.mp ht
  obtain ⟨hab, -, hys⟩ := hrest
  have hfoot : a.addr + (a.span + b.span) - 1 = b.foot := by omega
  have hne : ∀ c, c ∈ xs ∨ c ∈ ys → c.addr ≠ a.addr := by
    intro c hc
    have hapart := ht.around_apart (hc.imp_right (List.mem_cons_of_mem b))
    omega
  have key := h.rebuild (p := a.addr) (q := b.addr + b.span) xs [a, b]
    [⟨a.addr, a.span + b.span, false⟩] ys (withSpan m a.addr (a.span + b.span)) T.next
    (Function.update T.prev a.addr (T.prev b.addr)) (by simp [hT]) ?_ hxs ?_ ?_ ?_ ?_ ?_ ?_ ?_
    (fun _ _ => rfl) ?_
  · simpa [Table.setBlocks, Table.setPrev] using key
  · simp [ha, hb]
  · rw [hab]
    exact hys
  · exact ⟨rfl, by simp; omega, by rw [tiles_nil]; simp; omega⟩
  · simp
    omega
  · intro u hu
    exact withSpan_other (by omega) (by omega)
  · intro z hz
    obtain rfl := List.mem_singleton.mp hz
    rw [withSpan_header (by omega), h.header a hma, ha]
  · intro z hz
    obtain rfl := List.mem_singleton.mp hz
    simp only [Block.foot]
    rw [withSpan_foot]
  · intro z hz
    obtain rfl := List.mem_singleton.mp hz
    simp only [Block.foot, Function.update_self]
    rw [withSpan_foot, hfoot]
    exact h.footPrev b hmb
  · intro c hc
    rw [Function.update_of_ne (hne c hc)]

/-- **Cutting.**  The free block `b` keeps its first `r` units and the last `n` become a new block;
the backward link of the shortened block is whatever its new footer happens to hold. -/
theorem cut {r n : ℕ} {u : Bool} (h : Rep keep m₀ m lo hi T) (hT : T.blocks = xs ++ b :: ys)
    (hb : b.used = false) (hr : 2 ≤ r) (hn : 2 ≤ n) (hspan : b.span = r + n)
    (hcarved : Carved (withSpan m b.addr r) m' (b.addr + r) n u) :
    ∃ v, Rep keep m₀ m' lo hi
      (((T.setBlocks (xs ++ ⟨b.addr, r, false⟩ :: ⟨b.addr + r, n, u⟩ :: ys)).setNext
        (b.addr + r) null).setPrev (b.addr + r) null |>.setPrev b.addr v) := by
  have hmb : b ∈ T.blocks := by simp [hT]
  have hbb := h.bounds hmb
  have ht := h.tiles
  rw [hT] at ht
  obtain ⟨hxs, -, hys⟩ := tiles_around.mp ht
  have hne : ∀ c, c ∈ xs ∨ c ∈ ys → c.addr ≠ b.addr ∧ c.addr ≠ b.addr + r := by
    intro c hc
    have hapart := ht.around_apart hc
    omega
  have hlow : m' b.addr = ⟨statusOf false, r, T.next b.addr⟩ := by
    rw [hcarved.other _ (by omega) (by omega), withSpan_header hr, h.header b hmb, hb]
  have hlowFoot : m' (b.addr + r - 1) = { m (b.addr + r - 1) with lo32 := r } := by
    rw [hcarved.other _ (by omega) (by omega), withSpan_foot]
  refine ⟨(m (b.addr + r - 1)).link, ?_⟩
  have key := h.rebuild (p := b.addr) (q := b.addr + b.span) xs [b]
    [⟨b.addr, r, false⟩, ⟨b.addr + r, n, u⟩] ys m' (Function.update T.next (b.addr + r) null)
    (Function.update (Function.update T.prev (b.addr + r) null) b.addr (m (b.addr + r - 1)).link)
    (by simp [hT]) (by simp [hb]) hxs hys ?_ ?_ ?_ ?_ ?_ ?_ ?_ ?_
  · simpa [Table.setBlocks, Table.setPrev, Table.setNext] using key
  · refine ⟨rfl, ?_, rfl, ?_, ?_⟩
    · show 0 < r
      omega
    · show 0 < n
      omega
    · show b.addr + r + n = b.addr + b.span
      omega
  · have hlt := h.span_lt hmb
    intro z hz
    simp only [List.mem_cons, List.not_mem_nil, or_false] at hz
    rcases hz with rfl | rfl
    · exact ⟨hr, show r < 2 ^ 31 by omega⟩
    · exact ⟨hn, show n < 2 ^ 31 by omega⟩
  · intro v hv
    rw [hcarved.other _ (by omega) (by omega), withSpan_other (by omega) (by omega)]
  · intro z hz
    simp only [List.mem_cons, List.not_mem_nil, or_false] at hz
    rcases hz with rfl | rfl
    · show m' b.addr = ⟨statusOf false, r, Function.update T.next (b.addr + r) null b.addr⟩
      rw [hlow, Function.update_of_ne (by omega)]
    · rw [Function.update_self]
      exact hcarved.header
  · intro z hz
    simp only [List.mem_cons, List.not_mem_nil, or_false] at hz
    rcases hz with rfl | rfl
    · simp only [Block.foot]
      rw [hlowFoot]
    · exact hcarved.footSpan
  · intro z hz
    simp only [List.mem_cons, List.not_mem_nil, or_false] at hz
    rcases hz with rfl | rfl
    · simp only [Block.foot, Function.update_self]
      rw [hlowFoot]
    · simp only [Block.foot]
      rw [Function.update_of_ne (by omega), Function.update_self]
      exact hcarved.footPrev
  · intro c hc
    rw [Function.update_of_ne (hne c hc).2]
  · intro c hc
    rw [Function.update_of_ne (hne c hc).1, Function.update_of_ne (hne c hc).2]

/-- **Growing.**  A new block at the old end of the heap, in place up to the new end. -/
theorem grow {n : ℕ} {u : Bool} (h : Rep keep m₀ m lo hi T) (hn : 2 ≤ n)
    (hlt : hi + n < 2 ^ 60) (hsmall : n < 2 ^ 31) (hcarved : Carved m m' hi n u) :
    Rep keep m₀ m' lo (hi + n)
      (((T.setBlocks (T.blocks ++ [⟨hi, n, u⟩])).setNext hi null).setPrev hi null) := by
  have hold : ∀ c ∈ T.blocks, c.addr ≠ hi ∧ m' c.addr = m c.addr ∧ m' c.foot = m c.foot := by
    intro c hc
    have hb := h.bounds hc
    exact ⟨by omega, hcarved.other _ (by omega) (by omega),
      hcarved.other _ (by omega) (by omega)⟩
  have hsplit : ∀ c, c ∈ T.blocks ++ [⟨hi, n, u⟩] → c ∈ T.blocks ∨ c = ⟨hi, n, u⟩ := by
    intro c hc
    simpa using hc
  refine
    { lo_pos := h.lo_pos
      hi_lt := hlt
      tiles := ?_
      two_le := fun c hc => ?_
      small := fun c hc => ?_
      header := fun c hc => ?_
      footSpan := fun c hc => ?_
      footPrev := fun c hc => ?_
      kept := fun v hv => ?_
      keep_used := fun v hv => ?_ }
  · refine tiles_append.mpr ⟨hi, h.tiles, rfl, ?_, rfl⟩
    show 0 < n
    omega
  · rcases hsplit c hc with ho | rfl
    · exact h.two_le c ho
    · exact hn
  · rcases hsplit c hc with ho | rfl
    · exact h.small c ho
    · exact hsmall
  · rcases hsplit c hc with ho | rfl
    · have := hold c ho
      simp [this, h.header c ho]
    · simpa using hcarved.header
  · rcases hsplit c hc with ho | rfl
    · rw [(hold c ho).2.2]
      exact h.footSpan c ho
    · exact hcarved.footSpan
  · rcases hsplit c hc with ho | rfl
    · rw [(hold c ho).2.2, h.footPrev c ho]
      simp [(hold c ho).1]
    · simpa [Block.foot] using hcarved.footPrev
  · obtain ⟨c, hc, -, h₁, h₂⟩ := h.keep_used v hv
    have hb := h.bounds hc
    rw [hcarved.other _ (by omega) (by omega)]
    exact h.kept v hv
  · obtain ⟨c, hc, hrest⟩ := h.keep_used v hv
    exact ⟨c, by simp [hc], hrest⟩

end Rep

end SystemProgramming.HeapMgr
