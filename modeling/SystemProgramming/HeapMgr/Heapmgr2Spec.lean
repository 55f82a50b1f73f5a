import SystemProgramming.HeapMgr.Heapmgr2
import SystemProgramming.HeapMgr.FreeLists
import SystemProgramming.HeapMgr.CommonSpec

/-!
# What the functions of `heapmgr2.c` do to blocks and bins

One theorem for each function, with assertions compiled in or not: started on a heap that shows a
table whose free blocks, but for the ones in hand, are binned, the function returns, every assertion
it meets holds, and the heap shows the table that the theorem names.

* `wp_binDetach`, `wp_binPushFront`: a block leaves its bin, or is released.
* `wp_coalesceTwo`, `wp_splitForAlloc`: two blocks in hand become one, or one becomes two.
-/

namespace SystemProgramming.HeapMgr.Heapmgr2

open Exec CInt

/-- The bin of a span. -/
def binOf (span : ℕ) : Fin numBins := getBinIndex span

/-- The heap shows the table `T`, and its bins hold the free blocks outside `out`. -/
structure Work (keep : Set ℕ) (m₀ : Mem) (s : Heap2) (T : Table) (out : Set ℕ)
    (bl : Fin numBins → List ℕ) : Prop where
  rep : Rep keep m₀ s.mem s.sHeapLo s.sHeapHi T
  lists : Managed s.sFree binOf T out bl

variable {cfg : Cfg} {keep : Set ℕ} {m₀ : Mem} {T : Table} {s : Heap2}
  {out : Set ℕ} {bl : Fin numBins → List ℕ} {a b x y : Block} {xs ys : List Block}

theorem Work.gives_free (h : Work keep m₀ s T out bl) (hb : b ∈ T.blocks) (hfree : b.used = false) :
    Gives (chunkGetStatus cfg b.addr) s.mem chunkFree := by
  have hstatus : Gives (chunkGetStatus cfg b.addr) s.mem _ := h.rep.gives_status hb
  rwa [hfree] at hstatus

/-- A heap between calls: every free block is binned, and no two neighbours are both free. -/
structure WellFormed (keep : Set ℕ) (m₀ : Mem) (s : Heap2) (T : Table) (bl : Fin numBins → List ℕ) :
    Prop where
  work : Work keep m₀ s T ∅ bl
  coalesced : Coalesced T.blocks

/-- A loop over the blocks or over a bin ends. -/
theorem WellFormed.blocks_lt (h : WellFormed keep m₀ s T bl)
    (hcfg : Fuelled cfg s) : T.blocks.length < cfg.fuel := hcfg.blocks_lt h.work.rep

theorem WellFormed.bin_lt (h : WellFormed keep m₀ s T bl) (hcfg : Fuelled cfg s)
    (i : Fin numBins) : (bl i).length < cfg.fuel :=
  Nat.lt_of_le_of_lt (h.work.lists.length_le i) (h.blocks_lt hcfg)

/-! ### Detaching and merging -/

/-- **`bin_detach`**: a binned block leaves its bin, with its links cleared. -/
theorem wp_binDetach {Q : Unit → Heap2 → Prop} (h : Work keep m₀ s T out bl) (hb : b ∈ T.blocks)
    (hmem : b.addr ∈ bl (binOf b.span))
    (hQ : ∀ s' T', Keeps s s' → T'.blocks = T.blocks →
      Work keep m₀ s' T' (insert b.addr out)
        (Function.update bl (binOf b.span) ((bl (binOf b.span)).erase b.addr)) → Q () s') :
    wp (binDetach cfg b.addr) Q s := by
  have hr := h.rep
  have hl := h.lists
  have hfree : b.used = false := by
    obtain ⟨c, hc, hcb, hfree, -⟩ := hl.block hmem
    rwa [hr.eq_of_addr hc hb hcb] at hfree
  have hprev : T.LinkOk (T.prev b.addr) := hl.linkOk_prev hmem
  have hnext : T.LinkOk (T.next b.addr) := hl.linkOk_next hmem
  have hdetach := hl.detach hr hmem
  -- the two clearing writes, once the neighbours point at each other
  have hclear : ∀ m heads,
      Rep keep m₀ m s.sHeapLo s.sHeapHi (T.join (T.prev b.addr) (T.next b.addr)) →
      heads = (if T.prev b.addr = null then
        Function.update s.sFree (binOf b.span) (T.next b.addr) else s.sFree) →
      wp (chunkSetNextFree cfg b.addr null) (fun _ m => wp (chunkSetPrevFree cfg b.addr null)
        (fun _ m => Q () { s with mem := m, sFree := heads }) m) m := by
    intro m heads hm hheads
    have hb₁ : b ∈ (T.join (T.prev b.addr) (T.next b.addr)).blocks := hb
    refine hm.wp_setNext hb₁ (Or.inl rfl) fun m₁ hm₁ _ => ?_
    have hb₂ : b ∈ ((T.join (T.prev b.addr) (T.next b.addr)).setNext b.addr null).blocks := hb
    refine hm₁.wp_setPrev hb₂ (Or.inl rfl) fun m₂ hm₂ _ => ?_
    rw [← hheads] at hdetach
    exact hQ _ _ (keeps_set s m₂ heads) (by simp) ⟨hm₂, hdetach⟩
  unfold binDetach
  simp only [wp_bind, wp_assert, wp_lift]
  refine ⟨fun _ => hr.addr_ne_null hb,
    wp_assertM_gives (fun _ => (gives_lift (h.gives_free hb hfree)).beq) ?_⟩
  rw [(hr.gives_getPrev hb hprev).wp_iff, (hr.gives_getNext hb hnext).wp_iff,
    (hr.tagged hb).gives_getSpan.wp_iff, wp_ite]
  constructor
  · intro hnull
    have hhead : s.sFree (binOf b.span) = b.addr := by
      rw [hl.head]
      exact (hl.links _).head_of_prev_null (hl.null_not_mem hr) hmem hnull
    simp only [getBin, setBin, wp_bind, wp_reads, wp_assert, wp_modify, wp_when, wp_lift]
    refine ⟨fun _ => hhead, ?_⟩
    refine hr.wp_setPrevOpt hnext (Or.inl rfl) fun m hm _ => ?_
    apply hclear m _ _ (by rw [if_pos hnull]; rfl)
    simpa [Table.join, Table.setPrevOpt, hnull] using hm
  · intro hnull
    obtain ⟨p, hp, hpa, -⟩ := hprev.resolve_left hnull
    simp only [wp_bind, wp_lift, wp_when]
    rw [← hpa]
    refine hr.wp_setNext hp hnext fun m₁ hm₁ _ => ?_
    have hpl : (T.setNext p.addr (T.next b.addr)).LinkOk p.addr := by
      rw [hpa]
      exact hprev
    refine hm₁.wp_setPrevOpt hnext hpl fun m₂ hm₂ _ => ?_
    apply hclear m₂ _ _ (by rw [if_neg hnull])
    unfold Table.setPrevOpt Table.setNext at hm₂
    unfold Table.join
    rw [setLink_of_ne hnull, ← hpa]
    exact hm₂

/-- **`coalesce_two`**: two neighbouring free blocks in hand become one.  The old header of the upper
one keeps its status. -/
theorem wp_coalesceTwo {Q : ℕ → Heap2 → Prop} (h : Work keep m₀ s T {a.addr, b.addr} bl)
    (hT : T.blocks = xs ++ a :: b :: ys) (ha : a.used = false) (hb : b.used = false)
    (hsmall : a.span + b.span < 2 ^ 31)
    (hQ : ∀ s' T', Keeps s s' → T'.blocks = xs ++ ⟨a.addr, a.span + b.span, false⟩ :: ys →
      Work keep m₀ s' T' {a.addr} bl → (s'.mem b.addr).status = chunkFree → Q a.addr s') :
    wp (coalesceTwo cfg a.addr b.addr) Q s := by
  have hr := h.rep
  have hT₂ : T.blocks = (xs ++ [a]) ++ b :: ys := by simp [hT]
  have hma : a ∈ T.blocks := Rep.mem_of_split hT
  have hmb : b ∈ T.blocks := Rep.mem_of_split hT₂
  have hba := hr.bounds hma
  have hbb := hr.bounds hmb
  obtain ⟨hlt, hab⟩ := hr.neighbours hT
  have hnext : Gives (chunkGetAdjacent cfg a.addr s.sHeapLo s.sHeapHi) s.mem b.addr :=
    hr.gives_adjacent_split hT
  have hprev : Gives (chunkGetPrevAdjacent cfg b.addr s.sHeapLo s.sHeapHi) s.mem a.addr :=
    hr.gives_prevAdjacent_cons hT
  have hspan : addInt a.span b.span = (a.span + b.span : ℕ) := addInt_of_lt (by omega)
  have hhi := hr.hi_lt
  unfold coalesceTwo
  simp only [heapLo, heapHi, wp_bind, wp_reads, wp_assert, if_neg (show ¬ b.addr < a.addr by omega)]
  refine ⟨fun _ => ⟨hr.addr_ne_null hma, hr.addr_ne_null hmb, by omega⟩, ?_⟩
  refine wp_assertM_gives (fun _ => (gives_lift (h.gives_free hma ha)).beq) ?_
  refine wp_assertM_gives (fun _ => (gives_lift (h.gives_free hmb hb)).beq) ?_
  refine wp_assertM_gives (fun _ => (gives_lift hnext).beq) ?_
  refine wp_assertM_gives (fun _ => (gives_lift hprev).beq) ?_
  simp only [wp_lift, wp_pure]
  rw [(hr.tagged hma).gives_getSpan.wp_iff, (hr.tagged hmb).gives_getSpan.wp_iff, hspan,
    wp_setSpan (hr.addr_ne_null hma) (by omega) (by omega) (by omega)]
  have hmerge := hr.merge hT ha hb hsmall
  have hold : withSpan s.mem a.addr (a.span + b.span) b.addr = s.mem b.addr :=
    withSpan_other (by omega) (by omega)
  set T₁ := (T.setBlocks (xs ++ ⟨a.addr, a.span + b.span, false⟩ :: ys)).setPrev a.addr
    (T.prev b.addr)
  have hm₁ : (⟨a.addr, a.span + b.span, false⟩ : Block) ∈ T₁.blocks := by
    show _ ∈ xs ++ _ :: ys
    simp
  refine hmerge.wp_setPrev hm₁ (Or.inl rfl) fun m₂ hm₂ hf₂ => ?_
  have hm₃ : (⟨a.addr, a.span + b.span, false⟩ : Block) ∈ (T₁.setPrev a.addr null).blocks := hm₁
  refine hm₂.wp_setNext hm₃ (Or.inl rfl) fun m₃ hm₃ hf₃ => ?_
  have hstale : m₃ b.addr = s.mem b.addr := by
    have h₁ : b.addr ≠ a.addr := by omega
    have h₂ : b.addr ≠ a.addr + (a.span + b.span) - 1 := by omega
    rw [hf₃ _ h₁, hf₂ _ h₂, hold]
  refine hQ _ ((T₁.setPrev a.addr null).setNext a.addr null) (keeps_setMem s m₃) rfl ⟨hm₃, ?_⟩ ?_
  · have hne : ∀ c, c ∈ xs ∨ c ∈ ys → c.addr ≠ a.addr ∧ c.addr ≠ b.addr :=
      fun c hc => hr.neighbours_apart hT hc
    refine h.lists.reshape xs [a, b] [⟨a.addr, a.span + b.span, false⟩] ys (by simp [hT])
      (by simp [T₁]) (by simp) ?_ ?_
    · simp
    · intro c hc
      simp [T₁, hne c hc]
  · show (m₃ b.addr).status = chunkFree
    rw [hstale, hr.header b hmb, hb]
    rfl

/-- A free block that is not in hand is in its bin. -/
theorem Work.mem_bin (h : Work keep m₀ s T out bl) (hb : b ∈ T.blocks) (hfree : b.used = false)
    (hout : b.addr ∉ out) : b.addr ∈ bl (binOf b.span) :=
  (h.lists.mem _ _).mpr ⟨hout, b, hb, rfl, hfree, rfl⟩

theorem wp_mergeNext {Q : ℕ → Heap2 → Prop} (h : Work keep m₀ s T {b.addr} bl)
    (hT : T.blocks = xs ++ b :: ys) (hb : b.used = false)
    (hsmall : (absorbNext b ys).1.span < 2 ^ 31)
    (hQ : ∀ s' T' bl', Keeps s s' →
      T'.blocks = xs ++ (absorbNext b ys).1 :: (absorbNext b ys).2 →
      Work keep m₀ s' T' {b.addr} bl' → Q b.addr s') :
    wp (mergeNext cfg b.addr) Q s := by
  refine wp_withFreeNext h.rep hT (fun hused => ?_) fun y zs hys hfree => ?_
  · rw [absorbNext_of_used hused] at hQ
    exact hQ s T bl (Keeps.refl s) hT h
  · subst hys
    have hy : y ∈ T.blocks := by simp [hT]
    have hyb : y.addr ≠ b.addr := (h.rep.neighbours hT).1.ne'
    rw [absorbNext_free hfree] at hsmall
    rw [absorbNext_free hfree, hb] at hQ
    rw [wp_bind]
    refine wp_binDetach h hy (h.mem_bin hy hfree (by simpa using hyb)) fun s₁ T₁ hk₁ hT₁ h₁ => ?_
    rw [Set.pair_comm] at h₁
    rw [hT] at hT₁
    refine wp_coalesceTwo h₁ hT₁ hb hfree hsmall fun s₂ T₂ hk₂ hT₂ h₂ _ => ?_
    exact hQ s₂ T₂ _ (hk₁.trans hk₂) hT₂ h₂

theorem wp_mergePrev {Q : ℕ → Heap2 → Prop} (h : Work keep m₀ s T {b.addr} bl)
    (hT : T.blocks = xs ++ b :: ys) (hb : b.used = false)
    (hsmall : (absorbPrev xs b).2.span < 2 ^ 31)
    (hQ : ∀ s' T' bl', Keeps s s' →
      T'.blocks = (absorbPrev xs b).1 ++ (absorbPrev xs b).2 :: ys →
      Work keep m₀ s' T' {(absorbPrev xs b).2.addr} bl' →
      (s'.mem b.addr).status = chunkFree → Q (absorbPrev xs b).2.addr s') :
    wp (mergePrev cfg b.addr) Q s := by
  have hr := h.rep
  have hstatus : (s.mem b.addr).status = chunkFree := by
    rw [hr.header b (Rep.mem_of_split hT), hb]
    rfl
  refine wp_withFreePrev hr hT (fun hused => ?_) fun zs x hxs hfree => ?_
  · rw [absorbPrev_of_used hused] at hQ
    exact hQ s T bl (Keeps.refl s) hT h hstatus
  · subst hxs
    have hT₂ : T.blocks = zs ++ x :: b :: ys := by simp [hT]
    have hx : x ∈ T.blocks := Rep.mem_of_split hT₂
    have hxb : x.addr ≠ b.addr := (hr.neighbours hT₂).1.ne
    rw [absorbPrev_free hfree] at hsmall
    rw [absorbPrev_free hfree, hb] at hQ
    rw [wp_bind]
    refine wp_binDetach h hx (h.mem_bin hx hfree (by simpa using hxb)) fun s₁ T₁ hk₁ hT₁ h₁ => ?_
    rw [hT₂] at hT₁
    refine wp_coalesceTwo h₁ hT₁ hfree hb hsmall fun s₂ T₂ hk₂ hT₂ h₂ hstale => ?_
    exact hQ s₂ T₂ _ (hk₁.trans hk₂) hT₂ h₂ hstale

theorem wp_binLinkFront {Q : Unit → Heap2 → Prop} (h : Work keep m₀ s T {b.addr} bl)
    (hb : b ∈ T.blocks) (hfree : b.used = false)
    (hQ : ∀ s' T' bl', Keeps s s' → T'.blocks = T.blocks → Work keep m₀ s' T' ∅ bl' →
      (∀ u, (∀ c ∈ T.blocks, u ≠ c.addr ∧ u ≠ c.foot) → s'.mem u = s.mem u) → Q () s') :
    wp (binLinkFront cfg b.addr) Q s := by
  have hr := h.rep
  have hpush := h.lists.push hr hb hfree (Set.mem_singleton _)
  rw [Set.sdiff_self] at hpush
  unfold binLinkFront
  simp only [wp_bind, wp_lift]
  rw [(hr.tagged hb).gives_getSpan.wp_iff]
  refine hr.wp_setPrev hb (Or.inl rfl) fun m₁ hm₁ hf₁ => ?_
  simp only [getBin, setBin, wp_reads, wp_lift, wp_when, wp_modify]
  have hhead : (T.setPrev b.addr null).LinkOk (s.sFree (binOf b.span)) := h.lists.linkOk_head _
  have hb₁ : b ∈ (T.setPrev b.addr null).blocks := hb
  refine hm₁.wp_setNext hb₁ hhead fun m₂ hm₂ hf₂ => ?_
  have hlink : ((T.setPrev b.addr null).setNext b.addr (s.sFree (binOf b.span))).LinkOk b.addr :=
    Or.inr ⟨b, hb, rfl, hfree⟩
  refine hm₂.wp_setPrevOpt hhead hlink fun m₃ hm₃ hf₃ => ?_
  rw [show getBinIndex b.span = binOf b.span from rfl, Function.update_self]
  have hfirst := hpush.links (binOf b.span)
  rw [Function.update_self] at hfirst
  obtain ⟨hprev, -⟩ := hfirst
  have hgives : Gives (chunkGetPrevFree cfg b.addr) m₃ _ := hm₃.gives_getPrev hb₁ (Or.inl hprev)
  rw [show (((T.setPrev b.addr null).setNext b.addr (s.sFree (getBinIndex b.span))).setPrevOpt
    (s.sFree (getBinIndex b.span)) b.addr).prev b.addr = null from hprev] at hgives
  refine wp_assertM_gives (fun _ => (gives_lift hgives).beq) ?_
  refine hQ _ _ _ (keeps_set s m₃ _) ?_ ⟨hm₃, hpush⟩ fun u hu => ?_
  · rfl
  · show m₃ u = s.mem u
    rw [hf₃ u fun c hc => (hu c hc).2, hf₂ u (hu b hb).1, hf₁ u (hu b hb).2]

/-- **`bin_push_front`**: the block in hand is released.  Its old header reads as free afterwards,
also where it now lies inside a larger block. -/
theorem wp_binPushFront {Q : Unit → Heap2 → Prop} (h : Work keep m₀ s T {b.addr} bl)
    (hT : T.blocks = xs ++ b :: ys) (hkeep : ∀ v ∈ keep, v < b.addr ∨ b.foot < v)
    (hsmall : (released xs b ys).span < 2 ^ 31)
    (hQ : ∀ s' T' bl', Keeps s s' → T'.blocks = release xs b ys → Work keep m₀ s' T' ∅ bl' →
      (s'.mem b.addr).status = chunkFree → Q () s') :
    wp (binPushFront cfg b.addr) Q s := by
  have hr := h.rep
  have hb : b ∈ T.blocks := Rep.mem_of_split hT
  have hbb := hr.bounds hb
  have hvalid : Gives (chunkIsValid cfg b.addr s.sHeapLo s.sHeapHi) s.mem true :=
    (hr.tagged hb).gives_isValid
  unfold binPushFront
  simp only [heapLo, heapHi, wp_bind, wp_reads, wp_assert]
  refine ⟨fun _ => hr.addr_ne_null hb, fun _ => ⟨hbb.1, by omega⟩, ?_⟩
  refine wp_assertM_gives (fun _ => gives_lift hvalid) ?_
  simp only [wp_lift]
  -- the block is marked free and its links are cleared
  refine hr.wp_setStatus (u := false) hT (fun _ => hkeep) fun m₁ hm₁ => ?_
  set c : Block := { b with used := false } with hc
  have hc₁ : c ∈ (T.setBlocks (xs ++ c :: ys)).blocks := by simp
  refine hm₁.wp_setPrev hc₁ (Or.inl rfl) fun m₂ hm₂ _ => ?_
  have hc₂ : c ∈ ((T.setBlocks (xs ++ c :: ys)).setPrev c.addr null).blocks := hc₁
  refine hm₂.wp_setNext hc₂ (Or.inl rfl) fun m₃ hm₃ _ => ?_
  have h₃ : Work keep m₀ { s with mem := m₃ }
      (((T.setBlocks (xs ++ c :: ys)).setPrev c.addr null).setNext c.addr null) {c.addr} bl := by
    refine ⟨hm₃, h.lists.reshape xs [b] [c] ys (by simp [hT])
      (by simp) (by simp) (by simp) fun d hd => ?_⟩
    have hne : d.addr ≠ b.addr := by
      have ht := hr.tiles
      rw [hT] at ht
      have hapart := ht.around_apart hd
      omega
    exact ⟨Function.update_of_ne hne _ _, Function.update_of_ne hne _ _, Iff.rfl⟩
  have hT₃ : (((T.setBlocks (xs ++ c :: ys)).setPrev c.addr null).setNext c.addr null).blocks
      = xs ++ c :: ys := rfl
  -- both neighbours are merged
  have hsmall₃ : (absorbNext c ys).1.span < 2 ^ 31 := Nat.lt_of_le_of_lt absorbNext_span_le hsmall
  refine wp_mergeNext (b := c) h₃ hT₃ rfl hsmall₃ fun s₄ T₄ bl₄ hk₄ hT₄ h₄ => ?_
  have haddr : (absorbNext c ys).1.addr = b.addr := absorbNext_addr
  have hfree₄ : (absorbNext c ys).1.used = false := absorbNext_used_eq
  have hrelease : release xs b ys = (absorbPrev xs (absorbNext c ys).1).1 ++
    (absorbPrev xs (absorbNext c ys).1).2 :: (absorbNext c ys).2 := rfl
  have hsmall₄ : (absorbPrev xs (absorbNext c ys).1).2.span < 2 ^ 31 := hsmall
  rw [hrelease] at hQ
  generalize (absorbNext c ys).1 = d at haddr hfree₄ hT₄ hQ hsmall₄
  generalize (absorbNext c ys).2 = zs at hT₄ hQ
  have hcd : c.addr = d.addr := haddr.symm
  rw [hcd] at h₄
  rw [← haddr] at hQ ⊢
  have hinner := absorbPrev_inner (hT₄ ▸ h₄.rep.tiles) (h₄.rep.two_le d (Rep.mem_of_split hT₄))
  refine wp_mergePrev h₄ hT₄ hfree₄ hsmall₄ fun s₅ T₅ bl₅ hk₅ hT₅ h₅ hstale => ?_
  have hfree₅ : (absorbPrev xs d).2.used = false := absorbPrev_used_eq.trans hfree₄
  generalize (absorbPrev xs d).2 = e at hinner hfree₅ hT₅ h₅ hQ
  generalize (absorbPrev xs d).1 = ws at hT₅ hQ
  have he : e ∈ T₅.blocks := Rep.mem_of_split hT₅
  refine wp_binLinkFront h₅ he hfree₅ fun s₆ T₆ bl₆ hk₆ hT₆ h₆ hframe => ?_
  have hk : Keeps s s₆ := (keeps_setMem s m₃).trans (hk₄.trans (hk₅.trans hk₆))
  refine hQ s₆ T₆ bl₆ hk (hT₆.trans hT₅) h₆ ?_
  rcases hinner with heq | ⟨hlt, hgt⟩
  · have he₆ : e ∈ T₆.blocks := by rwa [hT₆]
    rw [← heq, h₆.rep.header e he₆, hfree₅]
    rfl
  · rwa [hframe d.addr fun c hc => h₅.rep.inner_ne he hlt hgt hc]

/-! ### Splitting -/

/-- **`split_for_alloc`**: the end of the block in hand becomes a used block of its own. -/
theorem wp_splitForAlloc {Q : ℕ → Heap2 → Prop} {need r : ℕ} (h : Work keep m₀ s T {b.addr} bl)
    (hT : T.blocks = xs ++ b :: ys) (hb : b.used = false) (hr₂ : 2 ≤ r)
    (hspan : b.span = r + (need + 2))
    (hQ : ∀ s' T', Keeps s s' →
      T'.blocks = xs ++ ⟨b.addr, r, false⟩ :: ⟨b.addr + r, need + 2, true⟩ :: ys →
      Work keep m₀ s' T' {b.addr} bl → Q (b.addr + r) s') :
    wp (splitForAlloc cfg b.addr need) Q s := by
  have hr := h.rep
  have hmb : b ∈ T.blocks := Rep.mem_of_split hT
  have hbb := hr.bounds hmb
  have hsmall := hr.span_lt hmb
  have hhi := hr.hi_lt
  have hlo := hr.lo_pos
  have hgetPrev : Gives (chunkGetPrevFree cfg b.addr) s.mem null := by
    have hidle := h.lists.idle_out hmb (Set.mem_singleton _)
    have hg : Gives (chunkGetPrevFree cfg b.addr) s.mem _ :=
      hr.gives_getPrev hmb (Or.inl hidle.2)
    rwa [hidle.2] at hg
  have htag : Tagged (withSpan s.mem b.addr r) s.sHeapLo s.sHeapHi ⟨b.addr, r, b.used⟩ :=
    (hr.tagged hmb).shrink hr₂ (by omega)
  have hvalid : Gives (chunkIsValid cfg b.addr s.sHeapLo s.sHeapHi)
    (withSpan s.mem b.addr r) true := htag.gives_isValid
  have hadj : Gives (chunkGetAdjacent cfg b.addr s.sHeapLo s.sHeapHi)
      (withSpan s.mem b.addr r) (b.addr + r) :=
    htag.gives_adjacent_of_lt (show b.addr + r < s.sHeapHi by omega)
  have hnull : b.addr + r ≠ null := by
    unfold null
    omega
  unfold splitForAlloc
  simp only [heapLo, heapHi, wp_bind, wp_reads, wp_assert, wp_lift]
  refine ⟨fun _ => hr.addr_ne_null hmb, ?_⟩
  rw [hgetPrev.wp_iff, (hr.tagged hmb).gives_getSpan.wp_iff, (splitSpans hspan (by omega)).1,
    (splitSpans hspan (by omega)).2]
  refine ⟨fun _ => by omega, fun _ => by omega, fun _ => by omega, fun _ => ⟨hbb.1, by omega⟩,
    wp_assertM_gives (fun _ => (gives_lift (h.gives_free hmb hb)).beq) ?_⟩
  simp only [wp_when, ne_eq, not_true, false_implies, not_false_eq_true, true_and, true_implies]
  rw [wp_setSpan (hr.addr_ne_null hmb) hr₂ (by omega) (by omega)]
  refine wp_assertM_gives (fun _ => gives_lift hvalid) ?_
  rw [hadj.wp_iff]
  refine ⟨fun _ => hnull, fun _ => ⟨by omega, by omega⟩, ?_⟩
  refine wp_carve (u := true) hnull (by omega) (by omega) (by omega) fun m₁ hm₁ => ?_
  obtain ⟨v, hcut⟩ := hr.cut hT hb hr₂ (by omega) hspan hm₁
  -- both blocks are in place but for the backward link of the first
  have hmb₁ : (⟨b.addr, r, false⟩ : Block) ∈ xs ++ ⟨b.addr, r, false⟩ ::
      ⟨b.addr + r, need + 2, true⟩ :: ys := by simp
  have hma₁ : (⟨b.addr + r, need + 2, true⟩ : Block) ∈ xs ++ ⟨b.addr, r, false⟩ ::
      ⟨b.addr + r, need + 2, true⟩ :: ys := by simp
  refine hcut.wp_setPrev hmb₁ (Or.inl rfl) fun m₂ hm₂ _ => ?_
  have hadj₂ : Gives (chunkGetAdjacent cfg b.addr s.sHeapLo s.sHeapHi) m₂ (b.addr + r) :=
    hm₂.gives_adjacent_split rfl
  have hvalid₂ : Gives (chunkIsValid cfg b.addr s.sHeapLo s.sHeapHi) m₂ true :=
    (hm₂.tagged hmb₁).gives_isValid
  have hvalid₃ : Gives (chunkIsValid cfg (b.addr + r) s.sHeapLo s.sHeapHi) m₂ true :=
    (hm₂.tagged hma₁).gives_isValid
  refine wp_assertM_gives (fun _ => (gives_lift hadj₂).beq) ?_
  refine wp_assertM_gives (fun _ => gives_lift hvalid₂) ?_
  refine wp_assertM_gives (fun _ => gives_lift hvalid₃) ?_
  rw [wp_pure]
  refine hQ _ _ (keeps_setMem s m₂) ?_ ⟨hm₂, ?_⟩
  · rfl
  · refine h.lists.reshape xs [b] [⟨b.addr, r, false⟩, ⟨b.addr + r, need + 2, true⟩] ys
      (by simp [hT]) (by simp) (by simp) ?_ fun c hc => ?_
    · have hidle := h.lists.idle_out hmb (Set.mem_singleton _)
      have hne : b.addr ≠ b.addr + r := by omega
      intro z hz
      simp only [List.mem_cons, List.not_mem_nil, or_false] at hz
      rcases hz with rfl | rfl
      · refine ⟨Or.inr rfl, ?_, Function.update_self _ _ _⟩
        show Function.update T.next (b.addr + r) null b.addr = null
        rw [Function.update_of_ne hne, hidle.1]
      · refine ⟨Or.inl rfl, Function.update_self _ _ _, ?_⟩
        show Function.update (Function.update (Function.update T.prev (b.addr + r) null) b.addr v)
          b.addr null (b.addr + r) = null
        rw [Function.update_of_ne hne.symm, Function.update_of_ne hne.symm, Function.update_self]
    · have hne : c.addr ≠ b.addr ∧ c.addr ≠ b.addr + r := by
        have ht := hr.tiles
        rw [hT] at ht
        have hapart := ht.around_apart hc
        omega
      simp [hne]

end SystemProgramming.HeapMgr.Heapmgr2
