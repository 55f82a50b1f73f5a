import SystemProgramming.HeapMgr.Heapmgr1Free

/-!
# `heapmgr_malloc` of `heapmgr1.c`

On a well-formed heap `heapmgr_malloc` allocates from the first block of the list that is large
enough.  When no block is large enough the heap grows, and the block to allocate from is taken to be
where the kernel put the new memory; that is right only if the new memory was not merged into a free
block below it.

* `wp_searchList`: first fit in the list.
* `wp_sysGrowAndLink`: the new memory is released behind the last block; its address is the result.
* `wp_heapmgrMalloc`: an allocation on a booted heap that is not grown behind a free block.
-/

namespace SystemProgramming.HeapMgr.Heapmgr1

open Exec CInt

/-- A heap between calls: the list holds the free blocks, and no two neighbours are both free. -/
structure WellFormed (keep : Set ℕ) (m₀ : Mem) (s : Heap1) (T : Table) (l : List ℕ) : Prop where
  work : Work keep m₀ s T ∅ l
  coalesced : Coalesced T.blocks

/-- The list after `n` units have been allocated from `b`. -/
def listAfterTake (b : Block) (n : ℕ) (l : List ℕ) : List ℕ :=
  if b.span ≥ n + 2 then l else l.erase b.addr

variable {cfg : Cfg} {keep : Set ℕ} {m₀ : Mem} {T : Table} {s : Heap1} {l : List ℕ} {b : Block}
  {xs ys : List Block} {need : ℕ}

/-! ### Detaching and splitting -/

section Joined

variable {m : Mem}

/-- Once the neighbours of a member point at each other, the links between them are found. -/
theorem Work.gives_joined_next (h : Work keep m₀ s T ∅ l) (hmem : b.addr ∈ l)
    (hm : Rep keep m₀ m s.sHeapLo s.sHeapHi (T.join (T.prev b.addr) (T.next b.addr)))
    (hnull : T.prev b.addr ≠ null) :
    Gives (chunkGetNextFree cfg (T.prev b.addr)) m (T.next b.addr) := by
  obtain ⟨hnext, hprev⟩ := h.linkOk (Or.inl hmem)
  obtain ⟨p, hp, hpa, -⟩ := hprev.resolve_left hnull
  have hlink : (T.join (T.prev b.addr) (T.next b.addr)).next p.addr = T.next b.addr := by
    show setLink null T.next (T.prev b.addr) (T.next b.addr) p.addr = _
    rw [hpa, setLink_of_ne hnull, Function.update_self]
  have hg : Gives (chunkGetNextFree cfg p.addr) m _ :=
    hm.gives_getNext hp (by rw [hlink]; exact hnext)
  rwa [hlink, hpa] at hg

theorem Work.gives_joined_prev (h : Work keep m₀ s T ∅ l) (hmem : b.addr ∈ l)
    (hm : Rep keep m₀ m s.sHeapLo s.sHeapHi (T.join (T.prev b.addr) (T.next b.addr)))
    (hnull : T.next b.addr ≠ null) :
    Gives (chunkGetPrevFree cfg (T.next b.addr)) m (T.prev b.addr) := by
  obtain ⟨hnext, hprev⟩ := h.linkOk (Or.inl hmem)
  obtain ⟨n, hn, hna, -⟩ := hnext.resolve_left hnull
  have hlink : (T.join (T.prev b.addr) (T.next b.addr)).prev n.addr = T.prev b.addr := by
    show setLink null T.prev (T.next b.addr) (T.prev b.addr) n.addr = _
    rw [hna, setLink_of_ne hnull, Function.update_self]
  have hg : Gives (chunkGetPrevFree cfg n.addr) m _ :=
    hm.gives_getPrev hn (by rw [hlink]; exact hprev)
  rwa [hlink, hna] at hg

/-- The new head is another block, and nothing precedes it. -/
theorem Work.gives_joined_head {head : ℕ} (h : Work keep m₀ s T ∅ l) (hmem : b.addr ∈ l)
    (hm : Rep keep m₀ m s.sHeapLo s.sHeapHi (T.join (T.prev b.addr) (T.next b.addr)))
    (hhead : head = if T.prev b.addr = null then T.next b.addr else s.sFree) (hnull : head ≠ null) :
    Gives (chunkGetPrevFree cfg head) m null := by
  have hlists := h.unlinked_lists hmem
  have hhd : head = (l.erase b.addr).headD null := hhead.trans (hlists.head ())
  obtain ⟨p, l', hl⟩ := List.exists_cons_of_ne_nil
    (show l.erase b.addr ≠ [] by intro hnil; rw [hnil] at hhd; exact hnull hhd)
  have hpl : p ∈ l.erase b.addr := by simp [hl]
  have hpb : p ≠ b.addr := fun he => (h.lists.nodup ()).not_mem_erase (he ▸ hpl)
  obtain ⟨c, hcT, rfl, -⟩ := hlists.block (i := ()) hpl
  have hlink : (T.join (T.prev b.addr) (T.next b.addr)).prev c.addr = null := by
    have hlinks : Links _ _ null (l.erase b.addr) null := hlists.links ()
    rw [hl] at hlinks
    have hfirst : (unlinked T b.addr).prev c.addr = null := hlinks.1
    rw [← hfirst]
    exact (Function.update_of_ne hpb _ _).symm
  have hg : Gives (chunkGetPrevFree cfg c.addr) m _ :=
    hm.gives_getPrev hcT (by rw [hlink]; exact Or.inl rfl)
  rw [hlink] at hg
  rw [hl] at hhd
  rwa [show head = c.addr from hhd]

end Joined

/-- A block that leaves the list and becomes used has no links left. -/
theorem Work.idle_detached (h : Work keep m₀ s T ∅ l) (hT : T.blocks = xs ++ b :: ys)
    (hb : b.used = false) (hmem : b.addr ∈ l) (hidle : Idle T) :
    Idle ((unlinked T b.addr).setBlocks (xs ++ { b with used := true } :: ys)) := by
  have hi₁ := h.idle_unlinked (Rep.mem_of_split hT) hb (Or.inl hmem) hidle
  have hT₁ : (unlinked T b.addr).blocks = xs ++ b :: ys := hT
  intro c hc hused
  have hc' : c ∈ xs ++ { b with used := true } :: ys := hc
  rw [List.mem_append, List.mem_cons] at hc'
  rcases hc' with hx | rfl | hy
  · exact hi₁ c (by rw [hT₁]; exact List.mem_append_left _ hx) hused
  · exact ⟨Function.update_self _ _ _, Function.update_self _ _ _⟩
  · exact hi₁ c (by rw [hT₁]; exact List.mem_append_right _ (List.mem_cons_of_mem _ hy)) hused

/-- **`freelist_detach`**: a block of the list leaves it and is marked used. -/
theorem wp_freelistDetach {Q : Unit → Heap1 → Prop} (h : Work keep m₀ s T ∅ l)
    (hc : Coalesced T.blocks) (hcfg : Fuelled cfg s) (hT : T.blocks = xs ++ b :: ys)
    (hb : b.used = false)
    (hQ : ∀ s' T', Keeps s s' → T'.blocks = xs ++ { b with used := true } :: ys →
      Work keep m₀ s' T' ∅ (l.erase b.addr) → (Idle T → Idle T') → Q () s') :
    wp (freelistDetach cfg b.addr) Q s := by
  have hr := h.rep
  have hmb : b ∈ T.blocks := Rep.mem_of_split hT
  have hmem : b.addr ∈ l := h.mem_list hmb hb (Set.notMem_empty _)
  have hlists := h.unlinked_lists hmem
  rw [LawfulSingleton.insert_empty_eq] at hlists
  obtain ⟨hnext, hprev⟩ := h.linkOk (Or.inl hmem)
  have hafter : Coalesced (xs ++ { b with used := true } :: ys) := by
    rw [hT] at hc
    exact hc.replaceUsed
  -- what follows once the neighbours point at each other
  have hlast : ∀ m head, Rep keep m₀ m s.sHeapLo s.sHeapHi (T.join (T.prev b.addr) (T.next b.addr)) →
      head = (if T.prev b.addr = null then T.next b.addr else s.sFree) →
      wp (do
        when (T.prev b.addr ≠ null)
          (assertM cfg.asserts ((· == T.next b.addr) <$> chunkGetNextFree cfg (T.prev b.addr)))
        when (T.next b.addr ≠ null)
          (assertM cfg.asserts ((· == T.prev b.addr) <$> chunkGetPrevFree cfg (T.next b.addr)))
        let head ← freeHead
        when (head ≠ null) (assertM cfg.asserts ((· == null) <$> chunkGetPrevFree cfg head))
        chunkSetNextFree cfg b.addr null
        chunkSetPrevFree cfg b.addr null
        chunkSetStatus cfg b.addr chunkUsed
        assertM cfg.asserts (checkHeapValidity cfg) : Exec Heap1 Unit) Q
        { s with mem := m, sFree := head } := by
    intro m head hm hhead
    rw [← hhead] at hlists
    simp only [wp_bind, freeHead, wp_reads]
    refine wp_when_gives (fun hnull => gives_assertM fun _ =>
      (gives_lift (h.gives_joined_next hmem hm hnull)).beq) ?_
    refine wp_when_gives (fun hnull => gives_assertM fun _ =>
      (gives_lift (h.gives_joined_prev hmem hm hnull)).beq) ?_
    refine wp_when_gives (fun hnull => gives_assertM fun _ =>
      (gives_lift (h.gives_joined_head hmem hm hhead hnull)).beq) ?_
    simp only [wp_lift]
    have hb₁ : b ∈ (T.join (T.prev b.addr) (T.next b.addr)).blocks := hmb
    refine hm.wp_setNext hb₁ (Or.inl rfl) fun m₁ hm₁ _ => ?_
    have hb₂ : b ∈ ((T.join (T.prev b.addr) (T.next b.addr)).setNext b.addr null).blocks := hmb
    refine hm₁.wp_setPrev hb₂ (Or.inl rfl) fun m₂ hm₂ _ => ?_
    have hT₂ : (unlinked T b.addr).blocks = xs ++ b :: ys := hT
    refine hm₂.wp_setStatus (u := true) hT₂ (fun hfalse => by cases hfalse) fun m₃ hm₃ => ?_
    set T₃ := (unlinked T b.addr).setBlocks (xs ++ { b with used := true } :: ys) with hT₃
    have h₃ : Work keep m₀ { s with mem := m₃, sFree := head } T₃ ∅ (l.erase b.addr) :=
      ⟨hm₃, hlists.withUsed hm₂ hT₂⟩
    refine wp_assertM_gives (fun _ => gives_checkHeapValidity h₃ hafter (hcfg.blocks_lt hm₃)) ?_
    exact hQ _ _ (keeps_set s m₃ head) rfl h₃ (h.idle_detached hT hb hmem)
  simp only [freelistDetach, setFreeHead, wp_bind, wp_lift]
  simp only [wp_bind, wp_lift] at hlast
  rw [(h.gives_prev hmb (Or.inl hmem)).wp_iff, (h.gives_next hmb (Or.inl hmem)).wp_iff]
  refine wp_assertM_gives (fun _ => (gives_lift (h.gives_free hmb hb)).beq) ?_
  rw [wp_ite]
  constructor
  · intro hnull
    simp only [wp_bind, wp_modify]
    rw [wp_when, wp_lift]
    refine hr.wp_setPrevOpt hnext (Or.inl rfl) fun m₁ hm₁ _ => ?_
    have hnext₁ : (T.setPrevOpt (T.next b.addr) null).LinkOk (T.next b.addr) := hnext
    have hprev₁ : (T.setPrevOpt (T.next b.addr) null).LinkOk (T.prev b.addr) := hprev
    rw [wp_when, wp_lift]
    refine hm₁.wp_setPrevOpt hnext₁ hprev₁ fun m₂ hm₂ _ => hlast m₂ _ ?_ ?_
    · rw [Table.setPrevOpt_twice] at hm₂
      rw [hnull] at hm₂ ⊢
      rwa [Table.join_null]
    · rw [if_pos hnull]
  · intro hnull
    obtain ⟨p, hp, hpa, -⟩ := hprev.resolve_left hnull
    simp only [wp_bind, wp_lift]
    rw [(h.gives_next hmb (Or.inl hmem)).wp_iff]
    rw [← hpa] at hlast hnull hprev ⊢
    refine hr.wp_setNext hp hnext fun m₁ hm₁ _ => ?_
    have hpl : (T.setNext p.addr (T.next b.addr)).LinkOk p.addr := hprev
    rw [wp_when, wp_lift]
    refine hm₁.wp_setPrevOpt hnext hpl fun m₂ hm₂ _ => hlast m₂ _ ?_ ?_
    · unfold Table.setPrevOpt Table.setNext at hm₂
      unfold Table.join
      rw [setLink_of_ne hnull]
      exact hm₂
    · rw [if_neg hnull]

/-- Cutting a used block off a free one leaves the addresses of the free blocks as they were. -/
theorem freeAt_cut {T' : Table} {r q n p : ℕ} (hT : T.blocks = xs ++ b :: ys)
    (hb : b.used = false) (hT' : T'.blocks = xs ++ ⟨b.addr, r, false⟩ :: ⟨q, n, true⟩ :: ys) :
    T'.FreeAt p ↔ T.FreeAt p := by
  unfold Table.FreeAt
  rw [hT, hT']
  simp only [List.mem_append, List.mem_cons]
  constructor
  · rintro ⟨c, hx | rfl | rfl | hy, hcp, hcf⟩
    · exact ⟨c, Or.inl hx, hcp, hcf⟩
    · exact ⟨b, Or.inr (Or.inl rfl), hcp, hb⟩
    · cases hcf
    · exact ⟨c, Or.inr (Or.inr hy), hcp, hcf⟩
  · rintro ⟨c, hx | rfl | hy, hcp, hcf⟩
    · exact ⟨c, Or.inl hx, hcp, hcf⟩
    · exact ⟨_, Or.inr (Or.inl rfl), hcp, rfl⟩
    · exact ⟨c, Or.inr (Or.inr (Or.inr hy)), hcp, hcf⟩

/-- The list does not notice that the end of one of its blocks has become a used block, once the
backward link of the block has been written anew. -/
theorem Work.cut_lists {r n : ℕ} {T' : Table} (h : Work keep m₀ s T ∅ l)
    (hT : T.blocks = xs ++ b :: ys) (hb : b.used = false) (hr : 2 ≤ r) (hn : 2 ≤ n)
    (hspan : b.span = r + n)
    (hT' : T'.blocks = xs ++ ⟨b.addr, r, false⟩ :: ⟨b.addr + r, n, true⟩ :: ys)
    (hnext : T'.next = Function.update T.next (b.addr + r) null)
    (hprev : T'.prev = Function.update T.prev (b.addr + r) null) :
    Listed (fun _ : Unit => s.sFree) (fun _ => ()) T' ∅ (fun _ => l) := by
  have hmb : b ∈ T.blocks := Rep.mem_of_split hT
  have hfoot : b.addr + r < b.foot := by
    unfold Block.foot
    omega
  have hlist : ∀ p ∈ l, p ≠ b.addr + r := by
    intro p hp
    obtain ⟨c, hc, rfl, -⟩ := h.lists.block (i := ()) hp
    exact (h.rep.inner_ne hmb (by omega) hfoot hc).1.symm
  refine h.lists.congr_table (fun _ p hp => ?_) (fun _ p hp => ?_) fun _ p _ => ?_
  · rw [hnext, Function.update_of_ne (hlist p hp)]
  · rw [hprev, Function.update_of_ne (hlist p hp)]
  · simpa [Table.FreeAt] using freeAt_cut (p := p) hT hb hT'

theorem idle_cut {r q n : ℕ} {T' : Table} (hT : T.blocks = xs ++ b :: ys)
    (hT' : T'.blocks = xs ++ ⟨b.addr, r, false⟩ :: ⟨q, n, true⟩ :: ys)
    (hnext : T'.next = Function.update T.next q null)
    (hprev : T'.prev = Function.update T.prev q null) (hidle : Idle T) : Idle T' := by
  intro c hc hused
  rw [hnext, hprev]
  by_cases hcq : c.addr = q
  · rw [hcq, Function.update_self, Function.update_self]
    exact ⟨rfl, rfl⟩
  · rw [Function.update_of_ne hcq, Function.update_of_ne hcq]
    apply hidle c ?_ hused
    rw [hT', List.mem_append, List.mem_cons, List.mem_cons] at hc
    rw [hT]
    rcases hc with hx | rfl | rfl | hy
    · exact List.mem_append_left _ hx
    · cases hused
    · exact absurd rfl hcq
    · exact List.mem_append_right _ (List.mem_cons_of_mem _ hy)

theorem coalesced_cut {r n : ℕ} (hc : Coalesced (xs ++ b :: ys)) (hb : b.used = false) (hr : 2 ≤ r)
    (hspan : b.span = r + n) :
    Coalesced (xs ++ ⟨b.addr, r, false⟩ :: ⟨b.addr + r, n, true⟩ :: ys) := by
  have hafter := hc.allocate (n := n) hb
  have hfits : b.span ≥ n + 2 := by omega
  have hrest : b.span - n = r := by omega
  have hblocks : xs ++ allocate b n ++ ys
      = xs ++ ⟨b.addr, r, false⟩ :: ⟨b.addr + r, n, true⟩ :: ys := by
    simp [allocate, hfits, hrest]
  rwa [hblocks] at hafter

/-- What precedes a member in the list is free and points to it. -/
theorem Work.gives_before (h : Work keep m₀ s T ∅ l) (hmem : b.addr ∈ l)
    (hne : T.prev b.addr ≠ null) :
    Gives (chunkGetStatus cfg (T.prev b.addr)) s.mem chunkFree ∧
      Gives (chunkGetNextFree cfg (T.prev b.addr)) s.mem b.addr := by
  obtain ⟨p, hp, hpa, hpfree⟩ := (h.linkOk (Or.inl hmem)).2.resolve_left hne
  have hpl : p.addr ∈ l := h.mem_list hp hpfree (Set.notMem_empty _)
  have hnext : T.next p.addr = b.addr :=
    (h.links.next_eq_iff h.null_not_mem hpl hmem).mpr hpa.symm
  have hg : Gives (chunkGetNextFree cfg p.addr) s.mem _ := h.gives_next hp (Or.inl hpl)
  rw [hnext] at hg
  rw [← hpa]
  exact ⟨h.gives_free hp hpfree, hg⟩

/-- **`split_for_alloc`**: the block keeps its place in the list, and its end becomes a used block. -/
theorem wp_splitForAlloc {Q : ℕ → Heap1 → Prop} {r : ℕ} (h : Work keep m₀ s T ∅ l)
    (hc : Coalesced T.blocks) (hcfg : Fuelled cfg s)
    (hT : T.blocks = xs ++ b :: ys) (hb : b.used = false) (hr₂ : 2 ≤ r)
    (hspan : b.span = r + (need + 2))
    (hQ : ∀ s' T', Keeps s s' →
      T'.blocks = xs ++ ⟨b.addr, r, false⟩ :: ⟨b.addr + r, need + 2, true⟩ :: ys →
      Work keep m₀ s' T' ∅ l → (Idle T → Idle T') → Q (b.addr + r) s') :
    wp (splitForAlloc cfg b.addr need) Q s := by
  have hr := h.rep
  have hmb : b ∈ T.blocks := Rep.mem_of_split hT
  have hbb := hr.bounds hmb
  have hsmall := hr.span_lt hmb
  have hhi := hr.hi_lt
  have hmem : b.addr ∈ l := h.mem_list hmb hb (Set.notMem_empty _)
  have hlo := hr.lo_pos
  have htag : Tagged (withSpan s.mem b.addr r) s.sHeapLo s.sHeapHi ⟨b.addr, r, b.used⟩ :=
    (hr.tagged hmb).shrink hr₂ (by omega)
  have hadj : Gives (chunkGetAdjacent cfg b.addr s.sHeapLo s.sHeapHi)
      (withSpan s.mem b.addr r) (b.addr + r) :=
    htag.gives_adjacent_of_lt (show b.addr + r < s.sHeapHi by omega)
  have hnull : b.addr + r ≠ null := by
    unfold null
    omega
  have hbnull := hr.addr_ne_null hmb
  obtain ⟨hnOk, hpOk⟩ := h.linkOk (Or.inl hmem)
  -- what precedes the block in the list
  have hbefore : T.prev b.addr ≠ null → Gives (do
      assertM cfg.asserts ((· == chunkFree) <$> chunkGetStatus cfg (T.prev b.addr))
      assertM cfg.asserts ((· == b.addr) <$> chunkGetNextFree cfg (T.prev b.addr)) :
      Exec Heap1 Unit) s () := by
    intro hne
    obtain ⟨hfree, hback⟩ := h.gives_before hmem hne
    exact (gives_assertM fun _ => (gives_lift hfree).beq).bind
      (gives_assertM fun _ => (gives_lift hback).beq)
  simp only [splitForAlloc, heapLo, heapHi, freeHead, wp_bind, wp_reads, wp_assert, wp_lift]
  rw [(h.gives_prev hmb (Or.inl hmem)).wp_iff, (hr.tagged hmb).gives_getSpan.wp_iff,
    (splitSpans hspan (by omega)).1, (splitSpans hspan (by omega)).2]
  refine ⟨fun _ => hbnull, fun _ => toIntptr_nonneg (by omega), fun _ => by omega,
    fun _ => by omega, fun _ => by omega, fun _ => ⟨hbb.1, by omega⟩, ?_⟩
  refine wp_assertM_gives (fun _ => (gives_lift (h.gives_free hmb hb)).beq) ⟨fun _ => by omega, ?_⟩
  refine wp_when_gives hbefore ?_
  refine wp_when_gives (fun hnull => gives_assert fun _ => (h.head_eq hmem hnull).symm) ?_
  rw [wp_setSpan hbnull hr₂ (by omega) (by omega)]
  refine wp_assertM_gives (fun _ => gives_lift htag.gives_isValid) ?_
  have hstatus : Gives (chunkGetStatus cfg b.addr) (withSpan s.mem b.addr r) chunkFree := by
    have hg : Gives (chunkGetStatus cfg b.addr) _ _ := htag.gives_getStatus
    rwa [hb] at hg
  refine wp_assertM_gives (fun _ => (gives_lift hstatus).beq) ?_
  rw [hadj.wp_iff]
  refine ⟨fun _ => hnull, fun _ => ⟨by omega, by omega⟩, ?_⟩
  refine wp_carve (u := true) hnull (by omega) (by omega) (by omega) fun m₁ hm₁ => ?_
  obtain ⟨v, hcut⟩ := hr.cut hT hb hr₂ (by omega) hspan hm₁
  set c : Block := ⟨b.addr, r, false⟩
  set d : Block := ⟨b.addr + r, need + 2, true⟩
  set T₁ := (((T.setBlocks (xs ++ c :: d :: ys)).setNext (b.addr + r) null).setPrev
    (b.addr + r) null).setPrev b.addr v
  have hT₁ : T₁.blocks = xs ++ c :: d :: ys := rfl
  have hmc : c ∈ T₁.blocks := Rep.mem_of_split hT₁
  have hmd : d ∈ T₁.blocks := by simp [hT₁]
  have hbr : b.addr ≠ b.addr + r := by omega
  have hnext : T₁.next b.addr = T.next b.addr := Function.update_of_ne hbr _ _
  have hnOk₁ : T₁.LinkOk (T₁.next b.addr) := by
    rw [hnext]
    exact hnOk.imp_right (freeAt_cut hT hb hT₁).mpr
  have hgetNext : Gives (chunkGetNextFree cfg b.addr) m₁ (T₁.next b.addr) :=
    hcut.gives_getNext (b := c) hmc hnOk₁
  refine wp_assertM_gives (fun _ => gives_lift (hcut.tagged hmd).gives_isValid) ?_
  refine wp_assertM_gives (fun _ => (gives_lift (hcut.tagged hmd).gives_getStatus).beq) ?_
  rw [hgetNext.wp_iff]
  refine wp_when_gives (fun hne => gives_assertM fun _ => ?_) ?_
  · obtain ⟨e, he, hea, hefree⟩ := hnOk₁.resolve_left hne
    have hg : Gives (chunkGetStatus cfg e.addr) m₁ _ := (hcut.tagged he).gives_getStatus
    rw [hefree, hea] at hg
    exact (gives_lift hg).beq
  refine hcut.wp_setPrev hmc (hpOk.imp_right (freeAt_cut hT hb hT₁).mpr) fun m₂ hm₂ _ => ?_
  have hmc₂ : c ∈ (T₁.setPrev c.addr (T.prev b.addr)).blocks := hmc
  have hmd₂ : d ∈ (T₁.setPrev c.addr (T.prev b.addr)).blocks := hmd
  have hT₂ : (T₁.setPrev c.addr (T.prev b.addr)).blocks = xs ++ c :: d :: ys := rfl
  -- the link is back where it was
  have hprev₂ : (T₁.setPrev c.addr (T.prev b.addr)).prev = Function.update T.prev d.addr null := by
    show Function.update (Function.update (Function.update T.prev (b.addr + r) null) b.addr v)
      b.addr (T.prev b.addr) = Function.update T.prev (b.addr + r) null
    rw [Function.update_idem, Function.update_comm hbr.symm, Function.update_eq_self]
  have hnext₂ : (T₁.setPrev c.addr (T.prev b.addr)).next = Function.update T.next d.addr null := rfl
  have h₂ : Work keep m₀ { s with mem := m₂ } (T₁.setPrev c.addr (T.prev b.addr)) ∅ l :=
    ⟨hm₂, h.cut_lists hT hb hr₂ (by omega) hspan hT₂ hnext₂ hprev₂⟩
  have hc₂ : Coalesced (T₁.setPrev c.addr (T.prev b.addr)).blocks := by
    rw [hT] at hc
    exact coalesced_cut hc hb hr₂ hspan
  have hadj₂ : Gives (chunkGetAdjacent cfg b.addr s.sHeapLo s.sHeapHi) m₂ (b.addr + r) :=
    hm₂.gives_adjacent_split rfl
  refine wp_assertM_gives (fun _ => (gives_lift hadj₂).beq) ?_
  refine wp_assertM_gives (fun _ => gives_lift (hm₂.tagged hmc₂).gives_isValid) ?_
  refine wp_assertM_gives (fun _ => gives_lift (hm₂.tagged hmd₂).gives_isValid) ?_
  refine wp_assertM_gives (fun _ => (gives_lift (hm₂.tagged hmc₂).gives_getStatus).beq) ?_
  refine wp_assertM_gives (fun _ => (gives_lift (hm₂.tagged hmd₂).gives_getStatus).beq) ?_
  refine wp_assertM_gives (fun _ => gives_checkHeapValidity h₂ hc₂ (hcfg.blocks_lt hm₂)) ?_
  rw [wp_pure]
  exact hQ _ _ (keeps_setMem s m₂) rfl h₂ (idle_cut hT hT₂ hnext₂ hprev₂)

/-! ### Taking a block -/

/-- **Allocating from a block** that is large enough: it is split, or handed out whole. -/
theorem wp_takeBlock {Q : ℕ → Heap1 → Prop} (h : WellFormed keep m₀ s T l) (hcfg : Fuelled cfg s)
    (hT : T.blocks = xs ++ b :: ys) (hb : b.used = false) (hspan : need + 2 ≤ b.span)
    (hQ : ∀ s' T', Keeps s s' → T'.blocks = xs ++ allocate b (need + 2) ++ ys →
      WellFormed keep m₀ s' T' (listAfterTake b (need + 2) l) → (Idle T → Idle T') →
      Q ((allocated b (need + 2)).addr + 1) s') :
    wp (takeBlock cfg b.addr need) Q s := by
  have hr := h.work.rep
  have hmb : b ∈ T.blocks := Rep.mem_of_split hT
  have hbb := hr.bounds hmb
  have hlt := hr.span_lt hmb
  have hhi := hr.hi_lt
  have hcoal := h.coalesced
  rw [hT] at hcoal
  have hafter := hcoal.allocate (n := need + 2) hb
  have hsize : toSize (b.span : ℤ) = b.span := toSize_of_lt (by omega)
  have hneed := @splitThreshold need (by omega)
  simp only [takeBlock, wp_bind, wp_lift]
  rw [(hr.tagged hmb).gives_getSpan.wp_iff, hsize, hneed, wp_ite]
  constructor
  · intro hsplit
    have hfits : b.span ≥ need + 2 + 2 := hsplit
    have hblocks : xs ++ allocate b (need + 2) ++ ys =
        xs ++ ⟨b.addr, b.span - (need + 2), false⟩ ::
          ⟨b.addr + (b.span - (need + 2)), need + 2, true⟩ :: ys := by
      simp [allocate, hfits]
    rw [allocated, if_pos hfits, listAfterTake, if_pos hfits, hblocks] at hQ
    rw [hblocks] at hafter
    refine wp_splitForAlloc (r := b.span - (need + 2)) h.work h.coalesced hcfg hT hb (by omega)
      (by omega) fun s₁ T₁ hk₁ hT₁ h₁ hidle => ?_
    have hwf : WellFormed keep m₀ s₁ T₁ l := ⟨h₁, by rw [hT₁]; exact hafter⟩
    refine wp_assertM_gives (fun _ => ?_) ?_
    · exact gives_checkHeapValidity h₁ hwf.coalesced ((hcfg.keeps hk₁).blocks_lt h₁.rep)
    · rw [wp_pure, payloadOf_of_lt (by omega)]
      exact hQ s₁ T₁ hk₁ hT₁ hwf hidle
  · intro hwhole
    have hfits : ¬ b.span ≥ need + 2 + 2 := hwhole
    have hblocks : xs ++ allocate b (need + 2) ++ ys = xs ++ { b with used := true } :: ys := by
      simp [allocate, hfits]
    rw [allocated, if_neg hfits, listAfterTake, if_neg hfits, hblocks] at hQ
    rw [hblocks] at hafter
    rw [wp_bind]
    refine wp_freelistDetach h.work h.coalesced hcfg hT hb fun s₁ T₁ hk₁ hT₁ h₁ hidle => ?_
    have hwf : WellFormed keep m₀ s₁ T₁ (l.erase b.addr) := ⟨h₁, by rw [hT₁]; exact hafter⟩
    rw [wp_pure]
    refine wp_assertM_gives (fun _ => ?_) ?_
    · exact gives_checkHeapValidity h₁ hwf.coalesced ((hcfg.keeps hk₁).blocks_lt h₁.rep)
    · rw [wp_pure, payloadOf_of_lt (by omega)]
      exact hQ s₁ T₁ hk₁ hT₁ hwf hidle

/-! ### The search -/

/-- **First fit** in what is left of the list. -/
theorem wp_searchList {Q : Option ℕ → Heap1 → Prop} (h : WellFormed keep m₀ s T l)
    (l₁ l₂ : List ℕ) (fuel : ℕ) (hl : l = l₁ ++ l₂) (hfuel : l₂.length < fuel)
    (hsmall : ∀ c ∈ T.blocks, c.addr ∈ l₁ → c.span < need + 2)
    (hnone : (∀ c ∈ T.blocks, c.addr ∈ l → c.span < need + 2) → Q none s)
    (hsome : ∀ k₁ b k₂, l = k₁ ++ b.addr :: k₂ → b ∈ T.blocks → b.used = false →
      (∀ c ∈ T.blocks, c.addr ∈ k₁ → c.span < need + 2) → need + 2 ≤ b.span →
      wp (takeBlock cfg b.addr need) (fun p s' => Q (some p) s') s) :
    wp (searchList cfg need fuel (l₂.headD null)) Q s := by
  induction l₂ generalizing l₁ fuel with
  | nil =>
    obtain ⟨n, rfl⟩ := Nat.exists_eq_succ_of_ne_zero (Nat.ne_of_gt hfuel)
    rw [List.append_nil] at hl
    subst hl
    exact (wp_pure none).mpr (hnone hsmall)
  | cons p l₂ ih =>
    obtain ⟨n, rfl⟩ := Nat.exists_eq_succ_of_ne_zero (Nat.ne_of_gt (Nat.zero_lt_of_lt hfuel))
    have hr := h.work.rep
    have hp : p ∈ l := by simp [hl]
    have hpn : p ≠ null := by
      intro he
      exact h.work.null_not_mem (he ▸ hp)
    obtain ⟨b, hb, rfl, hfree, -⟩ := h.work.lists.block (i := ()) hp
    have hbb := hr.bounds hb
    have hpayload := payloadOfSpan hbb.2.2.1 (hr.span_lt hb)
    have hnext : T.next b.addr = l₂.headD null := by
      have hlinks := h.work.links
      rw [hl] at hlinks
      exact hlinks.next_eq
    show wp (searchList cfg need (n + 1) b.addr) Q s
    simp only [searchList, if_neg hpn, wp_bind, wp_lift]
    rw [(hr.tagged hb).gives_getSpan.wp_iff, hpayload, wp_ite]
    constructor
    · intro hfit
      rw [wp_bind]
      refine (hsome l₁ b l₂ hl hb hfree hsmall (by omega)).mono fun p s' hQ => ?_
      rwa [wp_pure]
    · intro hunfit
      simp only [wp_bind, wp_lift]
      rw [(h.work.gives_next hb (Or.inl hp)).wp_iff, hnext]
      refine ih (l₁ ++ [b.addr]) n (by simp [hl]) (by simpa using hfuel) fun c hc hm => ?_
      rcases List.mem_append.mp hm with hold | hnew
      · exact hsmall c hc hold
      · rw [hr.eq_of_addr hc hb (by simpa using hnew)]
        omega

/-! ### Growing the heap -/

/-- **`sys_grow_and_link`**: the kernel refuses, or the new memory is released behind the last block.
The result is where the new memory begins, also when it was merged. -/
theorem wp_sysGrowAndLink {Q : ℕ → Heap1 → Prop} (h : WellFormed keep m₀ s T l) (hos : OsOk s)
    (hcfg : Limited cfg.fuel s) (hneed : need < 2 ^ 60) (hfits : GrowthFits s T.blocks need)
    (hrefused : ¬ s.os.Accepts (growSpan need) →
      Q null { s with os := { s.os with calls := s.os.calls + 1 } })
    (hgrown : s.os.Accepts (growSpan need) → s.os.brk + growSpan need ≤ s.os.limit →
      s.sHeapHi ≠ null → ∀ s' T', Grown (growSpan need) s s' →
      T'.blocks = release T.blocks ⟨s.sHeapHi, growSpan need, false⟩ [] →
      WellFormed keep m₀ s' T' (listAfterRelease T.blocks s.sHeapHi [] l) → (Idle T → Idle T') →
      Q s.sHeapHi s') :
    wp (sysGrowAndLink cfg need) Q s := by
  have hr := h.work.rep
  unfold sysGrowAndLink
  refine wp_growBlock hr hos hneed hfits hrefused fun haccepts hlimit hnull hbelow m₁ hgrow => ?_
  set c : Block := ⟨s.sHeapHi, growSpan need, false⟩
  set T₁ := ((T.setBlocks (T.blocks ++ [c])).setNext s.sHeapHi null).setPrev s.sHeapHi null
  set s₁ : Heap1 := { s with mem := m₁, sHeapHi := s.sHeapHi + growSpan need,
                             os := { s.os with brk := s.sHeapHi + growSpan need,
                                               calls := s.os.calls + 1 } }
  have hg₁ : Grown (growSpan need) s s₁ := ⟨rfl, rfl, rfl, by rw [hos.brk]⟩
  have hfuel₁ : Fuelled cfg s₁ := (hos.grown hg₁ hlimit).within (hcfg.grown hg₁)
  have h₁ : Work keep m₀ s₁ T₁ {c.addr} l := ⟨hgrow, h.work.lists.grown hr⟩
  have hT₁ : T₁.blocks = T.blocks ++ c :: [] := rfl
  have hkeep : ∀ v ∈ keep, v < c.addr ∨ c.foot < v := fun v hv => Or.inl (hbelow v hv)
  have hidle₁ : Idle T → Idle T₁ := by
    intro hi
    refine hi.congr fun d hd hused => ?_
    have hold : d ∈ T.blocks := by
      rcases List.mem_append.mp hd with hd | hd
      · exact hd
      · rw [List.mem_singleton.mp hd] at hused
        cases hused
    have hne : d.addr ≠ s.sHeapHi := by
      have hb := hr.bounds hold
      omega
    exact ⟨hold, Function.update_of_ne hne _ _, Function.update_of_ne hne _ _⟩
  rw [wp_bind]
  refine wp_freelistPushFront (b := c) h₁ hT₁ ⟨h.coalesced, List.isChain_nil⟩
    (hfuel₁.blocks_lt hgrow) hkeep (hfits haccepts).2 fun s₂ T₂ hk₂ hT₂ h₂ hidle₂ _ => ?_
  have hwf : WellFormed keep m₀ s₂ T₂ (listAfterRelease T.blocks s.sHeapHi [] l) :=
    ⟨h₂, by rw [hT₂]; exact h.coalesced.release List.isChain_nil⟩
  rw [wp_bind]
  refine wp_assertM_gives (fun _ => ?_) ?_
  · exact gives_checkHeapValidity h₂ hwf.coalesced ((hfuel₁.keeps hk₂).blocks_lt h₂.rep)
  · rw [wp_pure]
    exact hgrown haccepts hlimit hnull s₂ T₂ (hg₁.keeps hk₂) hT₂ hwf
      fun hi => hidle₂ (hidle₁ hi)

/-! ### The entry point -/

/-- The last block of the heap is allocated, or there is no block. -/
def LastUsed (bs : List Block) : Prop := ∀ x ∈ bs.getLast?, x.used = true

/-- Where no free block is large enough, `heapmgr_malloc` comes to what follows the search. -/
theorem heapmgrMalloc_noneFits {size : ℕ} (h : WellFormed keep m₀ s T l)
    (hboot : s.sHeapBooted = true) (hfuel : Fuelled cfg s) (hsize : 0 < size)
    (hn : bytesToPayloadUnits size = need) (hnone : NoneFits T.blocks (need + 2)) :
    heapmgrMalloc cfg size s = (do
      let cur ← sysGrowAndLink cfg need
      if cur = null then
        assertM cfg.asserts (checkHeapValidity cfg)
        return null
      else
      takeBlock cfg cur need : Exec Heap1 ℕ) s := by
  have hlen := Nat.lt_of_le_of_lt (h.work.lists.length_le ()) (hfuel.blocks_lt h.work.rep)
  have hvalid : Gives (assertM cfg.asserts (checkHeapValidity cfg)) s () := gives_assertM fun _ =>
    gives_checkHeapValidity h.work h.coalesced (hfuel.blocks_lt h.work.rep)
  have hhead : Gives freeHead s (l.headD null) := by
    rw [← h.work.head]
    rfl
  have hsearch : Gives (searchList cfg need cfg.fuel (l.headD null)) s none := by
    refine gives_of_wp (wp_searchList h [] l cfg.fuel rfl hlen
      (fun _ _ hm => absurd hm List.not_mem_nil) (fun _ => ⟨rfl, rfl⟩) ?_)
    intro k₁ b k₂ _ hb hfree _ hspan
    have hlt := hnone b hb hfree
    omega
  unfold heapmgrMalloc
  rw [if_neg (Nat.ne_of_gt hsize), bind_of_ok (heapBootstrap_booted hboot), bind_of_ok hvalid, hn,
    bind_of_ok hhead, bind_of_ok hsearch]

/-- Where some free block is large enough, the first such block of the list serves the request. -/
theorem wp_heapmgrMalloc_fits {Q : ℕ → Heap1 → Prop} {size : ℕ} (h : WellFormed keep m₀ s T l)
    (hboot : s.sHeapBooted = true) (hfuel : Fuelled cfg s) (hsize : 0 < size)
    (hn : bytesToPayloadUnits size = need) (hsome : ¬ NoneFits T.blocks (need + 2))
    (hfit : ∀ k₁ b k₂ xs ys, l = k₁ ++ b.addr :: k₂ →
      (∀ c ∈ T.blocks, c.addr ∈ k₁ → c.span < need + 2) → T.blocks = xs ++ b :: ys →
      b.used = false → need + 2 ≤ b.span →
      ∀ s' T', Keeps s s' → T'.blocks = xs ++ allocate b (need + 2) ++ ys →
        WellFormed keep m₀ s' T' (listAfterTake b (need + 2) l) → (Idle T → Idle T') →
        Q ((allocated b (need + 2)).addr + 1) s') :
    wp (heapmgrMalloc cfg size) Q s := by
  have hlen := Nat.lt_of_le_of_lt (h.work.lists.length_le ()) (hfuel.blocks_lt h.work.rep)
  have hvalid : Gives (checkHeapValidity cfg) s true :=
    gives_checkHeapValidity h.work h.coalesced (hfuel.blocks_lt h.work.rep)
  simp only [heapmgrMalloc, if_neg (Nat.ne_of_gt hsize), heapBootstrap, freeHead, wp_bind, wp_reads,
    hboot, if_true, wp_pure, hn]
  refine wp_assertM_gives (fun _ => hvalid) ?_
  rw [h.work.head]
  refine wp_searchList h [] l cfg.fuel rfl hlen (fun _ _ hm => absurd hm List.not_mem_nil)
    (fun hunfit => ?_) fun k₁ b k₂ hl hb hfree hbefore hspan => ?_
  · refine absurd (fun b hb hfree => ?_) hsome
    exact hunfit b hb (h.work.mem_list hb hfree (Set.notMem_empty _))
  · obtain ⟨xs, ys, hT⟩ := List.append_of_mem hb
    refine wp_takeBlock h hfuel hT hfree hspan fun s' T' hk' hT' h' hidle => ?_
    rw [wp_pure]
    exact hfit k₁ b k₂ xs ys hl hbefore hT hfree hspan s' T' hk' hT' h' hidle

/-- **`heapmgr_malloc`** on a booted heap, where it does not grow the heap behind a free block. -/
theorem wp_heapmgrMalloc {Q : ℕ → Heap1 → Prop} {size : ℕ} (h : WellFormed keep m₀ s T l)
    (hos : OsOk s) (hboot : s.sHeapBooted = true) (hcfg : Limited cfg.fuel s) (hsize : 0 < size)
    (hn : bytesToPayloadUnits size = need)
    (hfits : NoneFits T.blocks (need + 2) → GrowthFits s T.blocks need)
    (hlast : NoneFits T.blocks (need + 2) → s.os.Accepts (growSpan need) → LastUsed T.blocks)
    (hfit : ∀ k₁ b k₂ xs ys, l = k₁ ++ b.addr :: k₂ →
      (∀ c ∈ T.blocks, c.addr ∈ k₁ → c.span < need + 2) → T.blocks = xs ++ b :: ys →
      b.used = false → need + 2 ≤ b.span →
      ∀ s' T', Keeps s s' → T'.blocks = xs ++ allocate b (need + 2) ++ ys →
        WellFormed keep m₀ s' T' (listAfterTake b (need + 2) l) → (Idle T → Idle T') →
        Q ((allocated b (need + 2)).addr + 1) s')
    (hrefused : NoneFits T.blocks (need + 2) → ¬ s.os.Accepts (growSpan need) →
      Q null { s with os := { s.os with calls := s.os.calls + 1 } })
    (hgrown : NoneFits T.blocks (need + 2) → s.os.Accepts (growSpan need) →
      s.os.brk + growSpan need ≤ s.os.limit → ∀ s' T' l', Grown (growSpan need) s s' →
      T'.blocks = T.blocks ++ allocate ⟨s.sHeapHi, growSpan need, false⟩ (need + 2) →
      WellFormed keep m₀ s' T' l' → (Idle T → Idle T') →
      Q ((allocated ⟨s.sHeapHi, growSpan need, false⟩ (need + 2)).addr + 1) s') :
    wp (heapmgrMalloc cfg size) Q s := by
  have hneedLt : need < 2 ^ 60 := hn ▸ bytesToPayloadUnits_lt size
  have hfuel : Fuelled cfg s := hos.within hcfg
  by_cases hall : NoneFits T.blocks (need + 2)
  swap
  · exact wp_heapmgrMalloc_fits h hboot hfuel hsize hn hall hfit
  rw [wp_congr (heapmgrMalloc_noneFits h hboot hfuel hsize hn hall), wp_bind]
  refine wp_sysGrowAndLink h hos hcfg hneedLt (hfits hall) (fun hno => ?_)
    fun haccepts hlimit hnull s₁ T₁ hg₁ hT₁ h₁ hidle₁ => ?_
  · have hwork : Work keep m₀ { s with os := { s.os with calls := s.os.calls + 1 } } T ∅ l :=
      ⟨h.work.rep, h.work.lists⟩
    rw [if_pos rfl, wp_bind]
    refine wp_assertM_gives (fun _ => ?_) ?_
    · exact gives_checkHeapValidity hwork h.coalesced (hfuel.blocks_lt h.work.rep)
    · exact (wp_pure _).mpr (hrefused hall hno)
  · have hg : need + 2 ≤ growSpan need := by
      unfold growSpan
      omega
    have hfuel₁ : Fuelled cfg s₁ := (hos.grown hg₁ hlimit).within (hcfg.grown hg₁)
    rw [release_of_used (hlast hall haccepts) (by simp) rfl] at hT₁
    rw [if_neg hnull]
    refine wp_takeBlock (b := ⟨s.sHeapHi, growSpan need, false⟩) h₁ hfuel₁ hT₁ rfl hg
      fun s₂ T₂ hk₂ hT₂ h₂ hidle₂ => ?_
    rw [List.append_nil] at hT₂
    exact hgrown hall haccepts hlimit s₂ T₂ _ (hg₁.keeps hk₂) hT₂ h₂ fun hi => hidle₂ (hidle₁ hi)

end SystemProgramming.HeapMgr.Heapmgr1
