import SystemProgramming.HeapMgr.Heapmgr1Check

/-!
# `heapmgr_free` of `heapmgr1.c`

A used block is marked free, linked in front of the list and merged with its free neighbours.  The
layout changes as `release` says and the list as `listAfterRelease` says, in both builds, as long as
the merged block's span fits an `int`.

* `wp_freelistPushFront`: the block in hand is released.
* `wp_heapmgrFree`: so is a used block by `heapmgr_free`.
-/

namespace SystemProgramming.HeapMgr.Heapmgr1

open Exec CInt

variable {cfg : Cfg} {keep : Set ℕ} {m₀ : Mem} {T : Table} {s : Heap1} {l : List ℕ} {b : Block}
  {xs ys : List Block}

/-- **`freelist_push_front`**: the block in hand is released.  Its old header reads as free
afterwards, also where it now lies inside a larger block. -/
theorem wp_freelistPushFront {Q : Unit → Heap1 → Prop} (h : Work keep m₀ s T {b.addr} l)
    (hT : T.blocks = xs ++ b :: ys) (hc : Coalesced xs ∧ Coalesced ys)
    (hfuel : T.blocks.length < cfg.fuel) (hkeep : ∀ v ∈ keep, v < b.addr ∨ b.foot < v)
    (hsmall : (released xs b ys).span < 2 ^ 31)
    (hQ : ∀ s' T', Keeps s s' → T'.blocks = release xs b ys →
      Work keep m₀ s' T' ∅ (listAfterRelease xs b.addr ys l) → (Idle T → Idle T') →
      (s'.mem b.addr).status = chunkFree → Q () s') :
    wp (freelistPushFront cfg b.addr) Q s := by
  have hr := h.rep
  have hmb : b ∈ T.blocks := Rep.mem_of_split hT
  have hbb := hr.bounds hmb
  have hvalid : Gives (chunkIsValid cfg b.addr s.sHeapLo s.sHeapHi) s.mem true :=
    (hr.tagged hmb).gives_isValid
  have hspan : Gives (chunkGetSpanUnits cfg b.addr) s.mem b.span := (hr.tagged hmb).gives_getSpan
  have htwo : Gives ((fun n : ℤ => decide (n ≥ 2)) <$>
      (chunkGetSpanUnits cfg b.addr : Exec Heap1 ℤ)) s true := by
    have hg := (gives_lift hspan).map fun n : ℤ => decide (n ≥ 2)
    rwa [decide_eq_true (hr.tagged hmb).two_le_int] at hg
  unfold freelistPushFront
  simp only [heapLo, heapHi, freeHead, setFreeHead, wp_bind, wp_reads, wp_assert]
  refine ⟨fun _ => ⟨hr.addr_ne_null hmb, (hr.tagged hmb).ends_ne_null⟩,
    fun _ => ⟨hbb.1, by omega⟩, ?_⟩
  refine wp_assertM_gives (fun _ => gives_lift hvalid) ?_
  refine wp_assertM_gives (fun _ => htwo) ?_
  simp only [wp_lift, wp_when, wp_modify]
  -- the block is marked free and linked in front
  refine hr.wp_setStatus (u := false) hT (fun _ => hkeep) fun m₁ hm₁ => ?_
  set c : Block := { b with used := false } with hcdef
  set T₁ := T.setBlocks (xs ++ c :: ys)
  have hmc : c ∈ T₁.blocks := by simp [T₁]
  have h₁ : Work keep m₀ { s with mem := m₁ } T₁ {c.addr} l := ⟨hm₁, h.lists.withStatus false hT⟩
  have hhead : (T₁.setPrev c.addr null).LinkOk s.sFree := h₁.lists.linkOk_head ()
  refine hm₁.wp_setPrev hmc (Or.inl rfl) fun m₂ hm₂ _ => ?_
  have hmc₂ : c ∈ (T₁.setPrev c.addr null).blocks := hmc
  refine hm₂.wp_setNext hmc₂ hhead fun m₃ hm₃ _ => ?_
  have hlink : ((T₁.setPrev c.addr null).setNext c.addr s.sFree).LinkOk c.addr :=
    Or.inr ⟨c, hmc, rfl, rfl⟩
  refine hm₃.wp_setPrevOpt hhead hlink fun m₄ hm₄ _ => ?_
  set T₄ := ((T₁.setPrev c.addr null).setNext c.addr s.sFree).setPrevOpt s.sFree c.addr
  have hT₄ : T₄.blocks = xs ++ c :: ys := rfl
  have h₄ : Work keep m₀ { s with mem := m₄, sFree := c.addr } T₄ ∅ (c.addr :: l) := by
    have hpush := h₁.lists.push hm₁ hmc rfl (Set.mem_singleton _)
    rw [update_unit, update_unit, Set.sdiff_self] at hpush
    exact ⟨hm₄, hpush⟩
  have hidle₄ : Idle T → Idle T₄ := by
    intro hi
    refine hi.congr fun d hd hused => ?_
    have hd' : d ∈ xs ++ c :: ys := hd
    have hdc : d ≠ c := by
      rintro rfl
      cases hused
    have hda : d.addr ≠ c.addr := hm₁.ne_of_linkOk hd hused (Or.inr ⟨c, hmc, rfl, rfl⟩)
    refine ⟨?_, Function.update_of_ne hda _ _, ?_⟩
    · rw [hT]
      simp only [List.mem_append, List.mem_cons, hdc, false_or] at hd' ⊢
      tauto
    · show setLink null (Function.update T.prev c.addr null) s.sFree c.addr d.addr = T.prev d.addr
      rw [setLink_apply_ne (hm₁.ne_of_linkOk hd hused hhead), Function.update_of_ne hda]
  -- both neighbours are merged
  have hsmall₄ : (absorbNext c ys).1.span < 2 ^ 31 := Nat.lt_of_le_of_lt absorbNext_span_le hsmall
  refine wp_mergeNext (b := c) h₄ hT₄ rfl (by simp) hsmall₄ fun s₅ T₅ hk₅ hT₅ h₅ hidle₅ => ?_
  have haddr : (absorbNext c ys).1.addr = c.addr := absorbNext_addr
  have hfree₅ : (absorbNext c ys).1.used = false := absorbNext_used_eq
  rw [← haddr]
  refine wp_mergePrev h₅ hT₅ hfree₅ hsmall fun s₆ T₆ hk₆ hT₆ h₆ hidle₆ hstale => ?_
  rw [haddr] at h₆ hstale
  have hT₆' : T₆.blocks = release xs b ys := hT₆
  -- the head of the list, which holds the released block
  have hmem : (released xs b ys).addr ∈ listAfterRelease xs b.addr ys l := by
    refine h₆.mem_list (b := released xs b ys) (by rw [hT₆']; exact released_mem) ?_
      (Set.notMem_empty _)
    exact absorbPrev_used_eq.trans absorbNext_used_eq
  have hne : listAfterRelease xs b.addr ys l ≠ [] := List.ne_nil_of_mem hmem
  obtain ⟨p, l', hl⟩ := List.exists_cons_of_ne_nil hne
  have hp : s₆.sFree = p := by
    have hhd := h₆.head
    have hl' : listAfterPrev xs c.addr (listAfterNext ys (c.addr :: l)) = p :: l' := hl
    rw [hl'] at hhd
    exact hhd
  have hcut : listAfterRelease xs b.addr ys l = [] ++ p :: l' := hl
  have hprev : Gives (chunkGetPrevFree cfg p) s₆.mem null :=
    h₆.lists.gives_prev (i := ()) h₆.rep hcut
  have hlen : T₆.blocks.length < cfg.fuel := by
    have hle : (release xs b ys).length ≤ _ := length_release_le
    rw [hT₆']
    rw [hT] at hfuel
    omega
  have hcoal : Coalesced T₆.blocks := by
    rw [hT₆']
    exact hc.1.release hc.2
  rw [hp]
  refine ⟨fun _ => ?_, wp_assertM_gives (fun _ => (gives_lift hprev).beq) ?_⟩
  · intro he
    have hpl : p ∈ listAfterRelease xs b.addr ys l := by simp [hl]
    exact h₆.null_not_mem (he ▸ hpl)
  · refine wp_assertM_gives (fun _ => gives_checkHeapValidity h₆ hcoal hlen) ?_
    exact hQ s₆ T₆ ((keeps_set s m₄ c.addr).trans (hk₅.trans hk₆)) hT₆' h₆
      (fun hi => hidle₆ (hidle₅ (hidle₄ hi))) hstale

/-- **`heapmgr_free`** of a used block.  Only the debug build asks for its links to be null. -/
theorem wp_heapmgrFree {Q : Unit → Heap1 → Prop} (h : Work keep m₀ s T ∅ l)
    (hc : Coalesced T.blocks) (hfuel : T.blocks.length < cfg.fuel) (hT : T.blocks = xs ++ b :: ys)
    (hb : b.used = true) (hkeep : ∀ v ∈ keep, v < b.addr ∨ b.foot < v)
    (hsmall : (released xs b ys).span < 2 ^ 31)
    (hidle : cfg.asserts = true → T.next b.addr = null ∧ T.prev b.addr = null)
    (hQ : ∀ s' T', Keeps s s' → T'.blocks = release xs b ys → Coalesced T'.blocks →
      Work keep m₀ s' T' ∅ (listAfterRelease xs b.addr ys l) → (Idle T → Idle T') → Q () s') :
    wp (heapmgrFree cfg (b.addr + 1)) Q s := by
  have hr := h.rep
  have hmb : b ∈ T.blocks := Rep.mem_of_split hT
  have hbb := hr.bounds hmb
  have hlo := hr.lo_pos
  have hhi := hr.hi_lt
  have hheader := headerFromPayload_succ (p := b.addr) (by omega)
  have hnull : b.addr + 1 ≠ null := Nat.succ_ne_zero _
  have hvalid : Gives (chunkIsValid cfg b.addr s.sHeapLo s.sHeapHi) s.mem true :=
    (hr.tagged hmb).gives_isValid
  have hstatus : Gives (chunkGetStatus cfg b.addr) s.mem chunkUsed := by
    have hg : Gives (chunkGetStatus cfg b.addr) s.mem _ := h.rep.gives_status hmb
    rwa [hb] at hg
  have hunlinked : cfg.asserts = true → Gives (do
      let next ← chunkGetNextFree cfg b.addr
      if next ≠ null then return false else
      let prev ← chunkGetPrevFree cfg b.addr
      return prev == null : Exec Heap1 Bool) s true := by
    intro hon
    obtain ⟨hn, hp⟩ := hidle hon
    have hnext : Gives (chunkGetNextFree cfg b.addr) s.mem _ := hr.gives_getNext hmb (Or.inl hn)
    have hprev : Gives (chunkGetPrevFree cfg b.addr) s.mem _ := hr.gives_getPrev hmb (Or.inl hp)
    rw [hn] at hnext
    rw [hp] at hprev
    exact (gives_lift hnext).bind ((gives_lift hprev).bind (gives_pure true))
  have hwork : Work keep m₀ s T {b.addr} l := ⟨hr, h.lists.hold hr hmb hb⟩
  have hcoal := hc
  rw [hT, coalesced_append_cons] at hcoal
  unfold heapmgrFree
  simp only [heapLo, heapHi, wp_bind, wp_reads, wp_assert, if_neg hnull, hheader]
  refine ⟨fun _ => (hr.tagged hmb).ends_ne_null, fun _ => Or.inr ⟨by omega, by omega⟩, ?_⟩
  refine wp_assertM_gives (fun _ => gives_checkHeapValidity h hc hfuel) ?_
  refine ⟨fun _ => hr.addr_ne_null hmb, ?_⟩
  refine wp_assertM_gives (fun _ => gives_lift hvalid) ?_
  refine wp_assertM_gives (fun _ => (gives_lift hstatus).beq) ?_
  refine wp_assertM_gives hunlinked ?_
  refine wp_freelistPushFront hwork hT ⟨hcoal.1, hcoal.2.1⟩ hfuel hkeep hsmall
    fun s₁ T₁ hk₁ hT₁ h₁ hidle₁ hstale => ?_
  have hcoal₁ : Coalesced T₁.blocks := by
    rw [hT₁]
    exact hcoal.1.release hcoal.2.1
  have hlen : T₁.blocks.length < cfg.fuel := by
    have hle : (release xs b ys).length ≤ _ := length_release_le
    rw [hT₁]
    rw [hT] at hfuel
    omega
  have hfreed : Gives (chunkGetStatus cfg b.addr) s₁.mem chunkFree := by
    apply gives_of_wp
    simpa [chunkGetStatus, cell, hr.addr_ne_null hmb] using hstale
  refine wp_assertM_gives (fun _ => (gives_lift hfreed).beq) ?_
  refine wp_assertM_gives (fun _ => gives_checkHeapValidity h₁ hcoal₁ hlen) ?_
  exact hQ s₁ T₁ hk₁ hT₁ hcoal₁ h₁ hidle₁

end SystemProgramming.HeapMgr.Heapmgr1
