import SystemProgramming.HeapMgr.Heapmgr2Search

/-!
# Freeing in any order

A coalesced layout is determined by the blocks in use, so what a series of calls of `heapmgr_free`
leaves behind depends on which blocks are freed and not on the order: the layout is the same, and
with it the set of blocks in each bin.

* `wp_freeAll`: what a series of frees leaves.
* `heapmgr2_free_order`: it does not depend on the order.
-/

namespace SystemProgramming.HeapMgr.Heapmgr2

open Exec

variable {cfg : Cfg} {m₀ : Mem} {T T' : Table} {s s' : Heap2} {bl bl' : Fin numBins → List ℕ}
  {tr : List Call} {st : Session Bins} {as as' : List Alloc}

/-- Free the blocks behind the pointers, one after the other. -/
def freeAll (cfg : Cfg) : List ℕ → Exec Heap2 Unit
  | [] => return ()
  | p :: ps => do
    heapmgrFree cfg p
    freeAll cfg ps

/-- The used blocks once those behind `ps` have been freed. -/
def keptBlocks (bs : List Block) (ps : List ℕ) : List Block :=
  (usedBlocks bs).filter fun b => b.addr + 1 ∉ ps

/-- Which used blocks are left does not depend on the order. -/
theorem keptBlocks_perm {bs : List Block} {ps ps' : List ℕ} (h : ps.Perm ps') :
    keptBlocks bs ps = keptBlocks bs ps' := by
  unfold keptBlocks
  congr 1
  funext b
  simp only [h.mem_iff]

/-- One block less is left after one more free. -/
theorem keptBlocks_release {xs ys : List Block} {b : Block} {ps : List ℕ} (hb : b.used = true)
    (hne : ∀ c, c ∈ xs ∨ c ∈ ys → c.addr ≠ b.addr) :
    keptBlocks (release xs b ys) ps = keptBlocks (xs ++ b :: ys) ((b.addr + 1) :: ps) := by
  unfold keptBlocks
  rw [usedBlocks_release, usedBlocks_append, usedBlocks_cons_used hb, List.filter_append,
    List.filter_append, List.filter_cons_of_neg (by simp)]
  have hsame : ∀ zs : List Block, (∀ c ∈ zs, c.addr ≠ b.addr) →
      (usedBlocks zs).filter (fun c => c.addr + 1 ∉ ps)
        = (usedBlocks zs).filter fun c => c.addr + 1 ∉ (b.addr + 1) :: ps := by
    intro zs hzs
    refine List.filter_congr fun c hc => ?_
    have hcb := hzs c (mem_usedBlocks.mp hc).1
    simp [hcb]
  rw [hsame xs fun c hc => hne c (Or.inl hc), hsame ys fun c hc => hne c (Or.inr hc)]

/-- **A series of frees** leaves a well-formed heap with the same ends, whose used blocks are the ones
that were not freed. -/
theorem wp_freeAll {ps : List ℕ} (h : WellFormed ∅ m₀ s T bl) (hcfg : Fuelled cfg s)
    (hsmall : s.sHeapHi < s.sHeapLo + 2 ^ 31) (hnodup : ps.Nodup)
    (hps : ∀ p ∈ ps, ∃ b ∈ T.blocks, b.used = true ∧ b.addr + 1 = p) :
    wp (freeAll cfg ps) (fun _ s' => ∃ T' bl', Keeps s s' ∧ WellFormed ∅ m₀ s' T' bl' ∧
      usedBlocks T'.blocks = keptBlocks T.blocks ps) s := by
  induction ps generalizing s T bl with
  | nil =>
    refine (wp_pure ()).mpr ⟨T, bl, Keeps.refl s, h, ?_⟩
    unfold keptBlocks
    exact (List.filter_eq_self.mpr fun b _ => by simp).symm
  | cons p ps ih =>
    obtain ⟨hp, hrestNodup⟩ := List.nodup_cons.mp hnodup
    obtain ⟨b, hb, hused, rfl⟩ := hps p (by simp)
    obtain ⟨xs, ys, hT⟩ := List.append_of_mem hb
    have hr := h.work.rep
    have ht := hr.tiles
    rw [hT] at ht
    have hle := released_span_le ht
    unfold freeAll
    rw [wp_bind]
    refine wp_heapmgrFree h hcfg hT hused (fun v hv => absurd hv (Set.notMem_empty v)) (by omega)
      fun s₁ T₁ bl₁ hk₁ hT₁ h₁ => ?_
    have hne : ∀ c, c ∈ xs ∨ c ∈ ys → c.addr ≠ b.addr := fun c hc => hr.ne_of_split hT hc
    have hrest : ∀ p ∈ ps, ∃ c ∈ T₁.blocks, c.used = true ∧ c.addr + 1 = p := by
      intro q hq
      obtain ⟨c, hc, hcused, rfl⟩ := hps q (List.mem_cons_of_mem _ hq)
      have hcb : c ≠ b := by
        rintro rfl
        exact hp hq
      have hmem : c ∈ usedBlocks T₁.blocks := by
        rw [hT₁, usedBlocks_release, ← usedBlocks_append]
        refine mem_usedBlocks.mpr ⟨?_, hcused⟩
        rw [hT] at hc
        simp only [List.mem_append, List.mem_cons, hcb, false_or] at hc ⊢
        exact hc
      obtain ⟨hcT, -⟩ := mem_usedBlocks.mp hmem
      exact ⟨c, hcT, hcused, rfl⟩
    refine (ih h₁ (hcfg.keeps hk₁) (by rw [hk₁.lo, hk₁.hi]; exact hsmall) hrestNodup hrest).mono ?_
    rintro - s' ⟨T', bl', hk', h', hkept⟩
    refine ⟨T', bl', hk₁.trans hk', h', ?_⟩
    rw [hkept, hT₁, hT, keptBlocks_release hused hne]

/-- Two heaps with the same ends and the same used blocks have the same layout. -/
theorem WellFormed.blocks_unique (h : WellFormed ∅ m₀ s T bl) (h' : WellFormed ∅ m₀ s' T' bl')
    (hlo : s'.sHeapLo = s.sHeapLo) (hhi : s'.sHeapHi = s.sHeapHi)
    (hused : usedBlocks T.blocks = usedBlocks T'.blocks) : T.blocks = T'.blocks := by
  have ht' := h'.work.rep.tiles
  rw [hlo, hhi] at ht'
  exact h.coalesced.unique h'.coalesced h.work.rep.tiles ht' hused

/-! ### In a session -/

/-- The frees of live allocations, in a session: they return, on a heap in order with the same ends,
whose used blocks are the ones that were not freed. -/
theorem freeAll_sound (hcfg : 2 ^ 31 ≤ cfg.fuel) (hT : Sound (Binned (2 ^ 31)) st T)
    (hlive : ∀ a ∈ as, a ∈ st.live) (hnodup : as.Nodup) :
    ∃ s' T' bl', freeAll cfg (as.map Alloc.ptr) st.heap = .ok () s' ∧ Keeps st.heap s' ∧
      WellFormed ∅ st.heap.mem s' T' bl' ∧
      usedBlocks T'.blocks = keptBlocks T.blocks (as.map Alloc.ptr) := by
  obtain ⟨⟨bl, hwf⟩, hl⟩ := hT.wf
  have hptrs : (as.map Alloc.ptr).Nodup := by
    refine hnodup.map_on fun a ha a' ha' heq => ?_
    exact List.inj_on_of_nodup_map (hT.nodup_ptrs (serves hcfg)) (hlive a ha) (hlive a' ha') heq
  have hblocks : ∀ p ∈ as.map Alloc.ptr, ∃ b ∈ T.blocks, b.used = true ∧ b.addr + 1 = p := by
    intro p hp
    obtain ⟨a, ha, rfl⟩ := List.mem_map.mp hp
    obtain ⟨b, hb, hused, hptr, -⟩ := hT.block (hlive a ha)
    exact ⟨b, hb, hused, hptr⟩
  obtain ⟨⟨⟩, s', hrun, T', bl', hk, h', hkept⟩ :=
    wp_freeAll hwf (hT.os.within (hl.mono hcfg)) (hT.os.within hl) hptrs hblocks
  exact ⟨s', T', bl', hrun, hk, h', hkept⟩

/-- Once everything live has been freed, no block is in use. -/
theorem keptBlocks_live (hT : Sound (Binned (2 ^ 31)) st T) (hall : as.Perm st.live) :
    keptBlocks T.blocks (as.map Alloc.ptr) = [] := by
  refine List.filter_eq_nil_iff.mpr fun b hb => ?_
  have hmem : b.addr + 1 ∈ st.live.map Alloc.ptr :=
    hT.live.mem_iff.mpr (List.mem_map.mpr ⟨b, hb, rfl⟩)
  have hptr : b.addr + 1 ∈ as.map Alloc.ptr := (hall.map Alloc.ptr).mem_iff.mpr hmem
  simp [hptr]

/-- **Freeing is order independent.**  In every session of a correct client, freeing the allocations
of a set in two orders gives the same layout and the same set of blocks in each bin; freeing all of
them leaves one free block, unless the heap has never grown. -/
theorem heapmgr2_free_order (hcfg : 2 ^ 31 ≤ cfg.fuel)
    (h : Reach (clientSys (manager cfg)) tr st) (hlive : ∀ a ∈ as, a ∈ st.live)
    (hnodup : as.Nodup) (hperm : as.Perm as') :
    ∃ s s' bs bl bl', freeAll cfg (as.map Alloc.ptr) st.heap = .ok () s ∧
      freeAll cfg (as'.map Alloc.ptr) st.heap = .ok () s' ∧
      InOrder s.sFree binOf s bs bl ∧ InOrder s'.sFree binOf s' bs bl' ∧
      (∀ i a, a ∈ bl i ↔ a ∈ bl' i) ∧
      (as.Perm st.live → st.heap.sHeapLo ≠ st.heap.sHeapHi →
        bs = [⟨st.heap.sHeapLo, st.heap.sHeapHi - st.heap.sHeapLo, false⟩]) := by
  have hlive' : ∀ a ∈ as', a ∈ st.live := fun a ha => hlive a (hperm.mem_iff.mpr ha)
  rcases reach_sound hcfg h with ⟨-, hstart⟩ | ⟨T, hT⟩
  · -- nothing is live before the first call
    have hnil : as = [] := by
      refine List.eq_nil_iff_forall_not_mem.mpr fun a ha => ?_
      have ha' := hlive a ha
      rw [hstart.live] at ha'
      cases ha'
    subst hnil
    obtain rfl := List.nil_perm.mp hperm
    have hin : InOrder st.heap.sFree binOf st.heap [] fun _ => [] := by
      refine inOrder_nil ?_ fun i => congrFun hstart.lists i
      rw [hstart.lo, hstart.hi]
    refine ⟨st.heap, st.heap, [], _, _, rfl, rfl, hin, hin, fun _ _ => Iff.rfl, fun _ hne => ?_⟩
    rw [hstart.lo, hstart.hi] at hne
    exact absurd rfl hne
  · obtain ⟨s, T₁, bl, hrun, hk, h₁, hkept⟩ := freeAll_sound hcfg hT hlive hnodup
    obtain ⟨s', T₂, bl', hrun', hk', h₂, hkept'⟩ :=
      freeAll_sound hcfg hT hlive' (hperm.nodup_iff.mp hnodup)
    have hsame : T₁.blocks = T₂.blocks := by
      refine h₁.blocks_unique h₂ (hk'.lo.trans hk.lo.symm) (hk'.hi.trans hk.hi.symm) ?_
      rw [hkept, hkept', keptBlocks_perm (hperm.map Alloc.ptr)]
    have hin := h₁.inOrder
    have hin' := h₂.inOrder
    rw [← hsame] at hin'
    refine ⟨s, s', T₁.blocks, bl, bl', hrun, hrun', hin, hin', fun i a => ?_, fun hall hgrown => ?_⟩
    · rw [hin.mem, hin'.mem]
    · rw [keptBlocks_live hT hall] at hkept
      have ht := h₁.work.rep.tiles
      rw [hk.lo, hk.hi] at ht
      have hle := ht.le
      refine h₁.coalesced.unique ?_ ht ⟨rfl, ?_, ?_⟩ hkept
      · exact List.isChain_singleton _
      · show 0 < st.heap.sHeapHi - st.heap.sHeapLo
        omega
      · show st.heap.sHeapLo + (st.heap.sHeapHi - st.heap.sHeapLo) = st.heap.sHeapHi
        omega

/-- Two allocations of one byte. -/
def twoBytes : Exec Heap2 (ℕ × ℕ) := do
  let p ← heapmgrMalloc ⟨true, 2 ^ 31⟩ 1
  let q ← heapmgrMalloc ⟨true, 2 ^ 31⟩ 1
  return (p, q)

theorem twoBytes_value : (twoBytes (firstSession (manager ⟨true, 2 ^ 31⟩)).heap).value
    = some (1025, 1022) := by decide +kernel

/-- Two live bytes may be freed in either order. -/
theorem heapmgr2_free_order_two : ∃ (st : Session Bins) (s s' : Heap2) (bs : List Block)
    (bl bl' : Fin numBins → List ℕ),
    freeAll ⟨true, 2 ^ 31⟩ [1025, 1022] st.heap = .ok () s ∧
    freeAll ⟨true, 2 ^ 31⟩ [1022, 1025] st.heap = .ok () s' ∧
    InOrder s.sFree binOf s bs bl ∧ InOrder s'.sFree binOf s' bs bl' := by
  obtain ⟨p, h₁, hfirst, hrest⟩ := exists_of_bind_value twoBytes_value
  obtain ⟨q, h₂, hsecond, hrest⟩ := exists_of_bind_value hrest
  obtain ⟨rfl, rfl⟩ := Prod.mk.inj (Option.some.inj hrest)
  have hinit : Reach (clientSys (manager ⟨true, 2 ^ 31⟩)) [] (firstSession (manager ⟨true, 2 ^ 31⟩)) :=
    Reach.init (firstSession_fresh _)
  have hrun := Reach.step hinit (step_malloc (by decide) (by decide) hfirst)
  set st₁ := (firstSession (manager ⟨true, 2 ^ 31⟩)).afterMalloc 1 1025 h₁ with hst₁
  have hheap : st₁.heap = h₁ := by simp [hst₁, Session.afterMalloc, null]
  have hlive : st₁.live = [⟨1025, 1⟩] := by simp [hst₁, Session.afterMalloc, null, firstSession]
  rw [← hheap] at hsecond
  have hrun' := Reach.step hrun (step_malloc (by decide) (by decide) hsecond)
  set st₂ := st₁.afterMalloc 1 1022 h₂ with hst₂
  have hlive' : st₂.live = [⟨1022, 1⟩, ⟨1025, 1⟩] := by
    simp [hst₂, Session.afterMalloc, null, hlive]
  obtain ⟨s, s', bs, bl, bl', hone, hother, hin, hin', -⟩ := heapmgr2_free_order (Nat.le_refl _) hrun'
    (show ∀ a ∈ [(⟨1025, 1⟩ : Alloc), ⟨1022, 1⟩], a ∈ st₂.live by rw [hlive']; decide) (by decide)
    (List.Perm.swap (⟨1022, 1⟩ : Alloc) ⟨1025, 1⟩ [])
  exact ⟨st₂, s, s', bs, bl, bl', hone, hother, hin, hin'⟩

end SystemProgramming.HeapMgr.Heapmgr2
