import SystemProgramming.HeapMgr.Heapmgr2Order

/-!
# Allocating and freeing at once

A layout without free neighbours is determined by its used blocks (`Coalesced.unique`).  So whatever
way `heapmgr_malloc` takes, freeing its result at once brings back the layout: the old one, or, where
the heap has grown, the old one with the new memory as free space at its end.

* `malloc_free_restores`: an allocation and its release, on a booted heap.
* `heapmgr2_malloc_free_neutral`: the same in every session of a correct client.
-/

namespace SystemProgramming.HeapMgr.Heapmgr2

open Exec

variable {cfg : Cfg} {m₀ : Mem} {T : Table} {s : Heap2} {bl : Fin numBins → List ℕ} {b : Block}
  {xs ys : List Block} {n size : ℕ}

/-- Freeing the block that was just allocated from `b`. -/
theorem free_allocated (h : WellFormed ∅ m₀ s T bl) (hos : OsOk s) (hl : Limited (2 ^ 31) s)
    (hcfg : 2 ^ 31 ≤ cfg.fuel) (hT : T.blocks = xs ++ allocate b n ++ ys) :
    ∃ s' T' bl', heapmgrFree cfg ((allocated b n).addr + 1) s = .ok () s' ∧ Keeps s s' ∧
      WellFormed ∅ m₀ s' T' bl' ∧ usedBlocks T'.blocks = usedBlocks xs ++ usedBlocks ys := by
  obtain ⟨ws, hsplit, hws⟩ := exists_allocate_split xs b ys n
  rw [hsplit] at hT
  have hsmall : (released ws (allocated b n) ys).span < 2 ^ 31 :=
    released_lt_of_limited hos hl h.work.rep.tiles hT
  have hcall : wp (heapmgrFree cfg ((allocated b n).addr + 1)) (fun _ s' => ∃ T' bl', Keeps s s' ∧
      WellFormed ∅ m₀ s' T' bl' ∧ usedBlocks T'.blocks = usedBlocks xs ++ usedBlocks ys) s := by
    refine wp_heapmgrFree h (hos.within (hl.mono hcfg)) hT allocated_used
      (fun v hv => absurd hv (Set.notMem_empty v)) hsmall fun s' T' bl' hk hT' hwf => ?_
    refine ⟨T', bl', hk, hwf, ?_⟩
    rw [hT', usedBlocks_release, hws]
  obtain ⟨_, s', hrun, T', bl', hk, hwf, hused⟩ := hcall
  exact ⟨s', T', bl', hrun, hk, hwf, hused⟩

/-- What an allocation that is freed at once leaves of the heap `s` with the blocks `bs` and the bins
`bl`, when the allocation has led to `s₁` and the release to `s₂`. -/
def Restores (s : Heap2) (bs : List Block) (bl : Fin numBins → List ℕ) (s₁ s₂ : Heap2) : Prop :=
  ∃ bs' bl', InOrder s₂.sFree binOf s₂ bs' bl' ∧
    (s₁.sHeapHi = s.sHeapHi → bs' = bs ∧ ∀ i a, a ∈ bl' i ↔ a ∈ bl i) ∧
    (s₁.sHeapHi ≠ s.sHeapHi → bs' = release bs ⟨s.sHeapHi, s₁.sHeapHi - s.sHeapHi, false⟩ [])

/-- The old layout is back. -/
theorem restores_of_same {s₁ s₂ : Heap2} {T₂ : Table} {bl₂ : Fin numBins → List ℕ}
    (h : WellFormed ∅ m₀ s T bl) (h₂ : WellFormed ∅ m₀ s₂ T₂ bl₂) (hk₁ : Keeps s s₁)
    (hk₂ : Keeps s₁ s₂) (hused : usedBlocks T₂.blocks = usedBlocks T.blocks) :
    Restores s T.blocks bl s₁ s₂ := by
  have hk := hk₁.trans hk₂
  have hsame : T.blocks = T₂.blocks := h.blocks_unique h₂ hk.lo hk.hi hused.symm
  have hin := h.inOrder
  have hin₂ := h₂.inOrder
  rw [← hsame] at hin₂
  refine ⟨T.blocks, bl₂, hin₂, fun _ => ⟨rfl, fun i a => ?_⟩, fun hne => absurd hk₁.hi hne⟩
  rw [hin.mem, hin₂.mem]

/-- The new memory is free space at the end. -/
theorem restores_of_grown {s₁ s₂ : Heap2} {T₂ : Table} {bl₂ : Fin numBins → List ℕ}
    (h : WellFormed ∅ m₀ s T bl) (h₂ : WellFormed ∅ m₀ s₂ T₂ bl₂) (hpos : 0 < n)
    (hg : Grown n s s₁) (hk₂ : Keeps s₁ s₂) (hused : usedBlocks T₂.blocks = usedBlocks T.blocks) :
    Restores s T.blocks bl s₁ s₂ := by
  have hlen : s₁.sHeapHi - s.sHeapHi = n := by
    rw [hg.hi]
    exact Nat.add_sub_cancel_left _ _
  have hgrown : Tiles Block.addr Block.span s.sHeapLo (s.sHeapHi + n)
      (T.blocks ++ ⟨s.sHeapHi, n, false⟩ :: []) :=
    tiles_append.mpr ⟨s.sHeapHi, h.work.rep.tiles, rfl, hpos, rfl⟩
  have ht₂ := h₂.work.rep.tiles
  rw [hk₂.lo, hk₂.hi, hg.lo, hg.hi] at ht₂
  have hsame : T₂.blocks = release T.blocks ⟨s.sHeapHi, n, false⟩ [] := by
    refine h₂.coalesced.unique (h.coalesced.release List.isChain_nil) ht₂ (tiles_release hgrown) ?_
    rw [usedBlocks_release, hused]
    exact (List.append_nil _).symm
  refine ⟨T₂.blocks, bl₂, h₂.inOrder, fun he => ?_, fun _ => ?_⟩
  · have hhi := hg.hi
    omega
  · rw [hlen]
    exact hsame

/-- **One allocation and its release** on a booted heap that is limited to `2^31` units. -/
theorem malloc_free_restores (h : WellFormed ∅ m₀ s T bl) (hos : OsOk s)
    (hboot : s.sHeapBooted = true) (hl : Limited (2 ^ 31) s) (hcfg : 2 ^ 31 ≤ cfg.fuel)
    (hpos : 1 ≤ size) (hle : size ≤ 3 * 10 ^ 8) :
    ∃ p s₁ s₂, heapmgrMalloc cfg size s = .ok p s₁ ∧ heapmgrFree cfg p s₁ = .ok () s₂ ∧
      Restores s T.blocks bl s₁ s₂ := by
  have hneed := payloadUnits_lt hle
  have hcall : wp (heapmgrMalloc cfg size) (fun p s₁ => ∃ s₂, heapmgrFree cfg p s₁ = .ok () s₂ ∧
      Restores s T.blocks bl s₁ s₂) s := by
    refine wp_heapmgrMalloc h hos hboot (hl.mono hcfg) hpos (bytesToPayloadUnits_eq (by omega))
      (fun _ => growthFits_of_limited hos hl h.work.rep.tiles hneed) ?_ ?_ ?_
    · intro xs b ys hT hfree hspan s₁ T₁ bl₁ hk hT₁ h₁
      obtain ⟨s₂, T₂, bl₂, hrun, hk₂, h₂, hused⟩ :=
        free_allocated h₁ (hos.keeps hk) (hl.keeps hk) hcfg hT₁
      refine ⟨s₂, hrun, restores_of_same h h₂ hk hk₂ ?_⟩
      rw [hused, hT, usedBlocks_append, usedBlocks_cons_free hfree]
    · -- the kernel refuses, and the null pointer is freed
      intro _ _
      have hr := h.work.rep
      have hlo : s.sHeapLo ≠ null := Nat.ne_of_gt hr.lo_pos
      have hhi : s.sHeapHi ≠ null := Nat.ne_of_gt (Nat.lt_of_lt_of_le hr.lo_pos hr.tiles.le)
      have hnone : wp (heapmgrFree cfg null) (fun _ s₂ =>
          s₂ = { s with os := { s.os with calls := s.os.calls + 1 } })
          { s with os := { s.os with calls := s.os.calls + 1 } } := by
        simp [heapmgrFree, heapLo, heapHi, hlo, hhi]
      obtain ⟨_, s₂, hrun, rfl⟩ := hnone
      have hin := h.inOrder
      refine ⟨_, hrun, T.blocks, bl, ?_, fun _ => ⟨rfl, fun _ _ => Iff.rfl⟩, fun hne => ?_⟩
      · exact { hin with }
      · exact absurd rfl hne
    · intro _ _ hlimit xs b ys hT hfree hspan s₁ T₁ bl₁ hg hT₁ h₁
      obtain ⟨s₂, T₂, bl₂, hrun, hk₂, h₂, hused⟩ :=
        free_allocated h₁ (hos.grown hg hlimit) (hl.grown hg) hcfg hT₁
      have hgpos : 0 < growSpan (payloadUnits size) := by
        unfold growSpan
        omega
      refine ⟨s₂, hrun, restores_of_grown h h₂ hgpos hg hk₂ ?_⟩
      have hbefore := congrArg usedBlocks hT
      rw [usedBlocks_release, usedBlocks_append, usedBlocks_cons_free hfree] at hbefore
      rw [hused, ← hbefore]
      exact List.append_nil _
  obtain ⟨p, s₁, hrun, s₂, hrun₂, hres⟩ := hcall
  exact ⟨p, s₁, s₂, hrun, hrun₂, hres⟩

/-- **Neutrality.**  In every session of a correct client, an allocation that is freed at once leaves
the layout and the bins as they were when the heap has not grown, and otherwise the old layout with the
new memory as free space, merged with the last block if that was free.  Only the very first call may
exit, when the kernel cannot tell the break. -/
theorem heapmgr2_malloc_free_neutral {tr : List Call} {st : Session Bins} (hcfg : 2 ^ 31 ≤ cfg.fuel)
    (h : Reach (clientSys (manager cfg)) tr st) (hpos : 1 ≤ size) (hle : size ≤ 3 * 10 ^ 8) :
    (tr = [] ∧ st.heap.os.ready = false ∧ heapmgrMalloc cfg size st.heap = .exit (-1)) ∨
    ∃ s bs bl p s₁ s₂, heapBootstrap st.heap = .ok () s ∧ InOrder s.sFree binOf s bs bl ∧
      heapmgrMalloc cfg size st.heap = .ok p s₁ ∧ heapmgrFree cfg p s₁ = .ok () s₂ ∧
      Restores s bs bl s₁ s₂ := by
  rcases malloc_prepared hcfg h hpos with hexit | ⟨T, hT, heq⟩
  · exact Or.inl hexit
  · obtain ⟨⟨bl, hwf⟩, hl⟩ := hT.wf
    obtain ⟨p, s₁, s₂, hcall, hfree, hres⟩ :=
      malloc_free_restores hwf hT.os hT.booted hl hcfg hpos hle
    exact Or.inr ⟨afterBoot st.heap, T.blocks, bl, p, s₁, s₂, heapBootstrap_eq hT.os, hwf.inOrder,
      heq.trans hcall, hfree, hres⟩

/-- Between two free blocks one is used, and 16 more bytes are allocated and freed at once. -/
theorem heapmgr2_malloc_free_neutral_holes : ∃ (s : Heap2) (bl : Fin numBins → List ℕ) (p : ℕ) (s₁ s₂ : Heap2),
    InOrder s.sFree binOf s twoHoles bl ∧ heapmgrMalloc ⟨true, 2 ^ 31⟩ 16 s = .ok p s₁ ∧
      heapmgrFree ⟨true, 2 ^ 31⟩ p s₁ = .ok () s₂ ∧ Restores s twoHoles bl s₁ s₂ := by
  obtain ⟨st, hrun, -, hlaid⟩ := holes_reach holes_value
  have hbooted := bootstrap_of_reach (Nat.le_refl _) hrun (List.cons_ne_nil _ _)
  rcases heapmgr2_malloc_free_neutral (Nat.le_refl _) hrun (show 1 ≤ 16 by decide) (by decide) with
    ⟨hnil, -⟩ | ⟨s, bs, bl, p, s₁, s₂, hboot, hin, hmalloc, hfree, hres⟩
  · cases hnil
  cases hbooted.symm.trans hboot
  have hbs : bs = twoHoles := hin.toLaidOut.unique hlaid
  rw [hbs] at hin hres
  exact ⟨st.heap, bl, p, s₁, s₂, hin, hmalloc, hfree, hres⟩

end SystemProgramming.HeapMgr.Heapmgr2
