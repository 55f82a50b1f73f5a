import SystemProgramming.HeapMgr.Heapmgr2Run

/-!
# The search of `heapmgr_malloc` in `heapmgr2.c` is complete

The search starts at the bin of the span that is needed and, after the heap has grown, at the bin of
what it grew by.  In every session of a correct client it finds a block exactly when there is one
that is large enough, so the kernel is asked only when it has to be, and a grown heap always serves
the request.

* `heapmgr2_search_complete`: in every session the kernel is asked exactly when no free block is large enough.
-/

namespace SystemProgramming.HeapMgr.Heapmgr2

open Exec

variable {cfg : Cfg} {keep : Set ℕ} {m₀ : Mem} {T : Table} {s s' : Heap2} {bs xs ys : List Block}
  {bl : Fin numBins → List ℕ} {b : Block} {n p size : ℕ}

theorem WellFormed.inOrder (h : WellFormed keep m₀ s T bl) : InOrder s.sFree binOf s T.blocks bl :=
  inOrder_of_listed h.work.rep h.work.lists.toListed h.coalesced

/-- The pointer `p` and the heap `s'` result from allocating `n` units from a free block of `bs`: the
block handed out has `n` or `n + 1` units, and what is left of a larger one is free, in its bin. -/
def Takes (bs : List Block) (n p : ℕ) (s' : Heap2) : Prop :=
  ∃ xs b ys bl, bs = xs ++ b :: ys ∧ b.used = false ∧ n ≤ b.span ∧
    p = (allocated b n).addr + 1 ∧ ((allocated b n).span = n ∨ (allocated b n).span = n + 1) ∧
    InOrder s'.sFree binOf s' (xs ++ allocate b n ++ ys) bl ∧
    (n + 2 ≤ b.span → b.addr ∈ bl (binOf (b.span - n)))

/-- What `heapmgr_malloc(size)` does to a heap `s` with the blocks `bs`. -/
structure Serving (s : Heap2) (bs : List Block) (size p : ℕ) (s' : Heap2) : Prop where
  asks : s'.os.calls = s.os.calls + 1 ↔ NoneFits bs (blockUnits size)
  quiet : s'.os.calls = s.os.calls ↔ ¬ NoneFits bs (blockUnits size)
  fits : ¬ NoneFits bs (blockUnits size) → p ≠ null ∧ Takes bs (blockUnits size) p s'
  refused : NoneFits bs (blockUnits size) → ¬ s.os.Grants (growSpan (payloadUnits size)) →
    p = null ∧ s' = { s with os := { s.os with calls := s.os.calls + 1 } }
  grows : NoneFits bs (blockUnits size) → s.os.Grants (growSpan (payloadUnits size)) →
    p ≠ null ∧
      Takes (release bs ⟨s.sHeapHi, growSpan (payloadUnits size), false⟩ []) (blockUnits size) p s'

theorem takes_of_wellFormed (hb : b.used = false) (hspan : n ≤ b.span)
    (hT : T.blocks = xs ++ allocate b n ++ ys) (h : WellFormed keep m₀ s' T bl) :
    Takes (xs ++ b :: ys) n ((allocated b n).addr + 1) s' := by
  have hin := h.inOrder
  rw [hT] at hin
  refine ⟨xs, b, ys, bl, rfl, hb, hspan, rfl, allocated_span_cases hspan, hin, fun hsplit => ?_⟩
  have hrest : (⟨b.addr, b.span - n, false⟩ : Block) ∈ xs ++ allocate b n ++ ys := by
    simp [allocate, hsplit]
  exact (hin.mem _ _).mpr ⟨_, hrest, rfl, rfl, rfl⟩

theorem not_noneFits (hb : b.used = false) (hspan : n ≤ b.span) : ¬ NoneFits (xs ++ b :: ys) n := by
  intro hnone
  have hlt := hnone b (by simp) hb
  omega

/-- **One call** on a booted heap that is limited to `2^31` units. -/
theorem wp_heapmgrMalloc_serving (h : WellFormed keep m₀ s T bl) (hos : OsOk s)
    (hboot : s.sHeapBooted = true) (hl : Limited (2 ^ 31) s) (hcfg : 2 ^ 31 ≤ cfg.fuel)
    (hpos : 1 ≤ size) (hle : size ≤ 3 * 10 ^ 8) :
    wp (heapmgrMalloc cfg size) (fun p s' => Serving s T.blocks size p s') s := by
  have hneed := payloadUnits_lt hle
  have hgrow : growSpan (payloadUnits size) < 2 ^ 31 := by
    unfold growSpan sysMinAllocUnits
    omega
  have hgrants : s.os.Accepts (growSpan (payloadUnits size)) ↔ _ := Os.accepts_iff hgrow
  have hunits : blockUnits size = payloadUnits size + 2 := rfl
  refine wp_heapmgrMalloc h hos hboot (hl.mono hcfg) hpos (bytesToPayloadUnits_eq (by omega))
    (fun _ => growthFits_of_limited hos hl h.work.rep.tiles hneed) ?_ ?_ ?_
  · intro xs b ys hT hb hspan s' T' bl' hk hT' h'
    have hfit : ¬ NoneFits T.blocks (blockUnits size) := hT ▸ not_noneFits hb hspan
    have htakes : Takes T.blocks (blockUnits size) _ s' := hT ▸ takes_of_wellFormed hb hspan hT' h'
    have hos' : s'.os = s.os := hk.os
    exact
      { asks := ⟨fun hcalls => by rw [hos'] at hcalls; omega, fun hnone => absurd hnone hfit⟩
        quiet := ⟨fun _ => hfit, fun _ => by rw [hos']⟩
        fits := fun _ => ⟨Nat.succ_ne_zero _, htakes⟩
        refused := fun hnone => absurd hnone hfit
        grows := fun hnone => absurd hnone hfit }
  · intro hnone hno
    exact
      { asks := ⟨fun _ => hnone, fun _ => rfl⟩
        quiet := ⟨fun hcalls => absurd hcalls (Nat.succ_ne_self _), fun hfit => absurd hnone hfit⟩
        fits := fun hfit => absurd hnone hfit
        refused := fun _ _ => ⟨rfl, rfl⟩
        grows := fun _ hyes => absurd (hgrants.mpr hyes) hno }
  · intro hnone hyes hlimit xs b ys hT hb hspan s' T' bl' hg hT' h'
    have htakes : Takes (release T.blocks ⟨s.sHeapHi, growSpan (payloadUnits size), false⟩ [])
        (blockUnits size) _ s' := hT ▸ takes_of_wellFormed hb hspan hT' h'
    have hcalls : s'.os.calls = s.os.calls + 1 := by rw [hg.os]
    exact
      { asks := ⟨fun _ => hnone, fun _ => hcalls⟩
        quiet := ⟨fun hsame => by omega, fun hfit => absurd hnone hfit⟩
        fits := fun hfit => absurd hnone hfit
        refused := fun _ hno => absurd (hgrants.mp hyes) hno
        grows := fun _ _ => ⟨Nat.succ_ne_zero _, htakes⟩ }

/-- **The search is complete.**  In every session of a correct client, `heapmgr_malloc` asks the
kernel exactly when no free block is large enough; a refusal changes nothing; a grown heap serves the
request; and the block returned is at most one unit larger than needed, the rest of a larger one
staying free in its bin.  Only the very first call may exit, when the kernel cannot tell the break. -/
theorem heapmgr2_search_complete {tr : List Call} {st : Session Bins} (hcfg : 2 ^ 31 ≤ cfg.fuel)
    (h : Reach (clientSys (manager cfg)) tr st) (hpos : 1 ≤ size) (hle : size ≤ 3 * 10 ^ 8) :
    (tr = [] ∧ st.heap.os.ready = false ∧ heapmgrMalloc cfg size st.heap = .exit (-1)) ∨
    ∃ s bs bl p s', heapBootstrap st.heap = .ok () s ∧ InOrder s.sFree binOf s bs bl ∧
      heapmgrMalloc cfg size st.heap = .ok p s' ∧ Serving s bs size p s' := by
  rcases malloc_prepared hcfg h hpos with hexit | ⟨T, hT, heq⟩
  · exact Or.inl hexit
  · obtain ⟨⟨bl, hwf⟩, hl⟩ := hT.wf
    obtain ⟨p, s', hcall, hserving⟩ := wp_heapmgrMalloc_serving hwf hT.os hT.booted hl hcfg hpos hle
    exact Or.inr ⟨afterBoot st.heap, T.blocks, bl, p, s', heapBootstrap_eq hT.os, hwf.inOrder,
      heq.trans hcall, hserving⟩

/-- Between two free blocks one is used: 16 bytes are taken from one of them, and for 20000 the kernel is asked. -/
theorem heapmgr2_search_complete_holes : ∃ (st : Session Bins) (p : ℕ) (s : Heap2) (q : ℕ) (s' : Heap2),
    LaidOut st.heap twoHoles ∧
    heapmgrMalloc ⟨true, 2 ^ 31⟩ 16 st.heap = .ok p s ∧ s.os.calls = st.heap.os.calls ∧ p ≠ null ∧
      Takes twoHoles 3 p s ∧
    heapmgrMalloc ⟨true, 2 ^ 31⟩ 20000 st.heap = .ok q s' ∧ s'.os.calls = st.heap.os.calls + 1 := by
  obtain ⟨st, hrun, hlive, hlaid⟩ := holes_reach holes_value
  have hbooted := bootstrap_of_reach (Nat.le_refl _) hrun (List.cons_ne_nil _ _)
  rcases heapmgr2_search_complete (Nat.le_refl _) hrun (show 1 ≤ 16 by decide) (by decide) with
    ⟨hnil, -⟩ | ⟨s₁, bs, _, p, s, hboot, hin, hcall, hserving⟩
  · cases hnil
  rcases heapmgr2_search_complete (Nat.le_refl _) hrun (show 1 ≤ 20000 by decide) (by decide) with
    ⟨hnil, -⟩ | ⟨s₂, bs', _, q, s', hboot', hin', hcall', hserving'⟩
  · cases hnil
  cases hbooted.symm.trans hboot
  cases hbooted.symm.trans hboot'
  rw [hin.toLaidOut.unique hlaid] at hserving
  rw [hin'.toLaidOut.unique hlaid] at hserving'
  have hfit : ¬ NoneFits twoHoles (blockUnits 16) := by decide
  obtain ⟨hp, htakes⟩ := hserving.fits hfit
  exact ⟨st, p, s, q, s', hlaid, hcall, hserving.quiet.mpr hfit, hp, htakes, hcall', hserving'.asks.mpr (by decide)⟩

end SystemProgramming.HeapMgr.Heapmgr2
