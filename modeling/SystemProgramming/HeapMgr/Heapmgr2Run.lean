import SystemProgramming.HeapMgr.Heapmgr2Malloc
import SystemProgramming.HeapMgr.InOrder

/-!
# Runs of a correct client of `heapmgr2.c`

`heapmgr2.c` serves every call of a correct client (`serves`), so every session is sound.  From
this follow the state of the heap after each call, the integrity of the client's data, and that the
debug build never aborts.

* `heapmgr2_heapOk`: the heap is in order after every call.
* `heapmgr2_frame`: client data is never disturbed.
* `heapmgr2_no_abort`: the debug build never aborts.
-/

namespace SystemProgramming.HeapMgr.Heapmgr2

open Exec

/-- The two entry points of `heapmgr2.c`. -/
def manager (cfg : Cfg) : Manager Bins where
  malloc := heapmgrMalloc cfg
  free := heapmgrFree cfg
  noFree := fun _ => null

/-- Well-formedness with the bins left open, on a kernel that keeps the heap below `K` units. -/
def Binned (K : ℕ) (keep : Set ℕ) (m₀ : Mem) (s : Heap2) (T : Table) : Prop :=
  (∃ bl, WellFormed keep m₀ s T bl) ∧ Limited K s

variable {cfg : Cfg} {K : ℕ}

/-- **`heapmgr2.c` serves its clients**, with assertions compiled in or not, as long as no size wraps
around and no span outgrows an `int`. -/
theorem serves_of {Init : Os → Prop} {Safe SafeFree : Heap2 → ℕ → Prop} (hK : K ≤ cfg.fuel)
    (hstart : ∀ os, Init os → os.limit < os.brk + K)
    (hsafe : ∀ {keep m₀ s T size}, Binned K keep m₀ s T → OsOk s → Safe s size →
      size + 15 < 2 ^ 64 ∧ (NoneFits T.blocks (blockUnits size) →
        GrowthFits s T.blocks (payloadUnits size)))
    (hfree : ∀ {keep m₀ s T xs b ys}, Binned K keep m₀ s T → OsOk s → T.blocks = xs ++ b :: ys →
      SafeFree s (b.addr + 1) → (released xs b ys).span < 2 ^ 31) :
    Serves (manager cfg) (Binned K) Init Safe SafeFree where
  rep := fun ⟨⟨_, h⟩, _⟩ => h.work.rep
  reframe := fun ⟨⟨bl, h⟩, hl⟩ hr => ⟨⟨bl, ⟨hr, h.work.lists⟩, h.coalesced⟩, hl⟩
  boot := by
    intro s size hboot hfree hos hinit hready hsize
    refine ⟨?_, _, rfl, ⟨fun _ => [], ⟨rep_bootHeap hos, managed_boot ?_⟩, List.isChain_nil⟩,
      hstart s.os hinit⟩
    · show heapmgrMalloc cfg size s = heapmgrMalloc cfg size (bootHeap s)
      unfold heapmgrMalloc
      rw [if_neg (Nat.ne_of_gt hsize)]
      exact heapBootstrap_bind hboot hready hos.brk_ne
    · exact fun i => congrFun hfree i
  refuse := by
    intro s size hboot hready hsize
    show heapmgrMalloc cfg size s = .exit (-1)
    unfold heapmgrMalloc
    rw [if_neg (Nat.ne_of_gt hsize)]
    exact bind_of_exit (heapBootstrap_refused hboot hready)
  malloc := by
    intro keep m₀ s T size Q hwf hos hboot hpos hsize hnull hserved
    obtain ⟨hlt, hfits⟩ := hsafe hwf hos hsize
    obtain ⟨⟨bl, h⟩, hl⟩ := hwf
    refine wp_heapmgrMalloc h hos hboot (hl.mono hK) hpos (bytesToPayloadUnits_eq hlt) hfits ?_
      (fun _ _ => ?_) ?_
    · intro xs b ys hT hfree hspan s' T' bl' hk hT' hwf
      refine hserved s' T' _ (usedBlocks xs) (usedBlocks ys) (hos.keeps hk) (hk.booted.trans hboot)
        ⟨⟨bl', hwf⟩, hl.keeps hk⟩ ?_ ?_ (allocated_span hspan)
      · rw [hT, usedBlocks_append, usedBlocks_cons_free hfree]
      · rw [hT', usedBlocks_allocate]
    · exact hnull _ ⟨hos.brk, hos.ready, hos.le_limit, hos.limit_lt⟩ hboot
        ⟨⟨bl, ⟨h.work.rep, h.work.lists⟩, h.coalesced⟩, hl⟩
    · intro _ _ hlimit xs b ys hT hfree hspan s' T' bl' hg hT' hwf
      refine hserved s' T' _ (usedBlocks xs) (usedBlocks ys) (hos.grown hg hlimit)
        (hg.booted.trans hboot) ⟨⟨bl', hwf⟩, hl.grown hg⟩ ?_ ?_ (allocated_span hspan)
      · have hused := congrArg usedBlocks hT
        rw [usedBlocks_release, usedBlocks_append, usedBlocks_cons_free hfree] at hused
        simpa [usedBlocks] using hused
      · rw [hT', usedBlocks_allocate]
  free := by
    intro keep m₀ s T b Q hwf hos hb hused hsafeFree hkeep hQ
    obtain ⟨xs, ys, hT⟩ := List.append_of_mem hb
    have hsmall := hfree hwf hos hT hsafeFree
    obtain ⟨⟨bl, h⟩, hl⟩ := hwf
    refine wp_heapmgrFree h (hos.within (hl.mono hK)) hT hused hkeep hsmall
      fun s' T' bl' hk hT' hwf => ?_
    refine hQ s' T' (usedBlocks xs) (usedBlocks ys) hk ⟨⟨bl', hwf⟩, hl.keeps hk⟩ ?_ ?_
    · rw [hT, usedBlocks_append, usedBlocks_cons_used hused]
    · rw [hT', usedBlocks_release]

/-- On a heap of fewer than `2^31` units `heapmgr2.c` serves every correct client. -/
theorem serves (hcfg : 2 ^ 31 ≤ cfg.fuel) :
    Serves (manager cfg) (Binned (2 ^ 31)) OsFresh (fun _ size => size ≤ 3 * 10 ^ 8)
      (fun _ _ => True) := by
  refine serves_of hcfg (fun os hos => hos.limit_small) (fun hwf hos hsize => ?_) fun hwf hos hT _ => ?_
  · obtain ⟨⟨bl, h⟩, hl⟩ := hwf
    exact ⟨by omega, fun _ => growthFits_of_limited hos hl h.work.rep.tiles (payloadUnits_lt hsize)⟩
  · obtain ⟨⟨bl, h⟩, hl⟩ := hwf
    exact released_lt_of_limited hos hl h.work.rep.tiles hT

/-! ### What holds in every run -/

section Runs

variable {tr : List Call} {st : Session Bins}

theorem step_malloc {st : Session Bins} {size p : ℕ} {heap : Heap2} (hpos : 1 ≤ size)
    (hle : size ≤ 3 * 10 ^ 8) (hcall : heapmgrMalloc cfg size st.heap = .ok p heap) :
    Session.Step (3 * 10 ^ 8) (manager cfg) st (.malloc size) (st.afterMalloc size p heap) :=
  Session.Step.malloc hpos hle hcall

/-- Every call of a correct client is safe. -/
theorem safeCall {st st' : Session Bins} {c : Call} (h : Session.Step (3 * 10 ^ 8) (manager cfg) st c st') :
    SafeCall (fun _ size => size ≤ 3 * 10 ^ 8) (fun _ _ => True) st c st' := by
  cases h with
  | malloc hpos hle hcall => exact hle
  | free ha hcall => trivial
  | write ha hu => trivial

/-- A run is at its start, or its session is sound. -/
theorem reach_sound (hcfg : 2 ^ 31 ≤ cfg.fuel) (h : Reach (clientSys (manager cfg)) tr st) :
    (tr = [] ∧ st.Starts OsFresh (manager cfg)) ∨ ∃ T, Sound (Binned (2 ^ 31)) st T :=
  (serves hcfg).reach_sound (3 * 10 ^ 8) (fun _ hst => Session.fresh_iff.mp hst)
    (fun _ _ _ hstep => ⟨hstep, safeCall hstep⟩) h

theorem callsReturn (hcfg : 2 ^ 31 ≤ cfg.fuel) (h : Reach (clientSys (manager cfg)) tr st) :
    CallsReturn (manager cfg) st := by
  have hst := (reach_sound hcfg h).imp_left And.right
  refine ⟨fun size hpos hle => ?_, fun a ha => (serves hcfg).free_returns hst ha trivial⟩
  refine ((serves hcfg).malloc_returns hst hpos hle).imp_right fun ⟨hstart, hexit⟩ => ?_
  exact ⟨Session.fresh_iff.mpr hstart, hexit⟩

/-- A request exits if it is the first call and the kernel cannot tell the break, or it runs as on the
heap after the bootstrap, which is in order. -/
theorem malloc_prepared {size : ℕ} (hcfg : 2 ^ 31 ≤ cfg.fuel)
    (h : Reach (clientSys (manager cfg)) tr st) (hpos : 1 ≤ size) :
    (tr = [] ∧ st.heap.os.ready = false ∧ heapmgrMalloc cfg size st.heap = .exit (-1)) ∨
      ∃ T, Sound (Binned (2 ^ 31)) { st with heap := afterBoot st.heap } T ∧
        heapmgrMalloc cfg size st.heap = heapmgrMalloc cfg size (afterBoot st.heap) := by
  have hsound := reach_sound hcfg h
  rcases (serves hcfg).prepared (hsound.imp_left And.right) hpos with
    ⟨hready, hstart, hexit⟩ | hprepared
  · refine Or.inl ⟨?_, hready, hexit⟩
    rcases hsound with ⟨hnil, -⟩ | ⟨T, hT⟩
    · exact hnil
    · have hboot := hstart.booted
      rw [hT.booted] at hboot
      cases hboot
  · exact Or.inr hprepared

/-- After the first call there is nothing to boot. -/
theorem bootstrap_of_reach (hcfg : 2 ^ 31 ≤ cfg.fuel) (h : Reach (clientSys (manager cfg)) tr st) (hne : tr ≠ []) :
    heapBootstrap st.heap = .ok () st.heap := by
  rcases reach_sound hcfg h with ⟨hnil, -⟩ | ⟨T, hT⟩
  · exact absurd hnil hne
  · exact heapBootstrap_booted hT.booted

theorem holes_value : (holes (manager ⟨true, 2 ^ 31⟩) (firstSession (manager ⟨true, 2 ^ 31⟩)).heap).value
    = some (1025, 1021, true, true) := by decide +kernel

/-- **The heap is in order after every call**, and every call returns. -/
theorem heapmgr2_heapOk (hcfg : 2 ^ 31 ≤ cfg.fuel) (h : Reach (clientSys (manager cfg)) tr st) :
    (tr ≠ [] → ∃ bs bl, HeapOk st.heap.sFree binOf st bs bl) ∧ CallsReturn (manager cfg) st := by
  refine ⟨fun htr => ?_, callsReturn hcfg h⟩
  rcases reach_sound hcfg h with ⟨hnil, -⟩ | ⟨T, hT⟩
  · exact absurd hnil htr
  · obtain ⟨⟨bl, hwf⟩, -⟩ := hT.wf
    exact ⟨T.blocks, bl, (serves hcfg).heapOk hT hwf.work.lists.toListed hwf.coalesced⟩

/-- One block is used between two that are free. -/
theorem heapmgr2_heapOk_holes : ∃ (st : Session Bins) (bl : Fin numBins → List ℕ), st.live = [⟨1021, 32⟩] ∧
    HeapOk st.heap.sFree binOf st twoHoles bl ∧ CallsReturn (manager ⟨true, 2 ^ 31⟩) st := by
  obtain ⟨st, hrun, hlive, hlaid⟩ := holes_reach holes_value
  obtain ⟨hok, hreturn⟩ := heapmgr2_heapOk (Nat.le_refl _) hrun
  obtain ⟨bs, bl, h⟩ := hok (List.cons_ne_nil _ _)
  have hbs : bs = twoHoles := LaidOut.unique ⟨h.tiles, h.two_le, h.status, h.span, h.footSpan⟩ hlaid
  rw [hbs] at h
  exact ⟨st, bl, hlive, h, hreturn⟩

/-- **Client data is never disturbed.**  A call leaves every other live payload alone, a write by the
client leaves every header and footer and so the whole representation alone, and every live payload
reads back what was last written to it. -/
theorem heapmgr2_frame (hcfg : 2 ^ 31 ≤ cfg.fuel) (h : Reach (clientSys (manager cfg)) tr st) :
    (∀ c st', Session.Step (3 * 10 ^ 8) (manager cfg) st c st' → (∀ u v, c ≠ .write u v) →
      ∀ a ∈ st.live, a ∈ st'.live → ∀ u, a.Covers u → st'.heap.mem u = st.heap.mem u) ∧
    (∀ u v st', Session.Step (3 * 10 ^ 8) (manager cfg) st (.write u v) st' →
      ∃ bs bl, HeapOk st.heap.sFree binOf st bs bl ∧ HeapOk st'.heap.sFree binOf st' bs bl ∧
        ∀ b ∈ bs, st'.heap.mem b.addr = st.heap.mem b.addr ∧
          st'.heap.mem b.foot = st.heap.mem b.foot) ∧
    (∀ a ∈ st.live, ∀ u, a.Covers u → ∀ v, st.written u = some v → st.heap.mem u = v) := by
  have hst := reach_sound hcfg h
  refine ⟨fun c st' hstep hc => ?_, fun u v st' hstep => ?_, fun a ha u hu v hv => ?_⟩
  · exact ((serves hcfg).step_sound (hst.imp_left And.right) hstep (safeCall hstep)).2 hc
  · cases hstep with
    | write ha hu =>
      rename_i a
      rcases hst with ⟨-, hfresh⟩ | ⟨T, hT⟩
      · rw [hfresh.live] at ha
        cases ha
      · obtain ⟨⟨bl, hwf⟩, -⟩ := hT.wf
        have hT' := (serves hcfg).write_sound hT ha hu v
        refine ⟨T.blocks, bl, (serves hcfg).heapOk hT hwf.work.lists.toListed hwf.coalesced,
          (serves hcfg).heapOk hT' hwf.work.lists.toListed hwf.coalesced, fun b hb => ?_⟩
        obtain ⟨c, hc, -, -, hin⟩ := hT.block ha
        have hne := hwf.work.rep.inner_ne hc (hin u hu).1 (hin u hu).2 hb
        exact ⟨Function.update_of_ne hne.1.symm _ _, Function.update_of_ne hne.2.symm _ _⟩
  · rcases hst with ⟨-, hfresh⟩ | ⟨T, hT⟩
    · rw [hfresh.live] at ha
      cases ha
    · exact hT.reads a ha u hu v hv

/-- The client writes to its 32 bytes and frees the other byte: the write leaves the blocks as they were, and the
release what was written. -/
theorem heapmgr2_frame_holes : ∃ (st st' st'' : Session Bins) (bs : List Block) (bl : Fin numBins → List ℕ),
    Session.Step (3 * 10 ^ 8) (manager ⟨true, 2 ^ 31⟩) st (.write 1021 mark) st' ∧
    HeapOk st.heap.sFree binOf st bs bl ∧ HeapOk st'.heap.sFree binOf st' bs bl ∧ st'.heap.mem 1021 = mark ∧
    Session.Step (3 * 10 ^ 8) (manager ⟨true, 2 ^ 31⟩) st' (.free ⟨1025, 1⟩) st'' ∧
    st''.heap.mem 1021 = st'.heap.mem 1021 := by
  obtain ⟨st₁, st, st', st'', h₁, -, h₂, h₃, hlive, hwritten, h₄, hlive', -⟩ := holes_steps holes_value
  have hrun₁ := Reach.step (S := clientSys (manager ⟨true, 2 ^ 31⟩)) (Reach.init (firstSession_fresh _)) h₁
  have hrun := Reach.step (S := clientSys (manager ⟨true, 2 ^ 31⟩)) hrun₁ h₂
  have hrun' := Reach.step (S := clientSys (manager ⟨true, 2 ^ 31⟩)) hrun h₃
  obtain ⟨-, hwrite, -⟩ := heapmgr2_frame (Nat.le_refl _) hrun
  obtain ⟨hcall, -, hread⟩ := heapmgr2_frame (Nat.le_refl _) hrun'
  obtain ⟨bs, bl, hok, hok', -⟩ := hwrite _ _ _ h₃
  have ha : (⟨1021, 32⟩ : Alloc) ∈ st'.live := by simp [hlive]
  have ha' : (⟨1021, 32⟩ : Alloc) ∈ st''.live := by simp [hlive']
  have hcovers : Alloc.Covers ⟨1021, 32⟩ 1021 := by decide
  exact ⟨st, st', st'', bs, bl, h₃, hok, hok', hread _ ha _ hcovers _ hwritten, h₄,
    hcall _ _ h₄ (fun _ _ => Call.noConfusion) _ ha ha' _ hcovers⟩

/-- **The debug build never aborts.**  From every state of a run with assertions compiled in, no call
aborts or loops, and the validity check returns `TRUE`. -/
theorem heapmgr2_no_abort {fuel : ℕ} (hfuel : 2 ^ 31 ≤ fuel)
    (h : Reach (clientSys (manager ⟨true, fuel⟩)) tr st) :
    (∀ size, 1 ≤ size → size ≤ 3 * 10 ^ 8 →
      heapmgrMalloc ⟨true, fuel⟩ size st.heap ≠ .abort ∧
      heapmgrMalloc ⟨true, fuel⟩ size st.heap ≠ .timeout) ∧
    (∀ a ∈ st.live, heapmgrFree ⟨true, fuel⟩ a.ptr st.heap ≠ .abort ∧
      heapmgrFree ⟨true, fuel⟩ a.ptr st.heap ≠ .timeout) ∧
    (tr ≠ [] → checkHeapValidity ⟨true, fuel⟩ st.heap = .ok true st.heap) := by
  have hcfg : 2 ^ 31 ≤ (Cfg.mk true fuel).fuel := hfuel
  obtain ⟨hmalloc, hfree⟩ := callsReturn hcfg h
  refine ⟨fun size hpos hle => ?_, fun a ha => ?_, fun htr => ?_⟩
  · rcases hmalloc size hpos hle with ⟨p, heap, hcall⟩ | ⟨-, -, hcall⟩
    · have hcall' : heapmgrMalloc ⟨true, fuel⟩ size st.heap = .ok p heap := hcall
      rw [hcall']
      exact ⟨fun hc => (by cases hc), fun hc => (by cases hc)⟩
    · have hcall' : heapmgrMalloc ⟨true, fuel⟩ size st.heap = .exit (-1) := hcall
      rw [hcall']
      exact ⟨fun hc => (by cases hc), fun hc => (by cases hc)⟩
  · obtain ⟨heap, hcall⟩ := hfree a ha
    have hcall' : heapmgrFree ⟨true, fuel⟩ a.ptr st.heap = .ok () heap := hcall
    rw [hcall']
    exact ⟨fun hc => (by cases hc), fun hc => (by cases hc)⟩
  · rcases reach_sound hcfg h with ⟨hnil, -⟩ | ⟨T, hT⟩
    · exact absurd hnil htr
    · obtain ⟨⟨bl, hwf⟩, hl⟩ := hT.wf
      exact gives_checkHeapValidity hwf (hT.os.within (hl.mono hcfg))

/-- The calls that the client may make next do not abort, and the check passes. -/
theorem heapmgr2_no_abort_holes : ∃ st : Session Bins, LaidOut st.heap twoHoles ∧
    heapmgrMalloc ⟨true, 2 ^ 31⟩ 16 st.heap ≠ .abort ∧ heapmgrFree ⟨true, 2 ^ 31⟩ 1021 st.heap ≠ .abort ∧
    checkHeapValidity ⟨true, 2 ^ 31⟩ st.heap = .ok true st.heap := by
  obtain ⟨st, hrun, hlive, hlaid⟩ := holes_reach holes_value
  obtain ⟨hmalloc, hfree, hcheck⟩ := heapmgr2_no_abort (Nat.le_refl _) hrun
  have ha : (⟨1021, 32⟩ : Alloc) ∈ st.live := by simp [hlive]
  exact ⟨st, hlaid, (hmalloc 16 (by decide) (by decide)).1, (hfree _ ha).1, hcheck (List.cons_ne_nil _ _)⟩

end Runs

end SystemProgramming.HeapMgr.Heapmgr2
