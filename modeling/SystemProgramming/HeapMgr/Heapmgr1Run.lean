import SystemProgramming.HeapMgr.Heapmgr1Malloc
import SystemProgramming.HeapMgr.InOrder

/-!
# Runs of a correct client of `heapmgr1.c`

`sys_grow_and_link` hands its caller the address where the new memory begins, also when that memory
has been merged into a free block below it, and `heapmgr_malloc` then allocates from a header that
no longer belongs to a block.  A session in which this happens loses its heap
(`heapmgr1_heapOk_fails`); in every session in which it does not, the heap is in order after each
call (`heapmgr1_heapOk`).

* `serves_of`: the manager serves the calls that do not grow the heap behind a free block.
* `heapmgr1_heapOk`: the heap is in order in every session of such calls.
* `heapmgr1_heapOk_fails`: a session of three calls that loses the heap.
-/

namespace SystemProgramming.HeapMgr.Heapmgr1

open Exec

/-- The two entry points of `heapmgr1.c`. -/
def manager (cfg : Cfg) : Manager ℕ where
  malloc := heapmgrMalloc cfg
  free := heapmgrFree cfg
  noFree := null

/-- Well-formedness with the list left open and without links in used blocks, on a kernel that keeps
the heap below `K` units. -/
def Chained (K : ℕ) (keep : Set ℕ) (m₀ : Mem) (s : Heap1) (T : Table) : Prop :=
  (∃ l, WellFormed keep m₀ s T l) ∧ Idle T ∧ Limited K s

/-- The blocks of a heap, as their headers describe them. -/
structure Shows (s : Heap1) (bs : List Block) : Prop where
  tiles : Tiles Block.addr Block.span s.sHeapLo s.sHeapHi bs
  status : ∀ b ∈ bs, (s.mem b.addr).status = statusOf b.used
  span : ∀ b ∈ bs, (s.mem b.addr).span = b.span

/-- A request for `size` bytes does not grow the heap behind a free block: if no free block is large
enough and the kernel grants more memory, the last block of the heap is in use or there is none. -/
def GrowsSafely (s : Heap1) (size : ℕ) : Prop :=
  ∀ bs, Shows s bs → (∀ b ∈ bs, b.used = false → b.span < blockUnits size) →
    s.os.Grants (growSpan (payloadUnits size)) → LastUsed bs

theorem shows_of_rep {keep : Set ℕ} {m₀ : Mem} {s : Heap1} {T : Table}
    (h : Rep keep m₀ s.mem s.sHeapLo s.sHeapHi T) : Shows s T.blocks where
  tiles := h.tiles
  status b hb := by rw [h.header b hb]
  span b hb := by rw [h.header b hb]

variable {cfg : Cfg} {K : ℕ}

/-- **`heapmgr1.c` serves its clients**, with assertions compiled in or not, as long as no size wraps
around, no span outgrows an `int` and the heap does not grow behind a free block. -/
theorem serves_of {Init : Os → Prop} {Safe SafeFree : Heap1 → ℕ → Prop} (hK : K ≤ cfg.fuel)
    (hstart : ∀ os, Init os → os.limit < os.brk + K)
    (hsafe : ∀ {keep m₀ s T size}, Chained K keep m₀ s T → OsOk s → Safe s size →
      size + 15 < 2 ^ 64 ∧ (NoneFits T.blocks (blockUnits size) →
        GrowthFits s T.blocks (payloadUnits size) ∧
        (s.os.Accepts (growSpan (payloadUnits size)) → LastUsed T.blocks)))
    (hfree : ∀ {keep m₀ s T xs b ys}, Chained K keep m₀ s T → OsOk s → T.blocks = xs ++ b :: ys →
      SafeFree s (b.addr + 1) → (released xs b ys).span < 2 ^ 31) :
    Serves (manager cfg) (Chained K) Init Safe SafeFree where
  rep := fun ⟨⟨_, h⟩, _⟩ => h.work.rep
  reframe := fun ⟨⟨l, h⟩, hl⟩ hr => ⟨⟨l, ⟨hr, h.work.lists⟩, h.coalesced⟩, hl⟩
  boot := by
    intro s size hboot hfree hos hinit hready hsize
    refine ⟨?_, _, rfl, ⟨[], ⟨rep_bootHeap hos, (managed_boot ?_).toListed⟩, List.isChain_nil⟩,
      fun b hb => absurd hb List.not_mem_nil, hstart s.os hinit⟩
    · show heapmgrMalloc cfg size s = heapmgrMalloc cfg size (bootHeap s)
      unfold heapmgrMalloc
      rw [if_neg (Nat.ne_of_gt hsize)]
      exact heapBootstrap_bind hboot hready hos.brk_ne
    · exact fun _ => hfree
  refuse := by
    intro s size hboot hready hsize
    show heapmgrMalloc cfg size s = .exit (-1)
    unfold heapmgrMalloc
    rw [if_neg (Nat.ne_of_gt hsize)]
    exact bind_of_exit (heapBootstrap_refused hboot hready)
  malloc := by
    intro keep m₀ s T size Q hwf hos hboot hpos hsize hnull hserved
    obtain ⟨hlt, hsafe⟩ := hsafe hwf hos hsize
    obtain ⟨⟨l, h⟩, hidle, hl⟩ := hwf
    refine wp_heapmgrMalloc h hos hboot (hl.mono hK) hpos (bytesToPayloadUnits_eq hlt)
      (fun hnone => (hsafe hnone).1) (fun hnone => (hsafe hnone).2) ?_ (fun _ _ => ?_) ?_
    · intro k₁ b k₂ xs ys _ _ hT hfree hspan s' T' hk hT' hwf hidle'
      refine hserved s' T' _ (usedBlocks xs) (usedBlocks ys) (hos.keeps hk) (hk.booted.trans hboot)
        ⟨⟨_, hwf⟩, hidle' hidle, hl.keeps hk⟩ ?_ ?_ (allocated_span hspan)
      · rw [hT, usedBlocks_append, usedBlocks_cons_free hfree]
      · rw [hT', usedBlocks_allocate]
    · exact hnull _ ⟨hos.brk, hos.ready, hos.le_limit, hos.limit_lt⟩ hboot
        ⟨⟨l, ⟨h.work.rep, h.work.lists⟩, h.coalesced⟩, hidle, hl⟩
    · intro _ _ hlimit s' T' l' hg hT' hwf hidle'
      have hspan : blockUnits size ≤ growSpan (payloadUnits size) := by
        unfold blockUnits growSpan
        omega
      refine hserved s' T' _ (usedBlocks T.blocks) [] (hos.grown hg hlimit) (hg.booted.trans hboot)
        ⟨⟨l', hwf⟩, hidle' hidle, hl.grown hg⟩ (List.append_nil _).symm ?_ (allocated_span hspan)
      have hused := @usedBlocks_allocate T.blocks []
        ⟨s.sHeapHi, growSpan (payloadUnits size), false⟩ (payloadUnits size + 2)
      rw [hT']
      simpa [usedBlocks] using hused
  free := by
    intro keep m₀ s T b Q hwf hos hb hused hsafeFree hkeep hQ
    obtain ⟨xs, ys, hT⟩ := List.append_of_mem hb
    have hsmall := hfree hwf hos hT hsafeFree
    obtain ⟨⟨l, h⟩, hidle, hl⟩ := hwf
    have hfuel : Fuelled cfg s := hos.within (hl.mono hK)
    refine wp_heapmgrFree h.work h.coalesced (hfuel.blocks_lt h.work.rep) hT hused hkeep hsmall
      (fun _ => hidle b hb hused) fun s' T' hk hT' hc' h' hidle' => ?_
    have hwf : WellFormed keep m₀ s' T' _ := ⟨h', hc'⟩
    refine hQ s' T' (usedBlocks xs) (usedBlocks ys) hk ⟨⟨_, hwf⟩, hidle' hidle, hl.keeps hk⟩ ?_ ?_
    · rw [hT, usedBlocks_append, usedBlocks_cons_used hused]
    · rw [hT', usedBlocks_release]

/-- On a heap of fewer than `2^31` units `heapmgr1.c` serves every correct client as long as the heap
does not grow behind a free block. -/
theorem serves (hcfg : 2 ^ 31 ≤ cfg.fuel) :
    Serves (manager cfg) (Chained (2 ^ 31)) OsFresh
      (fun s size => size ≤ 3 * 10 ^ 8 ∧ GrowsSafely s size) (fun _ _ => True) := by
  refine serves_of hcfg (fun os hos => hos.limit_small) (fun hwf hos hsize => ?_)
    fun hwf hos hT _ => ?_
  · obtain ⟨⟨l, h⟩, -, hl⟩ := hwf
    obtain ⟨hle, hsafe⟩ := hsize
    refine ⟨by omega, fun hnone => ?_⟩
    have hfits := growthFits_of_limited hos hl h.work.rep.tiles (payloadUnits_lt hle)
    refine ⟨hfits, fun haccepts => ?_⟩
    have hgrants := (Os.accepts_iff (hfits haccepts).1).mp haccepts
    exact hsafe _ (shows_of_rep h.work.rep) hnone hgrants
  · obtain ⟨⟨l, h⟩, -, hl⟩ := hwf
    exact released_lt_of_limited hos hl h.work.rep.tiles hT

/-! ### What holds in every run that grows safely -/

section Runs

variable {tr : List Call} {st : Session ℕ}

/-- A heap that has just been booted has no last block. -/
theorem growsSafely_bootHeap (s : Heap1) (size : ℕ) : GrowsSafely (bootHeap s) size := by
  intro bs hbs _ _ x hx
  rw [Tiles.eq_nil hbs.tiles] at hx
  cases hx

theorem growsSafely_afterBoot {s : Heap1} {size : ℕ}
    (h : s.sHeapBooted = true → GrowsSafely s size) : GrowsSafely (afterBoot s) size := by
  cases hboot : s.sHeapBooted with
  | false =>
    rw [afterBoot_fresh hboot]
    exact growsSafely_bootHeap s size
  | true =>
    rw [afterBoot_booted hboot]
    exact h hboot

theorem safeCall {st st' : Session ℕ} {c : Call} (h : Session.Step (3 * 10 ^ 8) (manager cfg) st c st')
    (hsafe : SafeStep GrowsSafely st c st') :
    SafeCall (fun s size => size ≤ 3 * 10 ^ 8 ∧ GrowsSafely s size) (fun _ _ => True) st c st' := by
  cases h with
  | malloc hpos hle hcall => exact ⟨hle, growsSafely_afterBoot hsafe⟩
  | free ha hcall => trivial
  | write ha hu => trivial

/-- **The heap is in order after every call** of a session that never grows the heap behind a free
block, and every call that would not do so returns. -/
theorem heapmgr1_heapOk (_hoff : cfg.asserts = false) (hcfg : 2 ^ 31 ≤ cfg.fuel)
    (h : Reach ((clientSys (manager cfg)).restrict (SafeStep GrowsSafely)) tr st) :
    (tr ≠ [] → ∃ bs bl, HeapOk (fun _ : Unit => st.heap.sFree) (fun _ => ()) st bs bl) ∧
    (∀ size, 1 ≤ size → size ≤ 3 * 10 ^ 8 → (st.heap.sHeapBooted = true → GrowsSafely st.heap size) →
      (∃ p heap, heapmgrMalloc cfg size st.heap = .ok p heap) ∨
        (st.Fresh (manager cfg) ∧ st.heap.os.ready = false ∧
          heapmgrMalloc cfg size st.heap = .exit (-1))) ∧
    ∀ a ∈ st.live, ∃ heap, heapmgrFree cfg a.ptr st.heap = .ok () heap := by
  have hs := serves hcfg
  have hsound : (tr = [] ∧ st.Starts OsFresh (manager cfg)) ∨
      ∃ T, Sound (Chained (2 ^ 31)) st T := by
    refine hs.reach_sound (3 * 10 ^ 8) (fun _ hst => Session.fresh_iff.mp hst) (fun _ _ _ hstep => ?_) h
    exact ⟨hstep.1, safeCall hstep.1 hstep.2⟩
  have hst := hsound.imp_left And.right
  refine ⟨fun htr => ?_, fun size hpos hle hsafe => ?_, fun a ha => hs.free_returns hst ha trivial⟩
  · rcases hsound with ⟨hnil, -⟩ | ⟨T, hT⟩
    · exact absurd hnil htr
    · obtain ⟨⟨l, hwf⟩, -⟩ := hT.wf
      exact ⟨T.blocks, fun _ => l, hs.heapOk hT hwf.work.lists hwf.coalesced⟩
  · have hret := hs.malloc_returns hst hpos ⟨hle, growsSafely_afterBoot hsafe⟩
    refine hret.imp_right fun ⟨hstart, hexit⟩ => ?_
    exact ⟨Session.fresh_iff.mpr hstart, hexit⟩

theorem holes_value : (holes (manager ⟨false, 2 ^ 31⟩) (firstSession (manager ⟨false, 2 ^ 31⟩)).heap).value
    = some (1025, 1021, true, true) := by decide +kernel

/-- A request that some free block serves does not grow the heap. -/
theorem growsSafely_of_fits {s : Heap1} {bs : List Block} {size : ℕ} (h : LaidOut s bs)
    (hfit : ¬ NoneFits bs (blockUnits size)) : GrowsSafely s size := by
  intro bs' hbs' hnone _
  rw [tiles_unique hbs'.tiles h.tiles hbs'.status hbs'.span h.status h.span] at hnone
  exact absurd hnone hfit

/-- One block is used between two that are free, and a request that one of them serves returns. -/
theorem heapmgr1_heapOk_holes : ∃ (st : Session ℕ) (bl : Unit → List ℕ), st.live = [⟨1021, 32⟩] ∧
    HeapOk (fun _ : Unit => st.heap.sFree) (fun _ => ()) st twoHoles bl ∧
    (∃ p heap, heapmgrMalloc ⟨false, 2 ^ 31⟩ 16 st.heap = .ok p heap) ∧
    ∃ heap, heapmgrFree ⟨false, 2 ^ 31⟩ 1021 st.heap = .ok () heap := by
  obtain ⟨st₁, st₂, st₃, st₄, h₁, hone, h₂, h₃, -, -, h₄, hlive, -, hlaid⟩ := holes_steps holes_value
  let S := (clientSys (manager ⟨false, 2 ^ 31⟩)).restrict (SafeStep GrowsSafely)
  have hrun₁ := Reach.step (S := S) (Reach.init (firstSession_fresh _)) ⟨h₁, fun hboot => by cases hboot⟩
  have hrun₂ := Reach.step (S := S) hrun₁ ⟨h₂, fun _ => growsSafely_of_fits hone (by decide)⟩
  have hrun₃ := Reach.step (S := S) hrun₂ ⟨h₃, trivial⟩
  have hrun := Reach.step (S := S) hrun₃ ⟨h₄, trivial⟩
  obtain ⟨hok, hmalloc, hfree⟩ := heapmgr1_heapOk rfl (Nat.le_refl _) hrun
  obtain ⟨bs, bl, h⟩ := hok (List.cons_ne_nil _ _)
  have hbs : bs = twoHoles := LaidOut.unique ⟨h.tiles, h.two_le, h.status, h.span, h.footSpan⟩ hlaid
  rw [hbs] at h
  have ha : (⟨1021, 32⟩ : Alloc) ∈ st₄.live := by simp [hlive]
  refine ⟨st₄, bl, hlive, h, ?_, hfree _ ha⟩
  refine (hmalloc 16 (by decide) (by decide) fun _ => growsSafely_of_fits hlaid (by decide)).resolve_right ?_
  rintro ⟨hfresh, -⟩
  rw [hfresh.live] at ha
  cases ha

/-! ### The heap that is lost -/

/-- The history that grows the heap behind a free block: the block of a first small request is freed
and is too small for the request that follows.  Returned are the pointers, the head of the list and
the ends of the heap, and the header at its start. -/
def lostHeap : Exec Heap1 (ℕ × ℕ × ℕ × ℕ × ℕ × Cell) := do
  let p ← heapmgrMalloc ⟨false, 2 ^ 31⟩ 1
  heapmgrFree ⟨false, 2 ^ 31⟩ p
  let q ← heapmgrMalloc ⟨false, 2 ^ 31⟩ 16400
  let s ← reads id
  return (p, q, s.sFree, s.sHeapLo, s.sHeapHi, s.mem s.sHeapLo)

theorem lostHeap_value : (lostHeap (firstSession (manager ⟨false, 2 ^ 31⟩)).heap).value
    = some (1025, 1028, null, 1, 2054, ⟨chunkFree, 2053, null⟩) := by decide +kernel

/-- No heap is in order whose first header says free while the list is empty. -/
theorem not_heapOk_of_head {st : Session ℕ} (hhead : st.heap.sFree = null)
    (hlo : 0 < st.heap.sHeapLo) (hlt : st.heap.sHeapLo < st.heap.sHeapHi)
    (hstatus : (st.heap.mem st.heap.sHeapLo).status = chunkFree) :
    ¬ ∃ bs bl, HeapOk (fun _ : Unit => st.heap.sFree) (fun _ => ()) st bs bl := by
  rintro ⟨bs, bl, h⟩
  cases bs with
  | nil =>
    have hends : st.heap.sHeapLo = st.heap.sHeapHi := h.tiles
    omega
  | cons b bs =>
    have haddr : b.addr = st.heap.sHeapLo := h.tiles.1
    have hfree : b.used = false := by
      have hb := h.status b (by simp)
      rw [haddr, hstatus] at hb
      exact statusOf_eq_free.mp hb.symm
    have honce := h.once b (by simp) hfree ()
    have hmem : b.addr ∈ bl () := List.count_pos_iff.mp (by rw [honce]; decide)
    have hnull : null ∈ bl () := by
      have hd := h.head ()
      rw [hhead] at hd
      cases hl : bl () with
      | nil => rw [hl] at hmem; cases hmem
      | cons p l =>
        rw [hl] at hd
        rw [show null = p from hd]
        simp
    -- the head of a non-empty list is a block, and no block is at `NULL`
    obtain ⟨c, hc, hca, -⟩ := h.onlyFree () null hnull
    have hbound := h.tiles.bounds hc
    unfold null at hca
    omega

/-- **The heap is lost** in a session of three calls: a byte is allocated and freed, and then more is
asked for than the free block holds. -/
theorem heapmgr1_heapOk_fails : ∃ st : Session ℕ,
    Reach (clientSys (manager ⟨false, 2 ^ 31⟩)) [.malloc 1, .free ⟨1025, 1⟩, .malloc 16400] st ∧
    ¬ ∃ bs bl, HeapOk (fun _ : Unit => st.heap.sFree) (fun _ => ()) st bs bl := by
  obtain ⟨p, h₁, hmalloc, hrest⟩ := exists_of_bind_value lostHeap_value
  obtain ⟨⟨⟩, h₂, hfree, hrest⟩ := exists_of_bind_value hrest
  obtain ⟨q, h₃, hmalloc', hrest⟩ := exists_of_bind_value hrest
  have hresult : (p, q, h₃.sFree, h₃.sHeapLo, h₃.sHeapHi, h₃.mem h₃.sHeapLo)
      = (1025, 1028, null, 1, 2054, ⟨chunkFree, 2053, null⟩) := Option.some.inj hrest
  simp only [Prod.mk.injEq] at hresult
  obtain ⟨rfl, rfl, hhead, hlo, hhi, hcell⟩ := hresult
  have hinit : Reach (clientSys (manager ⟨false, 2 ^ 31⟩)) []
      (firstSession (manager ⟨false, 2 ^ 31⟩)) := Reach.init (firstSession_fresh _)
  have hstep₁ : Session.Step (3 * 10 ^ 8) (manager ⟨false, 2 ^ 31⟩) (firstSession (manager ⟨false, 2 ^ 31⟩))
      (.malloc 1) _ := Session.Step.malloc (by decide) (by decide) hmalloc
  have hlive : (⟨1025, 1⟩ : Alloc) ∈
      ((firstSession (manager ⟨false, 2 ^ 31⟩)).afterMalloc 1 1025 h₁).live := by
    simp [Session.afterMalloc, null]
  have hheap : ((firstSession (manager ⟨false, 2 ^ 31⟩)).afterMalloc 1 1025 h₁).heap = h₁ := by
    simp [Session.afterMalloc, null]
  generalize (firstSession (manager ⟨false, 2 ^ 31⟩)).afterMalloc 1 1025 h₁ = st₁
    at hstep₁ hlive hheap
  subst hheap
  have hstep₂ : Session.Step (3 * 10 ^ 8) (manager ⟨false, 2 ^ 31⟩) st₁ (.free ⟨1025, 1⟩) _ :=
    Session.Step.free hlive hfree
  have hstep₃ : Session.Step (3 * 10 ^ 8) (manager ⟨false, 2 ^ 31⟩)
      { st₁ with heap := h₂, live := st₁.live.erase ⟨1025, 1⟩ } (.malloc 16400) _ :=
    Session.Step.malloc (by decide) (by decide) hmalloc'
  refine ⟨_, Reach.step (Reach.step (Reach.step hinit hstep₁) hstep₂) hstep₃, ?_⟩
  have hheap₃ : (({ st₁ with heap := h₂, live := st₁.live.erase ⟨1025, 1⟩ } :
      Session ℕ).afterMalloc 16400 1028 h₃).heap = h₃ := by
    simp [Session.afterMalloc, null]
  refine not_heapOk_of_head ?_ ?_ ?_ ?_
  · rw [hheap₃, hhead]
  · rw [hheap₃, hlo]
    decide
  · rw [hheap₃, hlo, hhi]
    decide
  · rw [hheap₃, hcell]

end Runs

end SystemProgramming.HeapMgr.Heapmgr1
