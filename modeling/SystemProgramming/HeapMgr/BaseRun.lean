import SystemProgramming.HeapMgr.BaseArena
import SystemProgramming.HeapMgr.Owned

/-!
# Runs of a correct client of `heapmgrbase.c`

A session of the manager mirrors a session of the arena with the same calls: the headers show the blocks of the
arena, and the pointers are the same.  What is said of blocks therefore holds of the code.

* `mirrors_of_reach`: every session mirrors one of the arena.
* `heapmgrbase_refines`: the manager refines the arena.
* `heapmgrbase_inOrder`: every call returns, and leaves the heap in order.
* `heapmgrbase_layout`: the layout is determined by the live allocations.
* `heapmgrbase_all_freed`: when everything is freed, the heap is one free block.
-/

namespace SystemProgramming.HeapMgr.Base

open Exec

/-- The two entry points of `heapmgrbase.c`. -/
def manager (cfg : Cfg) : Manager ℕ where
  malloc := heapmgrMalloc cfg
  free := heapmgrFree cfg
  noFree := null

/-- A booted session in order: the headers show the blocks `bs`, the free ones are linked by address and no two of
them are neighbours, the used ones are exactly the live allocations, and every payload reads back what was written
to it. -/
structure InOrder (st : Session ℕ) (bs : List Block) : Prop extends Owned st bs where
  wf : WellFormed ∅ st.heap.mem st.heap bs
  os : OsOk st.heap
  limited : Limited (2 ^ 31) st.heap
  booted : st.heap.sHeapBooted = true

/-- A session of the manager and one of the arena that have come to the same point. -/
structure Mirrors (cfg : Cfg) (st : Session ℕ) (as : ArenaSession) : Prop where
  live : as.live = st.live
  os : as.arena.os = st.heap.os
  blocks : (st.Fresh (manager cfg) ∧ as.arena.blocks = []) ∨ InOrder st as.arena.blocks

variable {cfg : Cfg} {keep keep' : Set ℕ} {m₀ : Mem} {s : BaseHeap} {bs bs' xs ys us vs : List Block} {b c : Block}
  {st st' : Session ℕ} {as : ArenaSession} {a a' : Alloc} {tr : List Call} {u p size : ℕ}

/-! ### Payloads -/

/-- The kept units may be chosen anew. -/
theorem WellFormed.rekeep (h : WellFormed keep m₀ s bs)
    (hkeep : ∀ u ∈ keep', ∃ b ∈ bs, b.used = true ∧ b.addr < u ∧ u < b.addr + b.span) :
    WellFormed keep' s.mem s bs :=
  { h with toSized := h.toSized.rekeep hkeep }

theorem WellFormed.forget (h : WellFormed keep m₀ s bs) : WellFormed ∅ s.mem s bs :=
  h.rekeep fun _ hu => absurd hu (Set.notMem_empty _)

/-- A write strictly inside a used block does not show. -/
theorem WellFormed.write (h : WellFormed keep m₀ s bs) (hb : b ∈ bs) (h₁ : b.addr < u)
    (h₂ : u < b.addr + b.span) (v : Cell) :
    WellFormed ∅ (Function.update s.mem u v) { s with mem := Function.update s.mem u v } bs := by
  refine ⟨⟨⟨⟨h.toSized.write hb h₁ h₂ v, fun c hc => ?_⟩, ?_⟩, h.head⟩, h.coalesced⟩
  · show (Function.update s.mem u v c.addr).status = _
    rw [h.toSized.header_update hb h₁ h₂ v hc]
    exact h.status c hc
  · refine h.leads.congr fun p hp => ?_
    obtain ⟨c, hc, -, rfl⟩ := mem_freeAddrs.mp hp
    exact congrArg Cell.next (h.toSized.header_update hb h₁ h₂ v hc)

namespace InOrder

/-- The live payloads may be kept through a call. -/
theorem wf_payloads (h : InOrder st bs) {live : List Alloc} (hsub : ∀ a ∈ live, a ∈ st.live) :
    WellFormed (payloads live) st.heap.mem st.heap bs :=
  h.wf.rekeep fun _ ⟨a, ha, hu⟩ => h.payloads_inside ⟨a, hsub a ha, hu⟩

/-! ### One call -/

/-- **One `heapmgr_malloc`** does what the arena does, and touches no live payload. -/
theorem malloc (h : InOrder st bs) (hcfg : 2 ^ 31 ≤ cfg.fuel) (hpos : 1 ≤ size) (hle : size ≤ 3 * 10 ^ 8) :
    wp (heapmgrMalloc cfg size) (fun p heap => ∃ ar, Arena.malloc ⟨bs, st.heap.os⟩ size = (p, ar) ∧
      ar.os = heap.os ∧ InOrder (st.afterMalloc size p heap) ar.blocks ∧
      ∀ u ∈ payloads st.live, heap.mem u = st.heap.mem u) st.heap := by
  refine wp_heapmgrMalloc (h.wf_payloads fun _ ha => ha) h.os h.booted h.limited hcfg hpos hle
    (fun s' bs' b hfit hk hwf => ?_) (fun hnone hno hwf => ?_) fun hnone hgrants s' bs' b hfit hg hwf => ?_
  · obtain ⟨hused, hspan, us, vs, hbefore, hafter⟩ := firstFit_used hfit
    refine ⟨_, Arena.malloc_of_found hfit, hk.os.symm, ?_, hwf.kept⟩
    have howned := h.toOwned.allocated hwf.kept hused hspan hbefore hafter
    rw [Session.afterMalloc, if_neg (show b.addr + 1 ≠ null from Nat.succ_ne_zero _)] at howned ⊢
    exact ⟨howned, hwf.forget, h.os.keeps hk, h.limited.keeps hk, hk.booted.trans h.booted⟩
  · refine ⟨_, Arena.malloc_of_refused hnone hno, rfl, ?_, hwf.kept⟩
    rw [Session.afterMalloc, if_pos rfl]
    exact ⟨h.toOwned.unchanged hwf.kept, hwf.forget, ⟨h.os.brk, h.os.ready, h.os.le_limit, h.os.limit_lt⟩, h.limited,
      h.booted⟩
  · rw [← h.os.brk] at hfit
    obtain ⟨hused, hspan, us, vs, hbefore, hafter⟩ := firstFit_used hfit
    rw [usedBlocks_extended] at hbefore
    refine ⟨_, Arena.malloc_of_grown hnone hgrants hfit, hg.os.symm, ?_, hwf.kept⟩
    have howned := h.toOwned.allocated hwf.kept hused hspan hbefore hafter
    rw [Session.afterMalloc, if_neg (show b.addr + 1 ≠ null from Nat.succ_ne_zero _)] at howned ⊢
    exact ⟨howned, hwf.forget, h.os.grown hg hgrants.2, h.limited.grown hg, hg.booted.trans h.booted⟩

/-- **One `heapmgr_free`** does what the arena does, and touches no other live payload. -/
theorem free (h : InOrder st bs) (hcfg : 2 ^ 31 ≤ cfg.fuel) (ha : a ∈ st.live) :
    wp (heapmgrFree cfg a.ptr) (fun _ heap => heap.os = st.heap.os ∧
      InOrder { st with heap := heap, live := st.live.erase a } (Arena.free ⟨bs, st.heap.os⟩ a.ptr).blocks ∧
      ∀ u ∈ payloads (st.live.erase a), heap.mem u = st.heap.mem u) st.heap := by
  have hptr := blockOf_addr (h.ptr_ne_null a ha)
  have hapart := h.toOwned.apart h.wf.tiles ha
  have hkeep := h.wf_payloads fun a' (ha' : a' ∈ st.live.erase a) => List.mem_of_mem_erase ha'
  have howned := h.toOwned
  have hos := h.os
  have hfuel : Fuelled cfg st.heap := hos.within (h.limited.mono hcfg)
  obtain ⟨xs, ys, rfl⟩ := List.append_of_mem (h.block_mem ha)
  have hfree : (Arena.free ⟨xs ++ blockOf a :: ys, st.heap.os⟩ a.ptr).blocks = release xs (blockOf a) ys :=
    releaseAt_eq h.wf.tiles
  rw [← hptr] at hfree ⊢
  rw [hfree]
  refine wp_heapmgrFree hkeep rfl hfuel hapart fun s' hk hwf => ⟨hk.os, ?_, hwf.kept⟩
  exact ⟨howned.freed ha hwf.kept, hwf.forget, hos.keeps hk, h.limited.keeps hk, hk.booted.trans h.booted⟩

/-- **One write** by the client. -/
theorem write (h : InOrder st bs) (ha : a ∈ st.live) (hu : a.Covers u) (v : Cell) :
    InOrder { st with heap := { st.heap with mem := Function.update st.heap.mem u v }
                      written := Function.update st.written u (some v) } bs := by
  obtain ⟨h₁, h₂⟩ := blockOf_covers (h.ptr_ne_null a ha) hu
  exact ⟨h.toOwned.write u v, h.wf.write (h.block_mem ha) h₁ h₂ v,
    ⟨h.os.brk, h.os.ready, h.os.le_limit, h.os.limit_lt⟩, h.limited, h.booted⟩

end InOrder

/-! ### Runs -/

/-- A heap that has just been booted has no blocks. -/
theorem inOrder_boot (h : st.Fresh (manager cfg)) (hready : st.heap.os.ready = true) :
    InOrder { st with heap := bootHeap st.heap } [] := by
  have hpos := h.os.brk_pos
  have hle := h.os.le_limit
  have hlim := h.os.limit_small
  have hlt := h.os.limit_lt
  have hshown : Shown ∅ st.heap.mem st.heap.mem st.heap.os.brk st.heap.os.brk [] :=
    ⟨⟨⟨hpos, by omega, by omega, rfl, nofun, fun _ _ => rfl, fun _ hu => absurd hu (Set.notMem_empty _)⟩, nofun⟩,
      trivial⟩
  exact ⟨Owned.of_no_live h.live rfl, ⟨⟨hshown, h.lists⟩, List.isChain_nil⟩, osOk_bootHeap h.os.start hready, hlim, rfl⟩

theorem malloc_boot (hpos : 1 ≤ size) (hboot : s.sHeapBooted = false) (hready : s.os.ready = true)
    (hbrk : s.os.brk ≠ sbrkFailed) : heapmgrMalloc cfg size s = heapmgrMalloc cfg size (bootHeap s) := by
  unfold heapmgrMalloc
  rw [if_neg (Nat.ne_of_gt hpos)]
  exact heapBootstrap_bind hboot hready hbrk

theorem malloc_refused (hpos : 1 ≤ size) (hboot : s.sHeapBooted = false) (hready : s.os.ready = false) :
    heapmgrMalloc cfg size s = .exit (-1) := by
  unfold heapmgrMalloc
  rw [if_neg (Nat.ne_of_gt hpos)]
  exact bind_of_exit (heapBootstrap_refused hboot hready)

/-- A call of `heapmgr_malloc` does what the arena does, except that the first one exits when the kernel cannot
tell the break. -/
theorem Mirrors.malloc (h : Mirrors cfg st as) (hcfg : 2 ^ 31 ≤ cfg.fuel) (hpos : 1 ≤ size)
    (hle : size ≤ 3 * 10 ^ 8) :
    (st.Fresh (manager cfg) ∧ st.heap.os.ready = false ∧ heapmgrMalloc cfg size st.heap = .exit (-1)) ∨
    ∃ p heap ar, heapmgrMalloc cfg size st.heap = .ok p heap ∧ as.arena.malloc size = (p, ar) ∧ ar.os = heap.os ∧
      InOrder (st.afterMalloc size p heap) ar.blocks := by
  obtain ⟨arena, live⟩ := as
  obtain ⟨blocks, os⟩ := arena
  have hos : os = st.heap.os := h.os
  subst hos
  rcases h.blocks with ⟨hfresh, hblocks⟩ | hst
  · have hblocks : blocks = [] := hblocks
    subst hblocks
    cases hready : st.heap.os.ready with
    | false =>
      exact Or.inl ⟨hfresh, rfl, malloc_refused hpos hfresh.booted hready⟩
    | true =>
      obtain ⟨p, heap, hcall, ar, har, hos, hin, -⟩ := (inOrder_boot hfresh hready).malloc hcfg hpos hle
      have hboot : heapmgrMalloc cfg size st.heap = heapmgrMalloc cfg size (bootHeap st.heap) :=
        malloc_boot hpos hfresh.booted hready hfresh.os.start.brk_ne
      exact Or.inr ⟨p, heap, ar, hboot.trans hcall, har, hos, hin⟩
  · obtain ⟨p, heap, hcall, ar, har, hos, hin, -⟩ := hst.malloc hcfg hpos hle
    exact Or.inr ⟨p, heap, ar, hcall, har, hos, hin⟩

/-- **One call.**  The arena takes the same step, and the session is in order. -/
theorem Mirrors.step {k : Call} (h : Mirrors cfg st as) (hcfg : 2 ^ 31 ≤ cfg.fuel)
    (hstep : Session.Step (3 * 10 ^ 8) (manager cfg) st k st') :
    ∃ as', ArenaSession.Step as k as' ∧ Mirrors cfg st' as' ∧ InOrder st' as'.arena.blocks := by
  have hlive := h.live
  -- nothing is live before the first call
  have hbooted (a : Alloc) (ha : a ∈ st.live) : InOrder st as.arena.blocks := by
    refine h.blocks.resolve_left fun ⟨hfresh, _⟩ => ?_
    rw [hfresh.live] at ha
    cases ha
  cases hstep with
  | malloc hpos hle hcall =>
    rename_i size p heap
    rcases h.malloc hcfg hpos hle with ⟨-, -, hexit⟩ | ⟨p', heap', ar, hcall', har, hos, hin⟩
    · cases hcall.symm.trans hexit
    · cases hcall.symm.trans hcall'
      have hafter : as.afterMalloc size = ⟨ar, (st.afterMalloc size p heap).live⟩ := by
        unfold ArenaSession.afterMalloc Session.afterMalloc
        rw [har, hlive]
        split_ifs <;> rfl
      refine ⟨_, ArenaSession.Step.malloc hpos hle, ?_⟩
      rw [hafter]
      exact ⟨⟨rfl, by rw [Session.afterMalloc_heap]; exact hos, Or.inr hin⟩, hin⟩
  | free ha hcall =>
    rename_i a heap
    obtain ⟨_, heap', hcall', hos, hin, -⟩ := (hbooted a ha).free hcfg ha
    cases hcall.symm.trans hcall'
    have hin : InOrder { st with heap := heap, live := st.live.erase a } (as.arena.free a.ptr).blocks := hin
    exact ⟨_, ArenaSession.Step.free (hlive ▸ ha), ⟨by rw [hlive], h.os.trans hos.symm, Or.inr hin⟩, hin⟩
  | write ha hu =>
    rename_i a u v
    have hin := (hbooted a ha).write ha hu v
    exact ⟨as, ArenaSession.Step.write (hlive ▸ ha) hu, ⟨hlive, h.os, Or.inr hin⟩, hin⟩

/-- **The code refines the arena**: every session of a correct client is a session of the arena, with the same
calls and the same live allocations, and shows its blocks. -/
theorem mirrors_of_reach (hcfg : 2 ^ 31 ≤ cfg.fuel) (h : Reach (clientSys (manager cfg)) tr st) :
    ∃ as, Reach arenaSys tr as ∧ Mirrors cfg st as ∧ (tr ≠ [] → InOrder st as.arena.blocks) := by
  induction h with
  | init h =>
    rename_i st
    refine ⟨⟨⟨[], st.heap.os⟩, st.live⟩, Reach.init ⟨rfl, h.os, h.live⟩, ⟨rfl, rfl, Or.inl ⟨h, rfl⟩⟩, ?_⟩
    exact fun hne => absurd rfl hne
  | step _ hstep ih =>
    obtain ⟨as, hreach, hmirrors, -⟩ := ih
    obtain ⟨as', hstep', hmirrors', hin⟩ := hmirrors.step hcfg hstep
    exact ⟨as', hreach.step hstep', hmirrors', fun _ => hin⟩

/-- Every call of a session that mirrors an arena returns. -/
theorem Mirrors.callsReturn (h : Mirrors cfg st as) (hcfg : 2 ^ 31 ≤ cfg.fuel) : CallsReturn (manager cfg) st := by
  refine ⟨fun size hpos hle => ?_, fun a ha => ?_⟩
  · rcases h.malloc hcfg hpos hle with hexit | ⟨p, heap, _, hcall, -⟩
    · exact Or.inr hexit
    · exact Or.inl ⟨p, heap, hcall⟩
  · rcases h.blocks with ⟨hfresh, -⟩ | hin
    · rw [hfresh.live] at ha
      cases ha
    · obtain ⟨_, heap, hcall, -⟩ := hin.free hcfg ha
      exact ⟨heap, hcall⟩

/-! ### A client that asks twice -/

/-- A byte is allocated, then 16 bytes, and both are freed, the last ones first.  Returned are the two pointers, the
ends of the heap while only the byte is live, and its ends when nothing is. -/
def sample (cfg : Cfg) : Exec BaseHeap ((ℕ × ℕ) × (ℕ × ℕ) × (ℕ × ℕ) × ℕ × ℕ) := do
  let p ← heapmgrMalloc cfg 1
  let s ← reads id
  let q ← heapmgrMalloc cfg 16
  heapmgrFree cfg q
  let s' ← reads id
  heapmgrFree cfg p
  let s'' ← reads id
  return ((p, q), (s.sHeapLo, s.sHeapHi), (s'.sHeapLo, s'.sHeapHi), s''.sHeapLo, s''.sHeapHi)

theorem sample_value : (sample ⟨true, 2 ^ 31⟩ (firstSession (manager ⟨true, 2 ^ 31⟩)).heap).value
    = some ((1025, 1023), (1, 1026), (1, 1026), 1, 1026) := by decide +kernel

/-- The sessions after the first call, the third and the last. -/
theorem sample_sessions : ∃ st₁ st₂ st₃ : Session ℕ,
    Reach (clientSys (manager ⟨true, 2 ^ 31⟩)) [.malloc 1] st₁ ∧
    Reach (clientSys (manager ⟨true, 2 ^ 31⟩)) [.malloc 1, .malloc 16, .free ⟨1023, 16⟩] st₂ ∧
    Reach (clientSys (manager ⟨true, 2 ^ 31⟩)) [.malloc 1, .malloc 16, .free ⟨1023, 16⟩, .free ⟨1025, 1⟩] st₃ ∧
    st₁.live = [⟨1025, 1⟩] ∧ st₂.live = [⟨1025, 1⟩] ∧ st₃.live = [] ∧
    st₁.heap.sHeapLo = st₂.heap.sHeapLo ∧ st₁.heap.sHeapHi = st₂.heap.sHeapHi ∧ st₃.heap.sHeapLo = 1 ∧
    st₃.heap.sHeapHi = 1026 := by
  obtain ⟨p, h₁, hp, hrest⟩ := exists_of_bind_value sample_value
  obtain ⟨s, _, hs, hrest⟩ := exists_of_bind_value hrest
  cases hs
  obtain ⟨q, h₂, hq, hrest⟩ := exists_of_bind_value hrest
  obtain ⟨⟨⟩, h₃, hfree, hrest⟩ := exists_of_bind_value hrest
  obtain ⟨s', _, hs', hrest⟩ := exists_of_bind_value hrest
  cases hs'
  obtain ⟨⟨⟩, h₄, hfree', hrest⟩ := exists_of_bind_value hrest
  obtain ⟨s'', _, hs'', hrest⟩ := exists_of_bind_value hrest
  cases hs''
  have hresult : ((p, q), (h₁.sHeapLo, h₁.sHeapHi), (h₃.sHeapLo, h₃.sHeapHi), h₄.sHeapLo, h₄.sHeapHi)
    = ((1025, 1023), (1, 1026), (1, 1026), 1, 1026) := Option.some.inj hrest
  simp only [Prod.mk.injEq] at hresult
  obtain ⟨⟨rfl, rfl⟩, ⟨hlo₁, hhi₁⟩, ⟨hlo₃, hhi₃⟩, hlo₄, hhi₄⟩ := hresult
  let st₁ : Session ℕ := ⟨h₁, [⟨1025, 1⟩], fun u => if Alloc.Covers ⟨1025, 1⟩ u then none else none⟩
  let st₂ : Session ℕ :=
    ⟨h₂, [⟨1023, 16⟩, ⟨1025, 1⟩], fun u => if Alloc.Covers ⟨1023, 16⟩ u then none else st₁.written u⟩
  let st₃ : Session ℕ := ⟨h₃, [⟨1025, 1⟩], st₂.written⟩
  let st₄ : Session ℕ := ⟨h₄, [], st₂.written⟩
  have hstep₁ : Session.Step (3 * 10 ^ 8) (manager ⟨true, 2 ^ 31⟩)
      (firstSession (manager ⟨true, 2 ^ 31⟩)) (.malloc 1) st₁ :=
    .granted (by decide) (by decide) (by decide) hp
  have hstep₂ : Session.Step (3 * 10 ^ 8) (manager ⟨true, 2 ^ 31⟩) st₁ (.malloc 16) st₂ :=
    .granted (by decide) (by decide) (by decide) hq
  have hstep₃ : Session.Step (3 * 10 ^ 8) (manager ⟨true, 2 ^ 31⟩) st₂ (.free ⟨1023, 16⟩) st₃ :=
    Session.Step.free (show ⟨1023, 16⟩ ∈ st₂.live from List.mem_cons_self) hfree
  have hstep₄ : Session.Step (3 * 10 ^ 8) (manager ⟨true, 2 ^ 31⟩) st₃ (.free ⟨1025, 1⟩) st₄ :=
    Session.Step.free (show ⟨1025, 1⟩ ∈ st₃.live from List.mem_cons_self) hfree'
  have hrun₁ := Reach.step (S := clientSys (manager ⟨true, 2 ^ 31⟩)) (Reach.init (firstSession_fresh _)) hstep₁
  have hrun₃ := Reach.step (S := clientSys (manager ⟨true, 2 ^ 31⟩))
    (Reach.step (S := clientSys (manager ⟨true, 2 ^ 31⟩)) hrun₁ hstep₂) hstep₃
  exact ⟨st₁, st₃, st₄, hrun₁, hrun₃, Reach.step (S := clientSys (manager ⟨true, 2 ^ 31⟩)) hrun₃ hstep₄, rfl, rfl,
    rfl, hlo₁.trans hlo₃.symm, hhi₁.trans hhi₃.symm, hlo₄, hhi₄⟩

/-! ### What holds in every run -/

/-- **`heapmgrbase.c` refines the arena.** -/
theorem heapmgrbase_refines (hcfg : 2 ^ 31 ≤ cfg.fuel) (h : Reach (clientSys (manager cfg)) tr st) :
    ∃ as, Reach arenaSys tr as ∧ as.live = st.live ∧ as.arena.os = st.heap.os ∧
      (tr ≠ [] → InOrder st as.arena.blocks) := by
  obtain ⟨as, hreach, hmirrors, hin⟩ := mirrors_of_reach hcfg h
  exact ⟨as, hreach, hmirrors.live, hmirrors.os, hin⟩

theorem heapmgrbase_refines_sample : ∃ (st : Session ℕ) (as : ArenaSession),
    Reach arenaSys [.malloc 1, .malloc 16, .free ⟨1023, 16⟩] as ∧ as.live = st.live ∧
      InOrder st as.arena.blocks := by
  obtain ⟨_, st₂, _, -, h₂, -⟩ := sample_sessions
  obtain ⟨as, hreach, hlive, -, hin⟩ := heapmgrbase_refines (Nat.le_refl _) h₂
  exact ⟨st₂, as, hreach, hlive, hin (List.cons_ne_nil _ _)⟩

/-- **The heap is in order after every call**, with assertions compiled in or not, and every call returns: no
assertion fails, and `check_heap_validity` finds nothing. -/
theorem heapmgrbase_inOrder (hcfg : 2 ^ 31 ≤ cfg.fuel) (h : Reach (clientSys (manager cfg)) tr st) :
    (tr ≠ [] → ∃ bs, InOrder st bs ∧
      ∀ a ∈ st.live, ∀ a' ∈ st.live, ∀ u, a.Covers u → a'.Covers u → a = a') ∧
    CallsReturn (manager cfg) st := by
  obtain ⟨as, -, hmirrors, hin⟩ := mirrors_of_reach hcfg h
  refine ⟨fun hne => ⟨_, hin hne, fun a ha a' ha' u hu hu' => ?_⟩, hmirrors.callsReturn hcfg⟩
  exact (hin hne).toOwned.disjoint (hin hne).wf.tiles ha ha' hu hu'

theorem heapmgrbase_inOrder_sample : ∃ st : Session ℕ, st.live = [⟨1025, 1⟩] ∧ (∃ bs, InOrder st bs) ∧
    CallsReturn (manager ⟨true, 2 ^ 31⟩) st := by
  obtain ⟨_, st₂, _, -, h₂, -, -, hlive, -⟩ := sample_sessions
  obtain ⟨hin, hreturn⟩ := heapmgrbase_inOrder (Nat.le_refl _) h₂
  obtain ⟨bs, hbs, -⟩ := hin (List.cons_ne_nil _ _)
  exact ⟨st₂, hlive, ⟨bs, hbs⟩, hreturn⟩

/-! ### What the layout depends on -/

/-- The pointer depends on the blocks, their end and the answer of the kernel only. -/
theorem Arena.malloc_pointer {ar ar' : Arena} (hblocks : ar.blocks = ar'.blocks) (hbrk : ar.os.brk = ar'.os.brk)
    (hgrants : ar.os.Grants (growSpan (payloadUnits size)) ↔ ar'.os.Grants (growSpan (payloadUnits size))) :
    (ar.malloc size).1 = (ar'.malloc size).1 := by
  obtain ⟨bs, os⟩ := ar
  obtain ⟨bs', os'⟩ := ar'
  cases hblocks
  unfold Arena.malloc Arena.take Arena.extend
  rw [show os'.brk = os.brk from hbrk.symm]
  cases firstFit (payloadUnits size + 1) bs with
  | some r => rfl
  | none =>
    by_cases hg : os.Grants (growSpan (payloadUnits size))
    · have hg' := hgrants.mp hg
      simp only [Option.map_none, if_pos hg, if_pos hg']
      cases firstFit (payloadUnits size + 1) (extended os.brk (payloadUnits size) bs) with
      | some r => rfl
      | none => rfl
    · have hg' := fun hg' => hg (hgrants.mpr hg')
      simp only [Option.map_none, if_neg hg, if_neg hg']

/-- Sessions in order with the same ends and the same live allocations have the same blocks. -/
theorem InOrder.blocks_unique (h : InOrder st bs) (h' : InOrder st' bs') (hlo : st.heap.sHeapLo = st'.heap.sHeapLo)
    (hhi : st.heap.sHeapHi = st'.heap.sHeapHi) (hlive : st.live.Perm st'.live) : bs = bs' := by
  have ht' := h'.wf.tiles
  rw [← hlo, ← hhi] at ht'
  have hused := h.toOwned.used_unique h'.toOwned hlive h.wf.tiles ht'
  exact h.wf.coalesced.unique h'.wf.coalesced h.wf.tiles ht' hused

/-- A call leaves a block behind, unless it is an allocation in vain. -/
theorem Mirrors.ne_nil {k : Call} (h : Mirrors cfg st as) (hcfg : 2 ^ 31 ≤ cfg.fuel)
    (hstep : Session.Step (3 * 10 ^ 8) (manager cfg) st k st') (hin : InOrder st' bs)
    (hgranted : ∀ size p heap, k = .malloc size → heapmgrMalloc cfg size st.heap = .ok p heap → p ≠ null) :
    bs ≠ [] := by
  have hblock (a : Alloc) (ha : a ∈ st'.live) : bs ≠ [] := List.ne_nil_of_mem (hin.block_mem ha)
  cases hstep with
  | malloc hpos hle hcall =>
    have hp := hgranted _ _ _ rfl hcall
    rw [Session.afterMalloc, if_neg hp] at hblock
    exact hblock _ List.mem_cons_self
  | free ha hcall =>
    rename_i a heap
    have hst : InOrder st as.arena.blocks := by
      rcases h.blocks with ⟨hfresh, -⟩ | hst
      · rw [hfresh.live] at ha
        cases ha
      · exact hst
    obtain ⟨_, heap', hcall', -, hin', -⟩ := hst.free hcfg ha
    cases hcall.symm.trans hcall'
    rw [hin.blocks_unique hin' rfl rfl (List.Perm.refl _)]
    -- the block is released together with its free neighbours, so that one is left
    have hptr := blockOf_addr (hst.ptr_ne_null a ha)
    obtain ⟨xs, ys, hsplit⟩ := List.append_of_mem (hst.block_mem ha)
    have htiles := hst.wf.tiles
    rw [hsplit] at htiles ⊢
    rw [← hptr, show (Arena.free ⟨xs ++ blockOf a :: ys, st.heap.os⟩ ((blockOf a).addr + 1)).blocks
      = release xs (blockOf a) ys from releaseAt_eq htiles]
    exact List.append_ne_nil_of_right_ne_nil _ (List.cons_ne_nil _ _)
  | write ha hu => exact hblock _ ha

/-- **The layout does not remember the calls.**  Two sessions, of any length and with assertions compiled in or not,
whose heaps have the same ends and whose clients have the same live allocations, have the same blocks, the same
headers and the same free list, and the next `heapmgr_malloc` returns the same pointer in both, when the kernel
would answer alike. -/
theorem heapmgrbase_layout {cfg' : Cfg} {tr' : List Call} (hcfg : 2 ^ 31 ≤ cfg.fuel) (hcfg' : 2 ^ 31 ≤ cfg'.fuel)
    (h : Reach (clientSys (manager cfg)) tr st) (h' : Reach (clientSys (manager cfg')) tr' st')
    (hne : tr ≠ []) (hne' : tr' ≠ []) (hlo : st.heap.sHeapLo = st'.heap.sHeapLo)
    (hhi : st.heap.sHeapHi = st'.heap.sHeapHi) (hlive : st.live.Perm st'.live) :
    st.heap.sFree = st'.heap.sFree ∧
    (∃ bs, InOrder st bs ∧ InOrder st' bs ∧
      (∀ b ∈ bs, (st.heap.mem b.addr).status = (st'.heap.mem b.addr).status ∧
        (st.heap.mem b.addr).span = (st'.heap.mem b.addr).span) ∧
      ∀ p ∈ freeAddrs bs, (st.heap.mem p).next = (st'.heap.mem p).next) ∧
    ∀ size p heap p' heap', 1 ≤ size → size ≤ 3 * 10 ^ 8 →
      (st.heap.os.Grants (growSpan (payloadUnits size)) ↔ st'.heap.os.Grants (growSpan (payloadUnits size))) →
      heapmgrMalloc cfg size st.heap = .ok p heap → heapmgrMalloc cfg' size st'.heap = .ok p' heap' → p = p' := by
  obtain ⟨as, -, -, hin⟩ := mirrors_of_reach hcfg h
  obtain ⟨as', -, -, hin'⟩ := mirrors_of_reach hcfg' h'
  have hst := hin hne
  have hst' := hin' hne'
  rw [← hst.blocks_unique hst' hlo hhi hlive] at hst'
  refine ⟨hst.wf.head.trans hst'.wf.head.symm, ⟨_, hst, hst', fun b hb => ⟨?_, ?_⟩, fun p hp => ?_⟩, ?_⟩
  · exact (hst.wf.status b hb).trans (hst'.wf.status b hb).symm
  · exact (hst.wf.span b hb).trans (hst'.wf.span b hb).symm
  · obtain ⟨l₁, l₂, hl⟩ := List.append_of_mem hp
    have hleads := hst.wf.leads
    have hleads' := hst'.wf.leads
    rw [hl] at hleads hleads'
    exact hleads.next_eq.trans hleads'.next_eq.symm
  · intro size p heap p' heap' hpos hle hgrants hcall hcall'
    obtain ⟨ar, har, -⟩ := (wp_iff_of_ok hcall).mp (hst.malloc hcfg hpos hle)
    obtain ⟨ar', har', -⟩ := (wp_iff_of_ok hcall').mp (hst'.malloc hcfg' hpos hle)
    have hbrk : st.heap.os.brk = st'.heap.os.brk := hst.os.brk.trans (hhi.trans hst'.os.brk.symm)
    have hpointer : (Arena.malloc ⟨as.arena.blocks, st.heap.os⟩ size).1
        = (Arena.malloc ⟨as.arena.blocks, st'.heap.os⟩ size).1 := Arena.malloc_pointer rfl hbrk hgrants
    rwa [har, har'] at hpointer

/-- One client has asked for a byte only, the other one has asked for 16 more and freed them. -/
theorem heapmgrbase_layout_sample : ∃ (st st' : Session ℕ) (bs : List Block), st.heap.sFree = st'.heap.sFree ∧
    InOrder st bs ∧ InOrder st' bs := by
  obtain ⟨st₁, st₂, _, h₁, h₂, -, hlive₁, hlive₂, -, hlo, hhi, -⟩ := sample_sessions
  obtain ⟨hhead, ⟨bs, hbs, hbs', -⟩, -⟩ := heapmgrbase_layout (Nat.le_refl _) (Nat.le_refl _) h₁ h₂
    (List.cons_ne_nil _ _) (List.cons_ne_nil _ _) hlo hhi (by rw [hlive₁, hlive₂])
  exact ⟨st₁, st₂, bs, hhead, hbs, hbs'⟩

/-- Neighbours are never both free, so that nothing or one free block is left when no block is used. -/
theorem single_of_no_used {lo hi : ℕ} (ht : Tiles Block.addr Block.span lo hi bs) (hc : Coalesced bs)
    (hused : usedBlocks bs = []) : bs = [] ∧ lo = hi ∨ bs = [⟨lo, hi - lo, false⟩] := by
  have hfree (b : Block) (hb : b ∈ bs) : b.used = false := by
    cases hu : b.used with
    | false => rfl
    | true =>
      have hmem : b ∈ usedBlocks bs := mem_usedBlocks.mpr ⟨hb, hu⟩
      rw [hused] at hmem
      cases hmem
  match bs with
  | [] => exact Or.inl ⟨rfl, ht⟩
  | [b] =>
    obtain ⟨haddr, -, hend⟩ := ht
    have hspan : b.span = hi - lo := by
      have hend : lo + b.span = hi := hend
      omega
    have hused : b.used = false := hfree b (List.mem_singleton_self b)
    obtain ⟨addr, span, used⟩ := b
    simp only at haddr hspan hused
    rw [haddr, hspan, hused]
    exact Or.inr rfl
  | b :: c :: bs =>
    have hnext := Coalesced.next_used (show Coalesced ([] ++ b :: c :: bs) from hc) (hfree b (by simp)) c rfl
    rw [hfree c (by simp)] at hnext
    cases hnext

/-- **Nothing is lost.**  When the client has freed everything, the heap is one free block again, and serves any
request that fits between its ends from its upper end, without asking the kernel. -/
theorem heapmgrbase_all_freed (hcfg : 2 ^ 31 ≤ cfg.fuel) (h : Reach (clientSys (manager cfg)) tr st) (hne : tr ≠ [])
    (hlive : st.live = []) :
    InOrder st [] ∧ st.heap.sHeapLo = st.heap.sHeapHi ∨
    InOrder st [⟨st.heap.sHeapLo, st.heap.sHeapHi - st.heap.sHeapLo, false⟩] ∧
      ∀ size, 1 ≤ size → size ≤ 3 * 10 ^ 8 → payloadUnits size + 1 ≤ st.heap.sHeapHi - st.heap.sHeapLo →
        ∃ heap, heapmgrMalloc cfg size st.heap = .ok (st.heap.sHeapHi - payloadUnits size) heap ∧
          heap.os = st.heap.os := by
  obtain ⟨as, -, -, hin⟩ := mirrors_of_reach hcfg h
  have hst := hin hne
  rcases single_of_no_used hst.wf.tiles hst.wf.coalesced (hst.no_used hlive) with ⟨hblocks, hends⟩ | hblocks
  · rw [hblocks] at hst
    exact Or.inl ⟨hst, hends⟩
  rw [hblocks] at hst
  refine Or.inr ⟨hst, fun size hpos hle hfit => ?_⟩
  obtain ⟨p, heap, hcall, ar, har, hos, -⟩ := hst.malloc hcfg hpos hle
  have hfound : firstFit (payloadUnits size + 1)
      ([] ++ [⟨st.heap.sHeapLo, st.heap.sHeapHi - st.heap.sHeapLo, false⟩]) = some _ :=
    firstFit_eq_some nofun rfl hfit
  rw [Arena.malloc_of_found hfound] at har
  cases har
  refine ⟨heap, ?_, hos.symm⟩
  rw [hcall]
  congr 1
  show st.heap.sHeapLo + (st.heap.sHeapHi - st.heap.sHeapLo - (payloadUnits size + 1)) + 1 = _
  omega

theorem heapmgrbase_all_freed_sample : ∃ st : Session ℕ, InOrder st [⟨1, 1025, false⟩] ∧
    ∃ heap, heapmgrMalloc ⟨true, 2 ^ 31⟩ 16 st.heap = .ok 1025 heap ∧ heap.os = st.heap.os := by
  obtain ⟨_, _, st₃, -, -, h₃, -, -, hlive, -, -, hlo, hhi⟩ := sample_sessions
  have hfreed := heapmgrbase_all_freed (Nat.le_refl _) h₃ (List.cons_ne_nil _ _) hlive
  rw [hlo, hhi] at hfreed
  obtain ⟨hin, hserved⟩ := hfreed.resolve_left fun ⟨_, hends⟩ => by cases hends
  exact ⟨st₃, hin, hserved 16 (by decide) (by decide) (by decide)⟩

end SystemProgramming.HeapMgr.Base
