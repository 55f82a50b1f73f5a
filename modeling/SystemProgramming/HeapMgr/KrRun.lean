import SystemProgramming.HeapMgr.KrArena
import SystemProgramming.HeapMgr.BaseRun

/-!
# Runs of a correct client of `heapmgrkr.c`

A session of the manager mirrors a session of the next-fit arena with the same calls: the headers show the blocks of
the arena, `freep` is its rover, and the pointers are the same.

* `mirrors_of_reach`: every session mirrors one of the arena.
* `heapmgrkr_refines`: the manager refines the next-fit arena.
* `heapmgrkr_kernel`: when the kernel is asked.
* `heapmgrkr_all_freed`: when everything is freed, the memory is one free block.
* `heapmgrkr_layout`: the manager lays out the same blocks as the reference manager.
-/

namespace SystemProgramming.HeapMgr.Kr

open Exec
open Base (withLink withSpan_span links links_withLink links_withSpan Sized freeAddrs mem_freeAddrs carve carved
  releaseAt_eq usedBlocks_carve single_of_no_used)

/-- The two entry points of `heapmgrkr.c`. -/
def manager (fuel base : ℕ) : Manager ℕ where
  malloc := heapmgrMalloc fuel base
  free := heapmgrFree fuel
  noFree := null

/-- A session that has not begun, with the break at `lo`.  `base` is a global, and so lies below. -/
structure Unused (fuel base lo : ℕ) (st : Session ℕ) : Prop where
  fresh : st.Fresh (manager fuel base)
  base_pos : 0 < base
  base_lt : base < lo
  brk : st.heap.os.brk = lo

/-- The sessions of a correct client. -/
def krSys (fuel base lo : ℕ) : Sys (Session ℕ) Call where
  init := Unused fuel base lo
  step := Session.Step (3 * 10 ^ 8) (manager fuel base)

/-- A session in order, whose heap begins at `lo`: the headers show the blocks `bs`, the free ones are in a circle
with `base`, and no two of them are neighbours, the used ones are exactly the live allocations, and every payload
reads back what was written to it. -/
structure InOrder (base lo : ℕ) (st : Session ℕ) (bs : List Block) : Prop extends Owned st bs where
  wf : WellFormed base lo ∅ st.heap.mem st.heap bs
  room : Room lo st.heap.os

/-- A session of the manager and one of the arena that have come to the same point. -/
structure Mirrors (fuel base lo : ℕ) (st : Session ℕ) (as : ArenaSession) : Prop where
  live : as.live = st.live
  os : as.arena.os = st.heap.os
  blocks : (Unused fuel base lo st ∧ as.arena.blocks = [] ∧ as.arena.rover = base) ∨
    (InOrder base lo st as.arena.blocks ∧ as.arena.rover = st.heap.sFree)

variable {fuel base lo : ℕ} {keep : Set ℕ} {m₀ : Mem} {s : KrHeap} {bs bs' xs ys : List Block} {b c : Block}
  {st st' : Session ℕ} {as : ArenaSession} {a a' : Alloc} {tr : List Call} {u p size : ℕ}

/-! ### Payloads -/

theorem WellFormed.rekeep {keep' : Set ℕ} (h : WellFormed base lo keep m₀ s bs)
    (hkeep : ∀ u ∈ keep', ∃ b ∈ bs, b.used = true ∧ b.addr < u ∧ u < b.addr + b.span) :
    WellFormed base lo keep' s.mem s bs :=
  { h with toSized := h.toSized.rekeep hkeep }

theorem WellFormed.forget (h : WellFormed base lo keep m₀ s bs) : WellFormed base lo ∅ s.mem s bs :=
  h.rekeep fun _ hu => absurd hu (Set.notMem_empty _)

/-- A write strictly inside a used block does not show. -/
theorem WellFormed.write (h : WellFormed base lo keep m₀ s bs) (hb : b ∈ bs) (h₁ : b.addr < u)
    (h₂ : u < b.addr + b.span) (v : Cell) :
    WellFormed base lo ∅ (Function.update s.mem u v) { s with mem := Function.update s.mem u v } bs := by
  have hbase : Function.update s.mem u v base = s.mem base := by
    have hlt := h.base_lt
    have hbounds := h.tiles.bounds hb
    exact Function.update_of_ne (by omega) _ _
  refine ⟨⟨⟨⟨h.toSized.write hb h₁ h₂ v, h.base_pos, h.base_lt, ?_⟩, ?_⟩, h.rover⟩, h.coalesced⟩
  · show (Function.update s.mem u v base).hi32 = 0
    rw [hbase]
    exact h.baseSize
  · refine h.leads.congr fun p hp => ?_
    rcases List.mem_cons.mp hp with rfl | hp
    · exact congrArg Cell.link hbase
    · obtain ⟨c, hc, -, rfl⟩ := mem_freeAddrs.mp hp
      exact congrArg Cell.link (h.toSized.header_update hb h₁ h₂ v hc)

theorem Room.of_eq {os os' : Os} (h : Room lo os) (heq : os' = os) : Room lo os' := heq ▸ h

theorem Room.refused {os : Os} (h : Room lo os) : Room lo (refused os) := ⟨h.le_limit, h.limit_small, h.limit_lt⟩

theorem Room.granted {os : Os} {n : ℕ} (h : Room lo os) (hgrants : os.Grants n) : Room lo (granted n os) :=
  ⟨hgrants.2, h.limit_small, h.limit_lt⟩

theorem usedBlocks_extended (hi n : ℕ) (bs : List Block) : usedBlocks (extended hi n bs) = usedBlocks bs := by
  unfold extended
  rw [usedBlocks_release]
  exact List.append_nil _

theorem tiles_extended {hi : ℕ} (n : ℕ) (h : Tiles Block.addr Block.span lo hi bs) :
    Tiles Block.addr Block.span lo (hi + growUnits n) (extended hi n bs) :=
  tiles_release (tiles_append.mpr ⟨hi, h, rfl, growUnits_pos, rfl⟩)

namespace InOrder

/-- The live payloads may be kept through a call. -/
theorem wf_payloads (h : InOrder base lo st bs) {live : List Alloc} (hsub : ∀ a ∈ live, a ∈ st.live) :
    WellFormed base lo (payloads live) st.heap.mem st.heap bs :=
  h.wf.rekeep fun _ ⟨a, ha, hu⟩ => h.payloads_inside ⟨a, hsub a ha, hu⟩

/-! ### One call -/

/-- A block of the right size has been cut from the free block `c`. -/
theorem cut (h : Owned st bs) (hbefore : usedBlocks (xs ++ c :: ys) = usedBlocks bs) (hc : c.used = false)
    (hwf : WellFormed base lo (payloads st.live) st.heap.mem s (xs ++ carve c (payloadUnits size + 1) ++ ys))
    (hroom : Room lo s.os) :
    InOrder base lo (st.afterMalloc size ((carved c (payloadUnits size + 1)).addr + 1) s)
      (xs ++ carve c (payloadUnits size + 1) ++ ys) := by
  have hsplit : usedBlocks bs = usedBlocks xs ++ usedBlocks ys := by
    rw [← hbefore, usedBlocks_append, usedBlocks_cons_free hc]
  have howned := h.allocated (b := carved c (payloadUnits size + 1)) hwf.kept rfl rfl hsplit usedBlocks_carve
  have hnull : (carved c (payloadUnits size + 1)).addr + 1 ≠ null := Nat.succ_ne_zero _
  rw [Session.afterMalloc, if_neg hnull] at howned ⊢
  exact ⟨howned, hwf.forget, hroom⟩

/-- **One `heapmgr_malloc`** does what the arena does, and touches no live payload. -/
theorem malloc (h : InOrder base lo st bs) (hfuel : 2 ^ 33 ≤ fuel) (hle : size ≤ 3 * 10 ^ 8) :
    wp (heapmgrMalloc fuel base size) (fun p heap => ∃ ar,
      Arena.malloc base ⟨bs, st.heap.sFree, st.heap.os⟩ size = (p, ar) ∧ ar.os = heap.os ∧ ar.rover = heap.sFree ∧
      InOrder base lo (st.afterMalloc size p heap) ar.blocks ∧
      ∀ u ∈ payloads st.live, heap.mem u = st.heap.mem u) st.heap := by
  have hwf₀ := h.wf_payloads fun _ ha => ha
  refine wp_heapmgrMalloc hwf₀ h.room hfuel hle (fun s' xs c ys hbs hc _ hnext hk hrover hwf => ?_)
    (fun hnone hno => ?_) fun hnone hgrants s' xs c ys hbs hc _ hnext hos hrover hwf => ?_
  · subst hbs
    refine ⟨_, Arena.malloc_of_found (Arena.take_of_found h.wf.tiles hnext), hk.os.symm, hrover.symm, ?_, hwf.kept⟩
    exact cut h.toOwned rfl hc hwf (h.room.of_eq hk.os)
  · refine ⟨_, Arena.malloc_of_refused (Arena.take_of_none hnone) hno, rfl, rfl, ?_, fun _ _ => rfl⟩
    rw [Session.afterMalloc, if_pos rfl]
    exact ⟨h.toOwned.unchanged fun _ _ => rfl, ⟨⟨h.wf.toRinged, h.wf.rover⟩, h.wf.coalesced⟩, h.room.refused⟩
  · have htake : (Arena.extend base ⟨bs, st.heap.sFree, st.heap.os⟩ (payloadUnits size + 1)).take base
        (payloadUnits size + 1) = some ((carved c (payloadUnits size + 1)).addr + 1,
          ⟨xs ++ carve c (payloadUnits size + 1) ++ ys, (freeAddrs xs).getLastD base,
            granted (growUnits (payloadUnits size + 1)) st.heap.os⟩) := by
      have htiles := tiles_extended (payloadUnits size + 1) h.wf.tiles
      unfold Arena.extend
      rw [hbs] at hnext htiles ⊢
      exact Arena.take_of_found htiles hnext
    refine ⟨_, Arena.malloc_of_grown (Arena.take_of_none hnone) hgrants htake, hos.symm, hrover.symm, ?_, hwf.kept⟩
    refine cut h.toOwned ?_ hc hwf ((h.room.granted hgrants).of_eq hos)
    rw [← hbs]
    exact usedBlocks_extended _ _ bs

/-- What a search has found fits. -/
theorem not_noneFits {n : ℕ} (h : InOrder base lo st bs) (hn : 1 ≤ n)
    (hfound : nextFit base n bs st.heap.sFree = some p) : ¬ NoneFits bs n := by
  intro hnone
  obtain ⟨hmem, hfit⟩ := fits_of_nextFit hfound
  obtain ⟨c, hc, hfree, -, hspan⟩ := exists_of_fits h.wf.toRinged hmem hn hfit
  exact Nat.not_lt.mpr hspan (hnone c hc hfree)

/-- One `heapmgr_malloc` asks the kernel only if no free block is large enough. -/
theorem kernel (h : InOrder base lo st bs) (hfuel : 2 ^ 33 ≤ fuel) (hle : size ≤ 3 * 10 ^ 8) :
    wp (heapmgrMalloc fuel base size) (fun p heap =>
      ((∃ b ∈ bs, b.used = false ∧ payloadUnits size + 1 ≤ b.span) → p ≠ null ∧ heap.os = st.heap.os) ∧
      (NoneFits bs (payloadUnits size + 1) → heap.os.calls = st.heap.os.calls + 1 ∧
        (p ≠ null ↔ st.heap.os.Grants (growUnits (payloadUnits size + 1))))) st.heap := by
  have hnofit (hnone : nextFit base (payloadUnits size + 1) bs st.heap.sFree = none) :
      ¬ ∃ b ∈ bs, b.used = false ∧ payloadUnits size + 1 ≤ b.span :=
    fun ⟨b, hb, hfree, hfit⟩ => nextFit_ne_none h.wf.toRinged hb hfree hfit hnone
  refine wp_heapmgrMalloc h.wf h.room hfuel hle (fun s' xs c ys _ _ _ hnext hk _ _ => ?_) (fun hnone hno => ?_)
    fun hnone hgrants s' xs c ys _ _ _ _ hos _ _ => ?_
  · refine ⟨fun _ => ⟨Nat.succ_ne_zero _, hk.os⟩, fun hno => ?_⟩
    exact absurd hno (h.not_noneFits (Nat.le_add_left 1 _) hnext)
  · refine ⟨fun hfits => absurd hfits (hnofit hnone), fun _ => ⟨rfl, fun hne => absurd rfl hne, ?_⟩⟩
    exact fun hgrants => absurd hgrants hno
  · refine ⟨fun hfits => absurd hfits (hnofit hnone), fun _ => ⟨?_, fun _ => hgrants, fun _ => Nat.succ_ne_zero _⟩⟩
    rw [hos]
    rfl

/-- **One `heapmgr_free`** does what the arena does, and touches no other live payload. -/
theorem free (h : InOrder base lo st bs) (hfuel : 2 ^ 33 ≤ fuel) (ha : a ∈ st.live) :
    wp (heapmgrFree fuel a.ptr) (fun _ heap => ∃ ar, Arena.free base ⟨bs, st.heap.sFree, st.heap.os⟩ a.ptr = ar ∧
      ar.os = heap.os ∧ ar.rover = heap.sFree ∧
      InOrder base lo { st with heap := heap, live := st.live.erase a } ar.blocks ∧
      ∀ u ∈ payloads (st.live.erase a), heap.mem u = st.heap.mem u) st.heap := by
  have hptr := blockOf_addr (h.ptr_ne_null a ha)
  have hapart := h.toOwned.apart h.wf.tiles ha
  have hkeep := h.wf_payloads fun a' (ha' : a' ∈ st.live.erase a) => List.mem_of_mem_erase ha'
  have howned := h.toOwned
  have htiles := h.wf.tiles
  have hlen := length_lt h.wf
  obtain ⟨xs, ys, rfl⟩ := List.append_of_mem (h.block_mem ha)
  have hfree : Arena.free base ⟨xs ++ blockOf a :: ys, st.heap.sFree, st.heap.os⟩ ((blockOf a).addr + 1)
      = ⟨release xs (blockOf a) ys, (freeAddrs xs).getLastD base, st.heap.os⟩ := by
    unfold Arena.free
    rw [Nat.add_sub_cancel, releaseAt_eq htiles, lastBelow_eq htiles]
  rw [← hptr, hfree]
  refine wp_heapmgrFree hkeep rfl (by omega) hapart fun s' hk hrover hwf => ?_
  refine ⟨_, rfl, hk.os.symm, hrover.symm, ?_, hwf.kept⟩
  exact ⟨howned.freed ha hwf.kept, hwf.forget, h.room.of_eq hk.os⟩

/-- **One write** by the client. -/
theorem write (h : InOrder base lo st bs) (ha : a ∈ st.live) (hu : a.Covers u) (v : Cell) :
    InOrder base lo { st with heap := { st.heap with mem := Function.update st.heap.mem u v }
                              written := Function.update st.written u (some v) } bs := by
  obtain ⟨h₁, h₂⟩ := blockOf_covers (h.ptr_ne_null a ha) hu
  exact ⟨h.toOwned.write u v, h.wf.write (h.block_mem ha) h₁ h₂ v,
    ⟨h.room.le_limit, h.room.limit_small, h.room.limit_lt⟩⟩

end InOrder

/-! ### The first call -/

/-- The circle of `base` alone. -/
def started (base : ℕ) (s : KrHeap) : KrHeap :=
  { s with mem := Base.withSpan (withLink s.mem base base) base 0, sFree := base }

theorem startList_fresh (hbase : base ≠ null) (h : s.sFree = null) :
    startList base s = .ok base (started base s) := by
  have hstart : wp (startList base) (fun p s' => p = base ∧ s' = started base s) s := by
    unfold startList freep setFreep
    simp only [wp_bind, wp_reads]
    rw [if_neg (not_not.mpr h), wp_bind, wp_modify, wp_bind, wp_lift, wp_setPtr hbase, wp_bind, wp_lift,
      wp_setSize hbase, wp_pure]
    exact ⟨rfl, rfl⟩
  obtain ⟨p, s', hcall, rfl, rfl⟩ := hstart
  exact hcall

theorem startList_started (h : s.sFree ≠ null) : startList base s = .ok s.sFree s := by
  have hstart : wp (startList base) (fun p s' => p = s.sFree ∧ s' = s) s := by
    unfold startList freep
    rw [wp_bind, wp_reads, if_pos h, wp_pure]
    exact ⟨rfl, rfl⟩
  obtain ⟨p, s', hcall, rfl, rfl⟩ := hstart
  exact hcall

theorem malloc_started (h : Unused fuel base lo st) (size : ℕ) :
    heapmgrMalloc fuel base size st.heap = heapmgrMalloc fuel base size (started base st.heap) := by
  have hbase : base ≠ null := Nat.ne_of_gt h.base_pos
  have hagain : startList base (started base st.heap) = .ok base (started base st.heap) := startList_started hbase
  unfold heapmgrMalloc
  exact bind_congr_start ((startList_fresh hbase h.fresh.lists).trans hagain.symm)

/-- A heap that has just been started has no blocks. -/
theorem inOrder_started (h : Unused fuel base lo st) :
    InOrder base lo { st with heap := started base st.heap } [] := by
  obtain ⟨hfresh, hpos, hlt, hbrk⟩ := h
  subst hbrk
  have hbrk := hfresh.os.brk_pos
  have hle := hfresh.os.le_limit
  have hlimit := hfresh.os.limit_lt
  let m := (started base st.heap).mem
  have hsized : Sized ∅ m m st.heap.os.brk st.heap.os.brk [] :=
    ⟨hbrk, by omega, by omega, rfl, nofun, fun _ _ => rfl, fun _ hu => absurd hu (Set.notMem_empty _)⟩
  have hsize : (m base).hi32 = 0 := by
    show (Base.withSpan _ base 0 base).hi32 = 0
    rw [withSpan_span, if_pos rfl]
  have hleads : Leads (links m) base [base] := by
    show Leads (links (Base.withSpan (withLink _ base base) base 0)) base [base]
    rw [links_withSpan, links_withLink]
    exact ⟨Function.update_self .., trivial⟩
  exact ⟨Owned.of_no_live hfresh.live rfl,
    ⟨⟨⟨⟨hsized, hpos, hlt, hsize⟩, hleads⟩, List.mem_cons_self⟩, List.isChain_nil⟩,
    ⟨hle, hfresh.os.limit_small, hlimit⟩⟩

/-! ### Runs -/

/-- A call of `heapmgr_malloc` does what the arena does. -/
theorem Mirrors.malloc (h : Mirrors fuel base lo st as) (hfuel : 2 ^ 33 ≤ fuel) (hle : size ≤ 3 * 10 ^ 8) :
    ∃ p heap ar, heapmgrMalloc fuel base size st.heap = .ok p heap ∧ as.arena.malloc base size = (p, ar) ∧
      ar.os = heap.os ∧ ar.rover = heap.sFree ∧ InOrder base lo (st.afterMalloc size p heap) ar.blocks := by
  obtain ⟨⟨blocks, rover, os⟩, live⟩ := as
  have hos : os = st.heap.os := h.os
  subst hos
  rcases h.blocks with ⟨hunused, hblocks, hrover⟩ | ⟨hst, hrover⟩
  · cases hblocks
    obtain rfl : base = rover := hrover.symm
    obtain ⟨p, heap, hcall, ar, har, hos, hrover, hin, -⟩ := (inOrder_started hunused).malloc hfuel hle
    exact ⟨p, heap, ar, (malloc_started hunused size).trans hcall, har, hos, hrover, hin⟩
  · cases hrover
    obtain ⟨p, heap, hcall, ar, har, hos, hrover, hin, -⟩ := hst.malloc hfuel hle
    exact ⟨p, heap, ar, hcall, har, hos, hrover, hin⟩

/-- **One call.**  The arena takes the same step, and the session is in order. -/
theorem Mirrors.step {k : Call} (h : Mirrors fuel base lo st as) (hfuel : 2 ^ 33 ≤ fuel)
    (hstep : Session.Step (3 * 10 ^ 8) (manager fuel base) st k st') :
    ∃ as', ArenaSession.Step base as k as' ∧ as'.live = st'.live ∧ as'.arena.os = st'.heap.os ∧
      InOrder base lo st' as'.arena.blocks ∧ as'.arena.rover = st'.heap.sFree := by
  have hlive := h.live
  -- nothing is live before the first call
  have hstarted (a : Alloc) (ha : a ∈ st.live) :
      InOrder base lo st as.arena.blocks ∧ as.arena.rover = st.heap.sFree := by
    refine h.blocks.resolve_left fun ⟨hunused, _⟩ => ?_
    rw [hunused.fresh.live] at ha
    cases ha
  cases hstep with
  | malloc hpos hle hcall =>
    rename_i size p heap
    obtain ⟨p', heap', ar, hcall', har, hos, hrover, hin⟩ := h.malloc hfuel hle
    cases hcall.symm.trans hcall'
    have hafter : as.afterMalloc base size = ⟨ar, (st.afterMalloc size p heap).live⟩ := by
      unfold ArenaSession.afterMalloc Session.afterMalloc
      rw [har, hlive]
      split_ifs <;> rfl
    refine ⟨_, ArenaSession.Step.malloc hpos hle, ?_⟩
    rw [hafter, Session.afterMalloc_heap]
    exact ⟨rfl, hos, hin, hrover⟩
  | free ha hcall =>
    rename_i a heap
    obtain ⟨hin, hrover⟩ := hstarted a ha
    obtain ⟨_, heap', hcall', ar, har, hos, hrover', hin', -⟩ := hin.free hfuel ha
    cases hcall.symm.trans hcall'
    have harena : as.arena.free base a.ptr = ar := by
      rw [← har, ← hrover, ← h.os]
    refine ⟨_, ArenaSession.Step.free (hlive ▸ ha), ?_⟩
    rw [harena]
    exact ⟨by rw [hlive], hos, hin', hrover'⟩
  | write ha hu =>
    rename_i a u v
    obtain ⟨hin, hrover⟩ := hstarted a ha
    exact ⟨as, ArenaSession.Step.write (hlive ▸ ha) hu, hlive, h.os, hin.write ha hu v, hrover⟩

/-- **The code refines the arena.** -/
theorem mirrors_of_reach (hfuel : 2 ^ 33 ≤ fuel) (h : Reach (krSys fuel base lo) tr st) :
    ∃ as, Reach (arenaSys base) tr as ∧ Mirrors fuel base lo st as ∧
      (tr ≠ [] → InOrder base lo st as.arena.blocks ∧ as.arena.rover = st.heap.sFree) := by
  induction h with
  | init h =>
    rename_i st
    refine ⟨⟨⟨[], base, st.heap.os⟩, st.live⟩, Reach.init ⟨rfl, rfl, h.fresh.os, h.fresh.live⟩,
      ⟨rfl, rfl, Or.inl ⟨h, rfl, rfl⟩⟩, fun hne => absurd rfl hne⟩
  | step _ hstep ih =>
    obtain ⟨as, hreach, hmirrors, -⟩ := ih
    obtain ⟨as', hstep', hlive, hos, hin⟩ := hmirrors.step hfuel hstep
    exact ⟨as', hreach.step hstep', ⟨hlive, hos, Or.inr hin⟩, fun _ => hin⟩

/-- Every legal call returns. -/
theorem Mirrors.returns (h : Mirrors fuel base lo st as) (hfuel : 2 ^ 33 ≤ fuel) :
    (∀ size ≤ 3 * 10 ^ 8, ∃ p heap, heapmgrMalloc fuel base size st.heap = .ok p heap) ∧
      ∀ a ∈ st.live, ∃ heap, heapmgrFree fuel a.ptr st.heap = .ok () heap := by
  refine ⟨fun size hle => ?_, fun a ha => ?_⟩
  · obtain ⟨p, heap, _, hcall, -⟩ := h.malloc hfuel hle
    exact ⟨p, heap, hcall⟩
  · rcases h.blocks with ⟨hunused, -⟩ | ⟨hin, -⟩
    · rw [hunused.fresh.live] at ha
      cases ha
    · obtain ⟨_, heap, hcall, -⟩ := hin.free hfuel ha
      exact ⟨heap, hcall⟩

/-! ### A client that asks once -/

/-- A session that has not begun, with `base` at unit one and the break behind it. -/
def freshSession (mgr : Manager ℕ) : Session ℕ :=
  { firstSession mgr with
    heap :=
      { (firstSession mgr).heap with
        os := { brk := 2, limit := 2 ^ 31, ready := true, answer := fun _ => true, calls := 0 } } }

theorem freshSession_fresh (mgr : Manager ℕ) : (freshSession mgr).Fresh mgr where
  booted := rfl
  lo := rfl
  hi := rfl
  lists := rfl
  os :=
    { brk_pos := show 0 < 2 by decide
      le_limit := show 2 ≤ 2 ^ 31 by decide
      limit_small := show 2 ^ 31 < 2 + 2 ^ 31 by decide
      limit_lt := show 2 ^ 31 < 2 ^ 60 - 1 by decide }
  live := rfl

theorem freshSession_unused (fuel : ℕ) : Unused fuel 1 2 (freshSession (manager fuel 1)) :=
  ⟨freshSession_fresh _, by decide, by decide, rfl⟩

/-- A chunk is allocated and freed.  Returned are the pointer, `s_heap_lo` and the break while it is live, and the
break at the end. -/
def sample (mgr : Manager ℕ) (size : ℕ) : Exec KrHeap (ℕ × ℕ × ℕ × ℕ) := do
  let p ← mgr.malloc size
  let s ← reads id
  mgr.free p
  let s' ← reads id
  return (p, s.sHeapLo, s.os.brk, s'.os.brk)

theorem sample_value : (sample (manager (2 ^ 33) 1) 16384 (freshSession (manager (2 ^ 33) 1)).heap).value
    = some (3, null, 1027, 1027) := by decide +kernel

/-- The reference manager answers a request for 1024 payload units alike. -/
theorem sample_value_base :
    (sample (Base.manager ⟨true, 2 ^ 31⟩) 16384 (freshSession (Base.manager ⟨true, 2 ^ 31⟩)).heap).value
      = some (3, 2, 1027, 1027) := by decide +kernel

/-- The sessions after the two calls. -/
theorem sample_sessions {mgr : Manager ℕ} {S : Sys (Session ℕ) Call} (hS : S.step = Session.Step (3 * 10 ^ 8) mgr)
    (hinit : S.init (freshSession mgr))
    (hvalue : (sample mgr 16384 (freshSession mgr).heap).value = some (3, lo, 1027, 1027)) :
    ∃ st₁ st₂ : Session ℕ, Reach S [.malloc 16384] st₁ ∧ Reach S [.malloc 16384, .free ⟨3, 16384⟩] st₂ ∧
      st₁.live = [⟨3, 16384⟩] ∧ st₂.live = [] ∧ st₁.heap.sHeapLo = lo ∧ st₁.heap.os.brk = 1027 ∧
      st₂.heap.os.brk = 1027 := by
  obtain ⟨p, h₁, hp, hrest⟩ := exists_of_bind_value hvalue
  obtain ⟨s, _, hs, hrest⟩ := exists_of_bind_value hrest
  cases hs
  obtain ⟨⟨⟩, h₂, hfree, hrest⟩ := exists_of_bind_value hrest
  obtain ⟨s', _, hs', hrest⟩ := exists_of_bind_value hrest
  cases hs'
  have hresult : (p, h₁.sHeapLo, h₁.os.brk, h₂.os.brk) = (3, lo, 1027, 1027) := Option.some.inj hrest
  simp only [Prod.mk.injEq] at hresult
  obtain ⟨rfl, hlo, hbrk, hbrk'⟩ := hresult
  let st₁ : Session ℕ := ⟨h₁, [⟨3, 16384⟩], fun u => if Alloc.Covers ⟨3, 16384⟩ u then none else none⟩
  have hstep₁ : S.step (freshSession mgr) (.malloc 16384) st₁ := by
    rw [hS]
    exact .granted (by decide) (by decide) (by decide) hp
  have hstep₂ : S.step st₁ (.free ⟨3, 16384⟩) ⟨h₂, [], st₁.written⟩ := by
    rw [hS]
    exact Session.Step.free (show ⟨3, 16384⟩ ∈ st₁.live from List.mem_cons_self) hfree
  have hrun₁ := Reach.step (Reach.init hinit) hstep₁
  exact ⟨st₁, _, hrun₁, hrun₁.step hstep₂, rfl, rfl, hlo, hbrk, hbrk'⟩

theorem kr_sessions : ∃ st₁ st₂ : Session ℕ, Reach (krSys (2 ^ 33) 1 2) [.malloc 16384] st₁ ∧
    Reach (krSys (2 ^ 33) 1 2) [.malloc 16384, .free ⟨3, 16384⟩] st₂ ∧ st₁.live = [⟨3, 16384⟩] ∧ st₂.live = [] ∧
    st₁.heap.os.brk = 1027 ∧ st₂.heap.os.brk = 1027 := by
  obtain ⟨st₁, st₂, h₁, h₂, hlive, hlive', -, hbrk⟩ :=
    sample_sessions (S := krSys (2 ^ 33) 1 2) rfl (freshSession_unused _) sample_value
  exact ⟨st₁, st₂, h₁, h₂, hlive, hlive', hbrk⟩

/-! ### What holds in every run -/

/-- **`heapmgrkr.c` refines the next-fit arena.**  Every session of a correct client is a session of the arena with
the same calls, the same live allocations and the same answers of the kernel; after every call it is in order, with
the blocks of the arena, and will search from the same place.  The next legal call returns. -/
theorem heapmgrkr_refines (hfuel : 2 ^ 33 ≤ fuel) (h : Reach (krSys fuel base lo) tr st) :
    (∃ as, Reach (arenaSys base) tr as ∧ as.live = st.live ∧ as.arena.os = st.heap.os ∧
      (tr ≠ [] → InOrder base lo st as.arena.blocks ∧ as.arena.rover = st.heap.sFree)) ∧
    (∀ size ≤ 3 * 10 ^ 8, ∃ p heap, heapmgrMalloc fuel base size st.heap = .ok p heap) ∧
    ∀ a ∈ st.live, ∃ heap, heapmgrFree fuel a.ptr st.heap = .ok () heap := by
  obtain ⟨as, hreach, hmirrors, hin⟩ := mirrors_of_reach hfuel h
  exact ⟨⟨as, hreach, hmirrors.live, hmirrors.os, hin⟩, hmirrors.returns hfuel⟩

theorem heapmgrkr_refines_sample : ∃ (st : Session ℕ) (as : ArenaSession), Reach (arenaSys 1) [.malloc 16384] as ∧
    as.live = st.live ∧ InOrder 1 2 st as.arena.blocks ∧ as.arena.rover = st.heap.sFree ∧
    ∃ heap, heapmgrFree (2 ^ 33) 3 st.heap = .ok () heap := by
  obtain ⟨st₁, _, h₁, -, hlive₁, -⟩ := kr_sessions
  obtain ⟨⟨as, hreach, hlive, -, hin⟩, -, hfree⟩ := heapmgrkr_refines (Nat.le_refl _) h₁
  obtain ⟨hst, hrover⟩ := hin (List.cons_ne_nil _ _)
  exact ⟨st₁, as, hreach, hlive, hst, hrover, hfree ⟨3, 16384⟩ (by rw [hlive₁]; exact List.mem_singleton_self _)⟩

/-- **When the kernel is asked.**  Where some free block is large enough, `heapmgr_malloc` succeeds without the kernel,
wherever the search begins.  Else it asks once, and succeeds exactly if the kernel grants the memory. -/
theorem heapmgrkr_kernel (hfuel : 2 ^ 33 ≤ fuel) (h : Reach (krSys fuel base lo) tr st) (hle : size ≤ 3 * 10 ^ 8) :
    ∃ bs, ((Unused fuel base lo st ∧ bs = []) ∨ InOrder base lo st bs) ∧
    ∃ p heap, heapmgrMalloc fuel base size st.heap = .ok p heap ∧
      ((∃ b ∈ bs, b.used = false ∧ payloadUnits size + 1 ≤ b.span) → p ≠ null ∧ heap.os = st.heap.os) ∧
      (NoneFits bs (payloadUnits size + 1) → heap.os.calls = st.heap.os.calls + 1 ∧
        (p ≠ null ↔ st.heap.os.Grants (growUnits (payloadUnits size + 1)))) := by
  obtain ⟨as, -, hmirrors, -⟩ := mirrors_of_reach hfuel h
  rcases hmirrors.blocks with ⟨hunused, -⟩ | ⟨hst, -⟩
  · rw [malloc_started hunused size]
    exact ⟨[], Or.inl ⟨hunused, rfl⟩, (inOrder_started hunused).kernel hfuel hle⟩
  · exact ⟨_, Or.inr hst, hst.kernel hfuel hle⟩

/-- After the chunk is freed there is one block of 1025 units, for which 16384 bytes are just small enough; for one
byte more the kernel is asked. -/
theorem heapmgrkr_kernel_sample : ∃ st : Session ℕ, InOrder 1 2 st [⟨2, 1025, false⟩] ∧
    (∃ p heap, heapmgrMalloc (2 ^ 33) 1 16384 st.heap = .ok p heap ∧ p ≠ null ∧ heap.os = st.heap.os) ∧
    ∃ p heap, heapmgrMalloc (2 ^ 33) 1 16385 st.heap = .ok p heap ∧ heap.os.calls = st.heap.os.calls + 1 ∧
      (p ≠ null ↔ st.heap.os.Grants 1026) := by
  obtain ⟨_, st, -, h, -, hlive, -, hbrk⟩ := kr_sessions
  have hblocks {bs : List Block} (hbs : (Unused (2 ^ 33) 1 2 st ∧ bs = []) ∨ InOrder 1 2 st bs) :
      InOrder 1 2 st bs ∧ bs = [⟨2, 1025, false⟩] := by
    rcases hbs with ⟨hunused, -⟩ | hin
    · cases hunused.brk.symm.trans hbrk
    · have hsingle := single_of_no_used hin.wf.tiles hin.wf.coalesced (hin.no_used hlive)
      rw [hbrk] at hsingle
      exact ⟨hin, hsingle.resolve_left fun ⟨_, hends⟩ => by cases hends⟩
  obtain ⟨bs, hbs, p, heap, hcall, hserved, -⟩ :=
    heapmgrkr_kernel (Nat.le_refl _) h (show 16384 ≤ 3 * 10 ^ 8 by decide)
  obtain ⟨bs', hbs', p', heap', hcall', -, hasked⟩ :=
    heapmgrkr_kernel (Nat.le_refl _) h (show 16385 ≤ 3 * 10 ^ 8 by decide)
  obtain ⟨hin, rfl⟩ := hblocks hbs
  obtain ⟨-, rfl⟩ := hblocks hbs'
  have hnone : NoneFits [⟨2, 1025, false⟩] (payloadUnits 16385 + 1) := by
    intro b hb _
    rw [List.mem_singleton.mp hb]
    decide
  exact ⟨st, hin, ⟨p, heap, hcall, hserved ⟨_, List.mem_singleton_self _, rfl, by decide⟩⟩,
    p', heap', hcall', hasked hnone⟩

/-- **Nothing is lost.**  When the client has freed everything, all memory that the kernel has granted is one free block
again, and serves any request that fits from its upper end, without asking the kernel. -/
theorem heapmgrkr_all_freed (hfuel : 2 ^ 33 ≤ fuel) (h : Reach (krSys fuel base lo) tr st) (hne : tr ≠ [])
    (hlive : st.live = []) :
    InOrder base lo st [] ∧ st.heap.os.brk = lo ∨
    InOrder base lo st [⟨lo, st.heap.os.brk - lo, false⟩] ∧
      ∀ size ≤ 3 * 10 ^ 8, payloadUnits size + 1 ≤ st.heap.os.brk - lo →
        ∃ heap, heapmgrMalloc fuel base size st.heap = .ok (st.heap.os.brk - payloadUnits size) heap ∧
          heap.os = st.heap.os := by
  obtain ⟨as, -, -, hin⟩ := mirrors_of_reach hfuel h
  obtain ⟨hst, -⟩ := hin hne
  rcases single_of_no_used hst.wf.tiles hst.wf.coalesced (hst.no_used hlive) with ⟨hblocks, hends⟩ | hblocks
  · rw [hblocks] at hst
    exact Or.inl ⟨hst, hends.symm⟩
  rw [hblocks] at hst
  refine Or.inr ⟨hst, fun size hle hfit => ?_⟩
  have hmem : (⟨lo, st.heap.os.brk - lo, false⟩ : Block) ∈ [(⟨lo, st.heap.os.brk - lo, false⟩ : Block)] :=
    List.mem_singleton_self _
  have hsome (rover : ℕ) : nextFit base (payloadUnits size + 1) [⟨lo, st.heap.os.brk - lo, false⟩] rover ≠ none :=
    nextFit_ne_none hst.wf.toRinged hmem rfl hfit
  have hcall : wp (heapmgrMalloc fuel base size) (fun p heap => p = st.heap.os.brk - payloadUnits size ∧
      heap.os = st.heap.os) st.heap := by
    refine wp_heapmgrMalloc hst.wf hst.room hfuel hle (fun s' xs c ys hbs hc _ hnext hk hrover hwf => ?_)
      (fun hnone _ => absurd hnone (hsome _)) fun hnone => absurd hnone (hsome _)
    have hc : c = ⟨lo, st.heap.os.brk - lo, false⟩ := List.mem_singleton.mp (by rw [hbs]; simp)
    refine ⟨?_, hk.os⟩
    rw [hc]
    show lo + (st.heap.os.brk - lo - (payloadUnits size + 1)) + 1 = _
    omega
  obtain ⟨_, heap, hok, rfl, hos⟩ := hcall
  exact ⟨heap, hok, hos⟩

theorem heapmgrkr_all_freed_sample : ∃ st : Session ℕ, InOrder 1 2 st [⟨2, 1025, false⟩] ∧
    ∃ heap, heapmgrMalloc (2 ^ 33) 1 16 st.heap = .ok 1026 heap ∧ heap.os = st.heap.os := by
  obtain ⟨_, st₂, -, h₂, -, hlive, -, hbrk⟩ := kr_sessions
  have hfreed := heapmgrkr_all_freed (Nat.le_refl _) h₂ (List.cons_ne_nil _ _) hlive
  rw [hbrk] at hfreed
  obtain ⟨hin, hserved⟩ := hfreed.resolve_left fun ⟨_, hends⟩ => by cases hends
  exact ⟨st₂, hin, hserved 16 (by decide) (by decide)⟩

/-- **The K&R manager and the reference manager lay out the same blocks.**  Where the two heaps have the same ends and
the two clients the same live allocations, the headers of both show the same blocks, whatever the calls were. -/
theorem heapmgrkr_layout {cfg : Cfg} {tr' : List Call} (hfuel : 2 ^ 33 ≤ fuel) (hcfg : 2 ^ 31 ≤ cfg.fuel)
    (h : Reach (krSys fuel base lo) tr st) (h' : Reach (clientSys (Base.manager cfg)) tr' st') (hne : tr ≠ [])
    (hne' : tr' ≠ []) (hlo : st'.heap.sHeapLo = lo) (hhi : st'.heap.sHeapHi = st.heap.os.brk)
    (hlive : st.live.Perm st'.live) :
    ∃ bs, InOrder base lo st bs ∧ Base.InOrder st' bs ∧
      ∀ b ∈ bs, (st.heap.mem b.addr).span = b.span ∧ (st'.heap.mem b.addr).span = b.span := by
  obtain ⟨as, -, -, hin⟩ := mirrors_of_reach hfuel h
  obtain ⟨as', -, -, hin'⟩ := Base.mirrors_of_reach hcfg h'
  obtain ⟨hst, -⟩ := hin hne
  have hst' := hin' hne'
  have ht' := hst'.wf.tiles
  rw [hlo, hhi] at ht'
  have hused := hst.toOwned.used_unique hst'.toOwned hlive hst.wf.tiles ht'
  rw [← hst.wf.coalesced.unique hst'.wf.coalesced hst.wf.tiles ht' hused] at hst'
  exact ⟨_, hst, hst', fun b hb => ⟨hst.wf.span b hb, hst'.wf.span b hb⟩⟩

theorem heapmgrkr_layout_sample : ∃ (st st' : Session ℕ) (bs : List Block), st.live = [⟨3, 16384⟩] ∧
    InOrder 1 2 st bs ∧ Base.InOrder st' bs := by
  obtain ⟨st, _, h, -, hlive, -, hbrk, -⟩ := kr_sessions
  obtain ⟨st', _, h', -, hlive', -, hlo, hbrk', -⟩ := sample_sessions (S := clientSys (Base.manager ⟨true, 2 ^ 31⟩)) rfl
    (freshSession_fresh _) sample_value_base
  obtain ⟨_, -, -, hin⟩ := Base.mirrors_of_reach (Nat.le_refl _) h'
  have hhi : st'.heap.sHeapHi = st.heap.os.brk :=
    (hin (List.cons_ne_nil _ _)).os.brk.symm.trans (hbrk'.trans hbrk.symm)
  obtain ⟨bs, hst, hst', -⟩ := heapmgrkr_layout (Nat.le_refl _) (Nat.le_refl _) h h' (List.cons_ne_nil _ _)
    (List.cons_ne_nil _ _) hlo hhi (by rw [hlive, hlive'])
  exact ⟨st, st', bs, hlive, hst, hst'⟩

end SystemProgramming.HeapMgr.Kr
