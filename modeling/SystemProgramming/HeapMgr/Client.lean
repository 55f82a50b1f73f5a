import SystemProgramming.HeapMgr.Units
import SystemProgramming.HeapMgr.FreeLists
import SystemProgramming.Lib.Runs

/-!
# Correct clients of a heap manager

A session is a heap together with what the client knows about it: its live allocations and what it
last wrote to their payloads.  A correct client asks for between one and `3 * 10^8` bytes, frees what
it was given and has not freed yet, and writes to the payloads of its live allocations only.  What
the two managers share is proved here once, for any manager that serves calls as `Serves` says:
every session stays sound (`Sound`), and no call touches a live payload.

* `step_sound`, `reach_sound`: a session whose calls are safe stays sound.
* `malloc_returns`: when `heapmgr_malloc` returns.
-/

namespace SystemProgramming.HeapMgr

open Exec

/-- The two entry points of a heap manager, and its free lists before the first call. -/
structure Manager (F : Type) where
  malloc : ℕ → Exec (Heap F) ℕ
  free : ℕ → Exec (Heap F) Unit
  noFree : F

/-- A live allocation: the pointer that was returned and the size that was asked for. -/
structure Alloc where
  ptr : ℕ
  size : ℕ
  deriving DecidableEq

/-- The unit `u` belongs to the payload of `a`. -/
def Alloc.Covers (a : Alloc) (u : ℕ) : Prop := a.ptr ≤ u ∧ u < a.ptr + payloadUnits a.size

instance (a : Alloc) (u : ℕ) : Decidable (a.Covers u) := by
  unfold Alloc.Covers
  infer_instance

/-- The units of the live payloads. -/
def payloads (live : List Alloc) : Set ℕ := { u | ∃ a ∈ live, a.Covers u }

/-- A heap, the client's live allocations, and what the client last wrote to each payload unit since
it got it. -/
structure Session (F : Type) where
  heap : Heap F
  live : List Alloc
  written : ℕ → Option Cell

/-- What a client does. -/
inductive Call where
  | malloc (size : ℕ)
  | free (a : Alloc)
  | write (u : ℕ) (v : Cell)

variable {F : Type}

/-- The session after `heapmgr_malloc(size)` has returned `p`. -/
def Session.afterMalloc (st : Session F) (size p : ℕ) (heap : Heap F) : Session F :=
  if p = null then { st with heap := heap }
  else
    { heap := heap
      live := ⟨p, size⟩ :: st.live
      written := fun u => if Alloc.Covers ⟨p, size⟩ u then none else st.written u }

theorem Session.afterMalloc_heap {st : Session F} {size p : ℕ} {heap : Heap F} :
    (st.afterMalloc size p heap).heap = heap := by
  unfold Session.afterMalloc
  split <;> rfl

/-- A client takes a step: it asks for at most `most` bytes, frees what it was given, or writes to what it
has. -/
inductive Session.Step (most : ℕ) (mgr : Manager F) : Session F → Call → Session F → Prop where
  | malloc {st : Session F} {size p : ℕ} {heap : Heap F} (hpos : 1 ≤ size)
      (hle : size ≤ most) (hcall : mgr.malloc size st.heap = .ok p heap) :
      Step most mgr st (.malloc size) (st.afterMalloc size p heap)
  | free {st : Session F} {a : Alloc} {heap : Heap F} (ha : a ∈ st.live)
      (hcall : mgr.free a.ptr st.heap = .ok () heap) :
      Step most mgr st (.free a) { st with heap := heap, live := st.live.erase a }
  | write {st : Session F} {a : Alloc} {u : ℕ} {v : Cell} (ha : a ∈ st.live) (hu : a.Covers u) :
      Step most mgr st (.write u v)
        { st with heap := { st.heap with mem := Function.update st.heap.mem u v }
                  written := Function.update st.written u (some v) }

/-- A call of `heapmgr_malloc` that succeeds. -/
theorem Session.Step.granted {most : ℕ} {mgr : Manager F} {st : Session F} {size p : ℕ} {heap : Heap F}
    (hpos : 1 ≤ size) (hle : size ≤ most) (hp : p ≠ null) (hcall : mgr.malloc size st.heap = .ok p heap) :
    Session.Step most mgr st (.malloc size)
      ⟨heap, ⟨p, size⟩ :: st.live, fun u => if Alloc.Covers ⟨p, size⟩ u then none else st.written u⟩ := by
  have hstep := Session.Step.malloc hpos hle hcall
  rwa [Session.afterMalloc, if_neg hp] at hstep

/-- Before the first call, with a kernel that starts as `Init` says. -/
structure Session.Starts (Init : Os → Prop) (mgr : Manager F) (st : Session F) : Prop where
  booted : st.heap.sHeapBooted = false
  lo : st.heap.sHeapLo = null
  hi : st.heap.sHeapHi = null
  lists : st.heap.sFree = mgr.noFree
  os : OsStart st.heap.os
  init : Init st.heap.os
  live : st.live = []

/-- Before the first call: nothing is booted, and the break leaves room below the limit. -/
structure Session.Fresh (mgr : Manager F) (st : Session F) : Prop where
  booted : st.heap.sHeapBooted = false
  lo : st.heap.sHeapLo = null
  hi : st.heap.sHeapHi = null
  lists : st.heap.sFree = mgr.noFree
  os : OsFresh st.heap.os
  live : st.live = []

theorem Session.fresh_iff {mgr : Manager F} {st : Session F} :
    st.Fresh mgr ↔ st.Starts OsFresh mgr :=
  ⟨fun h => ⟨h.booted, h.lo, h.hi, h.lists, h.os.start, h.os, h.live⟩,
    fun h => ⟨h.booted, h.lo, h.hi, h.lists, h.init, h.live⟩⟩

/-- Every legal call returns, except that the first one exits when the kernel cannot tell the break. -/
def CallsReturn (mgr : Manager F) (st : Session F) : Prop :=
  (∀ size, 1 ≤ size → size ≤ 3 * 10 ^ 8 →
    (∃ p heap, mgr.malloc size st.heap = .ok p heap) ∨
      (st.Fresh mgr ∧ st.heap.os.ready = false ∧ mgr.malloc size st.heap = .exit (-1))) ∧
  ∀ a ∈ st.live, ∃ heap, mgr.free a.ptr st.heap = .ok () heap

/-- A session that has not begun: a break at unit one, and a kernel that grants everything. -/
def firstSession (mgr : Manager F) : Session F where
  heap :=
    { mem := fun _ => ⟨0, 0, null⟩
      sFree := mgr.noFree
      sHeapLo := null
      sHeapHi := null
      sHeapBooted := false
      os := { brk := 1, limit := 2 ^ 31, ready := true, answer := fun _ => true, calls := 0 } }
  live := []
  written := fun _ => none

theorem firstSession_fresh (mgr : Manager F) : (firstSession mgr).Fresh mgr where
  booted := rfl
  lo := rfl
  hi := rfl
  lists := rfl
  os :=
    { brk_pos := Nat.one_pos
      le_limit := show 1 ≤ 2 ^ 31 by decide
      limit_small := show 2 ^ 31 < 1 + 2 ^ 31 by decide
      limit_lt := show 2 ^ 31 < 2 ^ 60 - 1 by decide }
  live := rfl

/-- The sessions of a correct client. -/
def clientSys (mgr : Manager F) : Sys (Session F) Call where
  init := Session.Fresh mgr
  step := Session.Step (3 * 10 ^ 8) mgr

/-- The sessions of a client that may ask for any size, on any kernel. -/
def wideSys (mgr : Manager F) : Sys (Session F) Call where
  init := Session.Starts (fun _ => True) mgr
  step := Session.Step (2 ^ 64 - 1) mgr

/-- The heap that `heapmgr_malloc` searches. -/
def afterBoot (s : Heap F) : Heap F := if s.sHeapBooted = true then s else bootHeap s

theorem afterBoot_booted {s : Heap F} (h : s.sHeapBooted = true) : afterBoot s = s := if_pos h

theorem afterBoot_fresh {s : Heap F} (h : s.sHeapBooted = false) : afterBoot s = bootHeap s :=
  if_neg (by simp [h])

theorem heapBootstrap_eq {s : Heap F} (h : OsOk (afterBoot s)) :
    heapBootstrap s = .ok () (afterBoot s) := by
  cases hboot : s.sHeapBooted with
  | true =>
    rw [afterBoot_booted hboot]
    exact heapBootstrap_booted hboot
  | false =>
    rw [afterBoot_fresh hboot] at h ⊢
    have hready : s.os.ready = true := h.ready
    have hle : s.os.brk ≤ s.os.limit := h.le_limit
    have hlt : s.os.limit < 2 ^ 60 - 1 := h.limit_lt
    refine heapBootstrap_ready hboot hready ?_
    unfold sbrkFailed
    omega

/-! ### What a manager has to do for its clients -/

/-- `mgr` serves its clients on heaps that satisfy `WF`, from a kernel that satisfies `Init`, as long
as the allocations are `Safe` and the releases `SafeFree`: the calls return, keep `WF` and the units
in `keep`, and change the used blocks as they should. -/
structure Serves (mgr : Manager F) (WF : Set ℕ → Mem → Heap F → Table → Prop) (Init : Os → Prop)
    (Safe SafeFree : Heap F → ℕ → Prop) : Prop where
  rep : ∀ {keep m₀ s T}, WF keep m₀ s T → Rep keep m₀ s.mem s.sHeapLo s.sHeapHi T
  reframe : ∀ {keep m₀ s T keep' m₀' m'}, WF keep m₀ s T →
    Rep keep' m₀' m' s.sHeapLo s.sHeapHi T → WF keep' m₀' { s with mem := m' } T
  boot : ∀ {s size}, s.sHeapBooted = false → s.sFree = mgr.noFree → OsStart s.os → Init s.os →
    s.os.ready = true → 0 < size →
    mgr.malloc size s = mgr.malloc size (bootHeap s) ∧
      ∃ T, T.blocks = [] ∧ WF ∅ s.mem (bootHeap s) T
  refuse : ∀ {s size}, s.sHeapBooted = false → s.os.ready = false → 0 < size →
    mgr.malloc size s = .exit (-1)
  malloc : ∀ {keep m₀ s T size} {Q : ℕ → Heap F → Prop}, WF keep m₀ s T → OsOk s →
    s.sHeapBooted = true → 1 ≤ size → Safe s size →
    (∀ s', OsOk s' → s'.sHeapBooted = true → WF keep m₀ s' T → Q null s') →
    (∀ s' T' c us vs, OsOk s' → s'.sHeapBooted = true → WF keep m₀ s' T' →
      usedBlocks T.blocks = us ++ vs → usedBlocks T'.blocks = us ++ c :: vs →
      blockUnits size ≤ c.span → Q (c.addr + 1) s') →
    wp (mgr.malloc size) Q s
  free : ∀ {keep m₀ s T b} {Q : Unit → Heap F → Prop}, WF keep m₀ s T → OsOk s → b ∈ T.blocks →
    b.used = true → SafeFree s (b.addr + 1) → (∀ v ∈ keep, v < b.addr ∨ b.foot < v) →
    (∀ s' T' us vs, Keeps s s' → WF keep m₀ s' T' → usedBlocks T.blocks = us ++ b :: vs →
      usedBlocks T'.blocks = us ++ vs → Q () s') →
    wp (mgr.free (b.addr + 1)) Q s

/-- A heap that has just been booted has no blocks. -/
theorem rep_bootHeap {s : Heap F} (hos : OsStart s.os) :
    Rep ∅ s.mem (bootHeap s).mem (bootHeap s).sHeapLo (bootHeap s).sHeapHi
      ⟨[], fun _ => null, fun _ => null⟩ where
  lo_pos := hos.brk_pos
  hi_lt := by
    have h₁ := hos.le_limit
    have h₂ := hos.limit_lt
    show s.os.brk < 2 ^ 60
    omega
  tiles := rfl
  two_le b hb := absurd hb List.not_mem_nil
  small b hb := absurd hb List.not_mem_nil
  header b hb := absurd hb List.not_mem_nil
  footSpan b hb := absurd hb List.not_mem_nil
  footPrev b hb := absurd hb List.not_mem_nil
  kept u _ := rfl
  keep_used u hu := absurd hu (Set.notMem_empty u)

theorem managed_boot {ι : Type} {heads : ι → ℕ} {cls : ℕ → ι} (hheads : ∀ i, heads i = null) :
    Managed heads cls ⟨[], fun _ => null, fun _ => null⟩ ∅ fun _ => [] where
  head := hheads
  links i := trivial
  nodup i := List.nodup_nil
  mem i a := by simp
  idle b hb := absurd hb List.not_mem_nil

/-- In a booted session only `Safe` sizes are asked for. -/
def SafeStep (Safe : Heap F → ℕ → Prop) (st : Session F) (c : Call) (_ : Session F) : Prop :=
  match c with
  | .malloc size => st.heap.sHeapBooted = true → Safe st.heap size
  | .free _ => True
  | .write _ _ => True

/-- The call is safe, whether it is the first one or not. -/
def SafeCall (Safe SafeFree : Heap F → ℕ → Prop) (st : Session F) (c : Call) (_ : Session F) : Prop :=
  match c with
  | .malloc size => Safe (afterBoot st.heap) size
  | .free a => SafeFree st.heap a.ptr
  | .write _ _ => True

/-- A booted session in order: the heap shows `T`, its used blocks are exactly the live allocations,
each large enough, and every live payload reads back what was written to it. -/
structure Sound (WF : Set ℕ → Mem → Heap F → Table → Prop) (st : Session F) (T : Table) :
    Prop where
  wf : WF ∅ st.heap.mem st.heap T
  os : OsOk st.heap
  booted : st.heap.sHeapBooted = true
  live : (st.live.map Alloc.ptr).Perm ((usedBlocks T.blocks).map fun b => b.addr + 1)
  fits : ∀ a ∈ st.live, ∀ b ∈ usedBlocks T.blocks, b.addr + 1 = a.ptr → blockUnits a.size ≤ b.span
  reads : ∀ a ∈ st.live, ∀ u, a.Covers u → ∀ v, st.written u = some v → st.heap.mem u = v

/-! ### A heap in order, as the memory shows it -/

/-- The backward link of the block at `p`, in the footer that its header points to. -/
def prevLink (m : Mem) (p : ℕ) : ℕ := (m (p + (m p).span.toNat - 1)).prev

/-- The heap of a session in terms of its memory: the blocks `bs` tile it and carry matching tags, no
two neighbours are free, the lists `bl` are doubly linked from the heads and hold each free block
exactly once, in the list of its class, and the used blocks are the live allocations. -/
structure HeapOk {ι : Type} [DecidableEq ι] (heads : ι → ℕ) (cls : ℕ → ι) (st : Session F)
    (bs : List Block) (bl : ι → List ℕ) : Prop where
  tiles : Tiles Block.addr Block.span st.heap.sHeapLo st.heap.sHeapHi bs
  two_le : ∀ b ∈ bs, 2 ≤ b.span
  status : ∀ b ∈ bs, (st.heap.mem b.addr).status = statusOf b.used
  span : ∀ b ∈ bs, (st.heap.mem b.addr).span = b.span
  footSpan : ∀ b ∈ bs, (st.heap.mem b.foot).footSpan = b.span
  coalesced : Coalesced bs
  once : ∀ b ∈ bs, b.used = false → ∀ i, (bl i).count b.addr = if i = cls b.span then 1 else 0
  onlyFree : ∀ i, ∀ a ∈ bl i, ∃ b ∈ bs, b.addr = a ∧ b.used = false
  head : ∀ i, heads i = (bl i).headD null
  links : ∀ i, Links (fun p => (st.heap.mem p).next) (prevLink st.heap.mem) null (bl i) null
  live : (st.live.map Alloc.ptr).Perm ((usedBlocks bs).map fun b => b.addr + 1)
  fits : ∀ a ∈ st.live, ∀ b ∈ usedBlocks bs, b.addr + 1 = a.ptr → blockUnits a.size ≤ b.span
  disjoint : ∀ a ∈ st.live, ∀ a' ∈ st.live, ∀ u, a.Covers u → a'.Covers u → a = a'

/-- A representation may be read with other kept units, as long as they are payload. -/
theorem Rep.rekeep {keep keep' : Set ℕ} {m₀ m : Mem} {lo hi : ℕ} {T : Table}
    (h : Rep keep m₀ m lo hi T)
    (hkeep : ∀ u ∈ keep', ∃ b ∈ T.blocks, b.used = true ∧ b.addr < u ∧ u < b.foot) :
    Rep keep' m m lo hi T :=
  { h with kept := fun _ _ => rfl, keep_used := hkeep }

/-- A write to a unit strictly inside a block does not show in the table. -/
theorem Rep.write {keep : Set ℕ} {m₀ m : Mem} {lo hi : ℕ} {T : Table} {b : Block} {u : ℕ}
    (h : Rep keep m₀ m lo hi T) (hb : b ∈ T.blocks) (h₁ : b.addr < u) (h₂ : u < b.foot) (v : Cell) :
    Rep ∅ (Function.update m u v) (Function.update m u v) lo hi T where
  lo_pos := h.lo_pos
  hi_lt := h.hi_lt
  small := h.small
  tiles := h.tiles
  two_le := h.two_le
  header c hc := by
    rw [Function.update_of_ne (h.inner_ne hb h₁ h₂ hc).1.symm]
    exact h.header c hc
  footSpan c hc := by
    rw [Function.update_of_ne (h.inner_ne hb h₁ h₂ hc).2.symm]
    exact h.footSpan c hc
  footPrev c hc := by
    rw [Function.update_of_ne (h.inner_ne hb h₁ h₂ hc).2.symm]
    exact h.footPrev c hc
  kept u hu := absurd hu (Set.notMem_empty u)
  keep_used u hu := absurd hu (Set.notMem_empty u)

section Soundness

variable {mgr : Manager F} {WF : Set ℕ → Mem → Heap F → Table → Prop} {Init : Os → Prop}
  {Safe SafeFree : Heap F → ℕ → Prop} {st : Session F} {T : Table} {a : Alloc} {u : ℕ}

namespace Sound

/-- The block behind a live allocation; its payload lies strictly between the tags. -/
theorem block (h : Sound WF st T) (ha : a ∈ st.live) :
    ∃ b ∈ T.blocks, b.used = true ∧ b.addr + 1 = a.ptr ∧
      ∀ u, a.Covers u → b.addr < u ∧ u < b.foot := by
  have hmem : a.ptr ∈ (usedBlocks T.blocks).map fun b => b.addr + 1 :=
    h.live.mem_iff.mp (List.mem_map_of_mem ha)
  obtain ⟨b, hb, hba⟩ := List.mem_map.mp hmem
  obtain ⟨hbT, hused⟩ := mem_usedBlocks.mp hb
  refine ⟨b, hbT, hused, hba, fun u hu => ?_⟩
  have hfit := h.fits a ha b hb hba
  obtain ⟨h₁, h₂⟩ := hu
  unfold blockUnits at hfit
  unfold Block.foot
  omega

theorem payloads_inside (h : Sound WF st T) (hu : u ∈ payloads st.live) :
    ∃ b ∈ T.blocks, b.used = true ∧ b.addr < u ∧ u < b.foot := by
  obtain ⟨a, ha, hau⟩ := hu
  obtain ⟨b, hb, hused, -, hin⟩ := h.block ha
  exact ⟨b, hb, hused, hin u hau⟩

/-- The pointers of the live allocations are all different. -/
theorem nodup_ptrs (h : Sound WF st T) (hs : Serves mgr WF Init Safe SafeFree) :
    (st.live.map Alloc.ptr).Nodup := by
  have hstarts := (hs.rep h.wf).tiles.nodup_starts
  have hsub : List.Sublist ((usedBlocks T.blocks).map Block.addr) (T.blocks.map Block.addr) :=
    List.filter_sublist.map _
  have hsucc : ((usedBlocks T.blocks).map fun b => b.addr + 1)
      = ((usedBlocks T.blocks).map Block.addr).map (· + 1) := by
    rw [List.map_map]
    rfl
  rw [h.live.nodup_iff, hsucc]
  exact (hstarts.sublist hsub).map fun _ _ he => Nat.succ.inj he

/-- **Disjoint payloads.**  No unit belongs to two live payloads. -/
theorem disjoint (h : Sound WF st T) (hs : Serves mgr WF Init Safe SafeFree) {a' : Alloc}
    (ha : a ∈ st.live) (ha' : a' ∈ st.live) (hu : a.Covers u) (hu' : a'.Covers u) : a = a' := by
  obtain ⟨b, hb, -, hptr, hin⟩ := h.block ha
  obtain ⟨b', hb', -, hptr', hin'⟩ := h.block ha'
  have h₁ := hin u hu
  have h₂ := hin' u hu'
  have h₃ := (hs.rep h.wf).bounds hb
  have h₄ := (hs.rep h.wf).bounds hb'
  have heq : b = b' := (hs.rep h.wf).tiles.eq_of_mem hb hb' (u := u) (by omega) (by omega)
  exact List.inj_on_of_nodup_map (h.nodup_ptrs hs) ha ha' (by rw [← hptr, ← hptr', heq])

end Sound

namespace Serves

/-- The kept units may be chosen anew before each call. -/
theorem rekeep (hs : Serves mgr WF Init Safe SafeFree) {keep keep' : Set ℕ} {m₀ : Mem} {s : Heap F}
    (h : WF keep m₀ s T)
    (hkeep : ∀ u ∈ keep', ∃ b ∈ T.blocks, b.used = true ∧ b.addr < u ∧ u < b.foot) :
    WF keep' s.mem s T := hs.reframe h ((hs.rep h).rekeep hkeep)

theorem forget (hs : Serves mgr WF Init Safe SafeFree) {keep : Set ℕ} {m₀ : Mem} {s : Heap F}
    (h : WF keep m₀ s T) : WF ∅ s.mem s T :=
  hs.rekeep h fun u hu => absurd hu (Set.notMem_empty u)

/-- **One `heapmgr_malloc`**: the session stays sound, and no live payload is touched. -/
theorem malloc_sound (hs : Serves mgr WF Init Safe SafeFree) (h : Sound WF st T) {size : ℕ}
    (hpos : 1 ≤ size) (hsafe : Safe st.heap size) :
    wp (mgr.malloc size) (fun p heap => (∃ T', Sound WF (st.afterMalloc size p heap) T') ∧
      ∀ u ∈ payloads st.live, heap.mem u = st.heap.mem u) st.heap := by
  have hkeep : WF (payloads st.live) st.heap.mem st.heap T :=
    hs.rekeep h.wf fun u hu => h.payloads_inside hu
  refine hs.malloc hkeep h.os h.booted hpos hsafe (fun s' hos hboot hwf => ?_)
    fun s' T' c us vs hos hboot hwf hbefore hafter hspan => ?_
  · have hkept := (hs.rep hwf).kept
    refine ⟨⟨T, ?_⟩, hkept⟩
    rw [Session.afterMalloc, if_pos rfl]
    exact
      { wf := hs.forget hwf
        os := hos
        booted := hboot
        live := h.live
        fits := h.fits
        reads := fun a ha u hu v hv => by
          rw [hkept u ⟨a, ha, hu⟩]
          exact h.reads a ha u hu v hv }
  · have hkept := (hs.rep hwf).kept
    have hcT : c ∈ T'.blocks := (mem_usedBlocks.mp (by rw [hafter]; simp)).1
    -- a used block is the new one or was used before
    have hcases : ∀ b ∈ usedBlocks T'.blocks, b = c ∨ b ∈ usedBlocks T.blocks := by
      intro b hb
      rw [hafter] at hb
      rw [hbefore]
      simp only [List.mem_append, List.mem_cons] at hb ⊢
      tauto
    refine ⟨⟨T', ?_⟩, hkept⟩
    rw [Session.afterMalloc, if_neg (show c.addr + 1 ≠ null from Nat.succ_ne_zero _)]
    refine
      { wf := hs.forget hwf
        os := hos
        booted := hboot
        live := ?_
        fits := fun a ha b hb hba => ?_
        reads := fun a ha u hu v hv => ?_ }
    · have hperm := h.live
      rw [hbefore, List.map_append] at hperm
      rw [hafter, List.map_append, List.map_cons]
      exact (hperm.cons _).trans List.perm_middle.symm
    · rcases List.mem_cons.mp ha with rfl | hold
      · have hbT := (mem_usedBlocks.mp hb).1
        rw [(hs.rep hwf).eq_of_addr hbT hcT (Nat.succ.inj hba)]
        exact hspan
      · rcases hcases b hb with rfl | hb
        · obtain ⟨b₀, hb₀, hused₀, hptr₀, -⟩ := h.block hold
          have hu₀ : b₀ ∈ usedBlocks T.blocks := mem_usedBlocks.mpr ⟨hb₀, hused₀⟩
          have hu₀' : b₀ ∈ usedBlocks T'.blocks := by
            rw [hbefore] at hu₀
            rw [hafter]
            simp only [List.mem_append, List.mem_cons] at hu₀ ⊢
            tauto
          have haddr : b₀.addr = b.addr := Nat.succ.inj (hptr₀.trans hba.symm)
          have heq : b₀ = b := (hs.rep hwf).eq_of_addr (mem_usedBlocks.mp hu₀').1 hcT haddr
          rw [← heq]
          exact h.fits a hold b₀ hu₀ hptr₀
        · exact h.fits a hold b hb hba
    · have hnot : ¬ Alloc.Covers ⟨c.addr + 1, size⟩ u := fun hc => by simp [hc] at hv
      simp only [if_neg hnot] at hv
      rcases List.mem_cons.mp ha with rfl | hold
      · exact absurd hu hnot
      · show s'.mem u = v
        rw [hkept u ⟨a, hold, hu⟩]
        exact h.reads a hold u hu v hv

/-- **One `heapmgr_free`**: the session stays sound, and no other live payload is touched. -/
theorem free_sound (hs : Serves mgr WF Init Safe SafeFree) (h : Sound WF st T) (ha : a ∈ st.live)
    (hsafe : SafeFree st.heap a.ptr) :
    wp (mgr.free a.ptr) (fun _ heap =>
      (∃ T', Sound WF { st with heap := heap, live := st.live.erase a } T') ∧
      ∀ u ∈ payloads (st.live.erase a), heap.mem u = st.heap.mem u) st.heap := by
  obtain ⟨b, hb, hused, hptr, -⟩ := h.block ha
  have hr := hs.rep h.wf
  have hsub : ∀ a' ∈ st.live.erase a, a' ∈ st.live := fun a' ha' => List.mem_of_mem_erase ha'
  have hnd := h.nodup_ptrs hs
  have hother : ∀ a' ∈ st.live.erase a, a'.ptr ≠ a.ptr := by
    intro a' ha' heq
    have haa : a' = a := List.inj_on_of_nodup_map hnd (hsub a' ha') ha heq
    have hndl : st.live.Nodup := hnd.of_map _
    rw [haa] at ha'
    exact (hndl.not_mem_erase) ha'
  have hkeep : WF (payloads (st.live.erase a)) st.heap.mem st.heap T :=
    hs.rekeep h.wf fun u ⟨a', ha', hu⟩ => h.payloads_inside ⟨a', hsub a' ha', hu⟩
  have hapart : ∀ v ∈ payloads (st.live.erase a), v < b.addr ∨ b.foot < v := by
    intro v ⟨a', ha', hv⟩
    obtain ⟨b', hb', -, hptr', hin⟩ := h.block (hsub a' ha')
    have hne : b' ≠ b := fun he => hother a' ha' (by rw [← hptr', ← hptr, he])
    have h₁ := hin v hv
    have h₂ := hr.bounds hb
    have h₃ := hr.bounds hb'
    rcases hr.tiles.apart hb' hb with he | hlt | hgt
    · exact absurd he hne
    · exact Or.inl (by omega)
    · exact Or.inr (by omega)
  rw [← hptr] at hsafe ⊢
  refine hs.free hkeep h.os hb hused hsafe hapart fun s' T' us vs hk hwf hbefore hafter => ?_
  have hkept := (hs.rep hwf).kept
  refine ⟨⟨T', ?_⟩, hkept⟩
  refine
    { wf := hs.forget hwf
      os := h.os.keeps hk
      booted := hk.booted.trans h.booted
      live := ?_
      fits := fun a' ha' b' hb' hba => ?_
      reads := fun a' ha' u hu v hv => ?_ }
  · have hperm := h.live
    rw [hbefore, List.map_append, List.map_cons] at hperm
    have h₁ : (a.ptr :: (st.live.erase a).map Alloc.ptr).Perm (st.live.map Alloc.ptr) :=
      ((List.perm_cons_erase ha).map Alloc.ptr).symm
    have h₂ := h₁.trans (hperm.trans List.perm_middle)
    rw [hptr] at h₂
    rw [hafter, List.map_append]
    exact h₂.cons_inv
  · refine h.fits a' (hsub a' ha') b' ?_ hba
    rw [hafter] at hb'
    rw [hbefore]
    simp only [List.mem_append, List.mem_cons] at hb' ⊢
    tauto
  · show s'.mem u = v
    rw [hkept u ⟨a', ha', hu⟩]
    exact h.reads a' (hsub a' ha') u hu v hv

/-- **One write by the client**: the heap still shows the same table. -/
theorem write_sound (hs : Serves mgr WF Init Safe SafeFree) (h : Sound WF st T) (ha : a ∈ st.live)
    (hu : a.Covers u) (v : Cell) :
    Sound WF { st with heap := { st.heap with mem := Function.update st.heap.mem u v }
                       written := Function.update st.written u (some v) } T := by
  obtain ⟨b, hb, hused, hptr, hin⟩ := h.block ha
  have hr := hs.rep h.wf
  refine
    { wf := hs.reframe h.wf (hr.write hb (hin u hu).1 (hin u hu).2 v)
      os := ⟨h.os.brk, h.os.ready, h.os.le_limit, h.os.limit_lt⟩
      booted := h.booted
      live := h.live
      fits := h.fits
      reads := fun a' ha' w hw c hc => ?_ }
  by_cases hwu : w = u
  · subst hwu
    have hc' : Function.update st.written w (some v) w = some c := hc
    show Function.update st.heap.mem w v w = c
    rw [Function.update_self] at hc' ⊢
    exact Option.some.inj hc'
  · have hc' : st.written w = some c := (Function.update_of_ne hwu _ _).symm.trans hc
    show Function.update st.heap.mem u v w = c
    rw [Function.update_of_ne hwu]
    exact h.reads a' ha' w hw c hc'

/-- A sound session whose lists hold the free blocks has its heap in order. -/
theorem heapOk (hs : Serves mgr WF Init Safe SafeFree) (h : Sound WF st T) {ι : Type} [DecidableEq ι]
    {heads : ι → ℕ} {cls : ℕ → ι} {bl : ι → List ℕ} (hl : Listed heads cls T ∅ bl)
    (hc : Coalesced T.blocks) : HeapOk heads cls st T.blocks bl := by
  have hr := hs.rep h.wf
  refine
    { tiles := hr.tiles
      two_le := hr.two_le
      status := fun b hb => (hr.tagged hb).status
      span := fun b hb => (hr.tagged hb).span
      footSpan := hr.footSpan
      coalesced := hc
      once := fun b hb hfree i => ?_
      onlyFree := fun i a ha => hl.freeAt ha
      head := hl.head
      links := fun i => (hl.links i).congr (fun a ha => ?_) (fun a ha => ?_)
      live := h.live
      fits := h.fits
      disjoint := fun a ha a' ha' u hu hu' => h.disjoint hs ha ha' hu hu' }
  · have hmem : b.addr ∈ bl (cls b.span) :=
      (hl.mem _ _).mpr ⟨Set.notMem_empty _, b, hb, rfl, hfree, rfl⟩
    split
    · rename_i hi
      rw [hi]
      exact List.count_eq_one_of_mem (hl.nodup _) hmem
    · rename_i hi
      exact List.count_eq_zero_of_not_mem fun hm => hi (hl.class_unique hr hm hmem)
  · obtain ⟨b, hb, rfl, -⟩ := hl.block ha
    rw [hr.header b hb]
  · obtain ⟨b, hb, rfl, -⟩ := hl.block ha
    unfold prevLink
    rw [hr.header b hb]
    exact hr.footPrev b hb

/-! ### Runs -/

/-- A bootstrapped heap with no blocks is a sound session. -/
theorem boot_sound (hs : Serves mgr WF Init Safe SafeFree) (h : st.Starts Init mgr) {size : ℕ}
    (hpos : 0 < size) (hready : st.heap.os.ready = true) :
    ∃ T, Sound WF { st with heap := bootHeap st.heap } T := by
  obtain ⟨-, T, hT, hwf⟩ := hs.boot h.booted h.lists h.os h.init hready hpos
  have hlive : st.live = [] := h.live
  refine ⟨T, ?_⟩
  exact
    { wf := hwf
      os := osOk_bootHeap h.os hready
      booted := rfl
      live := by
        show (st.live.map Alloc.ptr).Perm _
        rw [hlive, hT]
        exact List.Perm.refl _
      fits := fun a ha => by
        have hmem : a ∈ st.live := ha
        rw [hlive] at hmem
        cases hmem
      reads := fun a ha => by
        have hmem : a ∈ st.live := ha
        rw [hlive] at hmem
        cases hmem }

/-- A call of `heapmgr_malloc` in a session that is about to start or sound exits, or it runs as on
the heap after the bootstrap, which is well formed. -/
theorem prepared (hs : Serves mgr WF Init Safe SafeFree)
    (h : st.Starts Init mgr ∨ ∃ T, Sound WF st T) {size : ℕ} (hpos : 0 < size) :
    (st.heap.os.ready = false ∧ st.Starts Init mgr ∧ mgr.malloc size st.heap = .exit (-1)) ∨
      ∃ T, Sound WF { st with heap := afterBoot st.heap } T ∧
        mgr.malloc size st.heap = mgr.malloc size (afterBoot st.heap) := by
  rcases h with hfresh | ⟨T, h⟩
  · cases hready : st.heap.os.ready with
    | false => exact Or.inl ⟨rfl, hfresh, hs.refuse hfresh.booted hready hpos⟩
    | true =>
      obtain ⟨heq, -⟩ := hs.boot hfresh.booted hfresh.lists hfresh.os hfresh.init hready hpos
      rw [afterBoot_fresh hfresh.booted]
      obtain ⟨T, h⟩ := hs.boot_sound hfresh hpos hready
      exact Or.inr ⟨T, h, heq⟩
  · rw [afterBoot_booted h.booted]
    exact Or.inr ⟨T, h, rfl⟩

/-- **One call** of a session that is about to start or sound leaves it sound, and does not touch the
live payloads that stay. -/
theorem step_sound {most : ℕ} (hs : Serves mgr WF Init Safe SafeFree)
    (h : st.Starts Init mgr ∨ ∃ T, Sound WF st T) {c : Call} {st' : Session F}
    (hstep : Session.Step most mgr st c st') (hsafe : SafeCall Safe SafeFree st c st') :
    (∃ T, Sound WF st' T) ∧ ((∀ u v, c ≠ .write u v) → ∀ a ∈ st.live, a ∈ st'.live →
      ∀ u, a.Covers u → st'.heap.mem u = st.heap.mem u) := by
  cases hstep with
  | malloc hpos hlt hcall =>
    rename_i size p heap
    have hsafe' : Safe (afterBoot st.heap) size := hsafe
    rcases h with hfresh | ⟨T, h⟩
    · cases hready : st.heap.os.ready with
      | false =>
        rw [hs.refuse hfresh.booted hready hpos] at hcall
        cases hcall
      | true =>
        obtain ⟨T, h⟩ := hs.boot_sound hfresh hpos hready
        obtain ⟨heq, -⟩ := hs.boot hfresh.booted hfresh.lists hfresh.os hfresh.init hready hpos
        rw [heq] at hcall
        rw [afterBoot_fresh hfresh.booted] at hsafe'
        obtain ⟨⟨T', hT'⟩, -⟩ := (wp_iff_of_ok hcall).mp (hs.malloc_sound h hpos hsafe')
        refine ⟨⟨T', hT'⟩, fun _ a ha => ?_⟩
        rw [hfresh.live] at ha
        cases ha
    · rw [afterBoot_booted h.booted] at hsafe'
      obtain ⟨hsound, hframe⟩ := (wp_iff_of_ok hcall).mp (hs.malloc_sound h hpos hsafe')
      refine ⟨hsound, fun _ a ha _ u hu => ?_⟩
      rw [Session.afterMalloc_heap]
      exact hframe u ⟨a, ha, hu⟩
  | free ha hcall =>
    rename_i a heap
    rcases h with hfresh | ⟨T, h⟩
    · rw [hfresh.live] at ha
      cases ha
    · obtain ⟨hsound, hframe⟩ := (wp_iff_of_ok hcall).mp (hs.free_sound h ha hsafe)
      exact ⟨hsound, fun _ a' _ ha' u hu => hframe u ⟨a', ha', hu⟩⟩
  | write ha hu =>
    rename_i a u v
    rcases h with hfresh | ⟨T, h⟩
    · rw [hfresh.live] at ha
      cases ha
    · exact ⟨⟨T, hs.write_sound h ha hu v⟩, fun hne => absurd rfl (hne u v)⟩

/-- **Every run** whose calls are safe: from the first call on, the session is sound. -/
theorem reach_sound (hs : Serves mgr WF Init Safe SafeFree) (most : ℕ) {S : Sys (Session F) Call}
    {tr : List Call} (hinit : ∀ st, S.init st → st.Starts Init mgr)
    (hstep : ∀ st c st', S.step st c st' →
      Session.Step most mgr st c st' ∧ SafeCall Safe SafeFree st c st')
    (h : Reach S tr st) : (tr = [] ∧ st.Starts Init mgr) ∨ ∃ T, Sound WF st T := by
  refine h.invariant (I := fun tr st => (tr = [] ∧ st.Starts Init mgr) ∨ ∃ T, Sound WF st T)
    (fun st hst => Or.inl ⟨rfl, hinit st hst⟩) fun _ _ _ _ hst hcall => ?_
  obtain ⟨hcall, hsafe⟩ := hstep _ _ _ hcall
  exact Or.inr (hs.step_sound (hst.imp_left And.right) hcall hsafe).1

/-- **Calls return.**  `heapmgr_malloc` returns, unless it is the first call and the kernel cannot
even tell the break; then the process exits. -/
theorem malloc_returns (hs : Serves mgr WF Init Safe SafeFree)
    (h : st.Starts Init mgr ∨ ∃ T, Sound WF st T) {size : ℕ} (hpos : 1 ≤ size)
    (hsafe : Safe (afterBoot st.heap) size) :
    (∃ p heap, mgr.malloc size st.heap = .ok p heap) ∨
      (st.Starts Init mgr ∧ st.heap.os.ready = false ∧ mgr.malloc size st.heap = .exit (-1)) := by
  rcases hs.prepared h hpos with ⟨hready, hfresh, hexit⟩ | ⟨T, hT, heq⟩
  · exact Or.inr ⟨hfresh, hready, hexit⟩
  · obtain ⟨p, heap, hcall, -⟩ := hs.malloc_sound hT hpos hsafe
    exact Or.inl ⟨p, heap, heq.trans hcall⟩

theorem free_returns (hs : Serves mgr WF Init Safe SafeFree)
    (h : st.Starts Init mgr ∨ ∃ T, Sound WF st T) (ha : a ∈ st.live)
    (hsafe : SafeFree st.heap a.ptr) : ∃ heap, mgr.free a.ptr st.heap = .ok () heap := by
  rcases h with hfresh | ⟨T, h⟩
  · rw [hfresh.live] at ha
    cases ha
  · obtain ⟨_, heap, hcall, -⟩ := hs.free_sound h ha hsafe
    exact ⟨heap, hcall⟩

end Serves

end Soundness

end SystemProgramming.HeapMgr
