import SystemProgramming.HeapMgr.Heapmgr1Run
import SystemProgramming.HeapMgr.Heapmgr2Run

/-!
# Requests of any size

A client may ask for any number of bytes below `2^64`.  Rounding the number up to units wraps around for
the last fifteen of them, and then a block without payload is handed out.  In every run in which no
size wraps, nothing that is grown or released outgrows an `int`, and `heapmgr1.c` does not grow its heap
behind a free block, every block that is handed out is large enough, and the next one is exactly when
its own size does not wrap.

* `malloc_not_short`: when a block that is handed out is large enough.
* `malloc_short`: a request of `2 ^ 64 - 1` bytes is served with a block that has no payload.
-/

namespace SystemProgramming.HeapMgr

open Exec

section Steps

variable {F : Type}

/-- In a session of any client, sizes do not wrap around, growth and releases stay within an `int`, and
the heap grows only as `Safe` says. -/
def WithinStep (Safe : Heap F → ℕ → Prop) (st : Session F) (c : Call) (_ : Session F) : Prop :=
  match c with
  | .malloc size => size + 15 < 2 ^ 64 ∧ GrowsWithin (afterBoot st.heap) size ∧
      Safe (afterBoot st.heap) size
  | .free a => Releasable st.heap a.ptr
  | .write _ _ => True

theorem WithinStep.safeCall {Safe : Heap F → ℕ → Prop} {st st' : Session F} {c : Call}
    (h : WithinStep Safe st c st') :
    SafeCall (fun s size => size + 15 < 2 ^ 64 ∧ GrowsWithin s size ∧ Safe s size) Releasable st c
      st' := by
  cases c with
  | malloc size => exact h
  | free a => exact h
  | write u v => trivial

/-- Every heap stays below the top of the address space. -/
theorem Session.Starts.limited {mgr : Manager F} {st : Session F}
    (h : st.Starts (fun _ => True) mgr) : st.Starts (fun os => os.limit < os.brk + 2 ^ 60) mgr :=
  { h with
    init := by
      have hlt := h.os.limit_lt
      omega }

/-- A request is answered with a null pointer, or with a block whose payload holds its size exactly when
the size does not wrap around. -/
def NotShort (size p : ℕ) (heap : Heap F) : Prop :=
  p ≠ null → ((size : ℤ) ≤ 16 * ((heap.mem (p - 1)).span - 2) ↔ size + 15 < 2 ^ 64)

/-- A block of the units that the rounded size asks for, or of one more. -/
theorem notShort_of_span {size : ℕ} {heap : Heap F} {b : Block} (hlt : size < 2 ^ 64)
    (hb : (heap.mem b.addr).span = b.span)
    (hspan : b.span = bytesToPayloadUnits size + 2 ∨ b.span = bytesToPayloadUnits size + 2 + 1) :
    NotShort size (b.addr + 1) heap := by
  intro _
  rw [Nat.add_sub_cancel, hb]
  by_cases hwrap : size + 15 < 2 ^ 64
  · rw [bytesToPayloadUnits_eq hwrap] at hspan
    unfold payloadUnits at hspan
    omega
  · rw [bytesToPayloadUnits_wrap (by omega) hlt] at hspan
    omega

/-- The block that was handed out, in a heap that shows it. -/
theorem notShort_of_rep {size : ℕ} {heap : Heap F} {keep : Set ℕ} {m₀ : Mem} {T : Table} {b : Block}
    {xs ys : List Block} (hlt : size < 2 ^ 64)
    (hr : Rep keep m₀ heap.mem heap.sHeapLo heap.sHeapHi T)
    (hT : T.blocks = xs ++ allocate b (bytesToPayloadUnits size + 2) ++ ys)
    (hspan : bytesToPayloadUnits size + 2 ≤ b.span) :
    NotShort size ((allocated b (bytesToPayloadUnits size + 2)).addr + 1) heap := by
  obtain ⟨ws, hsplit, -⟩ := exists_allocate_split xs b ys (bytesToPayloadUnits size + 2)
  rw [hsplit] at hT
  exact notShort_of_span hlt (hr.tagged (Rep.mem_of_split hT)).span (allocated_span_cases hspan)

theorem notShort_null {size : ℕ} {heap : Heap F} : NotShort size null heap := fun h => absurd rfl h

/-- The growth of a run, in terms of its table. -/
theorem growthFits_of_within {s : Heap F} {keep : Set ℕ} {m₀ : Mem} {T : Table} {size : ℕ}
    (h : GrowsWithin s size) (hr : Rep keep m₀ s.mem s.sHeapLo s.sHeapHi T)
    (hnone : NoneFits T.blocks (bytesToPayloadUnits size + 2)) :
    GrowthFits s T.blocks (bytesToPayloadUnits size) := h T.blocks (laidOut_of_rep hr) hnone

theorem released_of_releasable {s : Heap F} {keep : Set ℕ} {m₀ : Mem} {T : Table} {b : Block}
    {xs ys : List Block} (h : Releasable s (b.addr + 1))
    (hr : Rep keep m₀ s.mem s.sHeapLo s.sHeapHi T) (hT : T.blocks = xs ++ b :: ys) :
    (released xs b ys).span < 2 ^ 31 := by
  have hbs := laidOut_of_rep hr
  rw [hT] at hbs
  exact h xs b ys hbs rfl

/-- A request in a run, once it is known what it does on a well-formed heap. -/
theorem notShort_of_reach {mgr : Manager F} {WF : Set ℕ → Mem → Heap F → Table → Prop}
    {Safe : Heap F → ℕ → Prop} {tr : List Call} {st : Session F} {size p : ℕ} {heap : Heap F}
    (hs : Serves mgr WF (fun os => os.limit < os.brk + 2 ^ 60)
      (fun s size => size + 15 < 2 ^ 64 ∧ GrowsWithin s size ∧ Safe s size) Releasable)
    (h : Reach ((wideSys mgr).restrict (WithinStep Safe)) tr st) (hpos : 1 ≤ size)
    (hone : ∀ keep m₀ T, WF keep m₀ (afterBoot st.heap) T → OsOk (afterBoot st.heap) →
      (afterBoot st.heap).sHeapBooted = true →
      wp (mgr.malloc size) (fun p heap => NotShort size p heap) (afterBoot st.heap))
    (hcall : mgr.malloc size st.heap = .ok p heap) : NotShort size p heap := by
  have hsound : (tr = [] ∧ st.Starts (fun os => os.limit < os.brk + 2 ^ 60) mgr) ∨
      ∃ T, Sound WF st T := by
    refine hs.reach_sound (2 ^ 64 - 1) (fun st hst => Session.Starts.limited hst) (fun _ _ _ hstep => ?_) h
    exact ⟨hstep.1, WithinStep.safeCall hstep.2⟩
  rcases hs.prepared (hsound.imp_left And.right) hpos with ⟨-, -, hexit⟩ | ⟨T, hT, heq⟩
  · rw [hexit] at hcall
    cases hcall
  · rw [heq] at hcall
    exact (wp_iff_of_ok hcall).mp (hone _ _ T hT.wf hT.os hT.booted)

end Steps

/-! ### `heapmgr1.c` -/

namespace Heapmgr1

variable {cfg : Cfg} {tr : List Call} {st : Session ℕ} {size p : ℕ} {heap : Heap1}

/-- If the request grows the heap, the last block is in use or there is none. -/
def GrowsBehindUsed (s : Heap1) (size : ℕ) : Prop :=
  ∀ bs, LaidOut s bs → NoneFits bs (bytesToPayloadUnits size + 2) →
    s.os.Accepts (growSpan (bytesToPayloadUnits size)) → LastUsed bs

/-- A heap that has just been booted has no last block. -/
theorem growsBehindUsed_bootHeap (s : Heap1) (size : ℕ) : GrowsBehindUsed (bootHeap s) size := by
  intro bs hbs _ _ x hx
  rw [Tiles.eq_nil hbs.tiles] at hx
  cases hx

theorem serves_within (hcfg : 2 ^ 60 ≤ cfg.fuel) :
    Serves (manager cfg) (Chained (2 ^ 60)) (fun os => os.limit < os.brk + 2 ^ 60)
      (fun s size => size + 15 < 2 ^ 64 ∧ GrowsWithin s size ∧ GrowsBehindUsed s size) Releasable := by
  refine serves_of hcfg (fun _ hos => hos) (fun hwf _ hsafe => ?_) fun hwf _ hT hsafe => ?_
  · obtain ⟨⟨l, h⟩, -, -⟩ := hwf
    obtain ⟨hlt, hwithin, hbehind⟩ := hsafe
    have hn := bytesToPayloadUnits_eq hlt
    unfold GrowsBehindUsed at hbehind
    refine ⟨hlt, fun hnone => ?_⟩
    have hfits := growthFits_of_within hwithin h.work.rep (by rwa [hn])
    have hlast := hbehind _ (laidOut_of_rep h.work.rep) (by rwa [hn])
    rw [hn] at hfits hlast
    exact ⟨hfits, hlast⟩
  · obtain ⟨⟨l, h⟩, -, -⟩ := hwf
    exact released_of_releasable hsafe h.work.rep hT

theorem wp_heapmgrMalloc_notShort {keep : Set ℕ} {m₀ : Mem} {s : Heap1} {T : Table} {l : List ℕ}
    (h : WellFormed keep m₀ s T l) (hos : OsOk s) (hboot : s.sHeapBooted = true)
    (hl : Limited cfg.fuel s) (hpos : 1 ≤ size) (hlt : size < 2 ^ 64) (hwithin : GrowsWithin s size)
    (hbehind : GrowsBehindUsed s size) :
    wp (heapmgrMalloc cfg size) (fun p heap => NotShort size p heap) s := by
  refine wp_heapmgrMalloc h hos hboot hl hpos rfl
    (growthFits_of_within hwithin h.work.rep) (hbehind _ (laidOut_of_rep h.work.rep)) ?_
    (fun _ _ => notShort_null) ?_
  · intro k₁ b k₂ xs ys _ _ _ _ hspan s' T' _ hT' hwf _
    exact notShort_of_rep hlt hwf.work.rep hT' hspan
  · intro _ _ _ s' T' l' _ hT' hwf _
    have hspan : bytesToPayloadUnits size + 2 ≤ growSpan (bytesToPayloadUnits size) := by
      unfold growSpan
      omega
    rw [← List.append_nil (T.blocks ++ _)] at hT'
    exact notShort_of_rep hlt hwf.work.rep hT' hspan

/-- One request in a run that stays within bounds. -/
theorem malloc_notShort (hcfg : 2 ^ 60 ≤ cfg.fuel)
    (h : Reach ((wideSys (manager cfg)).restrict (WithinStep GrowsBehindUsed)) tr st) (hpos : 1 ≤ size)
    (hlt : size < 2 ^ 64) (hwithin : GrowsWithin (afterBoot st.heap) size)
    (hbehind : GrowsBehindUsed (afterBoot st.heap) size)
    (hcall : heapmgrMalloc cfg size st.heap = .ok p heap) : NotShort size p heap := by
  refine notShort_of_reach (serves_within hcfg) h hpos (fun keep m₀ T hwf hos hboot => ?_) hcall
  obtain ⟨⟨l, hwf⟩, -, hl⟩ := hwf
  exact wp_heapmgrMalloc_notShort hwf hos hboot (hl.mono hcfg) hpos hlt hwithin hbehind

end Heapmgr1

/-! ### `heapmgr2.c` -/

namespace Heapmgr2

variable {cfg : Cfg} {tr : List Call} {st : Session Bins} {size p : ℕ} {heap : Heap2}

theorem serves_within (hcfg : 2 ^ 60 ≤ cfg.fuel) :
    Serves (manager cfg) (Binned (2 ^ 60)) (fun os => os.limit < os.brk + 2 ^ 60)
      (fun s size => size + 15 < 2 ^ 64 ∧ GrowsWithin s size ∧ True) Releasable := by
  refine serves_of hcfg (fun _ hos => hos) (fun hwf _ hsafe => ?_) fun hwf _ hT hsafe => ?_
  · obtain ⟨⟨bl, h⟩, -⟩ := hwf
    obtain ⟨hlt, hwithin, -⟩ := hsafe
    have hn := bytesToPayloadUnits_eq hlt
    refine ⟨hlt, fun hnone => ?_⟩
    have hfits := growthFits_of_within hwithin h.work.rep (by rwa [hn])
    rwa [hn] at hfits
  · obtain ⟨⟨bl, h⟩, -⟩ := hwf
    exact released_of_releasable hsafe h.work.rep hT

theorem wp_heapmgrMalloc_notShort {keep : Set ℕ} {m₀ : Mem} {s : Heap2} {T : Table}
    {bl : Fin numBins → List ℕ} (h : WellFormed keep m₀ s T bl) (hos : OsOk s)
    (hboot : s.sHeapBooted = true) (hl : Limited cfg.fuel s) (hpos : 1 ≤ size) (hlt : size < 2 ^ 64)
    (hwithin : GrowsWithin s size) :
    wp (heapmgrMalloc cfg size) (fun p heap => NotShort size p heap) s := by
  refine wp_heapmgrMalloc h hos hboot hl hpos rfl (growthFits_of_within hwithin h.work.rep) ?_
    (fun _ _ => notShort_null) ?_
  · intro xs b ys _ _ hspan s' T' bl' _ hT' hwf
    exact notShort_of_rep hlt hwf.work.rep hT' hspan
  · intro _ _ _ xs b ys _ _ hspan s' T' bl' _ hT' hwf
    exact notShort_of_rep hlt hwf.work.rep hT' hspan

/-- One request in a run that stays within bounds. -/
theorem malloc_notShort (hcfg : 2 ^ 60 ≤ cfg.fuel)
    (h : Reach ((wideSys (manager cfg)).restrict (WithinStep fun _ _ => True)) tr st)
    (hpos : 1 ≤ size) (hlt : size < 2 ^ 64) (hwithin : GrowsWithin (afterBoot st.heap) size)
    (hcall : heapmgrMalloc cfg size st.heap = .ok p heap) : NotShort size p heap := by
  refine notShort_of_reach (serves_within hcfg) h hpos (fun keep m₀ T hwf hos hboot => ?_) hcall
  obtain ⟨⟨bl, hwf⟩, hl⟩ := hwf
  exact wp_heapmgrMalloc_notShort hwf hos hboot (hl.mono hcfg) hpos hlt hwithin

end Heapmgr2

/-! ### Both -/

/-- **No short blocks, as long as no size wraps.**  In every run in which no size wraps around, growth
and releases stay within an `int`, and `heapmgr1.c` does not grow its heap behind a free block, a
request of any size that stays within these bounds is refused, or its block is large enough exactly
when the size does not wrap around. -/
theorem malloc_not_short {cfg : Cfg} (hcfg : 2 ^ 60 ≤ cfg.fuel) :
    (∀ tr st size p heap,
      Reach ((wideSys (Heapmgr1.manager cfg)).restrict (WithinStep Heapmgr1.GrowsBehindUsed)) tr st →
      1 ≤ size → size < 2 ^ 64 → GrowsWithin (afterBoot st.heap) size →
      Heapmgr1.GrowsBehindUsed (afterBoot st.heap) size →
      Heapmgr1.heapmgrMalloc cfg size st.heap = .ok p heap → NotShort size p heap) ∧
    ∀ tr st size p heap,
      Reach ((wideSys (Heapmgr2.manager cfg)).restrict (WithinStep fun _ _ => True)) tr st →
      1 ≤ size → size < 2 ^ 64 → GrowsWithin (afterBoot st.heap) size →
      Heapmgr2.heapmgrMalloc cfg size st.heap = .ok p heap → NotShort size p heap := by
  constructor
  · intro tr st size p heap h hpos hlt hwithin hbehind hcall
    exact Heapmgr1.malloc_notShort hcfg h hpos hlt hwithin hbehind hcall
  · intro tr st size p heap h hpos hlt hwithin hcall
    exact Heapmgr2.malloc_notShort hcfg h hpos hlt hwithin hcall

/-- A fresh heap grows within an `int`. -/
theorem growsWithin_first {F : Type} {mgr : Manager F} :
    GrowsWithin (afterBoot (firstSession mgr).heap) 1 := by
  intro bs hbs _
  have hnil : bs = [] := Tiles.eq_nil hbs.tiles
  rw [hnil]
  intro _
  have hsmall : growSpan (bytesToPayloadUnits 1) < 2 ^ 31 := by decide +kernel
  rw [released_of_used (by simp) (by simp) rfl]
  exact ⟨hsmall, hsmall⟩

theorem firstSession_starts {F : Type} (mgr : Manager F) :
    (firstSession mgr).Starts (fun _ => True) mgr :=
  { Session.fresh_iff.mp (firstSession_fresh mgr) with init := trivial }

/-- One byte from a fresh heap of each manager. -/
theorem malloc_not_short_first :
    (∃ heap, Heapmgr1.heapmgrMalloc ⟨true, 2 ^ 60⟩ 1
      (firstSession (Heapmgr1.manager ⟨true, 2 ^ 60⟩)).heap = .ok 1025 heap ∧ NotShort 1 1025 heap) ∧
    ∃ heap, Heapmgr2.heapmgrMalloc ⟨true, 2 ^ 60⟩ 1
      (firstSession (Heapmgr2.manager ⟨true, 2 ^ 60⟩)).heap = .ok 1025 heap ∧ NotShort 1 1025 heap := by
  have hall := @malloc_not_short ⟨true, 2 ^ 60⟩ (Nat.le_refl _)
  have hvalue₁ : (Heapmgr1.heapmgrMalloc ⟨true, 2 ^ 60⟩ 1
      (firstSession (Heapmgr1.manager ⟨true, 2 ^ 60⟩)).heap).value = some 1025 := by decide +kernel
  have hvalue₂ : (Heapmgr2.heapmgrMalloc ⟨true, 2 ^ 60⟩ 1
      (firstSession (Heapmgr2.manager ⟨true, 2 ^ 60⟩)).heap).value = some 1025 := by decide +kernel
  obtain ⟨heap₁, hcall₁⟩ := exists_of_value hvalue₁
  obtain ⟨heap₂, hcall₂⟩ := exists_of_value hvalue₂
  refine ⟨⟨heap₁, hcall₁, ?_⟩, heap₂, hcall₂, ?_⟩
  · exact hall.1 [] _ 1 1025 heap₁ (Reach.init (firstSession_starts _)) (by decide) (by decide)
      growsWithin_first (Heapmgr1.growsBehindUsed_bootHeap _ 1) hcall₁
  · exact hall.2 [] _ 1 1025 heap₂ (Reach.init (firstSession_starts _)) (by decide) (by decide)
      growsWithin_first hcall₂

/-- A request of the largest size; returned are the answer and the span in the header of its block. -/
def mallocLargest {F : Type} (mgr : Manager F) : Exec (Heap F) (ℕ × ℤ) := do
  let p ← mgr.malloc (2 ^ 64 - 1)
  let span ← reads fun s => (s.mem (p - 1)).span
  return (p, span)

theorem mallocLargest_value (asserts : Bool) :
    (mallocLargest (Heapmgr1.manager ⟨asserts, 2 ^ 31⟩)
      (firstSession (Heapmgr1.manager ⟨asserts, 2 ^ 31⟩)).heap).value = some (1026, 2) ∧
    (mallocLargest (Heapmgr2.manager ⟨asserts, 2 ^ 31⟩)
      (firstSession (Heapmgr2.manager ⟨asserts, 2 ^ 31⟩)).heap).value = some (1026, 2) := by
  cases asserts with
  | true => exact ⟨by decide +kernel, by decide +kernel⟩
  | false => exact ⟨by decide +kernel, by decide +kernel⟩

/-- A manager that hands out, at the start of a session, a block too short for the largest size. -/
def ShortAtStart {F : Type} (mgr : Manager F) : Prop :=
  ∃ st p heap, Reach (wideSys mgr) [] st ∧ mgr.malloc (2 ^ 64 - 1) st.heap = .ok p heap ∧ p ≠ null ∧
    ¬ ((2 ^ 64 - 1 : ℕ) : ℤ) ≤ 16 * ((heap.mem (p - 1)).span - 2)

theorem shortAtStart_of_value {F : Type} {mgr : Manager F}
    (h : (mallocLargest mgr (firstSession mgr).heap).value = some (1026, 2)) : ShortAtStart mgr := by
  obtain ⟨p, heap, hcall, hrest⟩ := exists_of_bind_value h
  have hresult : (p, (heap.mem (p - 1)).span) = (1026, 2) := Option.some.inj hrest
  obtain ⟨rfl, hspan⟩ := Prod.mk.inj hresult
  refine ⟨_, 1026, heap, Reach.init (firstSession_starts mgr), hcall, by decide, ?_⟩
  rw [hspan]
  decide

/-- **The largest size wraps around.**  A fresh heap of either manager, in either build, serves a request
of `2^64 - 1` bytes with a block of two units, which has no payload. -/
theorem malloc_short : (∀ asserts, ShortAtStart (Heapmgr1.manager ⟨asserts, 2 ^ 31⟩)) ∧
    ∀ asserts, ShortAtStart (Heapmgr2.manager ⟨asserts, 2 ^ 31⟩) := by
  constructor
  · intro asserts
    exact shortAtStart_of_value (mallocLargest_value asserts).1
  · intro asserts
    exact shortAtStart_of_value (mallocLargest_value asserts).2

end SystemProgramming.HeapMgr
