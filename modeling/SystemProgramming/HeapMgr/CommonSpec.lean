import SystemProgramming.HeapMgr.Reshape
import SystemProgramming.HeapMgr.Units

/-!
# What the two heap managers do alike

Three stretches of the source stand in both files: the memory that `sys_grow_and_link` asks for, and
the tests with which a physical neighbour is found free before it is merged.  Each is named here, up to
what follows it, and has one theorem that serves both files.

* `wp_growBlock`: the kernel refuses, or there is a free block behind the last one.
* `wp_withFreeNext`, `wp_withFreePrev`: the tests on the two neighbours.
-/

namespace SystemProgramming.HeapMgr

open Exec CInt

variable {F α : Type} {cfg : Cfg} {s : Heap F} {keep : Set ℕ} {m₀ : Mem} {T : Table} {b : Block}
  {xs ys : List Block} {need : ℕ}

/-! ### Growing the heap -/

/-- The text of `sys_grow_and_link` until the new block is there; `insert` is what follows. -/
def growBlock (cfg : Cfg) (needUnits : ℕ) (insert : ℕ → Exec (Heap F) ℕ) : Exec (Heap F) ℕ := do
  let growData := if needUnits < sysMinAllocUnits then sysMinAllocUnits else needUnits
  let growSpan := addSize 2 growData
  let c ← sbrk (toIntptr (toSize (growSpan * chunkUnit)))
  if c = sbrkFailed then return null else
  let hi ← sbrkZero
  modify fun s => { s with sHeapHi := hi }
  chunkSetSpanUnits cfg c (toInt growSpan)
  chunkSetNextFree cfg c null
  chunkSetPrevFree cfg c null
  chunkSetStatus cfg c chunkFree
  insert c

/-- **The memory that is asked for**: the kernel refuses, or a free block is there behind the last one. -/
theorem wp_growBlock {Q : ℕ → Heap F → Prop} {insert : ℕ → Exec (Heap F) ℕ}
    (hr : Rep keep m₀ s.mem s.sHeapLo s.sHeapHi T) (hos : OsOk s) (hneed : need < 2 ^ 60)
    (hfits : GrowthFits s T.blocks need)
    (hrefused : ¬ s.os.Accepts (growSpan need) →
      Q null { s with os := { s.os with calls := s.os.calls + 1 } })
    (hgrown : s.os.Accepts (growSpan need) → s.os.brk + growSpan need ≤ s.os.limit →
      s.sHeapHi ≠ null → (∀ v ∈ keep, v < s.sHeapHi) → ∀ m₁,
      Rep keep m₀ m₁ s.sHeapLo (s.sHeapHi + growSpan need)
        (((T.setBlocks (T.blocks ++ [⟨s.sHeapHi, growSpan need, false⟩])).setNext s.sHeapHi
          null).setPrev s.sHeapHi null) →
      wp (insert s.sHeapHi) Q { s with mem := m₁, sHeapHi := s.sHeapHi + growSpan need,
                                       os := { s.os with brk := s.sHeapHi + growSpan need,
                                                         calls := s.os.calls + 1 } }) :
    wp (growBlock cfg need insert) Q s := by
  have hg₂ : 2 ≤ growSpan need := Nat.le_add_right _ _
  simp only [growBlock, growData_eq hneed, wp_bind]
  refine wp_sbrk hos (fun haccepts => (hfits haccepts).1) (fun hno => ?_) fun haccepts hlimit => ?_
  · rw [if_pos rfl, wp_pure]
    exact hrefused hno
  · have hg := (hfits haccepts).1
    have hbrk := hos.brk
    have hlt := hos.limit_lt
    have hhi : s.sHeapHi ≠ sbrkFailed := by
      unfold sbrkFailed
      omega
    have hnull : s.sHeapHi ≠ null := by
      have h₁ := hr.lo_pos
      have h₂ := hr.tiles.le
      unfold null
      omega
    have hkeep : ∀ v ∈ keep, v < s.sHeapHi := by
      intro v hv
      obtain ⟨d, hd, -, h₁, h₂⟩ := hr.keep_used v hv
      have hb := hr.bounds hd
      omega
    rw [if_neg hhi]
    simp only [sbrkZero, wp_bind, wp_reads, wp_modify, wp_lift, if_pos hos.ready, hos.brk,
      toInt_of_lt hg]
    refine wp_carve_grown (u := false) hnull hg₂ hg (by omega) fun m₁ hm₁ => ?_
    exact hgrown haccepts hlimit hnull hkeep m₁ (hr.grow hg₂ (by omega) hg hm₁)

/-! ### Free neighbours -/

theorem Rep.gives_status (hr : Rep keep m₀ s.mem s.sHeapLo s.sHeapHi T) (hb : b ∈ T.blocks) :
    Gives (chunkGetStatus cfg b.addr) s.mem (statusOf b.used) := (hr.tagged hb).gives_getStatus

/-- The walk over the blocks ends where the heap ends. -/
theorem Rep.end_of_split (hr : Rep keep m₀ s.mem s.sHeapLo s.sHeapHi T)
    (hT : T.blocks = xs ++ b :: ys) :
    (if ys = [] then b.addr + b.span else s.sHeapHi) = s.sHeapHi := by
  have ht := hr.tiles
  rw [hT] at ht
  rcases ht.next with ⟨-, hend⟩ | ⟨c, zs, rfl, -⟩
  · rw [hend, ite_self]
  · rfl

/-- Merge the upper neighbour of `c`, when it is free. -/
def withFreeNext (cfg : Cfg) (c : ℕ) (merge : ℕ → Exec (Heap F) ℕ) : Exec (Heap F) ℕ := do
  let nxt ← chunkGetAdjacent cfg c (← heapLo) (← heapHi)
  if nxt = null then return c else
  let status ← chunkGetStatus cfg nxt
  if status ≠ chunkFree then return c else
  merge nxt

theorem wp_withFreeNext {Q : ℕ → Heap F → Prop} {merge : ℕ → Exec (Heap F) ℕ}
    (hr : Rep keep m₀ s.mem s.sHeapLo s.sHeapHi T) (hT : T.blocks = xs ++ b :: ys)
    (hused : (∀ y ∈ ys.head?, y.used = true) → Q b.addr s)
    (hfree : ∀ y zs, ys = y :: zs → y.used = false → wp (merge y.addr) Q s) :
    wp (withFreeNext cfg b.addr merge) Q s := by
  simp only [withFreeNext, heapLo, heapHi, wp_bind, wp_reads, wp_lift]
  rw [(hr.gives_adjacent_split hT).wp_iff, wp_ite]
  cases ys with
  | nil => exact ⟨fun _ => (wp_pure _).mpr (hused (by simp)), fun hne => absurd rfl hne⟩
  | cons y zs =>
    have hT₂ : T.blocks = (xs ++ [b]) ++ y :: zs := by simp [hT]
    have hy : y ∈ T.blocks := Rep.mem_of_split hT₂
    refine ⟨fun hnull => absurd hnull (hr.addr_ne_null hy), fun _ => ?_⟩
    simp only [List.map_cons, List.headD_cons, wp_bind, wp_lift]
    rw [(hr.gives_status hy).wp_iff, wp_ite]
    constructor
    · intro hstatus
      refine (wp_pure _).mpr (hused fun c hc => ?_)
      obtain rfl : y = c := Option.some.inj hc
      simpa using hstatus
    · intro hstatus
      exact hfree y zs rfl (by simpa using hstatus)

/-- Merge into the lower neighbour of `c`, when it is free; else return `v`. -/
def withFreePrev (cfg : Cfg) (c : ℕ) (v : α) (merge : ℕ → Exec (Heap F) α) : Exec (Heap F) α := do
  let lo ← heapLo
  let hi ← heapHi
  let prv ← chunkGetPrevAdjacent cfg c lo hi
  if prv = null then return v else
  let valid ← chunkIsValid cfg prv lo hi
  if valid = false then return v else
  let adjacent ← chunkGetAdjacent cfg prv lo hi
  if adjacent ≠ c then return v else
  let status ← chunkGetStatus cfg prv
  if status ≠ chunkFree then return v else
  merge prv

theorem wp_withFreePrev {Q : α → Heap F → Prop} {v : α} {merge : ℕ → Exec (Heap F) α}
    (hr : Rep keep m₀ s.mem s.sHeapLo s.sHeapHi T) (hT : T.blocks = xs ++ b :: ys)
    (hused : (∀ x ∈ xs.getLast?, x.used = true) → Q v s)
    (hfree : ∀ zs x, xs = zs ++ [x] → x.used = false → wp (merge x.addr) Q s) :
    wp (withFreePrev cfg b.addr v merge) Q s := by
  simp only [withFreePrev, heapLo, heapHi, wp_bind, wp_reads, wp_lift]
  rw [(hr.gives_prevAdjacent hT).wp_iff, wp_ite]
  rcases List.eq_nil_or_concat xs with rfl | ⟨zs, x, rfl⟩
  · exact ⟨fun _ => (wp_pure _).mpr (hused (by simp)), fun hne => absurd rfl hne⟩
  · rw [List.concat_eq_append] at *
    have hT₂ : T.blocks = zs ++ x :: b :: ys := by simp [hT]
    have hx : x ∈ T.blocks := Rep.mem_of_split hT₂
    have hlast : ((zs ++ [x]).map Block.addr).getLastD null = x.addr := by simp
    have hnext : Gives (chunkGetAdjacent cfg x.addr s.sHeapLo s.sHeapHi) s.mem b.addr :=
      hr.gives_adjacent_split hT₂
    rw [hlast]
    refine ⟨fun hnull => absurd hnull (hr.addr_ne_null hx), fun _ => ?_⟩
    simp only [wp_bind, wp_lift]
    rw [(hr.tagged hx).gives_isValid.wp_iff, if_neg Bool.true_eq_false.mp]
    simp only [wp_bind, wp_lift]
    rw [hnext.wp_iff, if_neg (not_not.mpr rfl)]
    simp only [wp_bind, wp_lift]
    rw [(hr.gives_status hx).wp_iff, wp_ite]
    constructor
    · intro hstatus
      refine (wp_pure _).mpr (hused fun c hc => ?_)
      obtain rfl : x = c := by simpa using hc
      simpa using hstatus
    · intro hstatus
      exact hfree zs x rfl (by simpa using hstatus)

end SystemProgramming.HeapMgr
