import SystemProgramming.HeapMgr.Heapmgr1
import SystemProgramming.HeapMgr.CommonSpec
import SystemProgramming.Lib.Frames

/-!
# What no function of `heapmgr1.c` can change

Whatever the heap looks like, the functions that work on blocks and on the list leave the kernel
alone, and the integer fields of every unit stay `int`s: nothing but conversions, sums and differences
of `int`s is ever written to them.  Growing the heap asks the kernel once.

* `sbrk_refused`, `growBlock_refused`, `sysGrowAndLink_refused`: a refusal changes nothing but the kernel.
* `calls_sysGrowAndLink`: growing the heap asks the kernel once.
-/

namespace SystemProgramming.HeapMgr

-- the instances follow the text of a function, so their size grows with its length
set_option synthInstance.maxSize 20000

open Exec CInt

/-- A value that an `int` can hold. -/
class IsInt (n : ℤ) : Prop where
  bounds : -2 ^ 31 ≤ n ∧ n < 2 ^ 31

instance (n : ℤ) : IsInt (toInt n) := ⟨toInt_bounds n⟩

instance (a b : ℤ) : IsInt (addInt a b) := ⟨toInt_bounds _⟩

instance (a b : ℤ) : IsInt (subInt a b) := ⟨toInt_bounds _⟩

instance : IsInt chunkFree := ⟨by decide⟩

instance : IsInt chunkUsed := ⟨by decide⟩

/-- The integer fields of every unit are `int`s. -/
def Typed (m : Mem) : Prop := ∀ p, IsInt (m p).lo32 ∧ IsInt (m p).hi32

/-- `m'` is typed if `m` is. -/
def KeepsTyped (m m' : Mem) : Prop := Typed m → Typed m'

instance : IsPreorder Mem KeepsTyped where
  refl _ := id
  trans _ _ _ h h' := fun hm => h' (h hm)

/-- `s'` has the kernel of `s`, and its memory is typed if that of `s` is. -/
structure Steady {F : Type} (s s' : Heap F) : Prop where
  os : s'.os = s.os
  typed : Typed s.mem → Typed s'.mem

instance {F : Type} : IsPreorder (Heap F) Steady where
  refl _ := ⟨rfl, id⟩
  trans _ _ _ h h' := ⟨h'.os.trans h.os, fun hm => h'.typed (h.typed hm)⟩

/-! ### The functions of `chunk.c` -/

section Chunk

variable {cfg : Cfg} {c n p lo hi : ℕ} {F α : Type}

theorem typed_update {m : Mem} {v : Cell} (h : Typed m) (hv : IsInt v.lo32 ∧ IsInt v.hi32) :
    Typed (Function.update m p v) := by
  intro q
  by_cases hq : q = p
  · rw [hq, Function.update_self]
    exact hv
  · rw [Function.update_of_ne hq]
    exact h q

theorem frames_setCell {f : Cell → Cell}
    (h : ∀ v : Cell, IsInt v.lo32 ∧ IsInt v.hi32 → IsInt (f v).lo32 ∧ IsInt (f v).hi32) :
    Frames KeepsTyped (setCell p f) :=
  Frames.modify fun m hm => typed_update hm (h (m p) (hm p))

instance : Frames KeepsTyped (setCell p fun h => { h with link := n }) := frames_setCell fun _ hv => hv

instance {v : ℤ} [hi : IsInt v] : Frames KeepsTyped (setCell p fun h => { h with lo32 := v }) :=
  frames_setCell fun _ hv => ⟨hi, hv.2⟩

instance {v : ℤ} [hi : IsInt v] : Frames KeepsTyped (setCell p fun h => { h with hi32 := v }) :=
  frames_setCell fun _ hv => ⟨hv.1, hi⟩

instance : Frames KeepsTyped (cell c) := by
  unfold cell
  infer_instance

instance : Frames KeepsTyped (chunkGetStatus cfg c) := by
  unfold chunkGetStatus
  infer_instance

instance {v : ℤ} [IsInt v] : Frames KeepsTyped (chunkSetStatus cfg c v) := by
  unfold chunkSetStatus
  infer_instance

instance : Frames KeepsTyped (chunkGetSpanUnits cfg c) := by
  unfold chunkGetSpanUnits
  infer_instance

instance : Frames KeepsTyped (getFooterFromHeader cfg c) := by
  unfold getFooterFromHeader
  infer_instance

instance : Frames KeepsTyped (getHeaderFromFooter cfg c) := by
  unfold getHeaderFromFooter
  infer_instance

instance {v : ℤ} [IsInt v] : Frames KeepsTyped (chunkSetSpanUnits cfg c v) := by
  unfold chunkSetSpanUnits
  infer_instance

instance : Frames KeepsTyped (chunkGetNextFree cfg c) := by
  unfold chunkGetNextFree
  infer_instance

instance : Frames KeepsTyped (chunkGetPrevFree cfg c) := by
  unfold chunkGetPrevFree
  infer_instance

instance : Frames KeepsTyped (chunkSetNextFree cfg c n) := by
  unfold chunkSetNextFree
  infer_instance

instance : Frames KeepsTyped (chunkSetPrevFree cfg c n) := by
  unfold chunkSetPrevFree
  infer_instance

instance : Frames KeepsTyped (chunkGetAdjacent cfg c lo hi) := by
  simp only [chunkGetAdjacent]
  infer_instance

instance : Frames KeepsTyped (chunkIsValid cfg c lo hi) := by
  unfold chunkIsValid
  infer_instance

instance : Frames KeepsTyped (chunkGetPrevAdjacent cfg c lo hi) := by
  simp only [chunkGetPrevAdjacent]
  infer_instance

instance {x : Exec Mem α} [Frames KeepsTyped x] : Frames Steady (liftM x : Exec (Heap F) α) :=
  Frames.zoom (R := KeepsTyped) fun _ _ h => ⟨rfl, h⟩

instance : Frames Steady (heapLo : Exec (Heap F) ℕ) := by
  unfold heapLo
  infer_instance

instance : Frames Steady (heapHi : Exec (Heap F) ℕ) := by
  unfold heapHi
  infer_instance

end Chunk

/-! ### Asking the kernel -/

section Kernel

variable {F : Type} {s s' : Heap F} {n : ℤ} {p : ℕ}

theorem sbrk_refused (h : s.os.answer s.os.calls = false) :
    sbrk n s = .ok sbrkFailed { s with os := { s.os with calls := s.os.calls + 1 } } := by
  unfold sbrk
  simp [h]

/-- Every call of `sbrk` for memory is counted, whatever its answer. -/
theorem calls_sbrk (h : sbrk n s = .ok p s') : s'.os.calls = s.os.calls + 1 := by
  unfold sbrk at h
  simp only at h
  split at h
  · cases h
    rfl
  · cases h
    rfl

instance : Frames Steady (modify fun s : Heap F => { s with sHeapHi := p }) :=
  Frames.modify fun _ => ⟨rfl, id⟩

instance : Frames Steady (sbrkZero : Exec (Heap F) ℕ) := by
  unfold sbrkZero
  infer_instance

variable {cfg : Cfg} {need : ℕ} {insert : ℕ → Exec (Heap F) ℕ}

theorem growBlock_refused (h : s.os.answer s.os.calls = false) :
    growBlock cfg need insert s
      = .ok null { s with os := { s.os with calls := s.os.calls + 1 } } := by
  simp only [growBlock]
  rw [bind_of_ok (sbrk_refused h), if_pos rfl]
  rfl

/-- Growing asks the kernel once, if what follows leaves the kernel alone. -/
theorem calls_growBlock [∀ c, Frames Steady (insert c)] (h : growBlock cfg need insert s = .ok p s') :
    s'.os.calls = s.os.calls + 1 := by
  simp only [growBlock] at h
  obtain ⟨q, s₁, hsbrk, hrest⟩ := exists_of_bind_ok h
  have hsteady : Steady s₁ s' := Frames.frames _ _ _ hrest
  rw [hsteady.os]
  exact calls_sbrk hsbrk

end Kernel

namespace Heapmgr1

variable {cfg : Cfg} {a b c n : ℕ}

instance : Frames Steady freeHead := by
  unfold freeHead
  infer_instance

instance : Frames Steady (setFreeHead c) := Frames.modify fun _ => ⟨rfl, id⟩

instance (fuel e : ℕ) : Frames Steady (walkBlocks cfg fuel c e) := by
  induction fuel generalizing c e with
  | zero =>
    unfold walkBlocks
    infer_instance
  | succ fuel ih =>
    unfold walkBlocks
    infer_instance

instance (fuel : ℕ) : Frames Steady (walkList cfg fuel c) := by
  induction fuel generalizing c with
  | zero =>
    unfold walkList
    infer_instance
  | succ fuel ih =>
    unfold walkList
    infer_instance

instance : Frames Steady (checkHeapValidity cfg) := by
  unfold checkHeapValidity
  infer_instance

instance : Frames Steady (freelistUnlink cfg c) := by
  unfold freelistUnlink
  repeat refine Frames.bind inferInstance fun _ => ?_
  infer_instance

instance : Frames Steady (coalesceOrdered cfg a b) := by
  simp only [coalesceOrdered]
  -- a long function, statement by statement
  repeat refine Frames.bind inferInstance fun _ => ?_
  infer_instance

instance : Frames Steady (coalesceTwo cfg a b) := by
  unfold coalesceTwo
  infer_instance

instance : Frames Steady (splitForAlloc cfg c n) := by
  simp only [splitForAlloc]
  repeat refine Frames.bind inferInstance fun _ => ?_
  infer_instance

instance : Frames Steady (mergeNext cfg c) := by
  unfold mergeNext
  infer_instance

instance : Frames Steady (mergePrev cfg c) := by
  unfold mergePrev
  infer_instance

instance : Frames Steady (freelistPushFront cfg c) := by
  unfold freelistPushFront
  repeat refine Frames.bind inferInstance fun _ => ?_
  infer_instance

instance : Frames Steady (freelistDetach cfg c) := by
  unfold freelistDetach
  repeat refine Frames.bind inferInstance fun _ => ?_
  infer_instance

instance : Frames Steady (takeBlock cfg c n) := by
  simp only [takeBlock]
  infer_instance

instance : Frames Steady (heapmgrFree cfg c) := by
  unfold heapmgrFree
  repeat refine Frames.bind inferInstance fun _ => ?_
  infer_instance

section Growth

variable {s s' : Heap1} {need p : ℕ}

theorem sysGrowAndLink_refused (h : s.os.answer s.os.calls = false) :
    sysGrowAndLink cfg need s
      = .ok null { s with os := { s.os with calls := s.os.calls + 1 } } := growBlock_refused h

theorem calls_sysGrowAndLink (h : sysGrowAndLink cfg need s = .ok p s') :
    s'.os.calls = s.os.calls + 1 := by
  have hgrow : growBlock cfg need (fun c => do
      freelistPushFront cfg c
      assertM cfg.asserts (checkHeapValidity cfg)
      return c) s = .ok p s' := h
  exact calls_growBlock hgrow

end Growth

end Heapmgr1

end SystemProgramming.HeapMgr
