import SystemProgramming.HeapMgr.Heapmgr2
import SystemProgramming.HeapMgr.Heapmgr1Frame

/-!
# What no function of `heapmgr2.c` can change

The functions of `heapmgr2.c` that work on blocks and on the bins leave the kernel alone and the memory
typed, like those of `heapmgr1.c`.
-/

namespace SystemProgramming.HeapMgr.Heapmgr2

set_option synthInstance.maxSize 20000

open Exec CInt

variable {cfg : Cfg} {a b c n w : ℕ} {i : Fin numBins}

instance : Frames Steady (getBin i) := by
  unfold getBin
  infer_instance

instance : Frames Steady (setBin i c) := Frames.modify fun _ => ⟨rfl, id⟩

instance (fuel : ℕ) (k : ℤ) : Frames Steady (countInBin cfg c fuel w k) := by
  induction fuel generalizing w k with
  | zero =>
    unfold countInBin
    infer_instance
  | succ fuel ih =>
    unfold countInBin
    infer_instance

instance (is : List (Fin numBins)) (k : ℤ) : Frames Steady (countInBins cfg c is k) := by
  induction is generalizing k with
  | nil =>
    unfold countInBins
    infer_instance
  | cons i is ih =>
    unfold countInBins
    infer_instance

instance : Frames Steady (countBinExist cfg c) := by
  unfold countBinExist
  infer_instance

instance (fuel e : ℕ) : Frames Steady (walkBlocks cfg fuel w e) := by
  induction fuel generalizing w e with
  | zero =>
    unfold walkBlocks
    infer_instance
  | succ fuel ih =>
    unfold walkBlocks
    infer_instance

instance (fuel : ℕ) : Frames Steady (walkBin cfg i a fuel w) := by
  induction fuel generalizing w with
  | zero =>
    unfold walkBin
    infer_instance
  | succ fuel ih =>
    unfold walkBin
    infer_instance

instance (is : List (Fin numBins)) : Frames Steady (walkBins cfg is) := by
  induction is with
  | nil =>
    unfold walkBins
    infer_instance
  | cons i is ih =>
    unfold walkBins
    infer_instance

instance : Frames Steady (checkHeapValidity cfg) := by
  unfold checkHeapValidity
  infer_instance

instance : Frames Steady (splitForAlloc cfg c n) := by
  simp only [splitForAlloc]
  repeat refine Frames.bind inferInstance fun _ => ?_
  infer_instance

instance : Frames Steady (binDetach cfg c) := by
  simp only [binDetach]
  repeat refine Frames.bind inferInstance fun _ => ?_
  infer_instance

instance : Frames Steady (coalesceTwo cfg a b) := by
  simp only [coalesceTwo]
  repeat refine Frames.bind inferInstance fun _ => ?_
  infer_instance

instance : Frames Steady (mergeNext cfg c) := by
  unfold mergeNext
  infer_instance

instance : Frames Steady (mergePrev cfg c) := by
  unfold mergePrev
  infer_instance

instance : Frames Steady (binPushFront cfg c) := by
  unfold binPushFront
  repeat refine Frames.bind inferInstance fun _ => ?_
  infer_instance

instance : Frames Steady (takeBlock cfg c n) := by
  unfold takeBlock
  infer_instance

instance (fuel : ℕ) : Frames Steady (searchBin cfg n fuel c) := by
  induction fuel generalizing c with
  | zero =>
    unfold searchBin
    infer_instance
  | succ fuel ih =>
    simp only [searchBin]
    infer_instance

instance (is : List (Fin numBins)) : Frames Steady (searchBins cfg n is) := by
  induction is with
  | nil =>
    unfold searchBins
    infer_instance
  | cons i is ih =>
    unfold searchBins
    refine Frames.bind inferInstance fun head => Frames.bind inferInstance fun found => ?_
    cases found with
    | some p => exact inferInstanceAs (Frames Steady (pure (some p)))
    | none => exact ih

section Growth

variable {s s' : Heap2} {need p : ℕ}

theorem sysGrowAndLink_refused (h : s.os.answer s.os.calls = false) :
    sysGrowAndLink cfg need s
      = .ok null { s with os := { s.os with calls := s.os.calls + 1 } } := growBlock_refused h

theorem calls_sysGrowAndLink (h : sysGrowAndLink cfg need s = .ok p s') :
    s'.os.calls = s.os.calls + 1 := by
  have hgrow : growBlock cfg need (fun c => do
      binPushFront cfg c
      return c) s = .ok p s' := h
  exact calls_growBlock hgrow

end Growth

end SystemProgramming.HeapMgr.Heapmgr2
