import SystemProgramming.HeapMgr.Common
import Mathlib.Algebra.GroupWithZero.Nat
import Mathlib.Data.Fintype.Basic

/-!
# `heapmgr2.c`: ten segregated free lists

The free blocks are kept in ten doubly linked lists by size class.  Every function is translated
statement by statement; the loops take their number of iterations from `Cfg.fuel` and end in
`timeout` when it does not suffice.  The two search loops of `heapmgr_malloc` have the same body and
differ in the bin they start at; they are `searchBins`, whose body is `searchBin` and, where a block
fits, `takeBlock`.
-/

namespace SystemProgramming.HeapMgr.Heapmgr2

open Exec CInt

abbrev numBins : ℕ := 10

instance : NeZero numBins := ⟨by decide⟩

/-- `s_bins`. -/
abbrev Bins := Fin numBins → ℕ

abbrev Heap2 := Heap Bins

variable (cfg : Cfg)

def getBinIndex (spanUnits : ℤ) : Fin numBins :=
  if spanUnits < 8 then 0
  else if spanUnits < 16 then 1
  else if spanUnits < 32 then 2
  else if spanUnits < 64 then 3
  else if spanUnits < 128 then 4
  else if spanUnits < 256 then 5
  else if spanUnits < 512 then 6
  else if spanUnits < 1024 then 7
  else if spanUnits < 2048 then 8
  else 9

/-- `s_bins[i]` -/
def getBin (i : Fin numBins) : Exec Heap2 ℕ := reads fun s => s.sFree i

/-- `s_bins[i] = p` -/
def setBin (i : Fin numBins) (p : ℕ) : Exec Heap2 Unit :=
  modify fun s => { s with sFree := Function.update s.sFree i p }

/-- The indices `i, i + 1, …, NUM_BINS - 1` of a `for` loop over the bins. -/
def binsFrom (i : Fin numBins) : List (Fin numBins) := (List.finRange numBins).drop i

/-! ### `check_heap_validity` -/

/-- The inner loop of `count_bin_exist`: how often `c` stands in the list from `w`. -/
def countInBin (c : ℕ) : ℕ → ℕ → ℤ → Exec Heap2 ℤ
  | 0, _, _ => timeout
  | fuel + 1, w, count => do
    if w = null then return count else
    let w' ← chunkGetNextFree cfg w
    countInBin c fuel w' (if w = c then count + 1 else count)

def countInBins (c : ℕ) : List (Fin numBins) → ℤ → Exec Heap2 ℤ
  | [], count => return count
  | i :: is, count => do
    let head ← getBin i
    let count' ← countInBin cfg c cfg.fuel head count
    countInBins c is count'

def countBinExist (c : ℕ) : Exec Heap2 ℤ := countInBins cfg c (List.finRange numBins) 0

/-- The walk over the physical blocks: `none` where the check returns `FALSE`, else the address
where the last block ends. -/
def walkBlocks : ℕ → ℕ → ℕ → Exec Heap2 (Option ℕ)
  | 0, _, _ => timeout
  | fuel + 1, w, expectedEnd => do
    let lo ← heapLo
    let hi ← heapHi
    if ¬ (w ≠ null ∧ w < hi) then return some expectedEnd else
    let valid ← chunkIsValid cfg w lo hi
    if valid = false then return none else
    let status ← chunkGetStatus cfg w
    let count ← (if status = chunkFree then countBinExist cfg w else pure 1)
    if count < 1 then return none else
    if count > 1 then return none else
    let span ← chunkGetSpanUnits cfg w
    let w' ← chunkGetAdjacent cfg w lo hi
    walkBlocks fuel w' (ptrAdd w span)

/-- The walk over bin `i`. -/
def walkBin (i : Fin numBins) (head : ℕ) : ℕ → ℕ → Exec Heap2 Bool
  | 0, _ => timeout
  | fuel + 1, w => do
    if w = null then return true else
    let lo ← heapLo
    let hi ← heapHi
    let status ← chunkGetStatus cfg w
    if status ≠ chunkFree then return false else
    let valid ← chunkIsValid cfg w lo hi
    if valid = false then return false else
    let span ← chunkGetSpanUnits cfg w
    if getBinIndex span ≠ i then return false else
    let n ← chunkGetAdjacent cfg w lo hi
    let nStatus ← (if n ≠ null then chunkGetStatus cfg n else pure chunkUsed : Exec Mem ℤ)
    if nStatus = chunkFree then return false else
    let n ← chunkGetNextFree cfg w
    let back ← (if n ≠ null then chunkGetPrevFree cfg n else pure w : Exec Mem ℕ)
    if back ≠ w then return false else
    let n ← chunkGetPrevFree cfg w
    let forth ← (if n ≠ null then chunkGetNextFree cfg n else pure w : Exec Mem ℕ)
    if n = null ∧ w ≠ head then return false else
    if forth ≠ w then return false else
    let next ← chunkGetNextFree cfg w
    walkBin i head fuel next

def walkBins : List (Fin numBins) → Exec Heap2 Bool
  | [] => return true
  | i :: is => do
    let head ← getBin i
    let prev ← (if head ≠ null then chunkGetPrevFree cfg head else pure null : Exec Mem ℕ)
    if prev ≠ null then return false else
    let ok ← walkBin cfg i head cfg.fuel head
    if ok = false then return false else
    walkBins is

def checkHeapValidity : Exec Heap2 Bool := do
  let lo ← heapLo
  let hi ← heapHi
  if lo = null then return false else
  if hi = null then return false else
  if lo = hi then
    let bins ← reads fun s => s.sFree
    return decide (∀ i, bins i = null)
  else
  let expectedEnd ← walkBlocks cfg cfg.fuel lo lo
  if expectedEnd ≠ some hi then return false else
  walkBins cfg (List.finRange numBins)

/-! ### Splitting, linking and merging -/

/-- Cut `2 + need_units` units off the end of the free block `c` and mark them used. -/
def splitForAlloc (c needUnits : ℕ) : Exec Heap2 ℕ := do
  let lo ← heapLo
  let hi ← heapHi
  assert cfg.asserts (c ≠ null)
  let cPrev ← chunkGetPrevFree cfg c
  let oldSpan ← chunkGetSpanUnits cfg c
  let allocSpan := toInt (addSize 2 needUnits)
  let remainSpan := subInt oldSpan allocSpan
  assert cfg.asserts (oldSpan ≥ 2)
  assert cfg.asserts (allocSpan ≥ 2)
  assert cfg.asserts (remainSpan ≥ 2)
  assert cfg.asserts (c ≥ lo ∧ c < hi)
  assertM cfg.asserts ((· == chunkFree) <$> chunkGetStatus cfg c)
  when (cPrev ≠ null) do
    assertM cfg.asserts ((· == chunkFree) <$> chunkGetStatus cfg cPrev)
    assertM cfg.asserts ((· == c) <$> chunkGetNextFree cfg cPrev)
  chunkSetSpanUnits cfg c remainSpan
  assertM cfg.asserts (chunkIsValid cfg c lo hi)
  let alloc ← chunkGetAdjacent cfg c lo hi
  assert cfg.asserts (alloc ≠ null)
  assert cfg.asserts (alloc ≥ lo ∧ alloc < hi)
  chunkSetSpanUnits cfg alloc allocSpan
  chunkSetStatus cfg alloc chunkUsed
  chunkSetNextFree cfg alloc null
  chunkSetPrevFree cfg alloc null
  chunkSetPrevFree cfg c cPrev
  assertM cfg.asserts ((· == alloc) <$> chunkGetAdjacent cfg c lo hi)
  assertM cfg.asserts (chunkIsValid cfg c lo hi)
  assertM cfg.asserts (chunkIsValid cfg alloc lo hi)
  return alloc

/-- Unlink `c` from its bin. -/
def binDetach (c : ℕ) : Exec Heap2 Unit := do
  assert cfg.asserts (c ≠ null)
  assertM cfg.asserts ((· == chunkFree) <$> chunkGetStatus cfg c)
  let prev ← chunkGetPrevFree cfg c
  let next ← chunkGetNextFree cfg c
  let span ← chunkGetSpanUnits cfg c
  let binIndex := getBinIndex span
  if prev = null then
    let head ← getBin binIndex
    assert cfg.asserts (head = c)
    setBin binIndex next
    when (next ≠ null) (chunkSetPrevFree cfg next null)
  else
    chunkSetNextFree cfg prev next
    when (next ≠ null) (chunkSetPrevFree cfg next prev)
  chunkSetNextFree cfg c null
  chunkSetPrevFree cfg c null

/-- Merge two physically adjacent free blocks that are in no bin. -/
def coalesceTwo (x y : ℕ) : Exec Heap2 ℕ := do
  let lo ← heapLo
  let hi ← heapHi
  let a := if y < x then y else x
  let b := if y < x then x else y
  assert cfg.asserts (a ≠ null ∧ b ≠ null ∧ a ≠ b)
  assertM cfg.asserts ((· == chunkFree) <$> chunkGetStatus cfg a)
  assertM cfg.asserts ((· == chunkFree) <$> chunkGetStatus cfg b)
  assertM cfg.asserts ((· == b) <$> chunkGetAdjacent cfg a lo hi)
  assertM cfg.asserts ((· == a) <$> chunkGetPrevAdjacent cfg b lo hi)
  let aSpan ← chunkGetSpanUnits cfg a
  let bSpan ← chunkGetSpanUnits cfg b
  chunkSetSpanUnits cfg a (addInt aSpan bSpan)
  chunkSetPrevFree cfg a null
  chunkSetNextFree cfg a null
  return a

/-- The upper neighbour, when it is free, is taken out of its bin and merged into `c`. -/
def mergeNext (c : ℕ) : Exec Heap2 ℕ := do
  let next ← chunkGetAdjacent cfg c (← heapLo) (← heapHi)
  if next = null then return c else
  let status ← chunkGetStatus cfg next
  if status ≠ chunkFree then return c else
  binDetach cfg next
  coalesceTwo cfg c next

/-- The lower neighbour, when it is free, is taken out of its bin and `c` is merged into it. -/
def mergePrev (c : ℕ) : Exec Heap2 ℕ := do
  let lo ← heapLo
  let hi ← heapHi
  let prev ← chunkGetPrevAdjacent cfg c lo hi
  if prev = null then return c else
  let valid ← chunkIsValid cfg prev lo hi
  if valid = false then return c else
  let adjacent ← chunkGetAdjacent cfg prev lo hi
  if adjacent ≠ c then return c else
  let status ← chunkGetStatus cfg prev
  if status ≠ chunkFree then return c else
  binDetach cfg prev
  coalesceTwo cfg prev c

/-- Link `c` in front of the bin of its span. -/
def binLinkFront (c : ℕ) : Exec Heap2 Unit := do
  let span ← chunkGetSpanUnits cfg c
  let binIndex := getBinIndex span
  chunkSetPrevFree cfg c null
  let head ← getBin binIndex
  chunkSetNextFree cfg c head
  when (head ≠ null) (chunkSetPrevFree cfg head c)
  setBin binIndex c
  let head ← getBin binIndex
  assertM cfg.asserts ((· == null) <$> chunkGetPrevFree cfg head)

/-- Mark `c` free, merge it with its free neighbours and link the result into its bin. -/
def binPushFront (c : ℕ) : Exec Heap2 Unit := do
  let lo ← heapLo
  let hi ← heapHi
  assert cfg.asserts (c ≠ null)
  assert cfg.asserts (c ≥ lo ∧ c < hi)
  assertM cfg.asserts (chunkIsValid cfg c lo hi)
  chunkSetStatus cfg c chunkFree
  chunkSetPrevFree cfg c null
  chunkSetNextFree cfg c null
  let c ← mergeNext cfg c
  let c ← mergePrev cfg c
  binLinkFront cfg c

/-- Ask the kernel for a block of at least `need_units` payload units and insert it. -/
def sysGrowAndLink (needUnits : ℕ) : Exec Heap2 ℕ := do
  let growData := if needUnits < sysMinAllocUnits then sysMinAllocUnits else needUnits
  let growSpan := addSize 2 growData
  let c ← sbrk (toIntptr (toSize (growSpan * chunkUnit)))
  if c = sbrkFailed then return null else
  let hi ← sbrkZero
  modify fun s => { s with sHeapHi := hi }
  chunkSetSpanUnits cfg c (toInt growSpan)
  chunkSetNextFree cfg c null
  chunkSetPrevFree cfg c null
  chunkSetStatus cfg c chunkFree
  binPushFront cfg c
  return c

/-! ### `heapmgr_malloc` and `heapmgr_free` -/

/-- Allocate from the free block `cur`, which is large enough: the body of the search loops. -/
def takeBlock (cur needUnits : ℕ) : Exec Heap2 ℕ := do
  binDetach cfg cur
  let span ← chunkGetSpanUnits cfg cur
  if toSize span ≥ addSize (addSize 2 needUnits) 2 then
    let alloc ← splitForAlloc cfg cur needUnits
    binPushFront cfg cur
    assertM cfg.asserts (checkHeapValidity cfg)
    return payloadOf alloc
  else
    chunkSetStatus cfg cur chunkUsed
    assertM cfg.asserts (checkHeapValidity cfg)
    return payloadOf cur

/-- First fit in the list from `cur`; `none` when the list ends. -/
def searchBin (needUnits : ℕ) : ℕ → ℕ → Exec Heap2 (Option ℕ)
  | 0, _ => timeout
  | fuel + 1, cur => do
    if cur = null then return none else
    let span ← chunkGetSpanUnits cfg cur
    let curPayload := subSize (toSize span) 2
    if curPayload ≥ needUnits then
      let p ← takeBlock cfg cur needUnits
      return some p
    else
      let next ← chunkGetNextFree cfg cur
      searchBin needUnits fuel next

def searchBins (needUnits : ℕ) : List (Fin numBins) → Exec Heap2 (Option ℕ)
  | [] => return none
  | i :: is => do
    let head ← getBin i
    let found ← searchBin cfg needUnits cfg.fuel head
    match found with
    | some p => return some p
    | none => searchBins needUnits is

def heapmgrMalloc (size : ℕ) : Exec Heap2 ℕ := do
  if size = 0 then return null else
  heapBootstrap
  assertM cfg.asserts (checkHeapValidity cfg)
  let needUnits := bytesToPayloadUnits size
  let found ← searchBins cfg needUnits (binsFrom (getBinIndex (addInt 2 (toInt needUnits))))
  match found with
  | some p => return p
  | none =>
    let cur ← sysGrowAndLink cfg needUnits
    if cur = null then
      assertM cfg.asserts (checkHeapValidity cfg)
      return null
    else
    -- find the grown block in its bin; it may have merged with the block below it
    let growData := if needUnits < sysMinAllocUnits then sysMinAllocUnits else needUnits
    let found ← searchBins cfg needUnits (binsFrom (getBinIndex (toInt (addSize 2 growData))))
    match found with
    | some p => return p
    | none =>
      assert cfg.asserts False
      return null

def heapmgrFree (p : ℕ) : Exec Heap2 Unit := do
  let lo ← heapLo
  let hi ← heapHi
  assert cfg.asserts (lo ≠ null ∧ hi ≠ null)
  assert cfg.asserts (p = null ∨ (p ≥ lo ∧ p < hi))
  if p = null then return () else
  assertM cfg.asserts (checkHeapValidity cfg)
  let c := headerFromPayload p
  assert cfg.asserts (c ≠ null)
  assertM cfg.asserts (chunkIsValid cfg c lo hi)
  assertM cfg.asserts ((· == chunkUsed) <$> chunkGetStatus cfg c)
  assertM cfg.asserts do
    let next ← chunkGetNextFree cfg c
    if next ≠ null then return false else
    let prev ← chunkGetPrevFree cfg c
    return prev == null
  binPushFront cfg c
  assertM cfg.asserts ((· == chunkFree) <$> chunkGetStatus cfg c)
  assertM cfg.asserts (checkHeapValidity cfg)

end SystemProgramming.HeapMgr.Heapmgr2
