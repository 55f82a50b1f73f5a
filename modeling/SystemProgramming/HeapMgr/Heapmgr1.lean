import SystemProgramming.HeapMgr.Common

/-!
# `heapmgr1.c`: one free list, first fit

All free blocks are in one doubly linked list from `s_free_head`, in no particular order.  The
functions are translated statement by statement, with the assertions and the validity checks between
them; loops take their number of iterations from `Cfg.fuel`.  The last lines of `heapmgr_malloc`
repeat the body of its search loop on the grown block, and both are `takeBlock`.
-/

namespace SystemProgramming.HeapMgr.Heapmgr1

open Exec CInt

abbrev Heap1 := Heap ℕ

variable (cfg : Cfg)

/-- `s_free_head` -/
def freeHead : Exec Heap1 ℕ := reads fun s => s.sFree

/-- `s_free_head = p` -/
def setFreeHead (p : ℕ) : Exec Heap1 Unit := modify fun s => { s with sFree := p }

/-! ### `check_heap_validity` -/

/-- The walk over the physical blocks: `none` where the check returns `FALSE`, else the address
where the last block ends. -/
def walkBlocks : ℕ → ℕ → ℕ → Exec Heap1 (Option ℕ)
  | 0, _, _ => timeout
  | fuel + 1, w, expectedEnd => do
    let lo ← heapLo
    let hi ← heapHi
    if ¬ (w ≠ null ∧ w < hi) then return some expectedEnd else
    let valid ← chunkIsValid cfg w lo hi
    if valid = false then return none else
    let h ← cell w
    let w' ← chunkGetAdjacent cfg w lo hi
    walkBlocks fuel w' (ptrAdd w h.span)

/-- The walk over the free list. -/
def walkList : ℕ → ℕ → Exec Heap1 Bool
  | 0, _ => timeout
  | fuel + 1, w => do
    if w = null then return true else
    let lo ← heapLo
    let hi ← heapHi
    let head ← freeHead
    let first ← (if w = head then chunkGetPrevFree cfg w else pure null : Exec Mem ℕ)
    if first ≠ null then return false else
    let status ← chunkGetStatus cfg w
    if status ≠ chunkFree then return false else
    let valid ← chunkIsValid cfg w lo hi
    if valid = false then return false else
    let n ← chunkGetAdjacent cfg w lo hi
    let nStatus ← (if n ≠ null then chunkGetStatus cfg n else pure chunkUsed : Exec Mem ℤ)
    if nStatus = chunkFree then return false else
    let n ← chunkGetNextFree cfg w
    let back ← (if n ≠ null then chunkGetPrevFree cfg n else pure w : Exec Mem ℕ)
    if back ≠ w then return false else
    let n ← chunkGetPrevFree cfg w
    let forth ← (if w ≠ head then chunkGetNextFree cfg n else pure w : Exec Mem ℕ)
    if forth ≠ w then return false else
    let next ← chunkGetNextFree cfg w
    walkList fuel next

def checkHeapValidity : Exec Heap1 Bool := do
  let lo ← heapLo
  let hi ← heapHi
  if lo = null then return false else
  if hi = null then return false else
  let head ← freeHead
  if lo = hi then return decide (head = null) else
  let expectedEnd ← walkBlocks cfg cfg.fuel lo lo
  if expectedEnd ≠ some hi then return false else
  walkList cfg cfg.fuel head

/-! ### Linking, unlinking and merging -/

/-- Unlink `c` from the free list without changing its status. -/
def freelistUnlink (c : ℕ) : Exec Heap1 Unit := do
  let prev ← chunkGetPrevFree cfg c
  let next ← chunkGetNextFree cfg c
  (if prev ≠ null then liftM (chunkSetNextFree cfg prev next)
    else do
      let head ← freeHead
      when (head = c) (setFreeHead next) : Exec Heap1 Unit)
  when (next ≠ null) (chunkSetPrevFree cfg next prev)
  chunkSetPrevFree cfg c null
  chunkSetNextFree cfg c null

/-- The body of `coalesce_two`, once `a` is the lower block. -/
def coalesceOrdered (a b : ℕ) : Exec Heap1 ℕ := do
  let lo ← heapLo
  let hi ← heapHi
  assert cfg.asserts (a ≠ null ∧ b ≠ null ∧ a ≠ b)
  assertM cfg.asserts ((· == chunkFree) <$> chunkGetStatus cfg a)
  assertM cfg.asserts ((· == chunkFree) <$> chunkGetStatus cfg b)
  assertM cfg.asserts ((· == b) <$> chunkGetAdjacent cfg a lo hi)
  assertM cfg.asserts ((· == a) <$> chunkGetPrevAdjacent cfg b lo hi)
  let an ← chunkGetNextFree cfg a
  let bn ← chunkGetNextFree cfg b
  freelistUnlink cfg b
  let aPrev ← chunkGetPrevFree cfg a
  let aSpan ← chunkGetSpanUnits cfg a
  let bSpan ← chunkGetSpanUnits cfg b
  chunkSetSpanUnits cfg a (addInt aSpan bSpan)
  -- when `b` followed `a` in the list, `a` is stitched to what followed `b`
  let an := if an = b then bn else an
  chunkSetNextFree cfg a an
  when (an ≠ null) (chunkSetPrevFree cfg an a)
  (if aPrev = null then do
      chunkSetPrevFree cfg a null
      setFreeHead a
    else liftM (chunkSetPrevFree cfg a aPrev) : Exec Heap1 Unit)
  return a

/-- Merge two physically adjacent free blocks; the lower one keeps its place in the list. -/
def coalesceTwo (a b : ℕ) : Exec Heap1 ℕ :=
  if b < a then coalesceOrdered cfg b a else coalesceOrdered cfg a b

/-- Cut `2 + need_units` units off the end of the free block `c` and mark them used. -/
def splitForAlloc (c needUnits : ℕ) : Exec Heap1 ℕ := do
  let lo ← heapLo
  let hi ← heapHi
  assert cfg.asserts (c ≠ null)
  assert cfg.asserts (toIntptr needUnits ≥ 0)
  let cPrev ← chunkGetPrevFree cfg c
  let oldSpan ← chunkGetSpanUnits cfg c
  let allocSpan := toInt (addSize 2 needUnits)
  let remainSpan := subInt oldSpan allocSpan
  assert cfg.asserts (oldSpan ≥ 2)
  assert cfg.asserts (allocSpan ≥ 2)
  assert cfg.asserts (remainSpan ≥ 2)
  assert cfg.asserts (c ≥ lo ∧ c < hi)
  assertM cfg.asserts ((· == chunkFree) <$> chunkGetStatus cfg c)
  assert cfg.asserts (remainSpan ≥ 2)
  let head ← freeHead
  when (cPrev ≠ null) do
    assertM cfg.asserts ((· == chunkFree) <$> chunkGetStatus cfg cPrev)
    assertM cfg.asserts ((· == c) <$> chunkGetNextFree cfg cPrev)
  when (cPrev = null) (assert cfg.asserts (c = head))
  chunkSetSpanUnits cfg c remainSpan
  assertM cfg.asserts (chunkIsValid cfg c lo hi)
  assertM cfg.asserts ((· == chunkFree) <$> chunkGetStatus cfg c)
  let alloc ← chunkGetAdjacent cfg c lo hi
  assert cfg.asserts (alloc ≠ null)
  assert cfg.asserts (alloc ≥ lo ∧ alloc < hi)
  chunkSetSpanUnits cfg alloc allocSpan
  chunkSetStatus cfg alloc chunkUsed
  chunkSetNextFree cfg alloc null
  chunkSetPrevFree cfg alloc null
  assertM cfg.asserts (chunkIsValid cfg alloc lo hi)
  assertM cfg.asserts ((· == chunkUsed) <$> chunkGetStatus cfg alloc)
  let cSucc ← chunkGetNextFree cfg c
  when (cSucc ≠ null) (assertM cfg.asserts ((· == chunkFree) <$> chunkGetStatus cfg cSucc))
  chunkSetPrevFree cfg c cPrev
  assertM cfg.asserts ((· == alloc) <$> chunkGetAdjacent cfg c lo hi)
  assertM cfg.asserts (chunkIsValid cfg c lo hi)
  assertM cfg.asserts (chunkIsValid cfg alloc lo hi)
  assertM cfg.asserts ((· == chunkFree) <$> chunkGetStatus cfg c)
  assertM cfg.asserts ((· == chunkUsed) <$> chunkGetStatus cfg alloc)
  assertM cfg.asserts (checkHeapValidity cfg)
  return alloc

/-- Merge the upper neighbour, when it is free, into `c`. -/
def mergeNext (c : ℕ) : Exec Heap1 ℕ := do
  let nxt ← chunkGetAdjacent cfg c (← heapLo) (← heapHi)
  if nxt = null then return c else
  let status ← chunkGetStatus cfg nxt
  if status ≠ chunkFree then return c else
  coalesceTwo cfg c nxt

/-- Merge `c` into the lower neighbour, when that is free. -/
def mergePrev (c : ℕ) : Exec Heap1 Unit := do
  let lo ← heapLo
  let hi ← heapHi
  let prv ← chunkGetPrevAdjacent cfg c lo hi
  if prv = null then return () else
  let valid ← chunkIsValid cfg prv lo hi
  if valid = false then return () else
  let adjacent ← chunkGetAdjacent cfg prv lo hi
  if adjacent ≠ c then return () else
  let status ← chunkGetStatus cfg prv
  if status ≠ chunkFree then return () else
  let _ ← chunkGetNextFree cfg c
  freelistUnlink cfg c
  let survivor ← coalesceTwo cfg prv c
  let p ← chunkGetPrevFree cfg survivor
  when (p = null) (setFreeHead survivor)

/-- Mark `c` free, insert it at the head and merge it with its free neighbours. -/
def freelistPushFront (c : ℕ) : Exec Heap1 Unit := do
  let lo ← heapLo
  let hi ← heapHi
  assert cfg.asserts (c ≠ null ∧ lo ≠ null ∧ hi ≠ null)
  assert cfg.asserts (c ≥ lo ∧ c < hi)
  assertM cfg.asserts (chunkIsValid cfg c lo hi)
  assertM cfg.asserts ((fun n => decide (n ≥ 2)) <$> chunkGetSpanUnits cfg c)
  chunkSetStatus cfg c chunkFree
  chunkSetPrevFree cfg c null
  let head ← freeHead
  chunkSetNextFree cfg c head
  when (head ≠ null) (chunkSetPrevFree cfg head c)
  setFreeHead c
  let c ← mergeNext cfg c
  mergePrev cfg c
  let head ← freeHead
  assert cfg.asserts (head ≠ null)
  assertM cfg.asserts ((· == null) <$> chunkGetPrevFree cfg head)
  assertM cfg.asserts (checkHeapValidity cfg)

/-- Unlink `c` and mark it used. -/
def freelistDetach (c : ℕ) : Exec Heap1 Unit := do
  let prev ← chunkGetPrevFree cfg c
  let next ← chunkGetNextFree cfg c
  assertM cfg.asserts ((· == chunkFree) <$> chunkGetStatus cfg c)
  (if prev = null then do
      setFreeHead next
      when (next ≠ null) (chunkSetPrevFree cfg next null)
    else do
      let n ← chunkGetNextFree cfg c
      chunkSetNextFree cfg prev n : Exec Heap1 Unit)
  when (next ≠ null) (chunkSetPrevFree cfg next prev)
  when (prev ≠ null) (assertM cfg.asserts ((· == next) <$> chunkGetNextFree cfg prev))
  when (next ≠ null) (assertM cfg.asserts ((· == prev) <$> chunkGetPrevFree cfg next))
  let head ← freeHead
  when (head ≠ null) (assertM cfg.asserts ((· == null) <$> chunkGetPrevFree cfg head))
  chunkSetNextFree cfg c null
  chunkSetPrevFree cfg c null
  chunkSetStatus cfg c chunkUsed
  assertM cfg.asserts (checkHeapValidity cfg)

/-- Ask the kernel for a block of at least `need_units` payload units, insert it, and return the
address where it was put, merged or not. -/
def sysGrowAndLink (needUnits : ℕ) : Exec Heap1 ℕ := do
  let growData := if needUnits < sysMinAllocUnits then sysMinAllocUnits else needUnits
  let growSpan := addSize 2 growData
  let c ← sbrk (toIntptr (toSize (growSpan * chunkUnit)))
  if c = sbrkFailed then return null else
  let hi ← sbrkZero
  modify fun s => { s with sHeapHi := hi }
  chunkSetSpanUnits cfg c (toInt growSpan)
  chunkSetNextFree cfg c null
  chunkSetPrevFree cfg c null
  chunkSetStatus cfg c chunkFree
  freelistPushFront cfg c
  assertM cfg.asserts (checkHeapValidity cfg)
  return c

/-! ### `heapmgr_malloc` and `heapmgr_free` -/

/-- Allocate from the free block `cur`, which is taken to be large enough. -/
def takeBlock (cur needUnits : ℕ) : Exec Heap1 ℕ := do
  let span ← chunkGetSpanUnits cfg cur
  let cur ← (if toSize span ≥ addSize (addSize 2 needUnits) 2 then splitForAlloc cfg cur needUnits
    else do
      freelistDetach cfg cur
      return cur)
  assertM cfg.asserts (checkHeapValidity cfg)
  return payloadOf cur

/-- First fit from `cur`; `none` when the list ends. -/
def searchList (needUnits : ℕ) : ℕ → ℕ → Exec Heap1 (Option ℕ)
  | 0, _ => timeout
  | fuel + 1, cur => do
    if cur = null then return none else
    let span ← chunkGetSpanUnits cfg cur
    let curPayload := subSize (toSize span) 2
    if curPayload ≥ needUnits then
      let p ← takeBlock cfg cur needUnits
      return some p
    else
      let next ← chunkGetNextFree cfg cur
      searchList needUnits fuel next

def heapmgrMalloc (size : ℕ) : Exec Heap1 ℕ := do
  if size = 0 then return null else
  heapBootstrap
  assertM cfg.asserts (checkHeapValidity cfg)
  let needUnits := bytesToPayloadUnits size
  let head ← freeHead
  let found ← searchList cfg needUnits cfg.fuel head
  match found with
  | some p => return p
  | none =>
    let cur ← sysGrowAndLink cfg needUnits
    if cur = null then
      assertM cfg.asserts (checkHeapValidity cfg)
      return null
    else
    takeBlock cfg cur needUnits

def heapmgrFree (p : ℕ) : Exec Heap1 Unit := do
  let lo ← heapLo
  let hi ← heapHi
  assert cfg.asserts (lo ≠ null ∧ hi ≠ null)
  assert cfg.asserts (p = null ∨ (p ≥ lo ∧ p < hi))
  if p = null then return () else
  assertM cfg.asserts (checkHeapValidity cfg)
  let c := headerFromPayload p
  assert cfg.asserts (c ≠ null)
  assertM cfg.asserts (chunkIsValid cfg c lo hi)
  assertM cfg.asserts ((· == chunkUsed) <$> chunkGetStatus cfg c)
  assertM cfg.asserts do
    let next ← chunkGetNextFree cfg c
    if next ≠ null then return false else
    let prev ← chunkGetPrevFree cfg c
    return prev == null
  freelistPushFront cfg c
  assertM cfg.asserts ((· == chunkFree) <$> chunkGetStatus cfg c)
  assertM cfg.asserts (checkHeapValidity cfg)

end SystemProgramming.HeapMgr.Heapmgr1
