import SystemProgramming.HeapMgr.Common

/-!
# `heapmgrbase.c`: the reference manager

Blocks have a header and no footer, and the free blocks are in one singly linked list in the order of their
addresses, so that a block is merged with its free neighbours where it is inserted.  The functions of `chunkbase.c`
and of `heapmgrbase.c` are translated statement by statement, with their assertions; reading or writing through
`NULL` aborts.  The conversions, the bootstrap and `sbrk` are those of `Common`; diagnostics on `stderr` are left
out.
-/

namespace SystemProgramming.HeapMgr.Base

open Exec CInt

abbrev BaseHeap := Heap ℕ

variable (cfg : Cfg)

/-! ### `chunkbase.c` -/

/-- `*c` -/
def load (c : ℕ) : Exec Mem Cell := fun m => if c = null then .abort else .ok (m c) m

/-- A field of `*c` is written. -/
def store (c : ℕ) (f : Cell → Cell) : Exec Mem Unit := fun m =>
  if c = null then .abort else .ok () (Function.update m c (f (m c)))

def chunkGetStatus (c : ℕ) : Exec Mem ℤ := do
  let h ← load c
  return h.status

def chunkSetStatus (c : ℕ) (status : ℤ) : Exec Mem Unit := store c fun h => { h with lo32 := status }

def chunkGetSpanUnits (c : ℕ) : Exec Mem ℤ := do
  let h ← load c
  return h.span

def chunkSetSpanUnits (c : ℕ) (spanU : ℤ) : Exec Mem Unit := store c fun h => { h with hi32 := spanU }

def chunkGetNextFree (c : ℕ) : Exec Mem ℕ := do
  let h ← load c
  return h.next

def chunkSetNextFree (c n : ℕ) : Exec Mem Unit := store c fun h => { h with link := n }

/-- The block after `c`, or `NULL` when `c` is the last one before `fin`. -/
def chunkGetAdjacent (c start fin : ℕ) : Exec Mem ℕ := do
  assert cfg.asserts (c ≥ start)
  let h ← load c
  let n := ptrAdd c h.span
  if n ≥ fin then return null else
  return n

def chunkIsValid (c start fin : ℕ) : Exec Mem Bool := do
  assert cfg.asserts (c ≠ null)
  assert cfg.asserts (start ≠ null)
  assert cfg.asserts (fin ≠ null)
  if c < start then return false else
  if c ≥ fin then return false else
  let h ← load c
  if h.span ≤ 0 then return false else
  return true

/-! ### `check_heap_validity` -/

/-- `s_free_head` -/
def freeHead : Exec BaseHeap ℕ := reads fun s => s.sFree

/-- `s_free_head = p` -/
def setFreeHead (p : ℕ) : Exec BaseHeap Unit := modify fun s => { s with sFree := p }

/-- The walk over the physical blocks. -/
def walkBlocks : ℕ → ℕ → Exec BaseHeap Bool
  | 0, _ => timeout
  | fuel + 1, w => do
    let lo ← heapLo
    let hi ← heapHi
    if ¬ (w ≠ null ∧ w < hi) then return true else
    let valid ← chunkIsValid cfg w lo hi
    if valid = false then return false else
    let w' ← chunkGetAdjacent cfg w lo hi
    walkBlocks fuel w'

/-- The walk over the free list. -/
def walkList : ℕ → ℕ → Exec BaseHeap Bool
  | 0, _ => timeout
  | fuel + 1, w => do
    if w = null then return true else
    let lo ← heapLo
    let hi ← heapHi
    let status ← chunkGetStatus w
    if status ≠ chunkFree then return false else
    let valid ← chunkIsValid cfg w lo hi
    if valid = false then return false else
    let n ← chunkGetAdjacent cfg w lo hi
    let next ← chunkGetNextFree w
    if n ≠ null ∧ n = next then return false else
    walkList fuel next

def checkHeapValidity : Exec BaseHeap Bool := do
  let lo ← heapLo
  let hi ← heapHi
  if lo = null then return false else
  if hi = null then return false else
  let head ← freeHead
  if lo = hi then return decide (head = null) else
  let valid ← walkBlocks cfg cfg.fuel lo
  if valid = false then return false else
  walkList cfg cfg.fuel head

/-! ### Merging, splitting and the free list -/

/-- Merge the block `b` into the block `a` before it. -/
def coalesceTwo (a b : ℕ) : Exec BaseHeap ℕ := do
  let lo ← heapLo
  let hi ← heapHi
  assert cfg.asserts (a < b)
  assertM cfg.asserts ((· == b) <$> chunkGetAdjacent cfg a lo hi)
  assertM cfg.asserts ((· == chunkFree) <$> chunkGetStatus a)
  assertM cfg.asserts ((· == chunkFree) <$> chunkGetStatus b)
  let aSpan ← chunkGetSpanUnits a
  let bSpan ← chunkGetSpanUnits b
  chunkSetSpanUnits a (addInt aSpan bSpan)
  let next ← chunkGetNextFree b
  chunkSetNextFree a next
  return a

/-- Cut `1 + need_units` units off the end of the free block `c` and mark them used. -/
def splitForAlloc (c needUnits : ℕ) : Exec BaseHeap ℕ := do
  let lo ← heapLo
  let hi ← heapHi
  let oldSpan ← chunkGetSpanUnits c
  let allocSpan := toInt (addSize 1 needUnits)
  let remainSpan := subInt oldSpan allocSpan
  assert cfg.asserts (c ≥ lo ∧ c ≤ hi)
  assertM cfg.asserts ((· == chunkFree) <$> chunkGetStatus c)
  assert cfg.asserts (remainSpan > 0)
  chunkSetSpanUnits c remainSpan
  let alloc ← chunkGetAdjacent cfg c lo hi
  chunkSetSpanUnits alloc allocSpan
  chunkSetStatus alloc chunkUsed
  let next ← chunkGetNextFree c
  chunkSetNextFree alloc next
  return alloc

/-- Insert `c` before all free blocks. -/
def freelistPushFront (c : ℕ) : Exec BaseHeap Unit := do
  assertM cfg.asserts ((fun n => decide (n ≥ 1)) <$> chunkGetSpanUnits c)
  chunkSetStatus c chunkFree
  let head ← freeHead
  if head = null then
    setFreeHead c
    chunkSetNextFree c null
  else
    assert cfg.asserts (c < head)
    chunkSetNextFree c head
    let n ← chunkGetAdjacent cfg c (← heapLo) (← heapHi)
    when (n = head) (do let _ ← coalesceTwo cfg c head; pure ())
    setFreeHead c

/-- The end of `freelist_insert_after`: merge the upper neighbour, when it is free, into `c`. -/
def mergeNext (c : ℕ) : Exec BaseHeap ℕ := do
  let n ← chunkGetAdjacent cfg c (← heapLo) (← heapHi)
  if n = null then return c else
  let status ← chunkGetStatus n
  if status ≠ chunkFree then return c else
  coalesceTwo cfg c n

/-- Insert `c` behind the free block `e`, and return the block that it is then part of. -/
def freelistInsertAfter (e c : ℕ) : Exec BaseHeap ℕ := do
  let lo ← heapLo
  let hi ← heapHi
  assert cfg.asserts (e < c)
  assertM cfg.asserts ((· == chunkFree) <$> chunkGetStatus e)
  assertM cfg.asserts ((· != chunkFree) <$> chunkGetStatus c)
  let next ← chunkGetNextFree e
  chunkSetNextFree c next
  chunkSetNextFree e c
  chunkSetStatus c chunkFree
  let n ← chunkGetAdjacent cfg e lo hi
  let c ← (if n = c then coalesceTwo cfg e c else pure c : Exec BaseHeap ℕ)
  mergeNext cfg c

/-- Take `c` off the free list, where it stands behind `prev` or is the head, and mark it used. -/
def freelistDetach (prev c : ℕ) : Exec BaseHeap Unit := do
  assertM cfg.asserts ((· == chunkFree) <$> chunkGetStatus c)
  let next ← chunkGetNextFree c
  (if prev = null then setFreeHead next else liftM (chunkSetNextFree prev next) : Exec BaseHeap Unit)
  chunkSetNextFree c null
  chunkSetStatus c chunkUsed

/-- Ask the kernel for a block of at least `need_units` payload units and insert it behind `prev`, the last free
block, if there is one. -/
def sysGrowAndLink (prev needUnits : ℕ) : Exec BaseHeap ℕ := do
  let growData := if needUnits < sysMinAllocUnits then sysMinAllocUnits else needUnits
  let growSpan := addSize 1 growData
  let c ← sbrk (toIntptr (toSize (growSpan * chunkUnit)))
  if c = sbrkFailed then return null else
  let hi ← sbrkZero
  modify fun s => { s with sHeapHi := hi }
  chunkSetSpanUnits c (toInt growSpan)
  chunkSetNextFree c null
  chunkSetStatus c chunkUsed
  let head ← freeHead
  let c ← (if head = null then do
      freelistPushFront cfg c
      return c
    else freelistInsertAfter cfg prev c)
  assertM cfg.asserts (checkHeapValidity cfg)
  return c

/-! ### `heapmgr_malloc` and `heapmgr_free` -/

/-- Allocate from the free block `cur` behind `prev`, which is taken to be large enough: the statements are the
same in the search and at the end of `heapmgr_malloc`. -/
def takeBlock (prev cur needUnits : ℕ) : Exec BaseHeap ℕ := do
  let span ← chunkGetSpanUnits cur
  let cur ← (if subSize (toSize span) 1 > needUnits then splitForAlloc cfg cur needUnits
    else do
      freelistDetach cfg prev cur
      return cur)
  assertM cfg.asserts (checkHeapValidity cfg)
  return payloadOf cur

/-- First fit from `cur`, behind `prev` and `prevprev`: the pointer that is returned, or the last two blocks of the
list. -/
def searchList (needUnits : ℕ) : ℕ → ℕ → ℕ → ℕ → Exec BaseHeap (ℕ ⊕ (ℕ × ℕ))
  | 0, _, _, _ => timeout
  | fuel + 1, prevprev, prev, cur => do
    if cur = null then return .inr (prevprev, prev) else
    let span ← chunkGetSpanUnits cur
    let curPayload := subSize (toSize span) 1
    if curPayload ≥ needUnits then
      let p ← takeBlock cfg prev cur needUnits
      return .inl p
    else
      let next ← chunkGetNextFree cur
      searchList needUnits fuel prev cur next

def heapmgrMalloc (size : ℕ) : Exec BaseHeap ℕ := do
  if size = 0 then return null else
  heapBootstrap
  assertM cfg.asserts (checkHeapValidity cfg)
  let needUnits := bytesToPayloadUnits size
  let head ← freeHead
  let found ← searchList cfg needUnits cfg.fuel null null head
  match found with
  | .inl p => return p
  | .inr (prevprev, prev) =>
    let cur ← sysGrowAndLink cfg prev needUnits
    if cur = null then
      assertM cfg.asserts (checkHeapValidity cfg)
      return null
    else
    -- the new block may have been merged into `prev`
    let prev := if cur = prev then prevprev else prev
    takeBlock cfg prev cur needUnits

/-- The last free block from `it` on that lies before `c`, or `prev`. -/
def findPrev (c : ℕ) : ℕ → ℕ → ℕ → Exec BaseHeap ℕ
  | 0, _, _ => timeout
  | fuel + 1, prev, it => do
    if it = null then return prev else
    if c < it then return prev else
    let next ← chunkGetNextFree it
    findPrev c fuel it next

def heapmgrFree (p : ℕ) : Exec BaseHeap Unit := do
  if p = null then return () else
  assertM cfg.asserts (checkHeapValidity cfg)
  let c := headerFromPayload p
  assertM cfg.asserts ((· != chunkFree) <$> chunkGetStatus c)
  let head ← freeHead
  let prev ← findPrev c cfg.fuel null head
  (if prev = null then freelistPushFront cfg c
    else do
      let _ ← freelistInsertAfter cfg prev c
      return ())
  assertM cfg.asserts (checkHeapValidity cfg)

end SystemProgramming.HeapMgr.Base
