import SystemProgramming.HeapMgr.Base

/-!
# `heapmgrkr.c`: the manager with a circular free list

The free blocks are linked in a circle in the order of their addresses.  The circle also runs through `base`, a
header of size zero among the globals, and `freep` points to the block where the last search has ended; the next one
begins behind it.  The functions are translated statement by statement, with their conversions between `size_t`,
`unsigned` and `int`; reading or writing through `NULL` aborts.  Of a unit that holds a header, `ptr` is the field
`link` and `size` the field `hi32`.  `freep` is `sFree`; the other globals of `Heap` do not occur in this file.
-/

namespace SystemProgramming.HeapMgr.Kr

open Exec CInt
open Base (load store)

abbrev KrHeap := Heap ℕ

/-- `sizeof(Header)` -/
def headerSize : ℕ := 16

/-- `NALLOC` -/
def nalloc : ℕ := 1024

/-! ### Headers -/

/-- `p->ptr` -/
def getPtr (p : ℕ) : Exec Mem ℕ := do
  let h ← load p
  return h.link

/-- `p->size` -/
def getSize (p : ℕ) : Exec Mem ℕ := do
  let h ← load p
  return toUnsigned h.hi32

/-- `p->ptr = n` -/
def setPtr (p n : ℕ) : Exec Mem Unit := store p fun h => { h with link := n }

/-- `p->size = n` -/
def setSize (p n : ℕ) : Exec Mem Unit := store p fun h => { h with hi32 := n }

/-- `freep` -/
def freep : Exec KrHeap ℕ := reads fun s => s.sFree

/-- `freep = p` -/
def setFreep (p : ℕ) : Exec KrHeap Unit := modify fun s => { s with sFree := p }

/-! ### `heapmgr_free` -/

/-- The loop of `heapmgr_free`: the block behind which `bp` belongs. -/
def findPlace (bp : ℕ) : ℕ → ℕ → Exec Mem ℕ
  | 0, _ => timeout
  | fuel + 1, p => do
    let ptr ← getPtr p
    if bp > p ∧ bp < ptr then return p else
    -- freed block at start or end of arena
    if p ≥ ptr ∧ (bp > p ∨ bp < ptr) then return p else
    findPlace bp fuel ptr

/-- `bp` takes the place behind `p`, and is joined to its upper neighbour. -/
def joinUpper (bp p : ℕ) : Exec Mem Unit := do
  let size ← getSize bp
  let ptr ← getPtr p
  if ptrAdd bp size = ptr then
    let upper ← getSize ptr
    setSize bp (addUnsigned size upper)
    let ptr ← getPtr p
    let next ← getPtr ptr
    setPtr bp next
  else
    setPtr bp ptr

/-- `bp` is joined to its lower neighbour `p`, or linked in behind it. -/
def joinLower (bp p : ℕ) : Exec Mem Unit := do
  let size ← getSize p
  if ptrAdd p size = bp then
    let upper ← getSize bp
    setSize p (addUnsigned size upper)
    let next ← getPtr bp
    setPtr p next
  else
    setPtr p bp

variable (fuel base : ℕ)

def heapmgrFree (ap : ℕ) : Exec KrHeap Unit := do
  let bp := ptrAdd ap (-1)
  let p ← findPlace bp fuel (← freep)
  joinUpper bp p
  joinLower bp p
  setFreep p

/-! ### `heapmgr_malloc` -/

/-- `morecore`.  The number of bytes becomes an `int` when it is passed to `sbrk`. -/
def morecore (nu : ℕ) : Exec KrHeap ℕ := do
  let nu := if nu < nalloc then nalloc else nu
  let cp ← sbrk (toInt (toSize (nu * headerSize)))
  if cp = sbrkFailed then return null else
  setSize cp nu
  heapmgrFree fuel (ptrAdd cp 1)
  freep

/-- Allocate the block `p` exactly, or its tail end; `prevp` is the block before it. -/
def allocate (nunits prevp p : ℕ) : Exec Mem ℕ := do
  let size ← getSize p
  if size = nunits then
    let next ← getPtr p
    setPtr prevp next
    return p
  else
    setSize p (subUnsigned size nunits)
    let size ← getSize p
    let p := ptrAdd p size
    setSize p nunits
    return p

/-- The block `p` is big enough. -/
def takeBlock (nunits prevp p : ℕ) : Exec KrHeap ℕ := do
  let p ← allocate nunits prevp p
  setFreep prevp
  return ptrAdd p 1

/-- The loop of `heapmgr_malloc`. -/
def searchLoop (nunits : ℕ) : ℕ → ℕ → ℕ → Exec KrHeap ℕ
  | 0, _, _ => timeout
  | k + 1, prevp, p => do
    let size ← getSize p
    if size ≥ nunits then takeBlock nunits prevp p else
    if p = (← freep) then do
      -- wrapped around free list
      let p ← morecore fuel nunits
      if p = null then return null else
      let next ← getPtr p
      searchLoop nunits k p next
    else do
      let next ← getPtr p
      searchLoop nunits k p next

/-- The number of headers that `nbytes` and the header of the block take. -/
def unitsFor (nbytes : ℕ) : ℕ := toUnsigned (addSize (subSize (addSize nbytes headerSize) 1 / headerSize) 1)

/-- `prevp = freep`, and the empty list when there is no free list yet. -/
def startList : Exec KrHeap ℕ := do
  let prevp ← freep
  if prevp ≠ null then return prevp else
  setFreep base
  setPtr base base
  setSize base 0
  return base

def heapmgrMalloc (nbytes : ℕ) : Exec KrHeap ℕ := do
  let nunits := unitsFor nbytes
  let prevp ← startList base
  let p ← getPtr prevp
  searchLoop fuel nunits fuel prevp p

end SystemProgramming.HeapMgr.Kr
