import SystemProgramming.Lib.Exec
import SystemProgramming.Lib.CInt
import Mathlib.Logic.Function.Basic

/-!
# `chunk.c`: boundary tags in a byte-addressed heap

A block is a run of 16-byte units: a header, the payload and a footer.  Memory is a function from
unit addresses to units.  The heap manager computes addresses only as `s_heap_lo` plus a multiple
of `CHUNK_UNIT`, so a pointer is modelled by its unit number (its byte address divided by 16; the
remainder is the same for all of them), `NULL` being unit number `0`, and pointer arithmetic wraps
at `2^60` units, which is `2^64` bytes.

A unit is two `int`s and a pointer, read either as `struct ChunkHeader` (status, span, next) or as
`struct ChunkFooter` (span, padding, prev).  Every setter and getter of `chunk.c` is translated with
its assertions; `Cfg.asserts` tells whether they are compiled in.  Diagnostics on `stderr` are left
out.
-/

namespace SystemProgramming.HeapMgr

open Exec CInt

/-- The `NULL` pointer; pointers are unit numbers. -/
def null : ℕ := 0

def chunkFree : ℤ := 0

def chunkUsed : ℤ := 1

def chunkUnit : ℕ := 16

/-- One 16-byte unit of memory: two `int`s and a pointer. -/
structure Cell where
  lo32 : ℤ
  hi32 : ℤ
  link : ℕ
  deriving DecidableEq

namespace Cell

/-- The unit read as `struct ChunkHeader`. -/
abbrev status (u : Cell) : ℤ := u.lo32

abbrev span (u : Cell) : ℤ := u.hi32

abbrev next (u : Cell) : ℕ := u.link

/-- The unit read as `struct ChunkFooter`. -/
abbrev footSpan (u : Cell) : ℤ := u.lo32

abbrev prev (u : Cell) : ℕ := u.link

end Cell

abbrev Mem := ℕ → Cell

/-- How the program is built and evaluated: whether assertions are compiled in, and how many
iterations a loop may take before the evaluation gives up. -/
structure Cfg where
  asserts : Bool
  fuel : ℕ

variable (cfg : Cfg)

/-- `p + n * CHUNK_UNIT` for a byte pointer `p`. -/
def ptrAdd (p : ℕ) (n : ℤ) : ℕ := ((p + n) % 2 ^ 60).toNat

/-- The unit at an address. -/
def cell (p : ℕ) : Exec Mem Cell := reads fun m => m p

/-- Write to the unit at an address. -/
def setCell (p : ℕ) (f : Cell → Cell) : Exec Mem Unit :=
  modify fun m => Function.update m p (f (m p))

/-! ### Getters and setters -/

def chunkGetStatus (c : ℕ) : Exec Mem ℤ := do
  assert cfg.asserts (c ≠ null)
  let h ← cell c
  return h.status

def chunkSetStatus (c : ℕ) (status : ℤ) : Exec Mem Unit := do
  assert cfg.asserts (c ≠ null)
  assert cfg.asserts (status = chunkFree ∨ status = chunkUsed)
  setCell c fun h => { h with lo32 := status }

def chunkGetSpanUnits (c : ℕ) : Exec Mem ℤ := do
  assert cfg.asserts (c ≠ null)
  let h ← cell c
  assert cfg.asserts (h.span ≥ 2)
  return h.span

def getFooterFromHeader (h : ℕ) : Exec Mem ℕ := do
  assert cfg.asserts (h ≠ null)
  let hd ← cell h
  assert cfg.asserts (hd.span ≥ 2)
  return ptrAdd h (subInt hd.span 1)

def getHeaderFromFooter (f : ℕ) : Exec Mem ℕ := do
  assert cfg.asserts (f ≠ null)
  let ft ← cell f
  assert cfg.asserts (ft.footSpan ≥ 2)
  return ptrAdd f (-subInt ft.footSpan 1)

def chunkSetSpanUnits (c : ℕ) (spanU : ℤ) : Exec Mem Unit := do
  assert cfg.asserts (c ≠ null)
  assert cfg.asserts (spanU ≥ 2)
  setCell c fun h => { h with hi32 := spanU }
  let f ← getFooterFromHeader cfg c
  setCell f fun ft => { ft with lo32 := spanU }

def chunkGetNextFree (c : ℕ) : Exec Mem ℕ := do
  assert cfg.asserts (c ≠ null)
  let h ← cell c
  if h.next = null then return null else
  let n ← cell h.next
  assert cfg.asserts (h.next ≠ null)
  assert cfg.asserts (n.status = chunkFree)
  return h.next

def chunkGetPrevFree (c : ℕ) : Exec Mem ℕ := do
  assert cfg.asserts (c ≠ null)
  let h ← cell c
  assert cfg.asserts (h.span ≥ 2)
  let f ← getFooterFromHeader cfg c
  let ft ← cell f
  if ft.prev = null then return null else
  let p ← cell ft.prev
  assert cfg.asserts (p.status = chunkFree)
  return ft.prev

def chunkSetNextFree (c n : ℕ) : Exec Mem Unit := do
  assert cfg.asserts (c ≠ null)
  if n = null then setCell c fun h => { h with link := null } else
  let nh ← cell n
  assert cfg.asserts (nh.status = chunkFree)
  setCell c fun h => { h with link := n }

def chunkSetPrevFree (c p : ℕ) : Exec Mem Unit := do
  assert cfg.asserts (c ≠ null)
  let h ← cell c
  assert cfg.asserts (h.span ≥ 2)
  let f ← getFooterFromHeader cfg c
  if p = null then setCell f fun ft => { ft with link := null } else
  let ph ← cell p
  assert cfg.asserts (ph.status = chunkFree)
  setCell f fun ft => { ft with link := p }

/-! ### Physical neighbours -/

/-- The block after `c`, or `NULL` when `c` is the last one before `fin`. -/
def chunkGetAdjacent (c start fin : ℕ) : Exec Mem ℕ := do
  assert cfg.asserts (c ≠ null)
  assert cfg.asserts (start ≠ null)
  assert cfg.asserts (fin ≠ null)
  assert cfg.asserts (c ≥ start)
  let h ← cell c
  assert cfg.asserts (h.span ≥ 2)
  let next := ptrAdd c h.span
  if next ≥ fin then return null else
  return next

/-- `(char *)p - (char *)start`, for `p` not below `start`. -/
def byteOffset (p start : ℕ) : ℕ := chunkUnit * (p - start)

/-- Whether `c` is a block header inside `[start, fin)` whose footer agrees with it. -/
def chunkIsValid (c start fin : ℕ) : Exec Mem Bool := do
  assert cfg.asserts (c ≠ null)
  assert cfg.asserts (start ≠ null)
  assert cfg.asserts (fin ≠ null)
  let h ← cell c
  if h.span < 2 then return false else
  if start > fin then return false else
  if c < start then return false else
  if c ≥ fin then return false else
  if h.status ≠ chunkFree ∧ h.status ≠ chunkUsed then return false else
  let f ← getFooterFromHeader cfg c
  let ft ← cell f
  if f < start then return false else
  if f ≥ fin then return false else
  if byteOffset c start % chunkUnit ≠ 0 then return false else
  if byteOffset f start % chunkUnit ≠ 0 then return false else
  if h.span ≤ 0 ∨ ft.footSpan ≤ 0 then return false else
  if h.span < 2 ∨ ft.footSpan < 2 then return false else
  if h.span ≠ ft.footSpan then return false else
  if ptrAdd c h.span > fin then return false else
  return true

/-- The block before `c`, found through the footer that ends just below `c`. -/
def chunkGetPrevAdjacent (c start fin : ℕ) : Exec Mem ℕ := do
  assert cfg.asserts (c ≠ null)
  assert cfg.asserts (start ≠ null)
  assert cfg.asserts (fin ≠ null)
  assert cfg.asserts (c < fin)
  if c ≤ start then return null else
  let prevFooter := ptrAdd c (-1)
  assert cfg.asserts (prevFooter ≠ null)
  if prevFooter < start then return null else
  let ft ← cell prevFooter
  assert cfg.asserts (ft.footSpan ≥ 2)
  let p ← getHeaderFromFooter cfg prevFooter
  assertM cfg.asserts (chunkIsValid cfg p start fin)
  if p < start then return null else
  return p

end SystemProgramming.HeapMgr
