import SystemProgramming.HeapMgr.Client
import SystemProgramming.Lib.Loops

/-!
# `testheapmgr.c`: the test driver

The driver allocates chunks in an order that depends on the test, fills each one with a digit, looks whether the
digit is still there, and frees them.  The tests are translated over any heap manager; `rand` returns the values of a
given sequence, and `ASSURE` notes the line at which it fails.  Where the driver is built with `NDEBUG`, the chunks
are neither filled nor checked.  The command line, the clock and the report on `stdout` are left out.
-/

namespace SystemProgramming.HeapMgr.TestDriver

open Exec

/-- How the 16 bytes of a unit show in its fields, which depends on the compiler. -/
structure Bytes where
  get : Cell → ℕ → UInt8
  set : Cell → ℕ → UInt8 → Cell
  get_set : ∀ u k c j, k < 16 → j < 16 → get (set u k c) j = if j = k then c else get u j

/-- The driver with the manager that it is linked with. -/
structure Program (F : Type) where
  mgr : Manager F
  bytes : Bytes
  ndebug : Bool

/-- The heap, the globals of the driver, the values that `rand` returns with the number of calls so far, and the
lines at which `ASSURE` has failed. -/
structure State (F : Type) where
  heap : Heap F
  apcChunks : ℕ → ℕ
  aiSizes : ℕ → ℕ
  rands : ℕ → ℕ
  drawn : ℕ
  failed : List ℕ

variable {F : Type} (prog : Program F)

/-! ### What the tests call -/

def heapmgrMalloc (size : ℕ) : Exec (State F) ℕ :=
  zoom State.heap (fun d heap => { d with heap := heap }) (prog.mgr.malloc size)

def heapmgrFree (p : ℕ) : Exec (State F) Unit :=
  zoom State.heap (fun d heap => { d with heap := heap }) (prog.mgr.free p)

/-- `apc_chunks[i]` -/
def chunk (i : ℕ) : Exec (State F) ℕ := reads fun d => d.apcChunks i

/-- `apc_chunks[i] = p` -/
def setChunk (i p : ℕ) : Exec (State F) Unit := modify fun d => { d with apcChunks := Function.update d.apcChunks i p }

def rand : Exec (State F) ℕ := fun d => .ok (d.rands d.drawn) { d with drawn := d.drawn + 1 }

/-- `ASSURE(p)` at `line` -/
def assure (line : ℕ) (p : Prop) [Decidable p] : Exec (State F) Unit :=
  when (¬ p) (modify fun d => { d with failed := d.failed ++ [line] })

/-- `p[col]` -/
def load (p col : ℕ) : Exec (State F) UInt8 := fun d =>
  if p = null then .abort else .ok (prog.bytes.get (d.heap.mem (p + col / 16)) (col % 16)) d

/-- The heap after `p[col] = c`. -/
def stored (heap : Heap F) (p col : ℕ) (c : UInt8) : Heap F :=
  let v := prog.bytes.set (heap.mem (p + col / 16)) (col % 16) c
  { heap with mem := Function.update heap.mem (p + col / 16) v }

/-- `p[col] = c` -/
def store (p col : ℕ) (c : UInt8) : Exec (State F) Unit := fun d =>
  if p = null then .abort else .ok () { d with heap := stored prog d.heap p col c }

/-- `(char)((i % 10) + '0')` -/
def digit (i : ℕ) : UInt8 := UInt8.ofNat (i % 10 + 48)

/-! ### One chunk

`sizes` says which size a test takes for the chunk `i`, given the contents of `ai_sizes`. -/

variable (sizes : (ℕ → ℕ) → ℕ → ℕ)

/-- Every chunk has the size that was given. -/
def fixed (iSize : ℕ) : (ℕ → ℕ) → ℕ → ℕ := fun _ _ => iSize

/-- The chunk `i` has the size `ai_sizes[i]`. -/
def drawnSize : (ℕ → ℕ) → ℕ → ℕ := fun aiSizes i => aiSizes i

def fillChunk (i : ℕ) : Exec (State F) Unit := when (prog.ndebug = false) do
  let n ← reads fun d => sizes d.aiSizes i
  forUp (fun col => do
    let p ← chunk i
    store prog p col (digit i)) n

def checkChunk (line i : ℕ) : Exec (State F) Unit := when (prog.ndebug = false) do
  let n ← reads fun d => sizes d.aiSizes i
  forUp (fun col => do
    let p ← chunk i
    let c ← load prog p col
    assure line (c = digit i)) n

/-- `apc_chunks[i] = heapmgr_malloc(...)` -/
def allocate (i : ℕ) : Exec (State F) ℕ := do
  let n ← reads fun d => sizes d.aiSizes i
  let p ← heapmgrMalloc prog n
  setChunk i p
  return p

def mallocChunk (line i : ℕ) : Exec (State F) Unit := do
  let p ← allocate prog sizes i
  assure line (p ≠ null)
  fillChunk prog sizes i

def freeChunk (line i : ℕ) : Exec (State F) Unit := do
  checkChunk prog sizes line i
  let p ← chunk i
  heapmgrFree prog p

/-- Fill the first `n` places of `ai_sizes`. -/
def drawSizes (iSize n : ℕ) : Exec (State F) Unit :=
  forUp (fun i => do
    let r ← rand
    modify fun d => { d with aiSizes := Function.update d.aiSizes i (r % iSize + 1) }) n

/-! ### The tests in last-in-first-out and first-in-first-out order -/

section Ordered

variable (iCount iSize : ℕ)

def testLIFOFixedMalloc : Exec (State F) Unit := forUp (mallocChunk prog (fixed iSize) 274) iCount

def testLIFOFixedFree : Exec (State F) Unit := forDown (freeChunk prog (fixed iSize) 307) iCount

def testFIFOFixedMalloc : Exec (State F) Unit := forUp (mallocChunk prog (fixed iSize) 330) iCount

def testFIFOFixedFree : Exec (State F) Unit := forUp (freeChunk prog (fixed iSize) 363) iCount

def testLIFORandomMalloc : Exec (State F) Unit := do
  drawSizes iSize iCount
  forUp (mallocChunk prog drawnSize 390) iCount

def testLIFORandomFree : Exec (State F) Unit := forDown (freeChunk prog drawnSize 423) iCount

def testFIFORandomMalloc : Exec (State F) Unit := do
  drawSizes iSize iCount
  forUp (mallocChunk prog drawnSize 450) iCount

def testFIFORandomFree : Exec (State F) Unit := forUp (freeChunk prog drawnSize 483) iCount

end Ordered

/-! ### The tests in random order -/

/-- If there is a chunk in the place `i`, it is freed. -/
def releaseChunk (line i : ℕ) : Exec (State F) Unit := do
  let p ← chunk i
  when (p ≠ null) do
    freeChunk prog sizes line i
    setChunk i null

/-- One pass of the first loop, from one value of `i_rand` to the next. -/
def randomStep (lineMalloc lineFree logicalSize iRand : ℕ) : Exec (State F) ℕ := do
  mallocChunk prog sizes lineMalloc iRand
  let r ← rand
  let iRand := r % logicalSize
  releaseChunk prog sizes lineFree iRand
  return iRand

/-- The loops of the two tests, with the lines of their three checks. -/
def interleave (lineMalloc lineFree lineRest iCount : ℕ) : Exec (State F) Unit := do
  let logicalSize := iCount / 3 + 1
  let _ ← repeatWith (randomStep prog sizes lineMalloc lineFree logicalSize) iCount 0
  forUp (releaseChunk prog sizes lineRest) logicalSize

def testRandomFixed (iCount iSize : ℕ) : Exec (State F) Unit := interleave prog (fixed iSize) 511 540 561 iCount

def testRandomRandom (iCount iSize : ℕ) : Exec (State F) Unit := do
  drawSizes iSize (iCount / 3 + 1)
  interleave prog drawnSize 596 625 646 iCount

/-! ### The worst case for a single list -/

/-- The sizes grow with the place, and a small chunk stands between any two. -/
def worstSize (iCount iSize : ℕ) : (ℕ → ℕ) → ℕ → ℕ := fun _ i => if i % 2 = 0 then i * iSize / iCount + 1 else 1

/-- One pass of the first loop, for the places `2 * k` and `2 * k + 1`. -/
def worstPair (iCount iSize k : ℕ) : Exec (State F) Unit := do
  let p ← allocate prog (worstSize iCount iSize) (2 * k)
  assure 673 (2 * k = 0 ∨ p ≠ null)
  fillChunk prog (worstSize iCount iSize) (2 * k)
  when (2 * k + 1 < iCount) do
    let _ ← allocate prog (worstSize iCount iSize) (2 * k + 1)
    pure ()

def worstAgain (iCount iSize k : ℕ) : Exec (State F) Unit := do
  let p ← allocate prog (worstSize iCount iSize) (2 * k)
  assure 719 (p ≠ null)

def testWorst (iCount iSize : ℕ) : Exec (State F) Unit := do
  -- the even places below `i_count`
  let pairs := (iCount + 1) / 2
  forUp (worstPair prog iCount iSize) pairs
  forDown (fun k => freeChunk prog (worstSize iCount iSize) 708 (2 * k)) pairs
  forDown (worstAgain prog iCount iSize) pairs
  forUp (fun i => do
    let p ← chunk i
    heapmgrFree prog p) iCount

/-! ### `main` -/

/-- The test names. -/
inductive Test where
  | lifoFixed
  | fifoFixed
  | lifoRandom
  | fifoRandom
  | randomFixed
  | randomRandom
  | worst

def maxCalls : ℕ := 1000000

/-- What `get_args` lets through. -/
structure Args where
  test : Test
  iCount : ℕ
  iSize : ℕ
  count_pos : 0 < iCount
  count_le : iCount ≤ maxCalls
  size_pos : 0 < iSize
  size_lt : iSize < 2 ^ 31

def main (args : Args) : Exec (State F) Unit :=
  match args.test with
  | .lifoFixed => do
    testLIFOFixedMalloc prog args.iCount args.iSize
    testLIFOFixedFree prog args.iCount args.iSize
  | .fifoFixed => do
    testFIFOFixedMalloc prog args.iCount args.iSize
    testFIFOFixedFree prog args.iCount args.iSize
  | .lifoRandom => do
    testLIFORandomMalloc prog args.iCount args.iSize
    testLIFORandomFree prog args.iCount
  | .fifoRandom => do
    testFIFORandomMalloc prog args.iCount args.iSize
    testFIFORandomFree prog args.iCount
  | .randomFixed => testRandomFixed prog args.iCount args.iSize
  | .randomRandom => testRandomRandom prog args.iCount args.iSize
  | .worst => testWorst prog args.iCount args.iSize

/-- The state at the start, where the globals are zero. -/
def start (heap : Heap F) (rands : ℕ → ℕ) : State F where
  heap := heap
  apcChunks := fun _ => null
  aiSizes := fun _ => 0
  rands := rands
  drawn := 0
  failed := []

end SystemProgramming.HeapMgr.TestDriver
