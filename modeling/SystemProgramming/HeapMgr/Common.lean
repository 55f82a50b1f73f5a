import SystemProgramming.HeapMgr.Chunk

/-!
# What `heapmgr1.c` and `heapmgr2.c` have in common

Both files carry the same text for the conversion of bytes to units, the step from a payload pointer
to its header, and the bootstrap of the heap; it is translated once.  `sbrk` belongs to the C
library: it moves the program break and returns the old one, or fails.  The kernel's answers are
part of the state, so that a statement about every pattern of success and failure quantifies over
`Os.answer`.
-/

namespace SystemProgramming.HeapMgr

open Exec CInt

/-- What the process sees of the kernel: the program break, the limit of the data segment, whether
`sbrk(0)` works at all, the answers to the calls that ask for memory, and how many such calls have
been made. -/
structure Os where
  brk : ℕ
  limit : ℕ
  ready : Bool
  answer : ℕ → Bool
  calls : ℕ

/-- The memory and the globals of a heap manager.  `F` is the type of its free-list heads:
`s_free_head` in `heapmgr1.c`, `s_bins` in `heapmgr2.c`. -/
structure Heap (F : Type) where
  mem : Mem
  sFree : F
  sHeapLo : ℕ
  sHeapHi : ℕ
  sHeapBooted : Bool
  os : Os

variable {F : Type}

/-- The functions of `chunk.c` touch nothing but memory. -/
instance : MonadLift (Exec Mem) (Exec (Heap F)) where
  monadLift x := zoom (fun s => s.mem) (fun s m => { s with mem := m }) x

@[simp] theorem wp_lift {α : Type} {x : Exec Mem α} {Q : α → Heap F → Prop} {s : Heap F} :
    wp (liftM x : Exec (Heap F) α) Q s ↔ wp x (fun a m => Q a { s with mem := m }) s.mem :=
  wp_zoom

theorem gives_lift {α : Type} {x : Exec Mem α} {v : α} {s : Heap F} (h : Gives x s.mem v) :
    Gives (liftM x : Exec (Heap F) α) s v :=
  gives_of_wp (by rw [wp_lift, h.wp_iff]; exact ⟨rfl, rfl⟩)

/-- `s'` differs from `s` at most in the memory and the free lists. -/
structure Keeps (s s' : Heap F) : Prop where
  lo : s'.sHeapLo = s.sHeapLo
  hi : s'.sHeapHi = s.sHeapHi
  booted : s'.sHeapBooted = s.sHeapBooted
  os : s'.os = s.os

theorem Keeps.refl (s : Heap F) : Keeps s s := ⟨rfl, rfl, rfl, rfl⟩

theorem Keeps.trans {s s' s'' : Heap F} (h : Keeps s s') (h' : Keeps s' s'') : Keeps s s'' :=
  ⟨h'.lo.trans h.lo, h'.hi.trans h.hi, h'.booted.trans h.booted, h'.os.trans h.os⟩

theorem keeps_set (s : Heap F) (m : Mem) (f : F) : Keeps s { s with mem := m, sFree := f } :=
  ⟨rfl, rfl, rfl, rfl⟩

theorem keeps_setMem (s : Heap F) (m : Mem) : Keeps s { s with mem := m } := ⟨rfl, rfl, rfl, rfl⟩

/-- `SYS_MIN_ALLOC_UNITS`. -/
def sysMinAllocUnits : ℕ := 1024

/-- `(void *)-1`, the failure value of `sbrk`. -/
def sbrkFailed : ℕ := 2 ^ 60 - 1

/-- The `intptr_t` that a `size_t` is converted to. -/
def toIntptr (n : ℕ) : ℤ := ((n : ℤ) + 2 ^ 63) % 2 ^ 64 - 2 ^ 63

/-- `sbrk(0)`: the current break. -/
def sbrkZero : Exec (Heap F) ℕ := reads fun s => if s.os.ready then s.os.brk else sbrkFailed

/-- `sbrk(increment)` for a non-zero number of bytes. -/
def sbrk (increment : ℤ) : Exec (Heap F) ℕ := fun s =>
  let brk' : ℤ := s.os.brk + increment / chunkUnit
  let os' := { s.os with calls := s.os.calls + 1 }
  if s.os.answer s.os.calls = true ∧ 0 ≤ brk' ∧ brk' ≤ s.os.limit then
    .ok s.os.brk { s with os := { os' with brk := brk'.toNat } }
  else .ok sbrkFailed { s with os := os' }

def bytesToPayloadUnits (bytes : ℕ) : ℕ := addSize bytes (chunkUnit - 1) / chunkUnit

def headerFromPayload (p : ℕ) : ℕ := ptrAdd p (-1)

/-- `(char *)c + CHUNK_UNIT`. -/
def payloadOf (c : ℕ) : ℕ := ptrAdd c 1

def heapBootstrap : Exec (Heap F) Unit := do
  let booted ← reads fun s => s.sHeapBooted
  if booted = true then return () else
  let lo ← sbrkZero
  modify fun s => { s with sHeapLo := lo, sHeapHi := lo }
  if lo = sbrkFailed then exit (-1) else
  modify fun s => { s with sHeapBooted := true }

/-- `heap_lo`, `heap_hi` as the callers of `chunk.c` pass them. -/
def heapLo : Exec (Heap F) ℕ := reads fun s => s.sHeapLo

def heapHi : Exec (Heap F) ℕ := reads fun s => s.sHeapHi

/-! ### The kernel's side of the contract -/

/-- The break is where the heap ends, and it stays within the limit of the data segment: with the
definition of `sbrk`, memory is granted contiguously or refused. -/
structure OsOk (s : Heap F) : Prop where
  brk : s.os.brk = s.sHeapHi
  ready : s.os.ready = true
  le_limit : s.os.brk ≤ s.os.limit
  limit_lt : s.os.limit < 2 ^ 60 - 1

theorem OsOk.keeps {s s' : Heap F} (h : OsOk s) (hk : Keeps s s') : OsOk s' where
  brk := by rw [hk.os, hk.hi, h.brk]
  ready := by rw [hk.os, h.ready]
  le_limit := by rw [hk.os]; exact h.le_limit
  limit_lt := by rw [hk.os]; exact h.limit_lt

/-- The limit keeps the heap below `n` units. -/
def Limited (n : ℕ) (s : Heap F) : Prop := s.os.limit < s.sHeapLo + n

theorem Limited.keeps {n : ℕ} {s s' : Heap F} (h : Limited n s) (hk : Keeps s s') :
    Limited n s' := by
  unfold Limited
  rw [hk.os, hk.lo]
  exact h

theorem Limited.mono {m n : ℕ} {s : Heap F} (h : Limited m s) (hmn : m ≤ n) : Limited n s := by
  unfold Limited at h ⊢
  omega

/-- A limited heap is shorter than its limit. -/
theorem OsOk.within {n : ℕ} {s : Heap F} (h : OsOk s) (hl : Limited n s) :
    s.sHeapHi < s.sHeapLo + n := by
  have h₁ := h.brk
  have h₂ := h.le_limit
  unfold Limited at hl
  omega

/-- The loops may take more iterations than the heap has units. -/
def Fuelled (cfg : Cfg) (s : Heap F) : Prop := s.sHeapHi < s.sHeapLo + cfg.fuel

theorem Fuelled.keeps {cfg : Cfg} {s s' : Heap F} (h : Fuelled cfg s) (hk : Keeps s s') :
    Fuelled cfg s' := by
  unfold Fuelled
  rw [hk.lo, hk.hi]
  exact h

/-- `s'` differs from `s` in the memory, the free lists and a heap that is `n` units longer. -/
structure Grown (n : ℕ) (s s' : Heap F) : Prop where
  lo : s'.sHeapLo = s.sHeapLo
  hi : s'.sHeapHi = s.sHeapHi + n
  booted : s'.sHeapBooted = s.sHeapBooted
  os : s'.os = { s.os with brk := s.os.brk + n, calls := s.os.calls + 1 }

theorem Grown.keeps {n : ℕ} {s s' s'' : Heap F} (h : Grown n s s') (hk : Keeps s' s'') :
    Grown n s s'' :=
  ⟨hk.lo.trans h.lo, hk.hi.trans h.hi, hk.booted.trans h.booted, hk.os.trans h.os⟩

theorem OsOk.grown {n : ℕ} {s s' : Heap F} (h : OsOk s) (hg : Grown n s s')
    (hn : s.os.brk + n ≤ s.os.limit) : OsOk s' where
  brk := by rw [hg.os, hg.hi]; exact congrArg (· + n) h.brk
  ready := by rw [hg.os]; exact h.ready
  le_limit := by rw [hg.os]; exact hn
  limit_lt := by rw [hg.os]; exact h.limit_lt

theorem Limited.grown {m n : ℕ} {s s' : Heap F} (h : Limited m s) (hg : Grown n s s') :
    Limited m s' := by
  unfold Limited
  rw [hg.os, hg.lo]
  exact h

/-- The kernel grants `n` units at the next call that asks for memory. -/
def Os.Grants (os : Os) (n : ℕ) : Prop := os.answer os.calls = true ∧ os.brk + n ≤ os.limit

/-- The kernel does what `sbrk` asks for when it is to get `n` units: the number of bytes may have
wrapped around, and a negative one gives memory back. -/
def Os.Accepts (os : Os) (n : ℕ) : Prop :=
  os.answer os.calls = true ∧
    0 ≤ (os.brk : ℤ) + toIntptr (toSize (n * chunkUnit)) / chunkUnit ∧
    (os.brk : ℤ) + toIntptr (toSize (n * chunkUnit)) / chunkUnit ≤ os.limit

theorem toIntptr_nonneg {n : ℕ} (hn : n < 2 ^ 63) : toIntptr n ≥ 0 := by
  unfold toIntptr
  omega

/-- The number of bytes for `n` units, where nothing wraps. -/
theorem toIntptr_bytes {n : ℕ} (hn : n < 2 ^ 31) :
    toIntptr (toSize (n * chunkUnit)) = n * chunkUnit := by
  have hcast : (n : ℤ) * chunkUnit = (n * chunkUnit : ℕ) := (Int.natCast_mul _ _).symm
  have hlt : n * chunkUnit < 2 ^ 62 := by
    unfold chunkUnit
    omega
  rw [hcast, toSize_of_lt (by omega)]
  unfold toIntptr
  omega

theorem Os.accepts_iff {os : Os} {n : ℕ} (hn : n < 2 ^ 31) : os.Accepts n ↔ os.Grants n := by
  unfold Os.Accepts Os.Grants
  rw [toIntptr_bytes hn]
  unfold chunkUnit
  constructor
  · rintro ⟨hanswer, -, hle⟩
    exact ⟨hanswer, by omega⟩
  · rintro ⟨hanswer, hle⟩
    exact ⟨hanswer, by omega, by omega⟩

/-- **`sbrk`** for `n` units: refused, or the heap may grow by `n` units from its end. -/
theorem wp_sbrk {Q : ℕ → Heap F → Prop} {s : Heap F} {n : ℕ} (hos : OsOk s)
    (hn : s.os.Accepts n → n < 2 ^ 31)
    (hrefused : ¬ s.os.Accepts n →
      Q sbrkFailed { s with os := { s.os with calls := s.os.calls + 1 } })
    (hgranted : s.os.Accepts n → s.os.brk + n ≤ s.os.limit →
      Q s.sHeapHi { s with os := { s.os with brk := s.os.brk + n, calls := s.os.calls + 1 } }) :
    wp (sbrk (toIntptr (toSize (n * chunkUnit)))) Q s := by
  by_cases haccepts : s.os.Accepts n
  · have hlt := hn haccepts
    have hle := ((Os.accepts_iff hlt).mp haccepts).2
    have hunits : (s.os.brk : ℤ) + toIntptr (toSize (n * chunkUnit)) / chunkUnit
        = (s.os.brk + n : ℕ) := by
      rw [toIntptr_bytes hlt]
      unfold chunkUnit
      omega
    have hbranch := haccepts
    unfold Os.Accepts at hbranch
    unfold wp sbrk
    simp only
    rw [if_pos hbranch, hunits, Int.toNat_natCast]
    exact ⟨_, _, rfl, hos.brk ▸ hgranted haccepts hle⟩
  · have hbranch := haccepts
    unfold Os.Accepts at hbranch
    unfold wp sbrk
    simp only
    rw [if_neg hbranch]
    exact ⟨_, _, rfl, hrefused haccepts⟩

/-! ### The first call -/

/-- The heap after its bootstrap: empty, at the current break. -/
def bootHeap (s : Heap F) : Heap F :=
  { s with sHeapLo := s.os.brk, sHeapHi := s.os.brk, sHeapBooted := true }

theorem heapBootstrap_booted {s : Heap F} (h : s.sHeapBooted = true) :
    heapBootstrap s = .ok () s := by
  have hw : Gives (heapBootstrap : Exec (Heap F) Unit) s () := by
    apply gives_of_wp
    simp [heapBootstrap, h]
  exact hw

theorem heapBootstrap_ready {s : Heap F} (h : s.sHeapBooted = false) (hready : s.os.ready = true)
    (hbrk : s.os.brk ≠ sbrkFailed) : heapBootstrap s = .ok () (bootHeap s) := by
  obtain ⟨a, s', hok, hs'⟩ : wp heapBootstrap (fun _ s' => s' = bootHeap s) s := by
    simp [heapBootstrap, sbrkZero, h, hready, hbrk, bootHeap]
  rw [hok, hs']

/-- What follows the bootstrap runs as on a heap that is booted already. -/
theorem heapBootstrap_bind {α : Type} {f : Unit → Exec (Heap F) α} {s : Heap F}
    (h : s.sHeapBooted = false) (hready : s.os.ready = true) (hbrk : s.os.brk ≠ sbrkFailed) :
    (heapBootstrap >>= f) s = (heapBootstrap >>= f) (bootHeap s) :=
  bind_congr_start
    ((heapBootstrap_ready h hready hbrk).trans (heapBootstrap_booted (s := bootHeap s) rfl).symm)

theorem heapBootstrap_refused {s : Heap F} (h : s.sHeapBooted = false)
    (hready : s.os.ready = false) : heapBootstrap s = .exit (-1) := by
  have hread : reads (fun s : Heap F => s.sHeapBooted) s = .ok false s := by
    rw [← h]
    rfl
  have hbrk : (sbrkZero : Exec (Heap F) ℕ) s = .ok sbrkFailed s := by
    show Outcome.ok (if s.os.ready = true then s.os.brk else sbrkFailed) s = _
    rw [if_neg (by simp [hready])]
  refine (bind_of_ok hread).trans ((bind_of_ok hbrk).trans ((bind_of_ok rfl).trans ?_))
  rw [if_pos rfl]
  rfl

/-- What the bootstrap needs from the kernel: a break above `NULL` and below the limit. -/
structure OsStart (os : Os) : Prop where
  brk_pos : 0 < os.brk
  le_limit : os.brk ≤ os.limit
  limit_lt : os.limit < 2 ^ 60 - 1

theorem OsStart.brk_ne {os : Os} (h : OsStart os) : os.brk ≠ sbrkFailed := by
  have h₁ := h.le_limit
  have h₂ := h.limit_lt
  unfold sbrkFailed
  omega

/-- A kernel whose limit keeps the heap below `2^31` units from its start. -/
structure OsFresh (os : Os) : Prop where
  brk_pos : 0 < os.brk
  le_limit : os.brk ≤ os.limit
  limit_small : os.limit < os.brk + 2 ^ 31
  limit_lt : os.limit < 2 ^ 60 - 1

theorem OsFresh.start {os : Os} (h : OsFresh os) : OsStart os := ⟨h.brk_pos, h.le_limit, h.limit_lt⟩

theorem osOk_bootHeap {s : Heap F} (h : OsStart s.os) (hready : s.os.ready = true) :
    OsOk (bootHeap s) := ⟨rfl, hready, h.le_limit, h.limit_lt⟩

end SystemProgramming.HeapMgr
