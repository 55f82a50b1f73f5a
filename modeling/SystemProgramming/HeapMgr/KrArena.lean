import SystemProgramming.HeapMgr.BaseArena
import SystemProgramming.HeapMgr.KrMalloc

/-!
# The K&R manager on blocks

What `heapmgrkr.c` is for, without headers, links and memory: an arena with a place (`rover`) where the next search
begins, either a free block or `base`, which stands before all blocks.  `Arena.malloc` hands out the end of the first
block behind that place that is large enough, and extends the arena once when there is none on a whole turn;
`Arena.free` merges the block with its free neighbours.  Both leave the rover at the free block below.

* `Arena.malloc`, `Arena.free`: the two operations, and `arenaSys` the sessions of a client.
-/

namespace SystemProgramming.HeapMgr.Kr

open Base (freeAddrs freeAddrs_append mem_freeAddrs carve carved releaseAt)

/-- The blocks of a heap in the order of their addresses, where the next search begins, and the kernel. -/
structure Arena where
  blocks : List Block
  rover : ℕ
  os : Os

variable (base : ℕ)

/-- The last free block below `p`, or `base`. -/
def lastBelow (bs : List Block) (p : ℕ) : ℕ := ((freeAddrs bs).filter fun q => q < p).getLastD base

/-- Allocate `n` units from the block at `p`. -/
def carveAt (n p : ℕ) (bs : List Block) : List Block := bs.flatMap fun c => if c.addr = p then carve c n else [c]

/-- Allocate `n` units by next fit. -/
def Arena.take (ar : Arena) (n : ℕ) : Option (ℕ × Arena) :=
  (nextFit base n ar.blocks ar.rover).map fun p =>
    (p + (sizeAt ar.blocks p - n) + 1,
      { ar with blocks := carveAt n p ar.blocks, rover := lastBelow base ar.blocks p })

/-- The kernel has granted a block for `n` units. -/
def Arena.extend (ar : Arena) (n : ℕ) : Arena where
  blocks := extended ar.os.brk n ar.blocks
  rover := (freeAddrs ar.blocks).getLastD base
  os := granted (growUnits n) ar.os

/-- The kernel has been asked in vain. -/
def Arena.refuse (ar : Arena) : Arena := { ar with os := refused ar.os }

/-- The pointer that `heapmgr_malloc` returns, and the arena after the call. -/
def Arena.malloc (ar : Arena) (size : ℕ) : ℕ × Arena :=
  match ar.take base (payloadUnits size + 1) with
  | some r => r
  | none =>
    if ar.os.Grants (growUnits (payloadUnits size + 1)) then
      ((ar.extend base (payloadUnits size + 1)).take base (payloadUnits size + 1)).getD
        (null, ar.extend base (payloadUnits size + 1))
    else (null, ar.refuse)

/-- The arena after `heapmgr_free` of the pointer `p`. -/
def Arena.free (ar : Arena) (p : ℕ) : Arena :=
  { ar with blocks := releaseAt (p - 1) [] ar.blocks, rover := lastBelow base ar.blocks (p - 1) }

/-- An arena with the live allocations of its client. -/
structure ArenaSession where
  arena : Arena
  live : List Alloc

/-- The session after a call of `malloc`. -/
def ArenaSession.afterMalloc (st : ArenaSession) (size : ℕ) : ArenaSession where
  arena := (st.arena.malloc base size).2
  live := if (st.arena.malloc base size).1 = null then st.live else ⟨(st.arena.malloc base size).1, size⟩ :: st.live

/-- A correct client takes a step; writing to a payload changes nothing. -/
inductive ArenaSession.Step : ArenaSession → Call → ArenaSession → Prop where
  | malloc {st : ArenaSession} {size : ℕ} (hpos : 1 ≤ size) (hle : size ≤ 3 * 10 ^ 8) :
      Step st (.malloc size) (st.afterMalloc base size)
  | free {st : ArenaSession} {a : Alloc} (ha : a ∈ st.live) :
      Step st (.free a) ⟨st.arena.free base a.ptr, st.live.erase a⟩
  | write {st : ArenaSession} {a : Alloc} {u : ℕ} {v : Cell} (ha : a ∈ st.live) (hu : a.Covers u) :
      Step st (.write u v) st

/-- The sessions on an arena, which is empty at first. -/
def arenaSys : Sys ArenaSession Call where
  init st := st.arena.blocks = [] ∧ st.arena.rover = base ∧ OsFresh st.arena.os ∧ st.live = []
  step := ArenaSession.Step base

variable {base} {bs xs ys : List Block} {b c : Block} {ar : Arena} {n p size lo hi : ℕ}

/-! ### At a block of a tiling -/

section Tiled

variable (h : Tiles Block.addr Block.span lo hi (xs ++ c :: ys))
include h

theorem lastBelow_eq : lastBelow base (xs ++ c :: ys) c.addr = (freeAddrs xs).getLastD base := by
  obtain ⟨hxs, hpos, hys⟩ := tiles_around.mp h
  have hbelow : (freeAddrs xs).filter (fun q => q < c.addr) = freeAddrs xs :=
    List.filter_eq_self.mpr fun q hq => decide_eq_true (free_bounds hxs hq).2
  have habove : (freeAddrs (c :: ys)).filter (fun q => q < c.addr) = [] := by
    refine List.filter_eq_nil_iff.mpr fun q hq hlt => ?_
    obtain ⟨b, hb, -, rfl⟩ := mem_freeAddrs.mp hq
    have hlt : b.addr < c.addr := of_decide_eq_true hlt
    rcases List.mem_cons.mp hb with rfl | hb
    · omega
    · have hbounds := hys.bounds hb
      omega
  unfold lastBelow
  rw [freeAddrs_append, List.filter_append, hbelow, habove, List.append_nil]

/-- Only the block itself begins at its address. -/
theorem addr_ne_of_tiles (hb : b ∈ xs ∨ b ∈ ys) : b.addr ≠ c.addr := by
  obtain ⟨hxs, hpos, hys⟩ := tiles_around.mp h
  rcases hb with hb | hb
  · have hbounds := hxs.bounds hb
    omega
  · have hbounds := hys.bounds hb
    omega

theorem carveAt_eq : carveAt n c.addr (xs ++ c :: ys) = xs ++ carve c n ++ ys := by
  have hother {zs : List Block} (hzs : ∀ b ∈ zs, b.addr ≠ c.addr) :
      (zs.flatMap fun b => if b.addr = c.addr then carve b n else [b]) = zs := by
    induction zs with
    | nil => rfl
    | cons b zs ih =>
      obtain ⟨hb, hrest⟩ := List.forall_mem_cons.mp hzs
      rw [List.flatMap_cons, if_neg hb, ih hrest]
      rfl
  unfold carveAt
  rw [List.flatMap_append, List.flatMap_cons, if_pos rfl, hother fun b hb => addr_ne_of_tiles h (Or.inl hb),
    hother fun b hb => addr_ne_of_tiles h (Or.inr hb), List.append_assoc]

/-- Next fit has found the block `c`. -/
theorem Arena.take_of_found {rover : ℕ} {os : Os} (hfound : nextFit base n (xs ++ c :: ys) rover = some c.addr) :
    Arena.take base ⟨xs ++ c :: ys, rover, os⟩ n
      = some ((carved c n).addr + 1, ⟨xs ++ carve c n ++ ys, (freeAddrs xs).getLastD base, os⟩) := by
  unfold Arena.take
  rw [hfound, Option.map_some, carveAt_eq h, lastBelow_eq h, sizeAt_addr h (by simp)]
  rfl

end Tiled

theorem Arena.take_of_none (h : nextFit base n ar.blocks ar.rover = none) : ar.take base n = none := by
  unfold Arena.take
  rw [h]
  rfl

/-! ### `Arena.malloc` by cases -/

theorem Arena.malloc_of_found {r : ℕ × Arena} (h : ar.take base (payloadUnits size + 1) = some r) :
    ar.malloc base size = r := by
  unfold Arena.malloc
  rw [h]

theorem Arena.malloc_of_refused (h : ar.take base (payloadUnits size + 1) = none)
    (hno : ¬ ar.os.Grants (growUnits (payloadUnits size + 1))) : ar.malloc base size = (null, ar.refuse) := by
  unfold Arena.malloc
  rw [h]
  exact if_neg hno

theorem Arena.malloc_of_grown {r : ℕ × Arena} (h : ar.take base (payloadUnits size + 1) = none)
    (hgrants : ar.os.Grants (growUnits (payloadUnits size + 1)))
    (hr : (ar.extend base (payloadUnits size + 1)).take base (payloadUnits size + 1) = some r) :
    ar.malloc base size = r := by
  unfold Arena.malloc
  rw [h, hr]
  exact if_pos hgrants

end SystemProgramming.HeapMgr.Kr
