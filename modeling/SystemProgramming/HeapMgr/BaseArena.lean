import SystemProgramming.HeapMgr.BaseMalloc
import SystemProgramming.HeapMgr.Client

/-!
# The reference manager on blocks

What `heapmgrbase.c` is for, without headers, links and memory: an arena is the sequence of its blocks and the
kernel that extends it.  `Arena.malloc` hands out the end of the first free block that is large enough, and
extends the arena once when there is none; `Arena.free` merges the block with its free neighbours.  A client of an
arena knows its live allocations and nothing else.

* `Arena.malloc`, `Arena.free`: the two operations, and `arenaSys` the sessions of a client.
* `Arena.malloc_os`: what an allocation asks of the kernel.
-/

namespace SystemProgramming.HeapMgr.Base

/-- The blocks of a heap in the order of their addresses, and the kernel that extends it. -/
structure Arena where
  blocks : List Block
  os : Os

/-- Allocate by first fit. -/
def Arena.take (ar : Arena) (size : ℕ) : Option (ℕ × Arena) :=
  (firstFit (payloadUnits size + 1) ar.blocks).map fun r => (r.2.addr + 1, { ar with blocks := r.1 })

/-- The kernel has granted a block for `size` bytes. -/
def Arena.extend (ar : Arena) (size : ℕ) : Arena where
  blocks := extended ar.os.brk (payloadUnits size) ar.blocks
  os := { ar.os with brk := ar.os.brk + growSpan (payloadUnits size), calls := ar.os.calls + 1 }

/-- The kernel has been asked in vain. -/
def Arena.refuse (ar : Arena) : Arena := { ar with os := { ar.os with calls := ar.os.calls + 1 } }

instance (os : Os) (n : ℕ) : Decidable (os.Grants n) :=
  inferInstanceAs (Decidable (os.answer os.calls = true ∧ os.brk + n ≤ os.limit))

/-- The pointer that `heapmgr_malloc` returns, and the arena after the call. -/
def Arena.malloc (ar : Arena) (size : ℕ) : ℕ × Arena :=
  match ar.take size with
  | some r => r
  | none =>
    if ar.os.Grants (growSpan (payloadUnits size)) then ((ar.extend size).take size).getD (null, ar.extend size)
    else (null, ar.refuse)

/-- The blocks after `xs` are searched for the one that begins at `p`, which is released. -/
def releaseAt (p : ℕ) (xs : List Block) : List Block → List Block
  | [] => xs
  | b :: ys => if b.addr = p then release xs b ys else releaseAt p (xs ++ [b]) ys

/-- The arena after `heapmgr_free` of the pointer `p`. -/
def Arena.free (ar : Arena) (p : ℕ) : Arena := { ar with blocks := releaseAt (p - 1) [] ar.blocks }

/-- An arena with the live allocations of its client. -/
structure ArenaSession where
  arena : Arena
  live : List Alloc

/-- The session after a call of `malloc`. -/
def ArenaSession.afterMalloc (st : ArenaSession) (size : ℕ) : ArenaSession where
  arena := (st.arena.malloc size).2
  live := if (st.arena.malloc size).1 = null then st.live else ⟨(st.arena.malloc size).1, size⟩ :: st.live

/-- A correct client takes a step; writing to a payload changes nothing. -/
inductive ArenaSession.Step : ArenaSession → Call → ArenaSession → Prop where
  | malloc {st : ArenaSession} {size : ℕ} (hpos : 1 ≤ size) (hle : size ≤ 3 * 10 ^ 8) :
      Step st (.malloc size) (st.afterMalloc size)
  | free {st : ArenaSession} {a : Alloc} (ha : a ∈ st.live) :
      Step st (.free a) ⟨st.arena.free a.ptr, st.live.erase a⟩
  | write {st : ArenaSession} {a : Alloc} {u : ℕ} {v : Cell} (ha : a ∈ st.live) (hu : a.Covers u) :
      Step st (.write u v) st

/-- The sessions on an arena, which is empty at first. -/
def arenaSys : Sys ArenaSession Call where
  init st := st.arena.blocks = [] ∧ OsFresh st.arena.os ∧ st.live = []
  step := ArenaSession.Step

variable {bs bs' xs ys : List Block} {b c : Block} {ar : Arena} {n p size : ℕ} {lo hi : ℕ}

/-! ### What the operations do to the used blocks -/

/-- First fit puts one used block of `n` units among the others. -/
theorem firstFit_used (h : firstFit n bs = some (bs', b)) : b.used = true ∧ b.span = n ∧
    ∃ us vs, usedBlocks bs = us ++ vs ∧ usedBlocks bs' = us ++ b :: vs := by
  induction bs generalizing bs' with
  | nil => cases h
  | cons c bs ih =>
    unfold firstFit at h
    split_ifs at h with hfit
    · cases h
      have hafter : usedBlocks ([] ++ carve c n ++ bs) = usedBlocks [] ++ carved c n :: usedBlocks bs :=
        usedBlocks_carve
      exact ⟨rfl, rfl, [], usedBlocks bs, usedBlocks_cons_free hfit.1, hafter⟩
    · obtain ⟨⟨cs, d⟩, hrest, heq⟩ := Option.map_eq_some_iff.mp h
      cases heq
      obtain ⟨hused, hspan, us, vs, hbefore, hafter⟩ := ih hrest
      refine ⟨hused, hspan, usedBlocks [c] ++ us, vs, ?_, ?_⟩
      · rw [List.append_assoc, ← hbefore, ← usedBlocks_append]
        rfl
      · rw [List.append_assoc, ← hafter, ← usedBlocks_append]
        rfl

theorem usedBlocks_extended (hi need : ℕ) (bs : List Block) : usedBlocks (extended hi need bs) = usedBlocks bs := by
  unfold extended
  rw [usedBlocks_release]
  exact List.append_nil _

/-- The block that begins at `p` is found. -/
theorem releaseAt_append (us : List Block) (hxs : ∀ b ∈ xs, b.addr ≠ c.addr) :
    releaseAt c.addr us (xs ++ c :: ys) = release (us ++ xs) c ys := by
  induction xs generalizing us with
  | nil =>
    rw [List.append_nil]
    exact if_pos rfl
  | cons b xs ih =>
    obtain ⟨hb, hrest⟩ := List.forall_mem_cons.mp hxs
    show (if b.addr = c.addr then _ else releaseAt c.addr (us ++ [b]) (xs ++ c :: ys)) = _
    rw [if_neg hb, ih _ hrest, List.append_assoc]
    rfl

/-- In a tiling, only the block itself begins at its address. -/
theorem releaseAt_eq (h : Tiles Block.addr Block.span lo hi (xs ++ c :: ys)) :
    releaseAt c.addr [] (xs ++ c :: ys) = release xs c ys := by
  refine releaseAt_append [] fun b hb haddr => ?_
  have hbounds := (tiles_around.mp h).1.bounds hb
  omega

/-! ### `Arena.malloc` by cases -/

theorem Arena.malloc_of_found (h : firstFit (payloadUnits size + 1) ar.blocks = some (bs, b)) :
    ar.malloc size = (b.addr + 1, { ar with blocks := bs }) := by
  unfold Arena.malloc Arena.take
  rw [h]
  rfl

theorem Arena.malloc_of_refused (h : NoneFits ar.blocks (payloadUnits size + 1))
    (hno : ¬ ar.os.Grants (growSpan (payloadUnits size))) : ar.malloc size = (null, ar.refuse) := by
  unfold Arena.malloc Arena.take
  rw [firstFit_eq_none h]
  exact if_neg hno

theorem Arena.malloc_of_grown (h : NoneFits ar.blocks (payloadUnits size + 1))
    (hgrants : ar.os.Grants (growSpan (payloadUnits size)))
    (hfit : firstFit (payloadUnits size + 1) (extended ar.os.brk (payloadUnits size) ar.blocks) = some (bs, b)) :
    ar.malloc size = (b.addr + 1, { ar.extend size with blocks := bs }) := by
  have htake : (ar.extend size).take size = some (b.addr + 1, { ar.extend size with blocks := bs }) := by
    unfold Arena.take
    rw [show firstFit (payloadUnits size + 1) (ar.extend size).blocks = _ from hfit]
    rfl
  unfold Arena.malloc
  rw [htake, show ar.take size = none by unfold Arena.take; rw [firstFit_eq_none h]; rfl]
  exact if_pos hgrants

/-- First fit finds a block if there is one. -/
theorem firstFit_of_fits (hb : b ∈ bs) (hfree : b.used = false) (hfit : n ≤ b.span) : ∃ r, firstFit n bs = some r := by
  induction bs with
  | nil => cases hb
  | cons c bs ih =>
    unfold firstFit
    split_ifs with hc
    · exact ⟨_, rfl⟩
    · have hrest : b ∈ bs := by
        refine (List.mem_cons.mp hb).resolve_left fun hbc => hc ?_
        rw [← hbc]
        exact ⟨hfree, hfit⟩
      obtain ⟨r, hr⟩ := ih hrest
      rw [hr]
      exact ⟨_, rfl⟩

/-- The block that the heap was extended by is large enough. -/
theorem firstFit_extended (hi need : ℕ) (bs : List Block) :
    ∃ r, firstFit (need + 1) (extended hi need bs) = some r := by
  rw [extended_eq]
  have hspan : (⟨hi, growSpan need, false⟩ : Block).span ≤ (absorbPrev bs ⟨hi, growSpan need, false⟩).2.span :=
    absorbPrev_span_le
  refine firstFit_of_fits (List.mem_append_right _ (List.mem_singleton_self _)) absorbPrev_used_eq ?_
  refine Nat.le_trans ?_ hspan
  show need + 1 ≤ growSpan need
  unfold growSpan
  omega

/-- **What an allocation asks of the kernel**: nothing, or one extension of the heap, after which it succeeds. -/
theorem Arena.malloc_os (ar : Arena) (size : ℕ) :
    ((ar.malloc size).1 ≠ null ∧ (ar.malloc size).2.os = ar.os) ∨
    ((ar.malloc size).1 ≠ null ∧ (ar.malloc size).2.os = (ar.extend size).os) ∨
    ((ar.malloc size).1 = null ∧ ¬ ar.os.Grants (growSpan (payloadUnits size))) := by
  cases hfound : firstFit (payloadUnits size + 1) ar.blocks with
  | some r =>
    rw [Arena.malloc_of_found hfound]
    exact Or.inl ⟨Nat.succ_ne_zero _, rfl⟩
  | none =>
    have hnone : NoneFits ar.blocks (payloadUnits size + 1) := by
      intro b hb hfree
      by_contra hfit
      obtain ⟨r, hr⟩ := firstFit_of_fits hb hfree (Nat.not_lt.mp hfit)
      rw [hfound] at hr
      cases hr
    by_cases hgrants : ar.os.Grants (growSpan (payloadUnits size))
    · obtain ⟨r, hr⟩ := firstFit_extended ar.os.brk (payloadUnits size) ar.blocks
      rw [Arena.malloc_of_grown hnone hgrants hr]
      exact Or.inr (Or.inl ⟨Nat.succ_ne_zero _, rfl⟩)
    · rw [Arena.malloc_of_refused hnone hgrants]
      exact Or.inr (Or.inr ⟨rfl, hgrants⟩)

end SystemProgramming.HeapMgr.Base
