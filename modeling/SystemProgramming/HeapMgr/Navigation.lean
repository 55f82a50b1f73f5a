import SystemProgramming.HeapMgr.ChunkSpec

/-!
# Walking over the blocks of a heap

On a heap that is tiled by blocks with agreeing tags, the walk of the validity checks with
`chunk_get_adjacent` meets every block once, in the order of the addresses, and ends where the heap does;
`chunk_get_prev_adjacent` goes the same way back.

* `boundary_tags_navigate`: the walks in both directions, on every heap that is laid out.
-/

namespace SystemProgramming.HeapMgr

open Exec

/-- `for (w = start; w && w < end; w = chunk_get_adjacent(w, start, end))`, from `w` on.  The headers that
are visited, and `e`, the address where the last block visited so far ends. -/
def adjacentWalk (cfg : Cfg) (start fin : ℕ) : ℕ → ℕ → ℕ → Exec Mem (List ℕ × ℕ)
  | 0, _, _ => timeout
  | fuel + 1, w, e =>
    if w ≠ null ∧ w < fin then do
      let h ← cell w
      let w' ← chunkGetAdjacent cfg w start fin
      let r ← adjacentWalk cfg start fin fuel w' (ptrAdd w h.span)
      return (w :: r.1, r.2)
    else return ([], e)

variable {m : Mem} {lo hi e w : ℕ} {bs xs ys : List Block} {b c : Block}

/-- The loop, with the blocks `ys` still ahead from `e` on. -/
theorem gives_adjacentWalk (cfg : Cfg) (ht : Tiles Block.addr Block.span e hi ys)
    (htags : ∀ b ∈ ys, Tagged m lo hi b) {fuel : ℕ} (hfuel : ys.length < fuel)
    (hw : ys ≠ [] → w = e) (hend : ys = [] → w = null ∨ w = hi) :
    Gives (adjacentWalk cfg lo hi fuel w e) m (ys.map Block.addr, hi) := by
  induction ys generalizing e w fuel with
  | nil =>
    obtain ⟨n, rfl⟩ := Nat.exists_eq_succ_of_ne_zero (Nat.ne_of_gt hfuel)
    have hstop : ¬ (w ≠ null ∧ w < hi) := by
      rcases hend rfl with rfl | rfl
      · exact fun h => h.1 rfl
      · exact fun h => Nat.lt_irrefl _ h.2
    rw [adjacentWalk, if_neg hstop, tiles_nil.mp ht]
    exact gives_pure _
  | cons b ys ih =>
    obtain ⟨n, rfl⟩ := Nat.exists_eq_succ_of_ne_zero (Nat.ne_of_gt (Nat.zero_lt_of_lt hfuel))
    have hb := htags b List.mem_cons_self
    obtain ⟨hstart, hpos, hrest⟩ := tiles_cons.mp ht
    have hbw : w = b.addr := (hw (List.cons_ne_nil b ys)).trans hstart.symm
    have hle := hb.le_hi
    have hgo : w ≠ null ∧ w < hi := by
      rw [hbw]
      exact ⟨hb.addr_ne_null, by omega⟩
    have hnext : Gives (chunkGetAdjacent cfg b.addr lo hi) m _ := hb.gives_adjacent
    rw [hstart] at hnext hle
    -- the walk goes on from the end of `b`
    have hwalk : Gives (adjacentWalk cfg lo hi n (if e + b.span = hi then null else e + b.span) (e + b.span))
        m (ys.map Block.addr, hi) := by
      apply ih hrest (fun c hc => htags c (List.mem_cons_of_mem b hc)) (Nat.lt_of_succ_lt_succ hfuel)
      · intro hne
        apply if_neg
        intro heq
        rw [heq] at hrest
        exact hne hrest.eq_nil
      · rintro rfl
        exact Or.inl (if_pos (tiles_nil.mp hrest))
    rw [adjacentWalk, if_pos hgo, hbw]
    apply gives_of_wp
    simp only [cell, wp_bind, wp_reads]
    rw [hb.span, hb.ptrAdd_span, hstart, hnext.wp_iff, hwalk.wp_iff, wp_pure, List.map_cons, hstart]
    exact ⟨rfl, rfl⟩

theorem pairwise_addr (ht : Tiles Block.addr Block.span lo hi bs) :
    (bs.map Block.addr).Pairwise (· < ·) := by
  rw [List.pairwise_map]
  apply ht.pairwise.imp_of_mem
  intro a b ha _ hab
  have hpos := (ht.bounds ha).2.2
  omega

/-- **Boundary tags give two-way navigation**: the walk with `chunk_get_adjacent` visits the headers in the
order of their addresses and ends at `hi`, `chunk_get_prev_adjacent` leads from each block to the one
before it, and every header is valid. -/
theorem boundary_tags_navigate (cfg : Cfg) (ht : Tiles Block.addr Block.span lo hi bs)
    (htags : ∀ b ∈ bs, Tagged m lo hi b) {fuel : ℕ} (hfuel : bs.length < fuel) :
    Gives (adjacentWalk cfg lo hi fuel lo lo) m (bs.map Block.addr, hi) ∧
      (bs.map Block.addr).Pairwise (· < ·) ∧
      (∀ xs b c ys, bs = xs ++ b :: c :: ys →
        Gives (chunkGetAdjacent cfg b.addr lo hi) m c.addr ∧
        Gives (chunkGetPrevAdjacent cfg c.addr lo hi) m b.addr) ∧
      (∀ b ∈ bs, Gives (chunkIsValid cfg b.addr lo hi) m true) := by
  refine ⟨?_, pairwise_addr ht, ?_, fun b hb => (htags b hb).gives_isValid⟩
  · apply gives_adjacentWalk cfg ht htags hfuel (fun _ => rfl)
    rintro rfl
    exact Or.inr (tiles_nil.mp ht)
  · rintro xs b c ys rfl
    have hb := htags b (by simp)
    have hc := htags c (by simp)
    have hnext : b.addr + b.span = c.addr := ht.neighbours.1.symm
    constructor
    · have hlt := hc.le_hi
      have hpos := hc.two_le
      rw [← hnext]
      exact hb.gives_adjacent_of_lt (by omega)
    · exact hb.gives_prevAdjacent hc hnext

section Sample

/-- Two blocks of two units: a used one at 1 and a free one at 3. -/
def twoBlocks : List Block := [⟨1, 2, true⟩, ⟨3, 2, false⟩]

def twoBlocksMem : Mem := fun p => if p = 1 then ⟨1, 2, 0⟩ else if p = 3 then ⟨0, 2, 0⟩ else ⟨2, 0, 0⟩

theorem tagged_twoBlocks : ∀ b ∈ twoBlocks, Tagged twoBlocksMem 1 5 b := by
  intro b hb
  rcases List.mem_cons.mp hb with rfl | hb
  · constructor <;> decide
  · rw [List.mem_singleton.mp hb]
    constructor <;> decide

theorem tiles_twoBlocks : Tiles Block.addr Block.span 1 5 twoBlocks :=
  ⟨rfl, Nat.two_pos, rfl, Nat.two_pos, rfl⟩

/-- The walk over two blocks, with assertions. -/
theorem boundary_tags_navigate_two :
    Gives (adjacentWalk ⟨true, 0⟩ 1 5 3 1 1) twoBlocksMem (twoBlocks.map Block.addr, 5) ∧
      (twoBlocks.map Block.addr).Pairwise (· < ·) ∧
      (∀ xs b c ys, twoBlocks = xs ++ b :: c :: ys →
        Gives (chunkGetAdjacent ⟨true, 0⟩ b.addr 1 5) twoBlocksMem c.addr ∧
        Gives (chunkGetPrevAdjacent ⟨true, 0⟩ c.addr 1 5) twoBlocksMem b.addr) ∧
      (∀ b ∈ twoBlocks, Gives (chunkIsValid ⟨true, 0⟩ b.addr 1 5) twoBlocksMem true) :=
  boundary_tags_navigate ⟨true, 0⟩ tiles_twoBlocks tagged_twoBlocks (by decide)

end Sample

end SystemProgramming.HeapMgr
