import SystemProgramming.HeapMgr.Chunk
import SystemProgramming.Lib.Tiling
import SystemProgramming.Lib.Linked
import Mathlib.Data.Set.Basic

/-!
# The table of blocks behind a heap

A `Table` is what the boundary tags say: the blocks of the heap in address order and the two links
of each.  `Rep keep m₀ m lo hi T` says that the memory `m` between `lo` and `hi` shows the table
`T`, and that the units in `keep`, which lie strictly inside used blocks, still hold what they held
in `m₀`.  The getters of `chunk.c` read the table (`gives_` lemmas), and each setter changes one
entry of it (`Rep.` lemmas); no other unit of memory matters.
-/

namespace SystemProgramming.HeapMgr

open Exec CInt

/-- A block: the address of its header, its span in units and whether it is allocated. -/
structure Block where
  addr : ℕ
  span : ℕ
  used : Bool
  deriving DecidableEq

/-- The status word of a block. -/
def statusOf (used : Bool) : ℤ := if used then chunkUsed else chunkFree

/-- The address of the footer. -/
def Block.foot (b : Block) : ℕ := b.addr + b.span - 1

@[simp] theorem statusOf_eq_free {u : Bool} : statusOf u = chunkFree ↔ u = false := by
  cases u <;> decide

@[simp] theorem statusOf_eq_used {u : Bool} : statusOf u = chunkUsed ↔ u = true := by
  cases u <;> decide

theorem statusOf_cases (u : Bool) : statusOf u = chunkFree ∨ statusOf u = chunkUsed := by
  cases u <;> decide

/-- The blocks in address order, and the links of the block at each address. -/
structure Table where
  blocks : List Block
  next : ℕ → ℕ
  prev : ℕ → ℕ

namespace Table

/-- A free block starts at `p`. -/
def FreeAt (T : Table) (p : ℕ) : Prop := ∃ b ∈ T.blocks, b.addr = p ∧ b.used = false

/-- `p` may be stored in a link. -/
def LinkOk (T : Table) (p : ℕ) : Prop := p = null ∨ T.FreeAt p

instance (T : Table) (p : ℕ) : Decidable (T.LinkOk p) :=
  inferInstanceAs (Decidable (p = null ∨ ∃ b ∈ T.blocks, b.addr = p ∧ b.used = false))

def setNext (T : Table) (c n : ℕ) : Table := { T with next := Function.update T.next c n }

def setPrev (T : Table) (c p : ℕ) : Table := { T with prev := Function.update T.prev c p }

def setBlocks (T : Table) (bs : List Block) : Table := { T with blocks := bs }

@[simp] theorem setNext_blocks (T : Table) (c n : ℕ) : (T.setNext c n).blocks = T.blocks := rfl

@[simp] theorem setNext_next (T : Table) (c n : ℕ) :
    (T.setNext c n).next = Function.update T.next c n := rfl

@[simp] theorem setNext_prev (T : Table) (c n : ℕ) : (T.setNext c n).prev = T.prev := rfl

@[simp] theorem setPrev_blocks (T : Table) (c p : ℕ) : (T.setPrev c p).blocks = T.blocks := rfl

@[simp] theorem setPrev_next (T : Table) (c p : ℕ) : (T.setPrev c p).next = T.next := rfl

@[simp] theorem setPrev_prev (T : Table) (c p : ℕ) :
    (T.setPrev c p).prev = Function.update T.prev c p := rfl

@[simp] theorem setBlocks_blocks (T : Table) (bs : List Block) : (T.setBlocks bs).blocks = bs := rfl

@[simp] theorem setBlocks_next (T : Table) (bs : List Block) : (T.setBlocks bs).next = T.next := rfl

@[simp] theorem setBlocks_prev (T : Table) (bs : List Block) : (T.setBlocks bs).prev = T.prev := rfl

@[simp] theorem linkOk_null (T : Table) : T.LinkOk null := Or.inl rfl

@[simp] theorem linkOk_setNext {T : Table} {c n p : ℕ} :
    (T.setNext c n).LinkOk p ↔ T.LinkOk p := Iff.rfl

@[simp] theorem linkOk_setPrev {T : Table} {c n p : ℕ} :
    (T.setPrev c n).LinkOk p ↔ T.LinkOk p := Iff.rfl

end Table

/-- The header and the footer of `b` are in place in `m`, inside `[lo, hi)`. -/
structure Tagged (m : Mem) (lo hi : ℕ) (b : Block) : Prop where
  lo_pos : 0 < lo
  hi_lt : hi < 2 ^ 60
  lo_le : lo ≤ b.addr
  le_hi : b.addr + b.span ≤ hi
  two_le : 2 ≤ b.span
  small : b.span < 2 ^ 31
  status : (m b.addr).status = statusOf b.used
  span : (m b.addr).span = b.span
  footSpan : (m b.foot).footSpan = b.span

/-- The memory `m` between `lo` and `hi` shows the table `T`; the units in `keep` are payload of
used blocks and unchanged since `m₀`. -/
structure Rep (keep : Set ℕ) (m₀ m : Mem) (lo hi : ℕ) (T : Table) : Prop where
  lo_pos : 0 < lo
  hi_lt : hi < 2 ^ 60
  tiles : Tiles Block.addr Block.span lo hi T.blocks
  two_le : ∀ b ∈ T.blocks, 2 ≤ b.span
  small : ∀ b ∈ T.blocks, b.span < 2 ^ 31
  header : ∀ b ∈ T.blocks, m b.addr = ⟨statusOf b.used, b.span, T.next b.addr⟩
  footSpan : ∀ b ∈ T.blocks, (m b.foot).footSpan = b.span
  footPrev : ∀ b ∈ T.blocks, (m b.foot).prev = T.prev b.addr
  kept : ∀ u ∈ keep, m u = m₀ u
  keep_used : ∀ u ∈ keep, ∃ b ∈ T.blocks, b.used = true ∧ b.addr < u ∧ u < b.foot

namespace Rep

variable {keep : Set ℕ} {m₀ m : Mem} {lo hi : ℕ} {T : Table}
  {b c : Block} {xs ys : List Block}

/-! ### Where headers, footers and payloads lie -/

theorem bounds (h : Rep keep m₀ m lo hi T) (hb : b ∈ T.blocks) :
    lo ≤ b.addr ∧ b.addr + b.span ≤ hi ∧ 2 ≤ b.span ∧ b.foot + 1 = b.addr + b.span := by
  have h₁ := h.tiles.bounds hb
  have h₂ := h.two_le b hb
  refine ⟨h₁.1, h₁.2.1, h₂, ?_⟩
  unfold Block.foot
  omega

theorem tagged (h : Rep keep m₀ m lo hi T) (hb : b ∈ T.blocks) : Tagged m lo hi b where
  lo_pos := h.lo_pos
  hi_lt := h.hi_lt
  lo_le := (h.bounds hb).1
  le_hi := (h.bounds hb).2.1
  two_le := h.two_le b hb
  small := h.small b hb
  status := by rw [h.header b hb]
  span := by rw [h.header b hb]
  footSpan := h.footSpan b hb

theorem addr_ne_null (h : Rep keep m₀ m lo hi T) (hb : b ∈ T.blocks) : b.addr ≠ null := by
  have h₁ := (h.bounds hb).1
  have h₂ := h.lo_pos
  unfold null
  omega

theorem span_lt (h : Rep keep m₀ m lo hi T) (hb : b ∈ T.blocks) : b.span < 2 ^ 31 := h.small b hb

theorem eq_of_addr (h : Rep keep m₀ m lo hi T) (hb : b ∈ T.blocks) (hc : c ∈ T.blocks)
    (hbc : b.addr = c.addr) : b = c := h.tiles.eq_of_start hb hc hbc

theorem eq_of_foot (h : Rep keep m₀ m lo hi T) (hb : b ∈ T.blocks) (hc : c ∈ T.blocks)
    (hbc : b.foot = c.foot) : b = c := by
  have h₁ := h.bounds hb
  have h₂ := h.bounds hc
  exact h.tiles.eq_of_mem hb hc (u := b.foot) (by omega) (by omega)

/-- A footer is never a header. -/
theorem foot_ne_addr (h : Rep keep m₀ m lo hi T) (hb : b ∈ T.blocks) (hc : c ∈ T.blocks) :
    b.foot ≠ c.addr := by
  intro hbc
  have h₁ := h.bounds hb
  have h₂ := h.bounds hc
  have heq : b = c := h.tiles.eq_of_mem hb hc (u := b.foot) (by omega) (by omega)
  subst heq
  omega

/-- A unit strictly inside a block is neither a header nor a footer. -/
theorem inner_ne (h : Rep keep m₀ m lo hi T) (hc : c ∈ T.blocks) {u : ℕ} (h₁ : c.addr < u)
    (h₂ : u < c.foot) (hb : b ∈ T.blocks) : u ≠ b.addr ∧ u ≠ b.foot := by
  have h₃ := h.bounds hb
  have h₄ := h.bounds hc
  constructor
  · intro hub
    have heq : b = c := h.tiles.eq_of_mem hb hc (u := u) (by omega) (by omega)
    subst heq
    omega
  · intro hub
    have heq : b = c := h.tiles.eq_of_mem hb hc (u := u) (by omega) (by omega)
    subst heq
    omega

theorem keep_ne_addr (h : Rep keep m₀ m lo hi T) (hb : b ∈ T.blocks) {u : ℕ} (hu : u ∈ keep) :
    u ≠ b.addr := by
  obtain ⟨c, hc, -, h₁, h₂⟩ := h.keep_used u hu
  exact (h.inner_ne hc h₁ h₂ hb).1

theorem keep_ne_foot (h : Rep keep m₀ m lo hi T) (hb : b ∈ T.blocks) {u : ℕ} (hu : u ∈ keep) :
    u ≠ b.foot := by
  obtain ⟨c, hc, -, h₁, h₂⟩ := h.keep_used u hu
  exact (h.inner_ne hc h₁ h₂ hb).2

/-- A kept unit does not lie in a free block. -/
theorem keep_not_free (h : Rep keep m₀ m lo hi T) (hb : b ∈ T.blocks) (hfree : b.used = false)
    {u : ℕ} (hu : u ∈ keep) : u < b.addr ∨ b.foot < u := by
  obtain ⟨c, hc, hused, h₁, h₂⟩ := h.keep_used u hu
  have h₃ := h.bounds hb
  have h₄ := h.bounds hc
  by_contra hin
  have heq : b = c := h.tiles.eq_of_mem hb hc (u := u) (by omega) (by omega)
  subst heq
  rw [hfree] at hused
  cases hused

theorem mem_of_split (hT : T.blocks = xs ++ b :: ys) : b ∈ T.blocks := by
  rw [hT]
  simp

/-- The blocks around `b` lie on one side of it or the other. -/
theorem apart_of_split (h : Rep keep m₀ m lo hi T) (hT : T.blocks = xs ++ b :: ys)
    (hc : c ∈ xs ∨ c ∈ ys) :
    0 < c.span ∧ (c.addr + c.span ≤ b.addr ∨ b.addr + b.span ≤ c.addr) := by
  have ht := h.tiles
  rw [hT] at ht
  exact ht.around_apart hc

theorem ne_of_split (h : Rep keep m₀ m lo hi T) (hT : T.blocks = xs ++ b :: ys)
    (hc : c ∈ xs ∨ c ∈ ys) : c.addr ≠ b.addr := by
  have hapart := h.apart_of_split hT hc
  have hb := h.bounds (mem_of_split hT)
  omega

/-! ### One field of one unit is written -/

/-- Write the link of a header. -/
theorem setNext (h : Rep keep m₀ m lo hi T) (hb : b ∈ T.blocks) (n : ℕ) :
    Rep keep m₀ (Function.update m b.addr { m b.addr with link := n }) lo hi
      (T.setNext b.addr n) where
  lo_pos := h.lo_pos
  hi_lt := h.hi_lt
  small := h.small
  tiles := h.tiles
  two_le := h.two_le
  header c hc := by
    by_cases hcb : c.addr = b.addr
    · obtain rfl := h.eq_of_addr hc hb hcb
      simp [h.header c hc]
    · simp [hcb, h.header c hc]
  footSpan c hc := by
    rw [Function.update_of_ne (h.foot_ne_addr hc hb)]
    exact h.footSpan c hc
  footPrev c hc := by
    rw [Function.update_of_ne (h.foot_ne_addr hc hb)]
    exact h.footPrev c hc
  kept u hu := by
    rw [Function.update_of_ne (h.keep_ne_addr hb hu)]
    exact h.kept u hu
  keep_used := h.keep_used

/-- Write the link of a footer. -/
theorem setPrev (h : Rep keep m₀ m lo hi T) (hb : b ∈ T.blocks) (p : ℕ) :
    Rep keep m₀ (Function.update m b.foot { m b.foot with link := p }) lo hi
      (T.setPrev b.addr p) where
  lo_pos := h.lo_pos
  hi_lt := h.hi_lt
  small := h.small
  tiles := h.tiles
  two_le := h.two_le
  header c hc := by
    rw [Function.update_of_ne (h.foot_ne_addr hb hc).symm]
    exact h.header c hc
  footSpan c hc := by
    by_cases hcb : c.foot = b.foot
    · rw [hcb, Function.update_self]
      obtain rfl := h.eq_of_foot hc hb hcb
      exact h.footSpan c hc
    · rw [Function.update_of_ne hcb]
      exact h.footSpan c hc
  footPrev c hc := by
    by_cases hcb : c.foot = b.foot
    · obtain rfl := h.eq_of_foot hc hb hcb
      simp
    · have hne : c.addr ≠ b.addr := fun he => hcb (by rw [h.eq_of_addr hc hb he])
      rw [Function.update_of_ne hcb, Table.setPrev_prev, Function.update_of_ne hne]
      exact h.footPrev c hc
  kept u hu := by
    rw [Function.update_of_ne (h.keep_ne_foot hb hu)]
    exact h.kept u hu
  keep_used := h.keep_used

/-- The blocks of a table with one block's status replaced, and their old counterparts. -/
theorem mem_withUsed {xs ys : List Block} {b c : Block} {u : Bool}
    (hc : c ∈ xs ++ { b with used := u } :: ys) :
    c = { b with used := u } ∨ (c ∈ xs ++ b :: ys ∧ (c ∈ xs ∨ c ∈ ys)) := by
  simp only [List.mem_append, List.mem_cons] at hc ⊢
  tauto

/-- Write the status of a header.  A block that is set free must not hold kept units. -/
theorem setStatus (h : Rep keep m₀ m lo hi T) (hT : T.blocks = xs ++ b :: ys) (u : Bool)
    (hkeep : u = false → ∀ v ∈ keep, v < b.addr ∨ b.foot < v) :
    Rep keep m₀ (Function.update m b.addr { m b.addr with lo32 := statusOf u }) lo hi
      (T.setBlocks (xs ++ { b with used := u } :: ys)) := by
  have hb : b ∈ T.blocks := mem_of_split hT
  have hold : ∀ c ∈ xs ++ { b with used := u } :: ys,
      ∃ d ∈ T.blocks, d.addr = c.addr ∧ d.span = c.span ∧ (d = b → c = { b with used := u }) ∧
        (d ≠ b → c = d) := by
    intro c hc
    rcases mem_withUsed hc with rfl | ⟨hmem, hor⟩
    · exact ⟨b, hb, rfl, rfl, fun _ => rfl, fun hne => absurd rfl hne⟩
    · refine ⟨c, by rw [hT]; exact hmem, rfl, rfl, fun hcb => ?_, fun _ => rfl⟩
      exfalso
      have hnd := h.tiles.nodup_starts
      rw [hT, List.map_append, List.map_cons, List.nodup_append, List.nodup_cons] at hnd
      rcases hor with hx | hy
      · exact hnd.2.2 b.addr (List.mem_map.mpr ⟨c, hx, by rw [hcb]⟩) b.addr (by simp) rfl
      · exact hnd.2.1.1 (List.mem_map.mpr ⟨c, hy, by rw [hcb]⟩)
  refine
    { lo_pos := h.lo_pos
      hi_lt := h.hi_lt
      tiles := ?_
      two_le := fun c hc => ?_
      small := fun c hc => ?_
      header := fun c hc => ?_
      footSpan := fun c hc => ?_
      footPrev := fun c hc => ?_
      kept := fun v hv => ?_
      keep_used := fun v hv => ?_ }
  · have ht := h.tiles
    rw [hT, tiles_around] at ht
    exact tiles_around.mpr ht
  · obtain ⟨d, hd, -, hspan, -⟩ := hold c hc
    rw [← hspan]
    exact h.two_le d hd
  · obtain ⟨d, hd, -, hspan, -⟩ := hold c hc
    rw [← hspan]
    exact h.small d hd
  · obtain ⟨d, hd, haddr, hspan, hself, hother⟩ := hold c hc
    by_cases hdb : d = b
    · rw [hself hdb]
      simp [h.header b hb]
    · rw [hother hdb, Function.update_of_ne (fun he => hdb (h.eq_of_addr hd hb he))]
      exact h.header d hd
  · obtain ⟨d, hd, haddr, hspan, -⟩ := hold c hc
    have hfoot : c.foot = d.foot := by simp [Block.foot, haddr, hspan]
    rw [hfoot, Function.update_of_ne (h.foot_ne_addr hd hb), ← hspan]
    exact h.footSpan d hd
  · obtain ⟨d, hd, haddr, hspan, -⟩ := hold c hc
    have hfoot : c.foot = d.foot := by simp [Block.foot, haddr, hspan]
    rw [hfoot, Function.update_of_ne (h.foot_ne_addr hd hb), ← haddr]
    exact h.footPrev d hd
  · rw [Function.update_of_ne (h.keep_ne_addr hb hv)]
    exact h.kept v hv
  · obtain ⟨d, hd, hused, h₁, h₂⟩ := h.keep_used v hv
    rw [hT] at hd
    by_cases hdb : d = b
    · subst hdb
      have hu : u = true := by
        cases u with
        | true => rfl
        | false => have := hkeep rfl v hv; omega
      exact ⟨{ d with used := u }, by simp, hu, h₁, h₂⟩
    · have hmem : d ∈ xs ∨ d ∈ ys := by
        simp only [List.mem_append, List.mem_cons] at hd
        exact hd.imp_right fun hd => hd.resolve_left hdb
      exact ⟨d, by simp [hmem.imp_right Or.inr], hused, h₁, h₂⟩

end Rep

end SystemProgramming.HeapMgr
