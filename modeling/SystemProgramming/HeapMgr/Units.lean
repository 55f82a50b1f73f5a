import SystemProgramming.HeapMgr.Common
import SystemProgramming.HeapMgr.ChunkSpec
import SystemProgramming.HeapMgr.Layout

/-!
# Sizes in bytes, in payload units and in spans

The arithmetic with which the two managers pass from the size of a request to the span of a block,
up to where something wraps around.
-/

namespace SystemProgramming.HeapMgr

open CInt

/-- The number of payload units for `size` bytes. -/
def payloadUnits (size : ℕ) : ℕ := (size + 15) / 16

/-- The units a block for `size` bytes takes: payload, header and footer. -/
def blockUnits (size : ℕ) : ℕ := payloadUnits size + 2

theorem payloadUnits_lt {size : ℕ} (h : size ≤ 3 * 10 ^ 8) : payloadUnits size < 2 ^ 30 := by
  unfold payloadUnits
  omega

theorem bytesToPayloadUnits_eq {size : ℕ} (h : size + 15 < 2 ^ 64) :
    bytesToPayloadUnits size = payloadUnits size := by
  unfold bytesToPayloadUnits payloadUnits chunkUnit
  rw [addSize_of_lt (by omega)]

theorem bytesToPayloadUnits_lt (size : ℕ) : bytesToPayloadUnits size < 2 ^ 60 := by
  unfold bytesToPayloadUnits chunkUnit addSize
  have hlt := toSize_lt (size + (16 - 1 : ℕ))
  omega

/-- The sizes that wrap around when they are rounded up ask for no payload at all. -/
theorem bytesToPayloadUnits_wrap {size : ℕ} (h : 2 ^ 64 ≤ size + 15) (hlt : size < 2 ^ 64) :
    bytesToPayloadUnits size = 0 := by
  have hsum : addSize size 15 = size + 15 - 2 ^ 64 := by
    unfold addSize
    rw [toSize_of_wrap (by omega) (by omega)]
    omega
  unfold bytesToPayloadUnits chunkUnit
  rw [hsum]
  omega

/-! ### Payload pointers -/

theorem payloadOf_of_lt {p : ℕ} (h : p + 1 < 2 ^ 60) : payloadOf p = p + 1 := ptrAdd_of_lt h

theorem headerFromPayload_succ {p : ℕ} (h : p + 1 < 2 ^ 60) : headerFromPayload (p + 1) = p := by
  have hneg := ptrAdd_neg (p := p + 1) (n := 1) (by omega) h
  rw [Nat.add_sub_cancel] at hneg
  exact hneg

/-! ### Spans -/

/-- The payload units of a span. -/
theorem payloadOfSpan {n : ℕ} (h₂ : 2 ≤ n) (hn : n < 2 ^ 31) :
    subSize (toSize (n : ℤ)) 2 = n - 2 := by
  rw [toSize_of_lt (by omega), subSize_of_le (by omega) (by omega)]

/-- The span from which a block is split and not handed out whole. -/
theorem splitThreshold {need : ℕ} (h : need + 4 < 2 ^ 64) :
    addSize (addSize 2 need) 2 = need + 4 := by
  have htwo : addSize 2 need = 2 + need := addSize_of_lt (by omega)
  rw [htwo, addSize_of_lt (by omega)]
  omega

/-- The two spans that `split_for_alloc` computes. -/
theorem splitSpans {span need r : ℕ} (hspan : span = r + (need + 2)) (hlt : span < 2 ^ 31) :
    toInt (addSize 2 need) = (need + 2 : ℕ) ∧ subInt span (need + 2 : ℕ) = r := by
  subst hspan
  constructor
  · rw [addSize_of_lt (by omega), toInt_of_lt (by omega), Nat.add_comm]
  · rw [subInt_of_le (Nat.le_add_left _ _) hlt, Nat.add_sub_cancel]

/-- The span that `sys_grow_and_link` asks the kernel for. -/
def growSpan (need : ℕ) : ℕ := 2 + max sysMinAllocUnits need

theorem growData_eq (hneed : need < 2 ^ 60) :
    addSize 2 (if need < sysMinAllocUnits then sysMinAllocUnits else need) = growSpan need := by
  unfold growSpan sysMinAllocUnits
  split
  · rw [addSize_of_lt (by omega)]
    omega
  · rw [addSize_of_lt (by omega)]
    omega

/-! ### Growing -/

/-- No free block has `n` units. -/
def NoneFits (bs : List Block) (n : ℕ) : Prop := ∀ b ∈ bs, b.used = false → b.span < n

instance (bs : List Block) (n : ℕ) : Decidable (NoneFits bs n) :=
  inferInstanceAs (Decidable (∀ b ∈ bs, b.used = false → b.span < n))

/-- If the kernel accepts, what the heap grows by and what becomes of it fit an `int`. -/
def GrowthFits {F : Type} (s : Heap F) (bs : List Block) (need : ℕ) : Prop :=
  s.os.Accepts (growSpan need) → growSpan need < 2 ^ 31 ∧
    (released bs ⟨s.sHeapHi, growSpan need, false⟩ []).span < 2 ^ 31

/-- A heap that is limited to `2^31` units grows within an `int`. -/
theorem growthFits_of_limited {F : Type} {s : Heap F} {bs : List Block} {need : ℕ} (hos : OsOk s)
    (hl : Limited (2 ^ 31) s) (ht : Tiles Block.addr Block.span s.sHeapLo s.sHeapHi bs)
    (hneed : need < 2 ^ 30) : GrowthFits s bs need := by
  intro haccepts
  have hg : growSpan need < 2 ^ 31 := by
    unfold growSpan sysMinAllocUnits
    omega
  have hpos : 0 < growSpan need := Nat.lt_of_lt_of_le Nat.zero_lt_two (Nat.le_add_right _ _)
  have hlimit := ((Os.accepts_iff hg).mp haccepts).2
  have hgrown : Tiles Block.addr Block.span s.sHeapLo (s.sHeapHi + growSpan need)
      (bs ++ ⟨s.sHeapHi, growSpan need, false⟩ :: []) :=
    tiles_append.mpr ⟨s.sHeapHi, ht, rfl, hpos, rfl⟩
  have hle := released_span_le hgrown
  have hbrk := hos.brk
  unfold Limited at hl
  exact ⟨hg, by omega⟩

/-- What a release leaves in a heap that is limited to `2^31` units fits an `int`. -/
theorem released_lt_of_limited {F : Type} {s : Heap F} {bs xs ys : List Block} {b : Block}
    (hos : OsOk s) (hl : Limited (2 ^ 31) s)
    (ht : Tiles Block.addr Block.span s.sHeapLo s.sHeapHi bs) (hbs : bs = xs ++ b :: ys) :
    (released xs b ys).span < 2 ^ 31 := by
  rw [hbs] at ht
  have hle := released_span_le ht
  have hlt := hos.within hl
  omega

/-! ### Fuel -/

/-- A loop over the blocks ends. -/
theorem Fuelled.blocks_lt {F : Type} {cfg : Cfg} {s : Heap F} {keep : Set ℕ} {m₀ m : Mem} {T : Table}
    (h : Fuelled cfg s) (hr : Rep keep m₀ m s.sHeapLo s.sHeapHi T) :
    T.blocks.length < cfg.fuel := by
  have hlen := hr.tiles.length_le
  have hle := hr.tiles.le
  unfold Fuelled at h
  omega

end SystemProgramming.HeapMgr
