import SystemProgramming.HeapMgr.Blocks
import Mathlib.Data.List.Chain

/-!
# Layouts: what an allocator does to the sequence of blocks

The purpose of the heap manager, stated on the sequence of blocks alone: an allocation takes a block
or the end of one (`allocate`), a release frees a block and absorbs its free neighbours
(`release`), and no two neighbours are ever both free (`Coalesced`).  Both managers refine these
two operations; they differ only in how they find a free block.

* `tiles_release`, `Coalesced.release`, `Coalesced.allocate`: the operations keep a layout coalesced.
* `Coalesced.unique`: a coalesced layout is determined by its used blocks.
-/

namespace SystemProgramming.HeapMgr

/-- No two physically adjacent blocks are both free. -/
def Coalesced (bs : List Block) : Prop := bs.IsChain fun a b => a.used = true ∨ b.used = true

instance (bs : List Block) : Decidable (Coalesced bs) :=
  inferInstanceAs (Decidable (bs.IsChain fun a b => a.used = true ∨ b.used = true))

/-- `b` swallows the first block of `ys` when that block is free. -/
def absorbNext (b : Block) : List Block → Block × List Block
  | [] => (b, [])
  | y :: ys => if y.used then (b, y :: ys) else (⟨b.addr, b.span + y.span, b.used⟩, ys)

/-- The last block of `xs` swallows `b` when it is free. -/
def absorbPrev (xs : List Block) (b : Block) : List Block × Block :=
  match xs.getLast? with
  | none => (xs, b)
  | some x => if x.used then (xs, b) else (xs.dropLast, ⟨x.addr, x.span + b.span, b.used⟩)

/-- Free the block `b` that stands between `xs` and `ys`. -/
def release (xs : List Block) (b : Block) (ys : List Block) : List Block :=
  let up := absorbNext { b with used := false } ys
  let down := absorbPrev xs up.1
  down.1 ++ down.2 :: up.2

/-- The free block that a release leaves in place of `b` and its free neighbours. -/
def released (xs : List Block) (b : Block) (ys : List Block) : Block :=
  (absorbPrev xs (absorbNext { b with used := false } ys).1).2

/-- Allocate `n` units from the free block `b`: the end of `b` when at least a block of two units
remains, else all of `b`. -/
def allocate (b : Block) (n : ℕ) : List Block :=
  if b.span ≥ n + 2 then [⟨b.addr, b.span - n, false⟩, ⟨b.addr + (b.span - n), n, true⟩]
  else [{ b with used := true }]

/-- The block that `allocate` hands out. -/
def allocated (b : Block) (n : ℕ) : Block :=
  if b.span ≥ n + 2 then ⟨b.addr + (b.span - n), n, true⟩ else { b with used := true }

variable {xs ys : List Block} {b x y : Block} {n : ℕ}

@[simp] theorem absorbNext_nil : absorbNext b [] = (b, []) := rfl

theorem absorbNext_used (h : y.used = true) : absorbNext b (y :: ys) = (b, y :: ys) := by
  simp [absorbNext, h]

theorem absorbNext_free (h : y.used = false) :
    absorbNext b (y :: ys) = (⟨b.addr, b.span + y.span, b.used⟩, ys) := by
  simp [absorbNext, h]

@[simp] theorem absorbPrev_nil : absorbPrev [] b = ([], b) := rfl

theorem absorbPrev_used (h : x.used = true) : absorbPrev (xs ++ [x]) b = (xs ++ [x], b) := by
  simp [absorbPrev, h]

theorem absorbPrev_free (h : x.used = false) :
    absorbPrev (xs ++ [x]) b = (xs, ⟨x.addr, x.span + b.span, b.used⟩) := by
  simp [absorbPrev, h]

theorem absorbNext_addr : (absorbNext b ys).1.addr = b.addr := by
  cases ys with
  | nil => rfl
  | cons y zs =>
    simp only [absorbNext]
    split <;> rfl

/-- After absorbing, the address of `b` is the header of the block or lies strictly inside it. -/
theorem absorbPrev_inner {lo hi : ℕ} (ht : Tiles Block.addr Block.span lo hi (xs ++ b :: ys))
    (hb : 2 ≤ b.span) : (absorbPrev xs b).2.addr = b.addr ∨
      ((absorbPrev xs b).2.addr < b.addr ∧ b.addr < (absorbPrev xs b).2.foot) := by
  rcases List.eq_nil_or_concat xs with rfl | ⟨zs, x, rfl⟩
  · exact Or.inl rfl
  · rw [List.concat_eq_append] at *
    cases hu : x.used with
    | true =>
      rw [absorbPrev_used hu]
      exact Or.inl rfl
    | false =>
      rw [List.append_assoc] at ht
      obtain ⟨hxb, hpos⟩ := ht.neighbours
      rw [absorbPrev_free hu]
      refine Or.inr ⟨?_, ?_⟩
      · show x.addr < b.addr
        omega
      · show b.addr < x.addr + (x.span + b.span) - 1
        omega

theorem absorbNext_of_used (hy : ∀ y ∈ ys.head?, y.used = true) : absorbNext b ys = (b, ys) := by
  cases ys with
  | nil => rfl
  | cons y zs => exact absorbNext_used (hy y rfl)

theorem absorbPrev_of_used (hx : ∀ x ∈ xs.getLast?, x.used = true) : absorbPrev xs b = (xs, b) := by
  rcases List.eq_nil_or_concat xs with rfl | ⟨zs, x, rfl⟩
  · rfl
  · rw [List.concat_eq_append] at *
    exact absorbPrev_used (hx x (by simp))

/-- Nothing is absorbed when both neighbours are used. -/
theorem release_of_used (hx : ∀ x ∈ xs.getLast?, x.used = true) (hy : ∀ y ∈ ys.head?, y.used = true)
    (hb : b.used = false) : release xs b ys = xs ++ b :: ys := by
  have hfree : ({ b with used := false } : Block) = b := by rw [← hb]
  simp only [release, hfree, absorbNext_of_used hy, absorbPrev_of_used hx]

theorem released_of_used (hx : ∀ x ∈ xs.getLast?, x.used = true)
    (hy : ∀ y ∈ ys.head?, y.used = true) (hb : b.used = false) : released xs b ys = b := by
  have hfree : ({ b with used := false } : Block) = b := by rw [← hb]
  simp only [released, hfree, absorbNext_of_used hy, absorbPrev_of_used hx]

/-- A block added at the end is there afterwards, possibly as part of the last block before it. -/
theorem exists_grown (bs : List Block) (hi g : ℕ) :
    ∃ b ∈ release bs ⟨hi, g, false⟩ [], b.used = false ∧ g ≤ b.span := by
  rcases List.eq_nil_or_concat bs with rfl | ⟨zs, x, rfl⟩
  · exact ⟨⟨hi, g, false⟩, by simp [release], rfl, Nat.le_refl g⟩
  · rw [List.concat_eq_append]
    cases hu : x.used with
    | true => exact ⟨⟨hi, g, false⟩, by simp [release, absorbPrev_used hu], rfl, Nat.le_refl g⟩
    | false =>
      exact ⟨⟨x.addr, x.span + g, false⟩, by simp [release, absorbPrev_free hu], rfl,
        Nat.le_add_left g _⟩

/-- The other blocks were there before. -/
theorem mem_release_last {bs : List Block} {hi g : ℕ} {c : Block}
    (hc : c ∈ release bs ⟨hi, g, false⟩ []) : c ∈ bs ∨ g ≤ c.span := by
  rcases List.eq_nil_or_concat bs with rfl | ⟨zs, x, rfl⟩
  · have hc' : c = ⟨hi, g, false⟩ := by simpa [release] using hc
    exact Or.inr (by rw [hc'])
  · rw [List.concat_eq_append] at *
    cases hu : x.used with
    | true =>
      have hc' : c ∈ zs ++ [x] ∨ c = ⟨hi, g, false⟩ := by
        simpa [release, absorbPrev_used hu, or_assoc] using hc
      exact hc'.imp_right fun h => by rw [h]
    | false =>
      have hc' : c ∈ zs ∨ c = ⟨x.addr, x.span + g, false⟩ := by
        simpa [release, absorbPrev_free hu] using hc
      rcases hc' with hz | rfl
      · exact Or.inl (List.mem_append_left _ hz)
      · exact Or.inr (Nat.le_add_left g _)

/-! ### The blocks still tile the heap -/

variable {lo hi : ℕ}

theorem tiles_absorbNext (h : Tiles Block.addr Block.span lo hi (b :: ys)) :
    Tiles Block.addr Block.span lo hi ((absorbNext b ys).1 :: (absorbNext b ys).2) := by
  cases ys with
  | nil => exact h
  | cons y zs =>
    cases hu : y.used with
    | true =>
      rw [absorbNext_used hu]
      exact h
    | false =>
      obtain ⟨hb, hpos, -, -, hzs⟩ := h
      rw [absorbNext_free hu]
      refine ⟨hb, Nat.add_pos_left hpos _, ?_⟩
      rwa [← Nat.add_assoc]

theorem tiles_absorbPrev (h : Tiles Block.addr Block.span lo hi (xs ++ b :: ys)) :
    Tiles Block.addr Block.span lo hi ((absorbPrev xs b).1 ++ (absorbPrev xs b).2 :: ys) := by
  rcases List.eq_nil_or_concat xs with rfl | ⟨zs, x, rfl⟩
  · exact h
  · rw [List.concat_eq_append] at *
    cases hu : x.used with
    | true =>
      rw [absorbPrev_used hu]
      exact h
    | false =>
      rw [List.append_assoc] at h
      obtain ⟨hzs, hpos, hxb, -, hys⟩ := tiles_around.mp h
      rw [absorbPrev_free hu]
      refine tiles_around.mpr ⟨hzs, Nat.add_pos_left hpos _, ?_⟩
      show Tiles Block.addr Block.span (x.addr + (x.span + b.span)) hi ys
      rwa [← Nat.add_assoc]

/-- **A release keeps the heap tiled.** -/
theorem tiles_release (h : Tiles Block.addr Block.span lo hi (xs ++ b :: ys)) :
    Tiles Block.addr Block.span lo hi (release xs b ys) := by
  obtain ⟨mid, hxs, hys⟩ := tiles_append.mp h
  have hnext := tiles_absorbNext (b := { b with used := false }) hys
  exact tiles_absorbPrev (tiles_append.mpr ⟨mid, hxs, hnext⟩)

theorem released_mem : released xs b ys ∈ release xs b ys := by
  unfold release released
  simp

theorem released_span_le (h : Tiles Block.addr Block.span lo hi (xs ++ b :: ys)) :
    (released xs b ys).span ≤ hi - lo := by
  have hb := (tiles_release h).bounds released_mem
  omega

theorem absorbPrev_span_le : b.span ≤ (absorbPrev xs b).2.span := by
  unfold absorbPrev
  split
  · exact Nat.le_refl _
  · split
    · exact Nat.le_refl _
    · exact Nat.le_add_left _ _

theorem absorbNext_span_le :
    (absorbNext { b with used := false } ys).1.span ≤ (released xs b ys).span :=
  absorbPrev_span_le

/-- A release does not add blocks. -/
theorem length_release_le : (release xs b ys).length ≤ (xs ++ b :: ys).length := by
  have hup : (absorbNext { b with used := false } ys).2.length ≤ ys.length := by
    cases ys with
    | nil => exact Nat.le_refl _
    | cons y zs =>
      simp only [absorbNext]
      split
      · exact Nat.le_refl _
      · exact Nat.le_succ _
  have hdown : (absorbPrev xs (absorbNext { b with used := false } ys).1).1.length ≤ xs.length := by
    unfold absorbPrev
    split
    · exact Nat.le_refl _
    · split
      · exact Nat.le_refl _
      · simp
  simp only [release, List.length_append, List.length_cons]
  omega

/-! ### Coalescing is preserved -/

theorem coalesced_append_cons :
    Coalesced (xs ++ b :: ys) ↔ Coalesced xs ∧ Coalesced ys ∧
      (∀ x ∈ xs.getLast?, x.used = true ∨ b.used = true) ∧
      (∀ y ∈ ys.head?, b.used = true ∨ y.used = true) := by
  unfold Coalesced
  rw [List.isChain_append, List.isChain_cons]
  simp only [List.head?_cons, Option.mem_def, Option.some.injEq, forall_eq']
  tauto

/-- The upper neighbour of a free block is used. -/
theorem Coalesced.next_used (h : Coalesced (xs ++ b :: ys)) (hb : b.used = false) :
    ∀ y ∈ ys.head?, y.used = true := by
  intro y hy
  rcases (coalesced_append_cons.mp h).2.2.2 y hy with hbu | hyu
  · rw [hb] at hbu
    cases hbu
  · exact hyu

/-- The lower neighbour of a free block is used. -/
theorem Coalesced.prev_used (h : Coalesced (xs ++ b :: ys)) (hb : b.used = false) :
    ∀ x ∈ xs.getLast?, x.used = true := by
  intro x hx
  rcases (coalesced_append_cons.mp h).2.2.1 x hx with hxu | hbu
  · exact hxu
  · rw [hb] at hbu
    cases hbu

theorem Coalesced.replaceUsed (h : Coalesced (xs ++ b :: ys)) :
    Coalesced (xs ++ { b with used := true } :: ys) := by
  rw [coalesced_append_cons] at h ⊢
  exact ⟨h.1, h.2.1, fun _ _ => Or.inr rfl, fun _ _ => Or.inl rfl⟩

/-- The blocks of a release are coalesced: the freed block ends up between used ones. -/
theorem Coalesced.release (hx : Coalesced xs) (hy : Coalesced ys) :
    Coalesced (release xs b ys) := by
  have hup : Coalesced (absorbNext { b with used := false } ys).2 ∧
      ∀ z ∈ (absorbNext { b with used := false } ys).2.head?, z.used = true := by
    cases ys with
    | nil => exact ⟨hy, by simp⟩
    | cons y zs =>
      have hys := coalesced_append_cons.mp (show Coalesced ([] ++ y :: zs) from hy)
      cases hu : y.used with
      | true =>
        rw [absorbNext_used hu]
        exact ⟨hy, by simpa using hu⟩
      | false =>
        rw [absorbNext_free hu]
        exact ⟨hys.2.1, fun z hz => by simpa [hu] using hys.2.2.2 z hz⟩
  have hdown : ∀ c : Block, Coalesced (absorbPrev xs c).1 ∧
      ∀ z ∈ (absorbPrev xs c).1.getLast?, z.used = true := by
    intro c
    rcases List.eq_nil_or_concat xs with rfl | ⟨zs, x, rfl⟩
    · exact ⟨hx, by simp⟩
    · rw [List.concat_eq_append] at *
      have hxs := coalesced_append_cons.mp hx
      cases hu : x.used with
      | true =>
        rw [absorbPrev_used hu]
        exact ⟨hx, by simpa using hu⟩
      | false =>
        rw [absorbPrev_free hu]
        exact ⟨hxs.1, fun z hz => by simpa [hu] using hxs.2.2.1 z hz⟩
  unfold HeapMgr.release
  refine coalesced_append_cons.mpr ⟨(hdown _).1, hup.1, fun z hz => ?_, fun z hz => ?_⟩
  · exact Or.inl ((hdown _).2 z hz)
  · exact Or.inr (hup.2 z hz)

/-- Allocating from a free block keeps the blocks coalesced. -/
theorem Coalesced.allocate (h : Coalesced (xs ++ b :: ys)) (hb : b.used = false) :
    Coalesced (xs ++ allocate b n ++ ys) := by
  unfold HeapMgr.allocate
  split
  · rw [List.append_assoc]
    rw [coalesced_append_cons] at h
    simp only [hb, Bool.false_eq_true, or_false, false_or] at h
    refine coalesced_append_cons.mpr ⟨h.1, ?_, fun z hz => Or.inl (h.2.2.1 z hz), by simp⟩
    have htail : Coalesced ([] ++ (⟨b.addr + (b.span - n), n, true⟩ : Block) :: ys) :=
      coalesced_append_cons.mpr ⟨List.isChain_nil, h.2.1, by simp, by simp⟩
    exact htail
  · simpa using h.replaceUsed

/-! ### Which blocks are used afterwards -/

/-- The allocated blocks, in address order. -/
def usedBlocks (bs : List Block) : List Block := bs.filter Block.used

theorem mem_usedBlocks {bs : List Block} {c : Block} :
    c ∈ usedBlocks bs ↔ c ∈ bs ∧ c.used = true := List.mem_filter

@[simp] theorem usedBlocks_append (xs ys : List Block) :
    usedBlocks (xs ++ ys) = usedBlocks xs ++ usedBlocks ys := List.filter_append xs ys

theorem usedBlocks_cons_used (h : b.used = true) : usedBlocks (b :: xs) = b :: usedBlocks xs :=
  List.filter_cons_of_pos h

theorem usedBlocks_cons_free (h : b.used = false) : usedBlocks (b :: xs) = usedBlocks xs :=
  List.filter_cons_of_neg (by simp [h])

theorem usedBlocks_absorbNext : usedBlocks (absorbNext b ys).2 = usedBlocks ys := by
  cases ys with
  | nil => rfl
  | cons y zs =>
    cases hu : y.used with
    | true => rw [absorbNext_used hu]
    | false => rw [absorbNext_free hu, usedBlocks_cons_free hu]

theorem usedBlocks_absorbPrev : usedBlocks (absorbPrev xs b).1 = usedBlocks xs := by
  rcases List.eq_nil_or_concat xs with rfl | ⟨zs, x, rfl⟩
  · rfl
  · rw [List.concat_eq_append]
    cases hu : x.used with
    | true => rw [absorbPrev_used hu]
    | false =>
      rw [absorbPrev_free hu, usedBlocks_append, usedBlocks_cons_free hu]
      exact (List.append_nil _).symm

theorem absorbNext_used_eq : (absorbNext b ys).1.used = b.used := by
  cases ys with
  | nil => rfl
  | cons y zs =>
    simp only [absorbNext]
    split <;> rfl

theorem absorbPrev_used_eq : (absorbPrev xs b).2.used = b.used := by
  unfold absorbPrev
  split
  · rfl
  · split <;> rfl

/-- A release leaves the used blocks as they were, but for the one released. -/
theorem usedBlocks_release : usedBlocks (release xs b ys) = usedBlocks xs ++ usedBlocks ys := by
  have hfree : (absorbPrev xs (absorbNext { b with used := false } ys).1).2.used = false := by
    rw [absorbPrev_used_eq, absorbNext_used_eq]
  unfold release
  rw [usedBlocks_append, usedBlocks_cons_free hfree, usedBlocks_absorbPrev, usedBlocks_absorbNext]

/-- A free block between used ones ends where the next used block begins. -/
theorem Coalesced.free_end (h : Coalesced (b :: ys))
    (ht : Tiles Block.addr Block.span lo hi (b :: ys)) (hb : b.used = false) :
    lo + b.span = ((usedBlocks ys).map Block.addr).headD hi := by
  have hnext := Coalesced.next_used (show Coalesced ([] ++ b :: ys) from h) hb
  cases ys with
  | nil => exact ht.2.2
  | cons y zs =>
    have hy : y.used = true := hnext y rfl
    rw [usedBlocks_cons_used hy]
    exact ht.2.2.1.symm

/-- **A coalesced layout is determined by its used blocks.** -/
theorem Coalesced.unique {bs bs' : List Block} (hc : Coalesced bs) (hc' : Coalesced bs')
    (ht : Tiles Block.addr Block.span lo hi bs) (ht' : Tiles Block.addr Block.span lo hi bs')
    (hused : usedBlocks bs = usedBlocks bs') : bs = bs' := by
  induction bs generalizing bs' lo with
  | nil =>
    cases bs' with
    | nil => rfl
    | cons b' bs' =>
      have hb := ht'.bounds (b := b') (by simp)
      have hends : lo = hi := ht
      omega
  | cons b bs ih =>
    cases bs' with
    | nil =>
      have hb := ht.bounds (b := b) (by simp)
      have hends : lo = hi := ht'
      omega
    | cons b' bs' =>
      have htail : Coalesced bs :=
        (coalesced_append_cons.mp (show Coalesced ([] ++ b :: bs) from hc)).2.1
      have htail' : Coalesced bs' :=
        (coalesced_append_cons.mp (show Coalesced ([] ++ b' :: bs') from hc')).2.1
      have haddr : b.addr = b'.addr := ht.1.trans ht'.1.symm
      have hgap := ht.2.1
      have hgap' := ht'.2.1
      -- no block of the tail begins where the first one does
      have hlater : ∀ c ∈ usedBlocks bs, c.addr ≠ lo := by
        intro c hcb
        have hb := ht.2.2.bounds (mem_usedBlocks.mp hcb).1
        omega
      have hlater' : ∀ c ∈ usedBlocks bs', c.addr ≠ lo := by
        intro c hcb
        have hb := ht'.2.2.bounds (mem_usedBlocks.mp hcb).1
        omega
      cases hb : b.used with
      | true =>
        cases hb' : b'.used with
        | true =>
          rw [usedBlocks_cons_used hb, usedBlocks_cons_used hb'] at hused
          obtain ⟨rfl, hrest⟩ := List.cons.inj hused
          rw [ih htail htail' ht.2.2 ht'.2.2 hrest]
        | false =>
          rw [usedBlocks_cons_used hb, usedBlocks_cons_free hb'] at hused
          exact absurd ht.1 (hlater' b (by rw [← hused]; simp))
      | false =>
        cases hb' : b'.used with
        | true =>
          rw [usedBlocks_cons_free hb, usedBlocks_cons_used hb'] at hused
          exact absurd ht'.1 (hlater b' (by rw [hused]; simp))
        | false =>
          rw [usedBlocks_cons_free hb, usedBlocks_cons_free hb'] at hused
          have hend := hc.free_end ht hb
          have hend' := hc'.free_end ht' hb'
          rw [← hused] at hend'
          have hspan : b.span = b'.span := by omega
          have heq : b = b' := by
            cases b
            cases b'
            simp_all
          subst heq
          rw [ih htail htail' ht.2.2 ht'.2.2 hused]

theorem allocated_used : (allocated b n).used = true := by
  unfold allocated
  split <;> rfl

/-- An allocation adds the block it hands out to the used blocks. -/
theorem usedBlocks_allocate :
    usedBlocks (xs ++ allocate b n ++ ys) = usedBlocks xs ++ allocated b n :: usedBlocks ys := by
  rw [usedBlocks_append, usedBlocks_append, List.append_assoc]
  congr 1
  unfold allocate allocated
  split <;> rfl

/-- The block that is handed out is the last one of those it was cut from. -/
theorem exists_allocate_split (xs : List Block) (b : Block) (ys : List Block) (n : ℕ) :
    ∃ ws, xs ++ allocate b n ++ ys = ws ++ allocated b n :: ys ∧ usedBlocks ws = usedBlocks xs := by
  unfold allocate allocated
  split
  · exact ⟨xs ++ [⟨b.addr, b.span - n, false⟩], by simp, by simp [usedBlocks]⟩
  · exact ⟨xs, by simp, rfl⟩

/-- A block that is handed out has the size asked for. -/
theorem allocated_span (h : n ≤ b.span) : n ≤ (allocated b n).span := by
  unfold allocated
  split
  · exact Nat.le_refl n
  · exact h

/-- A block that is handed out is at most one unit larger than needed. -/
theorem allocated_span_cases (h : n ≤ b.span) :
    (allocated b n).span = n ∨ (allocated b n).span = n + 1 := by
  unfold allocated
  split
  · exact Or.inl rfl
  · rename_i hsmall
    show b.span = n ∨ b.span = n + 1
    omega

end SystemProgramming.HeapMgr
