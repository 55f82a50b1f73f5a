import SystemProgramming.HeapMgr.Heapmgr2Spec
import Mathlib.Data.List.FinRange

/-!
# What `check_heap_validity` of `heapmgr2.c` decides

The check walks over the blocks in address order, counts each free block in the bins, and then walks
over every bin.  It may run on a heap whose links are broken, as long as every link is null or leads
to a free block (`Linkable`).  When the forward links from every bin head end (`BinLists`), the loops
run along lists: the induction is on the part of the list still to be visited, the fuel has to exceed
its length, and the verdict is `Consistent`.  A well-formed heap is one that is consistent.

* `decides_checkHeapValidity`: the validity check decides whether the bins are consistent.
-/

namespace SystemProgramming.HeapMgr.Heapmgr2

open Exec CInt

/-- The bin heads and the links of the free blocks are null or lead to free blocks. -/
structure Linkable (s : Heap2) (T : Table) : Prop where
  head : ∀ i, T.LinkOk (s.sFree i)
  next : ∀ b ∈ T.blocks, b.used = false → T.LinkOk (T.next b.addr)
  prev : ∀ b ∈ T.blocks, b.used = false → T.LinkOk (T.prev b.addr)

/-- From the head of bin `i` the forward links run through `bl i` to `NULL`. -/
def BinLists (s : Heap2) (T : Table) (bl : Fin numBins → List ℕ) : Prop :=
  ∀ i, Walk T.next null (s.sFree i) (bl i)

/-- The bins are consistent: every free block stands once in the bin of its span and in no other,
all links are symmetric, no head has a backward link, and no two neighbours are both free. -/
structure Consistent (s : Heap2) (T : Table) (bl : Fin numBins → List ℕ) : Prop where
  once : ∀ b ∈ T.blocks, b.used = false → ∀ i,
    (bl i).count b.addr = if i = binOf b.span then 1 else 0
  head : ∀ i, s.sFree i ≠ null → T.prev (s.sFree i) = null
  back : ∀ b ∈ T.blocks, b.used = false → T.next b.addr ≠ null → T.prev (T.next b.addr) = b.addr
  forth : ∀ b ∈ T.blocks, b.used = false → T.prev b.addr ≠ null → T.next (T.prev b.addr) = b.addr
  coalesced : Coalesced T.blocks

variable {cfg : Cfg} {keep : Set ℕ} {m₀ : Mem} {T : Table} {s : Heap2}
  {bl : Fin numBins → List ℕ} {b : Block} {xs ys : List Block} {i : Fin numBins} {c w : ℕ}

/-- A walk from a link that is null or leads to a free block passes free blocks only. -/
theorem Linkable.freeAt {l : List ℕ} (hk : Linkable s T) (hw : Walk T.next null w l)
    (hok : T.LinkOk w) : ∀ a ∈ l, T.FreeAt a := by
  induction l generalizing w with
  | nil => exact fun a ha => absurd ha List.not_mem_nil
  | cons a l ih =>
    obtain ⟨rfl, hn, hrest⟩ := hw
    have hfree := hok.resolve_left hn
    obtain ⟨b, hb, rfl, hbf⟩ := hfree
    intro c hc
    rcases List.mem_cons.mp hc with rfl | hc'
    · exact ⟨b, hb, rfl, hbf⟩
    · exact ih hrest (hk.next b hb hbf) c hc'

theorem BinLists.freeAt (hw : BinLists s T bl) (hk : Linkable s T) (hc : c ∈ bl i) : T.FreeAt c :=
  hk.freeAt (hw i) (hk.head i) c hc

/-- A bin has no more members than the heap has blocks, so a loop over it ends. -/
theorem BinLists.bin_lt (hw : BinLists s T bl) (hk : Linkable s T)
    (hr : Rep keep m₀ s.mem s.sHeapLo s.sHeapHi T) (hcfg : Fuelled cfg s) (i : Fin numBins) :
    (bl i).length < cfg.fuel := by
  have hsub : bl i ⊆ T.blocks.map Block.addr := by
    intro a ha
    obtain ⟨b, hb, hba, -⟩ := hw.freeAt hk ha
    exact List.mem_map.mpr ⟨b, hb, hba⟩
  have hle := ((hw i).nodup.subperm hsub).length_le
  rw [List.length_map] at hle
  exact Nat.lt_of_le_of_lt hle (hcfg.blocks_lt hr)

/-! ### Counting a block in the bins -/

theorem gives_countInBin (hr : Rep keep m₀ s.mem s.sHeapLo s.sHeapHi T) (hk : Linkable s T)
    (l : List ℕ) (fuel : ℕ) (k : ℤ) (hw : Walk T.next null w l) (hok : T.LinkOk w)
    (hfuel : l.length < fuel) : Gives (countInBin cfg c fuel w k) s (k + l.count c) := by
  induction l generalizing w fuel k with
  | nil =>
    obtain ⟨n, rfl⟩ := Nat.exists_eq_succ_of_ne_zero (Nat.ne_of_gt hfuel)
    obtain rfl : w = null := hw
    show Gives (pure k) s (k + (0 : ℕ))
    rw [Int.natCast_zero, Int.add_zero]
    exact gives_pure k
  | cons a l ih =>
    obtain ⟨n, rfl⟩ := Nat.exists_eq_succ_of_ne_zero (Nat.ne_of_gt (Nat.zero_lt_of_lt hfuel))
    obtain ⟨rfl, hn, hrest⟩ := hw
    obtain ⟨b, hb, rfl, hfree⟩ := hok.resolve_left hn
    have hnext := hk.next b hb hfree
    have htail := ih n (if b.addr = c then k + 1 else k) hrest hnext (by simpa using hfuel)
    have hcount : k + ((b.addr :: l).count c : ℕ)
        = (if b.addr = c then k + 1 else k) + (l.count c : ℕ) := by
      rw [List.count_cons]
      by_cases hac : b.addr = c
      · simp [hac]
        omega
      · simp [hac]
    rw [hcount]
    show Gives (if b.addr = null then _ else _) s _
    rw [if_neg hn]
    exact (gives_lift (hr.gives_getNext hb hnext)).bind htail

/-- How often `c` stands in the bins of `is`. -/
def copies (bl : Fin numBins → List ℕ) (c : ℕ) (is : List (Fin numBins)) : ℕ :=
  (is.map fun i => (bl i).count c).sum

theorem gives_countInBins (hr : Rep keep m₀ s.mem s.sHeapLo s.sHeapHi T) (hk : Linkable s T)
    (hw : BinLists s T bl) (hcfg : Fuelled cfg s) (is : List (Fin numBins)) (k : ℤ) :
    Gives (countInBins cfg c is k) s (k + (copies bl c is : ℕ)) := by
  induction is generalizing k with
  | nil =>
    show Gives (pure k) s (k + (0 : ℕ))
    rw [Int.natCast_zero, Int.add_zero]
    exact gives_pure k
  | cons i is ih =>
    have hlen := hw.bin_lt hk hr hcfg i
    have hone : Gives (countInBin cfg c cfg.fuel (s.sFree i) k) s _ :=
      gives_countInBin hr hk (bl i) cfg.fuel k (hw i) (hk.head i) hlen
    have hhead : Gives (getBin i) s (s.sFree i) := rfl
    have hsum : copies bl c (i :: is) = (bl i).count c + copies bl c is := by
      unfold copies
      rw [List.map_cons, List.sum_cons]
    rw [hsum, Int.natCast_add, ← Int.add_assoc]
    exact hhead.bind (hone.bind (ih _))

theorem gives_countBinExist (hr : Rep keep m₀ s.mem s.sHeapLo s.sHeapHi T) (hk : Linkable s T)
    (hw : BinLists s T bl) (hcfg : Fuelled cfg s) :
    Gives (countBinExist cfg c) s (copies bl c (List.finRange numBins)) := by
  have hall := gives_countInBins (c := c) hr hk hw hcfg (List.finRange numBins) 0
  rwa [Int.zero_add] at hall

theorem sum_ite_bins (j : Fin numBins) :
    ((List.finRange numBins).map fun i => if i = j then 1 else 0).sum = 1 := by
  revert j
  decide

/-! ### The walk over the blocks -/

/-- Every free block of `ys` stands once in the bins. -/
def CountedOnce (bl : Fin numBins → List ℕ) (ys : List Block) : Prop :=
  ∀ b ∈ ys, b.used = false → copies bl b.addr (List.finRange numBins) = 1

open Classical in
/-- The walk over the physical blocks stops at the first free block that is not counted once. -/
theorem gives_walkBlocks (hr : Rep keep m₀ s.mem s.sHeapLo s.sHeapHi T) (hk : Linkable s T)
    (hw : BinLists s T bl) (hcfg : Fuelled cfg s) (xs ys : List Block) (fuel e : ℕ)
    (hT : T.blocks = xs ++ ys) (hfuel : ys.length < fuel) :
    Gives (walkBlocks cfg fuel ((ys.map Block.addr).headD null) e) s
      (if CountedOnce bl ys then some (if ys = [] then e else s.sHeapHi) else none) := by
  induction ys generalizing xs fuel e with
  | nil =>
    obtain ⟨n, rfl⟩ := Nat.exists_eq_succ_of_ne_zero (Nat.ne_of_gt hfuel)
    have hnone : CountedOnce bl [] := fun b hb => absurd hb List.not_mem_nil
    rw [if_pos hnone]
    apply gives_of_wp
    simp [walkBlocks, heapLo, heapHi]
  | cons b ys ih =>
    obtain ⟨n, rfl⟩ := Nat.exists_eq_succ_of_ne_zero (Nat.ne_of_gt (Nat.zero_lt_of_lt hfuel))
    have hb : b ∈ T.blocks := Rep.mem_of_split hT
    have hbb := hr.bounds hb
    have hlt : b.addr < s.sHeapHi := by omega
    have hrest := ih (xs ++ [b]) n (b.addr + b.span) (by simp [hT]) (by simpa using hfuel)
    rw [hr.end_of_split hT] at hrest
    -- what the block itself contributes
    have hcount : ∃ k : ℕ, Gives (if statusOf b.used = chunkFree then countBinExist cfg b.addr
        else pure 1) s (k : ℤ) ∧ (CountedOnce bl (b :: ys) ↔ k = 1 ∧ CountedOnce bl ys) := by
      by_cases hfree : b.used = false
      · refine ⟨copies bl b.addr (List.finRange numBins), ?_, ?_⟩
        · rw [if_pos (statusOf_eq_free.mpr hfree)]
          exact gives_countBinExist hr hk hw hcfg
        · unfold CountedOnce
          rw [List.forall_mem_cons, forall_prop_of_true hfree]
      · refine ⟨1, ?_, ?_⟩
        · rw [if_neg (fun hs => hfree (statusOf_eq_free.mp hs))]
          exact gives_pure 1
        · unfold CountedOnce
          rw [List.forall_mem_cons, forall_prop_of_false hfree]
          simp
    obtain ⟨k, hk₁, hiff⟩ := hcount
    show Gives (walkBlocks cfg (n + 1) b.addr e) s _
    apply gives_of_wp
    simp only [walkBlocks, heapLo, heapHi, wp_bind, wp_reads, wp_lift, hlt, hr.addr_ne_null hb,
      ne_eq, not_false_eq_true, and_self, not_true, if_false]
    rw [(hr.tagged hb).gives_isValid.wp_iff, if_neg Bool.true_eq_false.mp]
    simp only [wp_bind, wp_lift]
    rw [(hr.tagged hb).gives_getStatus.wp_iff, hk₁.wp_iff]
    by_cases hone : k = 1
    · subst hone
      have hall : CountedOnce bl (b :: ys) ↔ CountedOnce bl ys := by
        rw [hiff]
        exact ⟨And.right, fun h => ⟨rfl, h⟩⟩
      have hbounds : ¬ ((1 : ℕ) : ℤ) < 1 ∧ ¬ ((1 : ℕ) : ℤ) > 1 := by decide
      rw [if_neg hbounds.1, if_neg hbounds.2]
      simp only [wp_bind, wp_lift]
      rw [(hr.tagged hb).gives_getSpan.wp_iff, (hr.gives_adjacent_split hT).wp_iff,
        (hr.tagged hb).ptrAdd_span, if_neg (List.cons_ne_nil _ _), hrest.wp_iff]
      simp only [hall, and_self]
    · rw [if_neg (fun h => hone (hiff.mp h).1)]
      by_cases hzero : k = 0
      · subst hzero
        simp
      · have hmany : ¬ (k : ℤ) < 1 ∧ (k : ℤ) > 1 := by omega
        rw [if_neg hmany.1, if_pos hmany.2]
        simp

/-! ### The walk over a bin -/

/-- What the walk over bin `i` asks of the block `b`. -/
structure NodeOk (s : Heap2) (T : Table) (i : Fin numBins) (b : Block) : Prop where
  bin : binOf b.span = i
  above : ∀ c ∈ T.blocks, c.addr = b.addr + b.span → c.used = true
  back : T.next b.addr ≠ null → T.prev (T.next b.addr) = b.addr
  first : T.prev b.addr = null → b.addr = s.sFree i
  forth : T.prev b.addr ≠ null → T.next (T.prev b.addr) = b.addr

/-- The status of the upper neighbour, as the walk over a bin asks for it. -/
theorem exists_gives_upperStatus {m : Mem} {lo hi : ℕ} (hr : Rep keep m₀ m lo hi T)
    (hT : T.blocks = xs ++ b :: ys) : ∃ v,
      Gives (if (ys.map Block.addr).headD null ≠ null then
        chunkGetStatus cfg ((ys.map Block.addr).headD null) else pure chunkUsed) m v ∧
      (¬ v = chunkFree ↔ ∀ c ∈ T.blocks, c.addr = b.addr + b.span → c.used = true) := by
  have ht := hr.tiles
  rw [hT] at ht
  rcases ht.next with ⟨rfl, hend⟩ | ⟨y, zs, rfl, hy, -⟩
  · refine ⟨chunkUsed, gives_pure chunkUsed, iff_of_true (by decide) fun c hc hcb => ?_⟩
    have hbounds := hr.bounds hc
    omega
  · have hym : y ∈ T.blocks := by
      rw [hT]
      simp
    have hstatus : Gives (chunkGetStatus cfg y.addr) m _ := (hr.tagged hym).gives_getStatus
    refine ⟨statusOf y.used, ?_, ?_⟩
    · rwa [List.map_cons, List.headD_cons, if_pos (hr.addr_ne_null hym)]
    · rw [statusOf_eq_free, Bool.not_eq_false]
      constructor
      · intro hused c hc hcb
        rw [hr.eq_of_addr hc hym (hcb.trans hy.symm)]
        exact hused
      · exact fun hall => hall y hym hy

/-- The backward link of the forward neighbour, as the walk over a bin asks for it. -/
theorem gives_backLink (hr : Rep keep m₀ s.mem s.sHeapLo s.sHeapHi T) (hk : Linkable s T)
    (hok : T.LinkOk c) : Gives (if c ≠ null then chunkGetPrevFree cfg c else pure w) s.mem
      (if c ≠ null then T.prev c else w) := by
  by_cases hn : c = null
  · rw [if_neg (not_not.mpr hn), if_neg (not_not.mpr hn)]
    exact gives_pure w
  · obtain ⟨b, hb, rfl, hfree⟩ := hok.resolve_left hn
    rw [if_pos hn, if_pos hn]
    exact hr.gives_getPrev hb (hk.prev b hb hfree)

/-- The forward link of the backward neighbour, as the walk over a bin asks for it. -/
theorem gives_forthLink (hr : Rep keep m₀ s.mem s.sHeapLo s.sHeapHi T) (hk : Linkable s T)
    (hok : T.LinkOk c) : Gives (if c ≠ null then chunkGetNextFree cfg c else pure w) s.mem
      (if c ≠ null then T.next c else w) := by
  by_cases hn : c = null
  · rw [if_neg (not_not.mpr hn), if_neg (not_not.mpr hn)]
    exact gives_pure w
  · obtain ⟨b, hb, rfl, hfree⟩ := hok.resolve_left hn
    rw [if_pos hn, if_pos hn]
    exact hr.gives_getNext hb (hk.next b hb hfree)

theorem not_ite_ne_iff {P : Prop} [Decidable P] {a d : ℕ} :
    ¬ (if P then a else d) ≠ d ↔ (P → a = d) := by
  by_cases hP : P <;> simp [hP]

theorem decides_walkBin (hr : Rep keep m₀ s.mem s.sHeapLo s.sHeapHi T) (hk : Linkable s T)
    (l : List ℕ) (fuel : ℕ) (hw : Walk T.next null w l) (hok : T.LinkOk w)
    (hfuel : l.length < fuel) :
    Decides (walkBin cfg i (s.sFree i) fuel w) s (∀ b ∈ T.blocks, b.addr ∈ l → NodeOk s T i b) := by
  induction l generalizing w fuel with
  | nil =>
    obtain ⟨n, rfl⟩ := Nat.exists_eq_succ_of_ne_zero (Nat.ne_of_gt hfuel)
    obtain rfl : w = null := hw
    exact decides_true fun b _ hb => absurd hb List.not_mem_nil
  | cons a l ih =>
    obtain ⟨n, rfl⟩ := Nat.exists_eq_succ_of_ne_zero (Nat.ne_of_gt (Nat.zero_lt_of_lt hfuel))
    obtain ⟨rfl, hn, hrest⟩ := hw
    obtain ⟨b, hb, rfl, hfree⟩ := hok.resolve_left hn
    obtain ⟨xs, ys, hT⟩ := List.append_of_mem hb
    have hnext := hk.next b hb hfree
    have hprev := hk.prev b hb hfree
    have htail := ih n hrest hnext (by simpa using hfuel)
    obtain ⟨v, hv, habove⟩ := @exists_gives_upperStatus cfg _ _ _ _ _ _ _ _ _ hr hT
    have hstatus : Gives (chunkGetStatus cfg b.addr) s.mem chunkFree := by
      rw [← statusOf_eq_free.mpr hfree]
      exact (hr.tagged hb).gives_getStatus
    have hgetNext : Gives (chunkGetNextFree cfg b.addr) s.mem _ := hr.gives_getNext hb hnext
    have hgetPrev : Gives (chunkGetPrevFree cfg b.addr) s.mem _ := hr.gives_getPrev hb hprev
    have hchecks : Decides (walkBin cfg i (s.sFree i) (n + 1) b.addr) s
        (¬ binOf b.span ≠ i ∧ ¬ v = chunkFree ∧
          ¬ (if T.next b.addr ≠ null then T.prev (T.next b.addr) else b.addr) ≠ b.addr ∧
          ¬ (T.prev b.addr = null ∧ b.addr ≠ s.sFree i) ∧
          ¬ (if T.prev b.addr ≠ null then T.next (T.prev b.addr) else b.addr) ≠ b.addr ∧
          ∀ c ∈ T.blocks, c.addr ∈ l → NodeOk s T i c) := by
      unfold walkBin
      rw [if_neg hn]
      refine Gives.decides (v := s.sHeapLo) rfl (Gives.decides (v := s.sHeapHi) rfl ?_)
      refine (gives_lift hstatus).decides ?_
      rw [if_neg (not_not.mpr rfl)]
      refine (gives_lift (hr.tagged hb).gives_isValid).decides ?_
      rw [if_neg Bool.true_eq_false.mp]
      refine (gives_lift (hr.tagged hb).gives_getSpan).decides (Decides.unless fun _ => ?_)
      refine (gives_lift (hr.gives_adjacent_split hT)).decides ?_
      refine (gives_lift hv).decides (Decides.unless fun _ => ?_)
      refine (gives_lift hgetNext).decides ((gives_lift (gives_backLink hr hk hnext)).decides
        (Decides.unless fun _ => ?_))
      refine (gives_lift hgetPrev).decides ((gives_lift (gives_forthLink hr hk hprev)).decides
        (Decides.unless fun _ => Decides.unless fun _ => ?_))
      exact (gives_lift hgetNext).decides htail
    refine hchecks.congr ?_
    rw [not_not, habove, not_ite_ne_iff, not_ite_ne_iff]
    constructor
    · rintro ⟨hbin, hup, hback, hfirst, hforth, hothers⟩ c hc hmem
      rcases List.mem_cons.mp hmem with hcb | hl
      · rw [hr.eq_of_addr hc hb hcb]
        exact ⟨hbin, hup, hback, fun hp => by_contra fun hne => hfirst ⟨hp, hne⟩, hforth⟩
      · exact hothers c hc hl
    · intro hall
      have hself := hall b hb (by simp)
      exact ⟨hself.bin, hself.above, hself.back, fun h => h.2 (hself.first h.1), hself.forth,
        fun c hc hl => hall c hc (by simp [hl])⟩

/-- What the checks on bin `i` ask. -/
def BinOk (s : Heap2) (T : Table) (bl : Fin numBins → List ℕ) (i : Fin numBins) : Prop :=
  (s.sFree i ≠ null → T.prev (s.sFree i) = null) ∧
    ∀ b ∈ T.blocks, b.addr ∈ bl i → NodeOk s T i b

theorem decides_walkBins (hr : Rep keep m₀ s.mem s.sHeapLo s.sHeapHi T) (hk : Linkable s T)
    (hw : BinLists s T bl) (hcfg : Fuelled cfg s) (is : List (Fin numBins)) :
    Decides (walkBins cfg is) s (∀ i ∈ is, BinOk s T bl i) := by
  induction is with
  | nil => exact decides_true fun i hi => absurd hi List.not_mem_nil
  | cons i is ih =>
    have hlen := hw.bin_lt hk hr hcfg i
    have hbin : Decides (walkBin cfg i (s.sFree i) cfg.fuel (s.sFree i)) s _ :=
      decides_walkBin hr hk (bl i) cfg.fuel (hw i) (hk.head i) hlen
    obtain ⟨ok, hwalk, hiff⟩ := hbin
    have hchecks : Decides (walkBins cfg (i :: is)) s
        (¬ (if s.sFree i ≠ null then T.prev (s.sFree i) else null) ≠ null ∧ ¬ ok = false ∧
          ∀ j ∈ is, BinOk s T bl j) := by
      refine Gives.decides (v := s.sFree i) rfl ?_
      refine (gives_lift (gives_backLink hr hk (hk.head i))).decides (Decides.unless fun _ => ?_)
      exact hwalk.decides (Decides.unless fun _ => ih)
    refine hchecks.congr ?_
    rw [not_ite_ne_iff, Bool.not_eq_false, hiff, List.forall_mem_cons, ← and_assoc]
    exact Iff.rfl

/-! ### The verdict -/

/-- Counting once, the bin checks and consistency. -/
theorem consistent_iff (hr : Rep keep m₀ s.mem s.sHeapLo s.sHeapHi T) (hk : Linkable s T)
    (hw : BinLists s T bl) :
    Consistent s T bl ↔ CountedOnce bl T.blocks ∧ ∀ i, BinOk s T bl i := by
  constructor
  · intro h
    refine ⟨fun b hb hfree => ?_, fun i => ⟨h.head i, fun b hb hmem => ?_⟩⟩
    · have hcount : (fun i => (bl i).count b.addr) = fun i => if i = binOf b.span then 1 else 0 := by
        funext i
        exact h.once b hb hfree i
      unfold copies
      rw [hcount, sum_ite_bins]
    · obtain ⟨c, hc, hcb, hfree⟩ := hw.freeAt hk hmem
      obtain rfl := hr.eq_of_addr hc hb hcb
      have hpos : 0 < (bl i).count c.addr := List.count_pos_iff.mpr hmem
      rw [h.once c hc hfree i] at hpos
      refine
        { bin := ?_
          above := fun d hd hdc => ?_
          back := h.back c hc hfree
          first := fun hprev => ?_
          forth := h.forth c hc hfree }
      · by_contra hbin
        rw [if_neg (Ne.symm hbin)] at hpos
        exact Nat.lt_irrefl 0 hpos
      · have hchain := (hr.tiles.isChain_iff.mp h.coalesced) c hc d hd hdc
        exact hchain.resolve_left (by simp [hfree])
      · -- a member that is not the head has a member before it, which it points back to
        obtain ⟨l₁, l₂, hl⟩ := List.append_of_mem hmem
        have hwalk := hw i
        rw [hl] at hwalk
        rcases List.eq_nil_or_concat l₁ with rfl | ⟨l, a, rfl⟩
        · exact hwalk.start
        · exfalso
          rw [List.concat_eq_append, List.append_assoc] at hwalk hl
          have hnext : T.next a = c.addr := hwalk.next_eq
          have ham : a ∈ bl i := by simp [hl]
          obtain ⟨d, hd, rfl, hdfree⟩ := hw.freeAt hk ham
          have hcn := hr.addr_ne_null hc
          have hback := h.back d hd hdfree (by rw [hnext]; exact hcn)
          rw [hnext, hprev] at hback
          exact hr.addr_ne_null hd hback.symm
  · rintro ⟨honce, hbins⟩
    -- a free block stands in some bin, and the bin checks say in which
    have hmem : ∀ b ∈ T.blocks, b.used = false → b.addr ∈ bl (binOf b.span) := by
      intro b hb hfree
      by_contra hnot
      have hzero : (fun i => (bl i).count b.addr) = fun _ => 0 := by
        funext i
        refine List.count_eq_zero_of_not_mem fun hm => ?_
        have hbin := ((hbins i).2 b hb hm).bin
        subst hbin
        exact hnot hm
      have hsum := honce b hb hfree
      unfold copies at hsum
      rw [hzero] at hsum
      exact absurd hsum (by decide)
    refine
      { once := fun b hb hfree i => ?_
        head := fun i => (hbins i).1
        back := fun b hb hfree => ((hbins _).2 b hb (hmem b hb hfree)).back
        forth := fun b hb hfree => ((hbins _).2 b hb (hmem b hb hfree)).forth
        coalesced := ?_ }
    · split
      · rename_i hi
        rw [hi]
        exact List.count_eq_one_of_mem (hw _).nodup (hmem b hb hfree)
      · rename_i hi
        exact List.count_eq_zero_of_not_mem fun hm => hi ((hbins i).2 b hb hm).bin.symm
    · refine hr.tiles.isChain_iff.mpr fun b hb c hc hcb => ?_
      by_cases hfree : b.used = false
      · exact Or.inr (((hbins _).2 b hb (hmem b hb hfree)).above c hc hcb)
      · exact Or.inl (Bool.eq_true_of_not_eq_false hfree)

/-- **The validity check** decides whether the bins are consistent. -/
theorem decides_checkHeapValidity (hr : Rep keep m₀ s.mem s.sHeapLo s.sHeapHi T)
    (hk : Linkable s T) (hw : BinLists s T bl) (hcfg : Fuelled cfg s) (hne : T.blocks ≠ []) :
    Decides (checkHeapValidity cfg) s (Consistent s T bl) := by
  classical
  have hlo : s.sHeapLo ≠ null := Nat.ne_of_gt hr.lo_pos
  have hhi : s.sHeapHi ≠ null := Nat.ne_of_gt (Nat.lt_of_lt_of_le hr.lo_pos hr.tiles.le)
  have hends : ¬ s.sHeapLo = s.sHeapHi := fun he => hne (hr.blocks_eq_nil_iff.mpr he)
  have hblocks : Gives (walkBlocks cfg cfg.fuel _ _) s _ :=
    gives_walkBlocks hr hk hw hcfg [] T.blocks cfg.fuel s.sHeapLo rfl (hcfg.blocks_lt hr)
  rw [hr.headD_addr hne, if_neg hne] at hblocks
  have hchecks : Decides (checkHeapValidity cfg) s
      (¬ (if CountedOnce bl T.blocks then some s.sHeapHi else none) ≠ some s.sHeapHi ∧
        ∀ i ∈ List.finRange numBins, BinOk s T bl i) := by
    unfold checkHeapValidity
    refine Gives.decides (v := s.sHeapLo) rfl (Gives.decides (v := s.sHeapHi) rfl ?_)
    rw [if_neg hlo, if_neg hhi, if_neg hends]
    exact hblocks.decides (Decides.unless fun _ => decides_walkBins hr hk hw hcfg _)
  refine hchecks.congr ?_
  rw [consistent_iff hr hk hw]
  by_cases hcounted : CountedOnce bl T.blocks
  · simp [hcounted]
  · simp [hcounted]

/-! ### Well-formed heaps -/

theorem WellFormed.linkable (h : WellFormed keep m₀ s T bl) : Linkable s T where
  head := h.work.lists.linkOk_head
  next _ hb hfree := h.work.lists.linkOk_next (h.work.mem_bin hb hfree (Set.notMem_empty _))
  prev _ hb hfree := h.work.lists.linkOk_prev (h.work.mem_bin hb hfree (Set.notMem_empty _))

theorem WellFormed.binLists (h : WellFormed keep m₀ s T bl) : BinLists s T bl := by
  intro i
  rw [h.work.lists.head i]
  exact (h.work.lists.links i).walk (h.work.lists.null_not_mem h.work.rep)

/-- A well-formed heap is consistent. -/
theorem WellFormed.consistent (h : WellFormed keep m₀ s T bl) : Consistent s T bl where
  once b hb hfree i := by
    have hmem : b.addr ∈ bl (binOf b.span) := h.work.mem_bin hb hfree (Set.notMem_empty _)
    split
    · rename_i hi
      rw [hi]
      exact List.count_eq_one_of_mem (h.work.lists.nodup _) hmem
    · rename_i hi
      exact List.count_eq_zero_of_not_mem
        fun hm => hi (h.work.lists.class_unique h.work.rep hm hmem)
  head i hn := by
    have hhead := h.work.lists.head i
    cases hl : bl i with
    | nil =>
      rw [hl] at hhead
      exact absurd hhead hn
    | cons a l =>
      have hlinks := h.work.lists.links i
      rw [hl] at hhead hlinks
      rw [hhead]
      exact hlinks.1
  back b hb hfree hn := by
    have hmem : b.addr ∈ bl (binOf b.span) := h.work.mem_bin hb hfree (Set.notMem_empty _)
    have hlinks := h.work.lists.links (binOf b.span)
    have hnext := (hlinks.next_mem hmem).resolve_right hn
    exact (hlinks.next_eq_iff (h.work.lists.null_not_mem h.work.rep) hmem hnext).mp rfl
  forth b hb hfree hn := by
    have hmem : b.addr ∈ bl (binOf b.span) := h.work.mem_bin hb hfree (Set.notMem_empty _)
    have hlinks := h.work.lists.links (binOf b.span)
    have hprev := (hlinks.prev_mem hmem).resolve_right hn
    exact (hlinks.next_eq_iff (h.work.lists.null_not_mem h.work.rep) hprev hmem).mpr rfl
  coalesced := h.coalesced

/-- The validity check accepts every well-formed heap. -/
theorem gives_checkHeapValidity (h : WellFormed keep m₀ s T bl) (hcfg : Fuelled cfg s) :
    Gives (checkHeapValidity cfg) s true := by
  have hr := h.work.rep
  by_cases hne : T.blocks = []
  · have hlo : s.sHeapLo ≠ null := Nat.ne_of_gt hr.lo_pos
    have hends := hr.blocks_eq_nil_iff.mp hne
    have hbins : ∀ i, s.sFree i = null := h.work.lists.head_null hne
    apply gives_of_wp
    simp [checkHeapValidity, heapLo, heapHi, ← hends, hlo, hbins]
  · obtain ⟨v, hv, hiff⟩ := decides_checkHeapValidity hr h.linkable h.binLists hcfg hne
    rwa [hiff.mpr h.consistent] at hv

end SystemProgramming.HeapMgr.Heapmgr2
