import SystemProgramming.HeapMgr.Heapmgr2Check
import SystemProgramming.HeapMgr.InOrder

/-!
# When `check_heap_validity` of `heapmgr2.c` comes to a verdict

`count_bin_exist` runs for the first free block of the physical walk, before any test on the bins, and
it follows the forward links of every bin to their end.  So the check ends exactly when every one of
these walks ends; it then tells consistent bins from all others.  On a heap with a cyclic bin it runs
for ever, also when the cycle is that of the same free block linked twice, which it is there to find.

* `check_heap_validity_decides`: the check comes to its verdict exactly when the links from every bin head end.
* `check_heap_validity_cyclic_one`: a heap of one free block on which it does not.
-/

namespace SystemProgramming.HeapMgr.Heapmgr2

open Exec

variable {cfg : Cfg} {keep : Set ℕ} {m₀ : Mem} {T : Table} {s : Heap2} {bs : List Block}
  {i : Fin numBins} {c w : ℕ}

/-! ### A walk that does not end -/

theorem Linkable.start (hk : Linkable s T) (hok : T.LinkOk w)
    (hcyc : ¬ ∃ l, Walk T.next null w l) :
    ∃ b ∈ T.blocks, b.addr = w ∧ b.used = false ∧ T.LinkOk (T.next b.addr) ∧
      ¬ ∃ l, Walk T.next null (T.next b.addr) l := by
  have hn : w ≠ null := by
    intro hw
    exact hcyc ⟨[], hw⟩
  obtain ⟨b, hb, rfl, hfree⟩ := hok.resolve_left hn
  refine ⟨b, hb, rfl, hfree, hk.next b hb hfree, ?_⟩
  intro hl
  obtain ⟨l, hl⟩ := hl
  exact hcyc ⟨b.addr :: l, rfl, hn, hl⟩

/-- The loop of `count_bin_exist` does not leave a walk that does not end. -/
theorem countInBin_cyclic (hr : Rep keep m₀ s.mem s.sHeapLo s.sHeapHi T) (hk : Linkable s T)
    (fuel : ℕ) (k : ℤ) (hok : T.LinkOk w) (hcyc : ¬ ∃ l, Walk T.next null w l) :
    countInBin cfg c fuel w k s = .timeout := by
  induction fuel generalizing w k with
  | zero => rfl
  | succ n ih =>
    obtain ⟨b, hb, rfl, -, hnext, hcyc'⟩ := hk.start hok hcyc
    have hget : Gives (liftM (chunkGetNextFree cfg b.addr) : Exec Heap2 ℕ) s (T.next b.addr) :=
      gives_lift (hr.gives_getNext hb hnext)
    unfold countInBin
    rw [if_neg (hr.addr_ne_null hb), bind_of_ok hget]
    exact ih _ hnext hcyc'

/-- The loop of `count_bin_exist` counts, or it is still running. -/
theorem countInBin_cases (hr : Rep keep m₀ s.mem s.sHeapLo s.sHeapHi T) (hk : Linkable s T)
    (fuel : ℕ) (k : ℤ) (hok : T.LinkOk w) :
    countInBin cfg c fuel w k s = .timeout ∨ ∃ k', Gives (countInBin cfg c fuel w k) s k' := by
  induction fuel generalizing w k with
  | zero => exact Or.inl rfl
  | succ n ih =>
    unfold countInBin
    by_cases hn : w = null
    · rw [if_pos hn]
      exact Or.inr ⟨k, gives_pure k⟩
    · obtain ⟨b, hb, rfl, hfree⟩ := hok.resolve_left hn
      have hnext := hk.next b hb hfree
      have hget : Gives (liftM (chunkGetNextFree cfg b.addr) : Exec Heap2 ℕ) s (T.next b.addr) :=
        gives_lift (hr.gives_getNext hb hnext)
      rw [if_neg hn, bind_of_ok hget]
      rcases ih (if b.addr = c then k + 1 else k) hnext with hout | ⟨k', hk'⟩
      · exact Or.inl hout
      · exact Or.inr ⟨k', hget.bind hk'⟩

/-- With a cyclic bin among them, the bins are not counted to the end. -/
theorem countInBins_cyclic (hr : Rep keep m₀ s.mem s.sHeapLo s.sHeapHi T) (hk : Linkable s T)
    (hcyc : ¬ ∃ l, Walk T.next null (s.sFree i) l) (is : List (Fin numBins)) (hi : i ∈ is) (k : ℤ) :
    countInBins cfg c is k s = .timeout := by
  induction is generalizing k with
  | nil => exact absurd hi List.not_mem_nil
  | cons j is ih =>
    have hhead : Gives (getBin j) s (s.sFree j) := rfl
    unfold countInBins
    rw [bind_of_ok hhead]
    by_cases hij : i = j
    · subst hij
      exact bind_of_timeout (countInBin_cyclic hr hk _ _ (hk.head i) hcyc)
    · have hmem : i ∈ is := (List.mem_cons.mp hi).resolve_left hij
      have hcases : countInBin cfg c cfg.fuel (s.sFree j) k s = .timeout ∨ _ :=
        countInBin_cases hr hk cfg.fuel k (hk.head j)
      rcases hcases with hout | ⟨k', hk'⟩
      · exact bind_of_timeout hout
      · rw [bind_of_ok hk']
        exact ih hmem k'

/-- The walk over the blocks does not get past a free block. -/
theorem walkBlocks_cyclic (hr : Rep keep m₀ s.mem s.sHeapLo s.sHeapHi T) (hk : Linkable s T)
    (hcyc : ¬ ∃ l, Walk T.next null (s.sFree i) l) (xs ys : List Block) (fuel e : ℕ)
    (hT : T.blocks = xs ++ ys) (hfree : ∃ b ∈ ys, b.used = false) :
    walkBlocks cfg fuel ((ys.map Block.addr).headD null) e s = .timeout := by
  induction ys generalizing xs fuel e with
  | nil =>
    obtain ⟨b, hb, -⟩ := hfree
    exact absurd hb List.not_mem_nil
  | cons b ys ih =>
    cases fuel with
    | zero => rfl
    | succ n =>
      have hb : b ∈ T.blocks := Rep.mem_of_split hT
      have hlt : b.addr < s.sHeapHi := by
        have hbb := hr.bounds hb
        omega
      have hlo : Gives (heapLo : Exec Heap2 ℕ) s s.sHeapLo := rfl
      have hhi : Gives (heapHi : Exec Heap2 ℕ) s s.sHeapHi := rfl
      have hvalid : Gives (chunkIsValid cfg b.addr s.sHeapLo s.sHeapHi) s.mem true :=
        (hr.tagged hb).gives_isValid
      have hstatus : Gives (chunkGetStatus cfg b.addr) s.mem _ := (hr.tagged hb).gives_getStatus
      have hspan : Gives (chunkGetSpanUnits cfg b.addr) s.mem _ := (hr.tagged hb).gives_getSpan
      have hadj : Gives (chunkGetAdjacent cfg b.addr s.sHeapLo s.sHeapHi) s.mem _ :=
        hr.gives_adjacent_split hT
      show walkBlocks cfg (n + 1) b.addr e s = .timeout
      unfold walkBlocks
      rw [bind_of_ok hlo, bind_of_ok hhi, if_neg (not_not.mpr ⟨hr.addr_ne_null hb, hlt⟩),
        bind_of_ok (gives_lift hvalid), if_neg Bool.true_eq_false.mp,
        bind_of_ok (gives_lift hstatus)]
      by_cases hused : b.used = true
      · have hone : Gives (pure 1 : Exec Heap2 ℤ) s 1 := gives_pure 1
        have hnot : ¬ statusOf b.used = chunkFree := by
          rw [hused]
          decide
        rw [if_neg hnot, bind_of_ok hone, if_neg (by decide), if_neg (by decide),
          bind_of_ok (gives_lift hspan), bind_of_ok (gives_lift hadj)]
        refine ih (xs ++ [b]) n _ (by simp [hT]) ?_
        obtain ⟨d, hd, hdfree⟩ := hfree
        rcases List.mem_cons.mp hd with rfl | hd'
        · rw [hused] at hdfree
          cases hdfree
        · exact ⟨d, hd', hdfree⟩
      · rw [if_pos (statusOf_eq_free.mpr (Bool.eq_false_of_not_eq_true hused))]
        exact bind_of_timeout (countInBins_cyclic hr hk hcyc _ (List.mem_finRange i) 0)

/-- **A cyclic bin**: the check runs for ever. -/
theorem checkHeapValidity_cyclic (hr : Rep keep m₀ s.mem s.sHeapLo s.sHeapHi T)
    (hk : Linkable s T) (hcyc : ¬ ∃ l, Walk T.next null (s.sFree i) l) :
    checkHeapValidity cfg s = .timeout := by
  obtain ⟨b, hb, -, hfree, -⟩ := hk.start (hk.head i) hcyc
  have hne : T.blocks ≠ [] := List.ne_nil_of_mem hb
  have hlo : s.sHeapLo ≠ null := Nat.ne_of_gt hr.lo_pos
  have hhi : s.sHeapHi ≠ null := Nat.ne_of_gt (Nat.lt_of_lt_of_le hr.lo_pos hr.tiles.le)
  have hends : ¬ s.sHeapLo = s.sHeapHi := fun he => hne (hr.blocks_eq_nil_iff.mpr he)
  have hgivesLo : Gives (heapLo : Exec Heap2 ℕ) s s.sHeapLo := rfl
  have hgivesHi : Gives (heapHi : Exec Heap2 ℕ) s s.sHeapHi := rfl
  have hblocks : walkBlocks cfg cfg.fuel _ _ s = .timeout :=
    walkBlocks_cyclic hr hk hcyc [] T.blocks cfg.fuel s.sHeapLo rfl ⟨b, hb, hfree⟩
  rw [hr.headD_addr hne] at hblocks
  unfold checkHeapValidity
  rw [bind_of_ok hgivesLo, bind_of_ok hgivesHi, if_neg hlo, if_neg hhi, if_neg hends]
  exact bind_of_timeout hblocks

/-! ### The verdict over every link graph -/

/-- **The validity check** of a heap with any links comes to its verdict exactly when the forward
links from every bin head end. -/
theorem check_heap_validity_decides (hp : Placed s) (hbs : LaidOut s bs)
    (hsmall : ∀ b ∈ bs, b.span < 2 ^ 31) (hne : bs ≠ []) (hk : Linkable s (tableOf s.mem bs))
    (asserts : Bool) :
    (∃ N, ∀ fuel, N ≤ fuel → Decides (checkHeapValidity ⟨asserts, fuel⟩) s
      (∃ bl, BinLists s (tableOf s.mem bs) bl ∧ Consistent s (tableOf s.mem bs) bl)) ↔
      ∀ i, ∃ l, Walk (fun p => (s.mem p).next) null (s.sFree i) l := by
  have hr := hbs.rep hp hsmall
  constructor
  · intro hverdict i
    obtain ⟨N, hN⟩ := hverdict
    by_contra hcyc
    obtain ⟨v, hv, -⟩ := hN N (Nat.le_refl N)
    have hout : checkHeapValidity ⟨asserts, N⟩ s = .timeout := checkHeapValidity_cyclic hr hk hcyc
    rw [hv] at hout
    cases hout
  · intro hends
    choose bl hbl using hends
    refine ⟨s.sHeapHi + 1, fun fuel hfuel => ?_⟩
    have hcfg : Fuelled ⟨asserts, fuel⟩ s := by
      unfold Fuelled
      show s.sHeapHi < s.sHeapLo + fuel
      omega
    refine (decides_checkHeapValidity hr hk hbl hcfg hne).congr ⟨fun h => ⟨bl, hbl, h⟩, ?_⟩
    intro h
    obtain ⟨bl', hbl', hcons⟩ := h
    have hsame : bl' = bl := by
      funext i
      exact (hbl' i).unique (hbl i)
    rwa [hsame] at hcons

/-- Two free blocks in bin `0`, the last one first, with a used one between them. -/
def twoFree : Heap2 where
  mem := fun p =>
    match p with
    | 1 => ⟨chunkFree, 4, null⟩
    | 4 => ⟨4, 0, 8⟩
    | 5 => ⟨chunkUsed, 3, null⟩
    | 7 => ⟨3, 0, null⟩
    | 8 => ⟨chunkFree, 4, 1⟩
    | _ => ⟨4, 0, null⟩
  sFree := fun i => if i = 0 then 8 else null
  sHeapLo := 1
  sHeapHi := 12
  sHeapBooted := true
  os := ⟨12, 12, true, fun _ => true, 1⟩

/-- Its blocks, and its bins. -/
def twoFreeBlocks : List Block := [⟨1, 4, false⟩, ⟨5, 3, true⟩, ⟨8, 4, false⟩]

def twoFreeBins (i : Fin numBins) : List ℕ := if i = 0 then [8, 1] else []

theorem twoFree_linkable : Linkable twoFree (tableOf twoFree.mem twoFreeBlocks) where
  head := by decide
  next := by decide
  prev := by decide

theorem twoFree_consistent : Consistent twoFree (tableOf twoFree.mem twoFreeBlocks) twoFreeBins where
  once := by decide
  head := by decide
  back := by decide
  forth := by decide
  coalesced := by decide

/-- The bins end, so that the check comes to its verdict, and they are consistent, so that it passes. -/
theorem check_heap_validity_decides_two :
    ∃ N, ∀ fuel, N ≤ fuel → checkHeapValidity ⟨true, fuel⟩ twoFree = .ok true twoFree := by
  have hlists : BinLists twoFree (tableOf twoFree.mem twoFreeBlocks) twoFreeBins := by
    unfold BinLists
    decide
  obtain ⟨N, hN⟩ := (check_heap_validity_decides ⟨by decide, by decide⟩ (by decide) (by decide) (List.cons_ne_nil _ _)
    twoFree_linkable true).mpr fun i => ⟨twoFreeBins i, hlists i⟩
  refine ⟨N, fun fuel hfuel => ?_⟩
  obtain ⟨v, hgives, hv⟩ := hN fuel hfuel
  rw [hv.mpr ⟨twoFreeBins, hlists, twoFree_consistent⟩] at hgives
  exact hgives

/-- A heap of one free block of four units, at address `1`, alone in bin `0`. -/
def oneFree (next : ℕ) : Heap2 where
  mem := fun p => if p = 1 then ⟨chunkFree, 4, next⟩ else ⟨4, 0, null⟩
  sFree := fun i => if i = 0 then 1 else null
  sHeapLo := 1
  sHeapHi := 5
  sHeapBooted := true
  os := ⟨5, 5, true, fun _ => true, 1⟩

theorem oneFree_placed (next : ℕ) : Placed (oneFree next) :=
  ⟨show 0 < 1 by decide, show 5 < 2 ^ 60 by decide⟩

theorem oneFree_laidOut (next : ℕ) : LaidOut (oneFree next) [⟨1, 4, false⟩] where
  tiles := ⟨rfl, by decide, rfl⟩
  two_le := by simp
  status := by simp [oneFree, statusOf]
  span := by simp [oneFree]
  footSpan := by simp [oneFree, Block.foot]

theorem oneFree_linkable {next : ℕ} (h : next = null ∨ next = 1) :
    Linkable (oneFree next) (tableOf (oneFree next).mem [⟨1, 4, false⟩]) where
  head i := by
    by_cases hi : i = 0
    · exact Or.inr ⟨⟨1, 4, false⟩, by simp [tableOf], by simp [oneFree, hi], rfl⟩
    · exact Or.inl (by simp [oneFree, hi])
  next b hb _ := by
    obtain rfl : b = ⟨1, 4, false⟩ := by simpa [tableOf] using hb
    rcases h with rfl | rfl
    · exact Or.inl rfl
    · exact Or.inr ⟨⟨1, 4, false⟩, hb, rfl, rfl⟩
  prev b hb _ := by
    obtain rfl : b = ⟨1, 4, false⟩ := by simpa [tableOf] using hb
    exact Or.inl rfl

/-- The same block linked a second time behind itself: the check does not end. -/
theorem check_heap_validity_cyclic_one :
    Placed (oneFree 1) ∧ LaidOut (oneFree 1) [⟨1, 4, false⟩] ∧
      Linkable (oneFree 1) (tableOf (oneFree 1).mem [⟨1, 4, false⟩]) ∧
      ∀ asserts fuel, checkHeapValidity ⟨asserts, fuel⟩ (oneFree 1) = .timeout := by
  have hp := oneFree_placed 1
  have hbs := oneFree_laidOut 1
  have hk := oneFree_linkable (Or.inr rfl)
  refine ⟨hp, hbs, hk, fun asserts fuel => ?_⟩
  refine checkHeapValidity_cyclic (i := 0) (hbs.rep hp (by simp)) hk ?_
  intro hends
  obtain ⟨l, hl⟩ := hends
  cases l with
  | nil =>
    have hnull : 1 = null := hl
    exact absurd hnull (by decide)
  | cons a l =>
    -- the walk goes on from the block to itself, so it is longer than itself
    obtain ⟨hstart, hn, hrest⟩ := hl
    obtain rfl : a = 1 := hstart.symm
    have hagain : Walk (tableOf (oneFree 1).mem [⟨1, 4, false⟩]).next null 1 l := hrest
    have hfull : Walk (tableOf (oneFree 1).mem [⟨1, 4, false⟩]).next null 1 (1 :: l) :=
      ⟨rfl, hn, hrest⟩
    have hlen := congrArg List.length (hagain.unique hfull)
    rw [List.length_cons] at hlen
    omega

end SystemProgramming.HeapMgr.Heapmgr2
