import SystemProgramming.HeapMgr.Heapmgr2Check
import SystemProgramming.HeapMgr.Client

/-!
# `heapmgr_malloc` and `heapmgr_free` of `heapmgr2.c`

On a well-formed heap the two calls refine the operations on layouts: `heapmgr_malloc` allocates
from a free block that is large enough, from a grown heap when there is none, or returns `NULL` when
the kernel refuses, and `heapmgr_free` releases a used block.  Either way the heap is well formed
again.

* `wp_search`: the search from the bin of a span finds a block exactly when there is one.
* `wp_heapmgrMalloc`, `wp_heapmgrFree`: the two calls on a booted heap.
-/

namespace SystemProgramming.HeapMgr.Heapmgr2

open Exec CInt

variable {cfg : Cfg} {keep : Set ℕ} {m₀ : Mem} {T : Table} {s : Heap2}
  {bl : Fin numBins → List ℕ} {b : Block} {xs ys : List Block} {i : Fin numBins} {need : ℕ}

/-! ### Taking a block -/

/-- The branch of `takeBlock` that splits. -/
theorem wp_takeSplit {Q : ℕ → Heap2 → Prop} {s₁ : Heap2} {T₁ : Table} {bl₁ : Fin numBins → List ℕ}
    (h : Work keep m₀ s₁ T₁ {b.addr} bl₁) (hc : Coalesced T₁.blocks)
    (hcfg : Fuelled cfg s₁) (hT : T₁.blocks = xs ++ b :: ys)
    (hb : b.used = false) (hspan : need + 4 ≤ b.span)
    (hQ : ∀ s' T' bl', Keeps s₁ s' → T'.blocks = xs ++ allocate b (need + 2) ++ ys →
      WellFormed keep m₀ s' T' bl' → Q ((allocated b (need + 2)).addr + 1) s') :
    wp (do
      let alloc ← splitForAlloc cfg b.addr need
      binPushFront cfg b.addr
      assertM cfg.asserts (checkHeapValidity cfg)
      return payloadOf alloc) Q s₁ := by
  have hmb : b ∈ T₁.blocks := Rep.mem_of_split hT
  have hbb := h.rep.bounds hmb
  have hhi := h.rep.hi_lt
  have hfits : b.span ≥ need + 2 + 2 := hspan
  have hblocks : xs ++ allocate b (need + 2) ++ ys = xs ++ ⟨b.addr, b.span - (need + 2), false⟩ ::
      ⟨b.addr + (b.span - (need + 2)), need + 2, true⟩ :: ys := by
    simp [allocate, hfits]
  have hcoal := hc
  rw [hT] at hcoal
  have hafter := hcoal.allocate (n := need + 2) hb
  have hprevUsed := hcoal.prev_used hb
  have hkeep : ∀ v ∈ keep, v < b.addr ∨ b.foot < v := fun v hv => h.rep.keep_not_free hmb hb hv
  rw [allocated, if_pos hfits, hblocks] at hQ
  rw [hblocks] at hafter
  simp only [wp_bind]
  refine wp_splitForAlloc (r := b.span - (need + 2)) h hT hb (by omega) (by omega)
    fun s₂ T₂ hk₂ hT₂ h₂ => ?_
  set c : Block := ⟨b.addr, b.span - (need + 2), false⟩
  have hkeep₂ : ∀ v ∈ keep, v < c.addr ∨ c.foot < v := by
    intro v hv
    have hfoot : c.foot = b.addr + (b.span - (need + 2)) - 1 := rfl
    rcases hkeep v hv with hlt | hgt
    · exact Or.inl hlt
    · exact Or.inr (by omega)
  have hrest : (released xs c (⟨b.addr + (b.span - (need + 2)), need + 2, true⟩ :: ys)).span
      < 2 ^ 31 := by
    rw [released_of_used hprevUsed (by simp) rfl]
    exact h₂.rep.span_lt (Rep.mem_of_split hT₂)
  refine wp_binPushFront (b := c) h₂ hT₂ hkeep₂ hrest fun s₃ T₃ bl₃ hk₃ hT₃ h₃ _ => ?_
  rw [release_of_used hprevUsed (by simp) rfl] at hT₃
  have hk : Keeps s₁ s₃ := hk₂.trans hk₃
  have hwf : WellFormed keep m₀ s₃ T₃ bl₃ :=
    ⟨h₃, by rw [hT₃]; exact hafter⟩
  refine wp_assertM_gives (fun _ => gives_checkHeapValidity hwf (hcfg.keeps hk)) ?_
  rw [wp_pure, payloadOf_of_lt (by omega)]
  exact hQ s₃ T₃ bl₃ hk hT₃ hwf

/-- The branch of `takeBlock` that hands out the whole block. -/
theorem wp_takeWhole {Q : ℕ → Heap2 → Prop} {s₁ : Heap2} {T₁ : Table} {bl₁ : Fin numBins → List ℕ}
    (h : Work keep m₀ s₁ T₁ {b.addr} bl₁) (hc : Coalesced T₁.blocks)
    (hcfg : Fuelled cfg s₁) (hT : T₁.blocks = xs ++ b :: ys)
    (hspan : ¬ need + 4 ≤ b.span)
    (hQ : ∀ s' T' bl', Keeps s₁ s' → T'.blocks = xs ++ allocate b (need + 2) ++ ys →
      WellFormed keep m₀ s' T' bl' → Q ((allocated b (need + 2)).addr + 1) s') :
    wp (do
      chunkSetStatus cfg b.addr chunkUsed
      assertM cfg.asserts (checkHeapValidity cfg)
      return payloadOf b.addr : Exec Heap2 ℕ) Q s₁ := by
  have hmb : b ∈ T₁.blocks := Rep.mem_of_split hT
  have hbb := h.rep.bounds hmb
  have hhi := h.rep.hi_lt
  have hfits : ¬ b.span ≥ need + 2 + 2 := hspan
  have hblocks : xs ++ allocate b (need + 2) ++ ys = xs ++ { b with used := true } :: ys := by
    simp [allocate, hfits]
  have hcoal := hc
  rw [hT] at hcoal
  have hafter := hcoal.replaceUsed
  rw [allocated, if_neg hfits, hblocks] at hQ
  simp only [wp_bind, wp_lift]
  refine h.rep.wp_setStatus (u := true) hT (fun hfalse => by cases hfalse) fun m₂ hm₂ => ?_
  set c : Block := { b with used := true }
  have hwf : WellFormed keep m₀ { s₁ with mem := m₂ } (T₁.setBlocks (xs ++ c :: ys)) bl₁ :=
    ⟨⟨hm₂, h.lists.withUsed h.rep hT⟩, hafter⟩
  refine wp_assertM_gives (fun _ => gives_checkHeapValidity hwf hcfg) ?_
  rw [wp_pure, payloadOf_of_lt (by omega)]
  exact hQ _ _ bl₁ (keeps_setMem s₁ m₂) rfl hwf

/-- **Allocating from a block**: a free block that is large enough is detached and split, or handed
out whole. -/
theorem wp_takeBlock {Q : ℕ → Heap2 → Prop} (h : WellFormed keep m₀ s T bl)
    (hT : T.blocks = xs ++ b :: ys) (hb : b.used = false) (hspan : need + 2 ≤ b.span)
    (hcfg : Fuelled cfg s)
    (hQ : ∀ s' T' bl', Keeps s s' → T'.blocks = xs ++ allocate b (need + 2) ++ ys →
      WellFormed keep m₀ s' T' bl' → Q ((allocated b (need + 2)).addr + 1) s') :
    wp (takeBlock cfg b.addr need) Q s := by
  have hmb : b ∈ T.blocks := Rep.mem_of_split hT
  have hlt := h.work.rep.span_lt hmb
  have hmem := h.work.mem_bin hmb hb (Set.notMem_empty _)
  have hsize : toSize (b.span : ℤ) = b.span := toSize_of_lt (by omega)
  have hneed := @splitThreshold need (by omega)
  unfold takeBlock
  rw [wp_bind]
  refine wp_binDetach h.work hmb hmem fun s₁ T₁ hk₁ hT₁ h₁ => ?_
  rw [LawfulSingleton.insert_empty_eq] at h₁
  have hc₁ : Coalesced T₁.blocks := by
    rw [hT₁]
    exact h.coalesced
  have hmb₁ : b ∈ T₁.blocks := by rwa [hT₁]
  have hQ₁ : ∀ s' T' bl', Keeps s₁ s' → T'.blocks = xs ++ allocate b (need + 2) ++ ys →
      WellFormed keep m₀ s' T' bl' → Q ((allocated b (need + 2)).addr + 1) s' :=
    fun s' T' bl' hk => hQ s' T' bl' (hk₁.trans hk)
  simp only [wp_bind, wp_lift]
  rw [(h₁.rep.tagged hmb₁).gives_getSpan.wp_iff, hsize, hneed, wp_ite]
  constructor
  · intro hsplit
    have hw := wp_takeSplit h₁ hc₁ (hcfg.keeps hk₁) (hT₁.trans hT) hb hsplit hQ₁
    simpa only [wp_bind] using hw
  · intro hwhole
    have hw := wp_takeWhole h₁ hc₁ (hcfg.keeps hk₁) (hT₁.trans hT) hwhole hQ₁
    simpa only [wp_bind, wp_lift] using hw

/-! ### The search loops -/

/-- **First fit** in what is left of a bin. -/
theorem wp_searchBin {Q : Option ℕ → Heap2 → Prop} (h : WellFormed keep m₀ s T bl)
    (l₁ l₂ : List ℕ) (fuel : ℕ) (hl : bl i = l₁ ++ l₂) (hfuel : l₂.length < fuel)
    (hnone : (∀ b ∈ T.blocks, b.addr ∈ l₂ → b.span < need + 2) → Q none s)
    (hsome : ∀ b ∈ T.blocks, b.used = false → need + 2 ≤ b.span →
      wp (takeBlock cfg b.addr need) (fun p s' => Q (some p) s') s) :
    wp (searchBin cfg need fuel (l₂.headD null)) Q s := by
  induction l₂ generalizing l₁ fuel with
  | nil =>
    obtain ⟨n, rfl⟩ := Nat.exists_eq_succ_of_ne_zero (Nat.ne_of_gt hfuel)
    exact (wp_pure none).mpr (hnone fun _ _ hm => absurd hm (List.not_mem_nil))
  | cons p l ih =>
    obtain ⟨n, rfl⟩ := Nat.exists_eq_succ_of_ne_zero (Nat.ne_of_gt (Nat.zero_lt_of_lt hfuel))
    have hr := h.work.rep
    have hp : p ∈ bl i := by simp [hl]
    have hpn : p ≠ null := by
      intro he
      exact h.work.lists.null_not_mem hr (he ▸ hp)
    obtain ⟨b, hb, rfl, hfree, hbin⟩ := h.work.lists.block hp
    have hbb := hr.bounds hb
    have hlt := hr.span_lt hb
    have hpayload := payloadOfSpan hbb.2.2.1 hlt
    show wp (searchBin cfg need (n + 1) b.addr) Q s
    simp only [searchBin, if_neg hpn, wp_bind, wp_lift]
    rw [(hr.tagged hb).gives_getSpan.wp_iff, hpayload, wp_ite]
    constructor
    · intro hfit
      rw [wp_bind]
      refine (hsome b hb hfree (by omega)).mono fun p s' hQ => ?_
      rwa [wp_pure]
    · intro hsmall
      simp only [wp_bind, wp_lift]
      rw [(h.work.lists.gives_next hr hl).wp_iff]
      refine ih (l₁ ++ [b.addr]) n (by simp [hl]) (by simpa using hfuel) fun hall => hnone ?_
      intro c hc hm
      rcases List.mem_cons.mp hm with hcb | hm
      · rw [hr.eq_of_addr hc hb hcb]
        omega
      · exact hall c hc hm

theorem wp_searchBins {Q : Option ℕ → Heap2 → Prop} (h : WellFormed keep m₀ s T bl)
    (hcfg : Fuelled cfg s) (is : List (Fin numBins))
    (hnone : (∀ i ∈ is, ∀ b ∈ T.blocks, b.addr ∈ bl i → b.span < need + 2) → Q none s)
    (hsome : ∀ b ∈ T.blocks, b.used = false → need + 2 ≤ b.span →
      wp (takeBlock cfg b.addr need) (fun p s' => Q (some p) s') s) :
    wp (searchBins cfg need is) Q s := by
  induction is with
  | nil => exact (wp_pure none).mpr (hnone fun _ hm => absurd hm (List.not_mem_nil))
  | cons i is ih =>
    have hlen := h.bin_lt hcfg i
    simp only [searchBins, getBin, wp_bind, wp_reads]
    rw [h.work.lists.head i]
    refine wp_searchBin h [] (bl i) cfg.fuel rfl hlen (fun hbin => ?_)
      fun b hb hfree hspan => ?_
    · refine ih fun hrest => hnone fun j hj => ?_
      rcases List.mem_cons.mp hj with rfl | hj
      · exact hbin
      · exact hrest j hj
    · refine (hsome b hb hfree hspan).mono fun p s' hQ => ?_
      rwa [wp_pure]

/-! ### The bins searched hold every block that fits -/

theorem mem_binsFrom (i j : Fin numBins) : i ∈ binsFrom j ↔ j ≤ i := by
  revert i j
  decide

/-- One step down two ladders of thresholds. -/
theorem ladder_mono {n : ℕ} {p q : Prop} [Decidable p] [Decidable q] {a x y : Fin n} (hqp : q → p)
    (hay : a ≤ y) (hxy : x ≤ y) : (if p then a else x) ≤ if q then a else y := by
  by_cases hq : q
  · rw [if_pos hq, if_pos (hqp hq)]
  · rw [if_neg hq]
    split
    · exact hay
    · exact hxy

/-- Larger spans are in the same bin or a later one. -/
theorem getBinIndex_mono {m n : ℤ} (h : m ≤ n) : getBinIndex m ≤ getBinIndex n := by
  unfold getBinIndex
  repeat' refine ladder_mono (fun hlt => Int.lt_of_le_of_lt h hlt) ?_ ?_
  all_goals first | decide | (split_ifs <;> decide)

/-- **The search** from the bin of a span that fits: it finds a block exactly when there is one. -/
theorem wp_search {Q : Option ℕ → Heap2 → Prop} (h : WellFormed keep m₀ s T bl)
    (hcfg : Fuelled cfg s) (j : Fin numBins)
    (hj : ∀ b ∈ T.blocks, b.used = false → need + 2 ≤ b.span → j ≤ binOf b.span)
    (hnone : (∀ b ∈ T.blocks, b.used = false → b.span < need + 2) → Q none s)
    (hsome : ∀ xs b ys, T.blocks = xs ++ b :: ys → b.used = false → need + 2 ≤ b.span →
      ∀ s' T' bl', Keeps s s' → T'.blocks = xs ++ allocate b (need + 2) ++ ys →
        WellFormed keep m₀ s' T' bl' → Q (some ((allocated b (need + 2)).addr + 1)) s') :
    wp (searchBins cfg need (binsFrom j)) Q s := by
  refine wp_searchBins h hcfg (binsFrom j) (fun hall => hnone fun b hb hfree => ?_)
    fun b hb hfree hspan => ?_
  · by_contra hfit
    have hbin : binOf b.span ∈ binsFrom j := (mem_binsFrom _ _).mpr (hj b hb hfree (by omega))
    exact hfit (hall _ hbin b hb (h.work.mem_bin hb hfree (Set.notMem_empty _)))
  · obtain ⟨xs, ys, hT⟩ := List.append_of_mem hb
    exact wp_takeBlock h hT hfree hspan hcfg (hsome xs b ys hT hfree hspan)

/-! ### Growing the heap -/

theorem wp_sysGrowAndLink {Q : ℕ → Heap2 → Prop} (h : WellFormed keep m₀ s T bl) (hos : OsOk s)
    (hneed : need < 2 ^ 60) (hfits : GrowthFits s T.blocks need)
    (hrefused : ¬ s.os.Accepts (growSpan need) →
      Q null { s with os := { s.os with calls := s.os.calls + 1 } })
    (hgrown : s.os.Accepts (growSpan need) → s.os.brk + growSpan need ≤ s.os.limit →
      ∀ c s' T' bl', c ≠ null → Grown (growSpan need) s s' →
      T'.blocks = release T.blocks ⟨s.sHeapHi, growSpan need, false⟩ [] →
      WellFormed keep m₀ s' T' bl' → Q c s') :
    wp (sysGrowAndLink cfg need) Q s := by
  have hr := h.work.rep
  unfold sysGrowAndLink
  refine wp_growBlock hr hos hneed hfits hrefused fun haccepts hlimit hnull hbelow m₁ hgrow => ?_
  set c : Block := ⟨s.sHeapHi, growSpan need, false⟩
  set T₁ := ((T.setBlocks (T.blocks ++ [c])).setNext s.sHeapHi null).setPrev s.sHeapHi null
  set s₁ : Heap2 := { s with mem := m₁, sHeapHi := s.sHeapHi + growSpan need,
                             os := { s.os with brk := s.sHeapHi + growSpan need,
                                               calls := s.os.calls + 1 } }
  have hg₁ : Grown (growSpan need) s s₁ := ⟨rfl, rfl, rfl, by rw [hos.brk]⟩
  have h₁ : Work keep m₀ s₁ T₁ {c.addr} bl := ⟨hgrow, h.work.lists.grown hr⟩
  have hT₁ : T₁.blocks = T.blocks ++ c :: [] := rfl
  have hkeep : ∀ v ∈ keep, v < c.addr ∨ c.foot < v := fun v hv => Or.inl (hbelow v hv)
  rw [wp_bind]
  refine wp_binPushFront (b := c) (T := T₁) h₁ hT₁ hkeep (hfits haccepts).2
    fun s₂ T₂ bl₂ hk₂ hT₂ h₂ _ => ?_
  have hwf : WellFormed keep m₀ s₂ T₂ bl₂ :=
    ⟨h₂, by rw [hT₂]; exact h.coalesced.release List.isChain_nil⟩
  rw [wp_pure]
  exact hgrown haccepts hlimit _ s₂ T₂ bl₂ hnull (hg₁.keeps hk₂) hT₂ hwf

/-! ### The two entry points -/

/-- The search starts low enough. -/
theorem getBinIndex_need {keep : Set ℕ} {m₀ m : Mem} {lo hi : ℕ} (hr : Rep keep m₀ m lo hi T)
    (hb : b ∈ T.blocks) (hspan : need + 2 ≤ b.span) :
    getBinIndex (addInt 2 (toInt need)) ≤ binOf b.span := by
  have hlt := hr.span_lt hb
  have hadd : addInt 2 (toInt need) = (2 + need : ℕ) := by
    rw [toInt_of_lt (by omega)]
    exact addInt_of_lt (a := 2) (b := need) (by omega)
  rw [hadd]
  exact getBinIndex_mono (by exact_mod_cast (show 2 + need ≤ b.span by omega))

/-- Where no free block is large enough, `heapmgr_malloc` comes to what follows the search. -/
theorem heapmgrMalloc_noneFits {size : ℕ} (h : WellFormed keep m₀ s T bl)
    (hboot : s.sHeapBooted = true) (hfuel : Fuelled cfg s) (hsize : 0 < size)
    (hn : bytesToPayloadUnits size = need) (hnone : NoneFits T.blocks (need + 2)) :
    heapmgrMalloc cfg size s = (do
      let cur ← sysGrowAndLink cfg need
      if cur = null then
        assertM cfg.asserts (checkHeapValidity cfg)
        return null
      else
      let growData := if need < sysMinAllocUnits then sysMinAllocUnits else need
      let found ← searchBins cfg need (binsFrom (getBinIndex (toInt (addSize 2 growData))))
      match found with
      | some p => return p
      | none =>
        assert cfg.asserts False
        return null : Exec Heap2 ℕ) s := by
  have hvalid : Gives (assertM cfg.asserts (checkHeapValidity cfg)) s () :=
    gives_assertM fun _ => gives_checkHeapValidity h hfuel
  have hsearch : Gives (searchBins cfg need (binsFrom (getBinIndex (addInt 2 (toInt need))))) s
      none := by
    refine gives_of_wp (wp_search h hfuel _ (fun b hb _ hspan => getBinIndex_need h.work.rep hb hspan)
      (fun _ => ⟨rfl, rfl⟩) ?_)
    intro xs b ys hT hfree hspan
    have hlt := hnone b (Rep.mem_of_split hT) hfree
    omega
  unfold heapmgrMalloc
  rw [if_neg (Nat.ne_of_gt hsize), bind_of_ok (heapBootstrap_booted hboot), bind_of_ok hvalid, hn]
  exact bind_of_ok hsearch

/-- Where some free block is large enough, one that is serves the request. -/
theorem wp_heapmgrMalloc_fits {Q : ℕ → Heap2 → Prop} {size : ℕ} (h : WellFormed keep m₀ s T bl)
    (hboot : s.sHeapBooted = true) (hfuel : Fuelled cfg s) (hsize : 0 < size)
    (hn : bytesToPayloadUnits size = need) (hsome : ¬ NoneFits T.blocks (need + 2))
    (hfit : ∀ xs b ys, T.blocks = xs ++ b :: ys → b.used = false → need + 2 ≤ b.span →
      ∀ s' T' bl', Keeps s s' → T'.blocks = xs ++ allocate b (need + 2) ++ ys →
        WellFormed keep m₀ s' T' bl' → Q ((allocated b (need + 2)).addr + 1) s') :
    wp (heapmgrMalloc cfg size) Q s := by
  unfold heapmgrMalloc
  rw [if_neg (Nat.ne_of_gt hsize)]
  simp only [heapBootstrap, wp_bind, wp_reads, hboot, if_true, wp_pure]
  refine wp_assertM_gives (fun _ => gives_checkHeapValidity h hfuel) ?_
  simp only [hn]
  refine wp_search h hfuel _ (fun b hb _ hspan => getBinIndex_need h.work.rep hb hspan)
    (fun hnone => absurd hnone hsome) fun xs b ys hT hfree hspan s' T' bl' hk hT' hwf => ?_
  exact (wp_pure _).mpr (hfit xs b ys hT hfree hspan s' T' bl' hk hT' hwf)

/-- **`heapmgr_malloc`** on a booted heap, for any number of bytes. -/
theorem wp_heapmgrMalloc {Q : ℕ → Heap2 → Prop} {size : ℕ} (h : WellFormed keep m₀ s T bl)
    (hos : OsOk s) (hboot : s.sHeapBooted = true) (hcfg : Limited cfg.fuel s) (hsize : 0 < size)
    (hn : bytesToPayloadUnits size = need)
    (hfits : NoneFits T.blocks (need + 2) → GrowthFits s T.blocks need)
    (hfit : ∀ xs b ys, T.blocks = xs ++ b :: ys → b.used = false → need + 2 ≤ b.span →
      ∀ s' T' bl', Keeps s s' → T'.blocks = xs ++ allocate b (need + 2) ++ ys →
        WellFormed keep m₀ s' T' bl' → Q ((allocated b (need + 2)).addr + 1) s')
    (hrefused : NoneFits T.blocks (need + 2) → ¬ s.os.Accepts (growSpan need) →
      Q null { s with os := { s.os with calls := s.os.calls + 1 } })
    (hgrown : NoneFits T.blocks (need + 2) → s.os.Accepts (growSpan need) →
      s.os.brk + growSpan need ≤ s.os.limit → ∀ xs b ys,
        release T.blocks ⟨s.sHeapHi, growSpan need, false⟩ [] = xs ++ b :: ys →
        b.used = false → need + 2 ≤ b.span → ∀ s' T' bl', Grown (growSpan need) s s' →
        T'.blocks = xs ++ allocate b (need + 2) ++ ys → WellFormed keep m₀ s' T' bl' →
        Q ((allocated b (need + 2)).addr + 1) s') :
    wp (heapmgrMalloc cfg size) Q s := by
  have hneedLt : need < 2 ^ 60 := hn ▸ bytesToPayloadUnits_lt size
  have hfuel : Fuelled cfg s := hos.within hcfg
  by_cases hnone : NoneFits T.blocks (need + 2)
  swap
  · exact wp_heapmgrMalloc_fits h hboot hfuel hsize hn hnone hfit
  rw [wp_congr (heapmgrMalloc_noneFits h hboot hfuel hsize hn hnone), wp_bind]
  refine wp_sysGrowAndLink h hos hneedLt (hfits hnone) (fun hno => ?_)
    fun haccepts hlimit c s₁ T₁ bl₁ hc hg₁ hT₁ h₁ => ?_
  · have hwf : WellFormed keep m₀ { s with os := { s.os with calls := s.os.calls + 1 } } T bl :=
      ⟨⟨h.work.rep, h.work.lists⟩, h.coalesced⟩
    have hfuel' : Fuelled cfg { s with os := { s.os with calls := s.os.calls + 1 } } := hfuel
    rw [if_pos rfl, wp_bind]
    refine wp_assertM_gives (fun _ => gives_checkHeapValidity hwf hfuel') ?_
    exact (wp_pure _).mpr (hrefused hnone hno)
  · have hg : need + 2 ≤ growSpan need := by
      unfold growSpan
      omega
    have hglt := (hfits hnone haccepts).1
    have hfuel₁ : Fuelled cfg s₁ := (hos.grown hg₁ hlimit).within (hcfg.grown hg₁)
    rw [if_neg hc]
    simp only [growData_eq hneedLt, toInt_of_lt hglt, wp_bind]
    refine wp_search h₁ hfuel₁ _ (fun b hb hfree hspan => ?_) (fun hnone₁ => ?_)
      fun xs b ys hT hfree hspan s' T' bl' hk hT' hwf => ?_
    · -- only the grown block fits, so the search may start at its bin
      rw [hT₁] at hb
      refine getBinIndex_mono (Int.ofNat_le.mpr ?_)
      rcases mem_release_last hb with hold | hnew
      · have := hnone b hold hfree
        omega
      · exact hnew
    · obtain ⟨b, hb, hfree, hspan⟩ := exists_grown T.blocks s.sHeapHi (growSpan need)
      rw [← hT₁] at hb
      have := hnone₁ b hb hfree
      omega
    · refine (wp_pure _).mpr (hgrown hnone haccepts hlimit xs b ys ?_ hfree hspan s' T' bl'
        (hg₁.keeps hk) hT' hwf)
      rw [← hT₁, hT]

/-- **`heapmgr_free`** of a used block. -/
theorem wp_heapmgrFree {Q : Unit → Heap2 → Prop} (h : WellFormed keep m₀ s T bl)
    (hcfg : Fuelled cfg s) (hT : T.blocks = xs ++ b :: ys) (hb : b.used = true)
    (hkeep : ∀ v ∈ keep, v < b.addr ∨ b.foot < v) (hsmall : (released xs b ys).span < 2 ^ 31)
    (hQ : ∀ s' T' bl', Keeps s s' → T'.blocks = release xs b ys →
      WellFormed keep m₀ s' T' bl' → Q () s') :
    wp (heapmgrFree cfg (b.addr + 1)) Q s := by
  have hr := h.work.rep
  have hmb : b ∈ T.blocks := Rep.mem_of_split hT
  have hbb := hr.bounds hmb
  have hlo := hr.lo_pos
  have hhi := hr.hi_lt
  have hheader := headerFromPayload_succ (p := b.addr) (by omega)
  have hvalid : Gives (chunkIsValid cfg b.addr s.sHeapLo s.sHeapHi) s.mem true :=
    (hr.tagged hmb).gives_isValid
  have hstatus : Gives (chunkGetStatus cfg b.addr) s.mem chunkUsed := by
    have hg : Gives (chunkGetStatus cfg b.addr) s.mem _ := h.work.rep.gives_status hmb
    rwa [hb] at hg
  have hidle := h.work.lists.idle_used hr hmb hb
  have hunlinked : Gives (do
      let next ← chunkGetNextFree cfg b.addr
      if next ≠ null then return false else
      let prev ← chunkGetPrevFree cfg b.addr
      return prev == null : Exec Heap2 Bool) s true := by
    have hnext : Gives (chunkGetNextFree cfg b.addr) s.mem _ :=
      hr.gives_getNext hmb (Or.inl hidle.1)
    have hprev : Gives (chunkGetPrevFree cfg b.addr) s.mem _ :=
      hr.gives_getPrev hmb (Or.inl hidle.2)
    rw [hidle.1] at hnext
    rw [hidle.2] at hprev
    exact (gives_lift hnext).bind ((gives_lift hprev).bind (gives_pure true))
  have hwork : Work keep m₀ s T {b.addr} bl := ⟨hr, h.work.lists.hold hr hmb hb⟩
  have hnull : b.addr + 1 ≠ null := Nat.succ_ne_zero _
  have hcoal := h.coalesced
  rw [hT, coalesced_append_cons] at hcoal
  unfold heapmgrFree
  simp only [heapLo, heapHi, wp_bind, wp_reads, wp_assert, if_neg hnull, hheader]
  refine ⟨fun _ => ⟨by unfold null; omega, by unfold null; omega⟩,
    fun _ => Or.inr ⟨by omega, by omega⟩, ?_⟩
  refine wp_assertM_gives (fun _ => gives_checkHeapValidity h hcfg) ?_
  refine ⟨fun _ => hr.addr_ne_null hmb, ?_⟩
  refine wp_assertM_gives (fun _ => gives_lift hvalid) ?_
  refine wp_assertM_gives (fun _ => (gives_lift hstatus).beq) ?_
  refine wp_assertM_gives (fun _ => hunlinked) ?_
  refine wp_binPushFront hwork hT hkeep hsmall fun s₁ T₁ bl₁ hk₁ hT₁ h₁ hstale => ?_
  have hwf : WellFormed keep m₀ s₁ T₁ bl₁ :=
    ⟨h₁, by rw [hT₁]; exact hcoal.1.release hcoal.2.1⟩
  have hfreed : Gives (chunkGetStatus cfg b.addr) s₁.mem chunkFree := by
    apply gives_of_wp
    simpa [chunkGetStatus, cell, hr.addr_ne_null hmb] using hstale
  refine wp_assertM_gives (fun _ => (gives_lift hfreed).beq) ?_
  refine wp_assertM_gives (fun _ => gives_checkHeapValidity hwf (hcfg.keeps hk₁)) ?_
  exact hQ s₁ T₁ bl₁ hk₁ hT₁ hwf

end SystemProgramming.HeapMgr.Heapmgr2
