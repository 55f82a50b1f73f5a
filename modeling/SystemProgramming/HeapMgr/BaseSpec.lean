import SystemProgramming.HeapMgr.BaseBlocks

/-!
# The functions of the reference manager, one by one

Between two calls the free list runs through the free blocks in the order of their addresses (`Work`) and no two
neighbours are free.  Each function is specified by what it does to the sequence of blocks; inserting a block is
`release`, whichever of its neighbours it is merged with.

* `gives_checkHeapValidity`: the validity check succeeds on every heap in order.
* `wp_coalesceTwo`: two free neighbours are merged.
* `wp_freelistInsertAfter`, `wp_freelistPushFront`: a block is released, in the list or in front of it.
-/

namespace SystemProgramming.HeapMgr.Base

open Exec CInt

/-! ### The free blocks -/

/-- Where the free blocks begin, in the order of their addresses. -/
def freeAddrs (bs : List Block) : List ℕ := (bs.filter fun b => !b.used).map Block.addr

variable {cfg : Cfg} {keep : Set ℕ} {m₀ : Mem} {s : BaseHeap} {bs xs ys : List Block} {a b c : Block}
  {lo hi p need : ℕ}

@[simp] theorem freeAddrs_nil : freeAddrs [] = [] := rfl

@[simp] theorem freeAddrs_append : freeAddrs (xs ++ ys) = freeAddrs xs ++ freeAddrs ys := by
  simp [freeAddrs]

theorem freeAddrs_free (h : b.used = false) : freeAddrs (b :: bs) = b.addr :: freeAddrs bs := by
  simp [freeAddrs, h]

theorem freeAddrs_used (h : b.used = true) : freeAddrs (b :: bs) = freeAddrs bs := by
  simp [freeAddrs, h]

theorem mem_freeAddrs : p ∈ freeAddrs bs ↔ ∃ b ∈ bs, b.used = false ∧ b.addr = p := by
  simp [freeAddrs, and_assoc]

theorem length_freeAddrs_le : (freeAddrs bs).length ≤ bs.length := by
  unfold freeAddrs
  rw [List.length_map]
  exact List.length_filter_le ..

theorem nodup_freeAddrs (h : Tiles Block.addr Block.span lo hi bs) : (freeAddrs bs).Nodup :=
  h.nodup_starts.sublist ((List.filter_sublist).map _)

/-- The headers show the blocks, and the free ones are linked in order. -/
structure Shown (keep : Set ℕ) (m₀ m : Mem) (lo hi : ℕ) (bs : List Block) : Prop
    extends Laid keep m₀ m lo hi bs where
  leads : Leads (links m) null (freeAddrs bs)

/-- The free list of the heap is that of its blocks. -/
structure Work (keep : Set ℕ) (m₀ : Mem) (s : BaseHeap) (bs : List Block) : Prop
    extends Shown keep m₀ s.mem s.sHeapLo s.sHeapHi bs where
  head : s.sFree = (freeAddrs bs).headD null

theorem Laid.null_not_mem {m : Mem} (h : Laid keep m₀ m lo hi bs) : null ∉ freeAddrs bs := by
  intro hnull
  obtain ⟨b, hb, -, haddr⟩ := mem_freeAddrs.mp hnull
  exact h.addr_ne_null hb haddr

theorem used_of_no_free (h : freeAddrs bs = []) (b : Block) (hb : b ∈ bs) : b.used = true := by
  cases hu : b.used with
  | true => rfl
  | false =>
    have hmem : b.addr ∈ freeAddrs bs := mem_freeAddrs.mpr ⟨b, hb, hu, rfl⟩
    rw [h] at hmem
    cases hmem

/-- The head is `NULL` when nothing is free. -/
theorem Laid.headD_eq_null {m : Mem} (h : Laid keep m₀ m lo hi (xs ++ ys)) :
    (freeAddrs ys).headD null = null ↔ freeAddrs ys = [] := by
  have hout := h.null_not_mem
  rw [freeAddrs_append] at hout
  cases hys : freeAddrs ys with
  | nil => exact iff_of_true rfl rfl
  | cons p l =>
    refine iff_of_false (fun hp => hout ?_) (List.cons_ne_nil _ _)
    rw [hys, show p = null from hp]
    simp

/-- A block that begins at a free address is free. -/
theorem Laid.free_of_mem {m : Mem} (h : Laid keep m₀ m lo hi bs) (hb : b ∈ bs) (hp : b.addr ∈ freeAddrs bs) :
    b.used = false := by
  obtain ⟨c, hc, hfree, haddr⟩ := mem_freeAddrs.mp hp
  rwa [← h.tiles.eq_of_start hc hb haddr]

/-! ### `check_heap_validity` -/

theorem gives_walkBlocks (h : Laid keep m₀ s.mem s.sHeapLo s.sHeapHi bs) (xs ys : List Block) (fuel : ℕ)
    (hbs : bs = xs ++ ys) (hfuel : ys.length < fuel) :
    Gives (walkBlocks cfg fuel ((ys.map Block.addr).headD null)) s true := by
  induction ys generalizing xs fuel with
  | nil =>
    obtain ⟨n, rfl⟩ := Nat.exists_eq_succ_of_ne_zero (Nat.ne_of_gt hfuel)
    apply gives_of_wp
    simp [walkBlocks, heapLo, heapHi]
  | cons b ys ih =>
    obtain ⟨n, rfl⟩ := Nat.exists_eq_succ_of_ne_zero (Nat.ne_of_gt (Nat.zero_lt_of_lt hfuel))
    have hb : b ∈ bs := by simp [hbs]
    have hbounds := h.tiles.bounds hb
    have hrest := ih (xs ++ [b]) n (by simp [hbs]) (by simpa using hfuel)
    have hgo : ¬ ¬ (b.addr ≠ null ∧ b.addr < s.sHeapHi) := not_not.mpr ⟨h.addr_ne_null hb, by omega⟩
    have hnext := hbs ▸ h
    show Gives (walkBlocks cfg (n + 1) b.addr) s _
    apply gives_of_wp
    unfold walkBlocks heapLo heapHi
    simp only [wp_bind, wp_reads]
    rw [if_neg hgo, wp_bind, wp_lift, h.gives_isValid hb |>.wp_iff, if_neg Bool.true_eq_false.mp, wp_bind, wp_lift,
      hnext.gives_adjacent.wp_iff, hrest.wp_iff]
    exact ⟨rfl, rfl⟩

theorem gives_walkList (h : Shown keep m₀ s.mem s.sHeapLo s.sHeapHi bs) (hc : Coalesced bs)
    (xs ys : List Block) (fuel : ℕ) (hbs : bs = xs ++ ys) (hfuel : (freeAddrs ys).length < fuel) :
    Gives (walkList cfg fuel ((freeAddrs ys).headD null)) s true := by
  induction ys generalizing xs fuel with
  | nil =>
    obtain ⟨n, rfl⟩ := Nat.exists_eq_succ_of_ne_zero (Nat.ne_of_gt hfuel)
    exact gives_pure true
  | cons b ys ih =>
    have hsnoc : bs = (xs ++ [b]) ++ ys := by simp [hbs]
    cases hfree : b.used with
    | true =>
      rw [freeAddrs_used hfree] at hfuel ⊢
      exact ih (xs ++ [b]) fuel hsnoc hfuel
    | false =>
      rw [freeAddrs_free hfree] at hfuel ⊢
      obtain ⟨n, rfl⟩ := Nat.exists_eq_succ_of_ne_zero (Nat.ne_of_gt (Nat.zero_lt_of_lt hfuel))
      have hb : b ∈ bs := by simp [hbs]
      have hrest := ih (xs ++ [b]) n hsnoc (by simpa using hfuel)
      have hlinks : links s.mem b.addr = (freeAddrs ys).headD null := by
        have hleads := h.leads
        rw [hbs, freeAddrs_append, freeAddrs_free hfree] at hleads
        exact hleads.next_eq
      have hnext := hbs ▸ h.toLaid
      -- the block behind a free one is used, so it is not the next one in the list
      have happart : ¬ ((ys.map Block.addr).headD null ≠ null ∧
          (ys.map Block.addr).headD null = links s.mem b.addr) := by
        rintro ⟨hne, heq⟩
        cases ys with
        | nil => exact hne rfl
        | cons y ys =>
          rw [hbs] at hc
          have hy : y.used = true := hc.next_used hfree y rfl
          have hmem : y.addr ∈ freeAddrs bs := by
            rw [hlinks] at heq
            rw [hsnoc, freeAddrs_append]
            apply List.mem_append_right
            cases hfs : freeAddrs (y :: ys) with
            | nil =>
              rw [hfs] at heq
              exact absurd heq hne
            | cons p l =>
              rw [hfs] at heq
              rw [show y.addr = p from heq]
              exact List.mem_cons_self
          rw [h.free_of_mem (by simp [hbs]) hmem] at hy
          cases hy
      show Gives (walkList cfg (n + 1) b.addr) s _
      apply gives_of_wp
      unfold walkList heapLo heapHi
      rw [if_neg (h.addr_ne_null hb)]
      simp only [wp_bind, wp_reads, wp_lift]
      have hstatus : ¬ statusOf false ≠ chunkFree := not_not.mpr rfl
      rw [(h.gives_status hb).wp_iff, hfree, if_neg hstatus, wp_bind, wp_lift,
        (h.gives_isValid hb).wp_iff, if_neg Bool.true_eq_false.mp]
      simp only [wp_bind, wp_lift]
      rw [hnext.gives_adjacent.wp_iff, (gives_next (h.addr_ne_null hb)).wp_iff, if_neg happart, hlinks,
        hrest.wp_iff]
      exact ⟨rfl, rfl⟩

/-- **The validity check** returns `TRUE` on every heap in order. -/
theorem gives_checkHeapValidity (h : Work keep m₀ s bs) (hc : Coalesced bs) (hfuel : bs.length < cfg.fuel) :
    Gives (checkHeapValidity cfg) s true := by
  have hle := h.tiles.le
  have hpos := h.lo_pos
  have hlo : s.sHeapLo ≠ null := Nat.ne_of_gt hpos
  have hhi : s.sHeapHi ≠ null := Nat.ne_of_gt (Nat.lt_of_lt_of_le hpos hle)
  apply gives_of_wp
  unfold checkHeapValidity heapLo heapHi freeHead
  simp only [wp_bind, wp_reads]
  rw [if_neg hlo, if_neg hhi, wp_bind, wp_reads, wp_ite]
  constructor
  · intro hempty
    have ht := h.tiles
    rw [← hempty] at ht
    have hnil := ht.eq_nil
    rw [wp_pure, h.head, hnil]
    exact ⟨rfl, rfl⟩
  · intro hne
    obtain ⟨b, ys, rfl⟩ : ∃ b ys, bs = b :: ys := by
      cases bs with
      | nil => exact absurd h.tiles hne
      | cons b ys => exact ⟨b, ys, rfl⟩
    have hlen := Nat.lt_of_le_of_lt length_freeAddrs_le hfuel
    have hblocks : Gives (walkBlocks cfg cfg.fuel _) s true :=
      gives_walkBlocks h.toLaid [] (b :: ys) cfg.fuel rfl hfuel
    have hlist : Gives (walkList cfg cfg.fuel _) s true :=
      gives_walkList h.toShown hc [] (b :: ys) cfg.fuel rfl hlen
    rw [show ((b :: ys).map Block.addr).headD null = s.sHeapLo from h.tiles.1] at hblocks
    rw [← h.head] at hlist
    rw [wp_bind, hblocks.wp_iff, if_neg Bool.true_eq_false.mp, hlist.wp_iff]
    exact ⟨rfl, rfl⟩

/-! ### Merging -/

/-- **`coalesce_two`** merges two free neighbours. -/
theorem wp_coalesceTwo {Q : ℕ → BaseHeap → Prop}
    (h : Shown keep m₀ s.mem s.sHeapLo s.sHeapHi (xs ++ a :: b :: ys)) (ha : a.used = false)
    (hb : b.used = false)
    (hQ : ∀ m', Shown keep m₀ m' s.sHeapLo s.sHeapHi (xs ++ ⟨a.addr, a.span + b.span, false⟩ :: ys) →
      Q a.addr { s with mem := m' }) : wp (coalesceTwo cfg a.addr b.addr) Q s := by
  have hamem : a ∈ xs ++ a :: b :: ys := by simp
  have hbmem : b ∈ xs ++ a :: b :: ys := by simp
  have hanull := h.addr_ne_null hamem
  have hbnull := h.addr_ne_null hbmem
  obtain ⟨hba, hapos⟩ := h.tiles.neighbours
  have hab : a.addr < b.addr := by omega
  have hsum : addInt a.span b.span = ((a.span + b.span : ℕ) : ℤ) := by
    have h₁ := h.tiles.bounds hamem
    have h₂ := h.tiles.bounds hbmem
    have h₃ := h.short
    exact addInt_of_lt (by omega)
  have hmerged := h.toLaid.merge ha hb
  have hleads := h.leads
  have hnodup := nodup_freeAddrs h.tiles
  rw [freeAddrs_append, freeAddrs_free ha, freeAddrs_free hb] at hleads hnodup
  have hadjacent : Gives (chunkGetAdjacent cfg a.addr s.sHeapLo s.sHeapHi) s.mem b.addr :=
    h.toLaid.gives_adjacent
  unfold coalesceTwo heapLo heapHi
  simp only [wp_bind, wp_reads, wp_assert]
  refine ⟨fun _ => hab, ?_⟩
  refine wp_assertM_gives (fun _ => (gives_lift hadjacent).beq) ?_
  refine wp_assertM_gives (fun _ => (gives_lift (h.gives_free hamem ha)).beq) ?_
  refine wp_assertM_gives (fun _ => (gives_lift (h.gives_free hbmem hb)).beq) ?_
  simp only [wp_lift, wp_pure]
  rw [(h.gives_span hamem).wp_iff, (h.gives_span hbmem).wp_iff, hsum, wp_setSpan hanull,
    (gives_next hbnull).wp_iff, wp_setNext hanull]
  apply hQ
  have hlinked := hmerged.setLink (b := ⟨a.addr, a.span + b.span, false⟩) (by simp) (links s.mem b.addr)
  refine ⟨?_, ?_⟩
  · rw [links_withSpan]
    exact hlinked
  · rw [links_withLink, links_withSpan, freeAddrs_append, freeAddrs_free rfl]
    exact hleads.remove hnodup

/-- The end of an insertion: `c` absorbs its upper neighbour when that is free. -/
theorem wp_mergeNext {Q : ℕ → BaseHeap → Prop}
    (h : Shown keep m₀ s.mem s.sHeapLo s.sHeapHi (xs ++ c :: ys)) (hc : c.used = false)
    (hQ : ∀ m', Shown keep m₀ m' s.sHeapLo s.sHeapHi (xs ++ (absorbNext c ys).1 :: (absorbNext c ys).2) →
      Q c.addr { s with mem := m' }) : wp (mergeNext cfg c.addr) Q s := by
  have hadjacent : Gives (chunkGetAdjacent cfg c.addr s.sHeapLo s.sHeapHi) s.mem _ := h.toLaid.gives_adjacent
  unfold mergeNext heapLo heapHi
  simp only [wp_bind, wp_reads, wp_lift]
  rw [hadjacent.wp_iff]
  cases ys with
  | nil =>
    rw [if_pos (show ([].map Block.addr).headD null = null from rfl), wp_pure]
    exact hQ s.mem h
  | cons y ys =>
    have hy : y ∈ xs ++ c :: y :: ys := by simp
    rw [if_neg (show ((y :: ys).map Block.addr).headD null ≠ null from h.addr_ne_null hy)]
    simp only [wp_bind, wp_lift]
    show wp (chunkGetStatus y.addr) _ _
    rw [(h.gives_status hy).wp_iff]
    cases hu : y.used with
    | true =>
      rw [if_pos (show statusOf true ≠ chunkFree by decide), wp_pure]
      rw [absorbNext_used hu] at hQ
      exact hQ s.mem h
    | false =>
      rw [if_neg (show ¬ statusOf false ≠ chunkFree from not_not.mpr rfl)]
      rw [absorbNext_free hu] at hQ
      refine wp_coalesceTwo h hc hu fun m' hm' => hQ m' ?_
      rwa [hc]

/-! ### Inserting -/

/-- A release merges downwards and then upwards, or the other way round. -/
theorem release_down_up (xs : List Block) (c : Block) (ys : List Block) :
    (absorbPrev xs { c with used := false }).1
        ++ (absorbNext (absorbPrev xs { c with used := false }).2 ys).1
          :: (absorbNext (absorbPrev xs { c with used := false }).2 ys).2 = release xs c ys ∧
      (absorbPrev xs { c with used := false }).2.addr = (released xs c ys).addr := by
  generalize hc' : ({ c with used := false } : Block) = c'
  have hrelease : release xs c ys = (absorbPrev xs (absorbNext c' ys).1).1
      ++ (absorbPrev xs (absorbNext c' ys).1).2 :: (absorbNext c' ys).2 := by
    rw [← hc']
    rfl
  have hreleased : released xs c ys = (absorbPrev xs (absorbNext c' ys).1).2 := by
    rw [← hc']
    rfl
  rw [hrelease, hreleased]
  rcases List.eq_nil_or_concat xs with rfl | ⟨zs, x, rfl⟩
  · exact ⟨rfl, absorbNext_addr.symm⟩
  · rw [List.concat_eq_append]
    cases hx : x.used with
    | true =>
      rw [absorbPrev_used hx, absorbPrev_used hx]
      exact ⟨rfl, absorbNext_addr.symm⟩
    | false =>
      rw [absorbPrev_free hx, absorbPrev_free hx]
      refine ⟨?_, rfl⟩
      cases ys with
      | nil => rfl
      | cons y ys =>
        cases hy : y.used with
        | true => rw [absorbNext_used hy, absorbNext_used hy]
        | false =>
          rw [absorbNext_free hy, absorbNext_free hy]
          show zs ++ (⟨x.addr, x.span + c'.span + y.span, c'.used⟩ : Block) :: ys = _
          rw [Nat.add_assoc]

/-- The first free block after a release. -/
theorem headD_freeAddrs_release (xs : List Block) (c : Block) (ys : List Block) :
    (freeAddrs (release xs c ys)).headD null = (freeAddrs xs).headD c.addr := by
  obtain ⟨hrelease, -⟩ := release_down_up xs c ys
  have hfree : (absorbNext (absorbPrev xs { c with used := false }).2 ys).1.used = false := by
    rw [absorbNext_used_eq, absorbPrev_used_eq]
  rw [← hrelease, freeAddrs_append, freeAddrs_free hfree, headD_append, absorbNext_addr]
  show (freeAddrs (absorbPrev xs _).1).headD (absorbPrev xs { c with used := false }).2.addr = _
  rcases List.eq_nil_or_concat xs with rfl | ⟨zs, x, rfl⟩
  · rfl
  · rw [List.concat_eq_append]
    cases hx : x.used with
    | true => rw [absorbPrev_used hx]
    | false =>
      rw [absorbPrev_free hx, freeAddrs_append, freeAddrs_free hx, headD_append]
      rfl

/-- **`freelist_insert_after`** releases `c`, where `e` is the last free block before it. -/
theorem wp_freelistInsertAfter {Q : ℕ → BaseHeap → Prop} {l : List ℕ} {e : ℕ} (h : Work keep m₀ s (xs ++ c :: ys))
    (hc : c.used = true) (hl : freeAddrs xs = l ++ [e])
    (hkeep : ∀ v ∈ keep, v < c.addr ∨ c.addr + c.span ≤ v)
    (hQ : ∀ s', Keeps s s' → Work keep m₀ s' (release xs c ys) → Q (released xs c ys).addr s') :
    wp (freelistInsertAfter cfg e c.addr) Q s := by
  have hcmem : c ∈ xs ++ c :: ys := by simp
  have hcnull := h.addr_ne_null hcmem
  obtain ⟨b, hb, hbfree, rfl⟩ : ∃ b ∈ xs, b.used = false ∧ b.addr = e :=
    mem_freeAddrs.mp (by rw [hl]; simp)
  have hbmem : b ∈ xs ++ c :: ys := List.mem_append_left _ hb
  have hbnull := h.addr_ne_null hbmem
  have hbc : b.addr < c.addr := by
    have hbounds := (tiles_around.mp h.tiles).1.bounds hb
    omega
  have hleads := h.leads
  have hnodup := nodup_freeAddrs h.tiles
  have hout : c.addr ∉ freeAddrs (xs ++ c :: ys) := fun hp => by
    rw [h.free_of_mem hcmem hp] at hc
    cases hc
  have hwhole : freeAddrs (xs ++ c :: ys) = l ++ b.addr :: freeAddrs ys := by
    rw [freeAddrs_append, freeAddrs_used hc, hl, List.append_assoc]
    rfl
  rw [hwhole] at hleads hnodup hout
  -- linked in and marked free, before anything is merged
  let c' : Block := { c with used := false }
  let m' := withStatus (withLink (withLink s.mem c.addr (links s.mem b.addr)) b.addr c.addr) c.addr chunkFree
  have hwhole' : freeAddrs (xs ++ c' :: ys) = l ++ b.addr :: c.addr :: freeAddrs ys := by
    rw [freeAddrs_append, freeAddrs_free rfl, hl, List.append_assoc]
    rfl
  have hshown : Shown keep m₀ m' s.sHeapLo s.sHeapHi (xs ++ c' :: ys) := by
    refine ⟨((h.setLink hcmem _).setLink hbmem _).setStatus false fun _ => hkeep, ?_⟩
    rw [links_withStatus, links_withLink, links_withLink, hwhole']
    exact hleads.insert hnodup hout
  have hhead : s.sFree = (freeAddrs (release xs c ys)).headD null := by
    rw [headD_freeAddrs_release, h.head, hwhole, hl, headD_append, headD_append]
    rfl
  obtain ⟨hrelease, haddr⟩ := release_down_up xs c ys
  have hfree : (absorbPrev xs c').2.used = false := absorbPrev_used_eq
  have hfinish {m : Mem}
      (hm : Shown keep m₀ m s.sHeapLo s.sHeapHi ((absorbPrev xs c').1 ++ (absorbPrev xs c').2 :: ys)) :
      wp (mergeNext cfg (absorbPrev xs c').2.addr) Q { s with mem := m } := by
    refine wp_mergeNext hm hfree fun m'' hm'' => ?_
    rw [hrelease] at hm''
    rw [haddr]
    exact hQ { s with mem := m'' } (keeps_setMem s m'') ⟨hm'', hhead⟩
  unfold freelistInsertAfter heapLo heapHi
  simp only [wp_bind, wp_reads, wp_assert]
  refine ⟨fun _ => hbc, ?_⟩
  refine wp_assertM_gives (fun _ => (gives_lift (h.gives_free hbmem hbfree)).beq) ?_
  refine wp_assertM_gives (fun _ => ?_) ?_
  · have hstatus := (gives_lift (s := s) (h.gives_status hcmem)).map (· != chunkFree)
    rwa [hc] at hstatus
  simp only [wp_lift]
  rw [(gives_next hbnull).wp_iff, wp_setNext hcnull, wp_setNext hbnull, wp_setStatus hcnull]
  show wp (chunkGetAdjacent cfg b.addr s.sHeapLo s.sHeapHi) _ m'
  rcases List.eq_nil_or_concat xs with rfl | ⟨zs, x, rfl⟩
  · cases hb
  · rw [List.concat_eq_append] at *
    have hxc : zs ++ [x] ++ c' :: ys = zs ++ x :: c' :: ys := by
      rw [List.append_assoc]
      rfl
    cases hx : x.used with
    | true =>
      -- something used stands between the two
      have hbz : b ∈ zs := by
        rcases List.mem_append.mp hb with hbz | hbx
        · exact hbz
        · rw [List.mem_singleton.mp hbx, hx] at hbfree
          cases hbfree
      obtain ⟨ws, vs, rfl⟩ := List.append_of_mem hbz
      have hsplit : ws ++ b :: vs ++ [x] ++ c' :: ys = ws ++ b :: (vs ++ x :: c' :: ys) := by simp
      have hadjacent : Gives (chunkGetAdjacent cfg b.addr s.sHeapLo s.sHeapHi) m' _ :=
        (hsplit ▸ hshown.toLaid).gives_adjacent
      have hne : ((vs ++ x :: c' :: ys).map Block.addr).headD null ≠ c.addr := by
        cases vs with
        | nil => exact hshown.addr_ne (c := x) (Or.inl (by simp))
        | cons v vs => exact hshown.addr_ne (c := v) (Or.inl (by simp))
      rw [hadjacent.wp_iff, if_neg hne, wp_pure]
      rw [absorbPrev_used hx] at hfinish
      exact hfinish hshown
    | false =>
      have hlast := hl
      rw [freeAddrs_append, freeAddrs_free hx] at hlast
      have hbx : b.addr = x.addr := (List.singleton_inj.mp (List.append_inj' hlast rfl).2).symm
      rw [hxc] at hshown
      have hadjacent : Gives (chunkGetAdjacent cfg x.addr s.sHeapLo s.sHeapHi) m' c.addr :=
        hshown.toLaid.gives_adjacent
      rw [hbx, hadjacent.wp_iff, if_pos rfl]
      rw [absorbPrev_free hx] at hfinish
      exact wp_coalesceTwo (b := c') hshown hx rfl fun m hm => hfinish hm

/-- **`freelist_push_front`** releases `c`, where no block before it is free. -/
theorem wp_freelistPushFront {Q : Unit → BaseHeap → Prop} (h : Work keep m₀ s (xs ++ c :: ys))
    (hc : c.used = true) (hl : freeAddrs xs = []) (hkeep : ∀ v ∈ keep, v < c.addr ∨ c.addr + c.span ≤ v)
    (hQ : ∀ s', Keeps s s' → Work keep m₀ s' (release xs c ys) → Q () s') :
    wp (freelistPushFront cfg c.addr) Q s := by
  have hcmem : c ∈ xs ++ c :: ys := by simp
  have hcnull := h.addr_ne_null hcmem
  let c' : Block := { c with used := false }
  have hwhole : freeAddrs (xs ++ c :: ys) = freeAddrs ys := by
    rw [freeAddrs_append, freeAddrs_used hc, hl]
    rfl
  have hwhole' : freeAddrs (xs ++ c' :: ys) = c.addr :: freeAddrs ys := by
    rw [freeAddrs_append, freeAddrs_free rfl, hl]
    rfl
  have hleads := h.leads
  have hout : c.addr ∉ freeAddrs (xs ++ c :: ys) := fun hp => by
    rw [h.free_of_mem hcmem hp] at hc
    cases hc
  rw [hwhole] at hleads hout
  have hhead : s.sFree = (freeAddrs ys).headD null := by rw [h.head, hwhole]
  have hshown : Shown keep m₀ (withLink (withStatus s.mem c.addr chunkFree) c.addr ((freeAddrs ys).headD null))
      s.sHeapLo s.sHeapHi (xs ++ c' :: ys) := by
    have hlaid := h.toLaid.setStatus false fun _ => hkeep
    refine ⟨hlaid.setLink (b := c') (by simp [c']) _, ?_⟩
    rw [links_withLink, links_withStatus, hwhole']
    exact hleads.push hout
  have hdown : absorbPrev xs c' = (xs, c') := absorbPrev_of_used (used_of_no_free hl · ∘ List.mem_of_getLast?)
  obtain ⟨hrelease, -⟩ := release_down_up xs c ys
  rw [hdown] at hrelease
  have hfinish {m : Mem} (hm : Shown keep m₀ m s.sHeapLo s.sHeapHi (release xs c ys)) :
      Q () { s with mem := m, sFree := c.addr } := by
    refine hQ _ (keeps_set s m c.addr) ⟨hm, ?_⟩
    rw [headD_freeAddrs_release, hl]
    rfl
  unfold freelistPushFront freeHead setFreeHead heapLo heapHi
  simp only [wp_bind]
  refine wp_assertM_gives (fun _ => ?_) ?_
  · have hspan := (gives_lift (s := s) (h.gives_span hcmem)).map fun n => decide (n ≥ 1)
    have hpos := (h.tiles.bounds hcmem).2.2
    rwa [decide_eq_true (by omega)] at hspan
  rw [wp_lift, wp_setStatus hcnull, wp_reads]
  cases hfs : freeAddrs ys with
  | nil =>
    have hused : ∀ y ∈ ys.head?, y.used = true := (used_of_no_free hfs · ∘ List.mem_of_head?)
    have hempty : s.sFree = null := by rw [hhead, hfs]; rfl
    rw [absorbNext_of_used hused] at hrelease
    rw [hfs] at hshown
    show wp (if s.sFree = null then _ else _) _ _
    rw [if_pos hempty, wp_bind, wp_modify, wp_lift, wp_setNext hcnull]
    exact hfinish (by rwa [← hrelease])
  | cons p l =>
    have hp : s.sFree = p := by rw [hhead, hfs]; rfl
    obtain ⟨b, hb, hbfree, rfl⟩ : ∃ b ∈ ys, b.used = false ∧ b.addr = p :=
      mem_freeAddrs.mp (by rw [hfs]; exact List.mem_cons_self)
    have hbmem : b ∈ xs ++ c :: ys := by simp [hb]
    have hcb : c.addr < b.addr := by
      obtain ⟨-, hpos, hrest⟩ := tiles_around.mp h.tiles
      have hbounds := hrest.bounds hb
      omega
    have hne : ¬ s.sFree = null := by
      rw [hp]
      exact h.addr_ne_null hbmem
    rw [hfs, List.headD_cons] at hshown
    show wp (if s.sFree = null then _ else _) _ _
    rw [if_neg hne]
    show wp (do assert cfg.asserts (c.addr < s.sFree); _) _ _
    rw [hp]
    simp only [wp_bind, wp_assert, wp_reads, wp_lift]
    refine ⟨fun _ => hcb, ?_⟩
    rw [wp_setNext hcnull]
    have hadjacent : Gives (chunkGetAdjacent cfg c.addr s.sHeapLo s.sHeapHi) _ _ :=
      hshown.toLaid.gives_adjacent (b := c')
    show wp (chunkGetAdjacent cfg c.addr s.sHeapLo s.sHeapHi) _ (withLink _ c.addr b.addr)
    rw [hadjacent.wp_iff]
    obtain ⟨y, ys, rfl⟩ := List.exists_cons_of_ne_nil (List.ne_nil_of_mem hb)
    rw [wp_when]
    cases hy : y.used with
    | true =>
      have hyb : y.addr ≠ b.addr := by
        intro heq
        have hsame : y = b := h.tiles.eq_of_start (by simp) hbmem heq
        rw [hsame, hbfree] at hy
        cases hy
      rw [absorbNext_used hy] at hrelease
      refine ⟨fun heq => absurd heq hyb, fun _ => ?_⟩
      rw [wp_modify]
      exact hfinish (by rwa [← hrelease])
    | false =>
      rw [freeAddrs_free hy] at hfs
      have hyb : y.addr = b.addr := (List.cons.inj hfs).1
      rw [absorbNext_free hy] at hrelease
      refine ⟨fun _ => ?_, fun hne => absurd hyb hne⟩
      rw [← hyb, wp_bind]
      rw [← hyb] at hshown
      refine wp_coalesceTwo (a := c') (b := y) hshown rfl hy fun m hm => ?_
      rw [wp_pure, wp_modify]
      exact hfinish (by rwa [← hrelease])

end SystemProgramming.HeapMgr.Base
