import SystemProgramming.HeapMgr.BaseSpec
import SystemProgramming.HeapMgr.Units

/-!
# `heapmgr_malloc` and `heapmgr_free` of the reference manager

The search finds the free block with the lowest address that is large enough, and the end of it is handed out.  If
there is none, the heap is extended first: the new block is released at the end of the heap, which may merge it
with the block below, and the search is over with the result.

* `wp_searchList`: the search allocates by first fit, or comes to the end of the list.
* `wp_sysGrowAndLink`: the heap is extended, if the kernel grants it.
* `wp_heapmgrMalloc`, `wp_heapmgrFree`: the two calls do what they do on the arena.
-/

namespace SystemProgramming.HeapMgr.Base

open Exec CInt

/-! ### Taking a block -/

/-- Allocate `n` units from the free block `c`: its end, or all of it when it has no more. -/
def carve (c : Block) (n : ℕ) : List Block :=
  if c.span = n then [{ c with used := true }]
  else [⟨c.addr, c.span - n, false⟩, ⟨c.addr + (c.span - n), n, true⟩]

/-- The block that is handed out. -/
def carved (c : Block) (n : ℕ) : Block := ⟨c.addr + (c.span - n), n, true⟩

variable {cfg : Cfg} {keep : Set ℕ} {m₀ : Mem} {s : BaseHeap} {bs xs ys : List Block} {b c : Block}
  {n r prev need : ℕ}

theorem usedBlocks_carve : usedBlocks (xs ++ carve c n ++ ys) = usedBlocks xs ++ carved c n :: usedBlocks ys := by
  rw [usedBlocks_append, usedBlocks_append, List.append_assoc]
  congr 1
  unfold carve carved
  split_ifs with h
  · rw [h, Nat.sub_self, ← h]
    rfl
  · rfl

theorem coalesced_carve (h : Coalesced (xs ++ c :: ys)) (hc : c.used = false) :
    Coalesced (xs ++ carve c n ++ ys) := by
  unfold carve
  split_ifs
  · rw [List.append_assoc]
    exact h.replaceUsed
  · obtain ⟨hxs, hys, hprev, -⟩ := coalesced_append_cons.mp h
    have htail : Coalesced ([] ++ (⟨c.addr + (c.span - n), n, true⟩ : Block) :: ys) :=
      coalesced_append_cons.mpr ⟨List.isChain_nil, hys, nofun, fun _ _ => Or.inl rfl⟩
    rw [List.append_assoc]
    refine coalesced_append_cons.mpr ⟨hxs, htail, fun x hx => ?_, fun y hy => ?_⟩
    · exact Or.inl ((hprev x hx).resolve_right (by rw [hc]; exact Bool.false_ne_true))
    · cases hy
      exact Or.inr rfl

/-- **`freelist_detach`** marks the free block `c` used, where `prev` is the last free block before it. -/
theorem wp_freelistDetach {Q : Unit → BaseHeap → Prop} (h : Work keep m₀ s (xs ++ c :: ys)) (hc : c.used = false)
    (hprev : prev = (freeAddrs xs).getLastD null)
    (hQ : ∀ s', Keeps s s' → Work keep m₀ s' (xs ++ { c with used := true } :: ys) → Q () s') :
    wp (freelistDetach cfg prev c.addr) Q s := by
  have hcmem : c ∈ xs ++ c :: ys := by simp
  have hcnull := h.addr_ne_null hcmem
  have hnodup := nodup_freeAddrs h.tiles
  have hleads := h.leads
  have hhead := h.head
  have hwhole' : freeAddrs (xs ++ ({ c with used := true } : Block) :: ys) = freeAddrs xs ++ freeAddrs ys := by
    rw [freeAddrs_append, freeAddrs_used rfl]
  rw [freeAddrs_append, freeAddrs_free hc] at hnodup hleads hhead
  have hnext : links s.mem c.addr = (freeAddrs ys).headD null := hleads.next_eq
  have hout : c.addr ∉ freeAddrs xs ++ freeAddrs ys := by
    rw [List.nodup_middle] at hnodup
    exact (List.nodup_cons.mp hnodup).1
  have hused {m : Mem} (hm : Laid keep m₀ m s.sHeapLo s.sHeapHi (xs ++ c :: ys)) :
      Laid keep m₀ (withStatus (withLink m c.addr null) c.addr chunkUsed) s.sHeapLo s.sHeapHi
        (xs ++ { c with used := true } :: ys) := (hm.setLink hcmem null).setStatus true nofun
  unfold freelistDetach setFreeHead
  simp only [wp_bind]
  refine wp_assertM_gives (fun _ => (gives_lift (h.gives_free hcmem hc)).beq) ?_
  rw [wp_lift, (gives_next hcnull).wp_iff, hnext]
  rcases List.eq_nil_or_concat (freeAddrs xs) with hnil | ⟨l, e, hl⟩
  · have hnull : prev = null := by rw [hprev, hnil]; rfl
    rw [if_pos hnull, wp_modify, wp_lift, wp_setNext hcnull, wp_lift, wp_setStatus hcnull]
    rw [hnil, List.nil_append] at hout hleads hwhole'
    refine hQ _ (keeps_set s _ _) ⟨⟨hused h.toLaid, ?_⟩, ?_⟩
    · rw [links_withStatus, links_withLink, hwhole']
      exact hleads.2.update hout null
    · rw [hwhole']
  · rw [List.concat_eq_append] at hl
    have he : prev = e := by rw [hprev, hl, List.getLastD_concat]
    obtain ⟨b, hb, -, hbe⟩ : ∃ b ∈ xs, b.used = false ∧ b.addr = e := mem_freeAddrs.mp (by rw [hl]; simp)
    have hbmem : b ∈ xs ++ c :: ys := List.mem_append_left _ hb
    have hnull : b.addr ≠ null := h.addr_ne_null hbmem
    rw [he, ← hbe, if_neg hnull, wp_lift, wp_setNext hnull, wp_lift, wp_setNext hcnull, wp_lift,
      wp_setStatus hcnull]
    rw [hl, ← hbe, List.append_assoc] at hout hleads hwhole' hnodup hhead
    refine hQ _ (keeps_setMem s _) ⟨⟨hused (h.setLink hbmem _), ?_⟩, ?_⟩
    · rw [links_withStatus, links_withLink, links_withLink, hwhole', ← hnext]
      exact (hleads.remove hnodup).update hout null
    · rw [hwhole']
      show s.sFree = _
      rw [hhead]
      cases l <;> rfl

/-- The two spans that `split_for_alloc` computes. -/
theorem carveSpans (hspan : c.span = r + (need + 1)) (hlt : c.span < 2 ^ 31) :
    toInt (addSize 1 need) = (need + 1 : ℕ) ∧ subInt c.span (need + 1 : ℕ) = r := by
  rw [hspan] at hlt ⊢
  constructor
  · rw [addSize_of_lt (by omega), toInt_of_lt (by omega), Nat.add_comm]
  · rw [subInt_of_le (Nat.le_add_left _ _) hlt, Nat.add_sub_cancel]

/-- **`split_for_alloc`** cuts the end off the free block `c`. -/
theorem wp_splitForAlloc {Q : ℕ → BaseHeap → Prop} (h : Work keep m₀ s (xs ++ c :: ys)) (hc : c.used = false)
    (hspan : c.span = r + (need + 1)) (hr : 0 < r)
    (hQ : ∀ s', Keeps s s' →
      Work keep m₀ s' (xs ++ ⟨c.addr, r, false⟩ :: ⟨c.addr + r, need + 1, true⟩ :: ys) → Q (c.addr + r) s') :
    wp (splitForAlloc cfg c.addr need) Q s := by
  have hcmem : c ∈ xs ++ c :: ys := by simp
  have hcnull := h.addr_ne_null hcmem
  have hbounds := h.tiles.bounds hcmem
  have hhi := h.hi_lt
  obtain ⟨halloc, hremain⟩ := carveSpans hspan (h.span_lt hcmem)
  have hnull : c.addr + r ≠ null := Nat.ne_of_gt (Nat.add_pos_right _ hr)
  have hne : c.addr ≠ c.addr + r := by omega
  have hadjacent : Gives (chunkGetAdjacent cfg c.addr s.sHeapLo s.sHeapHi) (withSpan s.mem c.addr r)
      (c.addr + r) := by
    apply gives_of_wp
    unfold chunkGetAdjacent
    simp only [wp_bind, wp_assert]
    refine ⟨fun _ => hbounds.1, ?_⟩
    rw [(gives_load hcnull).wp_iff]
    have hend : ptrAdd c.addr (withSpan s.mem c.addr r c.addr).span = c.addr + r := by
      show ptrAdd c.addr (withSpan s.mem c.addr r c.addr).hi32 = _
      rw [withSpan_span, if_pos rfl, ptrAdd_of_lt (by omega)]
    rw [hend, if_neg (by omega), wp_pure]
    exact ⟨rfl, rfl⟩
  have hsplit := (h.toLaid.split hc hspan hr (Nat.succ_pos need)).setLink
    (b := ⟨c.addr + r, need + 1, true⟩) (by simp) (links s.mem c.addr)
  have hwhole : freeAddrs (xs ++ (⟨c.addr, r, false⟩ : Block) :: ⟨c.addr + r, need + 1, true⟩ :: ys)
      = freeAddrs (xs ++ c :: ys) := by
    rw [freeAddrs_append, freeAddrs_append, freeAddrs_free rfl, freeAddrs_used rfl, freeAddrs_free hc]
  have hout : c.addr + r ∉ freeAddrs (xs ++ c :: ys) := by
    intro hmem
    obtain ⟨b, hb, -, haddr⟩ := mem_freeAddrs.mp hmem
    have hpos := (h.tiles.bounds hb).2.2
    have hbc : b = c := h.tiles.eq_of_mem hb hcmem (u := c.addr + r) (by omega) (by omega)
    rw [hbc] at haddr
    omega
  unfold splitForAlloc heapLo heapHi
  simp only [wp_bind, wp_reads, wp_lift, wp_assert]
  rw [(h.gives_span hcmem).wp_iff, halloc, hremain]
  refine ⟨fun _ => ⟨hbounds.1, by omega⟩, ?_⟩
  refine wp_assertM_gives (fun _ => (gives_lift (h.gives_free hcmem hc)).beq) ?_
  refine ⟨fun _ => by omega, ?_⟩
  rw [wp_setSpan hcnull, hadjacent.wp_iff, wp_setSpan hnull, wp_setStatus hnull, (gives_next hcnull).wp_iff,
    wp_setNext hnull, wp_pure, links_withStatus, links_withSpan, links_withSpan]
  refine hQ _ (keeps_setMem s _) ⟨⟨hsplit, ?_⟩, ?_⟩
  · rw [hwhole, links_withLink, links_withStatus, links_withSpan, links_withSpan]
    exact h.leads.update hout _
  · rw [hwhole]
    exact h.head

/-! ### What an allocation does to the blocks -/

/-- First fit: the blocks after an allocation of `n` units, and the one that is handed out. -/
def firstFit (n : ℕ) : List Block → Option (List Block × Block)
  | [] => none
  | c :: bs =>
    if c.used = false ∧ n ≤ c.span then some (carve c n ++ bs, carved c n)
    else (firstFit n bs).map fun r => (c :: r.1, r.2)

/-- The span that `sys_grow_and_link` asks the kernel for. -/
def growSpan (need : ℕ) : ℕ := 1 + max sysMinAllocUnits need

/-- The blocks of a heap that has been extended at `hi`. -/
def extended (hi need : ℕ) (bs : List Block) : List Block := release bs ⟨hi, growSpan need, true⟩ []

theorem firstFit_of_noneFits (h : NoneFits xs n) :
    firstFit n (xs ++ ys) = (firstFit n ys).map fun r => (xs ++ r.1, r.2) := by
  induction xs with
  | nil => simp
  | cons x xs ih =>
    obtain ⟨hx, hxs⟩ := List.forall_mem_cons.mp h
    have hskip : ¬ (x.used = false ∧ n ≤ x.span) := fun hfit => Nat.not_lt.mpr hfit.2 (hx hfit.1)
    rw [List.cons_append, firstFit, if_neg hskip, ih hxs, Option.map_map]
    rfl

theorem firstFit_eq_none (h : NoneFits bs n) : firstFit n bs = none := by
  have hnone : firstFit n (bs ++ []) = none := firstFit_of_noneFits h
  rwa [List.append_nil] at hnone

theorem firstFit_eq_some (h : NoneFits xs n) (hc : c.used = false) (hfit : n ≤ c.span) :
    firstFit n (xs ++ c :: ys) = some (xs ++ carve c n ++ ys, carved c n) := by
  rw [firstFit_of_noneFits h, firstFit, if_pos ⟨hc, hfit⟩, List.append_assoc]
  rfl

/-! ### Heaps in order -/

/-- The heap shows the blocks, its free list is theirs, and no two neighbours are free. -/
structure WellFormed (keep : Set ℕ) (m₀ : Mem) (s : BaseHeap) (bs : List Block) : Prop
    extends Work keep m₀ s bs where
  coalesced : Coalesced bs

/-- A walk over the blocks ends. -/
theorem Laid.length_lt (h : Laid keep m₀ s.mem s.sHeapLo s.sHeapHi bs) (hfuel : Fuelled cfg s) :
    bs.length < cfg.fuel := by
  have hlen := h.tiles.length_le
  have hle := h.tiles.le
  unfold Fuelled at hfuel
  omega

theorem WellFormed.gives_check (h : WellFormed keep m₀ s bs) (hfuel : Fuelled cfg s) :
    Gives (checkHeapValidity cfg) s true :=
  gives_checkHeapValidity h.toWork h.coalesced (h.toLaid.length_lt hfuel)

/-- **An allocation** from the free block `c`. -/
theorem wp_takeBlock {Q : ℕ → BaseHeap → Prop} (h : WellFormed keep m₀ s (xs ++ c :: ys)) (hc : c.used = false)
    (hfit : need + 1 ≤ c.span) (hprev : prev = (freeAddrs xs).getLastD null) (hfuel : Fuelled cfg s)
    (hQ : ∀ s', Keeps s s' → WellFormed keep m₀ s' (xs ++ carve c (need + 1) ++ ys) →
      Q ((carved c (need + 1)).addr + 1) s') : wp (takeBlock cfg prev c.addr need) Q s := by
  have hcmem : c ∈ xs ++ c :: ys := by simp
  have hbounds := h.tiles.bounds hcmem
  have hlt := h.span_lt hcmem
  have hhi := h.hi_lt
  have hpayload : subSize (toSize (c.span : ℤ)) 1 = c.span - 1 := by
    rw [toSize_of_lt (by omega), subSize_of_le (by omega) (by omega)]
  have hfinish {s' : BaseHeap} (hk : Keeps s s')
      (hw : Work keep m₀ s' (xs ++ carve c (need + 1) ++ ys)) :
      wp (do assertM cfg.asserts (checkHeapValidity cfg); return payloadOf (carved c (need + 1)).addr) Q s' := by
    have hwf : WellFormed keep m₀ s' (xs ++ carve c (need + 1) ++ ys) := ⟨hw, coalesced_carve h.coalesced hc⟩
    have haddr : (carved c (need + 1)).addr + 1 < 2 ^ 60 := by
      show c.addr + (c.span - (need + 1)) + 1 < 2 ^ 60
      omega
    rw [wp_bind]
    refine wp_assertM_gives (fun _ => hwf.gives_check (hfuel.keeps hk)) ?_
    rw [wp_pure, payloadOf_of_lt haddr]
    exact hQ s' hk hwf
  unfold takeBlock
  rw [wp_bind, wp_lift, (h.gives_span hcmem).wp_iff, hpayload, wp_bind]
  by_cases hlarge : c.span - 1 > need
  · rw [if_pos hlarge]
    refine wp_splitForAlloc (r := c.span - (need + 1)) h.toWork hc (by omega) (by omega) fun s' hk hw => ?_
    apply hfinish hk
    rw [carve, if_neg (by omega), List.append_assoc]
    exact hw
  · have hexact : c.span = need + 1 := by omega
    rw [if_neg hlarge, wp_bind]
    refine wp_freelistDetach h.toWork hc hprev fun s' hk hw => ?_
    rw [wp_pure]
    have hcarved : (carved c (need + 1)).addr = c.addr := by
      show c.addr + (c.span - (need + 1)) = c.addr
      omega
    rw [← hcarved]
    apply hfinish hk
    rw [carve, if_pos hexact, List.append_assoc]
    exact hw

/-- **The search** allocates by first fit, or comes to the last two free blocks. -/
theorem wp_searchList {Q : ℕ ⊕ (ℕ × ℕ) → BaseHeap → Prop} (h : WellFormed keep m₀ s bs) (hfuel : Fuelled cfg s)
    (xs ys : List Block) (fuel : ℕ) (hbs : bs = xs ++ ys) (hlen : (freeAddrs ys).length < fuel)
    (hnone : NoneFits xs (need + 1))
    (hfound : ∀ s' bs' b, firstFit (need + 1) bs = some (bs', b) → Keeps s s' → WellFormed keep m₀ s' bs' →
      Q (.inl (b.addr + 1)) s')
    (hend : NoneFits bs (need + 1) →
      Q (.inr ((freeAddrs bs).dropLast.getLastD null, (freeAddrs bs).getLastD null)) s) :
    wp (searchList cfg need fuel ((freeAddrs xs).dropLast.getLastD null) ((freeAddrs xs).getLastD null)
      ((freeAddrs ys).headD null)) Q s := by
  induction ys generalizing xs fuel with
  | nil =>
    obtain ⟨k, rfl⟩ := Nat.exists_eq_succ_of_ne_zero (Nat.ne_of_gt hlen)
    rw [List.append_nil] at hbs
    subst hbs
    unfold searchList
    rw [if_pos (show (freeAddrs []).headD null = null from rfl), wp_pure]
    exact hend hnone
  | cons c ys ih =>
    have hsnoc : bs = (xs ++ [c]) ++ ys := by simp [hbs]
    have hcmem : c ∈ bs := by simp [hbs]
    cases hc : c.used with
    | true =>
      have hxs : freeAddrs (xs ++ [c]) = freeAddrs xs := by
        rw [freeAddrs_append, freeAddrs_used hc]
        exact List.append_nil _
      have hrest : NoneFits (xs ++ [c]) (need + 1) := by
        intro b hb hfree
        rcases List.mem_append.mp hb with hb | hb
        · exact hnone b hb hfree
        · rw [List.mem_singleton.mp hb, hc] at hfree
          cases hfree
      rw [freeAddrs_used hc] at hlen ⊢
      have hgo := ih (xs ++ [c]) fuel hsnoc hlen hrest
      rwa [hxs] at hgo
    | false =>
      rw [freeAddrs_free hc] at hlen ⊢
      obtain ⟨k, rfl⟩ := Nat.exists_eq_succ_of_ne_zero (Nat.ne_of_gt (Nat.zero_lt_of_lt hlen))
      have hbounds := h.tiles.bounds hcmem
      have hlt := h.span_lt hcmem
      have hpayload : subSize (toSize (c.span : ℤ)) 1 = c.span - 1 := by
        rw [toSize_of_lt (by omega), subSize_of_le (by omega) (by omega)]
      show wp (searchList cfg need (k + 1) _ _ c.addr) Q s
      unfold searchList
      rw [if_neg (h.addr_ne_null hcmem), wp_bind, wp_lift, (h.gives_span hcmem).wp_iff, hpayload]
      by_cases hfit : c.span - 1 ≥ need
      · rw [if_pos hfit, wp_bind]
        rw [hbs] at h
        refine wp_takeBlock h hc (by omega) rfl hfuel fun s' hk hwf => ?_
        rw [wp_pure]
        refine hfound s' _ _ ?_ hk hwf
        rw [hbs]
        exact firstFit_eq_some hnone hc (by omega)
      · have hxs : freeAddrs (xs ++ [c]) = freeAddrs xs ++ [c.addr] := by
          rw [freeAddrs_append, freeAddrs_free hc]
          rfl
        have hlinks : links s.mem c.addr = (freeAddrs ys).headD null := by
          have hleads := h.leads
          rw [hbs, freeAddrs_append, freeAddrs_free hc] at hleads
          exact hleads.next_eq
        have hrest : NoneFits (xs ++ [c]) (need + 1) := by
          intro b hb hfree
          rcases List.mem_append.mp hb with hb | hb
          · exact hnone b hb hfree
          · rw [List.mem_singleton.mp hb]
            omega
        have hgo := ih (xs ++ [c]) k hsnoc (by simpa using hlen) hrest
        rw [hxs, List.dropLast_concat, List.getLastD_concat] at hgo
        rw [if_neg hfit, wp_bind, wp_lift, (gives_next (h.addr_ne_null hcmem)).wp_iff, hlinks]
        exact hgo

/-! ### Growing -/

theorem growSpan_eq (hneed : need < 2 ^ 60) :
    addSize 1 (if need < sysMinAllocUnits then sysMinAllocUnits else need) = growSpan need := by
  unfold growSpan sysMinAllocUnits
  split
  · rw [addSize_of_lt (by omega)]
    omega
  · rw [addSize_of_lt (by omega)]
    omega

/-- The block that a heap is extended by ends up as the last block, merged or not. -/
theorem extended_eq (hi need : ℕ) (bs : List Block) : extended hi need bs
    = (absorbPrev bs ⟨hi, growSpan need, false⟩).1 ++ (absorbPrev bs ⟨hi, growSpan need, false⟩).2 :: [] := rfl

/-- The blocks before the last one were there before. -/
theorem mem_absorbPrev (hb : b ∈ (absorbPrev bs c).1) : b ∈ bs := by
  rcases List.eq_nil_or_concat bs with rfl | ⟨zs, x, rfl⟩
  · exact hb
  · rw [List.concat_eq_append] at *
    cases hx : x.used with
    | true => rwa [absorbPrev_used hx] at hb
    | false =>
      rw [absorbPrev_free hx] at hb
      exact List.mem_append_left _ hb

/-- `if (cur == prev) prev = prevprev;`: the last free block before the one that the heap was extended by. -/
theorem prev_of_extended (hnull : c.addr ≠ null) (hout : c.addr ∉ freeAddrs bs) :
    (if (absorbPrev bs c).2.addr = (freeAddrs bs).getLastD null then (freeAddrs bs).dropLast.getLastD null
      else (freeAddrs bs).getLastD null) = (freeAddrs (absorbPrev bs c).1).getLastD null := by
  have hne : c.addr ≠ (freeAddrs bs).getLastD null := by
    rcases List.eq_nil_or_concat (freeAddrs bs) with hnil | ⟨l, e, hl⟩
    · rwa [hnil]
    · rw [List.concat_eq_append] at hl
      rw [hl] at hout ⊢
      rw [List.getLastD_concat]
      rintro rfl
      exact hout (by simp)
  rcases List.eq_nil_or_concat bs with rfl | ⟨zs, x, rfl⟩
  · exact if_neg hne
  · rw [List.concat_eq_append] at *
    cases hx : x.used with
    | true =>
      rw [absorbPrev_used hx]
      exact if_neg hne
    | false =>
      rw [absorbPrev_free hx, freeAddrs_append, freeAddrs_free hx, freeAddrs_nil, List.getLastD_concat,
        List.dropLast_concat]
      exact if_pos rfl

/-- **`sys_grow_and_link`** extends the heap, if the kernel grants it. -/
theorem wp_sysGrowAndLink {Q : ℕ → BaseHeap → Prop} (h : WellFormed keep m₀ s bs) (hos : OsOk s)
    (hlim : Limited (2 ^ 31) s) (hcfg : 2 ^ 31 ≤ cfg.fuel) (hneed : need < 2 ^ 30)
    (hrefused : ¬ s.os.Grants (growSpan need) → Q null { s with os := { s.os with calls := s.os.calls + 1 } })
    (hgrown : s.os.Grants (growSpan need) → ∀ s', Grown (growSpan need) s s' →
      WellFormed keep m₀ s' (extended s.sHeapHi need bs) →
      Q (absorbPrev bs ⟨s.sHeapHi, growSpan need, false⟩).2.addr s') :
    wp (sysGrowAndLink cfg ((freeAddrs bs).getLastD null) need) Q s := by
  have hg : growSpan need < 2 ^ 31 := by
    unfold growSpan sysMinAllocUnits
    omega
  have hpos : 0 < growSpan need := Nat.lt_of_lt_of_le Nat.one_pos (Nat.le_add_right _ _)
  have hlo := h.lo_pos
  have hle := h.tiles.le
  have hhi : s.sHeapHi ≠ null := Nat.ne_of_gt (Nat.lt_of_lt_of_le hlo hle)
  unfold sysGrowAndLink
  simp only [growSpan_eq (show need < 2 ^ 60 by omega)]
  rw [wp_bind]
  refine wp_sbrk hos (fun _ => hg) (fun hno => ?_) fun haccepts hlimit => ?_
  · rw [if_pos rfl, wp_pure]
    exact hrefused fun hgrants => hno ((Os.accepts_iff hg).mpr hgrants)
  have hbrk := hos.brk
  have hlt := hos.limit_lt
  have hshort : s.sHeapHi + growSpan need < s.sHeapLo + 2 ^ 31 := by
    unfold Limited at hlim
    omega
  have hfailed : s.sHeapHi ≠ sbrkFailed := by
    unfold sbrkFailed
    omega
  let c : Block := ⟨s.sHeapHi, growSpan need, true⟩
  -- the new block, used and in no list
  have hlaid := h.toLaid.extend hpos (by omega) hshort
  have hwhole : freeAddrs (bs ++ [c]) = freeAddrs bs := by
    rw [freeAddrs_append, freeAddrs_used rfl]
    exact List.append_nil _
  have hout : s.sHeapHi ∉ freeAddrs bs := by
    intro hmem
    obtain ⟨b, hb, -, haddr⟩ := mem_freeAddrs.mp hmem
    have hbounds := h.tiles.bounds hb
    omega
  let s₁ : BaseHeap :=
    { s with mem := withStatus (withLink (withSpan s.mem s.sHeapHi (growSpan need : ℕ)) s.sHeapHi null) s.sHeapHi
               chunkUsed
             sHeapHi := s.sHeapHi + growSpan need
             os := { s.os with brk := s.os.brk + growSpan need, calls := s.os.calls + 1 } }
  have hgrow : Grown (growSpan need) s s₁ := ⟨rfl, rfl, rfl, rfl⟩
  have hwork : Work keep m₀ s₁ (bs ++ c :: []) := by
    refine ⟨⟨hlaid, ?_⟩, ?_⟩
    · show Leads (links (withStatus _ _ _)) _ _
      rw [links_withStatus, links_withLink, links_withSpan, hwhole]
      exact h.leads.update hout null
    · rw [hwhole]
      exact h.head
  have hkeep : ∀ v ∈ keep, v < c.addr ∨ c.addr + c.span ≤ v := by
    intro v hv
    exact Or.inl (h.keep_lt hv)
  have hfinish {s' : BaseHeap} (hk : Keeps s₁ s') (hw : Work keep m₀ s' (release bs c [])) :
      wp (assertM cfg.asserts (checkHeapValidity cfg))
        (fun _ => wp (pure (absorbPrev bs ⟨s.sHeapHi, growSpan need, false⟩).2.addr) Q) s' := by
    have hwf : WellFormed keep m₀ s' (extended s.sHeapHi need bs) := ⟨hw, h.coalesced.release List.isChain_nil⟩
    have hfuel : Fuelled cfg s' := by
      have hin : s'.sHeapHi < s'.sHeapLo + 2 ^ 31 := by
        rw [hk.hi, hk.lo]
        exact hshort
      unfold Fuelled
      omega
    refine wp_assertM_gives (fun _ => hwf.gives_check hfuel) ?_
    rw [wp_pure]
    exact hgrown ((Os.accepts_iff hg).mp haccepts) s' (hgrow.keeps hk) hwf
  have hready : (if s.os.ready = true then s.os.brk + growSpan need else sbrkFailed)
      = s.sHeapHi + growSpan need := by
    rw [if_pos hos.ready, hbrk]
  rw [if_neg hfailed]
  unfold sbrkZero freeHead
  simp only [wp_bind, wp_reads, wp_modify, wp_lift]
  rw [wp_setSpan hhi, wp_setNext hhi, wp_setStatus hhi, hready, toInt_of_lt hg]
  show wp (if s.sFree = null then _ else _) _ s₁
  rw [wp_ite]
  have hhead := h.head
  rcases List.eq_nil_or_concat (freeAddrs bs) with hnil | ⟨l, e, hl⟩
  · have hempty : s.sFree = null := by rw [hhead, hnil]; rfl
    have hdown : absorbPrev bs ⟨s.sHeapHi, growSpan need, false⟩ = (bs, ⟨s.sHeapHi, growSpan need, false⟩) :=
      absorbPrev_of_used (used_of_no_free hnil · ∘ List.mem_of_getLast?)
    refine ⟨fun _ => ?_, fun hne => absurd hempty hne⟩
    rw [hdown] at hfinish
    rw [wp_bind]
    refine wp_freelistPushFront (c := c) hwork rfl hnil hkeep fun s' hk hw => ?_
    rw [wp_pure]
    exact hfinish hk hw
  · rw [List.concat_eq_append] at hl
    have hne : s.sFree ≠ null := by
      rw [hhead]
      intro hnull
      have hlaid₀ : Laid keep m₀ s.mem s.sHeapLo s.sHeapHi ([] ++ bs) := h.toLaid
      have hnil := hlaid₀.headD_eq_null.mp hnull
      rw [hl] at hnil
      exact List.append_ne_nil_of_right_ne_nil _ (List.cons_ne_nil _ _) hnil
    refine ⟨fun hnull => absurd hnull hne, fun _ => ?_⟩
    rw [hl, List.getLastD_concat]
    refine wp_freelistInsertAfter (c := c) hwork rfl hl hkeep fun s' hk hw => ?_
    rw [← (release_down_up bs c []).2]
    exact hfinish hk hw

/-! ### The entry points -/

/-- **`heapmgr_malloc`** allocates by first fit, if need be on the extended heap. -/
theorem wp_heapmgrMalloc {Q : ℕ → BaseHeap → Prop} {size : ℕ} (h : WellFormed keep m₀ s bs) (hos : OsOk s)
    (hboot : s.sHeapBooted = true) (hlim : Limited (2 ^ 31) s) (hcfg : 2 ^ 31 ≤ cfg.fuel) (hsize : 1 ≤ size)
    (hle : size ≤ 3 * 10 ^ 8)
    (hfound : ∀ s' bs' b, firstFit (payloadUnits size + 1) bs = some (bs', b) → Keeps s s' →
      WellFormed keep m₀ s' bs' → Q (b.addr + 1) s')
    (hrefused : NoneFits bs (payloadUnits size + 1) → ¬ s.os.Grants (growSpan (payloadUnits size)) →
      WellFormed keep m₀ { s with os := { s.os with calls := s.os.calls + 1 } } bs →
      Q null { s with os := { s.os with calls := s.os.calls + 1 } })
    (hgrown : NoneFits bs (payloadUnits size + 1) → s.os.Grants (growSpan (payloadUnits size)) →
      ∀ s' bs' b, firstFit (payloadUnits size + 1) (extended s.sHeapHi (payloadUnits size) bs) = some (bs', b) →
      Grown (growSpan (payloadUnits size)) s s' → WellFormed keep m₀ s' bs' → Q (b.addr + 1) s') :
    wp (heapmgrMalloc cfg size) Q s := by
  have hneed := payloadUnits_lt hle
  have hfuel : Fuelled cfg s := hos.within (hlim.mono hcfg)
  have hlen := Nat.lt_of_le_of_lt length_freeAddrs_le (h.toLaid.length_lt hfuel)
  have hbooted : (heapBootstrap : Exec BaseHeap Unit) s = .ok () s := heapBootstrap_booted hboot
  unfold heapmgrMalloc freeHead
  rw [if_neg (Nat.ne_of_gt hsize), wp_bind, wp_iff_of_ok hbooted, wp_bind]
  refine wp_assertM_gives (fun _ => h.gives_check hfuel) ?_
  simp only [bytesToPayloadUnits_eq (show size + 15 < 2 ^ 64 by omega)]
  rw [wp_bind, wp_reads, h.head, wp_bind]
  refine wp_searchList h hfuel [] bs cfg.fuel rfl hlen nofun (fun s' bs' b hfit hk hwf => ?_) fun hnone => ?_
  · exact (wp_pure _).mpr (hfound s' bs' b hfit hk hwf)
  show wp (do let cur ← sysGrowAndLink cfg _ _; _) Q s
  rw [wp_bind]
  refine wp_sysGrowAndLink h hos hlim hcfg hneed (fun hno => ?_) fun hgrants s₁ hg₁ hwf₁ => ?_
  · have hwf : WellFormed keep m₀ { s with os := { s.os with calls := s.os.calls + 1 } } bs :=
      ⟨⟨h.toShown, h.head⟩, h.coalesced⟩
    rw [if_pos rfl, wp_bind]
    refine wp_assertM_gives (fun _ => hwf.gives_check hfuel) ?_
    exact (wp_pure _).mpr (hrefused hnone hno hwf)
  · have hlimit := hgrants.2
    have hfuel₁ : Fuelled cfg s₁ := (hos.grown hg₁ hlimit).within ((hlim.mono hcfg).grown hg₁)
    have hpos := h.lo_pos
    have hle := h.tiles.le
    have hhi : s.sHeapHi ≠ null := Nat.ne_of_gt (Nat.lt_of_lt_of_le hpos hle)
    have hout : s.sHeapHi ∉ freeAddrs bs := by
      intro hmem
      obtain ⟨b, hb, -, haddr⟩ := mem_freeAddrs.mp hmem
      have hbounds := h.tiles.bounds hb
      omega
    have hprev := prev_of_extended (c := ⟨s.sHeapHi, growSpan (payloadUnits size), false⟩) hhi hout
    have hfree : (absorbPrev bs ⟨s.sHeapHi, growSpan (payloadUnits size), false⟩).2.used = false :=
      absorbPrev_used_eq
    have hspan : (⟨s.sHeapHi, growSpan (payloadUnits size), false⟩ : Block).span ≤
        (absorbPrev bs ⟨s.sHeapHi, growSpan (payloadUnits size), false⟩).2.span := absorbPrev_span_le
    have hbefore (b : Block) (hb : b ∈ (absorbPrev bs ⟨s.sHeapHi, growSpan (payloadUnits size), false⟩).1) :
        b ∈ bs := mem_absorbPrev hb
    rw [extended_eq] at hwf₁ hgrown
    generalize absorbPrev bs ⟨s.sHeapHi, growSpan (payloadUnits size), false⟩ = r at *
    obtain ⟨us, c⟩ := r
    have hfit : payloadUnits size + 1 ≤ c.span := by
      refine Nat.le_trans ?_ hspan
      show payloadUnits size + 1 ≤ growSpan (payloadUnits size)
      unfold growSpan
      omega
    have hus : NoneFits us (payloadUnits size + 1) := fun b hb => hnone b (hbefore b hb)
    rw [if_neg (hwf₁.addr_ne_null (b := c) (by simp))]
    show wp (takeBlock cfg (if c.addr = _ then _ else _) c.addr _) _ _
    rw [hprev]
    refine wp_takeBlock hwf₁ hfree hfit rfl hfuel₁ fun s' hk hwf => ?_
    exact hgrown hnone hgrants s' _ _ (firstFit_eq_some hus hfree hfit) (hg₁.keeps hk) hwf

/-- The search for the place of `c` in the free list. -/
theorem gives_findPrev (h : Shown keep m₀ s.mem s.sHeapLo s.sHeapHi (xs ++ c :: ys)) (hc : c.used = true)
    (us vs : List Block) (fuel : ℕ) (hxs : xs = us ++ vs) (hlen : (freeAddrs vs).length < fuel) :
    Gives (findPrev c.addr fuel ((freeAddrs us).getLastD null) ((freeAddrs (vs ++ c :: ys)).headD null)) s
      ((freeAddrs xs).getLastD null) := by
  induction vs generalizing us fuel with
  | nil =>
    obtain ⟨k, rfl⟩ := Nat.exists_eq_succ_of_ne_zero (Nat.ne_of_gt hlen)
    rw [List.append_nil] at hxs
    rw [← hxs, List.nil_append, freeAddrs_used hc]
    apply gives_of_wp
    unfold findPrev
    by_cases hnull : (freeAddrs ys).headD null = null
    · rw [if_pos hnull, wp_pure]
      exact ⟨rfl, rfl⟩
    · have hlt : c.addr < (freeAddrs ys).headD null := by
        cases hfs : freeAddrs ys with
        | nil =>
          rw [hfs] at hnull
          exact absurd rfl hnull
        | cons p l =>
          obtain ⟨b, hb, -, hbp⟩ : ∃ b ∈ ys, b.used = false ∧ b.addr = p :=
            mem_freeAddrs.mp (by rw [hfs]; exact List.mem_cons_self)
          obtain ⟨-, hpos, hrest⟩ := tiles_around.mp h.tiles
          have hbounds := hrest.bounds hb
          show c.addr < p
          omega
      rw [if_neg hnull, if_pos hlt, wp_pure]
      exact ⟨rfl, rfl⟩
  | cons v vs ih =>
    have hsnoc : xs = (us ++ [v]) ++ vs := by simp [hxs]
    have hv : v ∈ xs := by simp [hxs]
    have hvmem : v ∈ xs ++ c :: ys := List.mem_append_left _ hv
    rw [List.cons_append]
    cases hu : v.used with
    | true =>
      have hus : freeAddrs (us ++ [v]) = freeAddrs us := by
        rw [freeAddrs_append, freeAddrs_used hu]
        exact List.append_nil _
      rw [freeAddrs_used hu] at hlen ⊢
      have hgo := ih (us ++ [v]) fuel hsnoc hlen
      rwa [hus] at hgo
    | false =>
      have hus : freeAddrs (us ++ [v]) = freeAddrs us ++ [v.addr] := by
        rw [freeAddrs_append, freeAddrs_free hu]
        rfl
      rw [freeAddrs_free hu] at hlen ⊢
      obtain ⟨k, rfl⟩ := Nat.exists_eq_succ_of_ne_zero (Nat.ne_of_gt (Nat.zero_lt_of_lt hlen))
      have hgo := ih (us ++ [v]) k hsnoc (by simpa using hlen)
      rw [hus, List.getLastD_concat] at hgo
      have hlinks : links s.mem v.addr = (freeAddrs (vs ++ c :: ys)).headD null := by
        have hleads := h.leads
        rw [hsnoc, List.append_assoc, List.append_assoc, freeAddrs_append, List.singleton_append,
          freeAddrs_free hu] at hleads
        exact hleads.next_eq
      have hlt : ¬ c.addr < v.addr := by
        have hbounds := (tiles_around.mp h.tiles).1.bounds hv
        omega
      show Gives (findPrev c.addr (k + 1) _ v.addr) s _
      apply gives_of_wp
      unfold findPrev
      rw [if_neg (h.addr_ne_null hvmem), if_neg hlt, wp_bind, wp_lift,
        (gives_next (h.addr_ne_null hvmem)).wp_iff, hlinks, hgo.wp_iff]
      exact ⟨rfl, rfl⟩

/-- **`heapmgr_free`** releases the block, whichever place it has in the free list. -/
theorem wp_heapmgrFree {Q : Unit → BaseHeap → Prop} (h : WellFormed keep m₀ s (xs ++ c :: ys)) (hc : c.used = true)
    (hfuel : Fuelled cfg s) (hkeep : ∀ v ∈ keep, v < c.addr ∨ c.addr + c.span ≤ v)
    (hQ : ∀ s', Keeps s s' → WellFormed keep m₀ s' (release xs c ys) → Q () s') :
    wp (heapmgrFree cfg (c.addr + 1)) Q s := by
  have hcmem : c ∈ xs ++ c :: ys := by simp
  have hbounds := h.tiles.bounds hcmem
  have hhi := h.hi_lt
  obtain ⟨hcxs, hcys, -⟩ := coalesced_append_cons.mp h.coalesced
  have hlen : (freeAddrs xs).length < cfg.fuel := by
    have hblocks := h.toLaid.length_lt hfuel
    have hle : (freeAddrs xs).length ≤ xs.length := length_freeAddrs_le
    simp only [List.length_append, List.length_cons] at hblocks
    omega
  have hsearch : Gives (findPrev c.addr cfg.fuel null ((freeAddrs (xs ++ c :: ys)).headD null)) s _ :=
    gives_findPrev h.toShown hc [] xs cfg.fuel rfl hlen
  have hfinish {s' : BaseHeap} (hk : Keeps s s') (hw : Work keep m₀ s' (release xs c ys)) :
      wp (assertM cfg.asserts (checkHeapValidity cfg)) Q s' := by
    have hwf : WellFormed keep m₀ s' (release xs c ys) := ⟨hw, hcxs.release hcys⟩
    exact wp_assertM_gives (fun _ => hwf.gives_check (hfuel.keeps hk)) (hQ s' hk hwf)
  unfold heapmgrFree freeHead
  rw [if_neg (show ¬ c.addr + 1 = null from Nat.succ_ne_zero _), wp_bind]
  refine wp_assertM_gives (fun _ => h.gives_check hfuel) ?_
  simp only [headerFromPayload_succ (show c.addr + 1 < 2 ^ 60 by omega)]
  rw [wp_bind]
  refine wp_assertM_gives (fun _ => ?_) ?_
  · have hstatus := (gives_lift (s := s) (h.gives_status hcmem)).map (· != chunkFree)
    rwa [hc] at hstatus
  rw [wp_bind, wp_reads, h.head, wp_bind, hsearch.wp_iff]
  rcases List.eq_nil_or_concat (freeAddrs xs) with hnil | ⟨l, e, hl⟩
  · have hnull : (freeAddrs xs).getLastD null = null := by rw [hnil]; rfl
    rw [if_pos hnull, wp_bind]
    exact wp_freelistPushFront h.toWork hc hnil hkeep fun s' hk hw => hfinish hk hw
  · rw [List.concat_eq_append] at hl
    have he : e ≠ null := by
      obtain ⟨b, hb, -, hbe⟩ : ∃ b ∈ xs, b.used = false ∧ b.addr = e := mem_freeAddrs.mp (by rw [hl]; simp)
      rw [← hbe]
      exact h.addr_ne_null (List.mem_append_left _ hb)
    have hprev : (freeAddrs xs).getLastD null = e := by rw [hl, List.getLastD_concat]
    rw [hprev, if_neg he, wp_bind, wp_bind]
    refine wp_freelistInsertAfter h.toWork hc hl hkeep fun s' hk hw => ?_
    exact (wp_pure _).mpr (hfinish hk hw)

end SystemProgramming.HeapMgr.Base
