import SystemProgramming.HeapMgr.KrSpec

/-!
# `heapmgr_malloc` and `heapmgr_free` of the K&R manager

The search goes once around the circle, from behind `freep` to `freep` itself, and takes the first block that is
large enough (`nextFit`).  If there is none, the new memory is freed like any other block, and a second search, which
begins in front of it, cannot fail.

* `wp_searchLoop`: the search takes the first block that fits, or comes back to `freep`.
* `wp_morecore`: the memory that the kernel grants is freed.
* `wp_heapmgrMalloc`, `wp_heapmgrFree`: the two calls do what they do on the arena.
-/

namespace SystemProgramming.HeapMgr.Kr

open Exec CInt
open Base (withLink withLink_span withSpan_span links links_withLink links_withSpan freeAddrs freeAddrs_append
  freeAddrs_free freeAddrs_used mem_freeAddrs length_freeAddrs_le carve carved coalesced_carve)

/-- The heap shows the blocks from `lo` to the break, and `freep` is on the circle. -/
structure Work (base lo : ℕ) (keep : Set ℕ) (m₀ : Mem) (s : KrHeap) (bs : List Block) : Prop
    extends Ringed base keep m₀ s.mem lo s.os.brk bs where
  rover : s.sFree ∈ base :: freeAddrs bs

/-- And no two neighbours are free. -/
structure WellFormed (base lo : ℕ) (keep : Set ℕ) (m₀ : Mem) (s : KrHeap) (bs : List Block) : Prop
    extends Work base lo keep m₀ s bs where
  coalesced : Coalesced bs

variable {fuel base lo : ℕ} {keep : Set ℕ} {m₀ : Mem} {s : KrHeap} {bs xs ys : List Block} {b c : Block}
  {n p prev k : ℕ}

/-! ### `heapmgr_free` -/

/-- What is on the circle below a released block stays on it. -/
theorem mem_ring_release (hp : p ∈ base :: freeAddrs xs) (c : Block) (ys : List Block) :
    p ∈ base :: freeAddrs (release xs c ys) := by
  suffices h : ∃ l, freeAddrs (release xs c ys) = freeAddrs xs ++ l by
    obtain ⟨l, hl⟩ := h
    rw [hl, ← List.cons_append]
    exact List.mem_append_left _ hp
  generalize hup : absorbNext { c with used := false } ys = up
  have hrelease : release xs c ys = (absorbPrev xs up.1).1 ++ (absorbPrev xs up.1).2 :: up.2 := by
    rw [← hup]
    rfl
  have hfree : up.1.used = false := by rw [← hup, absorbNext_used_eq]
  rw [hrelease]
  rcases List.eq_nil_or_concat xs with rfl | ⟨zs, x, rfl⟩
  · exact ⟨_, rfl⟩
  · rw [List.concat_eq_append]
    cases hx : x.used with
    | true =>
      rw [absorbPrev_used hx]
      exact ⟨_, freeAddrs_append⟩
    | false =>
      refine ⟨freeAddrs up.2, ?_⟩
      have hjoined : (⟨x.addr, x.span + up.1.span, up.1.used⟩ : Block).used = false := hfree
      rw [absorbPrev_free hx, freeAddrs_append, freeAddrs_free hjoined, freeAddrs_append, freeAddrs_free hx,
        List.append_assoc]
      rfl

/-- **`heapmgr_free`** releases the block, and `freep` is the last free block below it. -/
theorem wp_heapmgrFree {Q : Unit → KrHeap → Prop} (h : WellFormed base lo keep m₀ s (xs ++ c :: ys))
    (hc : c.used = true) (hfuel : (xs ++ c :: ys).length < fuel)
    (hkeep : ∀ v ∈ keep, v < c.addr ∨ c.addr + c.span ≤ v)
    (hQ : ∀ s', Keeps s s' → s'.sFree = (freeAddrs xs).getLastD base →
      WellFormed base lo keep m₀ s' (release xs c ys) → Q () s') :
    wp (heapmgrFree fuel (c.addr + 1)) Q s := by
  have hbounds := h.tiles.bounds (b := c) (by simp)
  have hhi := h.hi_lt
  have hheader : ptrAdd (c.addr + 1) (-1) = c.addr := headerFromPayload_succ (by omega)
  have hlen := Nat.lt_of_le_of_lt length_freeAddrs_le hfuel
  obtain ⟨hcxs, hcys, -⟩ := coalesced_append_cons.mp h.coalesced
  unfold heapmgrFree freep setFreep
  simp only [wp_bind, wp_reads, wp_lift, hheader]
  rw [(gives_findPlace h.toRinged hc h.rover hlen).wp_iff]
  refine wp_joinUpper h.toRinged hc hkeep fun m₁ b zs hup hopened => ?_
  have hbaddr : b.addr = c.addr := by
    have haddr : (absorbNext { c with used := false } ys).1.addr = c.addr := absorbNext_addr
    rwa [hup] at haddr
  rw [← hbaddr]
  refine wp_joinLower hopened fun m₂ hringed => ?_
  rw [wp_modify]
  refine hQ _ (keeps_set s m₂ _) rfl ?_
  have hrelease : release xs c ys = (absorbPrev xs b).1 ++ (absorbPrev xs b).2 :: zs := by
    unfold release
    rw [hup]
  rw [← hrelease] at hringed
  exact ⟨⟨hringed, mem_ring_release (last_mem base xs) c ys⟩, hcxs.release hcys⟩

/-! ### Taking a block -/

/-- The link behind which a free block lies. -/
theorem links_before {m : Mem} {hi : ℕ} (h : Ringed base keep m₀ m lo hi (xs ++ c :: ys)) (hc : c.used = false) :
    links m ((freeAddrs xs).getLastD base) = c.addr := by
  obtain ⟨l, hl⟩ := exists_front base xs
  have hleads := h.leads
  rw [freeAddrs_append, freeAddrs_free hc, ← List.cons_append, hl, List.append_assoc] at hleads
  exact hleads.next_eq

/-- All of the free block `c` is handed out: it is unlinked. -/
theorem Ringed.unlinked {m : Mem} {hi : ℕ} (h : Ringed base keep m₀ m lo hi (xs ++ c :: ys)) (hc : c.used = false) :
    Ringed base keep m₀ (withLink m ((freeAddrs xs).getLastD base) (links m c.addr)) lo hi
      (xs ++ { c with used := true } :: ys) := by
  have hout : (freeAddrs xs).getLastD base ∉ keep := h.notMem_keep (ring_mem (last_mem base xs) (c :: ys))
  have hused := h.toSized.setUsed true fun hfree => absurd hfree.symm Bool.false_ne_true
  refine ⟨⟨hused.setLink hout _, h.base_pos, h.base_lt, withLink_span.trans h.baseSize⟩, ?_⟩
  obtain ⟨l, hl⟩ := exists_front base xs
  have hleads := h.leads
  have hnodup := h.nodup
  rw [freeAddrs_append, freeAddrs_free hc, ← List.cons_append, hl, List.append_assoc] at hleads hnodup
  rw [links_withLink, freeAddrs_append, freeAddrs_used rfl, ← List.cons_append, hl, List.append_assoc]
  exact hleads.remove hnodup

/-- The end of the free block `c` is handed out. -/
theorem Ringed.split {m : Mem} {hi : ℕ} (h : Ringed base keep m₀ m lo hi (xs ++ c :: ys)) (hc : c.used = false)
    (hn : 1 ≤ n) (hlt : n < c.span) :
    Ringed base keep m₀ (Base.withSpan (Base.withSpan m c.addr (c.span - n : ℕ)) (c.addr + (c.span - n)) n) lo hi
      (xs ++ (⟨c.addr, c.span - n, false⟩ : Block) :: ⟨c.addr + (c.span - n), n, true⟩ :: ys) := by
  have hbase : base < c.addr := h.front_lt List.mem_cons_self
  have hsized := h.toSized.split (r := c.span - n) hc (by omega) (by omega) hn
  refine ⟨⟨hsized, h.base_pos, h.base_lt, ?_⟩, ?_⟩
  · rw [withSpan_span, if_neg (by omega), withSpan_span, if_neg (by omega)]
    exact h.baseSize
  · have hleads := h.leads
    rw [freeAddrs_append, freeAddrs_free hc] at hleads
    rw [links_withSpan, links_withSpan, freeAddrs_append, freeAddrs_free rfl, freeAddrs_used rfl]
    exact hleads

/-- **An allocation** from the free block `c`. -/
theorem wp_takeBlock {Q : ℕ → KrHeap → Prop} (h : WellFormed base lo keep m₀ s (xs ++ c :: ys)) (hc : c.used = false)
    (hn : 1 ≤ n) (hfit : n ≤ c.span) (hprev : prev = (freeAddrs xs).getLastD base)
    (hQ : ∀ s', Keeps s s' → s'.sFree = prev → WellFormed base lo keep m₀ s' (xs ++ carve c n ++ ys) →
      Q ((carved c n).addr + 1) s') : wp (takeBlock n prev c.addr) Q s := by
  have hcmem : c ∈ xs ++ c :: ys := by simp
  have hcnull := h.addr_ne_null hcmem
  have hbounds := h.tiles.bounds hcmem
  have hspan := h.span_lt hcmem
  have hhi := h.hi_lt
  have hprevmem : prev ∈ base :: freeAddrs xs := hprev ▸ last_mem base xs
  have hfinish {m' : Mem} {p : ℕ} (hp : p = (carved c n).addr)
      (hr : Ringed base keep m₀ m' lo s.os.brk (xs ++ carve c n ++ ys)) :
      wp (setFreep prev >>= fun _ => pure (ptrAdd p 1)) Q { s with mem := m' } := by
    have hpayload : ptrAdd p 1 = (carved c n).addr + 1 := by
      rw [hp]
      exact payloadOf_of_lt (show c.addr + (c.span - n) + 1 < 2 ^ 60 by omega)
    unfold setFreep
    rw [wp_bind, wp_modify, wp_pure, hpayload]
    refine hQ _ (keeps_set s m' prev) rfl ⟨⟨hr, ?_⟩, coalesced_carve h.coalesced hc⟩
    rw [List.append_assoc]
    exact ring_mem hprevmem (carve c n ++ ys)
  unfold takeBlock allocate
  rw [wp_bind, wp_lift, wp_bind, (gives_size h.toSized hcmem).wp_iff]
  by_cases hexact : c.span = n
  · have hcarve : xs ++ carve c n ++ ys = xs ++ { c with used := true } :: ys := by
      rw [carve, if_pos hexact, List.append_assoc]
      rfl
    have hcaddr : c.addr = (carved c n).addr := by
      show c.addr = c.addr + (c.span - n)
      omega
    have hprevnull : prev ≠ null := h.ne_null (ring_mem hprevmem (c :: ys))
    rw [if_pos hexact, wp_bind, (gives_ptr hcnull).wp_iff, wp_bind, wp_setPtr hprevnull, wp_pure]
    refine hfinish hcaddr ?_
    rw [hcarve, hprev]
    exact h.toRinged.unlinked hc
  · have hcarve : xs ++ carve c n ++ ys
        = xs ++ (⟨c.addr, c.span - n, false⟩ : Block) :: ⟨c.addr + (c.span - n), n, true⟩ :: ys := by
      rw [carve, if_neg hexact, List.append_assoc]
      rfl
    have hnewnull : c.addr + (c.span - n) ≠ null := by
      unfold null
      omega
    have hrest : subUnsigned c.span n = c.span - n := subUnsigned_of_le hfit (by omega)
    have hsize : Gives (getSize c.addr) (Base.withSpan s.mem c.addr (c.span - n : ℕ)) (c.span - n) := by
      have hfield : toUnsigned (Base.withSpan s.mem c.addr (c.span - n : ℕ) c.addr).hi32 = c.span - n := by
        rw [withSpan_span, if_pos rfl]
        exact toUnsigned_of_lt (by omega)
      have hload : Gives (getSize c.addr) (Base.withSpan s.mem c.addr (c.span - n : ℕ)) _ :=
        (Base.gives_load hcnull).map fun h => toUnsigned h.hi32
      rwa [hfield] at hload
    have hend : ptrAdd c.addr ((c.span - n : ℕ) : ℤ) = c.addr + (c.span - n) := ptrAdd_of_lt (by omega)
    rw [if_neg hexact, hrest, wp_bind, wp_setSize hcnull, wp_bind, hsize.wp_iff, hend]
    show wp (setSize (c.addr + (c.span - n)) n >>= fun _ => pure (c.addr + (c.span - n))) _ _
    rw [wp_bind, wp_setSize hnewnull, wp_pure]
    refine hfinish rfl ?_
    rw [hcarve]
    exact h.toRinged.split hc hn (by omega)

/-! ### The search -/

/-- The size of what stands at a place of the circle: the span of a free block, or zero for `base`. -/
def sizeAt (bs : List Block) (p : ℕ) : ℕ := ((bs.find? fun b => b.addr = p).map Block.span).getD 0

/-- Next fit: the first block of `n` units on a turn around the circle that begins behind `rover`. -/
def nextFit (base n : ℕ) (bs : List Block) (rover : ℕ) : Option ℕ :=
  (turn (base :: freeAddrs bs) rover).find? fun p => n ≤ sizeAt bs p

theorem sizeAt_addr {hi : ℕ} (h : Tiles Block.addr Block.span lo hi bs) (hb : b ∈ bs) : sizeAt bs b.addr = b.span := by
  cases hfind : bs.find? fun c => c.addr = b.addr with
  | none => exact absurd rfl (of_decide_eq_false (Bool.eq_false_iff.mpr (List.find?_eq_none.mp hfind b hb)))
  | some c =>
    have hsome := List.find?_some hfind
    have hc : c.addr = b.addr := of_decide_eq_true hsome
    have hcb : c = b := h.eq_of_start (List.mem_of_find?_eq_some hfind) hb hc
    unfold sizeAt
    rw [hfind, hcb]
    rfl

theorem sizeAt_base {m : Mem} {hi : ℕ} (h : Ringed base keep m₀ m lo hi bs) : sizeAt bs base = 0 := by
  have hnone : (bs.find? fun c => c.addr = base) = none := by
    refine List.find?_eq_none.mpr fun c hc heq => ?_
    have hbounds := h.tiles.bounds hc
    have hlt := h.base_lt
    have haddr : c.addr = base := of_decide_eq_true heq
    omega
  unfold sizeAt
  rw [hnone]
  rfl

theorem gives_sizeAt {m : Mem} {hi : ℕ} (h : Ringed base keep m₀ m lo hi bs) (hp : p ∈ base :: freeAddrs bs) :
    Gives (getSize p) m (sizeAt bs p) := by
  rcases List.mem_cons.mp hp with rfl | hp
  · rw [sizeAt_base h]
    exact gives_baseSize h.base_ne_null h.baseSize
  · obtain ⟨b, hb, -, rfl⟩ := mem_freeAddrs.mp hp
    rw [sizeAt_addr h.tiles hb]
    exact gives_size h.toSized hb

/-- What fits is a free block. -/
theorem exists_of_fits {m : Mem} {hi : ℕ} (h : Ringed base keep m₀ m lo hi bs) (hp : p ∈ base :: freeAddrs bs)
    (hn : 1 ≤ n) (hfit : n ≤ sizeAt bs p) : ∃ c ∈ bs, c.used = false ∧ c.addr = p ∧ n ≤ c.span := by
  rcases List.mem_cons.mp hp with rfl | hp
  · rw [sizeAt_base h] at hfit
    omega
  · obtain ⟨c, hc, hfree, rfl⟩ := mem_freeAddrs.mp hp
    rw [sizeAt_addr h.tiles hc] at hfit
    exact ⟨c, hc, hfree, rfl, hfit⟩

theorem nextFit_eq_some {rover : ℕ} {done rest : List ℕ} (h : turn (base :: freeAddrs bs) rover = done ++ p :: rest)
    (hno : ∀ q ∈ done, sizeAt bs q < n) (hfit : n ≤ sizeAt bs p) : nextFit base n bs rover = some p := by
  unfold nextFit
  rw [h]
  refine List.find?_eq_some_iff_append.mpr ⟨decide_eq_true hfit, done, rest, rfl, fun q hq => ?_⟩
  rw [Bool.not_eq_true', decide_eq_false_iff_not, Nat.not_le]
  exact hno q hq

theorem nextFit_eq_none {rover : ℕ} (h : ∀ q ∈ turn (base :: freeAddrs bs) rover, sizeAt bs q < n) :
    nextFit base n bs rover = none := by
  refine List.find?_eq_none.mpr fun q hq hfit => ?_
  exact Nat.not_le.mpr (h q hq) (of_decide_eq_true hfit)

/-- The block that the search has found is taken. -/
theorem wp_takeFound {Q : ℕ → KrHeap → Prop} (h : WellFormed base lo keep m₀ s bs) (hn : 1 ≤ n)
    (hp : p ∈ base :: freeAddrs bs) (hprev : prev ∈ base :: freeAddrs bs) (hlink : links s.mem prev = p)
    (hfit : n ≤ sizeAt bs p)
    (hfound : ∀ s' xs c ys, bs = xs ++ c :: ys → c.used = false → n ≤ c.span → c.addr = p → Keeps s s' →
      s'.sFree = (freeAddrs xs).getLastD base → WellFormed base lo keep m₀ s' (xs ++ carve c n ++ ys) →
      Q ((carved c n).addr + 1) s') : wp (takeBlock n prev p) Q s := by
  obtain ⟨c, hc, hfree, rfl, hspan⟩ := exists_of_fits h.toRinged hp hn hfit
  obtain ⟨xs, ys, rfl⟩ := List.append_of_mem hc
  have hbefore := links_before h.toRinged hfree
  have hlast : prev = (freeAddrs xs).getLastD base :=
    h.circular.inj h.nodup hprev (ring_mem (last_mem base xs) (c :: ys)) (hlink.trans hbefore.symm)
  refine wp_takeBlock h hfree hn hspan hlast fun s' hk hrover hwf => ?_
  exact hfound s' xs c ys rfl hfree hspan rfl hk (hrover.trans hlast) hwf

/-- One place of the search: its block is taken, or the search goes on, by way of the kernel at `freep`. -/
theorem wp_searchStep {Q : ℕ → KrHeap → Prop} (h : WellFormed base lo keep m₀ s bs) (hn : 1 ≤ n)
    (hp : p ∈ base :: freeAddrs bs) (hprev : prev ∈ base :: freeAddrs bs) (hlink : links s.mem prev = p)
    (hfound : n ≤ sizeAt bs p → ∀ s' xs c ys, bs = xs ++ c :: ys → c.used = false → n ≤ c.span → c.addr = p →
      Keeps s s' → s'.sFree = (freeAddrs xs).getLastD base → WellFormed base lo keep m₀ s' (xs ++ carve c n ++ ys) →
      Q ((carved c n).addr + 1) s')
    (hend : sizeAt bs p < n → p = s.sFree → wp (do
      let p ← morecore fuel n
      if p = null then return null else
      let next ← getPtr p
      searchLoop fuel n k p next) Q s)
    (hnext : sizeAt bs p < n → p ≠ s.sFree → wp (searchLoop fuel n k p (links s.mem p)) Q s) :
    wp (searchLoop fuel n (k + 1) prev p) Q s := by
  unfold searchLoop freep
  rw [wp_bind, wp_lift, (gives_sizeAt h.toRinged hp).wp_iff]
  by_cases hfit : sizeAt bs p ≥ n
  · rw [if_pos hfit]
    exact wp_takeFound h hn hp hprev hlink hfit (hfound hfit)
  · rw [if_neg hfit, wp_bind, wp_reads]
    by_cases hpf : p = s.sFree
    · rw [if_pos hpf]
      exact hend (Nat.not_le.mp hfit) hpf
    · rw [if_neg hpf, wp_bind, wp_lift, (gives_ptr (h.ne_null hp)).wp_iff]
      exact hnext (Nat.not_le.mp hfit) hpf

/-- **The search** takes the first block that fits, or comes back to `freep`. -/
theorem wp_searchLoop {Q : ℕ → KrHeap → Prop} (h : WellFormed base lo keep m₀ s bs) (hn : 1 ≤ n)
    (done rest : List ℕ) (horder : turn (base :: freeAddrs bs) s.sFree = done ++ p :: rest)
    (hprev : prev ∈ base :: freeAddrs bs) (hlink : links s.mem prev = p) (hno : ∀ q ∈ done, sizeAt bs q < n)
    (hk : rest.length < k)
    (hfound : ∀ s' xs c ys, bs = xs ++ c :: ys → c.used = false → n ≤ c.span →
      nextFit base n bs s.sFree = some c.addr → Keeps s s' → s'.sFree = (freeAddrs xs).getLastD base →
      WellFormed base lo keep m₀ s' (xs ++ carve c n ++ ys) → Q ((carved c n).addr + 1) s')
    (hend : nextFit base n bs s.sFree = none → wp (do
      let p ← morecore fuel n
      if p = null then return null else
      let next ← getPtr p
      searchLoop fuel n (k - rest.length - 1) p next) Q s) :
    wp (searchLoop fuel n k prev p) Q s := by
  induction rest generalizing done p k prev with
  | nil =>
    obtain ⟨k, rfl⟩ := Nat.exists_eq_succ_of_ne_zero (Nat.ne_of_gt hk)
    have hp : p ∈ base :: freeAddrs bs := mem_turn.mp (by rw [horder]; simp)
    refine wp_searchStep h hn hp hprev hlink (fun hfit s' xs c ys hbs hc hspan haddr => ?_) (fun hsmall _ => ?_) ?_
    · exact hfound s' xs c ys hbs hc hspan (haddr ▸ nextFit_eq_some horder hno hfit)
    · refine hend (nextFit_eq_none fun q hq => ?_)
      rw [horder] at hq
      rcases List.mem_append.mp hq with hdone | hlast
      · exact hno q hdone
      · rwa [List.mem_singleton.mp hlast]
    · exact fun _ hne => absurd (eq_of_turn h.rover horder) hne
  | cons q rest ih =>
    obtain ⟨k, rfl⟩ := Nat.exists_eq_succ_of_ne_zero (Nat.ne_of_gt (Nat.zero_lt_of_lt hk))
    have hp : p ∈ base :: freeAddrs bs := mem_turn.mp (by rw [horder]; simp)
    have hlink' : links s.mem p = q := by
      have hturned := h.circular.turned s.sFree
      rw [horder] at hturned
      exact hturned.next_eq
    refine wp_searchStep h hn hp hprev hlink (fun hfit s' xs c ys hbs hc hspan haddr => ?_)
      (fun _ heq => absurd heq (ne_of_turn h.nodup h.rover horder)) fun hsmall _ => ?_
    · exact hfound s' xs c ys hbs hc hspan (haddr ▸ nextFit_eq_some horder hno hfit)
    · rw [hlink']
      refine ih (done ++ [p]) (by rw [horder, List.append_assoc]; rfl) hp hlink' (fun r hr => ?_) (by simpa using hk)
        fun hnone => ?_
      · rcases List.mem_append.mp hr with hdone | hlast
        · exact hno r hdone
        · rwa [List.mem_singleton.mp hlast]
      · have hgo := hend hnone
        rwa [List.length_cons, show k + 1 - (rest.length + 1) - 1 = k - rest.length - 1 by omega] at hgo

/-! ### More memory -/

/-- The units that `morecore` asks the kernel for. -/
def growUnits (n : ℕ) : ℕ := max nalloc n

/-- The heap after the kernel has granted a block behind `hi`. -/
def extended (hi n : ℕ) (bs : List Block) : List Block := release bs ⟨hi, growUnits n, true⟩ []

/-- The kernel's limit keeps the heap below `2^31` units. -/
structure Room (lo : ℕ) (os : Os) : Prop where
  le_limit : os.brk ≤ os.limit
  limit_small : os.limit < lo + 2 ^ 31
  limit_lt : os.limit < 2 ^ 60 - 1

/-- The kernel has been asked in vain. -/
def refused (os : Os) : Os := { os with calls := os.calls + 1 }

/-- The kernel has granted `n` units. -/
def granted (n : ℕ) (os : Os) : Os := { os with brk := os.brk + n, calls := os.calls + 1 }

theorem growUnits_eq : (if n < nalloc then nalloc else n) = growUnits n := by
  unfold growUnits
  split <;> omega

theorem growUnits_pos : 0 < growUnits n := Nat.lt_of_lt_of_le (by decide) (Nat.le_max_left nalloc n)

/-- **`sbrk`** for `n` units, when their number of bytes fits an `int`. -/
theorem wp_sbrk {Q : ℕ → KrHeap → Prop} (hn : n * headerSize < 2 ^ 31)
    (hrefused : ¬ s.os.Grants n → Q sbrkFailed { s with os := refused s.os })
    (hgranted : s.os.Grants n → Q s.os.brk { s with os := granted n s.os }) :
    wp (sbrk (toInt (toSize (n * headerSize)))) Q s := by
  have hbytes : toInt (toSize ((n : ℤ) * headerSize)) = (n * headerSize : ℕ) := by
    rw [← Int.natCast_mul, toSize_of_lt (by omega), toInt_of_lt hn]
  have hunits : (s.os.brk : ℤ) + ((n * headerSize : ℕ) : ℤ) / chunkUnit = (s.os.brk + n : ℕ) := by
    unfold headerSize chunkUnit
    omega
  unfold wp sbrk
  simp only
  rw [hbytes, hunits, Int.toNat_natCast]
  by_cases hgrants : s.os.Grants n
  · rw [if_pos ⟨hgrants.1, Int.natCast_nonneg _, Int.ofNat_le.mpr hgrants.2⟩]
    exact ⟨_, _, rfl, hgranted hgrants⟩
  · rw [if_neg fun hbranch => hgrants ⟨hbranch.1, Int.ofNat_le.mp hbranch.2.2⟩]
    exact ⟨_, _, rfl, hrefused hgrants⟩

/-- A used block is added at the end. -/
theorem Ringed.extend {m : Mem} {hi g : ℕ} (h : Ringed base keep m₀ m lo hi bs) (hg : 0 < g) (hlt : hi + g < 2 ^ 60)
    (hshort : hi + g < lo + 2 ^ 31) :
    Ringed base keep m₀ (Base.withSpan m hi g) lo (hi + g) (bs ++ [⟨hi, g, true⟩]) := by
  have hbase := h.base_lt
  have hle := h.tiles.le
  refine ⟨⟨h.toSized.extend hg hlt hshort, h.base_pos, hbase, ?_⟩, ?_⟩
  · rw [withSpan_span, if_neg (by omega)]
    exact h.baseSize
  · rw [links_withSpan, freeAddrs_append, freeAddrs_used rfl, Base.freeAddrs_nil, List.append_nil]
    exact h.leads

/-- **`morecore`** frees the memory that the kernel grants. -/
theorem wp_morecore {Q : ℕ → KrHeap → Prop} (h : WellFormed base lo keep m₀ s bs) (hroom : Room lo s.os)
    (hn : growUnits n * headerSize < 2 ^ 31) (hfuel : bs.length + 1 < fuel)
    (hrefused : ¬ s.os.Grants (growUnits n) → Q null { s with os := refused s.os })
    (hgrown : s.os.Grants (growUnits n) → ∀ s', s'.os = granted (growUnits n) s.os →
      s'.sFree = (freeAddrs bs).getLastD base → WellFormed base lo keep m₀ s' (extended s.os.brk n bs) →
      Q s'.sFree s') : wp (morecore fuel n) Q s := by
  unfold morecore
  simp only [growUnits_eq]
  rw [wp_bind]
  refine wp_sbrk hn (fun hno => ?_) fun hgrants => ?_
  · rw [if_pos rfl, wp_pure]
    exact hrefused hno
  have hlimit := hgrants.2
  have hlt := hroom.limit_lt
  have hsmall := hroom.limit_small
  have hpos := h.lo_pos
  have hle := h.tiles.le
  have hbrk : s.os.brk ≠ sbrkFailed := by
    unfold sbrkFailed
    omega
  have hnull : s.os.brk ≠ null := by
    unfold null
    omega
  let s₁ : KrHeap := { s with mem := Base.withSpan s.mem s.os.brk (growUnits n : ℕ), os := granted (growUnits n) s.os }
  have hwf : WellFormed base lo keep m₀ s₁ (bs ++ [⟨s.os.brk, growUnits n, true⟩]) := by
    refine ⟨⟨h.toRinged.extend growUnits_pos (by omega) (by omega), ?_⟩, ?_⟩
    · exact ring_mem h.rover _
    · exact coalesced_append_cons.mpr ⟨h.coalesced, List.isChain_nil, fun _ _ => Or.inr rfl, by simp⟩
  have hpayload : ptrAdd s.os.brk 1 = s.os.brk + 1 := payloadOf_of_lt (by omega)
  rw [if_neg hbrk, wp_bind, wp_lift, wp_setSize hnull, hpayload, wp_bind]
  refine wp_heapmgrFree (c := ⟨s.os.brk, growUnits n, true⟩) hwf rfl (by simpa using hfuel)
    (fun v hv => Or.inl (h.keep_lt hv)) fun s' hk hrover hwf' => ?_
  unfold freep
  rw [wp_reads]
  exact hgrown hgrants s' hk.os hrover hwf'

/-! ### `heapmgr_malloc` -/

theorem unitsFor_eq {size : ℕ} (h : size ≤ 3 * 10 ^ 8) : unitsFor size = payloadUnits size + 1 := by
  have hadd : addSize size headerSize = size + 16 := addSize_of_lt (show size + 16 < 2 ^ 64 by omega)
  have hsub : subSize (size + 16) 1 = size + 15 := subSize_of_le (by omega) (by omega)
  have hdiv : (size + 15) / headerSize = payloadUnits size := rfl
  have hneed := payloadUnits_lt h
  unfold unitsFor
  rw [hadd, hsub, hdiv, addSize_of_lt (by omega), toUnsigned_of_lt (by omega)]

theorem fits_of_nextFit {rover : ℕ} (h : nextFit base n bs rover = some p) :
    p ∈ base :: freeAddrs bs ∧ n ≤ sizeAt bs p := by
  unfold nextFit at h
  exact ⟨mem_turn.mp (List.mem_of_find?_eq_some h), by simpa using List.find?_some h⟩

/-- Next fit finds a block if there is one. -/
theorem nextFit_ne_none {m : Mem} {hi rover : ℕ} (h : Ringed base keep m₀ m lo hi bs) (hb : b ∈ bs)
    (hfree : b.used = false) (hfit : n ≤ b.span) : nextFit base n bs rover ≠ none := by
  intro hnone
  have hmem : b.addr ∈ turn (base :: freeAddrs bs) rover :=
    mem_turn.mpr (List.mem_cons_of_mem _ (mem_freeAddrs.mpr ⟨b, hb, hfree, rfl⟩))
  refine List.find?_eq_none.mp hnone _ hmem (decide_eq_true ?_)
  rw [sizeAt_addr h.tiles hb]
  exact hfit

/-- In the extended heap there is one. -/
theorem exists_extended (hi n : ℕ) (bs : List Block) :
    ∃ b ∈ extended hi n bs, b.used = false ∧ n ≤ b.span := by
  have hspan : (⟨hi, growUnits n, false⟩ : Block).span ≤ (absorbPrev bs ⟨hi, growUnits n, false⟩).2.span :=
    absorbPrev_span_le
  exact ⟨_, List.mem_append_right _ (List.mem_singleton_self _), absorbPrev_used_eq,
    Nat.le_trans (Nat.le_max_right nalloc n) hspan⟩

theorem length_lt (h : WellFormed base lo keep m₀ s bs) : bs.length < 2 ^ 31 := by
  have hlen := h.tiles.length_le
  have hle := h.tiles.le
  have hshort := h.short
  omega

/-- The search from behind `freep`. -/
theorem wp_search {Q : ℕ → KrHeap → Prop} (h : WellFormed base lo keep m₀ s bs) (hn : 1 ≤ n)
    (hk : bs.length + 1 < k)
    (hfound : ∀ s' xs c ys, bs = xs ++ c :: ys → c.used = false → n ≤ c.span →
      nextFit base n bs s.sFree = some c.addr → Keeps s s' → s'.sFree = (freeAddrs xs).getLastD base →
      WellFormed base lo keep m₀ s' (xs ++ carve c n ++ ys) → Q ((carved c n).addr + 1) s')
    (hend : nextFit base n bs s.sFree = none → ∀ k', k ≤ k' + bs.length + 1 → wp (do
      let p ← morecore fuel n
      if p = null then return null else
      let next ← getPtr p
      searchLoop fuel n k' p next) Q s) : wp (searchLoop fuel n k s.sFree (links s.mem s.sFree)) Q s := by
  obtain ⟨rest, hrest⟩ := h.circular.turn_eq h.rover
  have hlen : rest.length ≤ bs.length := by
    have htotal := congrArg List.length hrest
    rw [length_turn, List.length_cons, List.length_cons] at htotal
    have hfree : (freeAddrs bs).length ≤ bs.length := length_freeAddrs_le
    omega
  exact wp_searchLoop h hn [] rest hrest h.rover rfl (by simp) (by omega) hfound fun hnone => hend hnone _ (by omega)

/-- **`heapmgr_malloc`** allocates by next fit, if need be on the extended heap. -/
theorem wp_heapmgrMalloc {Q : ℕ → KrHeap → Prop} {size : ℕ} (h : WellFormed base lo keep m₀ s bs)
    (hroom : Room lo s.os) (hfuel : 2 ^ 33 ≤ fuel) (hle : size ≤ 3 * 10 ^ 8)
    (hfound : ∀ s' xs c ys, bs = xs ++ c :: ys → c.used = false → payloadUnits size + 1 ≤ c.span →
      nextFit base (payloadUnits size + 1) bs s.sFree = some c.addr → Keeps s s' →
      s'.sFree = (freeAddrs xs).getLastD base →
      WellFormed base lo keep m₀ s' (xs ++ carve c (payloadUnits size + 1) ++ ys) →
      Q ((carved c (payloadUnits size + 1)).addr + 1) s')
    (hrefused : nextFit base (payloadUnits size + 1) bs s.sFree = none →
      ¬ s.os.Grants (growUnits (payloadUnits size + 1)) → Q null { s with os := refused s.os })
    (hgrown : nextFit base (payloadUnits size + 1) bs s.sFree = none →
      s.os.Grants (growUnits (payloadUnits size + 1)) → ∀ s' xs c ys,
      extended s.os.brk (payloadUnits size + 1) bs = xs ++ c :: ys → c.used = false → payloadUnits size + 1 ≤ c.span →
      nextFit base (payloadUnits size + 1) (extended s.os.brk (payloadUnits size + 1) bs)
        ((freeAddrs bs).getLastD base) = some c.addr →
      s'.os = granted (growUnits (payloadUnits size + 1)) s.os → s'.sFree = (freeAddrs xs).getLastD base →
      WellFormed base lo keep m₀ s' (xs ++ carve c (payloadUnits size + 1) ++ ys) →
      Q ((carved c (payloadUnits size + 1)).addr + 1) s') :
    wp (heapmgrMalloc fuel base size) Q s := by
  have hneed := payloadUnits_lt hle
  have hlen := length_lt h
  have hrover : s.sFree ≠ null := h.ne_null h.rover
  have hbytes : growUnits (payloadUnits size + 1) * headerSize < 2 ^ 31 := by
    unfold growUnits nalloc payloadUnits headerSize
    omega
  unfold heapmgrMalloc startList freep
  simp only [unitsFor_eq hle, wp_bind, wp_reads]
  rw [if_pos hrover, wp_pure, wp_lift, (gives_ptr hrover).wp_iff]
  refine wp_search h (Nat.le_add_left 1 _) (by omega) hfound fun hnone k hk => ?_
  rw [wp_bind]
  refine wp_morecore h hroom hbytes (by omega) (fun hno => ?_) fun hgrants s₁ hos₁ hrover₁ hwf₁ => ?_
  · rw [if_pos rfl, wp_pure]
    exact hrefused hnone hno
  -- the second search begins in front of the new memory
  have hnull₁ : s₁.sFree ≠ null := hwf₁.ne_null hwf₁.rover
  have hlen₁ := length_lt hwf₁
  rw [if_neg hnull₁, wp_bind, wp_lift, (gives_ptr hnull₁).wp_iff]
  refine wp_search hwf₁ (Nat.le_add_left 1 _) (by omega) (fun s' xs c ys hbs hc hfit hnext hk' hprev hwf => ?_) ?_
  · rw [hrover₁] at hnext
    exact hgrown hnone hgrants s' xs c ys hbs hc hfit hnext (hk'.os.trans hos₁) hprev hwf
  · obtain ⟨b, hb, hfree, hfit⟩ := exists_extended s.os.brk (payloadUnits size + 1) bs
    exact fun hnone₁ => absurd hnone₁ (nextFit_ne_none hwf₁.toRinged hb hfree hfit)

end SystemProgramming.HeapMgr.Kr
