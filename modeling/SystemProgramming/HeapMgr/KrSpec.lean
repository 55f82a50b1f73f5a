import SystemProgramming.HeapMgr.Kr
import SystemProgramming.HeapMgr.BaseMalloc
import SystemProgramming.Lib.Circular

/-!
# The functions of the K&R manager, one by one

Between two calls the circle runs from `base` through the free blocks in the order of their addresses (`Ringed`), and
`freep` is somewhere on it (`Work`).  The walk of `heapmgr_free` ends at the last free block below the new one,
wherever it begins, and what the two joins do to the blocks is `release`.

* `gives_findPlace`: the walk ends at the last free block below the new one.
* `wp_joinUpper`, `wp_joinLower`: the two joins.
-/

namespace SystemProgramming.HeapMgr.Kr

open Exec CInt
open Base (withLink withLink_span withSpan_span links links_withLink links_withSpan wp_store gives_load Sized
  freeAddrs freeAddrs_nil freeAddrs_append freeAddrs_free freeAddrs_used mem_freeAddrs nodup_freeAddrs)

/-- The headers show the blocks, and `base` is a header of size zero below them. -/
structure Rooted (base : ℕ) (keep : Set ℕ) (m₀ m : Mem) (lo hi : ℕ) (bs : List Block) : Prop
    extends Sized keep m₀ m lo hi bs where
  base_pos : 0 < base
  base_lt : base < lo
  baseSize : (m base).hi32 = 0

/-- The free blocks are in a circle with `base`. -/
structure Ringed (base : ℕ) (keep : Set ℕ) (m₀ m : Mem) (lo hi : ℕ) (bs : List Block) : Prop
    extends Rooted base keep m₀ m lo hi bs where
  leads : Leads (links m) base (base :: freeAddrs bs)

variable {fuel base : ℕ} {keep : Set ℕ} {m₀ m : Mem} {s : KrHeap} {bs xs ys : List Block} {b c : Block}
  {lo hi n p v : ℕ}

/-! ### Headers -/

section Headers

variable {Q : Unit → Mem → Prop}

theorem wp_setPtr (hp : p ≠ null) : wp (setPtr p n) Q m ↔ Q () (withLink m p n) := wp_store hp

theorem wp_setSize (hp : p ≠ null) : wp (setSize p n) Q m ↔ Q () (Base.withSpan m p n) := wp_store hp

theorem gives_ptr (hp : p ≠ null) : Gives (getPtr p) m (links m p) := (gives_load hp).map fun h => h.link

theorem gives_size (h : Sized keep m₀ m lo hi bs) (hb : b ∈ bs) : Gives (getSize b.addr) m b.span := by
  have hlt := h.span_lt hb
  have hspan : toUnsigned (m b.addr).span = b.span := by
    rw [h.span b hb]
    exact toUnsigned_of_lt (by omega)
  rw [← hspan]
  exact (gives_load (h.addr_ne_null hb)).map fun h => toUnsigned h.hi32

theorem gives_baseSize (hp : p ≠ null) (h : (m p).hi32 = 0) : Gives (getSize p) m 0 := by
  have hspan : toUnsigned (m p).hi32 = 0 := by
    rw [h]
    exact toUnsigned_of_lt (n := 0) (by decide)
  rw [← hspan]
  exact (gives_load hp).map fun h => toUnsigned h.hi32

end Headers

/-! ### The circle -/

theorem free_bounds (h : Tiles Block.addr Block.span lo hi bs) (hp : p ∈ freeAddrs bs) : lo ≤ p ∧ p < hi := by
  obtain ⟨b, hb, -, rfl⟩ := mem_freeAddrs.mp hp
  have hbounds := h.bounds hb
  omega

/-- The free blocks are in the order of their addresses. -/
theorem freeAddrs_sorted (h : Tiles Block.addr Block.span lo hi bs) : (freeAddrs bs).Pairwise (· < ·) := by
  have hstarts : (bs.map Block.addr).Pairwise (· < ·) := by
    refine List.pairwise_map.mpr (h.pairwise.imp_of_mem fun ha _ hab => ?_)
    have hpos := (h.bounds ha).2.2
    omega
  exact hstarts.sublist (List.filter_sublist.map _)

namespace Rooted

theorem base_ne_null (h : Rooted base keep m₀ m lo hi bs) : base ≠ null := Nat.ne_of_gt h.base_pos

theorem sorted (h : Rooted base keep m₀ m lo hi bs) : (base :: freeAddrs bs).Pairwise (· < ·) := by
  refine List.pairwise_cons.mpr ⟨fun p hp => ?_, freeAddrs_sorted h.tiles⟩
  have hbounds := free_bounds h.tiles hp
  have hlt := h.base_lt
  omega

theorem nodup (h : Rooted base keep m₀ m lo hi bs) : (base :: freeAddrs bs).Nodup := h.sorted.imp Nat.ne_of_lt

theorem ne_null (h : Rooted base keep m₀ m lo hi bs) (hp : p ∈ base :: freeAddrs bs) : p ≠ null := by
  rcases List.mem_cons.mp hp with rfl | hp
  · exact h.base_ne_null
  · obtain ⟨b, hb, -, rfl⟩ := mem_freeAddrs.mp hp
    exact h.addr_ne_null hb

theorem base_notMem_keep (h : Rooted base keep m₀ m lo hi bs) : base ∉ keep := by
  intro hv
  obtain ⟨b, hb, -, h₁, -⟩ := h.keep_used base hv
  have hbounds := h.tiles.bounds hb
  have hlt := h.base_lt
  omega

theorem notMem_keep (h : Rooted base keep m₀ m lo hi bs) (hp : p ∈ base :: freeAddrs bs) : p ∉ keep := by
  rcases List.mem_cons.mp hp with rfl | hp
  · exact h.base_notMem_keep
  · obtain ⟨b, hb, -, rfl⟩ := mem_freeAddrs.mp hp
    exact h.addr_notMem hb

/-- What is on the circle before a block lies below it. -/
theorem front_lt (h : Rooted base keep m₀ m lo hi (xs ++ c :: ys)) (hp : p ∈ base :: freeAddrs xs) : p < c.addr := by
  obtain ⟨hxs, -, -⟩ := tiles_around.mp h.tiles
  have hle := hxs.le
  rcases List.mem_cons.mp hp with rfl | hp
  · have hlt := h.base_lt
    omega
  · exact (free_bounds hxs hp).2

theorem lt_back (h : Rooted base keep m₀ m lo hi (xs ++ c :: ys)) (hp : p ∈ freeAddrs ys) : c.addr + c.span ≤ p := by
  obtain ⟨-, -, hys⟩ := tiles_around.mp h.tiles
  exact (free_bounds hys hp).1

end Rooted

theorem Ringed.circular (h : Ringed base keep m₀ m lo hi bs) : Circular (links m) (base :: freeAddrs bs) :=
  circular_cons.mpr h.leads

/-- The last free block before a place, or `base`. -/
theorem exists_front (base : ℕ) (xs : List Block) :
    ∃ l, base :: freeAddrs xs = l ++ [(freeAddrs xs).getLastD base] := by
  rcases List.eq_nil_or_concat (freeAddrs xs) with hnil | ⟨l, e, hl⟩
  · rw [hnil]
    exact ⟨[], rfl⟩
  · rw [List.concat_eq_append] at hl
    rw [hl, List.getLastD_concat]
    exact ⟨base :: l, rfl⟩

theorem last_mem (base : ℕ) (xs : List Block) : (freeAddrs xs).getLastD base ∈ base :: freeAddrs xs := by
  obtain ⟨l, hl⟩ := exists_front base xs
  rw [hl]
  simp

theorem ring_mem (hp : p ∈ base :: freeAddrs xs) (ys : List Block) : p ∈ base :: freeAddrs (xs ++ ys) := by
  rw [freeAddrs_append, ← List.cons_append]
  exact List.mem_append_left _ hp

theorem ring_eq (hc : c.used = true) :
    base :: freeAddrs (xs ++ c :: ys) = (base :: freeAddrs xs) ++ freeAddrs ys := by
  rw [freeAddrs_append, freeAddrs_used hc, List.cons_append]

/-! ### The walk of `heapmgr_free` -/

section Place

variable (h : Ringed base keep m₀ m lo hi (xs ++ c :: ys)) (hc : c.used = true)
include h hc

/-- The link behind which a used block lies. -/
theorem links_last : links m ((freeAddrs xs).getLastD base) = (freeAddrs ys).headD base := by
  obtain ⟨l, hl⟩ := exists_front base xs
  have hleads := h.leads
  rw [ring_eq hc, hl, List.append_assoc] at hleads
  exact hleads.next_eq

omit hc in
/-- At the place of `c` the walk stops. -/
theorem stops_at_place : ((c.addr > (freeAddrs xs).getLastD base ∧ c.addr < (freeAddrs ys).headD base) ∨
    (freeAddrs xs).getLastD base ≥ (freeAddrs ys).headD base ∧
      (c.addr > (freeAddrs xs).getLastD base ∨ c.addr < (freeAddrs ys).headD base)) := by
  have hlt := h.front_lt (last_mem base xs)
  have hpos := (h.tiles.bounds (b := c) (by simp)).2.2
  cases hys : freeAddrs ys with
  | nil =>
    have hbase : base ≤ (freeAddrs xs).getLastD base := by
      rcases List.mem_cons.mp (last_mem base xs) with heq | hmem
      · omega
      · have hsorted := h.sorted
        rw [freeAddrs_append] at hsorted
        exact Nat.le_of_lt ((List.pairwise_cons.mp hsorted).1 _ (List.mem_append_left _ hmem))
    exact Or.inr ⟨hbase, Or.inl hlt⟩
  | cons q l =>
    have hq := h.lt_back (p := q) (by rw [hys]; exact List.mem_cons_self)
    exact Or.inl ⟨hlt, show c.addr < q by omega⟩

/-- Elsewhere it goes on. -/
theorem goes_on (hp : p ∈ base :: freeAddrs (xs ++ c :: ys)) (hne : p ≠ (freeAddrs xs).getLastD base) :
    ¬ (c.addr > p ∧ c.addr < links m p) ∧ ¬ (p ≥ links m p ∧ (c.addr > p ∨ c.addr < links m p)) := by
  have hsorted := h.sorted
  have hleads := h.leads
  have hpos := (h.tiles.bounds (b := c) (by simp)).2.2
  rw [ring_eq hc] at hp hsorted hleads
  rcases List.mem_append.mp hp with hfront | hback
  · obtain ⟨l, hl⟩ := exists_front base xs
    rw [hl] at hfront hsorted hleads
    have hpl : p ∈ l := by
      rcases List.mem_append.mp hfront with hpl | hlast
      · exact hpl
      · exact absurd (List.mem_singleton.mp hlast) hne
    -- the next one is below `c` as well
    obtain ⟨l₁, l₂, rfl⟩ := List.append_of_mem hpl
    obtain ⟨q, l₃, hq⟩ : ∃ q l₃, l₂ ++ [(freeAddrs xs).getLastD base] = q :: l₃ :=
      List.exists_cons_of_ne_nil (List.append_ne_nil_of_right_ne_nil _ (List.cons_ne_nil _ _))
    have hsplit : l₁ ++ p :: l₂ ++ [(freeAddrs xs).getLastD base] = l₁ ++ p :: q :: l₃ := by
      rw [List.append_assoc, List.cons_append, hq]
    have hqc : q < c.addr := h.front_lt (by rw [hl, hsplit]; simp)
    rw [hsplit, List.append_assoc] at hleads hsorted
    have hnext : links m p = q := hleads.next_eq
    have hpq : p < q := (List.pairwise_cons.mp (List.pairwise_append.mp hsorted).2.1).1 q (by simp)
    rw [hnext]
    omega
  · have hcp := h.lt_back hback
    obtain ⟨l₁, l₂, hl⟩ := List.append_of_mem hback
    rw [hl, ← List.append_assoc] at hleads hsorted
    have hnext : links m p = l₂.headD base := hleads.next_eq
    rw [hnext]
    cases l₂ with
    | nil =>
      have hbase := h.front_lt (p := base) List.mem_cons_self
      show ¬ (c.addr > p ∧ c.addr < base) ∧ ¬ (p ≥ base ∧ (c.addr > p ∨ c.addr < base))
      omega
    | cons q l₂ =>
      have hpq : p < q := (List.pairwise_cons.mp (List.pairwise_append.mp hsorted).2.1).1 q (by simp)
      show ¬ (c.addr > p ∧ c.addr < q) ∧ ¬ (p ≥ q ∧ (c.addr > p ∨ c.addr < q))
      omega

/-- **The walk** ends at the last free block below `c`, wherever it begins. -/
theorem gives_findPlace (hp : p ∈ base :: freeAddrs (xs ++ c :: ys))
    (hfuel : (freeAddrs (xs ++ c :: ys)).length < fuel) :
    Gives (findPlace c.addr fuel p) m ((freeAddrs xs).getLastD base) := by
  let e := (freeAddrs xs).getLastD base
  have he : e ∈ base :: freeAddrs (xs ++ c :: ys) := ring_mem (last_mem base xs) (c :: ys)
  have hturned := h.circular.turned e
  -- from anywhere on the circle the walk comes to `e`
  have hwalk : ∀ l₂ l₁ k p, turn (base :: freeAddrs (xs ++ c :: ys)) e = l₁ ++ p :: l₂ → l₂.length < k →
      Gives (findPlace c.addr k p) m e := by
    intro l₂
    induction l₂ with
    | nil =>
      intro l₁ k p hsplit hk
      obtain ⟨k, rfl⟩ := Nat.exists_eq_succ_of_ne_zero (Nat.ne_of_gt hk)
      obtain rfl : p = e := eq_of_turn he hsplit
      have hstop := stops_at_place h
      rw [← links_last h hc] at hstop
      apply gives_of_wp
      unfold findPlace
      rw [wp_bind, (gives_ptr (h.ne_null he)).wp_iff]
      by_cases hfirst : c.addr > e ∧ c.addr < links m e
      · rw [if_pos hfirst, wp_pure]
        exact ⟨rfl, rfl⟩
      · rw [if_neg hfirst, if_pos (hstop.resolve_left hfirst), wp_pure]
        exact ⟨rfl, rfl⟩
    | cons q l₂ ih =>
      intro l₁ k p hsplit hk
      obtain ⟨k, rfl⟩ := Nat.exists_eq_succ_of_ne_zero (Nat.ne_of_gt (Nat.zero_lt_of_lt hk))
      have hmem : p ∈ base :: freeAddrs (xs ++ c :: ys) := mem_turn.mp (by rw [hsplit]; simp)
      obtain ⟨hno₁, hno₂⟩ := goes_on h hc hmem (ne_of_turn h.nodup he hsplit)
      rw [hsplit] at hturned
      have hgo := ih (l₁ ++ [p]) k q (by rw [hsplit, List.append_assoc]; rfl) (by simpa using hk)
      apply gives_of_wp
      unfold findPlace
      rw [wp_bind, (gives_ptr (h.ne_null hmem)).wp_iff, if_neg hno₁, if_neg hno₂, hturned.next_eq, hgo.wp_iff]
      exact ⟨rfl, rfl⟩
  obtain ⟨l₁, l₂, hsplit⟩ := List.append_of_mem (mem_turn.mpr hp)
  refine hwalk l₂ l₁ fuel p hsplit (Nat.lt_of_le_of_lt ?_ hfuel)
  have hlen := congrArg List.length hsplit
  rw [length_turn, List.length_append, List.length_cons, List.length_cons] at hlen
  omega

end Place

/-! ### The joins of `heapmgr_free` -/

/-- The free block `b` is linked to what follows it, and the front of the circle to `v`. -/
structure Opened (base : ℕ) (keep : Set ℕ) (m₀ m : Mem) (lo hi : ℕ) (xs : List Block) (b : Block) (ys : List Block)
    (v : ℕ) : Prop extends Rooted base keep m₀ m lo hi (xs ++ b :: ys) where
  free : b.used = false
  front : Leads (links m) v (base :: freeAddrs xs)
  back : Leads (links m) base (b.addr :: freeAddrs ys)

/-- The next free block does not begin where a used one does. -/
theorem headD_ne_end (h : Rooted base keep m₀ m lo hi (xs ++ c :: ys)) (hused : ∀ y ∈ ys.head?, y.used = true) :
    (freeAddrs ys).headD base ≠ c.addr + c.span := by
  cases hfs : freeAddrs ys with
  | nil =>
    have hbase : base < c.addr := h.front_lt List.mem_cons_self
    show base ≠ c.addr + c.span
    omega
  | cons q l =>
    obtain ⟨b, hb, hfree, hbq⟩ : ∃ b ∈ ys, b.used = false ∧ b.addr = q :=
      mem_freeAddrs.mp (by rw [hfs]; exact List.mem_cons_self)
    cases ys with
    | nil => cases hb
    | cons y ys =>
      rintro (hq : q = c.addr + c.span)
      have hyaddr : y.addr = c.addr + c.span := h.tiles.neighbours.1
      have hbmem : b ∈ xs ++ c :: y :: ys := List.mem_append_right _ (List.mem_cons_of_mem _ hb)
      have hymem : y ∈ xs ++ c :: y :: ys := by simp
      have hby : b = y := h.tiles.eq_of_start hbmem hymem (by omega)
      rw [hby, hused y rfl] at hfree
      cases hfree

/-- When `c` has been released upwards, and linked to what follows, the circle is open. -/
theorem Ringed.opened {m' : Mem} {zs : List Block} (h : Ringed base keep m₀ m lo hi (xs ++ c :: ys))
    (hc : c.used = true) (hup : absorbNext { c with used := false } ys = (b, zs))
    (hr : Rooted base keep m₀ m' lo hi (xs ++ b :: zs))
    (hlinks : links m' = Function.update (links m) c.addr ((freeAddrs zs).headD base)) :
    Opened base keep m₀ m' lo hi xs b zs ((freeAddrs ys).headD base) := by
  have hfree : b.used = false := by
    have hused : (absorbNext { c with used := false } ys).1.used = false := absorbNext_used_eq
    rwa [hup] at hused
  have hbaddr : b.addr = c.addr := by
    have haddr : (absorbNext { c with used := false } ys).1.addr = c.addr := absorbNext_addr
    rwa [hup] at haddr
  have hout : c.addr ∉ base :: freeAddrs xs := fun hmem => Nat.lt_irrefl _ (h.front_lt hmem)
  have hout' : c.addr ∉ freeAddrs zs := fun hmem => by
    have hback := hr.lt_back hmem
    have hpos := (hr.tiles.bounds (b := b) (by simp)).2.2
    omega
  have hleads := h.leads
  rw [ring_eq hc] at hleads
  obtain ⟨hfront, hback⟩ := leads_append.mp hleads
  -- the free blocks above the released one
  have hrest : Leads (links m) base (freeAddrs zs) := by
    cases ys with
    | nil =>
      cases hup
      exact hback
    | cons y ys =>
      cases hy : y.used with
      | true =>
        rw [absorbNext_used hy] at hup
        cases hup
        exact hback
      | false =>
        rw [absorbNext_free hy] at hup
        cases hup
        rw [freeAddrs_free hy] at hback
        exact hback.2
  refine ⟨hr, hfree, ?_, ?_⟩
  · rw [hlinks]
    exact hfront.update hout _
  · rw [hlinks, hbaddr]
    exact hrest.push hout'

/-- **The upper join** releases `c` upwards, and opens the circle. -/
theorem wp_joinUpper {Q : Unit → Mem → Prop} (h : Ringed base keep m₀ m lo hi (xs ++ c :: ys)) (hc : c.used = true)
    (hkeep : ∀ v ∈ keep, v < c.addr ∨ c.addr + c.span ≤ v)
    (hQ : ∀ m' b zs, absorbNext { c with used := false } ys = (b, zs) →
      Opened base keep m₀ m' lo hi xs b zs ((freeAddrs ys).headD base) → Q () m') :
    wp (joinUpper c.addr ((freeAddrs xs).getLastD base)) Q m := by
  have hcmem : c ∈ xs ++ c :: ys := by simp
  have hcnull := h.addr_ne_null hcmem
  have hbounds := h.tiles.bounds hcmem
  have hpnull : (freeAddrs xs).getLastD base ≠ null := h.ne_null (ring_mem (last_mem base xs) (c :: ys))
  have hne : base ≠ c.addr := Nat.ne_of_lt (h.front_lt List.mem_cons_self)
  have hend : ptrAdd c.addr (c.span : ℤ) = c.addr + c.span := by
    have hhi := h.hi_lt
    exact ptrAdd_of_lt (by omega)
  -- released, before anything is joined
  have hfreed := h.toSized.setUsed false fun _ => hkeep
  unfold joinUpper
  rw [wp_bind, (gives_size h.toSized hcmem).wp_iff, wp_bind, (gives_ptr hpnull).wp_iff, links_last h hc, hend]
  by_cases hy : ∃ y ∈ ys.head?, y.used = false
  · obtain ⟨y, hhead, hfree⟩ := hy
    obtain ⟨zs, rfl⟩ : ∃ zs, ys = y :: zs := ⟨ys.tail, (List.cons_head?_tail hhead).symm⟩
    have hymem : y ∈ xs ++ c :: y :: zs := by simp
    have hynull := h.addr_ne_null hymem
    have hyaddr : y.addr = c.addr + c.span := h.tiles.neighbours.1
    have hybounds := h.tiles.bounds hymem
    have hshort := h.short
    have hsum : addUnsigned c.span y.span = c.span + y.span := addUnsigned_of_lt (by omega)
    have hnext : links m y.addr = (freeAddrs zs).headD base := by
      have hleads := h.leads
      rw [ring_eq hc, freeAddrs_free hfree] at hleads
      exact hleads.next_eq
    have hlast := links_last h hc
    have hopened (m₁ : Mem) (hr : Rooted base keep m₀ m₁ lo hi (xs ++ ⟨c.addr, c.span + y.span, false⟩ :: zs)) :=
      h.opened hc (absorbNext_free hfree) hr
    rw [freeAddrs_free hfree, List.headD_cons] at hlast ⊢
    rw [if_pos hyaddr.symm, wp_bind, (gives_size h.toSized hymem).wp_iff, hsum, wp_bind, wp_setSize hcnull, wp_bind,
      (gives_ptr hpnull).wp_iff, links_withSpan, hlast, wp_bind, (gives_ptr hynull).wp_iff, links_withSpan, hnext,
      wp_setPtr hcnull]
    refine hQ _ _ _ (absorbNext_free hfree) (hopened _ ⟨?_, h.base_pos, h.base_lt, ?_⟩ ?_)
    · exact (hfreed.merge rfl hfree).setLink (h.addr_notMem hcmem) _
    · rw [withLink_span, withSpan_span, if_neg hne]
      exact h.baseSize
    · rw [links_withLink, links_withSpan]
  · have hused : ∀ y ∈ ys.head?, y.used = true := by
      intro y hmem
      by_contra hnot
      exact hy ⟨y, hmem, Bool.eq_false_iff.mpr hnot⟩
    have hnot : ¬ c.addr + c.span = (freeAddrs ys).headD base := (headD_ne_end h.toRooted hused).symm
    rw [if_neg hnot, wp_setPtr hcnull]
    refine hQ _ _ _ (absorbNext_of_used hused) (h.opened hc (absorbNext_of_used hused)
      ⟨hfreed.setLink (h.addr_notMem hcmem) _, h.base_pos, h.base_lt, ?_⟩ links_withLink)
    rw [withLink_span]
    exact h.baseSize

namespace Opened

variable (h : Opened base keep m₀ m lo hi xs b ys v)
include h

theorem front_nodup : (base :: freeAddrs xs).Nodup := by
  obtain ⟨htxs, -, -⟩ := tiles_around.mp h.tiles
  refine List.nodup_cons.mpr ⟨fun hmem => ?_, nodup_freeAddrs htxs⟩
  have hlow := free_bounds htxs hmem
  have hlt := h.base_lt
  omega

theorem last_notMem_keep : (freeAddrs xs).getLastD base ∉ keep := h.notMem_keep (ring_mem (last_mem base xs) (b :: ys))

/-- The front may be led elsewhere. -/
theorem redirect (w : ℕ) :
    Leads (Function.update (links m) ((freeAddrs xs).getLastD base) w) w (base :: freeAddrs xs) ∧
      Leads (Function.update (links m) ((freeAddrs xs).getLastD base) w) base (b.addr :: freeAddrs ys) := by
  refine ⟨?_, h.back.update (fun hmem => ?_) w⟩
  · obtain ⟨l, hl⟩ := exists_front base xs
    have hfront := h.front
    have hnodup := h.front_nodup
    rw [hl] at hfront hnodup ⊢
    exact hfront.redirect hnodup w
  · have hlast := h.front_lt (last_mem base xs)
    rcases List.mem_cons.mp hmem with heq | hmem
    · omega
    · have hlow := h.lt_back hmem
      omega

/-- `b` is linked in behind the front. -/
theorem linked : Ringed base keep m₀ (withLink m ((freeAddrs xs).getLastD base) b.addr) lo hi (xs ++ b :: ys) := by
  obtain ⟨hfront, hback⟩ := h.redirect b.addr
  refine ⟨⟨h.setLink h.last_notMem_keep _, h.base_pos, h.base_lt, withLink_span.trans h.baseSize⟩, ?_⟩
  rw [links_withLink, freeAddrs_append, freeAddrs_free h.free, ← List.cons_append]
  exact leads_append.mpr ⟨hfront, hback⟩

end Opened

/-- `b` is joined to the free block `x` before it. -/
theorem Opened.merged {x : Block} {zs : List Block} (h : Opened base keep m₀ m lo hi (zs ++ [x]) b ys v)
    (hx : x.used = false) :
    Ringed base keep m₀ (withLink (Base.withSpan m x.addr (x.span + b.span : ℕ)) x.addr ((freeAddrs ys).headD base))
      lo hi (zs ++ (⟨x.addr, x.span + b.span, false⟩ : Block) :: ys) := by
  have hfs : freeAddrs (zs ++ [x]) = freeAddrs zs ++ [x.addr] := by
    rw [freeAddrs_append, freeAddrs_free hx, freeAddrs_nil]
  have hlast : (freeAddrs (zs ++ [x])).getLastD base = x.addr := by rw [hfs, List.getLastD_concat]
  have hne : base ≠ x.addr := (List.nodup_cons.mp h.front_nodup).1.imp fun heq => by rw [hfs, heq]; simp
  have hsized := h.toSized
  rw [List.append_assoc] at hsized
  have hout : x.addr ∉ keep := h.addr_notMem (by simp)
  obtain ⟨hfront, hback⟩ := h.redirect ((freeAddrs ys).headD base)
  rw [hlast] at hfront hback
  refine ⟨⟨(Sized.merge hsized hx h.free).setLink hout _, h.base_pos, h.base_lt, ?_⟩, ?_⟩
  · rw [withLink_span, withSpan_span, if_neg hne]
    exact h.baseSize
  · have hring : base :: freeAddrs (zs ++ (⟨x.addr, x.span + b.span, false⟩ : Block) :: ys)
        = (base :: freeAddrs (zs ++ [x])) ++ freeAddrs ys := by
      rw [freeAddrs_append, freeAddrs_free rfl, hfs, List.cons_append, List.append_assoc]
      rfl
    rw [links_withLink, links_withSpan, hring]
    exact leads_append.mpr ⟨hfront, hback.2⟩

/-- **The lower join** joins the free block `b` to the block before it, or links it in. -/
theorem wp_joinLower {Q : Unit → Mem → Prop} (h : Opened base keep m₀ m lo hi xs b ys v)
    (hQ : ∀ m', Ringed base keep m₀ m' lo hi ((absorbPrev xs b).1 ++ (absorbPrev xs b).2 :: ys) → Q () m') :
    wp (joinLower b.addr ((freeAddrs xs).getLastD base)) Q m := by
  have hbounds := h.tiles.bounds (b := b) (by simp)
  have hhi := h.hi_lt
  have hbase : base < b.addr := h.front_lt List.mem_cons_self
  have hlinked (hx : ∀ x ∈ xs.getLast?, x.used = true) : Q () (withLink m ((freeAddrs xs).getLastD base) b.addr) := by
    rw [absorbPrev_of_used hx] at hQ
    exact hQ _ h.linked
  unfold joinLower
  rcases List.mem_cons.mp (last_mem base xs) with hlast | hlast
  · -- nothing below `b` is free
    have hend : ¬ ptrAdd base (0 : ℕ) = b.addr := by
      rw [ptrAdd_of_lt (by omega)]
      omega
    have hused : ∀ x ∈ xs.getLast?, x.used = true := by
      intro x hx
      by_contra hnot
      obtain ⟨zs, rfl⟩ := List.getLast?_eq_some_iff.mp hx
      have hfree : x.used = false := Bool.eq_false_iff.mpr hnot
      rw [freeAddrs_append, freeAddrs_free hfree, freeAddrs_nil, List.getLastD_concat] at hlast
      have hlow := (h.tiles.bounds (b := x) (by simp)).1
      have hlt := h.base_lt
      omega
    have hwrite := hlinked hused
    rw [hlast] at hwrite ⊢
    rw [wp_bind, (gives_baseSize h.base_ne_null h.baseSize).wp_iff, if_neg hend, wp_setPtr h.base_ne_null]
    exact hwrite
  · obtain ⟨x, hx, hxfree, hxaddr⟩ := mem_freeAddrs.mp hlast
    have hxmem : x ∈ xs ++ b :: ys := List.mem_append_left _ hx
    have hxnull := h.addr_ne_null hxmem
    have hxbounds := h.tiles.bounds hxmem
    have hend : ptrAdd x.addr (x.span : ℤ) = x.addr + x.span := ptrAdd_of_lt (by omega)
    obtain ⟨zs, z, rfl⟩ := (List.eq_nil_or_concat xs).resolve_left (List.ne_nil_of_mem hx)
    rw [List.concat_eq_append] at *
    have hzmem : z ∈ zs ++ [z] ++ b :: ys := by simp
    have hzend : z.addr + z.span = b.addr := by
      obtain ⟨htxs, -, -⟩ := tiles_around.mp h.tiles
      obtain ⟨-, -, hzb⟩ := tiles_around.mp htxs
      exact hzb
    cases hz : z.used with
    | true =>
      have hne : ¬ x.addr + x.span = b.addr := by
        intro heq
        have hzpos := (h.tiles.bounds hzmem).2.2
        have hxz : x = z := h.tiles.eq_of_mem hxmem hzmem (u := b.addr - 1) (by omega) (by omega)
        rw [hxz, hz] at hxfree
        cases hxfree
      have hwrite := hlinked (by simpa using hz)
      rw [← hxaddr] at hwrite ⊢
      rw [wp_bind, (gives_size h.toSized hxmem).wp_iff, hend, if_neg hne, wp_setPtr hxnull]
      exact hwrite
    | false =>
      have hxz : x.addr = z.addr := by
        rw [hxaddr, freeAddrs_append, freeAddrs_free hz, freeAddrs_nil, List.getLastD_concat]
      obtain rfl : x = z := h.tiles.eq_of_start hxmem hzmem hxz
      have hbmem : b ∈ zs ++ [x] ++ b :: ys := by simp
      have hshort := h.short
      have hsum : addUnsigned x.span b.span = x.span + b.span := addUnsigned_of_lt (by omega)
      have hnext : links m b.addr = (freeAddrs ys).headD base := h.back.1
      rw [absorbPrev_free hz, h.free] at hQ
      rw [← hxaddr, wp_bind, (gives_size h.toSized hxmem).wp_iff, hend, if_pos hzend, wp_bind,
        (gives_size h.toSized hbmem).wp_iff, hsum, wp_bind, wp_setSize hxnull, wp_bind,
        (gives_ptr (h.addr_ne_null hbmem)).wp_iff, links_withSpan, hnext, wp_setPtr hxnull]
      exact hQ _ (h.merged hz)

end SystemProgramming.HeapMgr.Kr
