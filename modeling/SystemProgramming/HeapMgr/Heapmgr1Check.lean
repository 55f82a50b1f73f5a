import SystemProgramming.HeapMgr.Heapmgr1Spec

/-!
# `check_heap_validity` of `heapmgr1.c`

The check succeeds on every heap whose list holds the free blocks and that has no two free
neighbours, so in the debug build the checks between the steps of a release change nothing.

* `gives_checkHeapValidity`: the validity check succeeds on every heap in order.
-/

namespace SystemProgramming.HeapMgr.Heapmgr1

open Exec CInt

variable {cfg : Cfg} {keep : Set ℕ} {m₀ : Mem} {T : Table} {s : Heap1} {l : List ℕ}

theorem gives_walkBlocks (hr : Rep keep m₀ s.mem s.sHeapLo s.sHeapHi T) (xs ys : List Block)
    (fuel e : ℕ) (hT : T.blocks = xs ++ ys) (hfuel : ys.length < fuel) :
    Gives (walkBlocks cfg fuel ((ys.map Block.addr).headD null) e) s
      (some (if ys = [] then e else s.sHeapHi)) := by
  induction ys generalizing xs fuel e with
  | nil =>
    obtain ⟨n, rfl⟩ := Nat.exists_eq_succ_of_ne_zero (Nat.ne_of_gt hfuel)
    apply gives_of_wp
    simp [walkBlocks, heapLo, heapHi]
  | cons b ys ih =>
    obtain ⟨n, rfl⟩ := Nat.exists_eq_succ_of_ne_zero (Nat.ne_of_gt (Nat.zero_lt_of_lt hfuel))
    have hb : b ∈ T.blocks := Rep.mem_of_split hT
    have hbb := hr.bounds hb
    have hlt : b.addr < s.sHeapHi := by omega
    have hrest := ih (xs ++ [b]) n (b.addr + b.span) (by simp [hT]) (by simpa using hfuel)
    rw [hr.end_of_split hT] at hrest
    show Gives (walkBlocks cfg (n + 1) b.addr e) s _
    apply gives_of_wp
    simp only [walkBlocks, heapLo, heapHi, wp_bind, wp_reads, wp_lift, hlt, hr.addr_ne_null hb,
      ne_eq, not_false_eq_true, and_self, not_true, if_false]
    rw [(hr.tagged hb).gives_isValid.wp_iff, if_neg Bool.true_eq_false.mp]
    simp only [cell, wp_bind, wp_lift, wp_reads]
    rw [(hr.gives_adjacent_split hT).wp_iff, (hr.tagged hb).span, (hr.tagged hb).ptrAdd_span,
      if_neg (List.cons_ne_nil _ _), hrest.wp_iff]
    exact ⟨rfl, rfl⟩

theorem gives_walkList (h : Work keep m₀ s T ∅ l) (hc : Coalesced T.blocks) (l₁ l₂ : List ℕ)
    (fuel : ℕ) (hl : l = l₁ ++ l₂) (hfuel : l₂.length < fuel) :
    Gives (walkList cfg fuel (l₂.headD null)) s true := by
  induction l₂ generalizing l₁ fuel with
  | nil =>
    obtain ⟨n, rfl⟩ := Nat.exists_eq_succ_of_ne_zero (Nat.ne_of_gt hfuel)
    exact gives_pure true
  | cons p l₂ ih =>
    obtain ⟨n, rfl⟩ := Nat.exists_eq_succ_of_ne_zero (Nat.ne_of_gt (Nat.zero_lt_of_lt hfuel))
    have hr := h.rep
    have hpn : p ≠ null := by
      intro he
      exact h.null_not_mem (by simp [hl, he])
    obtain ⟨b, hb, rfl, hfree, -⟩ := h.lists.block (i := ()) (a := p) (by simp [hl])
    obtain ⟨xs, ys, hT⟩ := List.append_of_mem hb
    have hrest := ih (l₁ ++ [b.addr]) n (by simp [hl]) (by simpa using hfuel)
    have hhead : b.addr = s.sFree ↔ l₁.getLastD null = null := h.lists.head_iff (i := ()) hr hl
    have hnext : Gives (chunkGetNextFree cfg b.addr) s.mem (l₂.headD null) :=
      h.lists.gives_next (i := ()) hr hl
    have hprev : Gives (chunkGetPrevFree cfg b.addr) s.mem (l₁.getLastD null) :=
      h.lists.gives_prev (i := ()) hr hl
    have hfirst : Gives (if b.addr = s.sFree then chunkGetPrevFree cfg b.addr else pure null)
        s.mem null := by
      split
      · rename_i he
        rwa [hhead.mp he] at hprev
      · exact gives_pure null
    have hforth : Gives (if b.addr ≠ s.sFree then chunkGetNextFree cfg (l₁.getLastD null)
        else pure b.addr) s.mem b.addr := by
      have hg : Gives (if l₁.getLastD null ≠ null then chunkGetNextFree cfg _ else _) s.mem _ :=
        h.lists.gives_forth (i := ()) hr hl
      simp only [ne_eq, hhead]
      exact hg
    show Gives (walkList cfg (n + 1) b.addr) s true
    apply gives_of_wp
    simp only [walkList, if_neg hpn, heapLo, heapHi, freeHead, wp_bind, wp_reads, wp_lift]
    rw [hfirst.wp_iff, if_neg (not_not.mpr rfl)]
    simp only [wp_bind, wp_lift]
    rw [(h.gives_free hb hfree).wp_iff, if_neg (not_not.mpr rfl)]
    simp only [wp_bind, wp_lift]
    rw [(hr.tagged hb).gives_isValid.wp_iff, if_neg Bool.true_eq_false.mp]
    simp only [wp_bind, wp_lift]
    rw [(hr.gives_adjacent_split hT).wp_iff, (hr.gives_nextStatus hc hT hfree).wp_iff,
      if_neg (show ¬ chunkUsed = chunkFree by decide)]
    simp only [wp_bind, wp_lift]
    rw [hnext.wp_iff, (h.lists.gives_back (i := ()) hr hl).wp_iff, if_neg (not_not.mpr rfl)]
    simp only [wp_bind, wp_lift]
    rw [hprev.wp_iff, hforth.wp_iff, if_neg (not_not.mpr rfl)]
    simp only [wp_bind, wp_lift]
    rw [hnext.wp_iff, hrest.wp_iff]
    exact ⟨rfl, rfl⟩

/-- **The validity check** returns `TRUE` on every heap in order. -/
theorem gives_checkHeapValidity (h : Work keep m₀ s T ∅ l) (hc : Coalesced T.blocks)
    (hfuel : T.blocks.length < cfg.fuel) : Gives (checkHeapValidity cfg) s true := by
  have hr := h.rep
  have hlo : s.sHeapLo ≠ null := Nat.ne_of_gt hr.lo_pos
  have hle := hr.tiles.le
  have hhi : s.sHeapHi ≠ null := Nat.ne_of_gt (Nat.lt_of_lt_of_le hr.lo_pos hle)
  apply gives_of_wp
  simp only [checkHeapValidity, heapLo, heapHi, freeHead, wp_bind, wp_reads, if_neg hlo, if_neg hhi]
  rw [wp_ite]
  constructor
  · intro hempty
    simpa using h.lists.head_null (hr.blocks_eq_nil_iff.mpr hempty) ()
  · intro hne
    have hcons : T.blocks ≠ [] := fun hnil => hne (hr.blocks_eq_nil_iff.mp hnil)
    have hlen := Nat.lt_of_le_of_lt (h.lists.length_le ()) hfuel
    have hblocks : Gives (walkBlocks cfg cfg.fuel _ _) s _ :=
      gives_walkBlocks hr [] T.blocks cfg.fuel s.sHeapLo rfl hfuel
    have hlist : Gives (walkList cfg cfg.fuel _) s _ := gives_walkList h hc [] l cfg.fuel rfl hlen
    rw [hr.headD_addr hcons, if_neg hcons] at hblocks
    rw [← h.head] at hlist
    rw [wp_bind, hblocks.wp_iff, if_neg (not_not.mpr rfl), hlist.wp_iff]
    exact ⟨rfl, rfl⟩

end SystemProgramming.HeapMgr.Heapmgr1
