import SystemProgramming.HeapMgr.Heapmgr1
import SystemProgramming.HeapMgr.FreeLists
import SystemProgramming.HeapMgr.CommonSpec

/-!
# What the functions of `heapmgr1.c` do to blocks and to the free list

Unlike `heapmgr2.c`, this manager links a freed block before it merges, and a block that swallows its
upper neighbour keeps its place in the list; so the statements name the list as well as the blocks.
The links of used blocks may hold anything.

* `wp_freelistUnlink`: a block leaves the list.
* `wp_coalesceTwo`: two neighbours become one, in the place of the lower one.
-/

namespace SystemProgramming.HeapMgr.Heapmgr1

open Exec CInt

/-- The heap shows the table `T`, and the list `l` from `s_free_head` holds the free blocks outside
`out`. -/
structure Work (keep : Set ℕ) (m₀ : Mem) (s : Heap1) (T : Table) (out : Set ℕ) (l : List ℕ) :
    Prop where
  rep : Rep keep m₀ s.mem s.sHeapLo s.sHeapHi T
  lists : Listed (fun _ : Unit => s.sFree) (fun _ => ()) T out (fun _ => l)

/-- `b` is in the list, or it is in none and its links say so. -/
def Tidy (T : Table) (l : List ℕ) (b : Block) : Prop :=
  b.addr ∈ l ∨ (T.next b.addr = null ∧ T.prev b.addr = null)

variable {cfg : Cfg} {keep : Set ℕ} {m₀ : Mem} {T : Table} {s : Heap1} {out : Set ℕ} {l : List ℕ}
  {a b : Block} {xs ys : List Block}

theorem update_unit {α : Type} (f : Unit → α) (v : α) : Function.update f () v = fun _ => v := by
  funext u
  exact Function.update_self _ _ _

namespace Work

theorem mem_list (h : Work keep m₀ s T out l) (hb : b ∈ T.blocks) (hfree : b.used = false)
    (hout : b.addr ∉ out) : b.addr ∈ l :=
  (h.lists.mem () _).mpr ⟨hout, b, hb, rfl, hfree, rfl⟩

theorem null_not_mem (h : Work keep m₀ s T out l) : null ∉ l := h.lists.null_not_mem (i := ()) h.rep

theorem links (h : Work keep m₀ s T out l) : Links T.next T.prev null l null := h.lists.links ()

theorem head (h : Work keep m₀ s T out l) : s.sFree = l.headD null := h.lists.head ()

theorem gives_free (h : Work keep m₀ s T out l) (hb : b ∈ T.blocks) (hfree : b.used = false) :
    Gives (chunkGetStatus cfg b.addr) s.mem chunkFree := by
  have hstatus : Gives (chunkGetStatus cfg b.addr) s.mem _ := h.rep.gives_status hb
  rwa [hfree] at hstatus

theorem linkOk (h : Work keep m₀ s T out l) (hb : Tidy T l b) :
    T.LinkOk (T.next b.addr) ∧ T.LinkOk (T.prev b.addr) := by
  rcases hb with hm | ⟨hn, hp⟩
  · exact ⟨h.lists.linkOk_next (i := ()) hm, h.lists.linkOk_prev (i := ()) hm⟩
  · exact ⟨Or.inl hn, Or.inl hp⟩

/-- A member that nothing precedes is the head. -/
theorem head_eq {p : ℕ} (h : Work keep m₀ s T out l) (hp : p ∈ l) (hprev : T.prev p = null) :
    s.sFree = p := by
  rw [h.head]
  exact h.links.head_of_prev_null h.null_not_mem hp hprev

theorem gives_next (h : Work keep m₀ s T out l) (hb : b ∈ T.blocks) (ht : Tidy T l b) :
    Gives (chunkGetNextFree cfg b.addr) s.mem (T.next b.addr) :=
  h.rep.gives_getNext hb (h.linkOk ht).1

theorem gives_prev (h : Work keep m₀ s T out l) (hb : b ∈ T.blocks) (ht : Tidy T l b) :
    Gives (chunkGetPrevFree cfg b.addr) s.mem (T.prev b.addr) :=
  h.rep.gives_getPrev hb (h.linkOk ht).2

end Work

/-! ### Unlinking -/

/-- The links after a block has been taken out of the list. -/
def unlinked (T : Table) (p : ℕ) : Table :=
  ((T.join (T.prev p) (T.next p)).setNext p null).setPrev p null

/-- A block that has been unlinked has no links. -/
theorem tidy_unlinked (T : Table) (b : Block) (l : List ℕ) : Tidy (unlinked T b.addr) l b :=
  Or.inr ⟨Function.update_self _ _ _, Function.update_self _ _ _⟩

/-- A block in hand has no links to lose. -/
theorem unlinked_idle (hn : T.next b.addr = null) (hp : T.prev b.addr = null) :
    unlinked T b.addr = T := by
  have hnext : Function.update T.next b.addr null = T.next := by
    rw [← hn]
    exact Function.update_eq_self _ _
  have hprev : Function.update T.prev b.addr null = T.prev := by
    rw [← hp]
    exact Function.update_eq_self _ _
  unfold unlinked Table.join Table.setNext Table.setPrev
  rw [hn, hp, setLink_null, setLink_null, hnext, hprev]

/-- Used blocks do not notice that a block leaves the list. -/
theorem Work.idle_unlinked (h : Work keep m₀ s T out l) (hb : b ∈ T.blocks) (hfree : b.used = false)
    (htidy : Tidy T l b) (hidle : Idle T) : Idle (unlinked T b.addr) := by
  refine hidle.congr fun c hc hused => ⟨hc, ?_, ?_⟩
  · have hcb : c.addr ≠ b.addr := h.rep.ne_of_linkOk hc hused (Or.inr ⟨b, hb, rfl, hfree⟩)
    show Function.update (setLink null T.next (T.prev b.addr) (T.next b.addr)) b.addr null c.addr = _
    rw [Function.update_of_ne hcb, setLink_apply_ne (h.rep.ne_of_linkOk hc hused (h.linkOk htidy).2)]
  · have hcb : c.addr ≠ b.addr := h.rep.ne_of_linkOk hc hused (Or.inr ⟨b, hb, rfl, hfree⟩)
    show Function.update (setLink null T.prev (T.next b.addr) (T.prev b.addr)) b.addr null c.addr = _
    rw [Function.update_of_ne hcb, setLink_apply_ne (h.rep.ne_of_linkOk hc hused (h.linkOk htidy).1)]

/-- The list without the block, in the unlinked table. -/
theorem Work.unlinked_lists (h : Work keep m₀ s T out l) (hmem : b.addr ∈ l) :
    Listed (fun _ : Unit => if T.prev b.addr = null then T.next b.addr else s.sFree) (fun _ => ())
      (unlinked T b.addr) (insert b.addr out) (fun _ => l.erase b.addr) := by
  have hd := h.lists.detach h.rep (i := ()) hmem
  rw [update_unit, update_unit] at hd
  have hheads : (if T.prev b.addr = null then fun _ : Unit => T.next b.addr else fun _ => s.sFree)
      = fun _ => if T.prev b.addr = null then T.next b.addr else s.sFree := by
    funext u
    split <;> rfl
  rw [hheads] at hd
  exact hd

/-- **`freelist_unlink`**, for a block that is in the list or has left it already. -/
theorem wp_freelistUnlink {Q : Unit → Heap1 → Prop} (h : Work keep m₀ s T out l)
    (hb : b ∈ T.blocks) (hfree : b.used = false) (htidy : Tidy T l b)
    (hQ : ∀ s', Keeps s s' →
      Work keep m₀ s' (unlinked T b.addr) (insert b.addr out) (l.erase b.addr) → Q () s') :
    wp (freelistUnlink cfg b.addr) Q s := by
  have hr := h.rep
  obtain ⟨hnext, hprev⟩ := h.linkOk htidy
  -- the writes, whatever happens to the head
  have hwrites : ∀ m head, Rep keep m₀ m s.sHeapLo s.sHeapHi (T.join (T.prev b.addr) (T.next b.addr)) →
      Listed (fun _ : Unit => head) (fun _ => ()) (unlinked T b.addr) (insert b.addr out)
        (fun _ => l.erase b.addr) →
      wp (chunkSetPrevFree cfg b.addr null) (fun _ m => wp (chunkSetNextFree cfg b.addr null)
        (fun _ m => Q () { s with mem := m, sFree := head }) m) m := by
    intro m head hm hlists
    have hb₁ : b ∈ (T.join (T.prev b.addr) (T.next b.addr)).blocks := hb
    refine hm.wp_setPrev hb₁ (Or.inl rfl) fun m₁ hm₁ _ => ?_
    have hb₂ : b ∈ ((T.join (T.prev b.addr) (T.next b.addr)).setPrev b.addr null).blocks := hb
    refine hm₁.wp_setNext hb₂ (Or.inl rfl) fun m₂ hm₂ _ => ?_
    exact hQ _ (keeps_set s m₂ head) ⟨hm₂, hlists⟩
  unfold freelistUnlink
  simp only [wp_bind, wp_lift]
  rw [(h.gives_prev hb htidy).wp_iff, (h.gives_next hb htidy).wp_iff, wp_ite]
  by_cases hmem : b.addr ∈ l
  · have hlists := h.unlinked_lists hmem
    constructor
    · intro hnull
      rw [if_neg hnull] at hlists
      obtain ⟨p, hp, hpa, -⟩ := hprev.resolve_left hnull
      simp only [wp_lift, wp_when]
      rw [← hpa]
      refine hr.wp_setNext hp hnext fun m₁ hm₁ _ => ?_
      have hpl : (T.setNext p.addr (T.next b.addr)).LinkOk p.addr := by
        rw [hpa]
        exact hprev
      refine hm₁.wp_setPrevOpt hnext hpl fun m₂ hm₂ _ => hwrites m₂ _ ?_ hlists
      unfold Table.setPrevOpt Table.setNext at hm₂
      unfold Table.join
      rw [setLink_of_ne hnull, ← hpa]
      exact hm₂
    · intro hnull
      rw [not_not] at hnull
      rw [if_pos hnull] at hlists
      have hhead : s.sFree = b.addr := h.head_eq hmem hnull
      simp only [freeHead, setFreeHead, wp_bind, wp_reads, wp_when, wp_modify, wp_lift]
      refine ⟨fun _ => ?_, fun hne => absurd hhead hne⟩
      refine hr.wp_setPrevOpt hnext (by rw [hnull]; exact Or.inl rfl) fun m hm _ => hwrites m _ ?_ hlists
      simpa [Table.join, Table.setPrevOpt, hnull] using hm
  · -- the block is in hand: nothing points to it and its links are null already
    have hout : b.addr ∈ out := by
      by_contra hout
      exact hmem (h.mem_list hb hfree hout)
    obtain ⟨hn, hp⟩ := htidy.resolve_left hmem
    have hhead : s.sFree ≠ b.addr := by
      rw [h.head]
      intro he
      cases hl : l with
      | nil =>
        rw [hl] at he
        exact hr.addr_ne_null hb he.symm
      | cons c l' =>
        rw [hl] at he
        exact hmem (by rw [hl, ← he]; simp)
    have hlists : Listed (fun _ : Unit => s.sFree) (fun _ => ()) (unlinked T b.addr)
        (insert b.addr out) (fun _ => l.erase b.addr) := by
      rw [unlinked_idle hn hp, Set.insert_eq_of_mem hout, List.erase_of_not_mem hmem]
      exact h.lists
    refine ⟨fun hnull => absurd hp hnull, fun _ => ?_⟩
    simp only [freeHead, wp_bind, wp_reads, wp_when, wp_lift]
    refine ⟨fun he => absurd he hhead, fun _ => ⟨fun hnull => absurd hn hnull, fun _ => ?_⟩⟩
    refine hwrites s.mem s.sFree ?_ hlists
    rw [hn, hp]
    exact hr

/-! ### Merging -/

/-- What the unlinking of `b` does to the forward link of another member of the list. -/
theorem Work.unlinked_next (h : Work keep m₀ s T out l) (ha : a.addr ∈ l) (hab : a.addr ≠ b.addr)
    (hb : b ∈ T.blocks) (htidy : Tidy T l b) :
    (unlinked T b.addr).next a.addr
      = if T.next a.addr = b.addr then T.next b.addr else T.next a.addr := by
  have han : a.addr ≠ null := fun he => h.null_not_mem (he ▸ ha)
  show Function.update (setLink null T.next (T.prev b.addr) (T.next b.addr)) b.addr null a.addr = _
  rw [Function.update_of_ne hab]
  by_cases hmem : b.addr ∈ l
  · have hiff := h.links.next_eq_iff h.null_not_mem ha hmem
    by_cases hnext : T.next a.addr = b.addr
    · rw [if_pos hnext, hiff.mp hnext, setLink_of_ne han, Function.update_self]
    · rw [if_neg hnext]
      exact setLink_apply_ne fun he => hnext (hiff.mpr he.symm)
  · obtain ⟨-, hp⟩ := htidy.resolve_left hmem
    rw [hp, setLink_null, if_neg]
    intro hnext
    rcases h.links.next_mem ha with hm | hn
    · exact hmem (hnext ▸ hm)
    · exact h.rep.addr_ne_null hb (hnext.symm.trans hn)

/-- A merge leaves the addresses of the free blocks as they were, but for the upper block. -/
theorem freeAt_merge {T' : Table} {n p : ℕ} (hT : T.blocks = xs ++ a :: b :: ys)
    (ha : a.used = false) (hT' : T'.blocks = xs ++ ⟨a.addr, n, false⟩ :: ys) (hp : p ≠ b.addr) :
    T'.FreeAt p ↔ T.FreeAt p := by
  unfold Table.FreeAt
  rw [hT, hT']
  simp only [List.mem_append, List.mem_cons]
  constructor
  · rintro ⟨c, hx | rfl | hy, hcp, hcf⟩
    · exact ⟨c, Or.inl hx, hcp, hcf⟩
    · exact ⟨a, Or.inr (Or.inl rfl), hcp, ha⟩
    · exact ⟨c, Or.inr (Or.inr (Or.inr hy)), hcp, hcf⟩
  · rintro ⟨c, hx | rfl | rfl | hy, hcp, hcf⟩
    · exact ⟨c, Or.inl hx, hcp, hcf⟩
    · exact ⟨_, Or.inr (Or.inl rfl), hcp, rfl⟩
    · exact absurd hcp.symm hp
    · exact ⟨c, Or.inr (Or.inr hy), hcp, hcf⟩

/-- The list does not notice that the free blocks `a` and `b` have become one at `a`, once `b` has
left it. -/
theorem Work.merged_lists {T' : Table} {head : ℕ} (h : Work keep m₀ s T out l)
    (hT : T.blocks = xs ++ a :: b :: ys) (ha : a.used = false)
    (hT' : T'.blocks = xs ++ ⟨a.addr, a.span + b.span, false⟩ :: ys)
    (hbo : b.addr ∈ out) (hnext : T'.next = T.next) (hprev : T'.prev = T.prev)
    (hhead : head = s.sFree) :
    Listed (fun _ : Unit => head) (fun _ => ()) T' out (fun _ => l) := by
  subst hhead
  refine h.lists.congr_table (fun _ p _ => by rw [hnext]) (fun _ p _ => by rw [hprev]) fun _ p hp => ?_
  have hpb : p ≠ b.addr := fun he => hp (he ▸ hbo)
  simpa [Table.FreeAt] using freeAt_merge hT ha hT' hpb

/-- The links of a member lead past the free blocks that are not in the list. -/
theorem Work.link_ne (h : Work keep m₀ s T out l) (ha : a.addr ∈ l) (hb : b ∈ T.blocks)
    (hbl : b.addr ∉ l) : T.next a.addr ≠ b.addr ∧ T.prev a.addr ≠ b.addr := by
  have hbnull := h.rep.addr_ne_null hb
  constructor
  · intro he
    rcases h.links.next_mem ha with hm | hnull
    · exact hbl (he ▸ hm)
    · exact hbnull (he.symm.trans hnull)
  · intro he
    rcases h.links.prev_mem ha with hm | hnull
    · exact hbl (he ▸ hm)
    · exact hbnull (he.symm.trans hnull)

/-- The used blocks do not notice a merge either. -/
theorem idle_merge {T' : Table} {n : ℕ} (hT : T.blocks = xs ++ a :: b :: ys)
    (hT' : T'.blocks = xs ++ ⟨a.addr, n, false⟩ :: ys) (hnext : T'.next = T.next)
    (hprev : T'.prev = T.prev) (h : Idle T) : Idle T' := by
  refine h.congr fun c hc hused => ⟨?_, congrFun hnext c.addr, congrFun hprev c.addr⟩
  rw [hT', List.mem_append, List.mem_cons] at hc
  rw [hT]
  rcases hc with hx | rfl | hy
  · exact List.mem_append_left _ hx
  · cases hused
  · exact List.mem_append_right _ (List.mem_cons_of_mem _ (List.mem_cons_of_mem _ hy))

/-- **`coalesce_two`**: the lower block keeps its place in the list, the upper one is gone.  The old
header of the upper one keeps its status. -/
theorem wp_coalesceTwo {Q : ℕ → Heap1 → Prop} (h : Work keep m₀ s T out l)
    (hT : T.blocks = xs ++ a :: b :: ys) (ha : a.used = false) (hb : b.used = false)
    (hal : a.addr ∈ l) (htidy : Tidy T l b) (hsmall : a.span + b.span < 2 ^ 31)
    (hQ : ∀ s' T', Keeps s s' → T'.blocks = xs ++ ⟨a.addr, a.span + b.span, false⟩ :: ys →
      Work keep m₀ s' T' (out \ {b.addr}) (l.erase b.addr) → (Idle T → Idle T') →
      (s'.mem b.addr).status = chunkFree → Q a.addr s') :
    wp (coalesceTwo cfg a.addr b.addr) Q s := by
  have hr := h.rep
  have hT₂ : T.blocks = (xs ++ [a]) ++ b :: ys := by simp [hT]
  have hma : a ∈ T.blocks := Rep.mem_of_split hT
  have hmb : b ∈ T.blocks := Rep.mem_of_split hT₂
  have hba := hr.bounds hma
  have hbb := hr.bounds hmb
  have hhi := hr.hi_lt
  obtain ⟨hlt, hab⟩ := hr.neighbours hT
  have hne : a.addr ≠ b.addr := hlt.ne
  have hspan : addInt a.span b.span = (a.span + b.span : ℕ) := addInt_of_lt (by omega)
  have hadj : Gives (chunkGetAdjacent cfg a.addr s.sHeapLo s.sHeapHi) s.mem b.addr :=
    hr.gives_adjacent_split hT
  have hback : Gives (chunkGetPrevAdjacent cfg b.addr s.sHeapLo s.sHeapHi) s.mem a.addr :=
    hr.gives_prevAdjacent_cons hT
  rw [coalesceTwo, if_neg (show ¬ b.addr < a.addr by omega)]
  simp only [coalesceOrdered, heapLo, heapHi, wp_bind, wp_reads, wp_assert]
  refine ⟨fun _ => ⟨hr.addr_ne_null hma, hr.addr_ne_null hmb, hne⟩, ?_⟩
  refine wp_assertM_gives (fun _ => (gives_lift (h.gives_free hma ha)).beq) ?_
  refine wp_assertM_gives (fun _ => (gives_lift (h.gives_free hmb hb)).beq) ?_
  refine wp_assertM_gives (fun _ => (gives_lift hadj).beq) ?_
  refine wp_assertM_gives (fun _ => (gives_lift hback).beq) ?_
  simp only [wp_lift, wp_pure]
  rw [(h.gives_next hma (Or.inl hal)).wp_iff, (h.gives_next hmb htidy).wp_iff]
  refine wp_freelistUnlink h hmb hb htidy fun s₁ hk₁ h₁ => ?_
  have han := h.unlinked_next hal hne hmb htidy
  have hal₁ : a.addr ∈ l.erase b.addr := (List.mem_erase_of_ne hne).mpr hal
  rw [← han]
  set T₁ := unlinked T b.addr with hT₁def
  have hT₁ : T₁.blocks = xs ++ a :: b :: ys := hT
  have hma₁ : a ∈ T₁.blocks := hma
  have hmb₁ : b ∈ T₁.blocks := hmb
  have hr₁ := h₁.rep
  rw [(h₁.gives_prev hma₁ (Or.inl hal₁)).wp_iff, (hr₁.tagged hma₁).gives_getSpan.wp_iff,
    (hr₁.tagged hmb₁).gives_getSpan.wp_iff, hspan,
    wp_setSpan (hr.addr_ne_null hma) (by omega) (by omega) (by omega)]
  have hmerge := hr₁.merge hT₁ ha hb hsmall
  have hstale : (withSpan s₁.mem a.addr (a.span + b.span) b.addr).status = chunkFree := by
    rw [withSpan_other (by omega) (by omega), hr₁.header b hmb₁, hb]
    rfl
  set ab : Block := ⟨a.addr, a.span + b.span, false⟩
  set n := T₁.next a.addr with hn
  set p := T₁.prev a.addr with hp
  have hbl : b.addr ∉ l.erase b.addr := (h.lists.nodup ()).not_mem_erase
  obtain ⟨hnb, hpb⟩ := h₁.link_ne hal₁ hmb₁ hbl
  set T₂ := (T₁.setBlocks (xs ++ ab :: ys)).setPrev a.addr (T₁.prev b.addr)
  have hT₂' : T₂.blocks = xs ++ ab :: ys := rfl
  have hnOk : T₂.LinkOk n :=
    (h₁.linkOk (Or.inl hal₁)).1.imp_right (freeAt_merge hT₁ ha hT₂' hnb).mpr
  have hpOk : T₂.LinkOk p :=
    (h₁.linkOk (Or.inl hal₁)).2.imp_right (freeAt_merge hT₁ ha hT₂' hpb).mpr
  have hmab : ab ∈ T₂.blocks := by
    show ab ∈ xs ++ ab :: ys
    simp
  have haOk : T₂.LinkOk a.addr := Or.inr ⟨ab, hmab, rfl, rfl⟩
  have hinner : ∀ d ∈ T₂.blocks, b.addr ≠ d.addr ∧ b.addr ≠ d.foot := by
    have hlt : b.addr < ab.foot := by
      show b.addr < a.addr + (a.span + b.span) - 1
      omega
    exact fun d hd => hmerge.inner_ne hmab (show a.addr < b.addr by omega) hlt hd
  -- writing `a`'s own links back leaves the links of the list as they were
  have hfinal : ∀ m head, head = s₁.sFree → (m b.addr).status = chunkFree →
      Rep keep m₀ m s₁.sHeapLo s₁.sHeapHi
        (((T₂.setNext a.addr n).setPrevOpt n a.addr).setPrev a.addr p) →
      Q a.addr { s₁ with mem := m, sFree := head } := by
    intro m head hhead hstatus hm
    have hnext : Function.update T₁.next a.addr n = T₁.next := Function.update_eq_self _ _
    have hprev : Function.update (setLink null (Function.update T₁.prev a.addr (T₁.prev b.addr)) n
        a.addr) a.addr p = T₁.prev := h₁.links.restore h₁.null_not_mem hal₁
    have hlists := h₁.merged_lists hT₁ ha
      (show (((T₂.setNext a.addr n).setPrevOpt n a.addr).setPrev a.addr p).blocks = xs ++ ab :: ys
        from rfl) (Set.mem_insert _ _) hnext hprev hhead
    have hidle : Idle T → Idle (((T₂.setNext a.addr n).setPrevOpt n a.addr).setPrev a.addr p) :=
      fun hidle => idle_merge hT₁ rfl hnext hprev (h.idle_unlinked hmb hb htidy hidle)
    refine hQ _ _ (hk₁.trans (keeps_set s₁ m head)) rfl ⟨hm, hlists.congr_out fun c hc _ => ?_⟩
      hidle hstatus
    have hc' : c ∈ xs ++ ab :: ys := hc
    have hcb : c.addr ≠ b.addr := by
      rw [List.mem_append, List.mem_cons] at hc'
      rcases hc' with hx | rfl | hy
      · exact (hr.neighbours_apart hT (Or.inl hx)).2
      · exact hne
      · exact (hr.neighbours_apart hT (Or.inr hy)).2
    simp [hcb]
  refine hmerge.wp_setNext hmab hnOk fun m₂ hm₂ hf₂ => ?_
  simp only [wp_when, wp_lift]
  have hmab₂ : ab ∈ (T₂.setNext a.addr n).blocks := hmab
  refine hm₂.wp_setPrevOpt hnOk haOk fun m₃ hm₃ hf₃ => ?_
  have hstale₃ : (m₃ b.addr).status = chunkFree := by
    rw [hf₃ _ fun d hd => (hinner d hd).2, hf₂ _ hne.symm, hstale]
  have hmab₃ : ab ∈ ((T₂.setNext a.addr n).setPrevOpt n a.addr).blocks := hmab
  rw [wp_ite]
  constructor
  · intro hpnull
    simp only [setFreeHead, wp_bind, wp_lift, wp_modify]
    refine hm₃.wp_setPrev hmab₃ (Or.inl rfl) fun m₄ hm₄ hf₄ => ?_
    have hhead : a.addr = s₁.sFree := (h₁.head_eq hal₁ hpnull).symm
    rw [← hpnull] at hm₄
    refine hfinal m₄ a.addr hhead ?_ hm₄
    rw [hf₄ _ (hinner ab hmab).2, hstale₃]
  · intro hpnull
    rw [wp_lift]
    refine hm₃.wp_setPrev hmab₃ hpOk fun m₄ hm₄ hf₄ => ?_
    refine hfinal m₄ s₁.sFree rfl ?_ hm₄
    rw [hf₄ _ (hinner ab hmab).2, hstale₃]

/-! ### Releasing a block -/

/-- The list once the block before `ys` has absorbed its upper neighbour, when that is free. -/
def listAfterNext (ys : List Block) (l : List ℕ) : List ℕ :=
  match ys with
  | [] => l
  | y :: _ => if y.used then l else l.erase y.addr

/-- The list once the last block of `xs`, when it is free, has absorbed the block at `p`. -/
def listAfterPrev (xs : List Block) (p : ℕ) (l : List ℕ) : List ℕ :=
  match xs.getLast? with
  | none => l
  | some x => if x.used then l else l.erase p

theorem listAfterNext_of_used (hy : ∀ y ∈ ys.head?, y.used = true) : listAfterNext ys l = l := by
  cases ys with
  | nil => rfl
  | cons y zs => exact if_pos (hy y rfl)

theorem listAfterPrev_of_used {p : ℕ} (hx : ∀ x ∈ xs.getLast?, x.used = true) :
    listAfterPrev xs p l = l := by
  rcases List.eq_nil_or_concat xs with rfl | ⟨zs, x, rfl⟩
  · rfl
  · simp [listAfterPrev, hx x (by simp)]

/-- The list after the block at `p` between `xs` and `ys` has been released. -/
def listAfterRelease (xs : List Block) (p : ℕ) (ys : List Block) (l : List ℕ) : List ℕ :=
  listAfterPrev xs p (listAfterNext ys (p :: l))

theorem wp_mergeNext {Q : ℕ → Heap1 → Prop} (h : Work keep m₀ s T ∅ l)
    (hT : T.blocks = xs ++ b :: ys) (hb : b.used = false) (hbl : b.addr ∈ l)
    (hsmall : (absorbNext b ys).1.span < 2 ^ 31)
    (hQ : ∀ s' T', Keeps s s' →
      T'.blocks = xs ++ (absorbNext b ys).1 :: (absorbNext b ys).2 →
      Work keep m₀ s' T' ∅ (listAfterNext ys l) → (Idle T → Idle T') → Q b.addr s') :
    wp (mergeNext cfg b.addr) Q s := by
  refine wp_withFreeNext h.rep hT (fun hused => ?_) fun y zs hys hfree => ?_
  · rw [absorbNext_of_used hused, listAfterNext_of_used hused] at hQ
    exact hQ s T (Keeps.refl s) hT h id
  · subst hys
    have hyl : y.addr ∈ l := h.mem_list (by simp [hT]) hfree (Set.notMem_empty _)
    rw [absorbNext_free hfree] at hsmall
    rw [absorbNext_free hfree, hb, listAfterNext, if_neg (by simp [hfree])] at hQ
    refine wp_coalesceTwo h hT hb hfree hbl (Or.inl hyl) hsmall fun s₁ T₁ hk₁ hT₁ h₁ hidle _ => ?_
    rw [Set.empty_sdiff] at h₁
    exact hQ s₁ T₁ hk₁ hT₁ h₁ hidle

theorem wp_mergePrev {Q : Unit → Heap1 → Prop} (h : Work keep m₀ s T ∅ l)
    (hT : T.blocks = xs ++ b :: ys) (hb : b.used = false)
    (hsmall : (absorbPrev xs b).2.span < 2 ^ 31)
    (hQ : ∀ s' T', Keeps s s' →
      T'.blocks = (absorbPrev xs b).1 ++ (absorbPrev xs b).2 :: ys →
      Work keep m₀ s' T' ∅ (listAfterPrev xs b.addr l) → (Idle T → Idle T') →
      (s'.mem b.addr).status = chunkFree → Q () s') :
    wp (mergePrev cfg b.addr) Q s := by
  have hr := h.rep
  have hmb : b ∈ T.blocks := Rep.mem_of_split hT
  have hstatus : (s.mem b.addr).status = chunkFree := by
    rw [hr.header b hmb, hb]
    rfl
  refine wp_withFreePrev hr hT (fun hused => ?_) fun zs x hxs hfree => ?_
  · rw [absorbPrev_of_used hused, listAfterPrev_of_used hused] at hQ
    exact hQ s T (Keeps.refl s) hT h id hstatus
  · subst hxs
    have hT₂ : T.blocks = zs ++ x :: b :: ys := by simp [hT]
    have hx : x ∈ T.blocks := Rep.mem_of_split hT₂
    have hxb : x.addr ≠ b.addr := (hr.neighbours hT₂).1.ne
    simp only [listAfterPrev, List.getLast?_append, List.getLast?_singleton, Option.some_or] at hQ
    have hbl : b.addr ∈ l := h.mem_list hmb hb (Set.notMem_empty _)
    rw [absorbPrev_free hfree] at hsmall
    rw [absorbPrev_free hfree, hb, if_neg (by simp [hfree])] at hQ
    simp only [wp_bind, wp_lift]
    rw [(h.gives_next hmb (Or.inl hbl)).wp_iff]
    refine wp_freelistUnlink h hmb hb (Or.inl hbl) fun s₁ hk₁ h₁ => ?_
    have hxl : x.addr ∈ l.erase b.addr :=
      (List.mem_erase_of_ne hxb).mpr (h.mem_list hx hfree (Set.notMem_empty _))
    refine wp_coalesceTwo h₁ hT₂ hfree hb hxl (tidy_unlinked T b _) hsmall
      fun s₂ T₂ hk₂ hT₂' h₂ hidle₂ hstale => ?_
    have hidle : Idle T → Idle T₂ := fun hi => hidle₂ (h.idle_unlinked hmb hb (Or.inl hbl) hi)
    have herase : (l.erase b.addr).erase b.addr = l.erase b.addr :=
      List.erase_of_not_mem (h.lists.nodup ()).not_mem_erase
    rw [herase, LawfulSingleton.insert_empty_eq, Set.sdiff_self] at h₂
    have hprev : Gives (chunkGetPrevFree cfg x.addr) s₂.mem (T₂.prev x.addr) :=
      h₂.gives_prev (b := ⟨x.addr, x.span + b.span, false⟩) (Rep.mem_of_split hT₂') (Or.inl hxl)
    rw [hprev.wp_iff]
    simp only [setFreeHead, wp_when, wp_modify]
    refine ⟨fun hnull => ?_, fun _ => hQ s₂ T₂ (hk₁.trans hk₂) hT₂' h₂ hidle hstale⟩
    -- the survivor is the head already
    have hhead : x.addr = s₂.sFree := (h₂.head_eq hxl hnull).symm
    rw [hhead]
    exact hQ s₂ T₂ (hk₁.trans hk₂) hT₂' h₂ hidle hstale

end SystemProgramming.HeapMgr.Heapmgr1
