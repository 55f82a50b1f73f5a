import SystemProgramming.HeapMgr.Heapmgr1Malloc
import SystemProgramming.HeapMgr.Heapmgr1Frame
import SystemProgramming.HeapMgr.InOrder

/-!
# One call of `heapmgr1.c` on a heap in order

What `heapmgr_malloc` does without growing, and what `heapmgr_free` does, stated on the memory: from a
heap whose blocks and free list are in order to a heap that is in order again.  The first block of the
list that is large enough is split in place or leaves the list; a released block and its free
neighbours become one block, at the lower neighbour's place in the list or at its head.  The only limit
is that the span of the merged block has to fit an `int`.

* `heapmgr1_malloc_first_fit`: a request is served from the first block of the list that is large enough.
* `heapmgr1_free_in_order`: when a release leaves a heap in order, with the block merged.
* `heapmgr1_free_in_order_fails`: a merged block whose span is no `int`.
-/

namespace SystemProgramming.HeapMgr

open Exec

/-- Spans are `int`s. -/
theorem LaidOut.small {F : Type} {s : Heap F} {bs : List Block} (h : LaidOut s bs)
    (ht : Typed s.mem) : ∀ b ∈ bs, b.span < 2 ^ 31 := by
  intro b hb
  have hint := (ht b.addr).2.bounds.2
  have hspan : (s.mem b.addr).hi32 = b.span := h.span b hb
  omega

/-- The units of a neighbour that is free. -/
def freeUnits : Option Block → ℕ
  | some b => if b.used then 0 else b.span
  | none => 0

/-- The units of `b` and of its free neighbours, together. -/
def unionSpan (xs : List Block) (b : Block) (ys : List Block) : ℕ :=
  freeUnits xs.getLast? + b.span + freeUnits ys.head?

theorem released_span (xs : List Block) (b : Block) (ys : List Block) :
    (released xs b ys).span = unionSpan xs b ys := by
  have hup : (absorbNext { b with used := false } ys).1.span = b.span + freeUnits ys.head? := by
    cases ys with
    | nil => rfl
    | cons y zs =>
      simp only [absorbNext, List.head?_cons, freeUnits]
      split <;> rfl
  unfold released unionSpan
  rw [Nat.add_assoc, ← hup]
  rcases List.eq_nil_or_concat xs with rfl | ⟨zs, x, rfl⟩
  · simp [freeUnits]
  · rw [List.concat_eq_append, List.getLast?_concat]
    by_cases hx : x.used = true
    · rw [absorbPrev_used hx]
      simp [freeUnits, hx]
    · rw [absorbPrev_free (Bool.eq_false_of_not_eq_true hx)]
      simp [freeUnits, hx]

namespace Heapmgr1

/-- A heap of `heapmgr1.c` in order, with the blocks `bs` and the free list `l`. -/
abbrev ListOrder (s : Heap1) (bs : List Block) (l : List ℕ) : Prop :=
  InOrder (fun _ : Unit => s.sFree) (fun _ => ()) s bs fun _ => l

/-- The free list after the block at `p` between `xs` and `ys` has been released: a free upper
neighbour is gone from it, and the merged block stands where a free lower neighbour stood, or else at
the head. -/
def freedList (xs : List Block) (p : ℕ) (ys : List Block) (l : List ℕ) : List ℕ :=
  match xs.getLast? with
  | some x => if x.used then p :: listAfterNext ys l else listAfterNext ys l
  | none => p :: listAfterNext ys l

variable {cfg : Cfg} {keep : Set ℕ} {m₀ : Mem} {T : Table} {s s' : Heap1} {bs xs ys : List Block}
  {l : List ℕ} {b c : Block} {p n size : ℕ}

theorem ListOrder.wellFormed (h : ListOrder s bs l) (hp : Placed s) (ht : Typed s.mem) :
    WellFormed ∅ s.mem s (tableOf s.mem bs) l :=
  ⟨⟨h.rep hp (h.small ht), h.listed⟩, h.coalesced⟩

theorem WellFormed.listOrder (h : WellFormed keep m₀ s T l) : ListOrder s T.blocks l :=
  inOrder_of_listed h.work.rep h.work.lists h.coalesced

/-! ### Allocating without growing -/

/-- What the first fit leaves: the block `b` between `xs` and `ys`, which stands in the list between
`k₁` and `k₂`, has served a request of `n` units. -/
def FirstFit (n : ℕ) (xs : List Block) (b : Block) (ys : List Block) (k₁ k₂ : List ℕ) (p : ℕ)
    (s' : Heap1) : Prop :=
  if n + 2 ≤ b.span then
    p = b.addr + (b.span - n) + 1 ∧
      ListOrder s' (xs ++ ⟨b.addr, b.span - n, false⟩ :: ⟨b.addr + (b.span - n), n, true⟩ :: ys)
        (k₁ ++ b.addr :: k₂)
  else p = b.addr + 1 ∧ ListOrder s' (xs ++ { b with used := true } :: ys) (k₁ ++ k₂)

theorem firstFit_of_wellFormed {k₁ k₂ : List ℕ} (hnd : (k₁ ++ b.addr :: k₂).Nodup)
    (hT : T.blocks = xs ++ allocate b n ++ ys)
    (h : WellFormed keep m₀ s' T (listAfterTake b n (k₁ ++ b.addr :: k₂))) :
    FirstFit n xs b ys k₁ k₂ ((allocated b n).addr + 1) s' := by
  have hin := h.listOrder
  rw [hT] at hin
  unfold FirstFit
  by_cases hsplit : n + 2 ≤ b.span
  · rw [if_pos hsplit]
    rw [listAfterTake, if_pos hsplit] at hin
    refine ⟨by rw [allocated, if_pos hsplit], ?_⟩
    simpa [allocate, hsplit] using hin
  · have hnot : b.addr ∉ k₁ := by
      intro hm
      exact (List.nodup_append.mp hnd).2.2 _ hm _ (by simp) rfl
    rw [if_neg hsplit]
    rw [listAfterTake, if_neg hsplit, List.erase_append_right _ hnot, List.erase_cons_head] at hin
    refine ⟨by rw [allocated, if_neg hsplit], ?_⟩
    simpa [allocate, hsplit] using hin

/-- A heap of two blocks of `n` units each, from address `1`: the lower one is live, the upper one is
free. -/
def pair (n : ℕ) : Heap1 where
  mem := fun p =>
    if p = 1 then ⟨chunkUsed, n, null⟩
    else if p = n then ⟨n, 0, null⟩
    else if p = n + 1 then ⟨chunkFree, n, null⟩
    else if p = 2 * n then ⟨n, 0, null⟩
    else ⟨0, 0, null⟩
  sFree := n + 1
  sHeapLo := 1
  sHeapHi := 2 * n + 1
  sHeapBooted := true
  os := ⟨2 * n + 1, 2 * n + 1, true, fun _ => true, 2⟩

theorem pair_listOrder (hn : 2 ≤ n) :
    ListOrder (pair n) [⟨1, n, true⟩, ⟨n + 1, n, false⟩] [n + 1] where
  tiles := by
    have hpos : 0 < n := by omega
    refine ⟨rfl, hpos, Nat.add_comm n 1, hpos, ?_⟩
    show 1 + n + n = 2 * n + 1
    omega
  two_le b hb := by
    rcases List.mem_cons.mp hb with rfl | hb'
    · exact hn
    · rw [List.mem_singleton.mp hb']
      exact hn
  status b hb := by
    rcases List.mem_cons.mp hb with rfl | hb'
    · rfl
    · rw [List.mem_singleton.mp hb']
      simp [pair, statusOf, show n ≠ 0 by omega]
  span b hb := by
    rcases List.mem_cons.mp hb with rfl | hb'
    · rfl
    · rw [List.mem_singleton.mp hb']
      simp [pair, show n ≠ 0 by omega]
  footSpan b hb := by
    rcases List.mem_cons.mp hb with rfl | hb'
    · simp [pair, Block.foot, show n ≠ 1 by omega]
    · rw [List.mem_singleton.mp hb']
      have hfoot : n + 1 + n - 1 = 2 * n := by omega
      simp [pair, Block.foot, hfoot, show 2 * n ≠ 1 by omega, show 2 * n ≠ n by omega,
        show 2 * n ≠ n + 1 by omega]
  coalesced := by simp [Coalesced]
  head _ := rfl
  links _ := by
    have hhead : (pair n).mem (n + 1) = ⟨chunkFree, n, null⟩ := by
      simp [pair, show n ≠ 0 by omega]
    have hfoot : ((pair n).mem (2 * n)).prev = null := by
      simp [pair, show 2 * n ≠ 1 by omega, show 2 * n ≠ n by omega, show 2 * n ≠ n + 1 by omega]
    refine ⟨?_, congrArg Cell.link hhead, trivial⟩
    unfold prevLink
    rw [hhead]
    have hend : n + 1 + (n : ℤ).toNat - 1 = 2 * n := by omega
    rw [hend]
    exact hfoot
  nodup _ := List.nodup_singleton _
  mem _ a := by
    constructor
    · intro ha
      exact ⟨⟨n + 1, n, false⟩, by simp, (List.mem_singleton.mp ha).symm, rfl, rfl⟩
    · intro ha
      obtain ⟨b, hb, rfl, hfree, -⟩ := ha
      rcases List.mem_cons.mp hb with rfl | hb'
      · cases hfree
      · rw [List.mem_singleton.mp hb']
        exact List.mem_singleton_self _

theorem pair_placed (hn : n < 2 ^ 31) : Placed (pair n) := by
  refine ⟨Nat.one_pos, ?_⟩
  show 2 * n + 1 < 2 ^ 60
  omega

theorem pair_typed (hn : n < 2 ^ 31) : Typed (pair n).mem := by
  have hint : IsInt (n : ℤ) := ⟨by omega⟩
  have hzero : IsInt 0 := ⟨by decide⟩
  intro p
  simp only [pair]
  split_ifs
  · exact ⟨inferInstanceAs (IsInt chunkUsed), hint⟩
  · exact ⟨hint, hzero⟩
  · exact ⟨inferInstanceAs (IsInt chunkFree), hint⟩
  · exact ⟨hint, hzero⟩
  · exact ⟨hzero, hzero⟩

/-- **First fit.**  Where some free block is large enough, `heapmgr_malloc` serves the request from the
first such block of the list, without the kernel, and leaves the heap in order: what is left of a block
that is split keeps its address and its place in the list, and every other block and the order of the
other members are as they were. -/
theorem heapmgr1_malloc_first_fit (h : ListOrder s bs l) (hp : Placed s) (ht : Typed s.mem)
    (hboot : s.sHeapBooted = true) (hfuel : Fuelled cfg s) (hpos : 1 ≤ size)
    (hle : size ≤ 3 * 10 ^ 8) (hfit : ∃ b ∈ bs, b.used = false ∧ blockUnits size ≤ b.span) :
    ∃ k₁ b k₂ xs ys p s', l = k₁ ++ b.addr :: k₂ ∧ bs = xs ++ b :: ys ∧ b.used = false ∧
      blockUnits size ≤ b.span ∧
      (∀ c ∈ bs, c.addr ∈ k₁ → c.span < blockUnits size) ∧
      heapmgrMalloc cfg size s = .ok p s' ∧ Keeps s s' ∧
      FirstFit (blockUnits size) xs b ys k₁ k₂ p s' := by
  have hneed := payloadUnits_lt hle
  have hwf := h.wellFormed hp ht
  have hnd := h.nodup ()
  have hcall : wp (heapmgrMalloc cfg size) (fun p s' => ∃ k₁ b k₂ xs ys,
      l = k₁ ++ b.addr :: k₂ ∧ bs = xs ++ b :: ys ∧ b.used = false ∧ blockUnits size ≤ b.span ∧
      (∀ c ∈ bs, c.addr ∈ k₁ → c.span < blockUnits size) ∧ Keeps s s' ∧
      FirstFit (blockUnits size) xs b ys k₁ k₂ p s') s := by
    refine wp_heapmgrMalloc_fits hwf hboot hfuel hpos (bytesToPayloadUnits_eq (by omega))
      (fun hnone => ?_) fun k₁ b k₂ xs ys hl hbefore hT hfree hspan s' T' hk hT' hwf' _ => ?_
    · obtain ⟨b, hb, hfree, hspan⟩ := hfit
      have hlt : b.span < payloadUnits size + 2 := hnone b hb hfree
      unfold blockUnits at hspan
      omega
    · subst hl
      exact ⟨k₁, b, k₂, xs, ys, rfl, hT, hfree, hspan, hbefore, hk,
        firstFit_of_wellFormed hnd hT' hwf'⟩
  obtain ⟨p, s', hrun, k₁, b, k₂, xs, ys, hl, hbs, hfree, hspan, hbefore, hk, hafter⟩ := hcall
  exact ⟨k₁, b, k₂, xs, ys, p, s', hl, hbs, hfree, hspan, hbefore, hrun, hk, hafter⟩

/-- A byte from the upper block of a pair. -/
theorem heapmgr1_malloc_first_fit_pair : ∃ k₁ b k₂ xs ys p s', [17] = k₁ ++ b.addr :: k₂ ∧
    [⟨1, 16, true⟩, ⟨17, 16, false⟩] = xs ++ b :: ys ∧ b.used = false ∧ blockUnits 1 ≤ b.span ∧
    (∀ c ∈ ([⟨1, 16, true⟩, ⟨17, 16, false⟩] : List Block), c.addr ∈ k₁ → c.span < blockUnits 1) ∧
    heapmgrMalloc ⟨true, 2 ^ 31⟩ 1 (pair 16) = .ok p s' ∧ Keeps (pair 16) s' ∧
    FirstFit (blockUnits 1) xs b ys k₁ k₂ p s' :=
  heapmgr1_malloc_first_fit (pair_listOrder (by decide)) (pair_placed (by decide))
    (pair_typed (by decide)) rfl (show 2 * 16 + 1 < 1 + 2 ^ 31 by decide) (by decide) (by decide)
    ⟨⟨17, 16, false⟩, by simp, rfl, by decide⟩

/-! ### Releasing -/

/-- The list of the specification of `heapmgr_free`, without the released block's own detour. -/
theorem listAfterRelease_eq (hy : ∀ y ∈ ys.head?, y.addr ≠ p) :
    listAfterRelease xs p ys l = freedList xs p ys l := by
  have hnext : listAfterNext ys (p :: l) = p :: listAfterNext ys l := by
    cases ys with
    | nil => rfl
    | cons y zs =>
      have hne : y.addr ≠ p := hy y rfl
      simp only [listAfterNext]
      split
      · rfl
      · rw [List.erase_cons_tail]
        simpa using Ne.symm hne
  unfold listAfterRelease freedList listAfterPrev
  rw [hnext]
  cases xs.getLast? with
  | none => rfl
  | some x =>
    show (if x.used = true then p :: listAfterNext ys l else (p :: listAfterNext ys l).erase p) = _
    rw [List.erase_cons_head]

theorem ListOrder.release_list (h : ListOrder s (xs ++ c :: ys) l) :
    listAfterRelease xs c.addr ys l = freedList xs c.addr ys l := by
  refine listAfterRelease_eq fun y hy => ?_
  have hym : y ∈ ys := List.mem_of_mem_head? hy
  have hapart := h.tiles.around_apart (Or.inr hym)
  have hpos := (h.tiles.bounds (b := c) (by simp)).2.2
  omega

/-- **`heapmgr_free`** of a live block, where the merged block fits an `int`. -/
theorem free_listOrder (h : ListOrder s (xs ++ c :: ys) l) (hp : Placed s) (ht : Typed s.mem)
    (hfuel : Fuelled cfg s) (hused : c.used = true)
    (hlinks : cfg.asserts = true → (s.mem c.addr).next = null ∧ prevLink s.mem c.addr = null)
    (hsmall : unionSpan xs c ys < 2 ^ 31) :
    ∃ s', heapmgrFree cfg (c.addr + 1) s = .ok () s' ∧ Keeps s s' ∧
      ListOrder s' (release xs c ys) (freedList xs c.addr ys l) := by
  have hwf := h.wellFormed hp ht
  have hcall : wp (heapmgrFree cfg (c.addr + 1)) (fun _ s' => Keeps s s' ∧
      ListOrder s' (release xs c ys) (freedList xs c.addr ys l)) s := by
    refine wp_heapmgrFree hwf.work hwf.coalesced (hfuel.blocks_lt hwf.work.rep) rfl hused
      (fun v hv => absurd hv (Set.notMem_empty v)) (by rwa [released_span]) hlinks
      fun s' T' hk hT' hc' hwork' _ => ⟨hk, ?_⟩
    have hafter : WellFormed ∅ s.mem s' T' _ := ⟨hwork', hc'⟩
    have hin := hafter.listOrder
    rwa [hT', h.release_list] at hin
  obtain ⟨_, s', hrun, hk, hin⟩ := hcall
  exact ⟨s', hrun, hk, hin⟩

/-- The merged block fits an `int` wherever a release leaves the layout that it should. -/
theorem unionSpan_lt_of_free (ht : Typed s.mem)
    (hcall : heapmgrFree cfg (c.addr + 1) s = .ok () s') (hbs : LaidOut s' (release xs c ys)) :
    unionSpan xs c ys < 2 ^ 31 := by
  have hsteady : Steady s s' := Frames.frames s () s' hcall
  rw [← released_span]
  exact hbs.small (hsteady.typed ht) _ released_mem

/-- **Release.**  `heapmgr_free` of a live block leaves a heap in order in which the block and its free
neighbours have become one free block, and in which the list is the old one without the upper
neighbour, with the merged block at the lower neighbour's place or at the head, exactly when the units
of the merged block fit an `int`. -/
theorem heapmgr1_free_in_order (h : ListOrder s (xs ++ c :: ys) l) (hp : Placed s)
    (ht : Typed s.mem) (hfuel : Fuelled cfg s) (hused : c.used = true)
    (hlinks : cfg.asserts = true → (s.mem c.addr).next = null ∧ prevLink s.mem c.addr = null) :
    (∃ s', heapmgrFree cfg (c.addr + 1) s = .ok () s' ∧ Keeps s s' ∧
      ListOrder s' (release xs c ys) (freedList xs c.addr ys l)) ↔ unionSpan xs c ys < 2 ^ 31 := by
  constructor
  · intro hafter
    obtain ⟨s', hcall, -, hin⟩ := hafter
    exact unionSpan_lt_of_free ht hcall hin.toLaidOut
  · exact fun hsmall => free_listOrder h hp ht hfuel hused hlinks hsmall

/-- The lower block of a small pair is released. -/
theorem heapmgr1_free_in_order_pair :
    (∃ s', heapmgrFree ⟨true, 2 ^ 31⟩ 2 (pair 16) = .ok () s' ∧ Keeps (pair 16) s' ∧
      ListOrder s' (release [] ⟨1, 16, true⟩ [⟨17, 16, false⟩])
        (freedList [] 1 [⟨17, 16, false⟩] [17])) ↔
      unionSpan [] ⟨1, 16, true⟩ [⟨17, 16, false⟩] < 2 ^ 31 :=
  @heapmgr1_free_in_order ⟨true, 2 ^ 31⟩ (pair 16) [] [⟨17, 16, false⟩] [17] ⟨1, 16, true⟩
    (pair_listOrder (by decide)) (pair_placed (by decide)) (pair_typed (by decide))
    (show 2 * 16 + 1 < 1 + 2 ^ 31 by decide) rfl fun _ => ⟨rfl, rfl⟩

/-- **A merged block of `2 ^ 31` units.**  The lower block of a large pair is released: no call that
returns leaves the layout that it should, in either build. -/
theorem heapmgr1_free_in_order_fails :
    ListOrder (pair (2 ^ 30)) [⟨1, 2 ^ 30, true⟩, ⟨2 ^ 30 + 1, 2 ^ 30, false⟩] [2 ^ 30 + 1] ∧
      Placed (pair (2 ^ 30)) ∧ Typed (pair (2 ^ 30)).mem ∧
      ¬ ∃ cfg s', heapmgrFree cfg 2 (pair (2 ^ 30)) = .ok () s' ∧
        ListOrder s' (release [] ⟨1, 2 ^ 30, true⟩ [⟨2 ^ 30 + 1, 2 ^ 30, false⟩])
          (freedList [] 1 [⟨2 ^ 30 + 1, 2 ^ 30, false⟩] [2 ^ 30 + 1]) := by
  refine ⟨pair_listOrder (by decide), pair_placed (by decide), pair_typed (by decide), ?_⟩
  intro hafter
  obtain ⟨cfg, s', hcall, hin⟩ := hafter
  have hlt := @unionSpan_lt_of_free cfg _ s' [] [⟨2 ^ 30 + 1, 2 ^ 30, false⟩] ⟨1, 2 ^ 30, true⟩
    (pair_typed (by decide)) hcall hin.toLaidOut
  exact absurd hlt (by decide)

end Heapmgr1

end SystemProgramming.HeapMgr
