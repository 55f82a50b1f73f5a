import SystemProgramming.HeapMgr.Client

/-!
# Heaps in order

What the memory of a heap shows, for either manager: the blocks that tile it (`LaidOut`), and free
lists that are doubly linked from their heads and hold exactly the free blocks (`InOrder`).  A heap
that represents a table with listed free blocks is in order, and a heap in order represents the table
read off its memory.

* `inOrder_of_listed`, `InOrder.listed`: the two ways between a heap in order and its table.
* `LaidOut.unique`: the memory determines the blocks.
* `holes_reach`: a session of either manager that leaves two holes.
-/

namespace SystemProgramming.HeapMgr

open Exec

variable {F : Type} {s : Heap F} {bs bs' : List Block} {keep : Set ℕ} {m₀ : Mem} {T : Table}

/-- The physical layout of a heap: the blocks `bs` tile it and carry matching tags. -/
structure LaidOut (s : Heap F) (bs : List Block) : Prop where
  tiles : Tiles Block.addr Block.span s.sHeapLo s.sHeapHi bs
  two_le : ∀ b ∈ bs, 2 ≤ b.span
  status : ∀ b ∈ bs, (s.mem b.addr).status = statusOf b.used
  span : ∀ b ∈ bs, (s.mem b.addr).span = b.span
  footSpan : ∀ b ∈ bs, (s.mem b.foot).footSpan = b.span

/-- A heap in order: no two neighbours are free, and the lists `bl` are doubly linked from `heads` and
hold each free block once, in the list of its class, and nothing else. -/
structure InOrder {ι : Type} (heads : ι → ℕ) (cls : ℕ → ι) (s : Heap F) (bs : List Block)
    (bl : ι → List ℕ) : Prop extends LaidOut s bs where
  coalesced : Coalesced bs
  head : ∀ i, heads i = (bl i).headD null
  links : ∀ i, Links (fun p => (s.mem p).next) (prevLink s.mem) null (bl i) null
  nodup : ∀ i, (bl i).Nodup
  mem : ∀ i a, a ∈ bl i ↔ ∃ b ∈ bs, b.addr = a ∧ b.used = false ∧ cls b.span = i

/-- The heap begins above `NULL` and ends below the top of the address space. -/
structure Placed (s : Heap F) : Prop where
  lo_pos : 0 < s.sHeapLo
  hi_lt : s.sHeapHi < 2 ^ 60

theorem statusOf_inj {u v : Bool} (h : statusOf u = statusOf v) : u = v := by
  revert u v
  decide

/-- The memory shows one layout only. -/
theorem tiles_unique {m : Mem} {lo hi : ℕ} (h : Tiles Block.addr Block.span lo hi bs)
    (h' : Tiles Block.addr Block.span lo hi bs')
    (hstatus : ∀ b ∈ bs, (m b.addr).status = statusOf b.used)
    (hspan : ∀ b ∈ bs, (m b.addr).span = b.span)
    (hstatus' : ∀ b ∈ bs', (m b.addr).status = statusOf b.used)
    (hspan' : ∀ b ∈ bs', (m b.addr).span = b.span) : bs = bs' := by
  induction bs generalizing bs' lo with
  | nil =>
    have hends : lo = hi := h
    subst hends
    exact h'.eq_nil.symm
  | cons b bs ih =>
    cases bs' with
    | nil =>
      have hb := h.bounds (b := b) (by simp)
      have hends : lo = hi := h'
      omega
    | cons b' bs' =>
      have haddr : b.addr = b'.addr := h.1.trans h'.1.symm
      have hused : b.used = b'.used := by
        apply statusOf_inj
        rw [← hstatus b (by simp), ← hstatus' b' (by simp), haddr]
      have hlen : b.span = b'.span := by
        have h₁ := hspan b (by simp)
        have h₂ := hspan' b' (by simp)
        rw [haddr, h₂] at h₁
        exact_mod_cast h₁.symm
      have heq : b = b' := by
        cases b
        cases b'
        simp_all
      subst heq
      rw [ih h.2.2 h'.2.2 (fun c hc => hstatus c (by simp [hc])) (fun c hc => hspan c (by simp [hc]))
        (fun c hc => hstatus' c (by simp [hc])) fun c hc => hspan' c (by simp [hc])]

instance (s : Heap F) (bs : List Block) : Decidable (LaidOut s bs) :=
  decidable_of_iff (Tiles Block.addr Block.span s.sHeapLo s.sHeapHi bs ∧ (∀ b ∈ bs, 2 ≤ b.span) ∧
      (∀ b ∈ bs, (s.mem b.addr).status = statusOf b.used) ∧ (∀ b ∈ bs, (s.mem b.addr).span = b.span) ∧
      ∀ b ∈ bs, (s.mem b.foot).footSpan = b.span)
    ⟨fun ⟨h₁, h₂, h₃, h₄, h₅⟩ => ⟨h₁, h₂, h₃, h₄, h₅⟩, fun h => ⟨h.tiles, h.two_le, h.status, h.span, h.footSpan⟩⟩

theorem LaidOut.unique (h : LaidOut s bs) (h' : LaidOut s bs') : bs = bs' :=
  tiles_unique h.tiles h'.tiles h.status h.span h'.status h'.span

/-! ### Calls that stay within an `int` -/

/-- If the request grows the heap, what the heap grows by and what becomes of it fit an `int`. -/
def GrowsWithin (s : Heap F) (size : ℕ) : Prop :=
  ∀ bs, LaidOut s bs → NoneFits bs (bytesToPayloadUnits size + 2) →
    GrowthFits s bs (bytesToPayloadUnits size)

/-- The block that a release of `p` leaves fits an `int`. -/
def Releasable (s : Heap F) (p : ℕ) : Prop :=
  ∀ xs b ys, LaidOut s (xs ++ b :: ys) → b.addr + 1 = p → (released xs b ys).span < 2 ^ 31

/-! ### From tables to heaps in order -/

theorem laidOut_of_rep (h : Rep keep m₀ s.mem s.sHeapLo s.sHeapHi T) : LaidOut s T.blocks where
  tiles := h.tiles
  two_le := h.two_le
  status b hb := by rw [h.header b hb]
  span b hb := by rw [h.header b hb]
  footSpan := h.footSpan

section Lists

variable {ι : Type} {heads : ι → ℕ} {cls : ℕ → ι} {bl : ι → List ℕ}

theorem inOrder_of_listed (h : Rep keep m₀ s.mem s.sHeapLo s.sHeapHi T)
    (hl : Listed heads cls T ∅ bl) (hc : Coalesced T.blocks) : InOrder heads cls s T.blocks bl where
  toLaidOut := laidOut_of_rep h
  coalesced := hc
  head := hl.head
  links i := by
    refine (hl.links i).congr (fun a ha => ?_) (fun a ha => ?_)
    · obtain ⟨b, hb, rfl, -⟩ := hl.block ha
      rw [h.header b hb]
    · obtain ⟨b, hb, rfl, -⟩ := hl.block ha
      unfold prevLink
      rw [h.header b hb]
      exact h.footPrev b hb
  nodup := hl.nodup
  mem i a := by
    rw [hl.mem]
    exact ⟨And.right, fun hb => ⟨Set.notMem_empty a, hb⟩⟩

/-- A heap that has never grown. -/
theorem inOrder_nil (hends : s.sHeapLo = s.sHeapHi) (hheads : ∀ i, heads i = null) :
    InOrder heads cls s [] fun _ => [] where
  tiles := hends
  two_le b hb := absurd hb List.not_mem_nil
  status b hb := absurd hb List.not_mem_nil
  span b hb := absurd hb List.not_mem_nil
  footSpan b hb := absurd hb List.not_mem_nil
  coalesced := List.isChain_nil
  head := hheads
  links i := trivial
  nodup i := List.nodup_nil
  mem i a := by simp

/-! ### From heaps in order to tables -/

/-- The table that the memory shows. -/
def tableOf (m : Mem) (bs : List Block) : Table := ⟨bs, fun p => (m p).next, prevLink m⟩

/-- The backward link of a block whose header holds its span. -/
theorem prevLink_eq {m : Mem} {b : Block} (h : (m b.addr).span = b.span) :
    prevLink m b.addr = (m b.foot).prev := by
  unfold prevLink Block.foot
  rw [h, Int.toNat_natCast]

theorem LaidOut.rep (h : LaidOut s bs) (hp : Placed s) (hsmall : ∀ b ∈ bs, b.span < 2 ^ 31) :
    Rep ∅ s.mem s.mem s.sHeapLo s.sHeapHi (tableOf s.mem bs) where
  lo_pos := hp.lo_pos
  hi_lt := hp.hi_lt
  tiles := h.tiles
  two_le := h.two_le
  small := hsmall
  header b hb := by
    rw [← h.status b hb, ← h.span b hb]
    rfl
  footSpan := h.footSpan
  footPrev b hb := (prevLink_eq (h.span b hb)).symm
  kept _ _ := rfl
  keep_used u hu := absurd hu (Set.notMem_empty u)

theorem InOrder.listed (h : InOrder heads cls s bs bl) :
    Listed heads cls (tableOf s.mem bs) ∅ bl where
  head := h.head
  links := h.links
  nodup := h.nodup
  mem i a := by
    rw [h.mem]
    exact ⟨fun hb => ⟨Set.notMem_empty a, hb⟩, And.right⟩

end Lists

/-! ### A client that leaves two holes -/

section Holes

/-- What the client writes. -/
def mark : Cell := ⟨7, 8, 9⟩

/-- The blocks while one byte is allocated. -/
def oneByte : List Block := [⟨1, 1023, false⟩, ⟨1024, 3, true⟩]

/-- The blocks when 32 bytes are allocated between what is free. -/
def twoHoles : List Block := [⟨1, 1019, false⟩, ⟨1020, 4, true⟩, ⟨1024, 3, false⟩]

/-- A byte is allocated and, below it, 32 bytes, which are written to; then the byte is freed.  Returned are the
pointers, and whether the heap looks as said after the first call and at the end. -/
def holes (mgr : Manager F) : Exec (Heap F) (ℕ × ℕ × Bool × Bool) := do
  let p ← mgr.malloc 1
  let s ← reads id
  let q ← mgr.malloc 32
  modify fun s => { s with mem := Function.update s.mem q mark }
  mgr.free p
  let s' ← reads id
  return (p, q, decide (LaidOut s oneByte), decide (LaidOut s' twoHoles))

/-- The steps of that client. -/
theorem holes_steps {mgr : Manager F}
    (hvalue : (holes mgr (firstSession mgr).heap).value = some (1025, 1021, true, true)) :
    ∃ st₁ st₂ st₃ st₄ : Session F, Session.Step (3 * 10 ^ 8) mgr (firstSession mgr) (.malloc 1) st₁ ∧
      LaidOut st₁.heap oneByte ∧ Session.Step (3 * 10 ^ 8) mgr st₁ (.malloc 32) st₂ ∧
      Session.Step (3 * 10 ^ 8) mgr st₂ (.write 1021 mark) st₃ ∧ st₃.live = [⟨1021, 32⟩, ⟨1025, 1⟩] ∧
      st₃.written 1021 = some mark ∧ Session.Step (3 * 10 ^ 8) mgr st₃ (.free ⟨1025, 1⟩) st₄ ∧
      st₄.live = [⟨1021, 32⟩] ∧ st₄.written = st₃.written ∧ LaidOut st₄.heap twoHoles := by
  obtain ⟨p, h₁, hp, hrest⟩ := exists_of_bind_value hvalue
  obtain ⟨s, _, hs, hrest⟩ := exists_of_bind_value hrest
  cases hs
  obtain ⟨q, h₂, hq, hrest⟩ := exists_of_bind_value hrest
  obtain ⟨⟨⟩, h₃, hwrite, hrest⟩ := exists_of_bind_value hrest
  cases hwrite
  obtain ⟨⟨⟩, h₄, hfree, hrest⟩ := exists_of_bind_value hrest
  obtain ⟨s', _, hs', hrest⟩ := exists_of_bind_value hrest
  cases hs'
  have hresult : (p, q, decide (LaidOut h₁ oneByte), decide (LaidOut h₄ twoHoles)) = (1025, 1021, true, true) :=
    Option.some.inj hrest
  simp only [Prod.mk.injEq, decide_eq_true_eq] at hresult
  obtain ⟨rfl, rfl, hone, htwo⟩ := hresult
  let st₁ : Session F := ⟨h₁, [⟨1025, 1⟩], fun u => if Alloc.Covers ⟨1025, 1⟩ u then none else none⟩
  let st₂ : Session F :=
    ⟨h₂, [⟨1021, 32⟩, ⟨1025, 1⟩], fun u => if Alloc.Covers ⟨1021, 32⟩ u then none else st₁.written u⟩
  let st₃ : Session F :=
    { st₂ with heap := { h₂ with mem := Function.update h₂.mem 1021 mark }
               written := Function.update st₂.written 1021 (some mark) }
  let st₄ : Session F := ⟨h₄, [⟨1021, 32⟩], st₃.written⟩
  have hstep₁ : Session.Step (3 * 10 ^ 8) mgr (firstSession mgr) (.malloc 1) st₁ :=
    .granted (by decide) (by decide) (by decide) hp
  have hstep₂ : Session.Step (3 * 10 ^ 8) mgr st₁ (.malloc 32) st₂ :=
    .granted (by decide) (by decide) (by decide) hq
  have hstep₃ : Session.Step (3 * 10 ^ 8) mgr st₂ (.write 1021 mark) st₃ :=
    .write (a := ⟨1021, 32⟩) List.mem_cons_self (by decide)
  have hstep₄ : Session.Step (3 * 10 ^ 8) mgr st₃ (.free ⟨1025, 1⟩) st₄ :=
    .free (List.mem_cons_of_mem _ List.mem_cons_self) hfree
  have hwritten : st₃.written 1021 = some mark := by
    show Function.update st₂.written 1021 (some mark) 1021 = some mark
    rw [Function.update_self]
  exact ⟨st₁, st₂, st₃, st₄, hstep₁, hone, hstep₂, hstep₃, rfl, hwritten, hstep₄, rfl, rfl, htwo⟩

/-- What that client has come to. -/
theorem holes_reach {mgr : Manager F}
    (hvalue : (holes mgr (firstSession mgr).heap).value = some (1025, 1021, true, true)) :
    ∃ st : Session F, Reach (clientSys mgr) [.malloc 1, .malloc 32, .write 1021 mark, .free ⟨1025, 1⟩] st ∧
      st.live = [⟨1021, 32⟩] ∧ LaidOut st.heap twoHoles := by
  obtain ⟨st₁, st₂, st₃, st₄, h₁, -, h₂, h₃, -, -, h₄, hlive, -, hlaid⟩ := holes_steps hvalue
  have hrun₁ := Reach.step (S := clientSys mgr) (Reach.init (firstSession_fresh mgr)) h₁
  have hrun₂ := Reach.step (S := clientSys mgr) hrun₁ h₂
  have hrun₃ := Reach.step (S := clientSys mgr) hrun₂ h₃
  exact ⟨st₄, Reach.step (S := clientSys mgr) hrun₃ h₄, hlive, hlaid⟩

end Holes

end SystemProgramming.HeapMgr
