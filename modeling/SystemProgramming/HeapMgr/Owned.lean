import SystemProgramming.HeapMgr.Client

/-!
# Live allocations as used blocks

Where a block is one header with its payload behind it, the live allocations of a client are the used blocks of the
heap (`Owned`).  What an allocation, a release and a write do to this is the same for every manager with such blocks:
it rests on the blocks tiling the heap, and on the calls leaving the live payloads alone.

* `Owned.allocated`, `Owned.freed`, `Owned.write`: what the calls do to it.
* `Owned.disjoint`: no unit belongs to two live payloads.
-/

namespace SystemProgramming.HeapMgr

/-- The block behind an allocation: one header, and the payload. -/
def blockOf (a : Alloc) : Block := ⟨a.ptr - 1, payloadUnits a.size + 1, true⟩

/-- The used blocks are exactly the live allocations, and every payload reads back what was written to it. -/
structure Owned {F : Type} (st : Session F) (bs : List Block) : Prop where
  live : (st.live.map blockOf).Perm (usedBlocks bs)
  ptr_ne_null : ∀ a ∈ st.live, a.ptr ≠ null
  reads : ∀ a ∈ st.live, ∀ u, a.Covers u → ∀ v, st.written u = some v → st.heap.mem u = v

variable {F : Type} {st : Session F} {heap : Heap F} {bs bs' xs ys us vs : List Block} {a a' : Alloc} {b : Block}
  {lo hi u size : ℕ}

theorem blockOf_addr (h : a.ptr ≠ null) : (blockOf a).addr + 1 = a.ptr := by
  unfold null at h
  show a.ptr - 1 + 1 = a.ptr
  omega

theorem blockOf_covers (h : a.ptr ≠ null) (hu : a.Covers u) :
    (blockOf a).addr < u ∧ u < (blockOf a).addr + (blockOf a).span := by
  have haddr := blockOf_addr h
  obtain ⟨h₁, h₂⟩ := hu
  have hspan : (blockOf a).span = payloadUnits a.size + 1 := rfl
  omega

namespace Owned

theorem block_mem (h : Owned st bs) (ha : a ∈ st.live) : blockOf a ∈ bs :=
  (mem_usedBlocks.mp (h.live.mem_iff.mp (List.mem_map_of_mem ha))).1

/-- Nothing is live. -/
theorem of_no_live (hlive : st.live = []) (hused : usedBlocks bs = []) : Owned st bs := by
  refine ⟨?_, ?_, ?_⟩
  · rw [hlive, hused]
    exact List.Perm.nil
  · rw [hlive]
    exact nofun
  · rw [hlive]
    exact nofun

theorem no_used (h : Owned st bs) (hlive : st.live = []) : usedBlocks bs = [] := by
  have hperm := h.live
  rw [hlive] at hperm
  exact hperm.symm.eq_nil

theorem payloads_inside (h : Owned st bs) (hu : u ∈ payloads st.live) :
    ∃ b ∈ bs, b.used = true ∧ b.addr < u ∧ u < b.addr + b.span := by
  obtain ⟨a, ha, hau⟩ := hu
  exact ⟨blockOf a, h.block_mem ha, rfl, blockOf_covers (h.ptr_ne_null a ha) hau⟩

/-! ### In a tiling -/

section Tiled

variable (ht : Tiles Block.addr Block.span lo hi bs)
include ht

theorem nodup_blocks (h : Owned st bs) : (st.live.map blockOf).Nodup := by
  have hbs : bs.Nodup := ht.nodup_starts.of_map _
  exact h.live.nodup_iff.mpr (hbs.sublist List.filter_sublist)

/-- **Disjoint payloads.**  No unit belongs to two live payloads. -/
theorem disjoint (h : Owned st bs) (ha : a ∈ st.live) (ha' : a' ∈ st.live) (hu : a.Covers u) (hu' : a'.Covers u) :
    a = a' := by
  have h₁ := blockOf_covers (h.ptr_ne_null a ha) hu
  have h₂ := blockOf_covers (h.ptr_ne_null a' ha') hu'
  have heq : blockOf a = blockOf a' := ht.eq_of_mem (h.block_mem ha) (h.block_mem ha') (u := u) (by omega) (by omega)
  exact List.inj_on_of_nodup_map (h.nodup_blocks ht) ha ha' heq

/-- The payloads of the other allocations lie outside the block of `a`. -/
theorem apart (h : Owned st bs) (ha : a ∈ st.live) :
    ∀ u ∈ payloads (st.live.erase a), u < (blockOf a).addr ∨ (blockOf a).addr + (blockOf a).span ≤ u := by
  intro u ⟨a', ha', hu⟩
  have hmem : a' ∈ st.live := List.mem_of_mem_erase ha'
  have hin := blockOf_covers (h.ptr_ne_null a' hmem) hu
  have hnodup := h.nodup_blocks ht
  by_contra hnot
  have heq : blockOf a' = blockOf a :=
    ht.eq_of_mem (h.block_mem hmem) (h.block_mem ha) (u := u) (by omega) (by omega)
  rw [List.inj_on_of_nodup_map hnodup hmem ha heq] at ha'
  exact hnodup.of_map.not_mem_erase ha'

end Tiled

/-! ### One call -/

/-- A call that changes no block and keeps the payloads. -/
theorem unchanged (h : Owned st bs) (hkept : ∀ u ∈ payloads st.live, heap.mem u = st.heap.mem u) :
    Owned { st with heap := heap } bs where
  live := h.live
  ptr_ne_null := h.ptr_ne_null
  reads a ha u hu v hv := (hkept u ⟨a, ha, hu⟩).trans (h.reads a ha u hu v hv)

/-- A new used block is the block of a new allocation. -/
theorem allocated (h : Owned st bs) (hkept : ∀ u ∈ payloads st.live, heap.mem u = st.heap.mem u)
    (hused : b.used = true) (hspan : b.span = payloadUnits size + 1) (hbefore : usedBlocks bs = us ++ vs)
    (hafter : usedBlocks bs' = us ++ b :: vs) : Owned (st.afterMalloc size (b.addr + 1) heap) bs' := by
  have hnull : b.addr + 1 ≠ null := Nat.succ_ne_zero _
  rw [Session.afterMalloc, if_neg hnull]
  refine ⟨?_, List.forall_mem_cons.mpr ⟨hnull, h.ptr_ne_null⟩, fun a ha u hu v hv => ?_⟩
  · have hblock : blockOf ⟨b.addr + 1, size⟩ = b := by
      obtain ⟨addr, span, used⟩ := b
      cases hused
      cases hspan
      rfl
    rw [List.map_cons, hblock, hafter]
    refine (List.Perm.cons b ?_).trans List.perm_middle.symm
    rw [← hbefore]
    exact h.live
  · have hnot : ¬ Alloc.Covers ⟨b.addr + 1, size⟩ u := fun hc => by simp [hc] at hv
    simp only [if_neg hnot] at hv
    rcases List.mem_cons.mp ha with rfl | hold
    · exact absurd hu hnot
    · exact (hkept u ⟨a, hold, hu⟩).trans (h.reads a hold u hu v hv)

/-- The block of an allocation is released. -/
theorem freed (h : Owned st (xs ++ blockOf a :: ys)) (ha : a ∈ st.live)
    (hkept : ∀ u ∈ payloads (st.live.erase a), heap.mem u = st.heap.mem u) :
    Owned { st with heap := heap, live := st.live.erase a } (release xs (blockOf a) ys) := by
  have hsub : ∀ a' ∈ st.live.erase a, a' ∈ st.live := fun a' ha' => List.mem_of_mem_erase ha'
  refine ⟨?_, fun a' ha' => h.ptr_ne_null a' (hsub a' ha'), fun a' ha' u hu v hv => ?_⟩
  · have hlive := h.live
    rw [usedBlocks_append, usedBlocks_cons_used rfl] at hlive
    rw [usedBlocks_release]
    have hcons : (blockOf a :: (st.live.erase a).map blockOf).Perm (st.live.map blockOf) :=
      ((List.perm_cons_erase ha).map blockOf).symm
    exact (hcons.trans (hlive.trans List.perm_middle)).cons_inv
  · exact (hkept u ⟨a', ha', hu⟩).trans (h.reads a' (hsub a' ha') u hu v hv)

/-- A write by the client. -/
theorem write (h : Owned st bs) (u : ℕ) (v : Cell) :
    Owned { st with heap := { st.heap with mem := Function.update st.heap.mem u v }
                    written := Function.update st.written u (some v) } bs := by
  refine ⟨h.live, h.ptr_ne_null, fun a ha w hw c hc => ?_⟩
  by_cases hwu : w = u
  · subst hwu
    have hc' : Function.update st.written w (some v) w = some c := hc
    show Function.update st.heap.mem w v w = c
    rw [Function.update_self] at hc' ⊢
    exact Option.some.inj hc'
  · have hc' : st.written w = some c := (Function.update_of_ne hwu _ _).symm.trans hc
    show Function.update st.heap.mem u v w = c
    rw [Function.update_of_ne hwu]
    exact h.reads a ha w hw c hc'

/-- Two clients with the same live allocations, whose blocks tile the same heap, have the same used blocks. -/
theorem used_unique {st' : Session F} (h : Owned st bs) (h' : Owned st' bs') (hlive : st.live.Perm st'.live)
    (ht : Tiles Block.addr Block.span lo hi bs) (ht' : Tiles Block.addr Block.span lo hi bs') :
    usedBlocks bs = usedBlocks bs' := by
  have hperm : (usedBlocks bs).Perm (usedBlocks bs') := (h.live.symm.trans (hlive.map blockOf)).trans h'.live
  -- both are in the order of their addresses
  have hsorted {cs : List Block} (ht : Tiles Block.addr Block.span lo hi cs) :
      (usedBlocks cs).Pairwise fun a b => a.addr + a.span ≤ b.addr := ht.pairwise.sublist List.filter_sublist
  refine hperm.eq_of_pairwise (fun a b ha _ hab hba => ?_) (hsorted ht) (hsorted ht')
  have hpos := (ht.bounds (mem_usedBlocks.mp ha).1).2.2
  omega

end Owned

end SystemProgramming.HeapMgr
