import SystemProgramming.HeapMgr.Heapmgr1InOrder
import SystemProgramming.HeapMgr.Heapmgr2Frame
import SystemProgramming.HeapMgr.Heapmgr2Malloc

/-!
# What the two heap managers agree on

`heapmgr1.c` keeps one list and merges a released block while it is linked; `heapmgr2.c` keeps ten bins,
skips the ones that are too small, and merges blocks that are in none.  Whether a request has to ask
the kernel for memory, and what a release makes of the layout, depends on the layout alone
(`ByLayout`), and in the same way for both; so on heaps with the same layout they agree.

* `managers_agree`: when the two managers agree on a request and on a release.
* `managers_agree_fails`: two heaps with one layout, on which a release differs.
-/

namespace SystemProgramming.HeapMgr

open Exec CInt

variable {F : Type} {s s' : Heap F} {bs xs ys : List Block} {c : Block} {n size p : ℕ}

/-- The representation invariant of a booted heap: its blocks and lists are in order, it lies where a
heap may lie, and used blocks have no links. -/
structure RepInv {ι : Type} (heads : ι → ℕ) (cls : ℕ → ι) (s : Heap F) (bs : List Block)
    (bl : ι → List ℕ) : Prop extends InOrder heads cls s bs bl where
  placed : Placed s
  typed : Typed s.mem
  booted : s.sHeapBooted = true
  idle : ∀ b ∈ bs, b.used = true → (s.mem b.addr).next = null ∧ prevLink s.mem b.addr = null

/-- The heap on a kernel that grants nothing. -/
def onRefusing (s : Heap F) : Heap F := { s with os := { s.os with answer := fun _ => false } }

/-- A request has to call `sbrk` for more memory: when nothing is granted, it returns having asked. -/
def HasToAsk (malloc : ℕ → Exec (Heap F) ℕ) (s : Heap F) (size : ℕ) : Prop :=
  ∃ p s', malloc size (onRefusing s) = .ok p s' ∧ s'.os.calls = s.os.calls + 1

/-- A request that returns has called `sbrk` for more memory once if it has to, and else never, whatever
the kernel answers. -/
def AsksAsNeeded (malloc : ℕ → Exec (Heap F) ℕ) (s : Heap F) (size : ℕ) : Prop :=
  ∀ p s', malloc size s = .ok p s' →
    (HasToAsk malloc s size → s'.os.calls = s.os.calls + 1) ∧
    (¬ HasToAsk malloc s size → s'.os.calls = s.os.calls)

/-- What `malloc` and `free` do to a heap with the blocks `bs`, as far as the layout tells. -/
structure ByLayout (malloc : ℕ → Exec (Heap F) ℕ) (free : ℕ → Exec (Heap F) Unit) (s : Heap F)
    (bs : List Block) : Prop where
  asks : ∀ size, 1 ≤ size → size ≤ 3 * 10 ^ 8 →
    (HasToAsk malloc s size ↔ NoneFits bs (blockUnits size))
  needed : ∀ size, 1 ≤ size → size ≤ 3 * 10 ^ 8 → AsksAsNeeded malloc s size
  releases : ∀ xs c ys, bs = xs ++ c :: ys → c.used = true → unionSpan xs c ys < 2 ^ 31 →
    ∃ s', free (c.addr + 1) s = .ok () s' ∧ LaidOut s' (release xs c ys)

/-! ### How often the kernel is asked -/

/-- A manager that asks only when no block fits, and then once, has to ask exactly then.  `I` is what it
relies on, on every kernel. -/
theorem asks_of {malloc : ℕ → Exec (Heap F) ℕ} {I : Heap F → Prop} (hs : I s) (hs' : I (onRefusing s))
    (hnone : ∀ t, I t → NoneFits bs n → ∀ p t', malloc size t = .ok p t' →
      t'.os.calls = t.os.calls + 1)
    (hrefused : NoneFits bs n → ∃ p t', malloc size (onRefusing s) = .ok p t')
    (hfits : ∀ t, I t → ¬ NoneFits bs n → wp (malloc size) (fun _ t' => t'.os.calls = t.os.calls) t) :
    (HasToAsk malloc s size ↔ NoneFits bs n) ∧ AsksAsNeeded malloc s size := by
  have hask : HasToAsk malloc s size ↔ NoneFits bs n := by
    constructor
    · intro hask
      by_contra hsome
      obtain ⟨p, t, hrun, hcalls⟩ := hask
      obtain ⟨p', t', hrun', hcalls'⟩ := hfits _ hs' hsome
      rw [hrun] at hrun'
      cases hrun'
      have hsame : t.os.calls = s.os.calls := hcalls'
      omega
    · intro hall
      obtain ⟨p, t, hrun⟩ := hrefused hall
      exact ⟨p, t, hrun, hnone _ hs' hall p t hrun⟩
  refine ⟨hask, fun p t hrun => ⟨fun h => ?_, fun h => ?_⟩⟩
  · exact hnone s hs (hask.mp h) p t hrun
  · obtain ⟨p', t', hrun', hcalls'⟩ := hfits s hs fun hall => h (hask.mpr hall)
    rw [hrun] at hrun'
    cases hrun'
    exact hcalls'

/-! ### `heapmgr1.c` -/

namespace Heapmgr1

variable {cfg : Cfg} {s s' : Heap1} {need : ℕ} {l : List ℕ} {keep : Set ℕ} {m₀ : Mem} {T : Table}

theorem calls_of_noneFits (h : WellFormed keep m₀ s T l) (hboot : s.sHeapBooted = true)
    (hfuel : Fuelled cfg s) (hsize : 0 < size) (hn : bytesToPayloadUnits size = need)
    (hnone : NoneFits T.blocks (need + 2)) (hrun : heapmgrMalloc cfg size s = .ok p s') :
    s'.os.calls = s.os.calls + 1 := by
  rw [heapmgrMalloc_noneFits h hboot hfuel hsize hn hnone] at hrun
  obtain ⟨q, s₁, hgrow, hrest⟩ := exists_of_bind_ok hrun
  have hsteady : Steady s₁ s' := Frames.frames _ _ _ hrest
  rw [hsteady.os]
  exact calls_sysGrowAndLink hgrow

theorem malloc_refused (h : WellFormed keep m₀ s T l) (hboot : s.sHeapBooted = true)
    (hfuel : Fuelled cfg s) (hsize : 0 < size) (hn : bytesToPayloadUnits size = need)
    (hnone : NoneFits T.blocks (need + 2)) (hno : s.os.answer s.os.calls = false) :
    ∃ p s', heapmgrMalloc cfg size s = .ok p s' := by
  have hwork : Work keep m₀ { s with os := { s.os with calls := s.os.calls + 1 } } T ∅ l :=
    ⟨h.work.rep, h.work.lists⟩
  have hvalid : Gives (assertM cfg.asserts (checkHeapValidity cfg))
      { s with os := { s.os with calls := s.os.calls + 1 } } () := gives_assertM fun _ =>
    gives_checkHeapValidity hwork h.coalesced (hfuel.blocks_lt h.work.rep)
  rw [heapmgrMalloc_noneFits h hboot hfuel hsize hn hnone, bind_of_ok (sysGrowAndLink_refused hno),
    if_pos rfl, bind_of_ok hvalid]
  exact ⟨_, _, rfl⟩

theorem byLayout (h : RepInv (fun _ : Unit => s.sFree) (fun _ => ()) s bs fun _ => l)
    (hfuel : Fuelled cfg s) : ByLayout (heapmgrMalloc cfg) (heapmgrFree cfg) s bs := by
  have hin : ListOrder s bs l := h.toInOrder
  have hwf := hin.wellFormed h.placed h.typed
  have hwf' : WellFormed ∅ s.mem (onRefusing s) (tableOf s.mem bs) l :=
    ⟨⟨hwf.work.rep, hwf.work.lists⟩, hwf.coalesced⟩
  have hasks : ∀ size, 1 ≤ size → size ≤ 3 * 10 ^ 8 →
      (HasToAsk (heapmgrMalloc cfg) s size ↔ NoneFits bs (blockUnits size)) ∧
        AsksAsNeeded (heapmgrMalloc cfg) s size := by
    intro size hpos hle
    have hn : bytesToPayloadUnits size = payloadUnits size := bytesToPayloadUnits_eq (by omega)
    refine asks_of (I := fun t => WellFormed ∅ s.mem t (tableOf s.mem bs) l ∧ t.sHeapBooted = true ∧
      Fuelled cfg t) ⟨hwf, h.booted, hfuel⟩ ⟨hwf', h.booted, hfuel⟩ (fun t ht hnone p t' hrun => ?_)
      (fun hnone => ?_) fun t ht hsome => ?_
    · obtain ⟨hw, hboot, hf⟩ := ht
      exact calls_of_noneFits hw hboot hf hpos hn hnone hrun
    · exact malloc_refused hwf' h.booted hfuel hpos hn hnone rfl
    · obtain ⟨hw, hboot, hf⟩ := ht
      refine wp_heapmgrMalloc_fits hw hboot hf hpos hn hsome ?_
      intro k₁ b k₂ xs ys _ _ _ _ _ t' T' hk _ _ _
      rw [hk.os]
  refine
    { asks := fun size hpos hle => (hasks size hpos hle).1
      needed := fun size hpos hle => (hasks size hpos hle).2
      releases := fun xs c ys hbs hused hsmall => ?_ }
  subst hbs
  obtain ⟨s', hrun, -, hin'⟩ :=
    free_listOrder hin h.placed h.typed hfuel hused (fun _ => h.idle c (by simp) hused) hsmall
  exact ⟨s', hrun, hin'.toLaidOut⟩

end Heapmgr1

/-! ### `heapmgr2.c` -/

namespace Heapmgr2

variable {cfg : Cfg} {s s' : Heap2} {need : ℕ} {bl : Fin numBins → List ℕ} {keep : Set ℕ} {m₀ : Mem}
  {T : Table}

theorem calls_of_noneFits (h : WellFormed keep m₀ s T bl) (hboot : s.sHeapBooted = true)
    (hfuel : Fuelled cfg s) (hsize : 0 < size) (hn : bytesToPayloadUnits size = need)
    (hnone : NoneFits T.blocks (need + 2)) (hrun : heapmgrMalloc cfg size s = .ok p s') :
    s'.os.calls = s.os.calls + 1 := by
  rw [heapmgrMalloc_noneFits h hboot hfuel hsize hn hnone] at hrun
  obtain ⟨q, s₁, hgrow, hrest⟩ := exists_of_bind_ok hrun
  have hsteady : Steady s₁ s' := by
    by_cases hq : q = null
    · rw [if_pos hq] at hrest
      exact Frames.frames _ _ _ hrest
    · rw [if_neg hq] at hrest
      obtain ⟨found, s₂, hsearch, hlast⟩ := exists_of_bind_ok hrest
      have hsearched : Steady s₁ s₂ := Frames.frames _ _ _ hsearch
      refine IsTrans.trans _ _ _ hsearched ?_
      cases found with
      | some p' => exact (Frames.frames _ _ _ hlast : Steady s₂ s')
      | none => exact (Frames.frames _ _ _ hlast : Steady s₂ s')
  rw [hsteady.os]
  exact calls_sysGrowAndLink hgrow

theorem malloc_refused (h : WellFormed keep m₀ s T bl) (hboot : s.sHeapBooted = true)
    (hfuel : Fuelled cfg s) (hsize : 0 < size) (hn : bytesToPayloadUnits size = need)
    (hnone : NoneFits T.blocks (need + 2)) (hno : s.os.answer s.os.calls = false) :
    ∃ p s', heapmgrMalloc cfg size s = .ok p s' := by
  have hwf : WellFormed keep m₀ { s with os := { s.os with calls := s.os.calls + 1 } } T bl :=
    ⟨⟨h.work.rep, h.work.lists⟩, h.coalesced⟩
  have hvalid : Gives (assertM cfg.asserts (checkHeapValidity cfg))
      { s with os := { s.os with calls := s.os.calls + 1 } } () :=
    gives_assertM fun _ => gives_checkHeapValidity hwf hfuel
  rw [heapmgrMalloc_noneFits h hboot hfuel hsize hn hnone, bind_of_ok (sysGrowAndLink_refused hno),
    if_pos rfl, bind_of_ok hvalid]
  exact ⟨_, _, rfl⟩

theorem wellFormed_of_repInv (h : RepInv s.sFree binOf s bs bl) :
    WellFormed ∅ s.mem s (tableOf s.mem bs) bl where
  work :=
    { rep := h.rep h.placed (h.small h.typed)
      lists :=
        { h.listed with
          idle := fun b hb hout => by
            refine h.idle b hb (Bool.eq_true_of_not_eq_false fun hfree => ?_)
            exact hout (binOf b.span) ((h.mem _ _).mpr ⟨b, hb, rfl, hfree, rfl⟩) } }
  coalesced := h.coalesced

theorem byLayout (h : RepInv s.sFree binOf s bs bl) (hfuel : Fuelled cfg s) :
    ByLayout (heapmgrMalloc cfg) (heapmgrFree cfg) s bs := by
  have hwf := wellFormed_of_repInv h
  have hwf' : WellFormed ∅ s.mem (onRefusing s) (tableOf s.mem bs) bl :=
    ⟨⟨hwf.work.rep, hwf.work.lists⟩, hwf.coalesced⟩
  have hasks : ∀ size, 1 ≤ size → size ≤ 3 * 10 ^ 8 →
      (HasToAsk (heapmgrMalloc cfg) s size ↔ NoneFits bs (blockUnits size)) ∧
        AsksAsNeeded (heapmgrMalloc cfg) s size := by
    intro size hpos hle
    have hn : bytesToPayloadUnits size = payloadUnits size := bytesToPayloadUnits_eq (by omega)
    refine asks_of (I := fun t => WellFormed ∅ s.mem t (tableOf s.mem bs) bl ∧ t.sHeapBooted = true ∧
      Fuelled cfg t) ⟨hwf, h.booted, hfuel⟩ ⟨hwf', h.booted, hfuel⟩ (fun t ht hnone p t' hrun => ?_)
      (fun hnone => ?_) fun t ht hsome => ?_
    · obtain ⟨hw, hboot, hf⟩ := ht
      exact calls_of_noneFits hw hboot hf hpos hn hnone hrun
    · exact malloc_refused hwf' h.booted hfuel hpos hn hnone rfl
    · obtain ⟨hw, hboot, hf⟩ := ht
      refine wp_heapmgrMalloc_fits hw hboot hf hpos hn hsome ?_
      intro xs b ys _ _ _ t' T' bl' hk _ _
      rw [hk.os]
  refine
    { asks := fun size hpos hle => (hasks size hpos hle).1
      needed := fun size hpos hle => (hasks size hpos hle).2
      releases := fun xs c ys hbs hused hsmall => ?_ }
  subst hbs
  have hcall : wp (heapmgrFree cfg (c.addr + 1)) (fun _ s' => LaidOut s' (release xs c ys)) s := by
    refine wp_heapmgrFree hwf hfuel rfl hused (fun v hv => absurd hv (Set.notMem_empty v))
      (by rwa [released_span]) fun s' T' bl' _ hT' hwf' => ?_
    rw [← hT']
    exact laidOut_of_rep hwf'.work.rep
  obtain ⟨_, s', hrun, hlaid⟩ := hcall
  exact ⟨s', hrun, hlaid⟩

end Heapmgr2

/-! ### Agreement -/

/-- **The two managers agree.**  On heaps with the same layout, a request has to ask the kernel for
memory in one exactly when it has to in the other; and a release of the same live block leaves both in
the layout in which the block and its free neighbours are one free block, exactly when the units of
that block fit an `int`. -/
theorem managers_agree {cfg₁ cfg₂ : Cfg} {s₁ : Heapmgr1.Heap1} {s₂ : Heapmgr2.Heap2} {l : List ℕ}
    {bl : Fin Heapmgr2.numBins → List ℕ}
    (h₁ : RepInv (fun _ : Unit => s₁.sFree) (fun _ => ()) s₁ bs fun _ => l)
    (h₂ : RepInv s₂.sFree Heapmgr2.binOf s₂ bs bl) (hf₁ : Fuelled cfg₁ s₁) (hf₂ : Fuelled cfg₂ s₂) :
    (∀ size, 1 ≤ size → size ≤ 3 * 10 ^ 8 →
      (HasToAsk (Heapmgr1.heapmgrMalloc cfg₁) s₁ size ↔
        HasToAsk (Heapmgr2.heapmgrMalloc cfg₂) s₂ size) ∧
      AsksAsNeeded (Heapmgr1.heapmgrMalloc cfg₁) s₁ size ∧
      AsksAsNeeded (Heapmgr2.heapmgrMalloc cfg₂) s₂ size) ∧
    ∀ xs c ys, bs = xs ++ c :: ys → c.used = true →
      ((∃ s₁' s₂', Heapmgr1.heapmgrFree cfg₁ (c.addr + 1) s₁ = .ok () s₁' ∧
        Heapmgr2.heapmgrFree cfg₂ (c.addr + 1) s₂ = .ok () s₂' ∧
        LaidOut s₁' (release xs c ys) ∧ LaidOut s₂' (release xs c ys)) ↔
        unionSpan xs c ys < 2 ^ 31) := by
  have hby₁ := Heapmgr1.byLayout h₁ hf₁
  have hby₂ := Heapmgr2.byLayout h₂ hf₂
  refine ⟨fun size hpos hle => ?_, fun xs c ys hbs hused => ⟨fun hafter => ?_, fun hsmall => ?_⟩⟩
  · refine ⟨?_, hby₁.needed size hpos hle, hby₂.needed size hpos hle⟩
    rw [hby₁.asks size hpos hle, hby₂.asks size hpos hle]
  · obtain ⟨s₁', s₂', hcall, -, hlaid, -⟩ := hafter
    exact Heapmgr1.unionSpan_lt_of_free h₁.typed hcall hlaid
  · obtain ⟨s₁', hcall₁, hlaid₁⟩ := hby₁.releases xs c ys hbs hused hsmall
    obtain ⟨s₂', hcall₂, hlaid₂⟩ := hby₂.releases xs c ys hbs hused hsmall
    exact ⟨s₁', s₂', hcall₁, hcall₂, hlaid₁, hlaid₂⟩

/-! ### Two blocks -/

theorem Heapmgr1.pair_repInv (hn : 2 ≤ n) (hlt : n < 2 ^ 31) :
    RepInv (fun _ : Unit => (Heapmgr1.pair n).sFree) (fun _ => ()) (Heapmgr1.pair n)
      [⟨1, n, true⟩, ⟨n + 1, n, false⟩] fun _ => [n + 1] where
  toInOrder := Heapmgr1.pair_listOrder hn
  placed := Heapmgr1.pair_placed hlt
  typed := Heapmgr1.pair_typed hlt
  booted := rfl
  idle b hb hused := by
    rcases List.mem_cons.mp hb with rfl | hb'
    · have hfoot : ((Heapmgr1.pair n).mem n).prev = null := by
        simp [Heapmgr1.pair, show n ≠ 1 by omega]
      refine ⟨rfl, ?_⟩
      show ((Heapmgr1.pair n).mem (1 + (n : ℤ).toNat - 1)).prev = null
      rwa [Int.toNat_natCast, Nat.add_sub_cancel_left]
    · rw [List.mem_singleton.mp hb'] at hused
      cases hused

/-- The same memory as a heap of `heapmgr2.c`. -/
def Heapmgr2.pair (n : ℕ) : Heapmgr2.Heap2 :=
  { Heapmgr1.pair n with sFree := fun i => if i = Heapmgr2.binOf n then n + 1 else null }

theorem Heapmgr2.pair_repInv (hn : 2 ≤ n) (hlt : n < 2 ^ 31) :
    RepInv (Heapmgr2.pair n).sFree Heapmgr2.binOf (Heapmgr2.pair n)
      [⟨1, n, true⟩, ⟨n + 1, n, false⟩] fun i => if i = Heapmgr2.binOf n then [n + 1] else [] := by
  have h := Heapmgr1.pair_repInv hn hlt
  refine
    { tiles := h.tiles
      two_le := h.two_le
      status := h.status
      span := h.span
      footSpan := h.footSpan
      coalesced := h.coalesced
      head := fun i => ?_
      links := fun i => ?_
      nodup := fun i => ?_
      mem := fun i a => ?_
      placed := ⟨h.placed.lo_pos, h.placed.hi_lt⟩
      typed := h.typed
      booted := rfl
      idle := h.idle }
  · show (if i = Heapmgr2.binOf n then n + 1 else null) = _
    split <;> rfl
  · split
    · exact h.links ()
    · exact links_nil
  · split
    · exact List.nodup_singleton _
    · exact List.nodup_nil
  · by_cases hi : i = Heapmgr2.binOf n
    · rw [if_pos hi, hi]
      have hmem := h.mem () a
      simpa using hmem
    · rw [if_neg hi]
      constructor
      · intro ha
        cases ha
      · intro ha
        obtain ⟨b, hb, -, hfree, hbin⟩ := ha
        rcases List.mem_cons.mp hb with rfl | hb'
        · cases hfree
        · rw [List.mem_singleton.mp hb'] at hbin
          exact absurd hbin.symm hi

/-- The agreement on a pair of small blocks. -/
theorem managers_agree_pair :
    (∀ size, 1 ≤ size → size ≤ 3 * 10 ^ 8 →
      (HasToAsk (Heapmgr1.heapmgrMalloc ⟨true, 2 ^ 31⟩) (Heapmgr1.pair 16) size ↔
        HasToAsk (Heapmgr2.heapmgrMalloc ⟨true, 2 ^ 31⟩) (Heapmgr2.pair 16) size) ∧
      AsksAsNeeded (Heapmgr1.heapmgrMalloc ⟨true, 2 ^ 31⟩) (Heapmgr1.pair 16) size ∧
      AsksAsNeeded (Heapmgr2.heapmgrMalloc ⟨true, 2 ^ 31⟩) (Heapmgr2.pair 16) size) ∧
    ∀ xs c ys, [⟨1, 16, true⟩, ⟨17, 16, false⟩] = xs ++ c :: ys → c.used = true →
      ((∃ s₁' s₂', Heapmgr1.heapmgrFree ⟨true, 2 ^ 31⟩ (c.addr + 1) (Heapmgr1.pair 16) = .ok () s₁' ∧
        Heapmgr2.heapmgrFree ⟨true, 2 ^ 31⟩ (c.addr + 1) (Heapmgr2.pair 16) = .ok () s₂' ∧
        LaidOut s₁' (release xs c ys) ∧ LaidOut s₂' (release xs c ys)) ↔
        unionSpan xs c ys < 2 ^ 31) :=
  managers_agree (Heapmgr1.pair_repInv (by decide) (by decide))
    (Heapmgr2.pair_repInv (by decide) (by decide)) (show 2 * 16 + 1 < 1 + 2 ^ 31 by decide)
    (show 2 * 16 + 1 < 1 + 2 ^ 31 by decide)

/-- The release of the lower one of two blocks of `2 ^ 30` units; returned are the ends of the heap and
the span in its first header. -/
def freeLarge (asserts : Bool) : Exec Heapmgr1.Heap1 (ℕ × ℕ × ℤ) := do
  Heapmgr1.heapmgrFree ⟨asserts, 2 ^ 32⟩ 2
  reads fun s => (s.sHeapLo, s.sHeapHi, (s.mem s.sHeapLo).span)

theorem freeLarge_value (asserts : Bool) :
    (freeLarge asserts (Heapmgr1.pair (2 ^ 30))).value
      = if asserts then none else some (1, 2 ^ 31 + 1, -2 ^ 31) := by
  cases asserts with
  | true => decide +kernel
  | false => decide +kernel

/-- **A merged block of `2 ^ 31` units**: the two heaps have no layout in common afterwards, since the
heap of `heapmgr1.c` has none, or its call does not return. -/
theorem managers_agree_fails :
    RepInv (fun _ : Unit => (Heapmgr1.pair (2 ^ 30)).sFree) (fun _ => ()) (Heapmgr1.pair (2 ^ 30))
      [⟨1, 2 ^ 30, true⟩, ⟨2 ^ 30 + 1, 2 ^ 30, false⟩] (fun _ => [2 ^ 30 + 1]) ∧
    RepInv (Heapmgr2.pair (2 ^ 30)).sFree Heapmgr2.binOf (Heapmgr2.pair (2 ^ 30))
      [⟨1, 2 ^ 30, true⟩, ⟨2 ^ 30 + 1, 2 ^ 30, false⟩]
      (fun i => if i = Heapmgr2.binOf (2 ^ 30) then [2 ^ 30 + 1] else []) ∧
    ∀ asserts, ¬ ∃ s₁' s₂' bs',
      Heapmgr1.heapmgrFree ⟨asserts, 2 ^ 32⟩ 2 (Heapmgr1.pair (2 ^ 30)) = .ok () s₁' ∧
      Heapmgr2.heapmgrFree ⟨asserts, 2 ^ 32⟩ 2 (Heapmgr2.pair (2 ^ 30)) = .ok () s₂' ∧
      LaidOut s₁' bs' ∧ LaidOut s₂' bs' := by
  refine ⟨Heapmgr1.pair_repInv (by decide) (by decide), Heapmgr2.pair_repInv (by decide) (by decide),
    fun asserts hafter => ?_⟩
  obtain ⟨s₁', s₂', bs', hcall, -, hlaid, -⟩ := hafter
  have hvalue := freeLarge_value asserts
  unfold freeLarge at hvalue
  rw [bind_of_ok hcall] at hvalue
  cases asserts with
  | true => cases hvalue
  | false =>
    have hresult : (s₁'.sHeapLo, s₁'.sHeapHi, (s₁'.mem s₁'.sHeapLo).span)
        = (1, 2 ^ 31 + 1, -2 ^ 31) := Option.some.inj hvalue
    simp only [Prod.mk.injEq] at hresult
    obtain ⟨hlo, hhi, hspan⟩ := hresult
    cases bs' with
    | nil =>
      have hends : s₁'.sHeapLo = s₁'.sHeapHi := hlaid.tiles
      omega
    | cons b bs' =>
      have haddr : b.addr = s₁'.sHeapLo := hlaid.tiles.1
      have hb : (s₁'.mem b.addr).span = b.span := hlaid.span b (by simp)
      rw [haddr, hspan] at hb
      omega

end SystemProgramming.HeapMgr
