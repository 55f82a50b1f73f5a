import SystemProgramming.HeapMgr.TestDriverRuns
import SystemProgramming.HeapMgr.BaseRun
import SystemProgramming.HeapMgr.Heapmgr2Run

/-!
# Runs of the test driver

Every test comes to its end, whatever `rand` returns, and its calls are those of a correct client:

* `wp_main`: over any manager that serves such clients, the client has freed everything at the end (`Finished`);
* `Thrifty.plenty`: a manager that asks the kernel for no more than its share of each allocation grants everything
  where the kernel has room (`Roomy`), and then no check fails;
* `testheapmgr_heapmgr2`, `testheapmgr_heapmgrbase`: both hold of `heapmgr2.c` and of the reference manager, whose
  heaps are in order with no block in use at the end.

The kernel can tell the break (`ready`) and keeps the heap below `2^31` units (`OsFresh`); what it answers to a
request is free when the driver is built without its checks.
-/

namespace SystemProgramming.HeapMgr.TestDriver

open Exec

variable {F : Type}

/-! ### What a manager asks of the kernel -/

/-- A manager that asks the kernel for `g size` units when it has no block for `size` bytes, and for nothing else. -/
structure Thrifty (mgr : Manager F) (g : ℕ → ℕ) : Prop where
  mono : ∀ {m n}, m ≤ n → g m ≤ g n
  malloc : ∀ {tr st size p heap}, Reach (clientSys mgr) tr st → 1 ≤ size → size ≤ 3 * 10 ^ 8 →
    mgr.malloc size st.heap = .ok p heap →
      (p ≠ null ∧ heap.os = st.heap.os) ∨
      (p ≠ null ∧ heap.os = { st.heap.os with brk := st.heap.os.brk + g size, calls := st.heap.os.calls + 1 }) ∨
      (p = null ∧ ¬ st.heap.os.Grants (g size))
  free : ∀ {tr st a heap}, Reach (clientSys mgr) tr st → a ∈ st.live → mgr.free a.ptr st.heap = .ok () heap →
    heap.os = st.heap.os

/-- The kernel grants everything up to `n` units. -/
def Roomy (os : Os) (n : ℕ) : Prop := (∀ k, os.answer k = true) ∧ os.brk + n ≤ os.limit

theorem Roomy.mono {os : Os} {m n : ℕ} (h : Roomy os n) (hmn : m ≤ n) : Roomy os m := ⟨h.1, by have := h.2; omega⟩

section Supply

variable {mgr : Manager F} {g : ℕ → ℕ} {st₀ st : Session F} {tr : List Call} {N M : ℕ}

/-- One more allocation takes at most its share. -/
theorem Thrifty.roomy_malloc {size p : ℕ} {heap : Heap F} (hg : Thrifty mgr g) (h : Reach (clientSys mgr) tr st)
    (hpos : 1 ≤ size) (hle : size ≤ M) (hM : M ≤ 3 * 10 ^ 8) (hroom : Roomy st.heap.os ((N + 1) * g M))
    (hcall : mgr.malloc size st.heap = .ok p heap) : p ≠ null ∧ Roomy heap.os (N * g M) := by
  have hshare := hg.mono hle
  have hmul : (N + 1) * g M = N * g M + g M := Nat.succ_mul N (g M)
  rw [hmul] at hroom
  rcases hg.malloc h hpos (Nat.le_trans hle hM) hcall with ⟨hp, hos⟩ | ⟨hp, hos⟩ | ⟨-, hrefused⟩
  · rw [hos]
    exact ⟨hp, hroom.mono (Nat.le_add_right _ _)⟩
  · rw [hos]
    refine ⟨hp, hroom.1, ?_⟩
    have hfits := hroom.2
    show st.heap.os.brk + g size + N * g M ≤ st.heap.os.limit
    omega
  · refine absurd ⟨hroom.1 _, ?_⟩ hrefused
    have hfits := hroom.2
    omega

/-- After some of the `N` allocations there is room for the others. -/
theorem roomy_of_reach (hg : Thrifty mgr g) (hfresh : st₀.Fresh mgr) (hroom : Roomy st₀.heap.os (N * g M))
    (hM : M ≤ 3 * 10 ^ 8) (h : Reach (sessionsFrom mgr st₀) tr st) (hsmall : ∀ n, .malloc n ∈ tr → n ≤ M)
    (hcount : tr.countP isMalloc ≤ N) : Roomy st.heap.os ((N - tr.countP isMalloc) * g M) := by
  induction h with
  | init h =>
    rw [show _ = st₀ from h]
    exact hroom
  | step h hstep ih =>
    rename_i tr st st' call
    have hclient := reach_client hfresh h
    rw [List.countP_append, List.countP_singleton] at hcount ⊢
    have hbefore := ih (fun n hn => hsmall n (List.mem_append_left _ hn)) (by omega)
    cases hstep with
    | malloc hpos hle hcall =>
      rename_i size p heap
      have hsize : size ≤ M := hsmall size (List.mem_append_right _ (List.mem_singleton_self _))
      have hone : tr.countP isMalloc + 1 ≤ N := hcount
      rw [show N - tr.countP isMalloc = N - (tr.countP isMalloc + 1) + 1 by omega] at hbefore
      rw [Session.afterMalloc_heap]
      exact (hg.roomy_malloc hclient hpos hsize hM hbefore hcall).2
    | free ha hcall =>
      show Roomy _ ((N - (tr.countP isMalloc + 0)) * g M)
      rw [Nat.add_zero, show _ = st.heap.os from hg.free hclient ha hcall]
      exact hbefore
    | write ha hu => exact hbefore

/-- **A thrifty manager on a roomy kernel** grants everything. -/
theorem Thrifty.plenty (hg : Thrifty mgr g) (hfresh : st₀.Fresh mgr) (hroom : Roomy st₀.heap.os (N * g M))
    (hM : M ≤ 3 * 10 ^ 8) : Plenty mgr st₀ N M := by
  intro tr st size p heap h hcount hsmall hpos hle hcall
  have hleft := roomy_of_reach hg hfresh hroom hM h hsmall (Nat.le_of_lt hcount)
  rw [show N - tr.countP isMalloc = N - (tr.countP isMalloc + 1) + 1 by omega] at hleft
  exact (hg.roomy_malloc (reach_client hfresh h) hpos hle hM hleft hcall).1

/-- The last call of a client for which everything is granted was not an allocation in vain. -/
theorem Finished.last (h : Finished mgr st₀ N M tr st) (hplenty : Plenty mgr st₀ N M) : ∃ tr' st' k,
    Reach (sessionsFrom mgr st₀) tr' st' ∧ Session.Step (3 * 10 ^ 8) mgr st' k st ∧
      ∀ size p heap, k = .malloc size → mgr.malloc size st'.heap = .ok p heap → p ≠ null := by
  obtain ⟨hreach, hpos, hcount, hsmall, -⟩ := h
  cases hreach with
  | init => cases hpos
  | step hbefore hstep =>
    rename_i tr st' k
    refine ⟨tr, st', k, hbefore, hstep, fun size p heap hk hcall => ?_⟩
    subst hk
    have hlegal : 1 ≤ size := by
      cases hstep with
      | malloc hpos _ _ => exact hpos
    have hlast : size ≤ M := hsmall size (List.mem_append_right _ (List.mem_singleton_self _))
    have hone : tr.countP isMalloc + 1 ≤ N := by
      rw [List.countP_append] at hcount
      exact hcount
    exact hplenty tr st' size p heap hbefore hone (fun n hn => hsmall n (List.mem_append_left _ hn)) hlegal hlast hcall

end Supply

/-! ### Every test -/

section Tests

variable {prog : Program F} {st₀ : Session F} {N : ℕ} {args : Args}

/-- **Every test frees what it has allocated.** -/
theorem wp_main (hset : Setting prog st₀ N args.iSize) (hN : 2 * args.iCount ≤ N) (rands : ℕ → ℕ) :
    wp (main prog args) (fun _ d => ∃ tr st, Finished prog.mgr st₀ N args.iSize tr st ∧ st.heap = d.heap ∧
      (Plenty prog.mgr st₀ N args.iSize → d.failed = [])) (start st₀.heap rands) := by
  obtain ⟨test, n, iSize, hpos, hmax, hsize, hlt⟩ := args
  have hset : Setting prog st₀ N iSize := hset
  have hN : 2 * n ≤ N := hN
  have hfixed (W : ℕ) : Tracks prog st₀ N iSize W (fixed iSize) ∅ Set.univ 0 (start st₀.heap rands) :=
    tracks_start hset rfl rfl fun _ _ => ⟨hsize, Nat.le_refl iSize⟩
  have hdrawn (W : ℕ) {Q : Unit → State F → Prop} (hQ : ∀ d, (∀ i, d.apcChunks i = null) →
      Tracks prog st₀ N iSize W drawnSize ∅ Set.univ 0 d → Q () d) :
      wp (drawSizes iSize W) Q (start st₀.heap rands) := by
    refine (wp_drawSizes hsize).mono fun _ d ⟨hheap, hchunks, hfailed, hlegal⟩ => hQ d (fun i => ?_) ?_
    · rw [hchunks]
      rfl
    · exact tracks_start hset hheap hfailed hlegal
  cases test with
  | lifoFixed =>
    show wp (do testLIFOFixedMalloc prog n iSize; testLIFOFixedFree prog n iSize) _ _
    rw [wp_bind]
    refine (wp_mallocAll (hfixed n) hset (Nat.le_refl n) (by omega)).mono fun _ d₁ ⟨h₁, hsolid⟩ => ?_
    exact (wp_freeDown h₁ hset hsolid).mono fun _ d₂ h₂ => h₂.freed hpos (by omega)
  | fifoFixed =>
    show wp (do testFIFOFixedMalloc prog n iSize; testFIFOFixedFree prog n iSize) _ _
    rw [wp_bind]
    refine (wp_mallocAll (hfixed n) hset (Nat.le_refl n) (by omega)).mono fun _ d₁ ⟨h₁, hsolid⟩ => ?_
    exact (wp_freeUp h₁ hset hsolid).mono fun _ d₂ h₂ => h₂.freed hpos (by omega)
  | lifoRandom =>
    show wp (do testLIFORandomMalloc prog n iSize; testLIFORandomFree prog n) _ _
    unfold testLIFORandomMalloc
    rw [wp_bind, wp_bind]
    refine hdrawn n fun d₀ _ h₀ => ?_
    refine (wp_mallocAll h₀ hset (Nat.le_refl n) (by omega)).mono fun _ d₁ ⟨h₁, hsolid⟩ => ?_
    exact (wp_freeDown h₁ hset hsolid).mono fun _ d₂ h₂ => h₂.freed hpos (by omega)
  | fifoRandom =>
    show wp (do testFIFORandomMalloc prog n iSize; testFIFORandomFree prog n) _ _
    unfold testFIFORandomMalloc
    rw [wp_bind, wp_bind]
    refine hdrawn n fun d₀ _ h₀ => ?_
    refine (wp_mallocAll h₀ hset (Nat.le_refl n) (by omega)).mono fun _ d₁ ⟨h₁, hsolid⟩ => ?_
    exact (wp_freeUp h₁ hset hsolid).mono fun _ d₂ h₂ => h₂.freed hpos (by omega)
  | randomFixed =>
    show wp (testRandomFixed prog n iSize) _ _
    exact (wp_interleave hset (by omega) (hfixed _) fun _ => rfl).mono fun _ d₁ h₁ => h₁.freed hpos (by omega)
  | randomRandom =>
    show wp (testRandomRandom prog n iSize) _ _
    unfold testRandomRandom
    rw [wp_bind]
    refine hdrawn _ fun d₀ hchunks h₀ => ?_
    exact (wp_interleave hset (by omega) h₀ hchunks).mono fun _ d₁ h₁ => h₁.freed hpos (by omega)
  | worst =>
    show wp (testWorst prog n iSize) _ _
    have hworst : Tracks prog st₀ N iSize n (worstSize n iSize) ∅ evens 0 (start st₀.heap rands) :=
      tracks_start hset rfl rfl fun i hi => worstSize_legal hsize _ i hi
    exact (wp_testWorst hworst hset hN).mono fun _ d₁ h₁ => h₁.freed (by omega) (by omega)

end Tests

/-! ### `heapmgr2.c` -/

section Binned

variable {cfg : Cfg}

theorem reliable_heapmgr2 (hcfg : 2 ^ 31 ≤ cfg.fuel) : Reliable (Heapmgr2.manager cfg) where
  returns h := Heapmgr2.callsReturn hcfg h
  booted h hne hfresh := by
    rcases Heapmgr2.reach_sound hcfg h with ⟨hnil, -⟩ | ⟨T, hT⟩
    · exact hne hnil
    · cases hT.booted.symm.trans hfresh.booted
  nodup h := by
    rcases Heapmgr2.reach_sound hcfg h with ⟨-, hstart⟩ | ⟨T, hT⟩
    · rw [hstart.live]
      exact List.nodup_nil
    · exact (hT.nodup_ptrs (Heapmgr2.serves hcfg)).of_map _
  disjoint h a ha a' ha' u hu hu' := by
    rcases Heapmgr2.reach_sound hcfg h with ⟨-, hstart⟩ | ⟨T, hT⟩
    · rw [hstart.live] at ha
      cases ha
    · exact hT.disjoint (Heapmgr2.serves hcfg) ha ha' hu hu'
  reads h a ha := by
    rcases Heapmgr2.reach_sound hcfg h with ⟨-, hstart⟩ | ⟨T, hT⟩
    · rw [hstart.live] at ha
      cases ha
    · exact hT.reads a ha
  free_null {tr st} h hne := by
    rcases Heapmgr2.reach_sound hcfg h with ⟨hnil, -⟩ | ⟨T, hT⟩
    · exact absurd hnil hne
    · obtain ⟨⟨bl, hwf⟩, -⟩ := hT.wf
      have hlo := hwf.work.rep.lo_pos
      have hle := hwf.work.rep.tiles.le
      have hskip : wp (Heapmgr2.heapmgrFree cfg null) (fun _ s' => s' = st.heap) st.heap := by
        unfold Heapmgr2.heapmgrFree heapLo heapHi
        simp only [wp_bind, wp_reads, wp_assert]
        refine ⟨fun _ => ⟨Nat.ne_of_gt hlo, Nat.ne_of_gt (Nat.lt_of_lt_of_le hlo hle)⟩, fun _ => Or.inl trivial, ?_⟩
        rw [if_pos trivial, wp_pure]
      obtain ⟨_, s', hcall, rfl⟩ := hskip
      exact hcall

theorem os_afterBoot (s : Heap F) : (afterBoot s).os = s.os := by
  unfold afterBoot
  split_ifs <;> rfl

theorem thrifty_heapmgr2 (hcfg : 2 ^ 31 ≤ cfg.fuel) :
    Thrifty (Heapmgr2.manager cfg) fun size => growSpan (payloadUnits size) where
  mono {m n} hmn := by
    unfold growSpan payloadUnits
    omega
  malloc {tr st size p heap} h hpos hle hcall := by
    have hcall : Heapmgr2.heapmgrMalloc cfg size st.heap = .ok p heap := hcall
    rcases Heapmgr2.malloc_prepared hcfg h hpos with ⟨-, -, hexit⟩ | ⟨T, hT, heq⟩
    · cases hcall.symm.trans hexit
    rw [heq] at hcall
    rw [← os_afterBoot st.heap]
    obtain ⟨⟨bl, hwf⟩, hlim⟩ := hT.wf
    have hneed := payloadUnits_lt hle
    have hspan : growSpan (payloadUnits size) < 2 ^ 31 := by
      unfold growSpan sysMinAllocUnits
      omega
    have hwp : wp (Heapmgr2.heapmgrMalloc cfg size) (fun p heap => (p ≠ null ∧ heap.os = (afterBoot st.heap).os) ∨
        (p ≠ null ∧ heap.os = { (afterBoot st.heap).os with
          brk := (afterBoot st.heap).os.brk + growSpan (payloadUnits size)
          calls := (afterBoot st.heap).os.calls + 1 }) ∨
        (p = null ∧ ¬ (afterBoot st.heap).os.Grants (growSpan (payloadUnits size)))) (afterBoot st.heap) := by
      refine Heapmgr2.wp_heapmgrMalloc hwf hT.os hT.booted (hlim.mono hcfg) hpos (bytesToPayloadUnits_eq (by omega))
        (fun _ => growthFits_of_limited hT.os hlim hwf.work.rep.tiles hneed) ?_ (fun _ hno => ?_) ?_
      · exact fun _ _ _ _ _ _ s' _ _ hk _ _ => Or.inl ⟨Nat.succ_ne_zero _, hk.os⟩
      · exact Or.inr (Or.inr ⟨rfl, fun hgrants => hno ((Os.accepts_iff hspan).mpr hgrants)⟩)
      · exact fun _ _ _ _ _ _ _ _ _ s' _ _ hg _ _ => Or.inr (Or.inl ⟨Nat.succ_ne_zero _, hg.os⟩)
    exact (wp_iff_of_ok hcall).mp hwp
  free {tr st a heap} h ha hcall := by
    have hcall : Heapmgr2.heapmgrFree cfg a.ptr st.heap = .ok () heap := hcall
    rcases Heapmgr2.reach_sound hcfg h with ⟨-, hstart⟩ | ⟨T, hT⟩
    · rw [hstart.live] at ha
      cases ha
    obtain ⟨b, hb, hused, hptr, -⟩ := hT.block ha
    obtain ⟨xs, ys, hsplit⟩ := List.append_of_mem hb
    obtain ⟨⟨bl, hwf⟩, hlim⟩ := hT.wf
    rw [← hptr] at hcall
    have hwp : wp (Heapmgr2.heapmgrFree cfg (b.addr + 1)) (fun _ heap => heap.os = st.heap.os) st.heap :=
      Heapmgr2.wp_heapmgrFree hwf (hT.os.within (hlim.mono hcfg)) hsplit hused nofun
        (released_lt_of_limited hT.os hlim hwf.work.rep.tiles hsplit) fun s' _ _ hk _ _ => hk.os
    exact (wp_iff_of_ok hcall).mp hwp

end Binned

/-! ### `heapmgrbase.c` -/

section Reference

variable {cfg : Cfg}

/-- A session of the reference manager is about to start, or it is in order. -/
theorem fresh_or_inOrder {tr : List Call} {st : Session ℕ} (hcfg : 2 ^ 31 ≤ cfg.fuel)
    (h : Reach (clientSys (Base.manager cfg)) tr st) : st.live = [] ∨ ∃ bs, Base.InOrder st bs := by
  obtain ⟨as, -, hmirrors, -⟩ := Base.mirrors_of_reach hcfg h
  exact hmirrors.blocks.imp (fun hst => hst.1.live) fun hst => ⟨_, hst⟩

theorem reliable_heapmgrbase (hcfg : 2 ^ 31 ≤ cfg.fuel) : Reliable (Base.manager cfg) where
  returns h := by
    obtain ⟨as, -, hmirrors, -⟩ := Base.mirrors_of_reach hcfg h
    exact hmirrors.callsReturn hcfg
  booted h hne hfresh := by
    obtain ⟨as, -, -, hin⟩ := Base.mirrors_of_reach hcfg h
    cases (hin hne).booted.symm.trans hfresh.booted
  nodup h := by
    rcases fresh_or_inOrder hcfg h with hlive | ⟨bs, hin⟩
    · rw [hlive]
      exact List.nodup_nil
    · exact (hin.toOwned.nodup_blocks hin.wf.tiles).of_map _
  disjoint h a ha a' ha' u hu hu' := by
    rcases fresh_or_inOrder hcfg h with hlive | ⟨bs, hin⟩
    · rw [hlive] at ha
      cases ha
    · exact hin.toOwned.disjoint hin.wf.tiles ha ha' hu hu'
  reads h a ha := by
    rcases fresh_or_inOrder hcfg h with hlive | ⟨bs, hin⟩
    · rw [hlive] at ha
      cases ha
    · exact hin.reads a ha
  free_null {tr st} _ _ := by
    show Base.heapmgrFree cfg null st.heap = _
    unfold Base.heapmgrFree
    rw [if_pos rfl]
    rfl

theorem thrifty_heapmgrbase (hcfg : 2 ^ 31 ≤ cfg.fuel) :
    Thrifty (Base.manager cfg) fun size => Base.growSpan (payloadUnits size) where
  mono {m n} hmn := by
    unfold Base.growSpan payloadUnits
    omega
  malloc {tr st size p heap} h hpos hle hcall := by
    obtain ⟨as, -, hmirrors, -⟩ := Base.mirrors_of_reach hcfg h
    have hcall : Base.heapmgrMalloc cfg size st.heap = .ok p heap := hcall
    rcases hmirrors.malloc hcfg hpos hle with ⟨-, -, hexit⟩ | ⟨p', heap', ar, hcall', har, hos, -⟩
    · cases hcall.symm.trans hexit
    · cases hcall.symm.trans hcall'
      have hkernel := as.arena.malloc_os size
      unfold Base.Arena.extend at hkernel
      rw [har, hmirrors.os] at hkernel
      rw [← hos]
      exact hkernel
  free {tr st a heap} h ha hcall := by
    have hcall : Base.heapmgrFree cfg a.ptr st.heap = .ok () heap := hcall
    rcases fresh_or_inOrder hcfg h with hlive | ⟨bs, hin⟩
    · rw [hlive] at ha
      cases ha
    · exact ((wp_iff_of_ok hcall).mp (hin.free hcfg ha)).1

end Reference

/-! ### A layout of the bytes -/

/-- The byte `k` of a number, the lowest one first. -/
def byteAt : ℕ → ℕ → UInt8
  | n, 0 => UInt8.ofNat n
  | n, k + 1 => byteAt (n / 256) k

def withByte : ℕ → ℕ → UInt8 → ℕ
  | n, 0, c => n / 256 * 256 + c.toNat
  | n, k + 1, c => withByte (n / 256) k c * 256 + n % 256

theorem byteAt_withByte (n k : ℕ) (c : UInt8) (j : ℕ) :
    byteAt (withByte n k c) j = if j = k then c else byteAt n j := by
  have hc : c.toNat < 256 := c.toNat_lt
  induction k generalizing n j with
  | zero =>
    cases j with
    | zero =>
      refine UInt8.toNat_inj.mp ?_
      show (UInt8.ofNat (n / 256 * 256 + c.toNat)).toNat = c.toNat
      rw [UInt8.toNat_ofNat']
      omega
    | succ j =>
      show byteAt ((n / 256 * 256 + c.toNat) / 256) j = byteAt (n / 256) j
      congr 1
      omega
  | succ k ih =>
    cases j with
    | zero =>
      refine UInt8.toNat_inj.mp ?_
      show (UInt8.ofNat (withByte (n / 256) k c * 256 + n % 256)).toNat = (UInt8.ofNat n).toNat
      rw [UInt8.toNat_ofNat', UInt8.toNat_ofNat']
      omega
    | succ j =>
      show byteAt ((withByte (n / 256) k c * 256 + n % 256) / 256) j = if j + 1 = k + 1 then c else byteAt (n / 256) j
      rw [show (withByte (n / 256) k c * 256 + n % 256) / 256 = withByte (n / 256) k c by omega, ih]
      simp only [Nat.add_right_cancel_iff]

/-- The fields of a unit stand one after the other, each with its lowest byte first. -/
def littleEndian : Bytes where
  get u k := if k < 4 then byteAt u.lo32.toNat k else if k < 8 then byteAt u.hi32.toNat (k - 4)
    else byteAt u.link (k - 8)
  set u k c := if k < 4 then { u with lo32 := withByte u.lo32.toNat k c }
    else if k < 8 then { u with hi32 := withByte u.hi32.toNat (k - 4) c }
    else { u with link := withByte u.link (k - 8) c }
  get_set u k c j hk hj := by
    -- only a byte of the same field can be the one that was set
    split_ifs <;> try omega
    all_goals simp only [Int.toNat_natCast, byteAt_withByte]
    all_goals first | rfl | exact if_pos (by omega) | exact if_neg (by omega)

/-! ### What the driver reports -/

section Reports

variable {cfg : Cfg} {bytes : Bytes} {ndebug : Bool} {args : Args} {rands : ℕ → ℕ}

/-- The worst case with three chunks of up to 40 bytes. -/
def worstOfThree : Args where
  test := .worst
  iCount := 3
  iSize := 40
  count_pos := Nat.succ_pos 2
  count_le := show 3 ≤ 1000000 by decide
  size_pos := Nat.succ_pos 39
  size_lt := show 40 < 2 ^ 31 by decide

/-- **The driver with `heapmgr2.c`** is a correct client that frees what it has allocated, and leaves the heap in
order.  Without its checks the kernel may refuse what it likes; with them it has room, and then no check fails. -/
theorem testheapmgr_heapmgr2 {st : Session Heapmgr2.Bins} (hcfg : 2 ^ 31 ≤ cfg.fuel)
    (hfresh : st.Fresh (Heapmgr2.manager cfg)) (hready : st.heap.os.ready = true) (hsize : args.iSize ≤ 3 * 10 ^ 8)
    (hroom : ndebug = true ∨ Roomy st.heap.os (2 * args.iCount * growSpan (payloadUnits args.iSize))) :
    wp (main ⟨Heapmgr2.manager cfg, bytes, ndebug⟩ args) (fun _ d =>
      (Roomy st.heap.os (2 * args.iCount * growSpan (payloadUnits args.iSize)) → d.failed = []) ∧
      ∃ tr st', Finished (Heapmgr2.manager cfg) st (2 * args.iCount) args.iSize tr st' ∧ st'.heap = d.heap ∧
        ∃ bs bl, HeapOk d.heap.sFree Heapmgr2.binOf st' bs bl ∧ ∀ b ∈ bs, b.used = false)
      (start st.heap rands) := by
  have hplenty (h : Roomy st.heap.os (2 * args.iCount * growSpan (payloadUnits args.iSize))) :
      Plenty (Heapmgr2.manager cfg) st (2 * args.iCount) args.iSize :=
    (thrifty_heapmgr2 hcfg).plenty hfresh h hsize
  have hset : Setting ⟨Heapmgr2.manager cfg, bytes, ndebug⟩ st (2 * args.iCount) args.iSize :=
    ⟨reliable_heapmgr2 hcfg, hfresh, hready, hsize, hroom.imp_right hplenty⟩
  refine (wp_main hset (Nat.le_refl _) rands).mono fun _ d hd => ?_
  obtain ⟨tr, st', hfinished, hheap, hquiet⟩ := hd
  refine ⟨fun h => hquiet (hplenty h), tr, st', hfinished, hheap, ?_⟩
  rcases Heapmgr2.reach_sound hcfg (hfinished.client hfresh) with ⟨hnil, -⟩ | ⟨T, hT⟩
  · exact absurd hnil hfinished.ne_nil
  obtain ⟨⟨bl, hwf⟩, -⟩ := hT.wf
  rw [← hheap]
  refine ⟨T.blocks, bl, (Heapmgr2.serves hcfg).heapOk hT hwf.work.lists.toListed hwf.coalesced, fun b hb => ?_⟩
  cases hused : b.used with
  | false => rfl
  | true =>
    have hperm := hT.live
    rw [hfinished.freed] at hperm
    have hmem : b.addr + 1 ∈ (usedBlocks T.blocks).map fun b => b.addr + 1 :=
      List.mem_map_of_mem (mem_usedBlocks.mpr ⟨hb, hused⟩)
    cases hperm.mem_iff.mpr hmem

/-- The worst case with three chunks, with all checks and on a kernel that grants everything. -/
theorem testheapmgr_heapmgr2_worst :
    wp (main ⟨Heapmgr2.manager ⟨true, 2 ^ 31⟩, littleEndian, false⟩ worstOfThree) (fun _ d => d.failed = [] ∧
      ∃ tr st', Finished (Heapmgr2.manager ⟨true, 2 ^ 31⟩)
          (firstSession (Heapmgr2.manager ⟨true, 2 ^ 31⟩)) 6 40 tr st' ∧
        st'.heap = d.heap ∧
        ∃ bs bl, HeapOk d.heap.sFree Heapmgr2.binOf st' bs bl ∧ ∀ b ∈ bs, b.used = false)
      (start (firstSession (Heapmgr2.manager ⟨true, 2 ^ 31⟩)).heap id) := by
  have hroom : Roomy (firstSession (Heapmgr2.manager ⟨true, 2 ^ 31⟩)).heap.os
      (2 * worstOfThree.iCount * growSpan (payloadUnits worstOfThree.iSize)) := ⟨fun _ => rfl, by decide⟩
  exact (testheapmgr_heapmgr2 (Nat.le_refl _) (firstSession_fresh _) rfl (by decide) (Or.inr hroom)).mono
    fun _ _ ⟨hquiet, hrest⟩ => ⟨hquiet hroom, hrest⟩

/-- **The driver with `heapmgrbase.c`** is a correct client that frees what it has allocated.  Without its checks the
kernel may refuse what it likes; with them it has room, and then no check fails.  What is left is one free block, or
nothing where the kernel has no room. -/
theorem testheapmgr_heapmgrbase {st : Session ℕ} (hcfg : 2 ^ 31 ≤ cfg.fuel) (hfresh : st.Fresh (Base.manager cfg))
    (hready : st.heap.os.ready = true) (hsize : args.iSize ≤ 3 * 10 ^ 8)
    (hroom : ndebug = true ∨ Roomy st.heap.os (2 * args.iCount * Base.growSpan (payloadUnits args.iSize))) :
    wp (main ⟨Base.manager cfg, bytes, ndebug⟩ args) (fun _ d =>
      (Roomy st.heap.os (2 * args.iCount * Base.growSpan (payloadUnits args.iSize)) → d.failed = []) ∧
      ∃ tr st', Finished (Base.manager cfg) st (2 * args.iCount) args.iSize tr st' ∧ st'.heap = d.heap ∧
        (Base.InOrder st' [⟨d.heap.sHeapLo, d.heap.sHeapHi - d.heap.sHeapLo, false⟩] ∨
          Base.InOrder st' [] ∧
            ¬ Roomy st.heap.os (2 * args.iCount * Base.growSpan (payloadUnits args.iSize))))
      (start st.heap rands) := by
  have hplenty (h : Roomy st.heap.os (2 * args.iCount * Base.growSpan (payloadUnits args.iSize))) :
      Plenty (Base.manager cfg) st (2 * args.iCount) args.iSize :=
    (thrifty_heapmgrbase hcfg).plenty hfresh h hsize
  have hset : Setting ⟨Base.manager cfg, bytes, ndebug⟩ st (2 * args.iCount) args.iSize :=
    ⟨reliable_heapmgrbase hcfg, hfresh, hready, hsize, hroom.imp_right hplenty⟩
  refine (wp_main hset (Nat.le_refl _) rands).mono fun _ d hd => ?_
  obtain ⟨tr, st', hfinished, hheap, hquiet⟩ := hd
  refine ⟨fun h => hquiet (hplenty h), tr, st', hfinished, hheap, ?_⟩
  obtain ⟨as, -, -, hin⟩ := Base.mirrors_of_reach hcfg (hfinished.client hfresh)
  have hst := hin hfinished.ne_nil
  have hsingle := Base.single_of_no_used hst.wf.tiles hst.wf.coalesced (hst.no_used hfinished.freed)
  rw [← hheap]
  rcases hsingle with ⟨hblocks, -⟩ | hblocks
  · rw [hblocks] at hst
    refine Or.inr ⟨hst, fun h => ?_⟩
    obtain ⟨tr', st'', k, hreach, hstep, hgranted⟩ := hfinished.last (hplenty h)
    obtain ⟨_, -, hmirrors, -⟩ := Base.mirrors_of_reach hcfg (reach_client hfresh hreach)
    exact hmirrors.ne_nil hcfg hstep hst hgranted rfl
  · rw [hblocks] at hst
    exact Or.inl hst

/-- The worst case with three chunks, with all checks and on a kernel that grants everything. -/
theorem testheapmgr_heapmgrbase_worst :
    wp (main ⟨Base.manager ⟨true, 2 ^ 31⟩, littleEndian, false⟩ worstOfThree) (fun _ d => d.failed = [] ∧
      ∃ tr st', Finished (Base.manager ⟨true, 2 ^ 31⟩) (firstSession (Base.manager ⟨true, 2 ^ 31⟩)) 6 40 tr st' ∧
        st'.heap = d.heap ∧
        Base.InOrder st' [⟨d.heap.sHeapLo, d.heap.sHeapHi - d.heap.sHeapLo, false⟩])
      (start (firstSession (Base.manager ⟨true, 2 ^ 31⟩)).heap id) := by
  have hroom : Roomy (firstSession (Base.manager ⟨true, 2 ^ 31⟩)).heap.os
      (2 * worstOfThree.iCount * Base.growSpan (payloadUnits worstOfThree.iSize)) := ⟨fun _ => rfl, by decide⟩
  refine (testheapmgr_heapmgrbase (Nat.le_refl _) (firstSession_fresh _) rfl (by decide) (Or.inr hroom)).mono
    fun _ _ ⟨hquiet, tr, st', hfinished, hheap, hleft⟩ => ⟨hquiet hroom, tr, st', hfinished, hheap, ?_⟩
  exact hleft.resolve_right fun ⟨_, hfull⟩ => hfull hroom

end Reports

end SystemProgramming.HeapMgr.TestDriver
