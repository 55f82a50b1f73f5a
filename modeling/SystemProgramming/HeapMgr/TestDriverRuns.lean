import SystemProgramming.HeapMgr.TestDriverSpec
import Mathlib.Order.Interval.Finset.Nat

/-!
# The tests of the driver

Each loop of a test is followed through the places that are in use: the first `k`, those from `k` on, or, in the
worst case, those of one parity.  A test ends with all places empty, so that its client has freed what it was given.

* `wp_interleave`: the random tests end with all places empty.
* `wp_testWorst`: so does the worst case.
* `Tracks.freed`: then the client has freed everything.
-/

namespace SystemProgramming.HeapMgr.TestDriver

open Exec

variable {F : Type} {prog : Program F} {st₀ : Session F} {N M W : ℕ} {sizes : (ℕ → ℕ) → ℕ → ℕ} {P : Finset ℕ}
  {full : Set ℕ} {d : State F} {k n used line iRand : ℕ}

/-- Nothing is allocated at first. -/
theorem tracks_start (hset : Setting prog st₀ N M) (hheap : d.heap = st₀.heap) (hfailed : d.failed = [])
    (hlegal : ∀ i < W, 1 ≤ sizes d.aiSizes i ∧ sizes d.aiSizes i ≤ M) :
    Tracks prog st₀ N M W sizes ∅ full 0 d := by
  refine ⟨⟨[], st₀, rfl, Reach.init rfl, nofun, hheap.symm, ?_, ?_⟩, hlegal, fun _ => hfailed⟩
  · rw [hset.fresh.live]
    rfl
  · intro _ i hi
    exact absurd (mem_held.mp hi).1 (Finset.notMem_empty i)

/-- **At the end** the client has freed everything. -/
theorem Tracks.freed (h : Tracks prog st₀ N M W sizes ∅ full used d) (hused : 0 < used) (hN : used ≤ N) :
    ∃ tr st, Finished prog.mgr st₀ N M tr st ∧ st.heap = d.heap ∧ (Plenty prog.mgr st₀ N M → d.failed = []) := by
  obtain ⟨tr, st, hcount, hfollows⟩ := h.session
  rw [← hcount] at hused hN
  have hlive : st.live = [] := (Multiset.coe_eq_zero st.live).mp hfollows.live
  exact ⟨tr, st, ⟨hfollows.reach, hused, hN, hfollows.small, hlive⟩, hfollows.heap, h.quiet⟩

/-! ### Loops over the first places -/

theorem insert_univ (i : ℕ) : insert i Set.univ = (Set.univ : Set ℕ) := Set.insert_eq_of_mem (Set.mem_univ i)

theorem wp_mallocAll (h : Tracks prog st₀ N M W sizes ∅ Set.univ 0 d) (hset : Setting prog st₀ N M) (hW : n ≤ W)
    (hN : n ≤ N) :
    wp (forUp (mallocChunk prog sizes line) n) (fun _ d' =>
      Tracks prog st₀ N M W sizes (Finset.range n) Set.univ n d' ∧ Solid prog (Finset.range n) d') d := by
  refine wp_forUp (I := fun k d' => Tracks prog st₀ N M W sizes (Finset.range k) Set.univ k d' ∧
    Solid prog (Finset.range k) d') ⟨h, fun _ i hi => absurd hi (Finset.notMem_empty i)⟩ ?_
  rintro k hk d₁ ⟨h₁, hsolid⟩
  refine wp_mallocChunk h₁ hset Finset.notMem_range_self (by omega) (by omega) fun p d₂ hp hchunks h₂ => ?_
  rw [insert_univ, ← Finset.range_add_one] at h₂
  refine ⟨h₂, fun hdebug i hi => ?_⟩
  rw [hchunks]
  by_cases hik : i = k
  · rw [hik, Function.update_self]
    exact hp hdebug
  · rw [Function.update_of_ne hik]
    have hlt := Finset.mem_range.mp hi
    exact hsolid hdebug i (Finset.mem_range.mpr (by omega))

theorem wp_freeDown (h : Tracks prog st₀ N M W sizes (Finset.range n) Set.univ n d) (hset : Setting prog st₀ N M)
    (hsolid : Solid prog (Finset.range n) d) :
    wp (forDown (freeChunk prog sizes line) n) (fun _ d' => Tracks prog st₀ N M W sizes ∅ Set.univ n d') d := by
  have hloop := wp_forDown (s := d) (n := n) (x := freeChunk prog sizes line)
    (I := fun k d' => d'.apcChunks = d.apcChunks ∧ Tracks prog st₀ N M W sizes (Finset.range k) Set.univ n d')
    ⟨rfl, h⟩ ?_
  · exact hloop.mono fun _ _ => And.right
  rintro k hk d₁ ⟨hchunks, h₁⟩
  have hplace (hdebug : prog.ndebug = false) : d₁.apcChunks k ≠ null := by
    rw [hchunks]
    exact hsolid hdebug k (Finset.mem_range.mpr hk)
  have hused : 0 < n := Nat.zero_lt_of_lt hk
  refine wp_freeChunk h₁ hset (Finset.self_mem_range_succ k) (Set.mem_univ k) hplace (fun _ => hused)
    fun d₂ hchunks₂ h₂ => ?_
  rw [Finset.range_add_one, Finset.erase_insert Finset.notMem_range_self] at h₂
  exact ⟨hchunks₂.trans hchunks, h₂⟩

/-- Places from `k` on, when the place `k` is emptied. -/
theorem Ico_erase (k n : ℕ) : (Finset.Ico k n).erase k = Finset.Ico (k + 1) n := by
  refine Finset.ext fun i => ?_
  simp only [Finset.mem_erase, Finset.mem_Ico]
  omega

theorem wp_freeUp (h : Tracks prog st₀ N M W sizes (Finset.range n) Set.univ n d) (hset : Setting prog st₀ N M)
    (hsolid : Solid prog (Finset.range n) d) :
    wp (forUp (freeChunk prog sizes line) n) (fun _ d' => Tracks prog st₀ N M W sizes ∅ Set.univ n d') d := by
  have hloop := wp_forUp (s := d) (n := n) (x := freeChunk prog sizes line)
    (I := fun k d' => d'.apcChunks = d.apcChunks ∧ Tracks prog st₀ N M W sizes (Finset.Ico k n) Set.univ n d')
    ⟨rfl, by rwa [← Finset.range_eq_Ico]⟩ ?_
  · refine hloop.mono fun _ d' hd' => ?_
    rw [← Finset.Ico_self n]
    exact hd'.2
  rintro k hk d₁ ⟨hchunks, h₁⟩
  have hplace (hdebug : prog.ndebug = false) : d₁.apcChunks k ≠ null := by
    rw [hchunks]
    exact hsolid hdebug k (Finset.mem_range.mpr hk)
  have hused : 0 < n := Nat.zero_lt_of_lt hk
  refine wp_freeChunk h₁ hset (Finset.left_mem_Ico.mpr hk) (Set.mem_univ k) hplace (fun _ => hused)
    fun d₂ hchunks₂ h₂ => ?_
  rw [Ico_erase] at h₂
  exact ⟨hchunks₂.trans hchunks, h₂⟩

/-- **The loop that draws the sizes** makes them legal and changes nothing else. -/
theorem wp_drawSizes {iSize : ℕ} (hsize : 0 < iSize) :
    wp (drawSizes iSize n) (fun _ (d' : State F) =>
      d'.heap = d.heap ∧ d'.apcChunks = d.apcChunks ∧ d'.failed = d.failed ∧
      ∀ i < n, 1 ≤ d'.aiSizes i ∧ d'.aiSizes i ≤ iSize) d := by
  refine wp_forUp (I := fun k (d' : State F) => d'.heap = d.heap ∧ d'.apcChunks = d.apcChunks ∧ d'.failed = d.failed ∧
    ∀ i < k, 1 ≤ d'.aiSizes i ∧ d'.aiSizes i ≤ iSize) ⟨rfl, rfl, rfl, nofun⟩ ?_
  rintro k hk d₁ ⟨hheap, hchunks, hfailed, hlegal⟩
  rw [wp_bind]
  refine ⟨_, _, rfl, (wp_modify _).mpr ⟨hheap, hchunks, hfailed, fun i hi => ?_⟩⟩
  show 1 ≤ Function.update d₁.aiSizes k _ i ∧ Function.update d₁.aiSizes k _ i ≤ iSize
  by_cases hik : i = k
  · rw [hik, Function.update_self]
    exact ⟨Nat.le_add_left 1 _, Nat.mod_lt _ hsize⟩
  · rw [Function.update_of_ne hik]
    exact hlegal i (by omega)

/-! ### Random order -/

theorem wp_rand {Q : ℕ → State F → Prop} (h : Tracks prog st₀ N M W sizes P full used d)
    (hQ : ∀ r d', d'.apcChunks = d.apcChunks → Tracks prog st₀ N M W sizes P full used d' → Q r d') :
    wp rand Q d := by
  obtain ⟨tr, st, hcount, hfollows⟩ := h.session
  refine ⟨_, _, rfl, hQ _ _ rfl ⟨⟨tr, st, hcount, ?_⟩, h.legal, h.quiet⟩⟩
  exact ⟨hfollows.reach, hfollows.small, hfollows.heap, hfollows.live, hfollows.filled⟩

/-- **One pass** allocates in the empty place `i_rand` and empties the next one. -/
theorem wp_randomStep {lineFree : ℕ} (h : Tracks prog st₀ N M W sizes (Finset.range W) Set.univ used d)
    (hset : Setting prog st₀ N M) (hW : iRand < W) (hN : used < N) (hempty : d.apcChunks iRand = null) :
    wp (randomStep prog sizes line lineFree W iRand) (fun iRand' d' =>
      Tracks prog st₀ N M W sizes (Finset.range W) Set.univ (used + 1) d' ∧ iRand' < W ∧ d'.apcChunks iRand' = null)
      d := by
  unfold randomStep
  rw [wp_bind]
  have herased : Tracks prog st₀ N M W sizes ((Finset.range W).erase iRand) Set.univ used d :=
    h.of_held (held_erase hempty)
  refine wp_mallocChunk herased hset (Finset.notMem_erase _ _) hW hN fun p d₁ hp hchunks h₁ => ?_
  rw [Finset.insert_erase (Finset.mem_range.mpr hW), insert_univ] at h₁
  rw [wp_bind]
  refine wp_rand h₁ fun r d₂ hchunks₂ h₂ => ?_
  have hlt : r % W < W := Nat.mod_lt r (by omega)
  rw [wp_bind]
  refine wp_releaseChunk h₂ hset (Finset.mem_range.mpr hlt) (Set.mem_univ _) fun d₃ hchunks₃ h₃ => ?_
  have hnull : d₃.apcChunks (r % W) = null := by rw [hchunks₃, Function.update_self]
  exact (wp_pure _).mpr ⟨h₃.of_held (held_erase hnull).symm, hlt, hnull⟩

/-- **The random tests** end with all places empty. -/
theorem wp_interleave {lineFree lineRest : ℕ} (hset : Setting prog st₀ N M) (hN : n ≤ N)
    (h : Tracks prog st₀ N M (n / 3 + 1) sizes ∅ Set.univ 0 d) (hchunks : ∀ i, d.apcChunks i = null) :
    wp (interleave prog sizes line lineFree lineRest n)
      (fun _ d' => Tracks prog st₀ N M (n / 3 + 1) sizes ∅ Set.univ n d') d := by
  have hheld (P : Finset ℕ) : held P d = ∅ :=
    Finset.filter_eq_empty_iff.mpr fun i _ => not_not.mpr (hchunks i)
  have hstart : Tracks prog st₀ N M (n / 3 + 1) sizes (Finset.range (n / 3 + 1)) Set.univ 0 d :=
    h.of_held ((hheld _).trans (hheld ∅).symm)
  unfold interleave
  rw [wp_bind]
  have hloop := wp_repeatWith (s := d) (n := n) (a := 0)
    (x := randomStep prog sizes line lineFree (n / 3 + 1))
    (I := fun k iRand d' => Tracks prog st₀ N M (n / 3 + 1) sizes (Finset.range (n / 3 + 1)) Set.univ k d' ∧
      iRand < n / 3 + 1 ∧ d'.apcChunks iRand = null)
    ⟨hstart, Nat.succ_pos _, hchunks 0⟩ fun k hk iRand d₁ ⟨h₁, hlt, hnull⟩ =>
      wp_randomStep h₁ hset hlt (by omega) hnull
  refine hloop.mono fun iRand d₁ ⟨h₁, _⟩ => ?_
  -- the chunks that are left
  have hrest := wp_forUp (s := d₁) (n := n / 3 + 1) (x := releaseChunk prog sizes lineRest)
    (I := fun k d' => Tracks prog st₀ N M (n / 3 + 1) sizes (Finset.Ico k (n / 3 + 1)) Set.univ n d')
    (by rwa [← Finset.range_eq_Ico]) fun k hk d₂ h₂ => ?_
  · refine hrest.mono fun _ d' hd' => ?_
    rw [← Finset.Ico_self (n / 3 + 1)]
    exact hd'
  · refine wp_releaseChunk h₂ hset (Finset.left_mem_Ico.mpr hk) (Set.mem_univ k) fun d₃ _ h₃ => ?_
    rwa [Ico_erase] at h₃

/-! ### The worst case -/

/-- The places of the chunks that are filled. -/
def evens : Set ℕ := { i | i % 2 = 0 }

theorem Tracks.mono {full' : Set ℕ} (h : Tracks prog st₀ N M W sizes P full used d) (hsub : full' ⊆ full) :
    Tracks prog st₀ N M W sizes P full' used d := by
  obtain ⟨tr, st, hcount, hfollows⟩ := h.session
  refine ⟨⟨tr, st, hcount, hfollows.reach, hfollows.small, hfollows.heap, hfollows.live, ?_⟩, h.legal, h.quiet⟩
  exact fun hdebug i hi hfull => hfollows.filled hdebug i hi (hsub hfull)

variable {iSize : ℕ}

theorem worstSize_legal (hsize : 0 < iSize) (a : ℕ → ℕ) (i : ℕ) (hi : i < n) :
    1 ≤ worstSize n iSize a i ∧ worstSize n iSize a i ≤ iSize := by
  unfold worstSize
  split_ifs
  · have hlt : i * iSize / n < iSize := Nat.div_lt_of_lt_mul (Nat.mul_lt_mul_of_pos_right hi hsize)
    exact ⟨Nat.le_add_left 1 _, hlt⟩
  · exact ⟨Nat.le_refl 1, hsize⟩

/-- **One pass** fills the place `2 * k` and allocates a small chunk behind it. -/
theorem wp_worstPair (h : Tracks prog st₀ N M n (worstSize n iSize) (Finset.range (2 * k)) evens (2 * k) d)
    (hset : Setting prog st₀ N M) (hN : n ≤ N) (hk : 2 * k < n) :
    wp (worstPair prog n iSize k) (fun _ d' =>
      Tracks prog st₀ N M n (worstSize n iSize) (Finset.range (min (2 * (k + 1)) n)) evens (min (2 * (k + 1)) n) d' ∧
      (prog.ndebug = false → d'.apcChunks (2 * k) ≠ null) ∧ ∀ i < 2 * k, d'.apcChunks i = d.apcChunks i) d := by
  unfold worstPair
  rw [wp_bind]
  refine wp_allocate h hset Finset.notMem_range_self hk (by omega) fun p d₁ hnull hchunks h₁ => ?_
  have hsolid (hdebug : prog.ndebug = false) : d₁.apcChunks (2 * k) ≠ null := by
    rw [hchunks, Function.update_self]
    exact hnull (hset.granted.resolve_left (by rw [hdebug]; exact Bool.false_ne_true))
  have hbelow : ∀ i < 2 * k, d₁.apcChunks i = d.apcChunks i := fun i hi => by
    rw [hchunks, Function.update_of_ne (Nat.ne_of_lt hi)]
  rw [wp_bind]
  refine wp_assure h₁ (fun hplenty => Or.inr (hnull hplenty)) fun d₂ hchunks₂ h₂ => ?_
  rw [← hchunks₂] at hsolid hbelow
  rw [wp_bind]
  refine (wp_fillChunk h₂ hset (Finset.mem_insert_self _ _) hsolid).mono fun _ d₃ ⟨hchunks₃, h₃⟩ => ?_
  have heven : 2 * k ∈ evens := Nat.mul_mod_right 2 k
  rw [← hchunks₃] at hsolid hbelow
  rw [Set.insert_eq_of_mem heven, ← Finset.range_add_one] at h₃
  rw [wp_when]
  refine ⟨fun hmore => ?_, fun hlast => ?_⟩
  · have hodd : evens \ {2 * k + 1} = evens :=
      Set.sdiff_singleton_eq_self fun hin : (2 * k + 1) % 2 = 0 => by omega
    rw [wp_bind]
    refine wp_allocate h₃ hset Finset.notMem_range_self hmore (by omega) fun q d₄ _ hchunks₄ h₄ => ?_
    rw [hodd, ← Finset.range_add_one] at h₄
    rw [Nat.min_eq_left (by omega)]
    refine (wp_pure ()).mpr ⟨h₄, fun hdebug => ?_, fun i hi => ?_⟩
    · rw [hchunks₄, Function.update_of_ne (by omega)]
      exact hsolid hdebug
    · rw [hchunks₄, Function.update_of_ne (by omega)]
      exact hbelow i hi
  · rw [show min (2 * (k + 1)) n = 2 * k + 1 by omega]
    exact ⟨h₃, hsolid, hbelow⟩

theorem wp_worstFill (h : Tracks prog st₀ N M n (worstSize n iSize) ∅ evens 0 d) (hset : Setting prog st₀ N M)
    (hN : n ≤ N) :
    wp (forUp (worstPair prog n iSize) ((n + 1) / 2)) (fun _ d' =>
      Tracks prog st₀ N M n (worstSize n iSize) (Finset.range n) evens n d' ∧
      (prog.ndebug = false → ∀ i < n, i % 2 = 0 → d'.apcChunks i ≠ null)) d := by
  have hloop := wp_forUp (s := d) (n := (n + 1) / 2) (x := worstPair prog n iSize)
    (I := fun k d' =>
      Tracks prog st₀ N M n (worstSize n iSize) (Finset.range (min (2 * k) n)) evens (min (2 * k) n) d' ∧
      (prog.ndebug = false → ∀ i < 2 * k, i % 2 = 0 → d'.apcChunks i ≠ null))
    ⟨by rwa [Nat.mul_zero, Nat.zero_min], fun _ i hi => absurd hi (Nat.not_lt_zero i)⟩ ?_
  · refine hloop.mono fun _ d₁ ⟨h₁, hsolid⟩ => ?_
    rw [show min (2 * ((n + 1) / 2)) n = n by omega] at h₁
    exact ⟨h₁, fun hdebug i hi => hsolid hdebug i (by omega)⟩
  · rintro k hk d₁ ⟨h₁, hsolid⟩
    rw [show min (2 * k) n = 2 * k by omega] at h₁
    refine (wp_worstPair h₁ hset hN (by omega)).mono fun _ d₂ ⟨h₂, hnew, hbelow⟩ => ⟨h₂, fun hdebug i hi heven => ?_⟩
    by_cases hik : i = 2 * k
    · rw [hik]
      exact hnew hdebug
    · have hlt : i < 2 * k := by omega
      rw [hbelow i hlt]
      exact hsolid hdebug i hlt heven

/-- The odd places, and the even ones below `2 * k`. -/
def oddsBelow (n k : ℕ) : Finset ℕ := (Finset.range n).filter fun i => i % 2 = 1 ∨ i < 2 * k

/-- The odd places, and the even ones from `2 * k` on. -/
def oddsFrom (n k : ℕ) : Finset ℕ := (Finset.range n).filter fun i => i % 2 = 1 ∨ 2 * k ≤ i

/-- The chunks of growing sizes are freed, the largest first. -/
theorem wp_worstFree (h : Tracks prog st₀ N M n (worstSize n iSize) (Finset.range n) evens n d)
    (hset : Setting prog st₀ N M) (hsolid : prog.ndebug = false → ∀ i < n, i % 2 = 0 → d.apcChunks i ≠ null) :
    wp (forDown (fun k => freeChunk prog (worstSize n iSize) line (2 * k)) ((n + 1) / 2)) (fun _ d' =>
      Tracks prog st₀ N M n (worstSize n iSize) (oddsFrom n ((n + 1) / 2)) evens n d') d := by
  have hall : oddsBelow n ((n + 1) / 2) = Finset.range n :=
    Finset.filter_true_of_mem fun i hi => by
      have hlt := Finset.mem_range.mp hi
      omega
  have hodds : oddsBelow n 0 = oddsFrom n ((n + 1) / 2) :=
    Finset.filter_congr fun i hi => by
      have hlt := Finset.mem_range.mp hi
      omega
  have hloop := wp_forDown (s := d) (n := (n + 1) / 2)
    (x := fun k => freeChunk prog (worstSize n iSize) line (2 * k))
    (I := fun k d' => d'.apcChunks = d.apcChunks ∧
      Tracks prog st₀ N M n (worstSize n iSize) (oddsBelow n k) evens n d')
    ⟨rfl, by rwa [hall]⟩ ?_
  · refine hloop.mono fun _ d₁ ⟨_, h₁⟩ => ?_
    rwa [hodds] at h₁
  · rintro k hk d₁ ⟨hchunks, h₁⟩
    have hplace (hdebug : prog.ndebug = false) : d₁.apcChunks (2 * k) ≠ null := by
      rw [hchunks]
      exact hsolid hdebug (2 * k) (by omega) (Nat.mul_mod_right 2 k)
    have hmem : 2 * k ∈ oddsBelow n (k + 1) :=
      Finset.mem_filter.mpr ⟨Finset.mem_range.mpr (by omega), Or.inr (by omega)⟩
    have herase : (oddsBelow n (k + 1)).erase (2 * k) = oddsBelow n k := by
      refine Finset.ext fun i => ?_
      simp only [oddsBelow, Finset.mem_erase, Finset.mem_filter, Finset.mem_range]
      omega
    refine wp_freeChunk h₁ hset hmem (Nat.mul_mod_right 2 k) hplace (fun _ => by omega) fun d₂ hchunks₂ h₂ => ?_
    rw [herase] at h₂
    exact ⟨hchunks₂.trans hchunks, h₂⟩

/-- Chunks of the same sizes are allocated again. -/
theorem wp_worstMalloc (h : Tracks prog st₀ N M n (worstSize n iSize) (oddsFrom n ((n + 1) / 2)) ∅ n d)
    (hset : Setting prog st₀ N M) (hN : 2 * n ≤ N) :
    wp (forDown (worstAgain prog n iSize) ((n + 1) / 2)) (fun _ d' =>
      Tracks prog st₀ N M n (worstSize n iSize) (Finset.range n) ∅ (n + (n + 1) / 2) d') d := by
  have hall : oddsFrom n 0 = Finset.range n := Finset.filter_true_of_mem fun i _ => Or.inr (Nat.zero_le i)
  have hloop := wp_forDown (s := d) (n := (n + 1) / 2) (x := worstAgain prog n iSize)
    (I := fun k d' => k ≤ (n + 1) / 2 →
      Tracks prog st₀ N M n (worstSize n iSize) (oddsFrom n k) ∅ (n + ((n + 1) / 2 - k)) d')
    (fun _ => by rwa [Nat.sub_self, Nat.add_zero]) ?_
  · refine hloop.mono fun _ d₁ h₁ => ?_
    rw [← hall]
    exact h₁ (Nat.zero_le _)
  · intro k hk d₁ h₁
    have hout : 2 * k ∉ oddsFrom n (k + 1) := by
      simp only [oddsFrom, Finset.mem_filter, Finset.mem_range]
      omega
    have hinsert : insert (2 * k) (oddsFrom n (k + 1)) = oddsFrom n k := by
      refine Finset.ext fun i => ?_
      simp only [oddsFrom, Finset.mem_insert, Finset.mem_filter, Finset.mem_range]
      omega
    unfold worstAgain
    rw [wp_bind]
    refine wp_allocate (h₁ hk) hset hout (by omega) (by omega) fun p d₂ hnull _ h₂ => ?_
    refine wp_assure h₂ hnull fun d₃ _ h₃ => ?_
    intro _
    rw [hinsert, Set.empty_sdiff, show n + ((n + 1) / 2 - (k + 1)) + 1 = n + ((n + 1) / 2 - k) by omega] at h₃
    exact h₃

/-- **The worst case** ends with all places empty. -/
theorem wp_testWorst (h : Tracks prog st₀ N M n (worstSize n iSize) ∅ evens 0 d) (hset : Setting prog st₀ N M)
    (hN : 2 * n ≤ N) :
    wp (testWorst prog n iSize)
      (fun _ d' => Tracks prog st₀ N M n (worstSize n iSize) ∅ ∅ (n + (n + 1) / 2) d') d := by
  unfold testWorst
  rw [wp_bind]
  refine (wp_worstFill h hset (by omega)).mono fun _ d₁ ⟨h₁, hsolid⟩ => ?_
  rw [wp_bind]
  refine (wp_worstFree h₁ hset hsolid).mono fun _ d₂ h₂ => ?_
  rw [wp_bind]
  refine (wp_worstMalloc (h₂.mono (Set.empty_subset _)) hset hN).mono fun _ d₃ h₃ => ?_
  have hloop := wp_forUp (s := d₃) (n := n) (x := fun i => do
      let p ← chunk i
      heapmgrFree prog p)
    (I := fun k d' => Tracks prog st₀ N M n (worstSize n iSize) (Finset.Ico k n) ∅ (n + (n + 1) / 2) d')
    (by rwa [← Finset.range_eq_Ico]) fun k hk d₄ h₄ => ?_
  · refine hloop.mono fun _ d₄ h₄ => ?_
    rw [← Finset.Ico_self n]
    exact h₄
  · refine wp_free h₄ hset (Finset.left_mem_Ico.mpr hk) (fun _ => by omega) fun d₅ _ h₅ => ?_
    rwa [Ico_erase] at h₅

end SystemProgramming.HeapMgr.TestDriver
