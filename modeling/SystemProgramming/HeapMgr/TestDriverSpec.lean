import SystemProgramming.HeapMgr.TestDriver
import Mathlib.Data.Finset.Basic
import Mathlib.Data.Finset.Range
import Mathlib.Data.Set.Insert

/-!
# The test driver is a correct client

Every call that a test makes is a step of a correct client, over any manager that serves such clients (`Reliable`).
What the tests have in common is proved of one chunk at a time: the places in use are followed through the calls
(`Tracks`), so that the loops of a test only say which places these are.

* `Finished`: what is to be shown of a run, and `Finished.client`, that it is one of a correct client.
* `wp_mallocChunk`, `wp_freeChunk`: a chunk is allocated and filled, or checked and freed.
* `wp_releaseChunk`: a place is emptied.
-/

namespace SystemProgramming.HeapMgr.TestDriver

open Exec

variable {F : Type}

/-- A manager that serves every correct client. -/
structure Reliable (mgr : Manager F) : Prop where
  returns : ∀ {tr st}, Reach (clientSys mgr) tr st → CallsReturn mgr st
  booted : ∀ {tr st}, Reach (clientSys mgr) tr st → tr ≠ [] → ¬ st.Fresh mgr
  nodup : ∀ {tr st}, Reach (clientSys mgr) tr st → st.live.Nodup
  disjoint : ∀ {tr st}, Reach (clientSys mgr) tr st → ∀ a ∈ st.live, ∀ a' ∈ st.live, ∀ u, a.Covers u →
    a'.Covers u → a = a'
  reads : ∀ {tr st}, Reach (clientSys mgr) tr st → ∀ a ∈ st.live, ∀ u, a.Covers u → ∀ v,
    st.written u = some v → st.heap.mem u = v
  free_null : ∀ {tr st}, Reach (clientSys mgr) tr st → tr ≠ [] → mgr.free null st.heap = .ok () st.heap

/-- The sessions of a correct client that starts from `st₀`. -/
def sessionsFrom (mgr : Manager F) (st₀ : Session F) : Sys (Session F) Call where
  init := (· = st₀)
  step := Session.Step (3 * 10 ^ 8) mgr

def isMalloc : Call → Bool
  | .malloc _ => true
  | .free _ => false
  | .write _ _ => false

/-- The first `N` calls of `heapmgr_malloc` are granted when none asks for more than `M` bytes. -/
def Plenty (mgr : Manager F) (st₀ : Session F) (N M : ℕ) : Prop :=
  ∀ tr st size p heap, Reach (sessionsFrom mgr st₀) tr st → tr.countP isMalloc < N → (∀ n, .malloc n ∈ tr → n ≤ M) →
    1 ≤ size → size ≤ M → mgr.malloc size st.heap = .ok p heap → p ≠ null

/-- A correct client that starts from `st₀` has come to `st`: it has made between one and `N` calls of
`heapmgr_malloc`, none for more than `M` bytes, and has freed whatever it was given. -/
structure Finished (mgr : Manager F) (st₀ : Session F) (N M : ℕ) (tr : List Call) (st : Session F) : Prop where
  reach : Reach (sessionsFrom mgr st₀) tr st
  count_pos : 0 < tr.countP isMalloc
  count_le : tr.countP isMalloc ≤ N
  small : ∀ n, .malloc n ∈ tr → n ≤ M
  freed : st.live = []

/-! ### What is followed through a test -/

variable (prog : Program F) (st₀ : Session F) (N M W : ℕ) (sizes : (ℕ → ℕ) → ℕ → ℕ)

/-- The allocation in the place `i`. -/
def allocOf (d : State F) (i : ℕ) : Alloc := ⟨d.apcChunks i, sizes d.aiSizes i⟩

/-- The places of `P` that hold a chunk. -/
def held (P : Finset ℕ) (d : State F) : Finset ℕ := P.filter fun i => d.apcChunks i ≠ null

/-- The first `n` bytes behind `p` were last written with the digit of the place `i`. -/
def Filled (written : ℕ → Option Cell) (p i n : ℕ) : Prop :=
  ∀ col < n, ∃ v, written (p + col / 16) = some v ∧ prog.bytes.get v (col % 16) = digit i

/-- The driver's state as that of a session: the live allocations are the chunks in the places of `P`, and those
in the places of `full` are filled. -/
structure Follows (P : Finset ℕ) (full : Set ℕ) (d : State F) (tr : List Call) (st : Session F) : Prop where
  reach : Reach (sessionsFrom prog.mgr st₀) tr st
  small : ∀ n, .malloc n ∈ tr → n ≤ M
  heap : st.heap = d.heap
  live : (st.live : Multiset Alloc) = (held P d).val.map (allocOf sizes d)
  filled : prog.ndebug = false → ∀ i ∈ held P d, i ∈ full →
    Filled prog st.written (d.apcChunks i) i (sizes d.aiSizes i)

/-- What holds between the calls of a test: it is a session, after `used` allocations; the sizes that it takes are
legal; and when the manager grants everything, no check has failed. -/
structure Tracks (P : Finset ℕ) (full : Set ℕ) (used : ℕ) (d : State F) : Prop where
  session : ∃ tr st, tr.countP isMalloc = used ∧ Follows prog st₀ M sizes P full d tr st
  legal : ∀ i < W, 1 ≤ sizes d.aiSizes i ∧ sizes d.aiSizes i ≤ M
  quiet : Plenty prog.mgr st₀ N M → d.failed = []

/-- In a build that looks at the chunks, every place of `P` holds one. -/
def Solid (P : Finset ℕ) (d : State F) : Prop := prog.ndebug = false → ∀ i ∈ P, d.apcChunks i ≠ null

/-- What a run of the driver rests on. -/
structure Setting : Prop where
  reliable : Reliable prog.mgr
  fresh : st₀.Fresh prog.mgr
  ready : st₀.heap.os.ready = true
  size_le : M ≤ 3 * 10 ^ 8
  granted : prog.ndebug = true ∨ Plenty prog.mgr st₀ N M

variable {prog st₀ N M W sizes} {P : Finset ℕ} {full full' : Set ℕ} {d d' : State F} {tr : List Call} {st : Session F}
  {i j n p used line : ℕ}

theorem mem_held : i ∈ held P d ↔ i ∈ P ∧ d.apcChunks i ≠ null := Finset.mem_filter

theorem reach_client {mgr : Manager F} (hfresh : st₀.Fresh mgr) (h : Reach (sessionsFrom mgr st₀) tr st) :
    Reach (clientSys mgr) tr st := by
  induction h with
  | init h =>
    rw [show _ = st₀ from h]
    exact Reach.init hfresh
  | step _ hstep ih => exact ih.step hstep

theorem Finished.client {mgr : Manager F} (h : Finished mgr st₀ N M tr st) (hfresh : st₀.Fresh mgr) :
    Reach (clientSys mgr) tr st := reach_client hfresh h.reach

theorem Finished.ne_nil {mgr : Manager F} (h : Finished mgr st₀ N M tr st) : tr ≠ [] := by
  rintro rfl
  exact Nat.lt_irrefl 0 h.count_pos

namespace Follows

theorem client (h : Follows prog st₀ M sizes P full d tr st) (hset : Setting prog st₀ N M) :
    Reach (clientSys prog.mgr) tr st := reach_client hset.fresh h.reach

theorem mem_live (h : Follows prog st₀ M sizes P full d tr st) (hi : i ∈ held P d) : allocOf sizes d i ∈ st.live := by
  have hmem : allocOf sizes d i ∈ (st.live : Multiset Alloc) := by
    rw [h.live]
    exact Multiset.mem_map_of_mem _ hi
  exact hmem

/-- Different places hold different chunks. -/
theorem eq_of_alloc (h : Follows prog st₀ M sizes P full d tr st) (hset : Setting prog st₀ N M) (hi : i ∈ held P d)
    (hj : j ∈ held P d) (heq : allocOf sizes d i = allocOf sizes d j) : i = j := by
  have hnodup : (st.live : Multiset Alloc).Nodup := hset.reliable.nodup (h.client hset)
  rw [h.live] at hnodup
  exact Multiset.inj_on_of_nodup_map hnodup i hi j hj heq

end Follows

/-- A byte below the size lies in the payload. -/
theorem allocOf_covers {col : ℕ} (hcol : col < sizes d.aiSizes i) :
    (allocOf sizes d i).Covers (d.apcChunks i + col / 16) := by
  unfold Alloc.Covers allocOf payloadUnits
  show d.apcChunks i ≤ d.apcChunks i + col / 16 ∧
    d.apcChunks i + col / 16 < d.apcChunks i + (sizes d.aiSizes i + 15) / 16
  omega

/-! ### One allocation -/

/-- A call of `heapmgr_malloc` returns, and it does not return `NULL` when the manager grants everything. -/
theorem Follows.malloc_returns (h : Follows prog st₀ M sizes P full d tr st) (hset : Setting prog st₀ N M)
    (hcount : tr.countP isMalloc < N) (hpos : 1 ≤ n) (hle : n ≤ M) :
    ∃ p heap, prog.mgr.malloc n d.heap = .ok p heap ∧ (Plenty prog.mgr st₀ N M → p ≠ null) := by
  have hreach := h.client hset
  have hlegal := Nat.le_trans hle hset.size_le
  rw [← h.heap]
  rcases (hset.reliable.returns hreach).1 n hpos hlegal with ⟨p, heap, hcall⟩ | ⟨hfresh, hready, -⟩
  · exact ⟨p, heap, hcall, fun hplenty => hplenty tr st n p heap h.reach hcount h.small hpos hle hcall⟩
  · exfalso
    by_cases htr : tr = []
    · subst htr
      have hst : st = st₀ := by
        generalize hnil : ([] : List Call) = l at hreach
        have hr := h.reach
        rw [hnil] at hr
        cases hr with
        | init hinit => exact hinit
        | step _ _ => cases List.append_ne_nil_of_right_ne_nil _ (List.cons_ne_nil _ _) hnil.symm
      rw [hst, hset.ready] at hready
      cases hready
    · exact hset.reliable.booted hreach htr hfresh

/-- The chunks of places that are left alone stay the same. -/
theorem map_allocOf (S : Finset ℕ) (hchunks : ∀ j ∈ S, d'.apcChunks j = d.apcChunks j)
    (hsizes : d'.aiSizes = d.aiSizes) :
    S.val.map (allocOf sizes d') = S.val.map (allocOf sizes d) := by
  refine Multiset.map_congr rfl fun j hj => ?_
  unfold allocOf
  rw [hchunks j hj, hsizes]

/-- **After `heapmgr_malloc`** the place `i` holds what was returned. -/
theorem Follows.malloc {heap : Heap F} (h : Follows prog st₀ M sizes P full d tr st) (hset : Setting prog st₀ N M)
    (hi : i ∉ P) (hpos : 1 ≤ sizes d.aiSizes i) (hle : sizes d.aiSizes i ≤ M)
    (hcall : prog.mgr.malloc (sizes d.aiSizes i) d.heap = .ok p heap) :
    ∃ st', Follows prog st₀ M sizes (insert i P) (full \ {i})
      { d with heap := heap, apcChunks := Function.update d.apcChunks i p }
      (tr ++ [.malloc (sizes d.aiSizes i)]) st' := by
  have hstep : Session.Step (3 * 10 ^ 8) prog.mgr st (.malloc (sizes d.aiSizes i))
      (st.afterMalloc (sizes d.aiSizes i) p heap) :=
    Session.Step.malloc hpos (Nat.le_trans hle hset.size_le) (by rw [h.heap]; exact hcall)
  have hreach := h.reach.step hstep
  have hsmall : ∀ n, Call.malloc n ∈ tr ++ [.malloc (sizes d.aiSizes i)] → n ≤ M := by
    intro n hn
    rcases List.mem_append.mp hn with hold | hnew
    · exact h.small n hold
    · cases List.mem_singleton.mp hnew
      exact hle
  let d' : State F := { d with heap := heap, apcChunks := Function.update d.apcChunks i p }
  have hother (j : ℕ) (hj : j ∈ P) : d'.apcChunks j = d.apcChunks j :=
    Function.update_of_ne (fun hji : j = i => hi (hji ▸ hj)) _ _
  have hnew : d'.apcChunks i = p := Function.update_self ..
  have hheld (j : ℕ) (hj : j ∈ P) : j ∈ held (insert i P) d' ↔ j ∈ held P d := by
    rw [mem_held, mem_held, hother j hj]
    exact ⟨fun hin => ⟨hj, hin.2⟩, fun hin => ⟨Finset.mem_insert_of_mem hj, hin.2⟩⟩
  refine ⟨_, hreach, hsmall, ?_, ?_, fun hdebug j hj hfull => ?_⟩
  · unfold Session.afterMalloc
    split_ifs <;> rfl
  · by_cases hp : p = null
    · have hsame : held (insert i P) d' = held P d := by
        refine Finset.ext fun j => ?_
        by_cases hj : j ∈ P
        · exact hheld j hj
        · have hnot : j ∉ held P d := fun hin => hj (mem_held.mp hin).1
          refine iff_of_false (fun hin => ?_) hnot
          obtain ⟨hmem, hne⟩ := mem_held.mp hin
          rcases Finset.mem_insert.mp hmem with rfl | hold
          · exact hne (hnew.trans hp)
          · exact hj hold
      rw [Session.afterMalloc, if_pos hp]
      show (st.live : Multiset Alloc) = (held (insert i P) d').val.map (allocOf sizes d')
      rw [hsame, map_allocOf _ (fun j hj => hother j (mem_held.mp hj).1) rfl]
      exact h.live
    · have hout : i ∉ held P d := fun hin => hi (mem_held.mp hin).1
      have hsame : held (insert i P) d' = insert i (held P d) := by
        refine Finset.ext fun j => ?_
        by_cases hj : j ∈ P
        · have hne : j ≠ i := fun hji => hi (hji ▸ hj)
          rw [hheld j hj, Finset.mem_insert, or_iff_right hne]
        · rw [mem_held, Finset.mem_insert, Finset.mem_insert, mem_held, or_iff_left hj]
          refine ⟨fun hin => Or.inl hin.1, fun hin => ?_⟩
          rcases hin with rfl | ⟨hold, -⟩
          · exact ⟨rfl, by rw [hnew]; exact hp⟩
          · exact absurd hold hj
      rw [Session.afterMalloc, if_neg hp]
      show ((⟨p, sizes d.aiSizes i⟩ :: st.live : List Alloc) : Multiset Alloc)
        = (held (insert i P) d').val.map (allocOf sizes d')
      rw [hsame, Finset.insert_val_of_notMem hout, Multiset.map_cons,
        map_allocOf _ (fun j hj => hother j (mem_held.mp hj).1) rfl, ← h.live, ← Multiset.cons_coe]
      congr 1
      show (⟨p, sizes d.aiSizes i⟩ : Alloc) = ⟨d'.apcChunks i, sizes d.aiSizes i⟩
      rw [hnew]
  · obtain ⟨hjfull, hji⟩ := hfull
    have hjP : j ∈ P := (Finset.mem_insert.mp (mem_held.mp hj).1).resolve_left hji
    have hjheld := (hheld j hjP).mp hj
    have hfilled := h.filled hdebug j hjheld hjfull
    show Filled prog _ (d'.apcChunks j) j (sizes d.aiSizes j)
    rw [hother j hjP]
    intro col hcol
    obtain ⟨v, hv, hget⟩ := hfilled col hcol
    refine ⟨v, ?_, hget⟩
    rw [Session.afterMalloc] at hreach ⊢
    split_ifs at hreach ⊢ with hp
    · exact hv
    · -- the new chunk covers no unit of an old one
      have hclient := reach_client hset.fresh hreach
      have hold := h.mem_live hjheld
      have hnodup := hset.reliable.nodup hclient
      have hnot : ¬ Alloc.Covers ⟨p, sizes d.aiSizes i⟩ (d.apcChunks j + col / 16) := by
        intro hcovers
        have heq := hset.reliable.disjoint hclient _ List.mem_cons_self _ (List.mem_cons_of_mem _ hold) _ hcovers
          (allocOf_covers hcol)
        rw [← heq] at hold
        exact (List.nodup_cons.mp hnodup).1 hold
      exact (if_neg hnot).trans hv

/-- **`apc_chunks[i] = heapmgr_malloc(...)`** for a place that is not in use. -/
theorem wp_allocate {Q : ℕ → State F → Prop} (h : Tracks prog st₀ N M W sizes P full used d)
    (hset : Setting prog st₀ N M) (hi : i ∉ P) (hW : i < W) (hN : used < N)
    (hQ : ∀ p d', (Plenty prog.mgr st₀ N M → p ≠ null) → d'.apcChunks = Function.update d.apcChunks i p →
      Tracks prog st₀ N M W sizes (insert i P) (full \ {i}) (used + 1) d' → Q p d') :
    wp (allocate prog sizes i) Q d := by
  obtain ⟨tr, st, hcount, hfollows⟩ := h.session
  obtain ⟨hpos, hle⟩ := h.legal i hW
  obtain ⟨p, heap, hcall, hnull⟩ := hfollows.malloc_returns hset (by rw [hcount]; exact hN) hpos hle
  obtain ⟨st', hfollows'⟩ := hfollows.malloc hset hi hpos hle hcall
  unfold allocate heapmgrMalloc setChunk
  simp only [wp_bind, wp_reads, wp_zoom]
  rw [wp_iff_of_ok hcall, wp_modify, wp_pure]
  refine hQ p _ hnull rfl ⟨⟨_, st', ?_, hfollows'⟩, h.legal, h.quiet⟩
  rw [List.countP_append, hcount]
  rfl

/-! ### Filling and checking a chunk -/

theorem wp_store {Q : Unit → State F → Prop} {col : ℕ} {c : UInt8} (hp : p ≠ null) :
    wp (store prog p col c) Q d ↔ Q () { d with heap := stored prog d.heap p col c } := wp_iff_of_ok (if_neg hp)

theorem wp_load {Q : UInt8 → State F → Prop} {col : ℕ} (hp : p ≠ null) :
    wp (load prog p col) Q d ↔ Q (prog.bytes.get (d.heap.mem (p + col / 16)) (col % 16)) d := wp_iff_of_ok (if_neg hp)

/-- **After `p[col] = c`** one more byte of the chunk holds its digit, and the other chunks are as they were. -/
theorem Follows.store {col : ℕ} (h : Follows prog st₀ M sizes P full d tr st) (hset : Setting prog st₀ N M)
    (hi : i ∈ held P d) (hout : i ∉ full) (hcol : col < sizes d.aiSizes i)
    (hfilled : Filled prog st.written (d.apcChunks i) i col) :
    ∃ call st', isMalloc call = false ∧
      Follows prog st₀ M sizes P full { d with heap := stored prog d.heap (d.apcChunks i) col (digit i) }
        (tr ++ [call]) st' ∧
      Filled prog st'.written (d.apcChunks i) i (col + 1) := by
  have hreads := hset.reliable.reads (h.client hset) _ (h.mem_live hi)
  have hcovers := allocOf_covers hcol
  have hstep : Session.Step (3 * 10 ^ 8) prog.mgr st (.write (d.apcChunks i + col / 16)
      (prog.bytes.set (st.heap.mem (d.apcChunks i + col / 16)) (col % 16) (digit i))) _ :=
    Session.Step.write (h.mem_live hi) hcovers
  refine ⟨_, _, rfl, ⟨h.reach.step hstep, fun n hn => ?_, ?_, h.live, fun hdebug j hj hjfull => ?_⟩, ?_⟩
  · rcases List.mem_append.mp hn with hold | hnew
    · exact h.small n hold
    · cases List.mem_singleton.mp hnew
  · show _ = stored prog d.heap _ _ _
    rw [← h.heap]
    rfl
  · intro col' hcol'
    obtain ⟨w, hw, hget⟩ := h.filled hdebug j hj hjfull col' hcol'
    refine ⟨w, ?_, hget⟩
    show Function.update st.written _ _ _ = some w
    rw [Function.update_of_ne ?_]
    · exact hw
    · -- chunks of different places share no unit
      intro hunit
      have hcovers' := allocOf_covers hcol'
      rw [hunit] at hcovers'
      have heq := hset.reliable.disjoint (h.client hset) _ (h.mem_live hj) _ (h.mem_live hi) _ hcovers' hcovers
      exact hout (h.eq_of_alloc hset hj hi heq ▸ hjfull)
  · intro col' hcol'
    by_cases hunit : d.apcChunks i + col' / 16 = d.apcChunks i + col / 16
    · refine ⟨_, by rw [hunit]; exact Function.update_self .., ?_⟩
      rw [prog.bytes.get_set _ _ _ _ (Nat.mod_lt _ (by decide)) (Nat.mod_lt _ (by decide))]
      split_ifs with hbyte
      · rfl
      · have hlt : col' < col := by
          have hne : col' ≠ col := fun heq => hbyte (by rw [heq])
          omega
        obtain ⟨w, hw, hget⟩ := hfilled col' hlt
        rw [hunit] at hw
        rw [hreads _ hcovers w hw]
        exact hget
    · have hlt : col' < col := by
        have hne : col' ≠ col := fun heq => hunit (by rw [heq])
        omega
      obtain ⟨w, hw, hget⟩ := hfilled col' hlt
      exact ⟨w, (Function.update_of_ne hunit _ _).trans hw, hget⟩

/-- A chunk that is filled counts as full. -/
theorem Follows.refill (h : Follows prog st₀ M sizes P (full \ {i}) d tr st)
    (hfilled : prog.ndebug = false → Filled prog st.written (d.apcChunks i) i (sizes d.aiSizes i)) :
    Follows prog st₀ M sizes P (insert i full) d tr st where
  reach := h.reach
  small := h.small
  heap := h.heap
  live := h.live
  filled hdebug j hj hjfull := by
    by_cases hji : j = i
    · rw [hji]
      exact hfilled hdebug
    · exact h.filled hdebug j hj ⟨(Set.mem_insert_iff.mp hjfull).resolve_left hji, hji⟩

/-- **The loop that fills a chunk.** -/
theorem wp_fillChunk (h : Tracks prog st₀ N M W sizes P (full \ {i}) used d) (hset : Setting prog st₀ N M) (hi : i ∈ P)
    (hsolid : prog.ndebug = false → d.apcChunks i ≠ null) :
    wp (fillChunk prog sizes i)
      (fun _ d' => d'.apcChunks = d.apcChunks ∧ Tracks prog st₀ N M W sizes P (insert i full) used d') d := by
  obtain ⟨tr, st, hcount, hfollows⟩ := h.session
  unfold fillChunk
  rw [wp_when]
  refine ⟨fun hdebug => ?_, fun hndebug => ?_⟩
  · rw [wp_bind, wp_reads]
    have hloop := wp_forUp (s := d) (n := sizes d.aiSizes i) (x := fun col => do
        let p ← chunk i
        store prog p col (digit i))
      (I := fun col d' => d'.apcChunks = d.apcChunks ∧ d'.aiSizes = d.aiSizes ∧ d'.failed = d.failed ∧
        ∃ tr st, tr.countP isMalloc = used ∧ Follows prog st₀ M sizes P (full \ {i}) d' tr st ∧
          Filled prog st.written (d.apcChunks i) i col)
      ⟨rfl, rfl, rfl, tr, st, hcount, hfollows, fun col hcol => absurd hcol (Nat.not_lt_zero col)⟩ ?_
    · refine hloop.mono fun _ d' ⟨hchunks, hsizes, hfailed, tr, st, hcount, hfollows, hfilled⟩ => ⟨hchunks, ?_⟩
      refine ⟨⟨tr, st, hcount, hfollows.refill fun _ => ?_⟩, ?_, ?_⟩
      · rw [hchunks, hsizes]
        exact hfilled
      · rw [hsizes]
        exact h.legal
      · rw [hfailed]
        exact h.quiet
    · rintro col hcol d₁ ⟨hchunks, hsizes, hfailed, tr, st, hcount, hfollows, hfilled⟩
      have hheld : i ∈ held P d₁ := mem_held.mpr ⟨hi, by rw [hchunks]; exact hsolid hdebug⟩
      rw [← hchunks] at hfilled
      obtain ⟨call, st', hcall, hfollows', hfilled'⟩ :=
        hfollows.store hset hheld (fun hin => hin.2 rfl) (by rw [hsizes]; exact hcol) hfilled
      unfold chunk
      rw [wp_bind, wp_reads, wp_store (mem_held.mp hheld).2]
      refine ⟨hchunks, hsizes, hfailed, tr ++ [call], st', ?_, hfollows', ?_⟩
      · rw [List.countP_append, hcount, List.countP_singleton, hcall]
        rfl
      · rw [← hchunks]
        exact hfilled'
  · exact ⟨rfl, ⟨tr, st, hcount, hfollows.refill fun hdebug => absurd hdebug hndebug⟩, h.legal, h.quiet⟩

/-- A byte of a full chunk is its digit. -/
theorem Follows.get {col : ℕ} (h : Follows prog st₀ M sizes P full d tr st) (hset : Setting prog st₀ N M)
    (hdebug : prog.ndebug = false) (hi : i ∈ held P d) (hfull : i ∈ full) (hcol : col < sizes d.aiSizes i) :
    prog.bytes.get (d.heap.mem (d.apcChunks i + col / 16)) (col % 16) = digit i := by
  obtain ⟨v, hv, hget⟩ := h.filled hdebug i hi hfull col hcol
  have hmem := hset.reliable.reads (h.client hset) _ (h.mem_live hi) _ (allocOf_covers hcol) v hv
  rw [← h.heap, hmem]
  exact hget

/-- **The loop that checks a chunk** finds nothing. -/
theorem wp_checkChunk {Q : Unit → State F → Prop} (h : Tracks prog st₀ N M W sizes P full used d)
    (hset : Setting prog st₀ N M) (hi : i ∈ P) (hfull : i ∈ full)
    (hsolid : prog.ndebug = false → d.apcChunks i ≠ null) (hQ : Q () d) : wp (checkChunk prog sizes line i) Q d := by
  obtain ⟨tr, st, -, hfollows⟩ := h.session
  unfold checkChunk
  rw [wp_when]
  refine ⟨fun hdebug => ?_, fun _ => hQ⟩
  rw [wp_bind, wp_reads]
  refine (wp_forUp (I := fun _ d' => d' = d) rfl fun col hcol d₁ hd₁ => ?_).mono fun _ d' hd' => hd' ▸ hQ
  subst hd₁
  have hnull := hsolid hdebug
  have hget := hfollows.get hset hdebug (mem_held.mpr ⟨hi, hnull⟩) hfull hcol
  unfold chunk assure
  rw [wp_bind, wp_reads, wp_bind, wp_load hnull, wp_when]
  exact ⟨fun hwrong => absurd hget hwrong, fun _ => rfl⟩

/-- **`ASSURE(q)`** notes nothing where `q` holds when the manager grants everything. -/
theorem wp_assure {Q : Unit → State F → Prop} {q : Prop} [Decidable q]
    (h : Tracks prog st₀ N M W sizes P full used d) (hq : Plenty prog.mgr st₀ N M → q)
    (hQ : ∀ d', d'.apcChunks = d.apcChunks → Tracks prog st₀ N M W sizes P full used d' → Q () d') :
    wp (assure line q) Q d := by
  unfold assure
  rw [wp_when]
  refine ⟨fun hwrong => (wp_modify _).mpr (hQ _ rfl ?_), fun _ => hQ d rfl h⟩
  obtain ⟨tr, st, hcount, hfollows⟩ := h.session
  refine ⟨⟨tr, st, hcount, ?_⟩, h.legal, fun hplenty => absurd (hq hplenty) hwrong⟩
  exact ⟨hfollows.reach, hfollows.small, hfollows.heap, hfollows.live, hfollows.filled⟩

/-- **A chunk is allocated and filled.** -/
theorem wp_mallocChunk {Q : Unit → State F → Prop} (h : Tracks prog st₀ N M W sizes P full used d)
    (hset : Setting prog st₀ N M) (hi : i ∉ P) (hW : i < W) (hN : used < N)
    (hQ : ∀ p d', (prog.ndebug = false → p ≠ null) → d'.apcChunks = Function.update d.apcChunks i p →
      Tracks prog st₀ N M W sizes (insert i P) (insert i full) (used + 1) d' → Q () d') :
    wp (mallocChunk prog sizes line i) Q d := by
  unfold mallocChunk
  rw [wp_bind]
  refine wp_allocate h hset hi hW hN fun p d₁ hnull hchunks h₁ => ?_
  have hsolid (hdebug : prog.ndebug = false) : p ≠ null :=
    hnull (hset.granted.resolve_left (by rw [hdebug]; exact Bool.false_ne_true))
  rw [wp_bind]
  refine wp_assure h₁ hnull fun d₂ hchunks₂ h₂ => ?_
  rw [← hchunks₂] at hchunks
  have hplace (hdebug : prog.ndebug = false) : d₂.apcChunks i ≠ null := by
    rw [hchunks, Function.update_self]
    exact hsolid hdebug
  refine (wp_fillChunk h₂ hset (Finset.mem_insert_self i P) hplace).mono fun _ d₃ ⟨hchunks₃, h₃⟩ => ?_
  exact hQ p d₃ hsolid (hchunks₃.trans hchunks) h₃

/-! ### Freeing a chunk -/

/-- Only the places that hold a chunk matter. -/
theorem Tracks.of_held {P' : Finset ℕ} (h : Tracks prog st₀ N M W sizes P full used d) (heq : held P' d = held P d) :
    Tracks prog st₀ N M W sizes P' full used d := by
  obtain ⟨tr, st, hcount, hfollows⟩ := h.session
  refine ⟨⟨tr, st, hcount, hfollows.reach, hfollows.small, hfollows.heap, ?_, ?_⟩, h.legal, h.quiet⟩
  · rw [heq]
    exact hfollows.live
  · rw [heq]
    exact hfollows.filled

/-- An empty place need not be followed. -/
theorem held_erase (hnull : d.apcChunks i = null) : held (P.erase i) d = held P d := by
  refine Finset.ext fun j => ?_
  rw [mem_held, mem_held, Finset.mem_erase]
  refine ⟨fun hin => ⟨hin.1.2, hin.2⟩, fun hin => ⟨⟨fun hji => hin.2 (hji ▸ hnull), hin.1⟩, hin.2⟩⟩

/-- **After `heapmgr_free`** the place `i` is no longer in use. -/
theorem Follows.free (h : Follows prog st₀ M sizes P full d tr st) (hset : Setting prog st₀ N M) (hi : i ∈ held P d) :
    ∃ heap call st', prog.mgr.free (d.apcChunks i) d.heap = .ok () heap ∧ isMalloc call = false ∧
      Follows prog st₀ M sizes (P.erase i) full { d with heap := heap } (tr ++ [call]) st' := by
  have hmem := h.mem_live hi
  obtain ⟨heap, hcall⟩ := (hset.reliable.returns (h.client hset)).2 _ hmem
  have hstep : Session.Step (3 * 10 ^ 8) prog.mgr st _ _ := .free hmem hcall
  have herase : held (P.erase i) d = (held P d).erase i := Finset.filter_erase _ _ _
  rw [h.heap] at hcall
  refine ⟨heap, _, _, hcall, rfl, h.reach.step hstep, fun n hn => ?_, rfl, ?_, fun hdebug j hj hfull => ?_⟩
  · rcases List.mem_append.mp hn with hold | hnew
    · exact h.small n hold
    · cases List.mem_singleton.mp hnew
  · show ((st.live.erase (allocOf sizes d i) : List Alloc) : Multiset Alloc)
      = (held (P.erase i) d).val.map (allocOf sizes d)
    rw [herase, Finset.erase_val, ← Multiset.coe_erase, h.live]
    conv_lhs => rw [← Multiset.cons_erase (show i ∈ (held P d).val from hi)]
    rw [Multiset.map_cons, Multiset.erase_cons_head]
  · have hjheld : j ∈ held (P.erase i) d := hj
    rw [herase] at hjheld
    exact h.filled hdebug j (Finset.mem_of_mem_erase hjheld) hfull

/-- **`heapmgr_free(apc_chunks[i])`** -/
theorem wp_free {Q : Unit → State F → Prop} (h : Tracks prog st₀ N M W sizes P full used d)
    (hset : Setting prog st₀ N M) (hi : i ∈ P) (hbooted : d.apcChunks i = null → 0 < used)
    (hQ : ∀ d', d'.apcChunks = d.apcChunks → Tracks prog st₀ N M W sizes (P.erase i) full used d' → Q () d') :
    wp (do
      let p ← chunk i
      heapmgrFree prog p) Q d := by
  unfold chunk heapmgrFree
  rw [wp_bind, wp_reads, wp_zoom]
  obtain ⟨tr, st, hcount, hfollows⟩ := h.session
  by_cases hnull : d.apcChunks i = null
  · have hne : tr ≠ [] := by
      rintro rfl
      have hused := hbooted hnull
      rw [← hcount] at hused
      cases hused
    have hskip := hset.reliable.free_null (hfollows.client hset) hne
    rw [hfollows.heap] at hskip
    rw [hnull, wp_iff_of_ok hskip]
    exact hQ d rfl (h.of_held (held_erase hnull))
  · obtain ⟨heap, call, st', hcall, hkind, hfollows'⟩ := hfollows.free hset (mem_held.mpr ⟨hi, hnull⟩)
    rw [wp_iff_of_ok hcall]
    refine hQ _ rfl ⟨⟨_, st', ?_, hfollows'⟩, h.legal, h.quiet⟩
    rw [List.countP_append, hcount, List.countP_singleton, hkind]
    rfl

/-- **A chunk is checked and freed.** -/
theorem wp_freeChunk {Q : Unit → State F → Prop} (h : Tracks prog st₀ N M W sizes P full used d)
    (hset : Setting prog st₀ N M) (hi : i ∈ P) (hfull : i ∈ full) (hsolid : prog.ndebug = false → d.apcChunks i ≠ null)
    (hbooted : d.apcChunks i = null → 0 < used)
    (hQ : ∀ d', d'.apcChunks = d.apcChunks → Tracks prog st₀ N M W sizes (P.erase i) full used d' → Q () d') :
    wp (freeChunk prog sizes line i) Q d := by
  unfold freeChunk
  rw [wp_bind]
  exact wp_checkChunk h hset hi hfull hsolid (wp_free h hset hi hbooted hQ)

/-- **A place is emptied**, whether it holds a chunk or not. -/
theorem wp_releaseChunk {Q : Unit → State F → Prop} (h : Tracks prog st₀ N M W sizes P full used d)
    (hset : Setting prog st₀ N M) (hi : i ∈ P) (hfull : i ∈ full)
    (hQ : ∀ d', d'.apcChunks = Function.update d.apcChunks i null →
      Tracks prog st₀ N M W sizes (P.erase i) full used d' → Q () d') :
    wp (releaseChunk prog sizes line i) Q d := by
  unfold releaseChunk chunk
  rw [wp_bind, wp_reads, wp_when]
  refine ⟨fun hheld => ?_, fun hnull => ?_⟩
  · rw [wp_bind]
    refine wp_freeChunk h hset hi hfull (fun _ => hheld) (absurd · hheld) fun d₁ hchunks h₁ => ?_
    unfold setChunk
    rw [wp_modify]
    refine hQ _ (by rw [← hchunks]) ?_
    obtain ⟨tr, st, hcount, hfollows⟩ := h₁.session
    -- the place is not followed any more
    let d₂ : State F := { d₁ with apcChunks := Function.update d₁.apcChunks i null }
    have hother (j : ℕ) (hj : j ∈ P.erase i) : d₂.apcChunks j = d₁.apcChunks j :=
      Function.update_of_ne (Finset.ne_of_mem_erase hj) _ _
    have hsame : held (P.erase i) d₂ = held (P.erase i) d₁ := Finset.filter_congr fun j hj => by rw [hother j hj]
    show Tracks prog st₀ N M W sizes (P.erase i) full used d₂
    refine ⟨⟨tr, st, hcount, hfollows.reach, hfollows.small, hfollows.heap, ?_, fun hdebug j hj hjfull => ?_⟩, h₁.legal,
      h₁.quiet⟩
    · rw [hsame, map_allocOf (d := d₁) _ (fun j hj => hother j (mem_held.mp hj).1) rfl]
      exact hfollows.live
    · rw [hsame] at hj
      rw [hother j (mem_held.mp hj).1]
      exact hfollows.filled hdebug j hj hjfull
  · have hnull : d.apcChunks i = null := not_not.mp hnull
    exact hQ d (by rw [← hnull, Function.update_eq_self]) (h.of_held (held_erase hnull))

end SystemProgramming.HeapMgr.TestDriver
