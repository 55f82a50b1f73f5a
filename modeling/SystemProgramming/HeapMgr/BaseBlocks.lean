import SystemProgramming.HeapMgr.Base
import SystemProgramming.HeapMgr.ChunkSpec
import SystemProgramming.HeapMgr.Layout
import SystemProgramming.Lib.Singly

/-!
# The blocks behind the reference manager's heap

`Laid keep m₀ m lo hi bs` says that the headers in `m` show the blocks `bs` between `lo` and `hi`, and that the
units in `keep`, which are payload of used blocks, hold what they held in `m₀`; `Sized` leaves out who uses a block.
The getters of `chunkbase.c` read the blocks, and each way in which the manager writes headers changes them in one
place.
-/

namespace SystemProgramming.HeapMgr.Base

open Exec CInt

/-! ### Writes to a header -/

def withStatus (m : Mem) (p : ℕ) (status : ℤ) : Mem := Function.update m p { m p with lo32 := status }

def withSpan (m : Mem) (p : ℕ) (span : ℤ) : Mem := Function.update m p { m p with hi32 := span }

def withLink (m : Mem) (p n : ℕ) : Mem := Function.update m p { m p with link := n }

/-- The links of the headers. -/
def links (m : Mem) : ℕ → ℕ := fun p => (m p).next

section Writes

variable {m : Mem} {p q n : ℕ} {v : ℤ}

@[simp] theorem withStatus_status : (withStatus m p v q).lo32 = if q = p then v else (m q).lo32 := by
  unfold withStatus
  by_cases h : q = p
  · rw [h, Function.update_self, if_pos rfl]
  · rw [Function.update_of_ne h, if_neg h]

@[simp] theorem withStatus_span : (withStatus m p v q).hi32 = (m q).hi32 := by
  unfold withStatus
  by_cases h : q = p
  · rw [h, Function.update_self]
  · rw [Function.update_of_ne h]

@[simp] theorem withSpan_span : (withSpan m p v q).hi32 = if q = p then v else (m q).hi32 := by
  unfold withSpan
  by_cases h : q = p
  · rw [h, Function.update_self, if_pos rfl]
  · rw [Function.update_of_ne h, if_neg h]

@[simp] theorem withSpan_status : (withSpan m p v q).lo32 = (m q).lo32 := by
  unfold withSpan
  by_cases h : q = p
  · rw [h, Function.update_self]
  · rw [Function.update_of_ne h]

@[simp] theorem withLink_status : (withLink m p n q).lo32 = (m q).lo32 := by
  unfold withLink
  by_cases h : q = p
  · rw [h, Function.update_self]
  · rw [Function.update_of_ne h]

@[simp] theorem withLink_span : (withLink m p n q).hi32 = (m q).hi32 := by
  unfold withLink
  by_cases h : q = p
  · rw [h, Function.update_self]
  · rw [Function.update_of_ne h]

@[simp] theorem links_withStatus : links (withStatus m p v) = links m := by
  funext q
  unfold links withStatus
  by_cases h : q = p
  · rw [h, Function.update_self]
  · rw [Function.update_of_ne h]

@[simp] theorem links_withSpan : links (withSpan m p v) = links m := by
  funext q
  unfold links withSpan
  by_cases h : q = p
  · rw [h, Function.update_self]
  · rw [Function.update_of_ne h]

@[simp] theorem links_withLink : links (withLink m p n) = Function.update (links m) p n := by
  funext q
  unfold links withLink
  by_cases h : q = p
  · rw [h, Function.update_self, Function.update_self]
  · rw [Function.update_of_ne h, Function.update_of_ne h]

theorem withStatus_of_ne (h : q ≠ p) : withStatus m p v q = m q := Function.update_of_ne h ..

theorem withSpan_of_ne (h : q ≠ p) : withSpan m p v q = m q := Function.update_of_ne h ..

theorem withLink_of_ne (h : q ≠ p) : withLink m p n q = m q := Function.update_of_ne h ..

variable {Q : Unit → Mem → Prop}

theorem wp_store {f : Cell → Cell} (hp : p ≠ null) :
    wp (store p f) Q m ↔ Q () (Function.update m p (f (m p))) := by
  apply wp_iff_of_ok
  unfold store
  rw [if_neg hp]

theorem wp_setStatus (hp : p ≠ null) : wp (chunkSetStatus p v) Q m ↔ Q () (withStatus m p v) := wp_store hp

theorem wp_setSpan (hp : p ≠ null) : wp (chunkSetSpanUnits p v) Q m ↔ Q () (withSpan m p v) := wp_store hp

theorem wp_setNext (hp : p ≠ null) : wp (chunkSetNextFree p n) Q m ↔ Q () (withLink m p n) := wp_store hp

theorem gives_load (hp : p ≠ null) : Gives (load p) m (m p) := by
  unfold Gives load
  rw [if_neg hp]

theorem gives_next (hp : p ≠ null) : Gives (chunkGetNextFree p) m (links m p) :=
  (gives_load hp).map fun h => h.next

end Writes

/-! ### The headers show the blocks -/

/-- The blocks `bs` stand between `lo` and `hi`, and the header of each has its span. -/
structure Sized (keep : Set ℕ) (m₀ m : Mem) (lo hi : ℕ) (bs : List Block) : Prop where
  lo_pos : 0 < lo
  hi_lt : hi < 2 ^ 60
  short : hi < lo + 2 ^ 31
  tiles : Tiles Block.addr Block.span lo hi bs
  span : ∀ b ∈ bs, (m b.addr).span = b.span
  kept : ∀ u ∈ keep, m u = m₀ u
  keep_used : ∀ u ∈ keep, ∃ b ∈ bs, b.used = true ∧ b.addr < u ∧ u < b.addr + b.span

/-- The header of each block also has its status. -/
structure Laid (keep : Set ℕ) (m₀ m : Mem) (lo hi : ℕ) (bs : List Block) : Prop
    extends Sized keep m₀ m lo hi bs where
  status : ∀ b ∈ bs, (m b.addr).status = statusOf b.used

namespace Sized

variable {keep : Set ℕ} {m₀ m : Mem} {lo hi : ℕ} {bs xs ys : List Block} {a b c : Block} {r n : ℕ}

theorem addr_ne_null (h : Sized keep m₀ m lo hi bs) (hb : b ∈ bs) : b.addr ≠ null := by
  have h₁ := (h.tiles.bounds hb).1
  have h₂ := h.lo_pos
  unfold null
  omega

theorem span_lt (h : Sized keep m₀ m lo hi bs) (hb : b ∈ bs) : b.span < 2 ^ 31 := by
  have h₁ := h.tiles.bounds hb
  have h₂ := h.short
  omega

/-- A kept unit is not a header. -/
theorem keep_ne_addr (h : Sized keep m₀ m lo hi bs) (hb : b ∈ bs) {u : ℕ} (hu : u ∈ keep) : u ≠ b.addr := by
  obtain ⟨c, hc, -, h₁, h₂⟩ := h.keep_used u hu
  have h₃ := h.tiles.bounds hb
  rintro rfl
  have hbc : b = c := h.tiles.eq_of_mem hb hc (u := b.addr) (by omega) (by omega)
  rw [hbc] at h₁
  omega

/-- A kept unit does not lie in a free block. -/
theorem keep_not_free (h : Sized keep m₀ m lo hi bs) (hb : b ∈ bs) (hfree : b.used = false) {u : ℕ} (hu : u ∈ keep) :
    u < b.addr ∨ b.addr + b.span ≤ u := by
  obtain ⟨c, hc, hused, h₁, h₂⟩ := h.keep_used u hu
  by_contra hin
  have hbc : b = c := h.tiles.eq_of_mem hb hc (u := u) (by omega) (by omega)
  rw [← hbc, hfree] at hused
  cases hused

/-- The end of the block, without wrapping around. -/
theorem ptrAdd_span (h : Sized keep m₀ m lo hi bs) (hb : b ∈ bs) :
    ptrAdd b.addr (m b.addr).span = b.addr + b.span := by
  have h₁ := h.tiles.bounds hb
  have h₂ := h.hi_lt
  rw [h.span b hb]
  exact ptrAdd_of_lt (by omega)

/-- The other blocks begin elsewhere. -/
theorem addr_ne (h : Sized keep m₀ m lo hi (xs ++ b :: ys)) (hc : c ∈ xs ∨ c ∈ ys) : c.addr ≠ b.addr := by
  have h₁ := h.tiles.around_apart hc
  have h₂ := h.tiles.bounds (b := b) (by simp)
  omega

/-- When `b` makes room for `b'`, the other blocks are as before. -/
theorem mem_replace (h : Sized keep m₀ m lo hi (xs ++ b :: ys)) {b' : Block} (hc : c ∈ xs ++ b' :: ys) :
    c = b' ∨ c ∈ xs ++ b :: ys ∧ c.addr ≠ b.addr := by
  rcases List.mem_append.mp hc with hx | hc
  · exact Or.inr ⟨List.mem_append_left _ hx, h.addr_ne (Or.inl hx)⟩
  · rcases List.mem_cons.mp hc with rfl | hy
    · exact Or.inl rfl
    · exact Or.inr ⟨by simp [hy], h.addr_ne (Or.inr hy)⟩

/-! #### Writing -/

theorem setLink (h : Sized keep m₀ m lo hi bs) {p : ℕ} (hp : p ∉ keep) (n : ℕ) :
    Sized keep m₀ (withLink m p n) lo hi bs :=
  { h with
    span := fun c hc => withLink_span.trans (h.span c hc)
    kept := fun _ hu => (withLink_of_ne (ne_of_mem_of_not_mem hu hp)).trans (h.kept _ hu) }

theorem writeStatus (h : Sized keep m₀ m lo hi bs) {p : ℕ} (hp : p ∉ keep) (v : ℤ) :
    Sized keep m₀ (withStatus m p v) lo hi bs :=
  { h with
    span := fun c hc => withStatus_span.trans (h.span c hc)
    kept := fun _ hu => (withStatus_of_ne (ne_of_mem_of_not_mem hu hp)).trans (h.kept _ hu) }

theorem addr_notMem (h : Sized keep m₀ m lo hi bs) (hb : b ∈ bs) : b.addr ∉ keep := fun hu => h.keep_ne_addr hb hu rfl

/-- A block changes hands.  One that is set free must not hold kept units. -/
theorem setUsed (h : Sized keep m₀ m lo hi (xs ++ b :: ys)) (used : Bool)
    (hkeep : used = false → ∀ v ∈ keep, v < b.addr ∨ b.addr + b.span ≤ v) :
    Sized keep m₀ m lo hi (xs ++ { b with used := used } :: ys) := by
  refine { h with tiles := ?_, span := fun c hc => ?_, keep_used := fun v hv => ?_ }
  · have ht := h.tiles
    rw [tiles_around] at ht
    exact tiles_around.mpr ht
  · rcases h.mem_replace hc with rfl | ⟨hmem, -⟩
    · exact h.span b (by simp)
    · exact h.span c hmem
  · obtain ⟨c, hc, hused, h₁, h₂⟩ := h.keep_used v hv
    rcases List.mem_append.mp hc with hx | hc
    · exact ⟨c, List.mem_append_left _ hx, hused, h₁, h₂⟩
    · rcases List.mem_cons.mp hc with rfl | hy
      · cases used with
        | true => exact ⟨{ c with used := true }, by simp, rfl, h₁, h₂⟩
        | false =>
          have := hkeep rfl v hv
          omega
      · exact ⟨c, by simp [hy], hused, h₁, h₂⟩

/-- Two free neighbours become one block. -/
theorem merge (h : Sized keep m₀ m lo hi (xs ++ a :: b :: ys)) (ha : a.used = false) (hb : b.used = false) :
    Sized keep m₀ (withSpan m a.addr ((a.span + b.span : ℕ) : ℤ)) lo hi
      (xs ++ ⟨a.addr, a.span + b.span, false⟩ :: ys) := by
  have hamem : a ∈ xs ++ a :: b :: ys := by simp
  refine ⟨h.lo_pos, h.hi_lt, h.short, ?_, fun c hc => ?_, fun v hv => ?_, fun v hv => ?_⟩
  · obtain ⟨hxs, hpos, hba, -, hys⟩ := tiles_around.mp h.tiles
    refine tiles_around.mpr ⟨hxs, Nat.add_pos_left hpos _, ?_⟩
    show Tiles Block.addr Block.span (a.addr + (a.span + b.span)) hi ys
    rwa [← Nat.add_assoc]
  · have hcases : c = ⟨a.addr, a.span + b.span, false⟩ ∨ c ∈ xs ++ a :: b :: ys ∧ c.addr ≠ a.addr := by
      rcases List.mem_append.mp hc with hx | hc
      · exact Or.inr ⟨List.mem_append_left _ hx, h.addr_ne (Or.inl hx)⟩
      · rcases List.mem_cons.mp hc with rfl | hy
        · exact Or.inl rfl
        · exact Or.inr ⟨by simp [hy], h.addr_ne (Or.inr (List.mem_cons_of_mem b hy))⟩
    rcases hcases with rfl | ⟨hmem, hne⟩
    · exact withSpan_span.trans (if_pos rfl)
    · exact withSpan_span.trans ((if_neg hne).trans (h.span c hmem))
  · exact (withSpan_of_ne (h.keep_ne_addr hamem hv)).trans (h.kept v hv)
  · obtain ⟨c, hc, hused, h₁, h₂⟩ := h.keep_used v hv
    have hne : c ≠ a ∧ c ≠ b := by
      constructor
      · rintro rfl
        rw [ha] at hused
        cases hused
      · rintro rfl
        rw [hb] at hused
        cases hused
    refine ⟨c, ?_, hused, h₁, h₂⟩
    simp only [List.mem_append, List.mem_cons] at hc ⊢
    tauto

/-- The blocks after `c` has been split. -/
theorem mem_split (h : Sized keep m₀ m lo hi (xs ++ c :: ys)) (hspan : c.span = r + n) (hn : 0 < n) {x y : Block}
    (hb : b ∈ xs ++ x :: y :: ys) :
    b = x ∨ b = y ∨ b ∈ xs ++ c :: ys ∧ b.addr ≠ c.addr ∧ b.addr ≠ c.addr + r := by
  have hold (hmem : b ∈ xs ∨ b ∈ ys) : b ∈ xs ++ c :: ys ∧ b.addr ≠ c.addr ∧ b.addr ≠ c.addr + r := by
    have happart := h.tiles.around_apart hmem
    refine ⟨?_, h.addr_ne hmem, by omega⟩
    rcases hmem with hx | hy
    · exact List.mem_append_left _ hx
    · simp [hy]
  rcases List.mem_append.mp hb with hx | hb
  · exact Or.inr (Or.inr (hold (Or.inl hx)))
  · rcases List.mem_cons.mp hb with rfl | hb
    · exact Or.inl rfl
    · rcases List.mem_cons.mp hb with rfl | hy
      · exact Or.inr (Or.inl rfl)
      · exact Or.inr (Or.inr (hold (Or.inr hy)))

/-- The last `n` units of the free block `c` become a used block. -/
theorem split (h : Sized keep m₀ m lo hi (xs ++ c :: ys)) (hc : c.used = false) (hspan : c.span = r + n)
    (hr : 0 < r) (hn : 0 < n) :
    Sized keep m₀ (withSpan (withSpan m c.addr r) (c.addr + r) n) lo hi
      (xs ++ ⟨c.addr, r, false⟩ :: ⟨c.addr + r, n, true⟩ :: ys) := by
  have hcmem : c ∈ xs ++ c :: ys := by simp
  refine ⟨h.lo_pos, h.hi_lt, h.short, ?_, fun b hb => ?_, fun v hv => ?_, fun v hv => ?_⟩
  · obtain ⟨hxs, -, hys⟩ := tiles_around.mp h.tiles
    refine tiles_around.mpr ⟨hxs, hr, rfl, hn, ?_⟩
    show Tiles Block.addr Block.span (c.addr + r + n) hi ys
    rwa [Nat.add_assoc, ← hspan]
  · show (withSpan _ _ _ b.addr).hi32 = _
    rcases h.mem_split hspan hn hb with rfl | rfl | ⟨hmem, hne, hne'⟩
    · rw [withSpan_span, if_neg (show c.addr ≠ c.addr + r by omega), withSpan_span, if_pos rfl]
    · rw [withSpan_span, if_pos rfl]
    · rw [withSpan_span, if_neg hne', withSpan_span, if_neg hne]
      exact h.span b hmem
  · have hout := h.keep_not_free hcmem hc hv
    rw [withSpan_of_ne (by omega), withSpan_of_ne (h.keep_ne_addr hcmem hv)]
    exact h.kept v hv
  · obtain ⟨b, hb, hused, h₁, h₂⟩ := h.keep_used v hv
    have hne : b ≠ c := by
      rintro rfl
      rw [hc] at hused
      cases hused
    refine ⟨b, ?_, hused, h₁, h₂⟩
    simp only [List.mem_append, List.mem_cons] at hb ⊢
    tauto

/-- A kept unit lies below the end. -/
theorem keep_lt (h : Sized keep m₀ m lo hi bs) {u : ℕ} (hu : u ∈ keep) : u < hi := by
  obtain ⟨b, hb, -, h₁, h₂⟩ := h.keep_used u hu
  have hbounds := h.tiles.bounds hb
  omega

theorem keep_ne_end (h : Sized keep m₀ m lo hi bs) : hi ∉ keep := fun hu => Nat.lt_irrefl _ (h.keep_lt hu)

/-- A used block is added at the end. -/
theorem extend {g : ℕ} (h : Sized keep m₀ m lo hi bs) (hg : 0 < g) (hlt : hi + g < 2 ^ 60)
    (hshort : hi + g < lo + 2 ^ 31) : Sized keep m₀ (withSpan m hi g) lo (hi + g) (bs ++ [⟨hi, g, true⟩]) := by
  refine ⟨h.lo_pos, hlt, hshort, ?_, fun b hb => ?_, fun v hv => ?_, fun v hv => ?_⟩
  · exact tiles_append.mpr ⟨hi, h.tiles, rfl, hg, rfl⟩
  · show (withSpan _ _ _ b.addr).hi32 = _
    rcases List.mem_append.mp hb with hb | hb
    · have hbounds := h.tiles.bounds hb
      rw [withSpan_span, if_neg (by omega)]
      exact h.span b hb
    · obtain rfl := List.mem_singleton.mp hb
      rw [withSpan_span, if_pos rfl]
  · rw [withSpan_of_ne (ne_of_mem_of_not_mem hv h.keep_ne_end)]
    exact h.kept v hv
  · obtain ⟨b, hb, hin⟩ := h.keep_used v hv
    exact ⟨b, List.mem_append_left _ hb, hin⟩

/-- The kept units may be chosen anew. -/
theorem rekeep (h : Sized keep m₀ m lo hi bs) {keep' : Set ℕ}
    (hkeep : ∀ u ∈ keep', ∃ b ∈ bs, b.used = true ∧ b.addr < u ∧ u < b.addr + b.span) :
    Sized keep' m m lo hi bs :=
  { h with
    kept := fun _ _ => rfl
    keep_used := hkeep }

/-- A write strictly inside a block does not show in the headers. -/
theorem header_update (h : Sized keep m₀ m lo hi bs) (hb : b ∈ bs) {u : ℕ} (h₁ : b.addr < u) (h₂ : u < b.addr + b.span)
    (v : Cell) (hc : c ∈ bs) : Function.update m u v c.addr = m c.addr := by
  refine Function.update_of_ne (fun hcu => ?_) _ _
  have hspan := (h.tiles.bounds hc).2.2
  have heq : b = c := h.tiles.eq_of_mem hb hc (u := u) (by omega) (by omega)
  rw [heq] at h₁
  omega

theorem write (h : Sized keep m₀ m lo hi bs) (hb : b ∈ bs) {u : ℕ} (h₁ : b.addr < u) (h₂ : u < b.addr + b.span)
    (v : Cell) : Sized ∅ (Function.update m u v) (Function.update m u v) lo hi bs where
  lo_pos := h.lo_pos
  hi_lt := h.hi_lt
  short := h.short
  tiles := h.tiles
  span c hc := by
    rw [h.header_update hb h₁ h₂ v hc]
    exact h.span c hc
  kept _ _ := rfl
  keep_used _ hu := absurd hu (Set.notMem_empty _)

end Sized

namespace Laid

variable {cfg : Cfg} {keep : Set ℕ} {m₀ m : Mem} {lo hi : ℕ} {bs xs ys : List Block} {a b c : Block} {r n : ℕ}

/-! ### Reading -/

theorem gives_status (h : Laid keep m₀ m lo hi bs) (hb : b ∈ bs) :
    Gives (chunkGetStatus b.addr) m (statusOf b.used) := by
  rw [← h.status b hb]
  exact (gives_load (h.addr_ne_null hb)).map fun h => h.status

theorem gives_free (h : Laid keep m₀ m lo hi bs) (hb : b ∈ bs) (hfree : b.used = false) :
    Gives (chunkGetStatus b.addr) m chunkFree := by
  have hstatus := h.gives_status hb
  rwa [hfree] at hstatus

theorem gives_span (h : Laid keep m₀ m lo hi bs) (hb : b ∈ bs) :
    Gives (chunkGetSpanUnits b.addr) m (b.span : ℤ) := by
  rw [← h.span b hb]
  exact (gives_load (h.addr_ne_null hb)).map fun h => h.span

theorem gives_isValid (h : Laid keep m₀ m lo hi bs) (hb : b ∈ bs) :
    Gives (chunkIsValid cfg b.addr lo hi) m true := by
  have hbounds := h.tiles.bounds hb
  have hlo : lo ≠ null := Nat.ne_of_gt h.lo_pos
  have hhi : hi ≠ null := Nat.ne_of_gt (Nat.lt_of_lt_of_le h.lo_pos h.tiles.le)
  apply gives_of_wp
  unfold chunkIsValid
  simp only [wp_bind, wp_assert]
  refine ⟨fun _ => h.addr_ne_null hb, fun _ => hlo, fun _ => hhi, ?_⟩
  rw [if_neg (by omega), if_neg (by omega), wp_bind, (gives_load (h.addr_ne_null hb)).wp_iff]
  show wp (if (m b.addr).span ≤ 0 then _ else _) _ _
  rw [h.span b hb, if_neg (by omega), wp_pure]
  exact ⟨rfl, rfl⟩

theorem gives_adjacent (h : Laid keep m₀ m lo hi (xs ++ b :: ys)) :
    Gives (chunkGetAdjacent cfg b.addr lo hi) m ((ys.map Block.addr).headD null) := by
  have hb : b ∈ xs ++ b :: ys := by simp
  have hbounds := h.tiles.bounds hb
  apply gives_of_wp
  unfold chunkGetAdjacent
  simp only [wp_bind, wp_assert]
  refine ⟨fun _ => hbounds.1, ?_⟩
  rw [(gives_load (h.addr_ne_null hb)).wp_iff, h.ptrAdd_span hb]
  rcases h.tiles.next with ⟨rfl, hend⟩ | ⟨c, zs, rfl, hc, hlt⟩
  · rw [if_pos (by omega), wp_pure]
    exact ⟨rfl, rfl⟩
  · rw [if_neg (by omega), wp_pure]
    exact ⟨hc.symm, rfl⟩

/-! ### Writing -/

theorem setLink (h : Laid keep m₀ m lo hi bs) (hb : b ∈ bs) (n : ℕ) :
    Laid keep m₀ (withLink m b.addr n) lo hi bs where
  toSized := h.toSized.setLink (h.addr_notMem hb) n
  status c hc := withLink_status.trans (h.status c hc)

/-- A status is written.  A block that is set free must not hold kept units. -/
theorem setStatus (h : Laid keep m₀ m lo hi (xs ++ b :: ys)) (used : Bool)
    (hkeep : used = false → ∀ v ∈ keep, v < b.addr ∨ b.addr + b.span ≤ v) :
    Laid keep m₀ (withStatus m b.addr (statusOf used)) lo hi (xs ++ { b with used := used } :: ys) where
  toSized := (h.toSized.setUsed used hkeep).writeStatus (h.addr_notMem (b := b) (by simp)) _
  status c hc := by
    rcases h.mem_replace hc with rfl | ⟨hmem, hne⟩
    · exact withStatus_status.trans (if_pos rfl)
    · exact withStatus_status.trans ((if_neg hne).trans (h.status c hmem))

/-- Two free neighbours become one block. -/
theorem merge (h : Laid keep m₀ m lo hi (xs ++ a :: b :: ys)) (ha : a.used = false) (hb : b.used = false) :
    Laid keep m₀ (withSpan m a.addr ((a.span + b.span : ℕ) : ℤ)) lo hi
      (xs ++ ⟨a.addr, a.span + b.span, false⟩ :: ys) where
  toSized := h.toSized.merge ha hb
  status c hc := by
    refine withSpan_status.trans ?_
    rcases List.mem_append.mp hc with hx | hc
    · exact h.status c (List.mem_append_left _ hx)
    · rcases List.mem_cons.mp hc with rfl | hy
      · refine (h.status a (by simp)).trans ?_
        rw [ha]
      · exact h.status c (by simp [hy])

/-- The last `n` units of the free block `c` become a used block. -/
theorem split (h : Laid keep m₀ m lo hi (xs ++ c :: ys)) (hc : c.used = false) (hspan : c.span = r + n)
    (hr : 0 < r) (hn : 0 < n) :
    Laid keep m₀ (withStatus (withSpan (withSpan m c.addr r) (c.addr + r) n) (c.addr + r) chunkUsed) lo hi
      (xs ++ ⟨c.addr, r, false⟩ :: ⟨c.addr + r, n, true⟩ :: ys) := by
  have hsplit := h.toSized.split hc hspan hr hn
  refine ⟨hsplit.writeStatus (hsplit.addr_notMem (b := ⟨c.addr + r, n, true⟩) (by simp)) _, fun b hb => ?_⟩
  show (withStatus _ _ _ b.addr).lo32 = _
  rcases h.mem_split hspan hn hb with rfl | rfl | ⟨hmem, hne, hne'⟩
  · rw [withStatus_status, if_neg (show c.addr ≠ c.addr + r by omega), withSpan_status, withSpan_status]
    exact (h.status c (by simp)).trans (by rw [hc])
  · rw [withStatus_status, if_pos rfl]
    rfl
  · rw [withStatus_status, if_neg hne', withSpan_status, withSpan_status]
    exact h.status b hmem

/-- A used block is added at the end. -/
theorem extend {g : ℕ} (h : Laid keep m₀ m lo hi bs) (hg : 0 < g) (hlt : hi + g < 2 ^ 60)
    (hshort : hi + g < lo + 2 ^ 31) :
    Laid keep m₀ (withStatus (withLink (withSpan m hi g) hi null) hi chunkUsed) lo (hi + g)
      (bs ++ [⟨hi, g, true⟩]) := by
  have hout := h.keep_ne_end
  refine ⟨((h.toSized.extend hg hlt hshort).setLink hout null).writeStatus hout _, fun b hb => ?_⟩
  show (withStatus _ _ _ b.addr).lo32 = _
  rcases List.mem_append.mp hb with hb | hb
  · have hbounds := h.tiles.bounds hb
    rw [withStatus_status, if_neg (by omega), withLink_status, withSpan_status]
    exact h.status b hb
  · obtain rfl := List.mem_singleton.mp hb
    rw [withStatus_status, if_pos rfl]
    rfl

end Laid

end SystemProgramming.HeapMgr.Base
