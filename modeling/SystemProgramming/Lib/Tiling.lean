import Mathlib.Data.List.Basic
import Mathlib.Data.List.Chain
import Mathlib.Data.List.Pairwise
import Mathlib.Tactic.Common

/-!
# Tilings of an interval

A list of pieces, each with a start and a positive length, tiles `[lo, hi)` when the pieces stand
one after the other from `lo` to `hi`.  Any two pieces of a tiling are then apart
(`Tiles.apart`), each lies inside the interval (`Tiles.bounds`), and where one piece ends the
interval ends or another piece starts (`Tiles.next`).
-/

namespace SystemProgramming

section Tiling

variable {β : Type} {start len : β → ℕ} {lo hi mid : ℕ}

/-- The pieces of the list stand one after the other from `lo` to `hi`. -/
def Tiles (start len : β → ℕ) : ℕ → ℕ → List β → Prop
  | lo, hi, [] => lo = hi
  | lo, hi, b :: bs => start b = lo ∧ 0 < len b ∧ Tiles start len (lo + len b) hi bs

instance Tiles.decidable (start len : β → ℕ) : (lo hi : ℕ) → (bs : List β) → Decidable (Tiles start len lo hi bs)
  | lo, hi, [] => inferInstanceAs (Decidable (lo = hi))
  | lo, hi, b :: bs =>
    have := Tiles.decidable start len (lo + len b) hi bs
    inferInstanceAs (Decidable (start b = lo ∧ 0 < len b ∧ Tiles start len (lo + len b) hi bs))

theorem tiles_nil : Tiles start len lo hi [] ↔ lo = hi := Iff.rfl

theorem tiles_cons {b : β} {bs : List β} :
    Tiles start len lo hi (b :: bs) ↔
      start b = lo ∧ 0 < len b ∧ Tiles start len (lo + len b) hi bs := Iff.rfl

theorem Tiles.le {bs : List β} (h : Tiles start len lo hi bs) : lo ≤ hi := by
  induction bs generalizing lo with
  | nil => exact Nat.le_of_eq h
  | cons b bs ih =>
    have := ih h.2.2
    omega

/-- A tiling of a concatenation meets at a point in between. -/
theorem tiles_append {xs ys : List β} :
    Tiles start len lo hi (xs ++ ys) ↔
      ∃ mid, Tiles start len lo mid xs ∧ Tiles start len mid hi ys := by
  induction xs generalizing lo with
  | nil => simp [Tiles]
  | cons b bs ih =>
    simp only [List.cons_append, tiles_cons, ih]
    constructor
    · rintro ⟨h₁, h₂, mid, h₃, h₄⟩
      exact ⟨mid, ⟨h₁, h₂, h₃⟩, h₄⟩
    · rintro ⟨mid, ⟨h₁, h₂, h₃⟩, h₄⟩
      exact ⟨h₁, h₂, mid, h₃, h₄⟩

/-- Around a piece, the tiling splits at the piece's own ends. -/
theorem tiles_around {xs ys : List β} {b : β} :
    Tiles start len lo hi (xs ++ b :: ys) ↔
      Tiles start len lo (start b) xs ∧ 0 < len b ∧
        Tiles start len (start b + len b) hi ys := by
  rw [tiles_append]
  constructor
  · rintro ⟨mid, h₁, h₂, h₃, h₄⟩
    subst h₂
    exact ⟨h₁, h₃, h₄⟩
  · rintro ⟨h₁, h₂, h₃⟩
    exact ⟨start b, h₁, rfl, h₂, h₃⟩

theorem Tiles.bounds {bs : List β} (h : Tiles start len lo hi bs) {b : β} (hb : b ∈ bs) :
    lo ≤ start b ∧ start b + len b ≤ hi ∧ 0 < len b := by
  obtain ⟨xs, ys, rfl⟩ := List.append_of_mem hb
  obtain ⟨h₁, h₂, h₃⟩ := tiles_around.mp h
  exact ⟨h₁.le, h₃.le, h₂⟩

/-- Nothing tiles an empty stretch. -/
theorem Tiles.eq_nil {bs : List β} (h : Tiles start len lo lo bs) : bs = [] := by
  cases bs with
  | nil => rfl
  | cons b bs =>
    have hb := h.bounds (b := b) (by simp)
    omega

/-- Neighbours touch. -/
theorem Tiles.neighbours {xs ys : List β} {b c : β}
    (h : Tiles start len lo hi (xs ++ b :: c :: ys)) :
    start c = start b + len b ∧ 0 < len b := by
  obtain ⟨-, hpos, hrest⟩ := tiles_around.mp h
  exact ⟨(tiles_cons.mp hrest).1, hpos⟩

/-- The elements around `b` lie on one side of it or the other. -/
theorem Tiles.around_apart {xs ys : List β} {b c : β} (h : Tiles start len lo hi (xs ++ b :: ys))
    (hc : c ∈ xs ∨ c ∈ ys) :
    0 < len c ∧ (start c + len c ≤ start b ∨ start b + len b ≤ start c) := by
  obtain ⟨hxs, -, hys⟩ := tiles_around.mp h
  rcases hc with hx | hy
  · have := hxs.bounds hx
    omega
  · have := hys.bounds hy
    omega

theorem Tiles.pairwise {bs : List β} (h : Tiles start len lo hi bs) :
    bs.Pairwise fun a b => start a + len a ≤ start b := by
  induction bs generalizing lo with
  | nil => exact List.Pairwise.nil
  | cons b bs ih =>
    refine List.pairwise_cons.mpr ⟨fun c hc => ?_, ih h.2.2⟩
    rw [h.1]
    exact (h.2.2.bounds hc).1

/-- Two pieces of a tiling are the same piece, or one ends before the other starts. -/
theorem Tiles.apart {bs : List β} (h : Tiles start len lo hi bs) {a b : β} (ha : a ∈ bs)
    (hb : b ∈ bs) : a = b ∨ start a + len a ≤ start b ∨ start b + len b ≤ start a := by
  by_cases hab : a = b
  · exact Or.inl hab
  · have hsym : Std.Symm fun a b : β => start a + len a ≤ start b ∨ start b + len b ≤ start a :=
      ⟨fun _ _ h => h.symm⟩
    have hpw : bs.Pairwise fun a b => start a + len a ≤ start b ∨ start b + len b ≤ start a :=
      h.pairwise.imp fun h => Or.inl h
    exact Or.inr (hpw.forall ha hb hab)

/-- Pieces that share a point are equal. -/
theorem Tiles.eq_of_mem {bs : List β} (h : Tiles start len lo hi bs) {a b : β} (ha : a ∈ bs)
    (hb : b ∈ bs) {u : ℕ} (hua : start a ≤ u ∧ u < start a + len a)
    (hub : start b ≤ u ∧ u < start b + len b) : a = b := by
  rcases h.apart ha hb with heq | h₁ | h₂
  · exact heq
  · omega
  · omega

theorem Tiles.eq_of_start {bs : List β} (h : Tiles start len lo hi bs) {a b : β} (ha : a ∈ bs)
    (hb : b ∈ bs) (hab : start a = start b) : a = b := by
  have h₁ := (h.bounds ha).2.2
  have h₂ := (h.bounds hb).2.2
  exact h.eq_of_mem ha hb (u := start a) (by omega) (by omega)

theorem Tiles.nodup_starts {bs : List β} (h : Tiles start len lo hi bs) :
    (bs.map start).Nodup := by
  induction bs generalizing lo with
  | nil => exact List.nodup_nil
  | cons b bs ih =>
    simp only [List.map_cons, List.nodup_cons]
    refine ⟨fun hmem => ?_, ih h.2.2⟩
    obtain ⟨c, hc, hcb⟩ := List.mem_map.mp hmem
    have h₁ := (h.2.2.bounds hc).1
    have h₂ := h.1
    have h₃ := h.2.1
    omega

/-- Where a piece ends, the interval ends or the next piece of the list starts. -/
theorem Tiles.next {xs ys : List β} {b : β} (h : Tiles start len lo hi (xs ++ b :: ys)) :
    (ys = [] ∧ start b + len b = hi) ∨
      ∃ c zs, ys = c :: zs ∧ start c = start b + len b ∧ start b + len b < hi := by
  obtain ⟨-, -, h₃⟩ := tiles_around.mp h
  cases ys with
  | nil => exact Or.inl ⟨rfl, h₃⟩
  | cons c zs =>
    have := h₃.2.2.le
    exact Or.inr ⟨c, zs, rfl, h₃.1, by have := h₃.2.1; omega⟩

/-- Where a piece starts, the interval starts or the piece before it in the list ends. -/
theorem Tiles.prev {xs ys : List β} {b : β} (h : Tiles start len lo hi (xs ++ b :: ys)) :
    (xs = [] ∧ start b = lo) ∨
      ∃ zs c, xs = zs ++ [c] ∧ start c + len c = start b ∧ lo < start b := by
  obtain ⟨h₁, -, -⟩ := tiles_around.mp h
  rcases List.eq_nil_or_concat xs with rfl | ⟨zs, c, rfl⟩
  · exact Or.inl ⟨rfl, h₁.symm⟩
  · rw [List.concat_eq_append] at *
    obtain ⟨h₂, h₃, h₄⟩ := tiles_around.mp h₁
    have hlo := h₂.le
    have heq : start c + len c = start b := h₄
    exact Or.inr ⟨zs, c, rfl, heq, by omega⟩

/-- A relation holds along a tiling when it holds of any piece and the one that starts at its end. -/
theorem Tiles.isChain_iff {R : β → β → Prop} {bs : List β} (h : Tiles start len lo hi bs) :
    bs.IsChain R ↔ ∀ b ∈ bs, ∀ c ∈ bs, start c = start b + len b → R b c := by
  induction bs generalizing lo with
  | nil => simp
  | cons a bs ih =>
    have ha := h.1
    have hpos := h.2.1
    rw [List.isChain_cons, ih h.2.2]
    constructor
    · rintro ⟨hfirst, hrest⟩ b hb c hc hbc
      rcases List.mem_cons.mp hb with rfl | hb'
      · rcases List.mem_cons.mp hc with rfl | hc'
        · omega
        · -- the piece that starts where the first one ends is the second one
          cases bs with
          | nil => cases hc'
          | cons d bs =>
            have hcd : c = d := h.2.2.eq_of_start hc' (by simp) (by rw [h.2.2.1]; omega)
            exact hfirst c (by simp [hcd])
      · rcases List.mem_cons.mp hc with rfl | hc'
        · have := (h.2.2.bounds hb').1
          omega
        · exact hrest b hb' c hc' hbc
    · intro hall
      refine ⟨fun c hc => ?_, fun b hb c hc => hall b (by simp [hb]) c (by simp [hc])⟩
      cases bs with
      | nil => cases hc
      | cons d bs =>
        obtain rfl : d = c := by simpa using hc
        exact hall a (by simp) d (by simp) (by rw [h.2.2.1, ha])

/-- A tiling has at most as many pieces as the interval has points. -/
theorem Tiles.length_le {bs : List β} (h : Tiles start len lo hi bs) : bs.length ≤ hi - lo := by
  induction bs generalizing lo with
  | nil => simp
  | cons b bs ih =>
    have h₁ := ih h.2.2
    have h₂ := h.2.1
    have h₃ := h.2.2.le
    simp only [List.length_cons]
    omega

end Tiling

end SystemProgramming
