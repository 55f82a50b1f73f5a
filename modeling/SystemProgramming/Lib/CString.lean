import Mathlib.Tactic.Common
import Mathlib.Data.Int.Notation

/-!
# C strings

A `Str` is what a `char *` points at, up to the terminating NUL: reading `*p` gives the first
character, or NUL (`none`) at the end, and `p + 1` is the tail.  So a pointer into a string is again a
`Str`, and one that has passed the NUL does not exist.
-/

namespace SystemProgramming

/-- A `char` other than NUL. -/
abbrev CChar := {c : UInt8 // c ≠ 0}

/-- A NUL-terminated string, or a pointer into one. -/
abbrev Str := List CChar

/-- `strcmp(a, b)`: negative, zero or positive, characters being compared as `unsigned char`. -/
def strcmp : Str → Str → ℤ
  | [], [] => 0
  | [], _ :: _ => -1
  | _ :: _, [] => 1
  | c :: a, d :: b => if c = d then strcmp a b else if c.1 < d.1 then -1 else 1

theorem strcmp_eq_zero {a b : Str} : strcmp a b = 0 ↔ a = b := by
  induction a generalizing b with
  | nil => cases b <;> simp [strcmp]
  | cons c a ih =>
    cases b with
    | nil => simp [strcmp]
    | cons d b =>
      rw [strcmp]
      by_cases hcd : c = d
      · rw [if_pos hcd, ih, hcd]
        simp
      · rw [if_neg hcd]
        have hne : c :: a ≠ d :: b := fun h => hcd (List.cons.inj h).1
        split <;> simp [hne]

/-- `strcmp` is the dictionary order. -/
theorem strcmp_le_zero {a b : Str} : strcmp a b ≤ 0 ↔ a ≤ b := by
  induction a generalizing b with
  | nil => cases b <;> simp [strcmp]
  | cons c a ih =>
    cases b with
    | nil => simp [strcmp]
    | cons d b =>
      rw [strcmp, List.cons_le_cons_iff]
      by_cases hcd : c = d
      · subst hcd
        rw [if_pos rfl, ih]
        constructor
        · exact fun h => Or.inr ⟨rfl, h⟩
        · exact fun h => h.elim (fun hlt => absurd hlt (Std.Irrefl.irrefl _)) And.right
      · rw [if_neg hcd]
        have hlt : c < d ↔ c.1 < d.1 := Iff.rfl
        split <;> simp_all

instance (a b : Str) : Decidable (a ≤ b) := decidable_of_iff _ strcmp_le_zero

/-- `snprintf(dst, dstsz, "%s", src)`: what fits in front of the NUL. -/
def snprintf (dstsz : ℕ) (src : Str) : Str := src.take (dstsz - 1)

end SystemProgramming
