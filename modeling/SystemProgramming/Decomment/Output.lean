import SystemProgramming.Decomment.Lexer

/-!
# What is printed

The output is determined by the context in the dialect of the program (`printed`, `main_stdout_eq`).  A
newline that stands directly behind a star in a `/* */` comment is lost; every other one is printed where it
is read (`newlines_kept`).  A second run over the output changes nothing (`decomment_idempotent`): outside
constants the output has no slash before a slash or a star, so the second run stays in code there, and in
constants both runs go together.

* `main_stdout_eq`: what the program prints is what its lexer prints.
* `newlines_kept`: when every newline is kept, and `newlines_kept_fails`, a text that loses one.
* `decomment_idempotent`: decommenting is idempotent.
-/

namespace SystemProgramming.Decomment

/-- The lexer of a dialect, with the output of the program. -/
def reader (d : Dialect) : Transducer Context UInt8 UInt8 := ⟨fun k x => (next d k x, printed k x)⟩

theorem reader_state (d : Dialect) (s : List UInt8) : (reader d).state .code s = lex d s := rfl

/-- **The output of the program** is that of its lexer. -/
theorem main_stdout_eq (c : UInt8) (s : List UInt8) : (main c s).stdout = (reader .program).output .code s := by
  rw [main_stdout]
  apply machine.output_rel (N := reader .program) (R := Shows)
    fun v k x h => ⟨(h.switch x).1.readChar, (h.switch x).2⟩
  exact shows_lex c []

/-! ### Newlines -/

/-- The one newline for which nothing is printed. -/
def swallows (k : Context) (x : UInt8) : ℕ := if k = .star ∧ x = newline then 1 else 0

/-- The account of one round. -/
theorem printed_newlines (k : Context) (x : UInt8) :
    (printed k x).countP (· == newline) + swallows k x = [x].countP (· == newline) := by
  by_cases hx : x = newline
  · rw [hx]
    cases k <;> rfl
  · have hone : [x].countP (· == newline) = 0 := List.count_eq_zero.mpr fun h =>
      hx (List.mem_singleton.mp h).symm
    have hnone : swallows k x = 0 := if_neg fun h => hx h.2
    rw [hone, hnone, Nat.add_zero]
    cases k with
    | code =>
      rw [printed]
      split_ifs
      · rfl
      · exact hone
    | slash =>
      rw [printed]
      split_ifs
      · rfl
      · exact (List.countP_cons_of_neg (by decide)).trans hone
    | constant q b => exact hone
    | line =>
      rw [printed, if_neg hx]
      rfl
    | block =>
      rw [printed, if_neg hx]
      rfl
    | star => rfl

/-- **Line numbering is preserved** if and only if no newline stands directly behind a star in a `/* */`
comment, as the program reads the text. -/
theorem newlines_kept (c : UInt8) (s : List UInt8) :
    (main c s).stdout.count newline = s.count newline ↔
      ∀ u w, s = u ++ newline :: w → lex .program u ≠ .star := by
  have haccount := (reader .program).countP_output printed_newlines .code s
  have hlost : (main c s).stdout.count newline = s.count newline ↔ (reader .program).lost swallows .code s = 0 := by
    rw [main_stdout_eq]
    unfold List.count
    omega
  rw [hlost, Transducer.lost_eq_zero]
  constructor
  · intro h u w hs hstar
    have hu := h u newline w hs
    rw [reader_state, hstar] at hu
    cases hu
  · intro h u x w hs
    refine if_neg fun hx => ?_
    rw [hx.2] at hs
    exact h u w hs hx.1

/-- In a comment a line that ends in a star loses its newline. -/
theorem newlines_kept_fails :
    (main 0 [slash, star, star, newline, star, slash]).stdout.count newline
      ≠ [slash, star, star, newline, star, slash].count newline := by
  decide

/-! ### A second run -/

/-- Where the second run stands: in the same constant, or in code. -/
def again : Context → Context
  | .constant q b => .constant q b
  | _ => .code

/-- The second run over what is printed for one character. -/
theorem reader_printed (k : Context) (x : UInt8) :
    again (next .program k x) = (reader .program).state (again k) (printed k x) ∧
      (reader .program).output (again k) (printed k x) = printed k x := by
  have hcode (h : x ≠ slash) : again (inCode x) = inCode x ∧ (reader .program).output .code [x] = [x] := by
    constructor
    · unfold inCode
      rw [if_neg h]
      split_ifs <;> rfl
    · show printed .code x ++ [] = [x]
      rw [List.append_nil, printed, if_neg h]
  cases k with
  | code =>
    by_cases hslash : x = slash
    · rw [hslash]
      exact ⟨rfl, rfl⟩
    · rw [printed, if_neg hslash]
      exact hcode hslash
  | slash =>
    by_cases hcomment : x = slash ∨ x = star
    · rcases hcomment with rfl | rfl <;> exact ⟨rfl, rfl⟩
    · obtain ⟨hslash, hstar⟩ := not_or.mp hcomment
      have hnext : next .program .slash x = .code := by
        rw [next, if_neg hslash, if_neg hstar]
        rfl
      have hprinted : printed .slash x = [slash, x] := if_neg hcomment
      rw [hprinted, hnext]
      constructor
      · exact hnext.symm
      · show [] ++ (printed .slash x ++ []) = [slash, x]
        rw [hprinted]
        rfl
  | constant q b =>
    refine ⟨?_, rfl⟩
    show again (next .program (.constant q b) x) = next .program (.constant q b) x
    cases b with
    | false =>
      rw [next]
      split_ifs <;> rfl
    | true =>
      rw [next]
      split_ifs <;> rfl
  | line =>
    rw [next, printed]
    split_ifs
    · exact ⟨rfl, rfl⟩
    · exact ⟨rfl, rfl⟩
  | block =>
    have hagain : again (next .program .block x) = .code := by
      rw [next]
      split_ifs <;> rfl
    rw [hagain, printed]
    split_ifs
    · exact ⟨rfl, rfl⟩
    · exact ⟨rfl, rfl⟩
  | star =>
    have hagain : again (next .program .star x) = .code := by
      rw [next]
      split_ifs <;> rfl
    exact ⟨hagain, rfl⟩

/-- **Decommenting is idempotent.** -/
theorem decomment_idempotent (c c' : UInt8) (s : List UInt8) :
    (main c' (main c s).stdout).stdout = (main c s).stdout := by
  rw [main_stdout_eq, main_stdout_eq]
  apply Transducer.output_output (R := fun k k' => k' = again k)
  · intro k k' x hk
    rw [hk]
    exact ⟨(reader_printed k x).1.symm, (reader_printed k x).2⟩
  · rfl

end SystemProgramming.Decomment
