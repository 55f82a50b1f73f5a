import Mathlib.Tactic.Common
import Mathlib.Data.List.Induction

/-!
# Lines of a stream

A stream is cut at a separator: `completeLines` are the terminated pieces, each with its separator,
and `partialLine` is what follows the last separator.  A stream is read piece by piece, so the
lemmas say what the two are for `xs ++ ys` in terms of the unfinished line of `xs`.

* `completeLines_append`, `partialLine_append`: the lines of a stream that goes on.
* `induction_lines`: induction on the lines of a stream.
-/

namespace SystemProgramming.Lines

variable {α : Type} [DecidableEq α] {nl : α} {bs xs ys : List α}

/-- The terminated lines, in order, each with its separator. -/
def completeLines (nl : α) (bs : List α) : List (List α) :=
  ((bs.splitOn nl).dropLast).map (· ++ [nl])

/-- What follows the last separator. -/
def partialLine (nl : α) (bs : List α) : List α :=
  (bs.splitOn nl).getLast (List.splitOn_ne_nil nl bs)

theorem splitOn_of_not_mem (h : nl ∉ bs) : bs.splitOn nl = [bs] := by
  rw [List.splitOn_eq_splitOnP]
  apply List.splitOnP_eq_singleton
  intro x hx
  exact beq_false_of_ne fun heq => h (heq ▸ hx)

theorem splitOn_append_cons (h : nl ∉ xs) :
    (xs ++ nl :: ys).splitOn nl = xs :: ys.splitOn nl := by
  rw [List.splitOn_eq_splitOnP, List.splitOn_eq_splitOnP]
  apply List.splitOnP_append_cons_of_forall_mem
  · intro x hx
    exact beq_false_of_ne fun heq => h (heq ▸ hx)
  · exact beq_self_eq_true nl

@[simp] theorem completeLines_of_not_mem (h : nl ∉ bs) : completeLines nl bs = [] := by
  simp only [completeLines, splitOn_of_not_mem h, List.dropLast_singleton, List.map_nil]

@[simp] theorem partialLine_of_not_mem (h : nl ∉ bs) : partialLine nl bs = bs := by
  simp only [partialLine, splitOn_of_not_mem h, List.getLast_singleton]

@[simp] theorem completeLines_append_cons (h : nl ∉ xs) :
    completeLines nl (xs ++ nl :: ys) = (xs ++ [nl]) :: completeLines nl ys := by
  simp only [completeLines, splitOn_append_cons h,
    List.dropLast_cons_of_ne_nil (List.splitOn_ne_nil nl ys), List.map_cons]

@[simp] theorem partialLine_append_cons (h : nl ∉ xs) :
    partialLine nl (xs ++ nl :: ys) = partialLine nl ys := by
  simp only [partialLine, splitOn_append_cons h, List.getLast_cons (List.splitOn_ne_nil nl ys)]

omit [DecidableEq α] in
/-- A stream with a separator has a first line. -/
theorem exists_first (h : nl ∈ bs) : ∃ xs ys, nl ∉ xs ∧ bs = xs ++ nl :: ys := by
  obtain ⟨xs, ys, hbs, hxs⟩ := List.eq_append_cons_of_mem h
  exact ⟨xs, ys, hxs, hbs⟩

/-- **Induction on lines**: an unfinished line, or a first line and the rest of the stream. -/
theorem induction_lines {P : List α → Prop} (nl : α) (hpart : ∀ bs, nl ∉ bs → P bs)
    (hline : ∀ xs ys, nl ∉ xs → P ys → P (xs ++ nl :: ys)) (bs : List α) : P bs := by
  induction hn : bs.length using Nat.strongRecOn generalizing bs with
  | _ n ih =>
    by_cases hmem : nl ∈ bs
    · obtain ⟨xs, ys, hxs, rfl⟩ := exists_first hmem
      apply hline xs ys hxs
      apply ih ys.length _ ys rfl
      rw [← hn, List.length_append, List.length_cons]
      omega
    · exact hpart bs hmem

theorem not_mem_partialLine (nl : α) (bs : List α) : nl ∉ partialLine nl bs := by
  induction bs using induction_lines nl with
  | hpart bs h => rwa [partialLine_of_not_mem h]
  | hline xs ys h ih => rwa [partialLine_append_cons h]

theorem partialLine_append (nl : α) (xs ys : List α) :
    partialLine nl (xs ++ ys) = partialLine nl (partialLine nl xs ++ ys) := by
  induction xs using induction_lines nl with
  | hpart xs h => rw [partialLine_of_not_mem h]
  | hline zs xs h ih =>
    rw [List.append_assoc, List.cons_append, partialLine_append_cons h, ih,
      partialLine_append_cons h]

/-- What is read after `xs` completes the unfinished line of `xs` first. -/
theorem completeLines_append (nl : α) (xs ys : List α) :
    completeLines nl (xs ++ ys)
      = completeLines nl xs ++ completeLines nl (partialLine nl xs ++ ys) := by
  induction xs using induction_lines nl with
  | hpart xs h =>
    rw [partialLine_of_not_mem h, completeLines_of_not_mem h]
    rfl
  | hline zs xs h ih =>
    rw [List.append_assoc, List.cons_append, completeLines_append_cons h,
      completeLines_append_cons h, partialLine_append_cons h, ih]
    rfl

theorem completeLines_eq_nil : completeLines nl bs = [] ↔ nl ∉ bs := by
  constructor
  · intro h hmem
    obtain ⟨xs, ys, hxs, rfl⟩ := exists_first hmem
    rw [completeLines_append_cons hxs] at h
    cases h
  · exact completeLines_of_not_mem

end SystemProgramming.Lines
