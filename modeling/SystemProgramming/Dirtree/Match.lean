import SystemProgramming.Lib.Exec
import SystemProgramming.Lib.CString
import Mathlib.Data.Int.Notation

/-!
# The name filter of `dirtree`

`find_close`, `match_group_once`, `submatch` and `match` as the source computes them.  A pointer is
the rest of its string, reading past a NUL aborts, and the loops of `submatch` are evaluated for at
most `fuel` rounds.
-/

namespace SystemProgramming.Dirtree

open Exec

/-- `'('` -/
def lpar : CChar := ⟨40, by decide⟩

/-- `')'` -/
def rpar : CChar := ⟨41, by decide⟩

/-- `'*'` -/
def star : CChar := ⟨42, by decide⟩

theorem question_ne_nul : (63 : UInt8) ≠ 0 := by decide

/-- `'?'` -/
def question : CChar := ⟨63, question_ne_nul⟩

variable {σ : Type}

/-- The loop of `find_close`, `depth` parentheses being open. -/
def findCloseFrom : Str → ℤ → Option Str
  | [], _ => none
  | c :: p, depth =>
    if c = lpar then findCloseFrom p (depth + 1)
    else if c = rpar then
      if depth - 1 = 0 then some (c :: p) else findCloseFrom p (depth - 1)
    else findCloseFrom p depth

/-- `find_close(p)`: the `)` that matches the `(` at `p`. -/
def findClose : Str → Exec σ (Option Str)
  | [] => fun _ => .abort
  | _ :: p => pure (findCloseFrom p 1)

/-- `match_group_once`, `count` characters having been compared. -/
def matchGroupOnce : Str → Str → Str → ℤ → ℤ
  | s, [], group_end, count =>
    -- `*group_start` is NUL here, which no character of the name equals
    if [] = group_end then count else match s with
      | [] => -1
      | _ :: _ => -1
  | s, g :: group_start, group_end, count =>
    if g :: group_start = group_end then count else match s with
      | [] => -1
      | c :: s =>
        if c ≠ g ∧ g ≠ question then -1 else matchGroupOnce s group_start group_end (count + 1)

/-- The loop of `submatch` at the end of the name: can the rest of the pattern be skipped? -/
def skipRest : ℕ → Str → Exec σ Bool
  | _, [] => pure true
  | 0, _ :: _ => timeout
  | fuel + 1, x :: p =>
    if x = lpar then do
      match ← findClose (x :: p) with
      | some (_ :: c :: after) => if c = star then skipRest fuel after else pure false
      | some _ => pure false
      | none => pure false
    else match p with
      | [] => pure false
      | c :: p => if c = star then skipRest fuel p else pure false

/-- The comparison with a group that is not repeated:
`while (k < len && *ts && *tp && (*tp == '?' || *ts == *tp))`. -/
def compareInner (len : ℤ) : ℤ → Str → Str → ℤ × Str
  | k, [], _ => (k, [])
  | k, c :: ts, [] => (k, c :: ts)
  | k, c :: ts, x :: tp =>
    if k < len ∧ (x = question ∨ c = x) then compareInner len (k + 1) ts tp else (k, c :: ts)

/-- `while (1)` over the repetitions of the group from `start` to `close`; `rest` is
`submatch(·, after + 1)`. -/
def groupLoop (rest : Str → Exec σ Bool) (start close : Str) : ℕ → Str → Exec σ Bool
  | 0, _ => timeout
  | fuel + 1, ts => do
    if ← rest ts then
      return true
    let advance := matchGroupOnce ts start close 0
    if advance < 0 then
      return false
    groupLoop rest start close fuel (ts.drop advance.toNat)

/-- `while (*s == c)` over the repetitions of one character; `rest` is `submatch(·, p + 2)`. -/
def charLoop (rest : Str → Exec σ Bool) (c : CChar) : Str → Exec σ Bool
  | [] => pure false
  | d :: s =>
    if d = c then do
      if ← rest s then return true else charLoop rest c s
    else pure false

/-- `submatch(s, p)`: does the pattern match at the start of the name? -/
def submatch : ℕ → Str → Str → Exec σ Bool
  | _, _, [] => pure true
  | 0, _, _ :: _ => timeout
  | fuel + 1, [], x :: p => skipRest (fuel + 1) (x :: p)
  | fuel + 1, c :: s, x :: p =>
    if x = lpar then do
      match ← findClose (x :: p) with
      | none => return false
      | some p_closed =>
        let len : ℤ := p.length - p_closed.length
        let after := p_closed.tail
        if after.head? = some star then
          groupLoop (fun ts => submatch fuel ts after.tail) p p_closed (fuel + 1) (c :: s)
        else
          let (k, ts) := compareInner len 0 (c :: s) p
          if k ≠ len then
            return false
          submatch fuel ts after
    else if p.head? = some star then do
      if ← submatch fuel (c :: s) p.tail then return true
      charLoop (fun s => submatch fuel s p.tail) x (c :: s)
    else if x ≠ question ∧ c ≠ x then
      return false
    else submatch fuel s p

/-- The loop of `match`: try every position of the name, the end included. -/
def matchFrom (fuel : ℕ) (pattern : Str) : Str → Exec σ Bool
  | [] => do
    if ← submatch fuel [] pattern then return true
    return false
  | c :: str => do
    if ← submatch fuel (c :: str) pattern then return true
    matchFrom fuel pattern str

/-- `match(str, pattern)` -/
def matchStr (fuel : ℕ) (str pattern : Option Str) : Exec σ Bool :=
  match str, pattern with
  | some str, some pattern => matchFrom fuel pattern str
  | _, _ => pure false

end SystemProgramming.Dirtree
