import SystemProgramming.Dirtree.Validate

/-!
# The matcher ends and stays in bounds

For every pattern that `validate_pattern` accepts, with whatever stands inside its groups.  The checked
matcher asserts that each call of `find_close` returns a closing parenthesis and that `ts += advance`
stays within the name; every other read of the model aborts beyond a NUL.

* `partsOk_checked`: the checks of the matcher never fail.
* `match_safe`: `match` ends, within both strings, on every accepted pattern and every name.
-/

namespace SystemProgramming.Dirtree

open Exec

variable {σ : Type} {st : σ}

/-- `find_close(p)`, which must return a `)`. -/
def checkedFindClose (p : Str) : Exec σ (Option Str) := do
  let close ← findClose p
  assert true (close.bind List.head? = some rpar)
  return close

/-- `ts += advance`, which must not pass the NUL of the name. -/
def checkedAdvance (ts : Str) (n : ℤ) : Exec σ Str := do
  assert true (0 ≤ n ∧ n ≤ ts.length)
  return ts.drop n.toNat

/-- `match(str, pattern)` with both checks. -/
def checkedMatch (fuel : ℕ) (str pattern : Option Str) : Exec σ Bool :=
  match str, pattern with
  | some str, some pattern => matchFromWith checkedFindClose checkedAdvance fuel pattern str
  | _, _ => pure false

theorem partsOk_checked : PartsOk checkedFindClose checkedAdvance st where
  closes body rest h := by
    have hparts : PartsOk findClose plainAdvance st := partsOk_plain
    have hfind := hparts.closes body rest h
    exact hfind.bind (Gives.bind (gives_assert fun _ => rfl) (gives_pure _))
  advances _ _ h₀ hn := Gives.bind (gives_assert fun _ => ⟨h₀, hn⟩) (gives_pure _)

/-- Two functions that decide the same return the same. -/
theorem outcome_eq_iff {x y : Exec σ Bool} {P Q : Prop} (hx : Decides x st P) (hy : Decides y st Q) :
    x st = y st ↔ (P ↔ Q) := by
  obtain ⟨b, hb, hP⟩ := hx
  obtain ⟨c, hc, hQ⟩ := hy
  rw [hb, hc, ← hP, ← hQ]
  constructor
  · intro h
    cases h
    exact Iff.rfl
  · intro h
    rw [Bool.eq_iff_iff.mpr h]

/-- **`match` ends and stays in bounds** on every accepted pattern and every name: it returns, no read
passes a NUL, and every call of `find_close` returns a closing parenthesis. -/
theorem match_safe {σ : Type} (st : σ) (pattern : Str)
    (hvalid : Gives (validatePattern (some pattern)) st true) (name : Str) (fuel : ℕ)
    (hfuel : name.length + pattern.length < fuel) :
    ∃ b, matchStr fuel (some name) (some pattern) st = .ok b st ∧
      checkedMatch fuel (some name) (some pattern) st = .ok b st := by
  obtain ⟨b, hb, hiff⟩ := @decides_validatePattern σ st pattern
  obtain rfl : b = true := by
    rw [Gives, hb] at hvalid
    cases hvalid
    rfl
  obtain ⟨-, is, rfl⟩ := hiff.mp rfl
  have hparts : PartsOk checkedFindClose checkedAdvance st := partsOk_checked
  have hplain := @decides_match name σ st fuel is hfuel
  have hchecked := decides_matchFromWith hparts is hfuel
  have hsame := (outcome_eq_iff hchecked hplain).mpr Iff.rfl
  obtain ⟨c, hc, -⟩ := hplain
  exact ⟨c, hc, hsame.trans hc⟩

/-- The theorem for the pattern `((a)*b)*c`, a star and a group inside a group. -/
theorem match_safe_nested : ∃ b : Bool,
    matchStr 12 (some [⟨97, by decide⟩]) (some [lpar, lpar, ⟨97, by decide⟩, rpar, star,
      ⟨98, by decide⟩, rpar, star, ⟨99, by decide⟩]) () = .ok b () ∧
    checkedMatch 12 (some [⟨97, by decide⟩]) (some [lpar, lpar, ⟨97, by decide⟩, rpar, star,
      ⟨98, by decide⟩, rpar, star, ⟨99, by decide⟩]) () = .ok b () :=
  match_safe () _ (by unfold Gives; decide +kernel) _ 12 (by decide)

end SystemProgramming.Dirtree
