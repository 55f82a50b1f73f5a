import SystemProgramming.Lib.Exec
import Mathlib.Data.Finset.Basic

/-!
# Resources that are live

The state is the set of the resources that a program has got and not given back.  A request may be refused;
giving back what is not live, or getting what is live already, is not allowed.

* `wp_request`: a request gets the resource or leaves everything as it was.
* `wp_release`: what is live is given back.
-/

namespace SystemProgramming.Ledger

open Exec

variable {ρ : Type} [DecidableEq ρ] {grant : ρ → Bool} {r : ρ} {live : Finset ρ}

/-- A request, which returns whether it is granted. -/
def acquire (grant : ρ → Bool) (r : ρ) : Exec (Finset ρ) Bool := fun live =>
  if grant r = true then if r ∈ live then .abort else .ok true (insert r live) else .ok false live

/-- The resource is given back. -/
def release (r : ρ) : Exec (Finset ρ) Unit := fun live =>
  if r ∈ live then .ok () (live.erase r) else .abort

theorem wp_acquire {Q : Bool → Finset ρ → Prop} (hgranted : grant r = true → r ∉ live ∧ Q true (insert r live))
    (hrefused : grant r = false → Q false live) : wp (acquire grant r) Q live := by
  cases hr : grant r with
  | true =>
    obtain ⟨hout, hQ⟩ := hgranted hr
    refine ⟨true, insert r live, ?_, hQ⟩
    unfold acquire
    rw [if_pos hr, if_neg hout]
  | false =>
    refine ⟨false, live, ?_, hrefused hr⟩
    unfold acquire
    rw [if_neg (by rw [hr]; decide)]

/-- `if (!request) return x;`, and the rest of the function. -/
theorem wp_request {α : Type} {Q : α → Finset ρ → Prop} {x y : Exec (Finset ρ) α} (hout : r ∉ live)
    (hgranted : grant r = true → wp y Q (insert r live)) (hrefused : grant r = false → wp x Q live) :
    wp (do if !(← acquire grant r) then x else y) Q live := by
  rw [wp_bind]
  apply wp_acquire
  · exact fun hr => ⟨hout, hgranted hr⟩
  · exact hrefused

theorem wp_release {Q : Unit → Finset ρ → Prop} (hmem : r ∈ live) (hQ : Q () (live.erase r)) :
    wp (release r) Q live := by
  refine ⟨(), live.erase r, ?_, hQ⟩
  unfold release
  rw [if_pos hmem]

end SystemProgramming.Ledger
