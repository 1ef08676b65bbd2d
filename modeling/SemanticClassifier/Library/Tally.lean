import Mathlib.Algebra.BigOperators.Group.Finset.Piecewise
import Mathlib.Algebra.Order.BigOperators.Group.Finset
import Mathlib.Data.Fintype.Basic

namespace Tally
universe u v

-- How much the threads hold together, each by the place it stands at.
def tally {τ : Type u} {ρ : Type v} [Fintype τ] (weight : ρ → Nat) (place : τ → ρ) : Nat :=
  Finset.univ.sum fun t => weight (place t)

variable {τ : Type u} {ρ : Type v} [Fintype τ] {weight : ρ → Nat} {place : τ → ρ}

-- Moving one thread trades its old share for its new one.
theorem tally_update [DecidableEq τ] (weight : ρ → Nat) (place : τ → ρ) (t : τ) (after : ρ) :
    tally weight (Function.update place t after) + weight (place t) =
      tally weight place + weight after := by
  have moved : (fun u => weight (Function.update place t after u)) =
      Function.update (fun u => weight (place u)) t (weight after) :=
    Function.comp_update weight place t after
  have split := Finset.add_sum_erase Finset.univ (fun u => weight (place u)) (Finset.mem_univ t)
  unfold tally
  rw [moved,Finset.sum_update_of_mem (Finset.mem_univ t),Finset.sdiff_singleton_eq_erase]
  omega

theorem share_le_tally (weight : ρ → Nat) (place : τ → ρ) (t : τ) :
    weight (place t) ≤ tally weight place :=
  Finset.single_le_sum (f := fun u => weight (place u)) (fun _ _ => Nat.zero_le _) (Finset.mem_univ t)

theorem tally_zero (weight : ρ → Nat) (place : τ → ρ)
    (weightless : ∀ t, weight (place t) = 0) : tally weight place = 0 :=
  Finset.sum_eq_zero fun t _ => weightless t

theorem tally_mono {lighter : ρ → Nat} (below : ∀ t, lighter (place t) ≤ weight (place t)) :
    tally lighter place ≤ tally weight place :=
  Finset.sum_le_sum fun t _ => below t

end Tally
