import Mathlib.Algebra.BigOperators.Group.List.Basic
import Mathlib.Algebra.Order.Monoid.Unbundled.Basic
import Mathlib.Algebra.Order.Monoid.Defs
import Mathlib.Data.List.Sort

namespace TopSum
universe u v
variable {ι : Type u} {K : Type v} [LinearOrder K]

-- The `k` greatest values, repeats counted.
def top (k : Nat) (values : List K) : List K := (values.insertionSort (· ≥ ·)).take k

theorem top_length (k : Nat) (values : List K) : (top k values).length = min k values.length := by
  rw [top,List.length_take,List.length_insertionSort]

theorem sorted_perm {values others : List K} (same : values.Perm others) :
    values.insertionSort (· ≥ ·) = others.insertionSort (· ≥ ·) := by
  apply List.Perm.eq_of_pairwise' (List.pairwise_insertionSort _ values) (List.pairwise_insertionSort _ others)
  exact (List.perm_insertionSort _ values).trans (same.trans (List.perm_insertionSort _ others).symm)

theorem top_perm {values others : List K} (k : Nat) (same : values.Perm others) :
    top k values = top k others := by
  rw [top,top,sorted_perm same]

variable [AddCommMonoid K]

section Bound
variable [IsOrderedAddMonoid K]

-- A selection from a descending list, element by element, stays below its prefix.
theorem sum_le_prefix {selection sorted : List K} (descending : sorted.Pairwise (· ≥ ·))
    (selects : selection.Sublist sorted) : selection.sum ≤ (sorted.take selection.length).sum := by
  induction sorted generalizing selection with
  | nil =>
      rw [List.sublist_nil.mp selects]
      rfl
  | cons greatest rest ih =>
      obtain ⟨first,later⟩ := List.pairwise_cons.mp descending
      cases selection with
      | nil => simp
      | cons x others =>
          rw [List.length_cons,List.take_succ_cons,List.sum_cons,List.sum_cons]
          cases selects with
          | cons_cons _ tail => exact add_le_add le_rfl (ih later tail)
          | cons _ tail =>
              have below := first x (tail.subset List.mem_cons_self)
              exact add_le_add below (ih later ((List.sublist_cons_self x others).trans tail))

theorem sum_le_top {selection values : List K} (selects : selection.Sublist values) :
    selection.sum ≤ (top selection.length values).sum := by
  have within : selection.Subperm (values.insertionSort (· ≥ ·)) :=
    (List.perm_insertionSort _ values).subperm_left.mpr selects.subperm
  obtain ⟨same,perm,sub⟩ := within
  rw [← perm.sum_eq,← perm.length_eq]
  exact sum_le_prefix (List.pairwise_insertionSort _ values) sub

end Bound

-- The greatest values of a measured list are those of one of its selections.
theorem top_selected (measure : ι → K) (k : Nat) (rows : List ι) :
    ∃ selection : List ι, selection.Sublist rows ∧ selection.length = min k rows.length ∧
      (selection.map measure).sum = (top k (rows.map measure)).sum := by
  have within : (top k (rows.map measure)).Subperm (rows.map measure) :=
    (List.perm_insertionSort _ _).subperm_left.mp (List.take_sublist _ _).subperm
  obtain ⟨same,perm,sub⟩ := within
  obtain ⟨selection,selects,rfl⟩ := List.sublist_map_iff.mp sub
  refine ⟨selection,selects,?_,perm.sum_eq⟩
  have size := perm.length_eq
  rwa [List.length_map,top_length,List.length_map] at size

end TopSum
