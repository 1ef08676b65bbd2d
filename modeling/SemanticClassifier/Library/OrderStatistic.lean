import Mathlib.Algebra.BigOperators.Group.List.Basic
import Mathlib.Algebra.Order.Ring.Nat
import Mathlib.Data.List.Sort

namespace OrderStatistic
universe u
variable {α : Type u} [LinearOrder α] {samples : List α} {x y : α} {k l : Nat}

-- The k-th smallest sample, ranks counted from one.
def ranked (k : Nat) (samples : List α) : Option α := (samples.insertionSort (· ≤ ·))[k - 1]?

theorem ranked_exists (positive : 0 < k) (within : k ≤ samples.length) :
    ∃ x ∈ samples, ranked k samples = some x := by
  have size : k - 1 < (samples.insertionSort (· ≤ ·)).length := by
    rw [List.length_insertionSort]
    omega
  refine ⟨_,?_,List.getElem?_eq_getElem size⟩
  exact (List.mem_insertionSort (· ≤ ·)).mp (List.getElem_mem size)

theorem ranked_mem (found : ranked k samples = some x) : x ∈ samples := by
  obtain ⟨below,rfl⟩ := List.getElem?_eq_some_iff.mp found
  exact (List.mem_insertionSort (· ≤ ·)).mp (List.getElem_mem below)

theorem ranked_split (found : ranked k samples = some x) : ∃ before after, before.length = k - 1 ∧
    samples.Perm (before ++ x :: after) ∧ (∀ a ∈ before, a ≤ x) ∧ ∀ a ∈ after, x ≤ a := by
  obtain ⟨below,here⟩ := List.getElem?_eq_some_iff.mp found
  have sorted := List.pairwise_insertionSort (· ≤ ·) samples
  rw [← List.take_append_drop (k - 1) (samples.insertionSort _),List.drop_eq_getElem_cons below,here] at sorted
  obtain ⟨_,late,across⟩ := List.pairwise_append.mp sorted
  refine ⟨_,_,?_,?_,fun a member => across a member x List.mem_cons_self,(List.pairwise_cons.mp late).1⟩
  · rw [List.length_take]
    omega
  · rw [← here,← List.drop_eq_getElem_cons below,List.take_append_drop]
    exact (List.perm_insertionSort (· ≤ ·) samples).symm

theorem below_rank (positive : 0 < k) (found : ranked k samples = some x) :
    samples.countP (· < x) < k := by
  obtain ⟨before,after,size,same,_,later⟩ := ranked_split found
  have none : (x :: after).countP (· < x) = 0 := by
    apply List.countP_eq_zero.mpr
    intro a member
    rcases List.mem_cons.mp member with rfl | behind
    · simp
    · simpa using later a behind
  rw [same.countP_eq,List.countP_append,none]
  have few : before.countP (· < x) ≤ before.length := List.countP_le_length
  omega

theorem through_rank (found : ranked k samples = some x) : k ≤ samples.countP (· ≤ x) := by
  obtain ⟨before,after,size,same,earlier,_⟩ := ranked_split found
  have all : before.countP (· ≤ x) = before.length :=
    List.countP_eq_length.mpr fun a member => by simpa using earlier a member
  rw [same.countP_eq,List.countP_append,all,List.countP_cons_of_pos (by simp)]
  omega

theorem ranked_le (ordered : k ≤ l) (first : ranked k samples = some x)
    (second : ranked l samples = some y) : x ≤ y := by
  obtain ⟨below,rfl⟩ := List.getElem?_eq_some_iff.mp first
  obtain ⟨above,rfl⟩ := List.getElem?_eq_some_iff.mp second
  exact (List.sortedLE_insertionSort (l := samples)).getElem_le_getElem_of_le (by omega)

-- A walk along the counters of consecutive buckets, up to the first whose
-- running total reaches the target.
def reach (target cumulative i : Nat) : List Nat → Option Nat
  | [] => none
  | n :: rest => if target ≤ cumulative + n then some i else reach target (cumulative + n) (i + 1) rest

theorem reach_found {target cumulative i j : Nat} {counts : List Nat} (within : j < counts.length)
    (short : cumulative + (counts.take j).sum < target)
    (enough : target ≤ cumulative + (counts.take (j + 1)).sum) :
    reach target cumulative i counts = some (i + j) := by
  induction counts generalizing cumulative i j with
  | nil => cases within
  | cons n rest ih =>
      cases j with
      | zero =>
          have here : target ≤ cumulative + n := by simpa using enough
          simp [reach,here]
      | succ j =>
          rw [List.take_succ_cons,List.sum_cons] at short enough
          have before : ¬ target ≤ cumulative + n := by omega
          rw [reach,if_neg before,ih (Nat.lt_of_succ_lt_succ within) (by omega) (by omega)]
          congr 1
          omega

variable {bucket : α → Nat}

omit [LinearOrder α] in
theorem bucket_total (bucket : α → Nat) (samples : List α) (n : Nat) :
    ((List.range n).map fun i => samples.countP (bucket · = i)).sum = samples.countP (bucket · < n) := by
  induction n with
  | zero => simp
  | succ n ih =>
      rw [List.range_succ,List.map_append,List.sum_append,ih]
      clear ih
      induction samples with
      | nil => simp
      | cons a rest ih =>
          simp only [List.countP_cons,List.map_cons,List.map_nil,List.sum_cons,List.sum_nil,decide_eq_true_eq] at ih ⊢
          split_ifs <;> omega

-- Buckets that keep the order of the samples lose nothing of the rank: the walk
-- stops at the bucket of the very sample that has it.
theorem reach_ranked {n : Nat} (monotone : ∀ a ∈ samples, ∀ b ∈ samples, a ≤ b → bucket a ≤ bucket b)
    (covered : ∀ a ∈ samples, bucket a < n) (positive : 0 < k) (within : x ∈ samples)
    (found : ranked k samples = some x) :
    reach k 0 0 ((List.range n).map fun i => samples.countP (bucket · = i)) = some (bucket x) := by
  have below : samples.countP (bucket · < bucket x) ≤ samples.countP (· < x) := by
    apply List.countP_mono_left
    intro a member less
    simp only [decide_eq_true_eq] at less ⊢
    exact lt_of_not_ge fun least => absurd (monotone x within a member least) (by omega)
  have through : samples.countP (· ≤ x) ≤ samples.countP (bucket · < bucket x + 1) := by
    apply List.countP_mono_left
    intro a member most
    simp only [decide_eq_true_eq] at most ⊢
    exact Nat.lt_succ_of_le (monotone a member x within most)
  have here := covered x within
  have prefixes : ∀ m ≤ n, (((List.range n).map fun i => samples.countP (bucket · = i)).take m).sum =
      samples.countP (bucket · < m) := by
    intro m most
    rw [← List.map_take,List.take_range,Nat.min_eq_left most,bucket_total]
  have short := below_rank positive found
  have enough := through_rank found
  rw [reach_found (j := bucket x)]
  · rw [Nat.zero_add]
  · simpa using here
  · rw [prefixes _ here.le]
    omega
  · rw [prefixes (bucket x + 1) here]
    omega

end OrderStatistic
