import Mathlib.Data.List.Perm.Basic

namespace Shuffle
universe u
variable {α : Type u}

-- Several lists worked off side by side, each in its own order.
inductive Shuffled : List (List α) → List α → Prop where
  | done {lists : List (List α)} : (∀ l ∈ lists, l = []) → Shuffled lists []
  | next {front back : List (List α)} {rest taken : List α} {x : α} :
      Shuffled (front ++ rest :: back) taken → Shuffled (front ++ (x :: rest) :: back) (x :: taken)

theorem Shuffled.perm {lists : List (List α)} {l : List α} (shuffled : Shuffled lists l) :
    l.Perm lists.flatten := by
  induction shuffled with
  | done exhausted => rw [List.flatten_eq_nil_iff.mpr exhausted]
  | @next front back rest taken x _ ih =>
      simp only [List.flatten_append,List.flatten_cons,List.cons_append] at ih ⊢
      exact (ih.cons x).trans List.perm_middle.symm

theorem shuffled_single (l : List α) : Shuffled [l] l := by
  induction l with
  | nil => exact .done (by simp)
  | cons x rest ih =>
      have alone : Shuffled ([] ++ (x :: rest) :: []) (x :: rest) := .next ih
      exact alone

end Shuffle
