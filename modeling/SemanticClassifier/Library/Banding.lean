import Mathlib.Data.List.Basic
import Mathlib.Data.List.Count
import Mathlib.Tactic.Basic

namespace Banding
universe u
variable {α : Type u} [DecidableEq α]

-- Two rows of slots are compared slot by slot; banding cuts both into
-- consecutive bands of one width and only sees whole bands.
def agreeing (left right : List α) : Nat :=
  (left.zip right).countP (fun pair => pair.1 == pair.2)

def band (slots : List α) (width b : Nat) : List α := (slots.drop (b * width)).take width

theorem agreeing_append (first second third fourth : List α) (size : first.length = third.length) :
    agreeing (first ++ second) (third ++ fourth) = agreeing first third + agreeing second fourth := by
  rw [agreeing,List.zip_append size,List.countP_append]
  rfl

theorem agreeing_all {left right : List α} (size : left.length = right.length)
    (all : agreeing left right = left.length) : left = right := by
  induction left generalizing right with
  | nil => exact (List.length_eq_zero_iff.mp size.symm).symm
  | cons x rest ih =>
      cases right with
      | nil => cases size
      | cons y others =>
          have bound : agreeing rest others ≤ rest.length := by
            simpa [agreeing,Nat.succ.inj size] using
              List.countP_le_length (l := rest.zip others) (p := fun pair => pair.1 == pair.2)
          have split : agreeing (x :: rest) (y :: others) =
              agreeing rest others + if x == y then 1 else 0 := by
            simp [agreeing,List.countP_cons]
          rw [split,List.length_cons] at all
          by_cases equal : x = y
          · subst equal
            rw [ih (Nat.succ.inj size) (by simpa using all)]
          · simp [equal] at all
            omega

theorem agreeing_lt {left right : List α} (size : left.length = right.length)
    (differ : left ≠ right) : agreeing left right < left.length := by
  have bound : agreeing left right ≤ left.length := by
    simpa [agreeing,size] using
      List.countP_le_length (l := left.zip right) (p := fun pair => pair.1 == pair.2)
  exact Nat.lt_of_le_of_ne bound (fun all => differ (agreeing_all size all))

-- Every broken band costs at least one agreeing slot.
theorem broken_cost (n width : Nat) (left right : List α)
    (leftSize : left.length = n * width) (rightSize : right.length = n * width)
    (broken : ∀ b < n, band left width b ≠ band right width b) :
    agreeing left right + n ≤ n * width := by
  induction n generalizing left right with
  | zero =>
      have empty : left = [] := List.length_eq_zero_iff.mp (by simpa using leftSize)
      simp [agreeing,empty]
  | succ n ih =>
      rw [Nat.succ_mul] at leftSize rightSize
      have tail := ih (left.drop width) (right.drop width)
        (by rw [List.length_drop]; omega) (by rw [List.length_drop]; omega)
        (by
          intro b below
          have later := broken (b + 1) (by omega)
          simpa [band,List.drop_drop,Nat.succ_mul,Nat.add_comm] using later)
      have front : left.take width ≠ right.take width := by
        simpa [band] using broken 0 (by omega)
      have sizes : (left.take width).length = (right.take width).length := by
        simp only [List.length_take]; omega
      have head := agreeing_lt sizes front
      have width_eq : (left.take width).length = width := by simp only [List.length_take]; omega
      have parts := agreeing_append (left.take width) (left.drop width) (right.take width)
        (right.drop width) sizes
      rw [List.take_append_drop,List.take_append_drop] at parts
      rw [Nat.succ_mul]
      omega

-- Pigeonhole: too few disagreements to break every band.
theorem intact_band {n width : Nat} {left right : List α}
    (leftSize : left.length = n * width) (rightSize : right.length = n * width)
    (close : n * width < agreeing left right + n) :
    ∃ b < n, band left width b = band right width b := by
  by_contra none
  have broken : ∀ b < n, band left width b ≠ band right width b :=
    fun b below equal => none ⟨b,below,equal⟩
  have cost := broken_cost n width left right leftSize rightSize broken
  omega

end Banding
