import Mathlib.Algebra.BigOperators.Group.List.Basic
import Mathlib.Data.List.Induction
import SemanticClassifier.Library.Floating

namespace Ieee
open Floating
variable {K : Type} [Field K] [LinearOrder K] [Elementary K]

@[simp] theorem zero_eq : (zero : Ieee K) = .finite 0 := congrArg Ieee.finite Nat.cast_zero

@[simp] theorem ofNat_eq (n : Nat) : (ofNat n : Ieee K) = .finite n := rfl

@[simp] theorem isNan_iff (x : Ieee K) : IsNan x ↔ x = .nan := by
  change partialCmp x x = none ↔ _
  cases x <;> simp [partialCmp]

@[simp] theorem partialCmp_finite (x y : K) :
    Floating.partialCmp (Ieee.finite x) (Ieee.finite y) = some (compare x y) := rfl

theorem atMost_finite (x y : K) : AtMost (Ieee.finite x) (Ieee.finite y) ↔ x ≤ y := by
  rw [AtMost,partialCmp_finite,Option.some_inj,Option.some_inj,compare_lt_iff_lt,compare_eq_iff_eq,le_iff_lt_or_eq]

theorem not_atMost_nan (x : Ieee K) : ¬ AtMost .nan x := fun most => by
  rcases most with less | equal
  · cases less
  · cases equal

theorem add_nan (x : Ieee K) : Floating.add x .nan = .nan := by cases x <;> rfl

theorem sub_nan (x y : Ieee K) (nan : IsNan y) : IsNan (Floating.sub x y) := by
  rw [isNan_iff] at nan ⊢
  subst nan
  exact add_nan x

theorem nan_unordered (x y : Ieee K) (nan : IsNan x) : Floating.partialCmp x y = none := by
  rw [isNan_iff] at nan
  subst nan
  cases y <;> rfl

-- What is no number stays in a sum, wherever it stands.
theorem foldl_nan (values : List (Ieee K)) : values.foldl Floating.add .nan = .nan := by
  induction values with
  | nil => rfl
  | cons x rest ih => exact ih

theorem sum_nan {values : List (Ieee K)} (member : .nan ∈ values) : sum values = .nan := by
  obtain ⟨before,after,rfl⟩ := List.append_of_mem member
  rw [sum,List.foldl_append,List.foldl_cons,add_nan,foldl_nan]

theorem foldl_finite (start : K) (values : List K) :
    (values.map Ieee.finite).foldl Floating.add (.finite start) = .finite (start + values.sum) := by
  induction values generalizing start with
  | nil => simp
  | cons x rest ih =>
      rw [List.map_cons,List.foldl_cons]
      change (rest.map Ieee.finite).foldl Floating.add (.finite (start + x)) = _
      rw [ih,List.sum_cons,add_assoc]

theorem sum_finite (values : List K) : sum (values.map Ieee.finite) = .finite values.sum := by
  rw [sum,zero_eq,foldl_finite,zero_add]

-- The value of a finite number, zero elsewhere.
def number : Ieee K → K
  | .finite x => x
  | .nan | .negInf | .posInf => 0

omit [LinearOrder K] [Elementary K] in
theorem map_number {values : List (Ieee K)} (finite : ∀ x ∈ values, ∃ z, x = .finite z) :
    (values.map number).map Ieee.finite = values := by
  rw [List.map_map]
  apply (List.map_congr_left _).trans (List.map_id values)
  intro x member
  obtain ⟨z,rfl⟩ := finite x member
  rfl

theorem add_parts {x y : Ieee K} {z : K} (finite : Floating.add x y = .finite z) :
    (∃ a, x = .finite a) ∧ ∃ b, y = .finite b := by
  cases x with
  | nan | negInf | posInf => cases y <;> cases finite
  | finite a =>
      cases y with
      | nan | negInf | posInf => cases finite
      | finite b => exact ⟨⟨a,rfl⟩,⟨b,rfl⟩⟩

theorem foldl_parts {start : Ieee K} {values : List (Ieee K)} {z : K}
    (finite : values.foldl Floating.add start = .finite z) :
    (∃ a, start = .finite a) ∧ ∀ x ∈ values, ∃ b, x = .finite b := by
  induction values generalizing start with
  | nil => exact ⟨⟨z,finite⟩,fun x member => by cases member⟩
  | cons x rest ih =>
      obtain ⟨⟨a,total⟩,others⟩ := ih finite
      obtain ⟨first,second⟩ := add_parts total
      exact ⟨first,List.forall_mem_cons.mpr ⟨second,others⟩⟩

theorem sum_parts {values : List (Ieee K)} {z : K} (finite : sum values = .finite z) :
    ∀ x ∈ values, ∃ b, x = .finite b := (foldl_parts finite).2

omit [Field K] [LinearOrder K] [Elementary K] in
theorem infinite_special (o : Ordering) (z : K) : (infinite o : Ieee K) ≠ .finite z := by
  intro same
  cases o <;> cases same

theorem mul_parts {x y : Ieee K} {z : K} (finite : Floating.mul x y = .finite z) :
    ∃ a b, x = .finite a ∧ y = .finite b ∧ z = a * b := by
  cases x with
  | nan => cases finite
  | finite a =>
      cases y with
      | nan => cases finite
      | finite b => exact ⟨a,b,rfl,rfl,(Ieee.finite.inj finite).symm⟩
      | negInf | posInf => exact absurd finite (infinite_special _ z)
  | negInf | posInf =>
      cases y with
      | nan | negInf | posInf => cases finite
      | finite b => exact absurd finite (infinite_special _ z)

theorem sqrt_parts {x : Ieee K} {z : K} (finite : Floating.sqrt x = .finite z) : ∃ a, x = .finite a := by
  cases x with
  | finite a => exact ⟨a,rfl⟩
  | nan | negInf | posInf => cases finite

theorem div_finite (x : K) {y : K} (some : y ≠ 0) :
    Floating.div (Ieee.finite x) (.finite y) = .finite (x / y) := if_neg some

-- Divided by no finite number, a quotient is zero or no number.
theorem div_special {x y : Ieee K} (special : ∀ b, y ≠ .finite b) :
    Floating.div x y = .finite 0 ∨ Floating.div x y = .nan := by
  cases y with
  | nan => exact .inr (by cases x <;> rfl)
  | finite b => exact absurd rfl (special b)
  | negInf | posInf =>
      cases x with
      | finite a => exact .inl rfl
      | nan | negInf | posInf => exact .inr rfl

-- What a fold of `maxNum` finds: infinity, else the greatest finite value, else nothing.
inductive Peak (values : List (Ieee K)) : Ieee K → Prop where
  | infinite : .posInf ∈ values → Peak values .posInf
  | finite (m : K) : .posInf ∉ values → .finite m ∈ values → (∀ x, .finite x ∈ values → x ≤ m) →
      Peak values (.finite m)
  | none : .posInf ∉ values → (∀ x, .finite x ∉ values) → Peak values .negInf

theorem maxNum_finite (x y : K) : maxNum (Ieee.finite x) (.finite y) = .finite (max x y) := by
  have number : ¬ IsNan (Ieee.finite x) := by simp
  rw [maxNum,if_neg number,partialCmp_finite]
  simp only [Option.some_inj,compare_lt_iff_lt]
  split
  · rename_i less
    rw [max_eq_right less.le]
  · rename_i least
    rw [max_eq_left (le_of_not_gt least)]

theorem Peak.step {values : List (Ieee K)} {top : Ieee K} (peak : Peak values top) (x : Ieee K) :
    Peak (values ++ [x]) (maxNum top x) := by
  cases peak with
  | infinite member =>
      have same : maxNum .posInf x = .posInf := by cases x <;> rfl
      rw [same]
      exact .infinite (List.mem_append_left _ member)
  | finite m bounded member greatest =>
      cases x with
      | nan | negInf =>
          exact .finite m (by simpa using bounded) (List.mem_append_left _ member) (by simpa using greatest)
      | posInf => exact .infinite (by simp)
      | finite y =>
          rw [maxNum_finite]
          refine .finite (max m y) (by simpa using bounded) ?_ ?_
          · rcases max_choice m y with left | right
            · rw [left]
              exact List.mem_append_left _ member
            · simp [right]
          · intro z there
            rcases List.mem_append.mp there with old | new
            · exact (greatest z old).trans (le_max_left m y)
            · cases List.mem_singleton.mp new
              exact le_max_right m y
  | none bounded empty =>
      cases x with
      | nan | negInf => exact .none (by simpa using bounded) (by simpa using empty)
      | posInf => exact .infinite (by simp)
      | finite y =>
          refine .finite y (by simpa using bounded) (by simp) ?_
          intro z there
          rcases List.mem_append.mp there with old | new
          · exact absurd old (empty z)
          · cases List.mem_singleton.mp new
            exact le_rfl

theorem peak (values : List (Ieee K)) : Peak values (values.foldl maxNum negInfinity) := by
  induction values using List.reverseRecOn with
  | nil => exact .none (by simp) (by simp)
  | append_singleton rest x ih =>
      rw [List.foldl_append]
      exact ih.step x

end Ieee
