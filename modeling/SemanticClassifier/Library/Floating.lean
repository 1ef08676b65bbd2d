import Mathlib.Algebra.Order.Field.Rat
import Mathlib.Order.WithBot

-- What a program asks of a binary float type. Nothing is said about rounding.
class Floating (φ : Type) where
  negInfinity : φ
  ofNat : Nat → φ
  add : φ → φ → φ
  sub : φ → φ → φ
  mul : φ → φ → φ
  div : φ → φ → φ
  sqrt : φ → φ
  exp : φ → φ
  isFinite : φ → Bool
  partialCmp : φ → φ → Option Ordering

-- A lossless conversion to a wider type.
class Widening (φ σ : Type) where
  widen : φ → σ

namespace Floating

variable {φ : Type} [Floating φ]

def zero : φ := ofNat 0

def IsNan (x : φ) : Prop := partialCmp x x = none

instance (x : φ) : Decidable (IsNan x) := inferInstanceAs (Decidable (_ = none))

-- The operand that is a number, if the other is not.
def maxNum (x y : φ) : φ :=
  if IsNan x then y else if partialCmp x y = some .lt then y else x

def sum (values : List φ) : φ := values.foldl add zero

def AtMost (x y : φ) : Prop := partialCmp x y = some .lt ∨ partialCmp x y = some .eq

instance (x y : φ) : Decidable (AtMost x y) := inferInstanceAs (Decidable (_ ∨ _))

def AtLeast (x y : φ) : Prop := partialCmp x y = some .gt ∨ partialCmp x y = some .eq

instance (x y : φ) : Decidable (AtLeast x y) := inferInstanceAs (Decidable (_ ∨ _))

-- Two numbers compare as their values do; both zeros have one value.
class Lawful (φ : Type) [Floating φ] : Prop where
  valued : ∃ (κ : Type) (_ : LinearOrder κ) (value : φ → κ), ∀ x y : φ, ¬ IsNan x → ¬ IsNan y →
    partialCmp x y = some (compare (value x) (value y))

end Floating

-- Exact numbers with the special values; zero carries no sign.
inductive Ieee (K : Type) where
  | nan
  | negInf
  | finite (x : K)
  | posInf
  deriving DecidableEq

class Elementary (K : Type) where
  sqrt : K → K
  exp : K → K

-- Exact on squares, and the exponential at zero.
instance : Elementary ℚ where
  sqrt x := (Nat.sqrt x.num.toNat : ℚ) / Nat.sqrt x.den
  exp x := 1 + x

namespace Ieee

section Exact
variable {K : Type} [Field K] [LinearOrder K] [Elementary K]

def sign : Ieee K → Ordering
  | .negInf => .lt
  | .nan => .eq
  | .finite x => compare x 0
  | .posInf => .gt

def signs : Ordering → Ordering → Ordering
  | .eq,_ | _,.eq => .eq
  | .lt,.lt | .gt,.gt => .gt
  | .lt,.gt | .gt,.lt => .lt

-- The infinity of a sign; zero times infinity is no number.
def infinite : Ordering → Ieee K
  | .lt => .negInf
  | .eq => .nan
  | .gt => .posInf

def neg : Ieee K → Ieee K
  | .nan => .nan
  | .negInf => .posInf
  | .finite x => .finite (-x)
  | .posInf => .negInf

def add : Ieee K → Ieee K → Ieee K
  | .nan,_ | _,.nan | .negInf,.posInf | .posInf,.negInf => .nan
  | .finite x,.finite y => .finite (x+y)
  | .negInf,_ | _,.negInf => .negInf
  | .posInf,_ | _,.posInf => .posInf

def mul : Ieee K → Ieee K → Ieee K
  | .nan,_ | _,.nan => .nan
  | .finite x,.finite y => .finite (x*y)
  | x,y => infinite (signs (sign x) (sign y))

def div : Ieee K → Ieee K → Ieee K
  | .nan,_ | _,.nan => .nan
  | .finite x,.finite y => if y = 0 then infinite (compare x 0) else .finite (x/y)
  | .finite _,_ => .finite 0
  | x,.finite y => infinite (if y = 0 then sign x else signs (sign x) (compare y 0))
  | _,_ => .nan

def sqrt : Ieee K → Ieee K
  | .finite x => if x < 0 then .nan else .finite (Elementary.sqrt x)
  | .posInf => .posInf
  | .nan | .negInf => .nan

def exp : Ieee K → Ieee K
  | .nan => .nan
  | .negInf => .finite 0
  | .finite x => .finite (Elementary.exp x)
  | .posInf => .posInf

def isFinite : Ieee K → Bool
  | .finite _ => true
  | .nan | .negInf | .posInf => false

def partialCmp : Ieee K → Ieee K → Option Ordering
  | .nan,_ | _,.nan => none
  | .finite x,.finite y => some (compare x y)
  | .negInf,.negInf | .posInf,.posInf => some .eq
  | .negInf,_ | _,.posInf => some .lt
  | .posInf,_ | _,.negInf => some .gt

instance : Floating (Ieee K) where
  negInfinity := .negInf
  ofNat n := .finite n
  add := add
  sub x y := add x (neg y)
  mul := mul
  div := div
  sqrt := sqrt
  exp := exp
  isFinite := isFinite
  partialCmp := partialCmp

instance : Widening (Ieee K) (Ieee K) := ⟨id⟩

def value : Ieee K → WithBot (WithTop K)
  | .nan | .negInf => ⊥
  | .finite x => ((x : WithTop K) : WithBot (WithTop K))
  | .posInf => ((⊤ : WithTop K) : WithBot (WithTop K))

omit [Field K] [Elementary K] in
theorem compare_finite (x y : K) : compare x y = compare (value (.finite x)) (value (.finite y)) := by
  have mono : StrictMono fun x : K => value (.finite x) :=
    fun _ _ less => WithBot.coe_lt_coe.mpr (WithTop.coe_lt_coe.mpr less)
  rw [← cmp_eq_compare,← cmp_eq_compare]
  exact (mono.cmp_map_eq x y).symm

instance : Floating.Lawful (Ieee K) where
  valued := by
    refine ⟨WithBot (WithTop K),inferInstance,value,?_⟩
    intro x y number other
    cases x with
    | nan => exact absurd rfl number
    | finite x =>
        cases y with
        | nan => exact absurd rfl other
        | finite y => exact congrArg some (compare_finite x y)
        | negInf => exact congrArg some (compare_gt_iff_gt.mpr (WithBot.bot_lt_coe _)).symm
        | posInf =>
            exact congrArg some (compare_lt_iff_lt.mpr (WithBot.coe_lt_coe.mpr (WithTop.coe_lt_top x))).symm
    | negInf =>
        cases y with
        | nan => exact absurd rfl other
        | negInf => exact congrArg some (compare_eq_iff_eq.mpr rfl).symm
        | finite | posInf => exact congrArg some (compare_lt_iff_lt.mpr (WithBot.bot_lt_coe _)).symm
    | posInf =>
        cases y with
        | nan => exact absurd rfl other
        | posInf => exact congrArg some (compare_eq_iff_eq.mpr rfl).symm
        | negInf => exact congrArg some (compare_gt_iff_gt.mpr (WithBot.bot_lt_coe _)).symm
        | finite y =>
            exact congrArg some (compare_gt_iff_gt.mpr (WithBot.coe_lt_coe.mpr (WithTop.coe_lt_top y))).symm

end Exact
end Ieee
