import Mathlib.Algebra.Order.Ring.Nat
import Mathlib.Data.List.Basic

namespace Decimal

def digit (c : Char) : Nat := c.toNat - 48

def valueFrom (start : Nat) (digits : List Char) : Nat :=
  digits.foldl (fun total c => total * 10 + digit c) start

def value (digits : List Char) : Nat := valueFrom 0 digits

-- Digit by digit, with every intermediate total below the bound.
def accumulate (bound : Nat) : Nat → List Char → Option Nat
  | total,[] => some total
  | total,c :: rest =>
    if c.isDigit = true ∧ total * 10 + digit c < bound then accumulate bound (total * 10 + digit c) rest
    else none

def unsigned : List Char → List Char
  | [] => []
  | c :: rest => if c = '+' then rest else c :: rest

-- An integer of a type with `bound` values, read with one plus sign allowed in front.
def parse (bound : Nat) (text : List Char) : Option Nat :=
  if (unsigned text).isEmpty then none else accumulate bound 0 (unsigned text)

def Digits (text : List Char) : Prop := text ≠ [] ∧ ∀ c ∈ text, c.isDigit = true

instance (text : List Char) : Decidable (Digits text) :=
  inferInstanceAs (Decidable (text ≠ [] ∧ ∀ c ∈ text, c.isDigit = true))

theorem valueFrom_cons (start : Nat) (c : Char) (rest : List Char) :
    valueFrom start (c :: rest) = valueFrom (start * 10 + digit c) rest := by
  rw [valueFrom,List.foldl_cons,valueFrom]

theorem start_le_valueFrom (start : Nat) (digits : List Char) : start ≤ valueFrom start digits := by
  induction digits generalizing start with
  | nil => exact Nat.le_refl start
  | cons c rest ih =>
      rw [valueFrom_cons]
      exact Nat.le_trans (by omega) (ih (start * 10 + digit c))

theorem accumulate_iff {bound total n : Nat} {text : List Char} (below : total < bound) :
    accumulate bound total text = some n ↔
      (∀ c ∈ text, c.isDigit = true) ∧ valueFrom total text = n ∧ n < bound := by
  induction text generalizing total with
  | nil =>
      simp only [accumulate,Option.some_inj,List.not_mem_nil,false_implies,implies_true,true_and]
      refine ⟨fun same => ⟨same,?_⟩,And.left⟩
      rw [← same]
      exact below
  | cons c rest ih =>
      rw [accumulate,valueFrom_cons,List.forall_mem_cons]
      split
      · rename_i fits
        rw [ih fits.2,and_assoc]
        exact (and_iff_right fits.1).symm
      · rename_i stuck
        constructor
        · intro read
          cases read
        · intro accepted
          obtain ⟨⟨isDigit,_⟩,total,small⟩ := accepted
          refine absurd ⟨isDigit,?_⟩ stuck
          exact Nat.lt_of_le_of_lt (total ▸ start_le_valueFrom _ rest) small

theorem digit_lt {c : Char} (isDigit : c.isDigit = true) : digit c < 10 := by
  have most : c.toNat ≤ 57 := (Char.isDigit_iff_toNat.mp isDigit).2
  rw [digit]
  omega

theorem valueFrom_lt {digits : List Char} (all : ∀ c ∈ digits, c.isDigit = true) (start : Nat) :
    valueFrom start digits < (start + 1) * 10 ^ digits.length := by
  induction digits generalizing start with
  | nil =>
      rw [List.length_nil,Nat.pow_zero,Nat.mul_one]
      exact Nat.lt_succ_self start
  | cons c rest ih =>
      obtain ⟨first,others⟩ := List.forall_mem_cons.mp all
      have small := digit_lt first
      have next := ih others (start * 10 + digit c)
      rw [valueFrom_cons,List.length_cons,Nat.pow_succ,Nat.mul_comm (10 ^ rest.length),← Nat.mul_assoc]
      exact Nat.lt_of_lt_of_le next (Nat.mul_le_mul_right _ (by omega))

theorem value_lt {digits : List Char} (all : ∀ c ∈ digits, c.isDigit = true) :
    value digits < 10 ^ digits.length := by
  have bound := valueFrom_lt all 0
  rwa [Nat.zero_add,Nat.one_mul] at bound

theorem unsigned_eq {text digits : List Char} (whole : Digits digits) :
    unsigned text = digits ↔ text = digits ∨ text = '+' :: digits := by
  cases text with
  | nil =>
      rw [unsigned]
      simp
  | cons c rest =>
      have plus : ('+').isDigit ≠ true := by decide
      rw [unsigned]
      split
      · rename_i signed
        subst signed
        constructor
        · intro same
          rw [same]
          exact .inr rfl
        · intro form
          rcases form with same | same
          · exact absurd (whole.2 '+' (same ▸ List.mem_cons_self)) plus
          · exact (List.cons.inj same).2
      · rename_i bare
        refine ⟨.inl,fun form => ?_⟩
        rcases form with same | same
        · exact same
        · exact absurd (List.cons.inj same).1 bare

-- The language read is wider than the digits by a plus sign.
theorem parse_iff {bound n : Nat} {text : List Char} (positive : 0 < bound) : parse bound text = some n ↔
    ∃ digits, Digits digits ∧ (text = digits ∨ text = '+' :: digits) ∧ value digits = n ∧ n < bound := by
  rw [parse]
  split
  · rename_i empty
    constructor
    · intro read
      cases read
    · intro accepted
      obtain ⟨digits,whole,form,_⟩ := accepted
      have same := (unsigned_eq whole).mpr form
      exact absurd (same ▸ List.isEmpty_iff.mp empty) whole.1
  · rename_i more
    rw [List.isEmpty_iff] at more
    rw [accumulate_iff positive]
    constructor
    · intro read
      obtain ⟨all,total,small⟩ := read
      have whole : Digits (unsigned text) := ⟨more,all⟩
      exact ⟨unsigned text,whole,(unsigned_eq whole).mp rfl,total,small⟩
    · intro accepted
      obtain ⟨digits,whole,form,total,small⟩ := accepted
      rw [(unsigned_eq whole).mpr form]
      exact ⟨whole.2,total,small⟩

end Decimal
