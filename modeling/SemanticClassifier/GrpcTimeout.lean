import Mathlib.Tactic.Common
import SemanticClassifier.Library.Decimal

namespace SemanticClassifier.Grpc
open Decimal

-- Durations count nanoseconds.
def fromNanos (nanos : Nat) : Nat := nanos
def fromMicros (micros : Nat) : Nat := micros * 1000
def fromMillis (millis : Nat) : Nat := millis * 1000000
def fromSecs (secs : Nat) : Nat := secs * 1000000000

def checkedMul (a b : Nat) : Option Nat := if a * b < 2 ^ 64 then some (a * b) else none

def inUnit (value : Nat) : List Char → Option Nat
  | ['H'] => (checkedMul value (60 * 60)).map fromSecs
  | ['M'] => (checkedMul value 60).map fromSecs
  | ['S'] => some (fromSecs value)
  | ['m'] => some (fromMillis value)
  | ['u'] => some (fromMicros value)
  | ['n'] => some (fromNanos value)
  | _ => none

-- The header's text is visible ASCII: its bytes are its characters.
def parseGrpcTimeout (value : String) : Option Nat :=
  let length := value.toList.length
  if length < 2 then none
  else
    let number := value.toList.take (length - 1)
    let unit := value.toList.drop (length - 1)
    if number.isEmpty || number.length > 8 then none
    else (parse (2 ^ 64) number).bind fun value => inUnit value unit

-- The nanoseconds of a time unit of the wire grammar.
def scale : Char → Option Nat
  | 'H' => some 3600000000000
  | 'M' => some 60000000000
  | 'S' => some 1000000000
  | 'm' => some 1000000
  | 'u' => some 1000
  | 'n' => some 1
  | _ => none

theorem inUnit_scale {value : Nat} (small : value < 10 ^ 8) (unit : Char) :
    inUnit value [unit] = (scale unit).map fun nanos => value * nanos := by
  have hours : checkedMul value (60 * 60) = some (value * 3600) := if_pos (by omega)
  have minutes : checkedMul value 60 = some (value * 60) := if_pos (by omega)
  unfold scale
  split
  · change (checkedMul value (60 * 60)).map fromSecs = _
    rw [hours,Option.map_some,Option.map_some,fromSecs,Nat.mul_assoc]
  · change (checkedMul value 60).map fromSecs = _
    rw [minutes,Option.map_some,Option.map_some,fromSecs,Nat.mul_assoc]
  · rfl
  · rfl
  · rfl
  · change some value = some (value * 1)
    rw [Nat.mul_one]
  · rename_i others
    unfold inUnit
    split <;> simp_all

theorem value_small {number digits : List Char} (whole : Digits digits)
    (shape : number = digits ∨ number = '+' :: digits) (short : number.length ≤ 8) : value digits < 10 ^ 8 := by
  have size : digits.length ≤ number.length := by
    rcases shape with rfl | rfl
    · exact Nat.le_refl _
    · exact Nat.le_succ _
  exact Nat.lt_of_lt_of_le (value_lt whole.2) (Nat.pow_le_pow_right (by omega) (by omega))

-- What the function reads: an integer of at most eight characters and a unit.
theorem parse_timeout_iff {s : String} {timeout : Nat} : parseGrpcTimeout s = some timeout ↔
    ∃ number unit value nanos, s.toList = number ++ [unit] ∧ number.length ≤ 8 ∧
      parse (2 ^ 64) number = some value ∧ scale unit = some nanos ∧ timeout = value * nanos := by
  rcases List.eq_nil_or_concat s.toList with empty | ⟨number,unit,form⟩
  · simp [parseGrpcTimeout,empty]
  · rw [List.concat_eq_append] at form
    have size : (number ++ [unit]).length - 1 = number.length := by simp
    unfold parseGrpcTimeout
    simp only [form,size,List.take_left,List.drop_left]
    by_cases fits : number ≠ [] ∧ number.length ≤ 8
    · have long : ¬ (number ++ [unit]).length < 2 := by
        have some := List.length_pos_iff.mpr fits.1
        rw [List.length_append,List.length_singleton]
        omega
      have guarded : (number.isEmpty || decide (number.length > 8)) = false := by simpa using fits
      rw [if_neg long,guarded,if_neg Bool.false_ne_true,Option.bind_eq_some_iff]
      constructor
      · intro read
        obtain ⟨value,parsed,answer⟩ := read
        obtain ⟨digits,whole,shape,total,_⟩ := (parse_iff (by decide)).mp parsed
        rw [inUnit_scale (total ▸ value_small whole shape fits.2)] at answer
        obtain ⟨nanos,scaled,same⟩ := Option.map_eq_some_iff.mp answer
        exact ⟨number,unit,value,nanos,rfl,fits.2,parsed,scaled,same.symm⟩
      · intro read
        obtain ⟨others,last,value,nanos,same,_,parsed,scaled,rfl⟩ := read
        obtain ⟨rfl,rfl⟩ := List.append_singleton_inj.mp same
        obtain ⟨digits,whole,shape,total,_⟩ := (parse_iff (by decide)).mp parsed
        refine ⟨value,parsed,?_⟩
        rw [inUnit_scale (total ▸ value_small whole shape fits.2),scaled,Option.map_some]
    · constructor
      · intro read
        rw [not_and_or,not_not,Nat.not_le] at fits
        rcases fits with none | long
        · simp [none] at read
        · have guarded : (number.isEmpty || decide (number.length > 8)) = true := by simp [long]
          rw [guarded,if_pos rfl,ite_self] at read
          cases read
      · intro read
        obtain ⟨others,last,value,nanos,same,short,parsed,_⟩ := read
        obtain ⟨rfl,rfl⟩ := List.append_singleton_inj.mp same
        refine absurd ⟨fun none => ?_,short⟩ fits
        rw [none] at parsed
        cases parsed

-- The wire grammar: one to eight digits and a unit.
def Timeout (s : String) (timeout : Nat) : Prop :=
  ∃ digits unit nanos, s.toList = digits ++ [unit] ∧ Digits digits ∧ digits.length ≤ 8 ∧
    scale unit = some nanos ∧ timeout = value digits * nanos

-- A plus sign in front of one to seven digits and a unit.
def Signed (s : String) : Prop :=
  ∃ digits unit nanos, s.toList = '+' :: digits ++ [unit] ∧ Digits digits ∧ digits.length ≤ 7 ∧
    scale unit = some nanos

def Exact (s : String) : Prop := ∀ timeout, parseGrpcTimeout s = some timeout ↔ Timeout s timeout

theorem timeout_read {s : String} {timeout : Nat} (grammar : Timeout s timeout) :
    parseGrpcTimeout s = some timeout := by
  obtain ⟨digits,unit,nanos,form,whole,short,scaled,same⟩ := grammar
  have small := value_small whole (.inl rfl) short
  apply parse_timeout_iff.mpr
  refine ⟨digits,unit,value digits,nanos,form,short,?_,scaled,same⟩
  exact (parse_iff (by decide)).mpr ⟨digits,whole,.inl rfl,rfl,by omega⟩

theorem signed_read {s : String} (signed : Signed s) : ∃ timeout, parseGrpcTimeout s = some timeout := by
  obtain ⟨digits,unit,nanos,form,whole,short,scaled⟩ := signed
  have length : ('+' :: digits).length ≤ 8 := Nat.succ_le_succ short
  have small := value_small whole (.inr rfl) length
  refine ⟨value digits * nanos,parse_timeout_iff.mpr ⟨'+' :: digits,unit,value digits,nanos,form,length,?_,scaled,rfl⟩⟩
  exact (parse_iff (by decide)).mpr ⟨digits,whole,.inr rfl,rfl,by omega⟩

theorem signed_outside {s : String} (signed : Signed s) (timeout : Nat) : ¬ Timeout s timeout := by
  obtain ⟨digits,unit,_,form,_⟩ := signed
  intro grammar
  obtain ⟨others,last,_,again,whole,_⟩ := grammar
  rw [form] at again
  obtain ⟨rfl,_⟩ := List.append_singleton_inj.mp again
  exact absurd (whole.2 '+' List.mem_cons_self) (by decide)

-- The integer parser behind the digits also takes a plus sign; nothing else slips in.
theorem timeout_exact_iff (s : String) : Exact s ↔ ¬ Signed s := by
  constructor
  · intro exact signed
    obtain ⟨timeout,read⟩ := signed_read signed
    exact signed_outside signed timeout ((exact timeout).mp read)
  · intro unsigned timeout
    refine ⟨fun read => ?_,timeout_read⟩
    obtain ⟨number,unit,n,nanos,form,short,parsed,scaled,same⟩ := parse_timeout_iff.mp read
    obtain ⟨digits,whole,shape,total,_⟩ := (parse_iff (by decide)).mp parsed
    rcases shape with rfl | rfl
    · exact ⟨number,unit,nanos,form,whole,short,scaled,total ▸ same⟩
    · exact absurd ⟨digits,unit,nanos,form,whole,Nat.le_of_succ_le_succ short,scaled⟩ unsigned

theorem plus_accepted : parseGrpcTimeout "+5S" = some (fromSecs 5) ∧ ¬ Exact "+5S" := by
  have read : parseGrpcTimeout "+5S" = some (fromSecs 5) := by decide
  have whole : Digits ['5'] := ⟨List.cons_ne_nil _ _,by simp⟩
  have signed : Signed "+5S" := ⟨['5'],'S',1000000000,by decide,whole,by decide,rfl⟩
  exact ⟨read,fun exact => signed_outside signed _ ((exact _).mp read)⟩

end SemanticClassifier.Grpc
