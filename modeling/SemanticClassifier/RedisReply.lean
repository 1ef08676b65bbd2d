import Mathlib.Data.List.Nodup
import SemanticClassifier.Breaker

namespace SemanticClassifier.L2

-- A reply of the server. Nothing tells apart what is neither an array nor a text.
inductive Value where
  | array (items : List Value)
  | bulkString (bytes : List UInt8)
  | simpleString (text : String)
  | other (kind : String)

-- The breaker and the threshold, and what decodes texts, numbers and payloads.
structure Cache (φ ρ : Type) where
  breaker : Breaker.CircuitBreaker
  threshold : φ
  lossy : List UInt8 → String
  parseF32 : String → Option φ
  decodeResult : String → Option ρ

section Reply
variable {φ ρ : Type} (cache : Cache φ ρ)

def asString : Value → Option String
  | .bulkString bytes => some (cache.lossy bytes)
  | .simpleString text => some text
  | .array _ | .other _ => none

-- The loop over the field array, two elements at a time; one left over is ignored.
def readFields : List Value → Option φ × Option String → Option φ × Option String
  | name :: val :: rest,(dist,payload) =>
    if asString cache name = some "dist" then readFields rest ((asString cache val).bind cache.parseF32,payload)
    else if asString cache name = some "payload" then readFields rest (dist,asString cache val)
    else readFields rest (dist,payload)
  | [],read | [_],read => read

def parseKnnReply : Value → Option (φ × String)
  | .array items =>
    match (items[2]? : Option Value) with
    | some (.array fields) =>
      match readFields cache fields (none,none) with
      | (some d,some p) => some (d,p)
      | _ => none
    | _ => none
  | .bulkString _ | .simpleString _ | .other _ => none

def pairsOf : List Value → List (Value × Value)
  | name :: val :: rest => (name,val) :: pairsOf rest
  | [] | [_] => []

-- What stands under a name; the last field of that name counts.
def lastField (name : String) (pairs : List (Value × Value)) : Option Value :=
  (pairs.reverse.find? fun pair => asString cache pair.1 = some name).map Prod.snd

theorem lastField_cons (name : String) (pair : Value × Value) (rest : List (Value × Value)) :
    lastField cache name (pair :: rest) =
      (lastField cache name rest).or (if asString cache pair.1 = some name then some pair.2 else none) := by
  rw [lastField,List.reverse_cons,List.find?_append,Option.map_or]
  by_cases named : asString cache pair.1 = some name <;> simp [lastField,named]

theorem readFields_last (fields : List Value) (read : Option φ × Option String) :
    readFields cache fields read =
      ((lastField cache "dist" (pairsOf fields)).elim read.1 fun val => (asString cache val).bind cache.parseF32,
        (lastField cache "payload" (pairsOf fields)).elim read.2 (asString cache)) := by
  have apart : ("dist" : String) ≠ "payload" := by decide
  induction fields,read using readFields.induct cache with
  | case1 name val rest dist payload isDist ih =>
      rw [readFields,if_pos isDist,ih,pairsOf,lastField_cons,lastField_cons,isDist]
      cases lastField cache "dist" (pairsOf rest) <;> cases lastField cache "payload" (pairsOf rest) <;>
        simp [apart]
  | case2 name val rest dist payload notDist isPayload ih =>
      rw [readFields,if_neg notDist,if_pos isPayload,ih,pairsOf,lastField_cons,lastField_cons,isPayload]
      cases lastField cache "dist" (pairsOf rest) <;> cases lastField cache "payload" (pairsOf rest) <;>
        simp [apart.symm]
  | case3 name val rest dist payload notDist notPayload ih =>
      rw [readFields,if_neg notDist,if_neg notPayload,ih,pairsOf,lastField_cons,lastField_cons,if_neg notDist,
        if_neg notPayload,Option.or_none,Option.or_none]
  | case4 read => rfl
  | case5 read single => rfl

-- Under pairwise different names there is no last one to speak of.
theorem lastField_iff {name : String} {pairs : List (Value × Value)} {val : Value}
    (distinct : (pairs.map fun pair => asString cache pair.1).Nodup) :
    lastField cache name pairs = some val ↔ ∃ pair ∈ pairs, asString cache pair.1 = some name ∧ pair.2 = val := by
  rw [lastField,Option.map_eq_some_iff]
  constructor
  · intro found
    obtain ⟨pair,first,same⟩ := found
    have named := List.find?_some first
    exact ⟨pair,List.mem_reverse.mp (List.mem_of_find?_eq_some first),by simpa using named,same⟩
  · intro there
    obtain ⟨pair,member,named,same⟩ := there
    cases first : pairs.reverse.find? fun pair => asString cache pair.1 = some name with
    | none =>
        have missing := List.find?_eq_none.mp first pair (List.mem_reverse.mpr member)
        simp [named] at missing
    | some other =>
        have again := List.find?_some first
        have within := List.mem_reverse.mp (List.mem_of_find?_eq_some first)
        have equal : asString cache other.1 = asString cache pair.1 := by
          rw [named]
          simpa using again
        exact ⟨other,rfl,List.inj_on_of_nodup_map distinct within member equal ▸ same⟩

theorem lastField_perm {name : String} {pairs others : List (Value × Value)} (same : pairs.Perm others)
    (distinct : (pairs.map fun pair => asString cache pair.1).Nodup) :
    lastField cache name pairs = lastField cache name others := by
  have moved := (same.map fun pair => asString cache pair.1).nodup_iff.mp distinct
  apply Option.ext
  intro val
  rw [lastField_iff cache distinct,lastField_iff cache moved]
  simp only [same.mem_iff]

def Holds (fields : List Value) (name text : String) : Prop :=
  ∃ val, lastField cache name (pairsOf fields) = some val ∧ asString cache val = some text

theorem parse_parts {value : Value} {d : φ} {payload : String} (parsed : parseKnnReply cache value = some (d,payload)) :
    ∃ items fields text, value = .array items ∧ items[2]? = some (Value.array fields) ∧
      Holds cache fields "dist" text ∧ cache.parseF32 text = some d ∧ Holds cache fields "payload" payload := by
  cases value with
  | bulkString | simpleString | other => cases parsed
  | array items =>
      simp only [parseKnnReply] at parsed
      split at parsed
      · rename_i fields third
        split at parsed
        · rename_i distance text read
          cases parsed
          rw [readFields_last] at read
          obtain ⟨first,second⟩ := Prod.mk.inj read
          cases dist : lastField cache "dist" (pairsOf fields) with
          | none =>
              rw [dist] at first
              cases first
          | some val =>
              rw [dist] at first
              obtain ⟨written,shown,number⟩ := Option.bind_eq_some_iff.mp first
              cases stored : lastField cache "payload" (pairsOf fields) with
              | none =>
                  rw [stored] at second
                  cases second
              | some last =>
                  rw [stored] at second
                  exact ⟨items,fields,written,rfl,third,⟨val,dist,shown⟩,number,⟨last,stored,second⟩⟩
        · cases parsed
      · cases parsed

-- A field array whose elements alternate, with at most one left over behind.
def fieldsOf (pairs : List (Value × Value)) (left : List Value) : List Value :=
  pairs.flatMap (fun pair => [pair.1,pair.2]) ++ left

theorem pairsOf_fields (pairs : List (Value × Value)) {left : List Value} (few : left.length ≤ 1) :
    pairsOf (fieldsOf pairs left) = pairs := by
  induction pairs with
  | nil =>
      cases left with
      | nil => rfl
      | cons x rest =>
          cases rest with
          | nil => rfl
          | cons y rest => exact absurd few (by simp)
  | cons pair rest ih =>
      change (pair.1,pair.2) :: pairsOf (fieldsOf rest left) = _
      rw [ih]

end Reply

end SemanticClassifier.L2
