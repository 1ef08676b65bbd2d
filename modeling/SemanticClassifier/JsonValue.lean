import Mathlib.Data.String.Basic
import SemanticClassifier.CacheKey
import SemanticClassifier.Library.Decimal

namespace SemanticClassifier

-- A parsed text, as far as anything looks into it; a number as it is written.
inductive Json where
  | null
  | bool (value : Bool)
  | number (digits : String)
  | string (text : String)
  | array (items : List Json)
  | object (fields : List (String × Json))

def Json.get (key : String) : Json → Option Json
  | .object fields => (fields.find? fun field => field.1 = key).map Prod.snd
  | .null | .bool _ | .number _ | .string _ | .array _ => none

def Json.asStr : Json → Option String
  | .string text => some text
  | .null | .bool _ | .number _ | .array _ | .object _ => none

def Json.asBool : Json → Option Bool
  | .bool value => some value
  | .null | .number _ | .string _ | .array _ | .object _ => none

def Json.asArray : Json → Option (List Json)
  | .array items => some items
  | .null | .bool _ | .number _ | .string _ | .object _ => none

def Json.asU64 : Json → Option Nat
  | .number digits => Decimal.parse (2 ^ 64) digits.toList
  | .null | .bool _ | .string _ | .array _ | .object _ => none

example : (Json.number "384").asU64 = some 384 := by decide

def Json.isNull : Json → Bool
  | .null => true
  | .bool _ | .number _ | .string _ | .array _ | .object _ => false

-- The bytes of a text are read back as that text.
theorem fromUTF8_utf8 (text : String) : String.fromUTF8? ⟨(Cache.utf8 text).toArray⟩ = some text := by
  have back : (⟨(Cache.utf8 text).toArray⟩ : ByteArray) = text.toByteArray := rfl
  rw [back,String.fromUTF8?,dif_pos text.isValidUTF8]
  rfl

end SemanticClassifier
