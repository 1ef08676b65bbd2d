import SemanticClassifier.RedisTags

namespace SemanticClassifier.Redis
open Escaping

namespace Response

-- The response cache's copy, character by character.
def escapeTagValue (value : String) : String :=
  value.toList.foldl
    (fun out c => if c.isAlphanum || c = '_' then out.push c else (out.push '\\').push c) ""

def query (model : String) : String :=
  "(@model:\x7b" ++ escapeTagValue model ++ "\x7d)=>[KNN 1 @vec $BLOB AS dist]"

end Response

theorem escapeTagValue_injective : Function.Injective escapeTagValue := by
  intro value other same
  have first := escapeTagValue_read value []
  rw [same,escapeTagValue_read other []] at first
  exact String.toList_inj.mp (congrArg Prod.fst (Option.some.inj first)).symm

theorem pushed_escape (out : String) (text : List Char) :
    (text.foldl (fun out c => if c.isAlphanum || c = '_' then out.push c else (out.push '\\').push c) out).toList =
      out.toList ++ escape (fun c => c.isAlphanum || c = '_') '\\' text := by
  induction text generalizing out with
  | nil => simp [escape]
  | cons c text ih =>
      rw [List.foldl_cons,ih,escape]
      split
      · rw [String.toList_push,List.append_assoc]
        rfl
      · rw [String.toList_push,String.toList_push,List.append_assoc,List.append_assoc]
        rfl

theorem copies_agree (value : String) : Response.escapeTagValue value = escapeTagValue value := by
  have empty : "".toList = [] := rfl
  apply String.toList_inj.mp
  rw [Response.escapeTagValue,pushed_escape,empty,List.nil_append,escapeTagValue,String.toList_ofList]

theorem response_query (model : String) : Response.query model = Kind.query .response model := by
  rw [Response.query,copies_agree]
  rfl

-- Whatever its characters, a value stays inside its clause and comes back whole.
theorem tag_escape_closed (value : String) :
    (∀ rest, readTo '\\' '}' ((escapeTagValue value).toList ++ '}' :: rest) = some (value.toList,rest)) ∧
    (∀ other, escapeTagValue value = escapeTagValue other → value = other) ∧
    (readQuery (Kind.query .semantic value).toList =
      some ("identity".toList,value.toList,")=>[KNN 1 @vec $BLOB AS dist]".toList)) ∧
    (readQuery (Response.query value).toList =
      some ("model".toList,value.toList,")=>[KNN 1 @vec $BLOB AS dist]".toList)) ∧
    Response.escapeTagValue value = escapeTagValue value := by
  refine ⟨escapeTagValue_read value,fun _ same => escapeTagValue_injective same,
    readQuery_query .semantic value,?_,copies_agree value⟩
  rw [response_query]
  exact readQuery_query .response value

end SemanticClassifier.Redis
