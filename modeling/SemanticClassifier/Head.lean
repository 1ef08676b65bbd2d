import SemanticClassifier.Library.Floating

namespace SemanticClassifier.Head
open Floating

-- Label `i` names the head's output column `i`.
structure LabelMap where
  labels : List String

variable {φ : Type} [Floating φ]

def softmax (logits : List φ) : List φ :=
  let max := logits.foldl maxNum negInfinity
  if isFinite max then
    let exps := logits.map fun l => exp (sub l max)
    let total := sum exps
    if AtMost total zero then logits.map fun _ => zero else exps.map fun e => div e total
  else logits.map fun _ => zero

@[simp] theorem softmax_length (logits : List φ) : (softmax logits).length = logits.length := by
  unfold softmax
  dsimp only
  split
  · split <;> simp
  · simp

end SemanticClassifier.Head

namespace SemanticClassifier.Embedding

-- The tokenizer and the model answer from outside; an error is kept as it is
-- displayed.
structure Embedder (φ : Type) where
  tokenize : String → Except String (List UInt32)
  embedIds : List UInt32 → Except String (List φ)
  embedAndClassify : List UInt32 → Except String (List φ × Option (List φ))
  labels : Option Head.LabelMap

def Embedder.embed (embedder : Embedder φ) (text : String) : Except String (List φ) :=
  match embedder.tokenize text with
  | .ok ids => embedder.embedIds ids
  | .error e => .error e

end SemanticClassifier.Embedding
