import Mathlib.Data.List.Sort
import Mathlib.Data.String.Basic
import SemanticClassifier.Library.Floating

namespace SemanticClassifier.Ranker
open Floating

structure Prototype (φ : Type) where
  id : String
  vector : List φ

structure AnchorSet (φ : Type) where
  label : String
  vectors : List (List φ)

-- `sort_by` is stable; so is this.
def sortBy (cmp : α → α → Ordering) (rows : List α) : List α :=
  rows.insertionSort fun a b => (cmp a b).isLE

variable {φ σ : Type} [Floating φ] [Floating σ] [Widening φ σ]

-- What cannot be compared counts as equal.
def descending (a b : σ) : Ordering := (partialCmp b a).getD .eq

def byScore (a b : String × σ) : Ordering := (descending a.2 b.2).then (compare a.1 b.1)

def norm (a : List φ) : σ :=
  sqrt (sum (a.map fun x => mul (Widening.widen x) (Widening.widen x)))

def cosineSimilarity (a b : List φ) : σ :=
  let dot : σ := sum ((a.zip b).map fun pair => mul (Widening.widen pair.1) (Widening.widen pair.2))
  let na : σ := norm a
  let nb : σ := norm b
  if partialCmp na zero = some .eq ∨ partialCmp nb zero = some .eq then zero else div dot (mul na nb)

def cosineRank (embedding : List φ) (prototypes : List (Prototype φ)) : List (String × σ) :=
  sortBy byScore (prototypes.map fun p => (p.id,cosineSimilarity embedding p.vector))

def anchorScore (embedding : List φ) (topK : Nat) (set : AnchorSet φ) : σ :=
  let sims := sortBy descending (set.vectors.map (cosineSimilarity embedding))
  let k := max 1 (min topK (max sims.length 1))
  if sims.isEmpty then zero
  else div (sum (sims.take (min k sims.length))) (ofNat (min k sims.length))

def anchorRank (embedding : List φ) (anchors : List (AnchorSet φ)) (topK : Nat) : List (String × σ) :=
  sortBy byScore (anchors.map fun set => (set.label,anchorScore embedding topK set))

end SemanticClassifier.Ranker
