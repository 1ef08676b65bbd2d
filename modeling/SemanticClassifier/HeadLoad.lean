import Mathlib.Data.String.Basic
import SemanticClassifier.Head
import SemanticClassifier.Library.OrderedMap

namespace SemanticClassifier.Head

structure Tensor where
  name : String
  shape : List Nat

-- A view of the checkpoint's tensors below a path.
structure VarBuilder where
  tensors : OrderedMap String (List Nat)
  path : List String

def VarBuilder.root (tensors : OrderedMap String (List Nat)) : VarBuilder := ⟨tensors,[]⟩

def VarBuilder.pp (vb : VarBuilder) (s : String) : VarBuilder := {vb with path := vb.path ++ [s]}

-- `none` is the error of a tensor that is missing or of another shape.
def VarBuilder.get (vb : VarBuilder) (shape : List Nat) (name : String) : Option Tensor :=
  let full := ".".intercalate (vb.path ++ [name])
  if vb.tensors.get full = some shape then some ⟨full,shape⟩ else none

structure Linear where
  weight : Tensor
  bias : Option Tensor

def Linear.width (layer : Linear) : Option Nat := layer.weight.shape.head?

def linear (inDim outDim : Nat) (vb : VarBuilder) : Option Linear := do
  let weight ← vb.get [outDim,inDim] "weight"
  let bias ← vb.get [outDim] "bias"
  return ⟨weight,some bias⟩

def linearNoBias (inDim outDim : Nat) (vb : VarBuilder) : Option Linear := do
  let weight ← vb.get [outDim,inDim] "weight"
  return ⟨weight,none⟩

structure LayerNorm (ε : Type) where
  weight : Tensor
  eps : ε

def layerNormNoBias {ε : Type} (size : Nat) (eps : ε) (vb : VarBuilder) : Option (LayerNorm ε) := do
  let weight ← vb.get [size] "weight"
  return ⟨weight,eps⟩

-- What the head reads of either architecture's configuration.
inductive BackboneConfig (ε : Type) where
  | bert (hiddenSize : Nat)
  | modernBert (hiddenSize : Nat) (layerNormEps : ε)

inductive SequenceHead (ε : Type) where
  | bert (pooler classifier : Linear)
  | modernBert (dense : Linear) (norm : LayerNorm ε) (classifier : Linear) (meanPooling : Bool)

variable {ε : Type}

-- The width of what the head puts out.
def SequenceHead.width : SequenceHead ε → Option Nat
  | .bert _ classifier => classifier.width
  | .modernBert _ _ classifier _ => classifier.width

-- Checkpoints differ in whether the backbone is nested under `bert.`.
def bertPooler (vb : VarBuilder) (hiddenSize : Nat) : Option Linear :=
  ["bert.pooler.dense","pooler.dense"].findSome? fun p => linear hiddenSize hiddenSize (vb.pp p)

-- A stored bias is applied only where the configuration has one.
def modernClassifier (vb : VarBuilder) (classifierBias : Bool) (hiddenSize n : Nat) : Option Linear :=
  if classifierBias then linear hiddenSize n (vb.pp "classifier")
  else linearNoBias hiddenSize n (vb.pp "classifier")

def load (vb : VarBuilder) (config : BackboneConfig ε) (labels : LabelMap) (meanPooling classifierBias : Bool) :
    Except String (Option (SequenceHead ε)) :=
  let n := labels.labels.length
  if n < 2 then .ok none
  else
    match config with
    | .bert hiddenSize =>
      match bertPooler vb hiddenSize,linear hiddenSize n (vb.pp "classifier") with
      | some pooler,some classifier => .ok (some (.bert pooler classifier))
      | _,_ => .ok none
    | .modernBert hiddenSize layerNormEps =>
      let dense := linearNoBias hiddenSize hiddenSize ((vb.pp "head").pp "dense")
      let norm := layerNormNoBias hiddenSize layerNormEps ((vb.pp "head").pp "norm")
      match dense,norm,modernClassifier vb classifierBias hiddenSize n with
      | some dense,some norm,some classifier => .ok (some (.modernBert dense norm classifier meanPooling))
      | _,_,_ => .ok none

-- The tensors a layer of an architecture needs, by their full names.
def HasLinear (tensors : OrderedMap String (List Nat)) (weight bias : String) (inDim outDim : Nat) : Prop :=
  tensors.get weight = some [outDim,inDim] ∧ tensors.get bias = some [outDim]

def Buildable (tensors : OrderedMap String (List Nat)) (n : Nat) (classifierBias : Bool) :
    BackboneConfig ε → Prop
  | .bert hiddenSize =>
    (HasLinear tensors "bert.pooler.dense.weight" "bert.pooler.dense.bias" hiddenSize hiddenSize ∨
      HasLinear tensors "pooler.dense.weight" "pooler.dense.bias" hiddenSize hiddenSize) ∧
    HasLinear tensors "classifier.weight" "classifier.bias" hiddenSize n
  | .modernBert hiddenSize _ =>
    tensors.get "head.dense.weight" = some [hiddenSize,hiddenSize] ∧
    tensors.get "head.norm.weight" = some [hiddenSize] ∧
    tensors.get "classifier.weight" = some [n,hiddenSize] ∧
    (classifierBias = true → tensors.get "classifier.bias" = some [n])

-- A declared head is built or it is an error; only a checkpoint without a
-- classifier loads as one without a head.
structure Declared (tensors : OrderedMap String (List Nat)) (n : Nat) (classifierBias : Bool)
    (config : BackboneConfig ε) (result : Except String (Option (SequenceHead ε))) : Prop where
  headless : result = .ok none → tensors.get "classifier.weight" = none
  failed : tensors.get "classifier.weight" ≠ none → ¬ Buildable tensors n classifierBias config →
    ∃ e, result = .error e
  built : tensors.get "classifier.weight" ≠ none → Buildable tensors n classifierBias config →
    ∃ head, result = .ok (some head) ∧ head.width = some n

section Layers
variable {tensors : OrderedMap String (List Nat)} {vb : VarBuilder} {inDim outDim : Nat}

theorem get_isSome {shape : List Nat} {name full : String} (named : ".".intercalate (vb.path ++ [name]) = full) :
    (vb.get shape name).isSome = true ↔ vb.tensors.get full = some shape := by
  simp only [VarBuilder.get,named]
  split
  · rename_i found
    simp [found]
  · rename_i missing
    simp [missing]

theorem get_shape {shape : List Nat} {name : String} {tensor : Tensor} (found : vb.get shape name = some tensor) :
    tensor.shape = shape := by
  simp only [VarBuilder.get] at found
  split at found
  · rw [← Option.some.inj found]
  · cases found

theorem linear_isSome (vb : VarBuilder) (inDim outDim : Nat) {weight bias : String}
    (first : ".".intercalate (vb.path ++ ["weight"]) = weight)
    (second : ".".intercalate (vb.path ++ ["bias"]) = bias) :
    (linear inDim outDim vb).isSome = true ↔ HasLinear vb.tensors weight bias inDim outDim := by
  rw [HasLinear,← get_isSome first,← get_isSome second]
  cases left : vb.get [outDim,inDim] "weight" <;> cases right : vb.get [outDim] "bias" <;>
    simp [linear,left,right]

theorem linearNoBias_isSome (vb : VarBuilder) (inDim outDim : Nat) {weight : String}
    (named : ".".intercalate (vb.path ++ ["weight"]) = weight) :
    (linearNoBias inDim outDim vb).isSome = true ↔ vb.tensors.get weight = some [outDim,inDim] := by
  rw [← get_isSome named]
  cases read : vb.get [outDim,inDim] "weight" <;> simp [linearNoBias,read]

theorem layerNormNoBias_isSome (vb : VarBuilder) (size : Nat) (eps : ε) {weight : String}
    (named : ".".intercalate (vb.path ++ ["weight"]) = weight) :
    (layerNormNoBias size eps vb).isSome = true ↔ vb.tensors.get weight = some [size] := by
  rw [← get_isSome named]
  cases read : vb.get [size] "weight" <;> simp [layerNormNoBias,read]

theorem linear_width {layer : Linear} (built : linear inDim outDim vb = some layer) :
    layer.width = some outDim := by
  obtain ⟨weight,read,rest⟩ := Option.bind_eq_some_iff.mp built
  obtain ⟨bias,_,same⟩ := Option.bind_eq_some_iff.mp rest
  cases same
  rw [Linear.width,get_shape read]
  rfl

theorem linearNoBias_width {layer : Linear} (built : linearNoBias inDim outDim vb = some layer) :
    layer.width = some outDim := by
  obtain ⟨weight,read,same⟩ := Option.bind_eq_some_iff.mp built
  cases same
  rw [Linear.width,get_shape read]
  rfl

end Layers

section Load
variable {tensors : OrderedMap String (List Nat)} {classifierBias : Bool}

theorem bertPooler_isSome (hiddenSize : Nat) :
    (bertPooler (VarBuilder.root tensors) hiddenSize).isSome = true ↔
    HasLinear tensors "bert.pooler.dense.weight" "bert.pooler.dense.bias" hiddenSize hiddenSize ∨
      HasLinear tensors "pooler.dense.weight" "pooler.dense.bias" hiddenSize hiddenSize := by
  have nested := linear_isSome ((VarBuilder.root tensors).pp "bert.pooler.dense") hiddenSize hiddenSize rfl rfl
  have bare := linear_isSome ((VarBuilder.root tensors).pp "pooler.dense") hiddenSize hiddenSize rfl rfl
  rw [bertPooler,List.findSome?_isSome_iff]
  simp only [List.mem_cons,List.not_mem_nil,or_false,exists_eq_or_imp,exists_eq_left]
  exact or_congr nested bare

theorem classifier_isSome (tensors : OrderedMap String (List Nat)) (hiddenSize n : Nat) :
    (linear hiddenSize n ((VarBuilder.root tensors).pp "classifier")).isSome = true ↔
      HasLinear tensors "classifier.weight" "classifier.bias" hiddenSize n :=
  linear_isSome ((VarBuilder.root tensors).pp "classifier") hiddenSize n rfl rfl

theorem modernClassifier_isSome (hiddenSize n : Nat) :
    (modernClassifier (VarBuilder.root tensors) classifierBias hiddenSize n).isSome = true ↔
      tensors.get "classifier.weight" = some [n,hiddenSize] ∧
        (classifierBias = true → tensors.get "classifier.bias" = some [n]) := by
  cases classifierBias with
  | true =>
      have both := classifier_isSome tensors hiddenSize n
      simpa [modernClassifier,HasLinear] using both
  | false =>
      have weight : (linearNoBias hiddenSize n ((VarBuilder.root tensors).pp "classifier")).isSome = true ↔
          tensors.get "classifier.weight" = some [n,hiddenSize] :=
        linearNoBias_isSome ((VarBuilder.root tensors).pp "classifier") hiddenSize n rfl
      simpa [modernClassifier] using weight

theorem modernClassifier_width {vb : VarBuilder} {hiddenSize n : Nat} {layer : Linear}
    (built : modernClassifier vb classifierBias hiddenSize n = some layer) : layer.width = some n := by
  cases classifierBias with
  | true => exact linear_width built
  | false => exact linearNoBias_width built

-- A head that can be built is; every other case is no head, without an error.
theorem load_spec (tensors : OrderedMap String (List Nat)) (config : BackboneConfig ε) (labels : LabelMap)
    (meanPooling classifierBias : Bool) (many : 2 ≤ labels.labels.length) :
    (Buildable tensors labels.labels.length classifierBias config ∧
      ∃ head, load (VarBuilder.root tensors) config labels meanPooling classifierBias = .ok (some head) ∧
        head.width = some labels.labels.length) ∨
    (¬ Buildable tensors labels.labels.length classifierBias config ∧
      load (VarBuilder.root tensors) config labels meanPooling classifierBias = .ok none) := by
  have enough : ¬ labels.labels.length < 2 := by omega
  cases config with
  | bert hiddenSize =>
      simp only [load,Buildable,if_neg enough]
      rw [← bertPooler_isSome,← classifier_isSome]
      cases bertPooler (VarBuilder.root tensors) hiddenSize with
      | none => exact .inr ⟨by simp,rfl⟩
      | some dense =>
          cases classifier : linear hiddenSize labels.labels.length ((VarBuilder.root tensors).pp "classifier") with
          | none => exact .inr ⟨by simp,rfl⟩
          | some layer => exact .inl ⟨by simp,_,rfl,linear_width classifier⟩
  | modernBert hiddenSize layerNormEps =>
      have first : (linearNoBias hiddenSize hiddenSize (((VarBuilder.root tensors).pp "head").pp "dense")).isSome =
          true ↔ tensors.get "head.dense.weight" = some [hiddenSize,hiddenSize] :=
        linearNoBias_isSome _ hiddenSize hiddenSize rfl
      have second : (layerNormNoBias hiddenSize layerNormEps
          (((VarBuilder.root tensors).pp "head").pp "norm")).isSome = true ↔
          tensors.get "head.norm.weight" = some [hiddenSize] :=
        layerNormNoBias_isSome _ hiddenSize layerNormEps rfl
      simp only [load,Buildable,if_neg enough]
      rw [← first,← second,← modernClassifier_isSome]
      cases linearNoBias hiddenSize hiddenSize (((VarBuilder.root tensors).pp "head").pp "dense") with
      | none => exact .inr ⟨by simp,rfl⟩
      | some dense =>
          cases layerNormNoBias hiddenSize layerNormEps (((VarBuilder.root tensors).pp "head").pp "norm") with
          | none => exact .inr ⟨by simp,rfl⟩
          | some norm =>
              cases classifier : modernClassifier (VarBuilder.root tensors) classifierBias hiddenSize
                  labels.labels.length with
              | none => exact .inr ⟨by simp,rfl⟩
              | some layer => exact .inl ⟨by simp,_,rfl,modernClassifier_width classifier⟩

-- No error ever leaves `load`, so a declared head has to be buildable.
theorem load_declared_iff (tensors : OrderedMap String (List Nat)) (config : BackboneConfig ε) (labels : LabelMap)
    (meanPooling classifierBias : Bool) (many : 2 ≤ labels.labels.length) :
    Declared tensors labels.labels.length classifierBias config
      (load (VarBuilder.root tensors) config labels meanPooling classifierBias) ↔
    (tensors.get "classifier.weight" = none ∨ Buildable tensors labels.labels.length classifierBias config) := by
  rcases load_spec tensors config labels meanPooling classifierBias many with ⟨whole,head,loaded,wide⟩ | ⟨broken,loaded⟩
  · rw [loaded]
    refine ⟨fun _ => .inr whole,fun _ => ⟨?_,fun _ unbuilt => absurd whole unbuilt,fun _ _ => ⟨head,rfl,wide⟩⟩⟩
    intro none
    cases none
  · rw [loaded]
    constructor
    · intro declared
      exact .inl (declared.headless rfl)
    · intro condition
      have absent := condition.resolve_right broken
      exact ⟨fun _ => absent,fun present => absurd absent present,fun present => absurd absent present⟩

end Load

def fourWide : BackboneConfig Nat := .bert 4

def threeClasses : OrderedMap String (List Nat) :=
  ⟨[("classifier.bias",[3]),("classifier.weight",[3,4]),("pooler.dense.bias",[4]),("pooler.dense.weight",[4,4])],
    by decide⟩

theorem load_declared_iff_three :
    Declared threeClasses 3 true fourWide (load (VarBuilder.root threeClasses) fourWide ⟨["A","B","C"]⟩ false true) ↔
    (threeClasses.get "classifier.weight" = none ∨ Buildable threeClasses 3 true fourWide) :=
  load_declared_iff threeClasses fourWide ⟨["A","B","C"]⟩ false true (by decide)

theorem declared_head_dropped :
    load (VarBuilder.root threeClasses) fourWide ⟨["TRIVIAL","WORK"]⟩ false true = .ok none ∧
    ¬ Declared threeClasses 2 true fourWide
      (load (VarBuilder.root threeClasses) fourWide ⟨["TRIVIAL","WORK"]⟩ false true) := by
  have dropped : load (VarBuilder.root threeClasses) fourWide ⟨["TRIVIAL","WORK"]⟩ false true = .ok none := rfl
  have present : threeClasses.get "classifier.weight" = some [3,4] := by decide
  refine ⟨dropped,fun declared => ?_⟩
  have absent := declared.headless dropped
  rw [present] at absent
  cases absent

-- What the embedder keeps of both: the labels only beside a head. The pooling and
-- the bias flag are the configuration's, if it has them.
def headAndLabels (vb : VarBuilder) (config : BackboneConfig ε) (labels : Option LabelMap)
    (classifierPooling : Option String) (classifierBias : Option Bool) :
    Except String (Option (SequenceHead ε) × Option LabelMap) := do
  let meanPooling := (classifierPooling.map fun s => s.toLower == "mean").getD false
  let head ← match labels with
    | some l => load vb config l meanPooling (classifierBias.getD true)
    | none => .ok none
  return (head,if head.isSome then labels else none)

end SemanticClassifier.Head
