import SemanticClassifier.Candle
import SemanticClassifier.HeadConfig
import SemanticClassifier.HeadLoad
import SemanticClassifier.JsonValue
import SemanticClassifier.Runtime
import SemanticClassifier.Server

namespace SemanticClassifier.Startup
open Cache Candle Classify Floating Head SemanticClassifier.Runtime Taxonomy

inductive EmbeddingError where
  | io (e : String)
  | json (e : String)
  | candle (e : String)
  | tokenizer (e : String)
  | missingField (name : String)
  | unsupportedRopeScaling (kind : String)
  deriving DecidableEq

def EmbeddingError.toString : EmbeddingError → String
  | .io e => "embedding config io error: " ++ e
  | .json e => "embedding config json error: " ++ e
  | .unsupportedRopeScaling kind => "checkpoint declares rope_scaling type '" ++ kind ++
      "', which this build does not implement. Only 'yarn' is supported (see src/modernbert.rs). " ++
      "Loading an unimplemented scaling would emit rotated embeddings while argmax still looked plausible, " ++
      "so this refuses rather than serving wrong scores."
  | .candle e => "embedding candle error: " ++ e
  | .tokenizer e => "embedding tokenizer error: " ++ e
  | .missingField name => "embedding config missing field: " ++ name

-- The crates: JSON readers, the checkpoint and its tensors, the two models, the
-- arithmetic on tensors, and the tokenizer.
structure Crates (β μ ω ν τ φ : Type) where
  fromStr : String → Except String Json
  modelType : String → Except String (Option String)
  bertConfig : String → Except String β
  modernConfig : String → Except String μ
  bertHidden : β → Nat
  modernHidden : μ → Nat
  modernEps : μ → φ
  id2label : String → Option (Option (OrderedMap String String))
  mmapedSafetensors : List UInt8 → Except String ω
  tensors : ω → OrderedMap String (List Nat)
  bertModel : ω → β → Except String ν
  modernModel : ω → μ → Except String ν
  forward : ν → List UInt32 → Except String (List (List φ))
  poolAndNormalize : List (List φ) → Except String (List φ)
  logits : ω → SequenceHead φ → List (List φ) → Except String (List φ)
  tokenizer : List UInt8 → Except String τ
  encode : τ → String → Except String (List UInt32)

section Load
variable {β μ ω ν τ φ : Type} (crates : Crates β μ ω ν τ φ)

inductive Config (β μ : Type) where
  | bert (config : β)
  | modernBert (config : μ)

def ropeScalingKind (raw : String) : Option String :=
  match crates.fromStr raw with
  | .error _ => none
  | .ok v =>
    match v.get "rope_scaling" with
    | none => none
    | some rs => if rs.isNull then none else some (((rs.get "rope_type").bind Json.asStr).getD "unknown")

-- `eq_ignore_ascii_case` of "yarn".
def honoured (kind : String) : Bool := kind.toLower = "yarn"

def parseConfig (raw : String) : Except EmbeddingError (Config β μ) := do
  let kind ← (crates.modelType raw).mapError .json
  if kind = none ∨ kind = some "bert" then
    let config ← (crates.bertConfig raw).mapError .json
    return .bert config
  else if kind = some "modernbert" then
    match (ropeScalingKind crates raw).filter fun kind => !honoured kind with
    | some kind => .error (.unsupportedRopeScaling kind)
    | none =>
      let config ← (crates.modernConfig raw).mapError .json
      return .modernBert config
  else .error (.missingField "unsupported model_type; llm-d-sc serves bert and modernbert")

def Config.hiddenSize : Config β μ → Nat
  | .bert config => crates.bertHidden config
  | .modernBert config => crates.modernHidden config

def Config.backbone : Config β μ → BackboneConfig φ
  | .bert config => .bert (crates.bertHidden config)
  | .modernBert config => .modernBert (crates.modernHidden config) (crates.modernEps config)

def loadBackbone (weights : ω) : Config β μ → Except String ν
  | .bert config => crates.bertModel weights config
  | .modernBert config => crates.modernModel weights config

def read (files : Snapshot) (path : PathBuf) : Except String (List UInt8) := do
  let file ← files.openFile path
  file

def readToString (files : Snapshot) (path : PathBuf) : Except EmbeddingError String :=
  match read files path with
  | .error e => .error (.io e)
  | .ok bytes =>
    match String.fromUTF8? ⟨bytes.toArray⟩ with
    | none => .error (.io "stream did not contain valid UTF-8")
    | some text => .ok text

-- Both spellings of the pooling configuration.
def contractLoad (files : Snapshot) (path : PathBuf) : Except EmbeddingError Nat := do
  let raw ← readToString files path
  let root ← (crates.fromStr raw).mapError .json
  match ((root.get "word_embedding_dimension").or (root.get "embedding_dimension")).bind Json.asU64 with
  | none => .error (.missingField "word_embedding_dimension")
  | some dimension => return dimension

def classifierPooling (raw : String) : Option String :=
  match crates.fromStr raw with
  | .error _ => none
  | .ok v => (v.get "classifier_pooling").bind Json.asStr

def classifierBias (raw : String) : Option Bool :=
  match crates.fromStr raw with
  | .error _ => none
  | .ok v => (v.get "classifier_bias").bind Json.asBool

def embedderOf (weights : ω) (model : ν) (tokenizer : τ) (head : Option (SequenceHead φ))
    (labels : Option LabelMap) : Embedding.Embedder φ where
  tokenize text := (crates.encode tokenizer text).mapError fun e =>
    (EmbeddingError.tokenizer ("tokenizer error: " ++ e)).toString
  embedIds ids := (do
    let sequence ← crates.forward model ids
    crates.poolAndNormalize sequence : Except String _).mapError fun e => (EmbeddingError.candle e).toString
  embedAndClassify ids := (do
    let sequence ← crates.forward model ids
    let embedding ← crates.poolAndNormalize sequence
    match head with
    | some h =>
      let logits ← crates.logits weights h sequence
      return (embedding,some logits)
    | none => return (embedding,none) : Except String _).mapError fun e => (EmbeddingError.candle e).toString
  labels := labels

-- Only a pooling configuration that is not there goes unchecked.
def checkPooling (files : Snapshot) (pooling : PathBuf) (hiddenSize : Nat) : Except EmbeddingError Unit :=
  if pathExists files pooling then do
    let dimension ← contractLoad crates files pooling
    if dimension = hiddenSize then .ok () else .error (.missingField "word_embedding_dimension != hidden_size")
  else .ok ()

def load (files : Snapshot) (modelConfig weights tokenizerPath pooling : PathBuf) :
    Except EmbeddingError (Embedding.Embedder φ) := do
  let raw ← readToString files modelConfig
  let config ← parseConfig crates raw
  let bytes ← (read files weights).mapError .candle
  let checkpoint ← (crates.mmapedSafetensors bytes).mapError .candle
  let model ← (loadBackbone crates checkpoint config).mapError .candle
  let (head,labels) ← (headAndLabels (VarBuilder.root (crates.tensors checkpoint)) (config.backbone crates)
    (fromConfig crates.id2label raw) (classifierPooling crates raw) (classifierBias crates raw)).mapError .candle
  let file ← (read files tokenizerPath).mapError fun e => .tokenizer ("tokenizer error: " ++ e)
  let tokenizer ← (crates.tokenizer file).mapError fun e => .tokenizer ("tokenizer error: " ++ e)
  checkPooling crates files pooling (config.hiddenSize crates)
  return embedderOf crates checkpoint model tokenizer head labels

end Load

def core : List String := ["model.safetensors","config.json","tokenizer.json"]

def modelcarRequired : List String := ["model.safetensors","config.json","tokenizer.json","1_Pooling/config.json"]

def modelcarRequiredFiles (files : Snapshot) (dir : PathBuf) : List String :=
  if pathExists files (join dir "modules.json") then modelcarRequired else core

section Start
variable {β μ ω ν τ φ : Type} (crates : Crates β μ ω ν τ φ) (display : PathBuf → String)
  (blake3 : List UInt8 → Vector UInt8 32)

def loadFrom (files : Snapshot) (dir : PathBuf) : Except EmbeddingError (Embedding.Embedder φ) :=
  load crates files (join dir "config.json") (join dir "model.safetensors") (join dir "tokenizer.json")
    (join dir "1_Pooling/config.json")

def fromModelcarWith (files : Snapshot) (dir : PathBuf) (definition : ValidDefinition) :
    Except ClassifyError (CandleClassifier φ) :=
  match loadFrom crates files dir with
  | .error e => .error (.embedding e.toString)
  | .ok embedder =>
    withTaxonomyAndDigest embedder definition
      (modelcarDigest display blake3 files dir (modelcarRequiredFiles files dir)).toOption

def warmupInput : ClassificationInput := ⟨"this is a golden sensitivity input",["sensitivity"],∅,.full⟩

-- `definition` is what the environment selects, or how that fails.
def loadAndWarmModelcar (σ : Type) [Floating φ] [Floating σ] [Widening φ σ] (files : Snapshot) (dir : PathBuf)
    (definition : Except String ValidDefinition) : Except ClassifyError (CandleClassifier φ) :=
  match ((new : Runtime τ).warmupModelcar display blake3 files dir (modelcarRequiredFiles files dir)).1 with
  | .error e => .error (.unavailable e)
  | .ok () =>
    match definition with
    | .error e => .error (.unavailable e)
    | .ok definition =>
      match fromModelcarWith crates display blake3 files dir definition with
      | .error e => .error e
      | .ok classifier =>
        match (classifier.runtime σ).classify warmupInput with
        | .error e => .error (.unavailable ("warmup forward failed: " ++ Server.display e))
        | .ok _ => .ok classifier

end Start

end SemanticClassifier.Startup
