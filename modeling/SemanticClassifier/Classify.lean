import Mathlib.Data.Finmap

namespace SemanticClassifier.Classify

inductive ContextCompleteness where
  | unspecified | full | delta
  deriving DecidableEq

structure ClassificationInput where
  text : String
  requestedSignals : List String
  sessionMetadata : Finmap fun _ : String => String
  contextCompleteness : ContextCompleteness

-- `φ` stands for f32 and `σ` for f64 throughout.
structure Embedding (φ : Type) where
  vector : List φ
  logits : Option (List φ)
  deriving DecidableEq

structure RankedSignal (σ : Type) where
  id : String
  score : σ
  deriving DecidableEq

inductive ClassifyStatus where
  | ok | abstain | error
  deriving DecidableEq

structure ClassificationResult (σ : Type) where
  classifierId : String
  modelRevision : String
  tokenizerRevision : String
  taxonomyRevision : String
  status : ClassifyStatus
  ranked : List (RankedSignal σ)
  deriving DecidableEq

inductive ClassifyError where
  | notReady
  | resourceExhausted
  | requestExpired
  | tokenizer (e : String)
  | embedding (e : String)
  | unavailable (m : String)
  deriving DecidableEq

abbrev Outcome (σ : Type) := Except ClassifyError (ClassificationResult σ)

inductive RankingMode where
  | trainedHead | anchorCosine
  deriving DecidableEq

structure RuntimeMetadata where
  classifierId : String
  signal : String
  modelRevision : String
  tokenizerRevision : String
  taxonomyRevision : String
  artifactDigest : Option String
  rankingMode : RankingMode

def RuntimeMetadata.cacheIdentity (metadata : RuntimeMetadata) :
    String × String × String × String × Option String :=
  (metadata.classifierId,metadata.modelRevision,metadata.tokenizerRevision,metadata.taxonomyRevision,
    metadata.artifactDigest)

def insufficientContextAbstention (σ : Type) (metadata : RuntimeMetadata) : ClassificationResult σ where
  classifierId := metadata.classifierId
  modelRevision := metadata.modelRevision
  tokenizerRevision := metadata.tokenizerRevision
  taxonomyRevision := metadata.taxonomyRevision
  status := .abstain
  ranked := []

structure ClassifierRuntime (φ σ : Type) where
  embed : ClassificationInput → Except ClassifyError (Embedding φ)
  rank : Embedding φ → ClassificationInput → Outcome σ
  metadata : RuntimeMetadata

-- The trait's default: embed once, then rank.
def ClassifierRuntime.classify (runtime : ClassifierRuntime φ σ) (input : ClassificationInput) :
    Outcome σ :=
  match runtime.embed input with
  | .ok embedding => runtime.rank embedding input
  | .error e => .error e

end SemanticClassifier.Classify
